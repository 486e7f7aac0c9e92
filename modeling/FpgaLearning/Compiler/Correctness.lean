/-
Compiled programs do what the interpreter does.

- `installed`: the functions of an accepted program stand in the ROM.
- `EndLoop`: after `main` the machine is in a loop of two words, for ever.
- `simulates_accepted`: with every amount of fuel the instruction set simulates the interpreter.
- `compiler_correct`: as long as a run stays within its limits, the machine writes what the interpreter prints.
-/
import FpgaLearning.Compiler.Globals

namespace FpgaLearning.Compiler

open FpgaLearning.Memory FpgaLearning.Stack FpgaLearning.Stack.Arch FpgaLearning.Traced

variable {z : DivByZero} {rom : Word → Word} {addr : Ident → Option ℕ} {c c' : Context} {is : List Item} {p n : ℕ}
  {env : Env} {s s' : Arch} {H : HashOrder (Ident × ℕ)} {R : HashOrder (Ident × List ℕ)} {prog : Prog} {body : Stmts}
  {w op op' : Word} {f : Ident} {l : Label} {mem : RamWords} {out : List Opcode} {ls : List (Ident × ℕ)}

/-! ## Functions -/

theorem functionBody_isSome (h : f ∈ funcNames prog) : (functionBody prog f).isSome = true := by
  induction prog with
  | nil => exact nomatch h
  | cons d rest ih =>
    cases d with
    | varDeclStmt x e => exact ih h
    | funcDecl f' body =>
      rw [functionBody]
      split_ifs with hf
      · rfl
      · exact ih ((List.mem_cons.1 h).resolve_left fun heq => hf heq.symm)

theorem functionBody_selfFree (h : SelfFree prog) (hbody : functionBody prog f = some body) : body.SelfFree := by
  induction prog with
  | nil => exact nomatch hbody
  | cons d rest ih =>
    cases d with
    | varDeclStmt x e => exact ih h.2 hbody
    | funcDecl f' body' =>
      rw [functionBody] at hbody
      split_ifs at hbody with hf
      · exact Option.some.inj hbody ▸ h.1
      · exact ih h.2 hbody

theorem functionBody_calls (hbody : functionBody prog f = some body) : ∀ g ∈ body.calls, g ∈ bodyCalls prog := by
  induction prog with
  | nil => exact nomatch hbody
  | cons d rest ih =>
    cases d with
    | varDeclStmt x e => exact ih hbody
    | funcDecl f' body' =>
      rw [functionBody] at hbody
      split_ifs at hbody with hf
      · obtain rfl := Option.some.inj hbody
        exact fun g hg => List.mem_append_left _ hg
      · exact fun g hg => List.mem_append_right _ (ih hbody g hg)

/-- where a function stands -/
theorem funcDecls_laid (h : Pass.funcDecls H prog c = (is, .ok c')) (hlaid : Laid rom addr p is)
    (hbody : functionBody prog f = some body) : ∃ q js c₁ c₂, c₁.allocator = c.allocator ∧ c₁.below = c.below ∧
      Pass.funcDecl H f body c₁ = (js, .ok c₂) ∧ Laid rom addr q js := by
  induction prog generalizing c is p with
  | nil => exact nomatch hbody
  | cons d rest ih =>
    cases d with
    | varDeclStmt x e => exact ih h hlaid hbody
    | funcDecl f' body' =>
      obtain ⟨is₁, c₁, is₂, h₁, h₂, rfl⟩ := Pass.andThen_ok_iff.1 h
      obtain ⟨hlaid₁, hlaid₂⟩ := laid_append.1 hlaid
      rw [functionBody] at hbody
      split_ifs at hbody with hf
      · obtain rfl := Option.some.inj hbody
        subst hf
        exact ⟨p, is₁, c, c₁, rfl, rfl, h₁, hlaid₁⟩
      · obtain ⟨hallocator, hbelow⟩ := Pass.funcDecl_context h₁
        obtain ⟨q, js, c₂, c₃, ha, hb, hrest⟩ := ih h₂ hlaid₂ hbody
        exact ⟨q, js, c₂, c₃, ha.trans hallocator, hb.trans hbelow, hrest⟩

theorem installed (h : Pass.funcDecls H prog c = (is, .ok c')) (hlaid : Laid rom addr p is) (hbelow : c.below = [])
    (hself : SelfFree prog) (hdeclared : ∀ f ∈ calledNames prog, f ∈ funcNames prog) :
    Installed H rom addr c.allocator prog where
  laid f body hbody := by
    obtain ⟨q, js, c₁, c₂, ha, hb, hrest⟩ := funcDecls_laid h hlaid hbody
    exact ⟨q, js, c₁, c₂, ha, hb.trans hbelow, hrest⟩
  selfFree f body := functionBody_selfFree hself
  declared f body hbody g hg :=
    functionBody_isSome (hdeclared g (List.mem_cons_of_mem _ (functionBody_calls hbody g hg)))

/-! ## The end loop -/

/-- one of the two words of the loop at `p` is next -/
def EndLoop (p : ℕ) (s : Arch) : Prop := At p 0 s ∨ At (p + 1) 1 s ∧ s.word 0 = BitVec.ofNat 32 p

theorem EndLoop.step (hlaid : Laid rom addr p [.label l, .ref l, .word op]) (hop : Assembler.ajmp = .ok op)
    (h : EndLoop p s) : ∃ s', (machine z rom).Runs 1 s [] s' ∧ EndLoop p s' ∧ s'.fp = s.fp := by
  obtain ⟨hlabel, ⟨a, ha, hfits, hrom⟩, hjmp, -⟩ := hlaid
  obtain rfl := Option.some.inj (ha.symm.trans hlabel)
  rcases h with hat | ⟨hat, htop⟩
  · have hfetch : rom s.pc = BitVec.ofNat 32 a := by rw [hat.pc, hrom]
    have hrun := runs_const (z := z) (decode_ref hfits hfetch) hat.sp (by omega)
    exact ⟨_, hrun, .inr ⟨⟨by rw [hat.pc, ofNat_add_one], rfl, by omega⟩, word_put rfl⟩, rfl⟩
  · have hdec : decode (rom s.pc) = _ := (hat.pc ▸ hjmp : rom s.pc = op) ▸ Assembler.decode_op hop
    exact ⟨_, runs_ajmp hdec hat.sp (by omega), .inl ⟨htop, rfl, by omega⟩, rfl⟩

theorem EndLoop.stays (hlaid : Laid rom addr p [.label l, .ref l, .word op]) (hop : Assembler.ajmp = .ok op)
    (h : EndLoop p s) (n : ℕ) : ∃ s', (machine z rom).Runs n s [] s' ∧ EndLoop p s' ∧ s'.fp = s.fp :=
  Machine.silent_of_inv (P := fun s' => EndLoop p s' ∧ s'.fp = s.fp) (fun s₁ h₁ => by
    obtain ⟨s₂, hrun, hloop, hfp⟩ := EndLoop.step (z := z) hlaid hop h₁.1
    exact ⟨s₂, hrun, hloop, hfp.trans h₁.2⟩) ⟨h, rfl⟩ n

theorem EndLoop.silent (hlaid : Laid rom addr p [.label l, .ref l, .word op]) (hop : Assembler.ajmp = .ok op)
    (h : EndLoop p s) (n : ℕ) : (machine z rom).trace n s = [] := by
  obtain ⟨s', hrun, -⟩ := EndLoop.stays (z := z) hlaid hop h n
  exact hrun.trace

/-- the loop is within the limits, so the steps before it decide -/
theorem EndLoop.always {m : ℕ} (hlaid : Laid rom addr p [.label l, .ref l, .word op]) (hop : Assembler.ajmp = .ok op)
    (h : EndLoop p ((machine z rom).step^[m] s)) (hbefore : ∀ n ≤ m, Safe ((machine z rom).step^[n] s)) :
    (machine z rom).Always Safe s := by
  intro n
  by_cases hn : n ≤ m
  · exact hbefore n hn
  · obtain ⟨k, rfl⟩ := Nat.exists_eq_add_of_le (Nat.le_of_not_le hn)
    obtain ⟨s', hrun, hloop, hfp⟩ := EndLoop.stays (z := z) hlaid hop h k
    rw [Nat.add_comm, Function.iterate_add_apply, hrun.state]
    refine ⟨?_, hfp ▸ (hbefore m le_rfl).fp⟩
    rcases hloop with hat | ⟨hat, -⟩
    · rw [hat.sp]
      decide
    · rw [hat.sp]
      decide

/-- the loop at the end of every program: a word that pushes its own address, and a jump there -/
def InEndLoop (rom : Word → Word) (s : Arch) : Prop := ∃ p op, Assembler.ajmp = .ok op ∧
  rom (BitVec.ofNat 32 p) = BitVec.ofNat 32 p ∧ rom (BitVec.ofNat 32 (p + 1)) = op ∧
  (s.pc = BitVec.ofNat 32 p ∨ s.pc = BitVec.ofNat 32 (p + 1))

theorem EndLoop.inEndLoop (hlaid : Laid rom addr p [.label l, .ref l, .word op]) (hop : Assembler.ajmp = .ok op)
    (h : EndLoop p s) : InEndLoop rom s := by
  obtain ⟨hlabel, ⟨a, ha, -, hrom⟩, hjmp, -⟩ := hlaid
  obtain rfl := Option.some.inj (ha.symm.trans hlabel)
  exact ⟨a, op, hop, hrom, hjmp, h.imp (fun hat => hat.pc) fun hat => hat.1.pc⟩

/-! ## Programs -/

/-- the words of a program and the interpreter print the same; after `main` the machine stays in the end loop -/
structure Implements (z : DivByZero) (prog : Prog) (rom : Word → Word) (s : Arch) : Prop where
  defined : ∀ n, (interpret z prog n).2 ≠ .error .stuck
  printed : ∀ n, ∃ k, (machine z rom).trace k s = (interpret z prog n).1
  only : ∀ k, ∃ n, (machine z rom).trace k s <+: (interpret z prog n).1
  ended : ∀ n env, (interpret z prog n).2 = .ok env → ∃ m, ∀ k, m ≤ k →
    (machine z rom).trace k s = (interpret z prog n).1 ∧ InEndLoop rom ((machine z rom).step^[k] s)

/-- `lconst v; lfp` -/
theorem moves_lfp {v : Word} (hlaid : Laid rom addr p (.word op :: .word op' :: is)) (hop : Assembler.lconst v = .ok op)
    (hop' : Assembler.lfp = .ok op') (hat : At p n s) (hs : (machine z rom).Always Safe s) :
    ∃ s', (machine z rom).Runs 2 s [] s' ∧ At (p + 2) n s' ∧ s'.fp = v := by
  have hroom := hat.room
  have hdec : decode (rom s.pc) = _ := hat.fetch hlaid ▸ Assembler.decode_lconst hop
  have hrun₁ := runs_const (z := z) hdec hat.sp (by omega)
  obtain ⟨hmoved, htop⟩ := Moved.push hat (hs.last hrun₁) rfl rfl rfl rfl
  have hdec' : decode (rom (_ : Arch).pc) = _ := hmoved.pos.fetch hlaid.2 ▸ Assembler.decode_op hop'
  have hrun₂ := runs_lfp (z := z) hdec' hmoved.pos.sp (by omega)
  exact ⟨_, hrun₁.trans hrun₂, ⟨by rw [hmoved.pos.pc, ofNat_add_one], rfl, hroom⟩, htop⟩

theorem Pass.grows_varDecls : ∀ prog, Pass.Grows (Pass.varDecls prog)
  | [] => Pass.grows_nil
  | .varDeclStmt x e :: rest => Pass.grows_andThen (Pass.grows_varDecl x e) (grows_varDecls rest)
  | .funcDecl _ _ :: rest => grows_varDecls rest

theorem Pass.grows_startUp (prog : Prog) : Pass.Grows (Pass.startUp prog) :=
  (Pass.quiet_push _).grows.cons ((Pass.quiet_push _).grows.cons ((Pass.grows_varDecls prog).cons
    ((Pass.quiet_item _).grows.cons ((Pass.quiet_push _).grows.cons (Pass.Grows.cons (Pass.grows_fresh fun _ =>
      (Pass.quiet_item _).grows.cons ((Pass.quiet_item _).grows.cons ((Pass.quiet_push _).grows.cons Pass.grows_nil)))
      Pass.grows_nil)))))

/-- with every amount of fuel the machine comes to the end loop when the interpreter ends -/
theorem simulates_interpret (hstart : Pass.startUp prog .new = (is, .ok c)) (hlaid : Laid rom addr 0 is)
    (hi : Installed H rom addr c.allocator prog) (hmain : (functionBody prog "main").isSome = true)
    (hself : SelfFree prog) (hcount : globalCount prog ≤ 824) (hs : (machine z rom).Always Safe s) (hat : At 0 0 s) :
    ∃ p l op, Laid rom addr p [.label l, .ref l, .word op] ∧ Assembler.ajmp = .ok op ∧
      ∀ k, Simulates (machine z rom) k (fun _ => EndLoop p) s (interpret z prog k) := by
  obtain ⟨op₁, _, hop₁, h₁, rfl⟩ := Pass.cons_push_ok hstart
  obtain ⟨op₂, _, hop₂, h₂, rfl⟩ := Pass.cons_push_ok h₁
  obtain ⟨isg, cg, _, hglobals, h₃, rfl⟩ := Pass.seq_cons_ok_iff.1 h₂
  obtain ⟨op₃, _, hop₃, h₄, rfl⟩ := Pass.jump_ok h₃
  have h₄' : Pass.seq _ { cg with counter := cg.counter + 1 } = _ := Pass.last_ok h₄
  obtain ⟨_, h₅, rfl⟩ := Pass.item_ok h₄'
  obtain ⟨op₄, _, hop₄, h₆, rfl⟩ := Pass.jump_ok h₅
  obtain ⟨rfl, rfl⟩ := Pass.nil_ok h₆
  obtain ⟨s₁, hrun₁, hat₁, hfp₁⟩ := moves_lfp hlaid hop₁ hop₂ hat hs
  obtain ⟨-, -, hlaid⟩ := hlaid
  obtain ⟨hlaidg, hlaid⟩ := laid_append.1 hlaid
  obtain ⟨hlaidm, hlaide⟩ := laid_append.1 hlaid
  have hnew : InGlobals .new := ⟨rfl, rfl, rfl, .new 200 .global, Nat.zero_le _⟩
  have hf₁ : InFrame Context.new.allocator (.new 0 .stack) ⟨[], []⟩ 1024 0 s₁ :=
    ⟨hfp₁, le_rfl, by omega, le_rfl, rfl, rfl⟩
  have hfew : Context.new.allocator.firstFree + globalCount prog ≤ 824 := (Nat.zero_add _).trans_le hcount
  obtain ⟨env, s₂, j, hinit, hrun₂, hat₂, hf₂, hcg⟩ :=
    globals_moves hself hnew hfew hglobals hlaidg hat₁ hf₁ (hs.after hrun₁)
  refine ⟨_, _, op₄, hlaide, hop₄, fun k => ?_⟩
  have hcall : Pass.stmt H (.callStmt "main") cg.start = ([.ref (.func "main"), .word op₃], .ok cg.start) := by
    rw [Pass.stmt, Pass.call, hop₃]
    rfl
  have hmain' : Declared prog (Stmt.callStmt "main").calls := by
    rw [Stmt.calls]
    exact fun f hf => List.mem_singleton.1 hf ▸ hmain
  have hsim := correct_exec hi k (.callStmt "main") (by rw [Stmt.SelfFree]; trivial) hmain' _ _ _ _ _ _ _ _ _ hcall hlaidm
    hcg.start le_rfl hat₂ hf₂ ((hs.after hrun₁).after hrun₂)
  rw [interpret, hinit]
  exact ((hsim.mono le_rfl fun _ _ hends => .inl hends.pos).later hrun₂).later hrun₁

/-- the names that a program calls are functions, when no undeclared one looks like a generated label -/
theorem declared_of_accepted (hl : listing H prog = (is, .ok c)) (hd : Distinct is) (hr : Resolved is)
    (hnames : ∀ f ∈ calledNames prog, f ∉ funcNames prog → ∀ k, f ≠ (Label.generated k).name) :
    ∀ f ∈ calledNames prog, f ∈ funcNames prog := by
  have hapart : NamesApart H prog := by
    refine ⟨by rw [hl]; exact (distinct_iff.1 hd).2.2, fun c' _ => ?_⟩
    by_cases hall : ∀ f ∈ calledNames prog, f ∈ funcNames prog
    · exact .inl hall
    · push Not at hall
      obtain ⟨f, hf, hundeclared⟩ := hall
      exact .inr (.inl ⟨f, hf, hundeclared, fun k _ => hnames f hf hundeclared k⟩)
  exact hapart.declared hl hr

/-- what the compiler asks of a source program beyond accepting it -/
structure WithinLanguage (prog : Prog) : Prop where
  /-- no undeclared name looks like a generated label -/
  names : ∀ f ∈ calledNames prog, f ∉ funcNames prog → ∀ k, f ≠ (Label.generated k).name
  selfFree : SelfFree prog
  globals : globalCount prog ≤ 824

/-- the words of the program stand in the program memory from address 0 on -/
def Loaded (rom : Word → Word) (out : List Opcode) : Prop := ∀ n w, out[n]? = some w → rom (BitVec.ofNat 32 n) = w

theorem simulates_accepted (haccepted : MyVisitor.visitAll H R prog = .ok (out, ls)) (hlang : WithinLanguage prog)
    (hrom : Loaded rom out) (hs : (machine z rom).Always Safe (init mem)) :
    ∃ addr p l op, Laid rom addr p [.label l, .ref l, .word op] ∧ Assembler.ajmp = .ok op ∧
      ∀ k, Simulates (machine z rom) k (fun _ => EndLoop p) (init mem) (interpret z prog k) := by
  obtain ⟨is, c, hl, hd, hr, rfl⟩ := (visitAll_iff H prog out).1 ⟨ls, haccepted⟩
  have hdeclared := declared_of_accepted hl hd hr hlang.names
  obtain ⟨is₁, c₁, is₂, hstart, hfuncs, rfl⟩ := Listing.andThen_ok_iff.1 hl
  obtain ⟨hlaid₁, hlaid₂⟩ := laid_append.1 (laid_link hd hr hrom)
  have hi := installed hfuncs hlaid₂ (Pass.grows_startUp prog _ _ _ hstart).below hlang.selfFree hdeclared
  have hmain := functionBody_isSome (hdeclared "main" List.mem_cons_self)
  have hat : At 0 0 (init mem) := ⟨rfl, rfl, by omega⟩
  obtain ⟨p, l, op, hloop, hop, hsim⟩ :=
    simulates_interpret hstart hlaid₁ hi hmain hlang.selfFree hlang.globals hs hat
  exact ⟨_, p, l, op, hloop, hop, hsim⟩

/-- **Compiler correctness.** For every accepted program whose initialisers do not mention the variable they declare, with
at most 824 global variables and no undeclared name of a generated label, and every run within the limits: the machine
writes to `1 << 30` what the interpreter prints. -/
theorem compiler_correct (z : DivByZero) (H : HashOrder (Ident × ℕ)) (R : HashOrder (Ident × List ℕ)) (prog : Prog)
    (out : List Opcode) (ls : List (Ident × ℕ)) (rom : Word → Word) (mem : RamWords)
    (haccepted : MyVisitor.visitAll H R prog = .ok (out, ls))
    (hnames : ∀ f ∈ calledNames prog, f ∉ funcNames prog → ∀ k, f ≠ (Label.generated k).name)
    (hself : SelfFree prog) (hcount : globalCount prog ≤ 824)
    (hrom : ∀ n w, out[n]? = some w → rom (BitVec.ofNat 32 n) = w) (hs : (machine z rom).Always Safe (init mem)) :
    Implements z prog rom (init mem) := by
  obtain ⟨addr, p, l, op, hloop, hop, hsim⟩ := simulates_accepted haccepted ⟨hnames, hself, hcount⟩ hrom hs
  obtain ⟨hprinted, honly⟩ := Simulates.same_output hsim fun _ _ => EndLoop.silent hloop hop
  refine ⟨fun n => (hsim n).not_stuck, hprinted, honly, fun n env henv => ?_⟩
  obtain ⟨m, s', hrun, hend⟩ := (hsim n).of_ok henv
  refine ⟨m, fun k hk => ?_⟩
  obtain ⟨j, rfl⟩ := Nat.exists_eq_add_of_le hk
  obtain ⟨s'', hrun', hend', -⟩ := EndLoop.stays (z := z) hloop hop hend j
  have hall := hrun.trans hrun'
  rw [List.append_nil] at hall
  exact ⟨hall.trace, hall.state ▸ hend'.inEndLoop hloop hop⟩

/-- `var n = 3; func show { var m = n; print(m); } func main { call show; }` -/
def showThree : Prog :=
  [.varDeclStmt "n" (Ast.expr (.number 3)),
   .funcDecl "show" (.cons (.varDeclStmt "m" (Ast.expr (.ident "n")))
     (.cons (.printStmt (Ast.expr (.ident "m"))) .nil)),
   .funcDecl "main" (.cons (.callStmt "show") .nil)]

def showThreeWords : List Opcode :=
  [0x00000400, 0x800000b9, 0x00000003, 0x000000c8, 0x800000b5, 0x00000013, 0x800000bb, 0x00000007, 0x800000bb,
   0x800000be, 0x8000022a, 0x000000c8, 0x800000b4, 0x800000b7, 0x800000b6, 0x40000000, 0x800000b5, 0xfffffe2a,
   0x800000bb, 0x800000be, 0x8000002a, 0x00000009, 0x800000bb, 0x8000002a, 0x800000bb]

instance (s : Arch) : Decidable (Safe s) := decidable_of_iff (s.sp.toNat ≤ 200 ∧ s.fp.toNat < 2 ^ 15)
  ⟨fun h => ⟨h.1, h.2⟩, fun h => ⟨h.sp, h.fp⟩⟩

theorem showThree_accepted :
    ∃ ls, MyVisitor.visitAll (.insertion _) (.insertion _) showThree = .ok (showThreeWords, ls) := by
  have hwords : (MyVisitor.visitAll (.insertion _) (.insertion _) showThree).toOption.map Prod.fst =
      some showThreeWords := by decide +kernel
  cases h : MyVisitor.visitAll (.insertion _) (.insertion _) showThree with
  | error e =>
    rw [h] at hwords
    cases hwords
  | ok r =>
    rw [h] at hwords
    exact ⟨r.2, congrArg Except.ok (Prod.ext (Option.some.inj hwords) rfl)⟩

/-- the program memory with the words of `showThree` -/
def showThreeRom (a : Word) : Word := showThreeWords.getD a.toNat 0

theorem showThree_withinLanguage : WithinLanguage showThree := by
  have hdeclared : ∀ f ∈ calledNames showThree, f ∈ funcNames showThree := by decide
  refine ⟨fun f hf hundeclared => absurd (hdeclared f hf) hundeclared, ?_, by decide⟩
  simp [showThree, SelfFree, Stmts.SelfFree, Stmt.SelfFree, Ast.idents]

theorem showThree_loaded : Loaded showThreeRom showThreeWords := by
  intro n w h
  obtain ⟨hn, rfl⟩ := List.getElem?_eq_some_iff.1 h
  have hlen : showThreeWords.length = 25 := rfl
  rw [showThreeRom, BitVec.toNat_ofNat, Nat.mod_eq_of_lt (by omega), List.getD_eq_getElem?_getD, h, Option.getD_some]

theorem showThree_safe : (machine ⟨fun _ => 0, fun _ => 0⟩ showThreeRom).Always Safe (init fun _ => 0) := by
  have hloop : Laid showThreeRom (fun _ => some 7) 7
      [.label (.generated 0), .ref (.generated 0), .word 0x800000bb] :=
    ⟨rfl, ⟨7, rfl, by unfold Fits; decide, rfl⟩, rfl, trivial⟩
  exact EndLoop.always (m := 23) hloop (by decide) (.inl ⟨by decide +kernel, by decide +kernel, by omega⟩)
    (by decide +kernel)

theorem compiler_correct_showThree :
    Implements ⟨fun _ => 0, fun _ => 0⟩ showThree showThreeRom (init fun _ => 0) := by
  obtain ⟨ls, haccepted⟩ := showThree_accepted
  exact compiler_correct _ _ _ _ _ ls _ _ haccepted showThree_withinLanguage.names showThree_withinLanguage.selfFree
    showThree_withinLanguage.globals showThree_loaded showThree_safe

end FpgaLearning.Compiler
