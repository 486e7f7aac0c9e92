/-
Calls and the functions they reach.

The names of functions and the generated names `L0`, `L1`, ... are labels of one table, and `L0` is an identifier.

- `Shape`: what the listing of a part of a program declares and refers to. Every part adds the generated labels in the
  range its counter runs through, the names of its functions and its calls.
- `CallsResolve`: a call of an accepted program goes to the prologue of the function it names, a call of a name that is no
  function is found by `resolveRefs`, and different function names are enough to get past `declareLabel`.
- `calls_resolve_iff`: the exact condition for it. `generated_names_clash`: two programs without it.
-/
import FpgaLearning.Compiler.Linking

namespace FpgaLearning.Compiler

open FpgaLearning.Memory MyVisitor

/-! ## Programs -/

mutual

/-- the functions that are called, in the order of the text -/
def Stmt.calls : Stmt → List Ident
  | .ifStmt _ thenStmt => thenStmt.calls
  | .ifElseStmt _ thenStmt elseStmt => thenStmt.calls ++ elseStmt.calls
  | .whileStmt _ body => body.calls
  | .varDeclStmt _ _ => []
  | .assignStmt _ _ => []
  | .printStmt _ => []
  | .callStmt f => [f]
  | .block ss => ss.calls

def Stmts.calls : Stmts → List Ident
  | .nil => []
  | .cons s ss => s.calls ++ ss.calls

end

/-- the names of the functions -/
def funcNames : Prog → List Ident
  | [] => []
  | .varDeclStmt _ _ :: rest => funcNames rest
  | .funcDecl f _ :: rest => f :: funcNames rest

def bodyCalls : Prog → List Ident
  | [] => []
  | .varDeclStmt _ _ :: rest => bodyCalls rest
  | .funcDecl _ body :: rest => body.calls ++ bodyCalls rest

/-- the names that are called, the start-up call of `main` included -/
def calledNames (prog : Prog) : List Ident := "main" :: bodyCalls prog

/-! ## Labels and references of a listing -/

namespace Label

def func? : Label → Option Ident
  | .func f => some f
  | .generated _ => none

def number? : Label → Option ℕ
  | .func _ => none
  | .generated k => some k

theorem name_generated_injective {k k' : ℕ} (h : (generated k).name = (generated k').name) : k = k' := by
  have hrepr : toString k = toString k' := by simpa [name] using h
  have hdigits : Nat.toDigits 10 k = Nat.toDigits 10 k' := by
    rw [← Nat.toList_repr, ← Nat.toList_repr]
    exact congrArg String.toList hrepr
  rw [← Nat.ofDigitChars_toDigits (b := 10) (n := k) (by decide) le_rfl, hdigits,
    Nat.ofDigitChars_toDigits (by decide) le_rfl]

end Label

/-- functions that are declared -/
def funcs (is : List Item) : List Ident := (labels is).filterMap Label.func?

/-- numbers of the generated labels -/
def numbers (is : List Item) : List ℕ := (labels is).filterMap Label.number?

/-- functions that are called -/
def calls (is : List Item) : List Ident := (refs is).filterMap Label.func?

/-- no function has the name of a generated label -/
def Apart (is : List Item) : Prop := ∀ f ∈ funcs is, ∀ k ∈ numbers is, f ≠ (Label.generated k).name

variable {is js : List Item} {f : Ident} {k : ℕ}

@[simp] theorem funcs_append : funcs (is ++ js) = funcs is ++ funcs js := by simp [funcs]

@[simp] theorem numbers_append : numbers (is ++ js) = numbers is ++ numbers js := by simp [numbers]

@[simp] theorem calls_append : calls (is ++ js) = calls is ++ calls js := by simp [calls]

theorem mem_funcs : f ∈ funcs is ↔ .func f ∈ labels is := by
  simp only [funcs, List.mem_filterMap]
  constructor
  · rintro ⟨l, hl, hf⟩
    cases l <;> simp_all [Label.func?]
  · exact fun h => ⟨_, h, rfl⟩

theorem mem_numbers : k ∈ numbers is ↔ .generated k ∈ labels is := by
  simp only [numbers, List.mem_filterMap]
  constructor
  · rintro ⟨l, hl, hk⟩
    cases l <;> simp_all [Label.number?]
  · exact fun h => ⟨_, h, rfl⟩

theorem mem_calls : f ∈ calls is ↔ .func f ∈ refs is := by
  simp only [calls, List.mem_filterMap]
  constructor
  · rintro ⟨l, hl, hf⟩
    cases l <;> simp_all [Label.func?]
  · exact fun h => ⟨_, h, rfl⟩

theorem mem_names {x : Ident} (ls : List Label) : x ∈ ls.map Label.name ↔
    x ∈ ls.filterMap Label.func? ∨ ∃ k ∈ ls.filterMap Label.number?, x = (Label.generated k).name := by
  induction ls with
  | nil => simp
  | cons l ls ih =>
    cases l with
    | func f =>
      rw [List.map_cons, List.mem_cons, ih, ← or_assoc]
      exact or_congr_left List.mem_cons.symm
    | generated k =>
      have hnumbers : (Label.generated k :: ls).filterMap Label.number? = k :: ls.filterMap Label.number? := rfl
      rw [List.map_cons, List.mem_cons, ih, or_left_comm, hnumbers]
      simp only [List.mem_cons, exists_eq_or_imp]
      rfl

/-- the two ways in which names can coincide -/
theorem distinct_iff : Distinct is ↔ (funcs is).Nodup ∧ (numbers is).Nodup ∧ Apart is := by
  unfold Distinct Apart funcs numbers
  induction labels is with
  | nil => simp
  | cons l ls ih =>
    cases l with
    | func f =>
      have hfuncs : (Label.func f :: ls).filterMap Label.func? = f :: ls.filterMap Label.func? := rfl
      have hnumbers : (Label.func f :: ls).filterMap Label.number? = ls.filterMap Label.number? := rfl
      rw [List.map_cons, List.nodup_cons, mem_names, ih, hfuncs, hnumbers, List.nodup_cons, List.forall_mem_cons]
      simp only [Label.name]
      grind
    | generated k =>
      have hfuncs : (Label.generated k :: ls).filterMap Label.func? = ls.filterMap Label.func? := rfl
      have hnumbers : (Label.generated k :: ls).filterMap Label.number? = k :: ls.filterMap Label.number? := rfl
      have hinj : ∀ k', (Label.generated k).name = (Label.generated k').name ↔ k = k' := fun k' =>
        ⟨Label.name_generated_injective, fun h => h ▸ rfl⟩
      rw [List.map_cons, List.nodup_cons, mem_names, ih, hfuncs, hnumbers, List.nodup_cons]
      simp only [hinj, List.forall_mem_cons]
      grind

/-! ## What a part of a program lists -/

/-- 1 for the `m` numbers from `n` on -/
def within (n m k : ℕ) : ℕ := if n ≤ k ∧ k < n + m then 1 else 0

theorem within_add (n m m' k : ℕ) : within n m k + within (n + m) m' k = within n (m + m') k := by
  unfold within
  split_ifs <;> omega

theorem within_succ (n m k : ℕ) : (if n = k then 1 else 0) + within (n + 1) m k = within n (m + 1) k := by
  unfold within
  split_ifs <;> omega

/-! ### Exceptions -/

/-- an exception of another kind -/
def Other (e : String) : Prop := ∀ x, e ≠ duplicate x

/-- the first characters tell the methods apart -/
theorem other_of_take {e : String}
    (h : e.toList.take 26 ≠ "Compiler::CodeGenerator::declareLabel: label with name '".toList.take 26) : Other e := by
  rintro x rfl
  apply h
  rw [duplicate_eq, String.toList_append, String.toList_append, List.append_assoc,
    List.take_append_of_le_length (by simp)]

theorem other_visitFactor (x : Ident) : Other ("MyVisitor::visitFactor: variable '" ++ x ++ "' is not declared.") := by
  apply other_of_take
  rw [String.toList_append, String.toList_append, List.append_assoc, List.take_append_of_le_length (by decide)]
  decide

theorem other_visitAssign (x : Ident) : Other ("MyVisitor::visitAssign_stmt: variable '" ++ x ++ "' is not declared.") := by
  apply other_of_take
  rw [String.toList_append, String.toList_append, List.append_assoc, List.take_append_of_le_length (by decide)]
  decide

theorem other_op {m : OpSrc} {alu : OpAlu} {imm : ℤ} {e : String} (h : Assembler.op m alu imm = .error e) : Other e := by
  unfold Assembler.op at h
  split_ifs at h
  obtain rfl := Except.error.inj h
  exact other_of_take (by decide)

theorem other_lconst {w : Word} {e : String} (h : Assembler.lconst w = .error e) : Other e := by
  unfold Assembler.lconst at h
  split_ifs at h
  obtain rfl := Except.error.inj h
  exact other_of_take (by decide)

theorem other_visitAst {e : Ast} {v : MyVisitor} {m : String} (h : visitAst e v = .error m) : Other m := by
  induction e generalizing v with
  | number n =>
    rw [visitAst, visitNumber] at h
    split_ifs at h with hn
    · exact other_lconst (gen_push_error.1 h)
    · obtain rfl := Except.error.inj h
      exact other_of_take (by decide)
  | ident x =>
    rw [visitAst, visitIdent] at h
    cases hx : v.getDeclaration x with
    | none =>
      rw [hx] at h
      obtain rfl := Except.error.inj h
      exact other_visitFactor x
    | some d =>
      obtain ⟨addr, scope⟩ := d
      rw [hx] at h
      cases scope with
      | global =>
        rcases gen_push_push_error.1 h with h | ⟨-, h⟩
        · exact other_lconst h
        · exact other_op h
      | stack => exact other_op (gen_push_error.1 h)
  | unary o e ih =>
    rcases bind_error_iff.1 h with h | ⟨v₁, -, h⟩
    · exact ih h
    · exact other_op (gen_push_error.1 h)
  | binary o l r ihl ihr =>
    rcases bind_error_iff.1 h with h | ⟨v₁, -, h⟩
    · exact ihl h
    · rcases bind_error_iff.1 h with h | ⟨v₂, -, h⟩
      · exact ihr h
      · exact other_op (gen_push_error.1 h)

theorem other_alloc {a : VariableAllocator} {x : Ident} {e : String} (h : a.alloc x = .error e) : Other e := by
  unfold VariableAllocator.alloc at h
  split_ifs at h
  obtain rfl := Except.error.inj h
  exact other_of_take (by decide)

theorem other_endBlock {a : VariableAllocator} {H : HashOrder (Ident × ℕ)} {e : String} (h : a.endBlock H = .error e) :
    Other e := by
  unfold VariableAllocator.endBlock at h
  cases ho : a.outer with
  | nil =>
    rw [ho] at h
    obtain rfl := Except.error.inj h
    exact other_of_take (by decide)
  | cons b rest =>
    rw [ho] at h
    cases h

theorem foldlM_error {α β : Type} {f : β → α → Except String β} {P : String → Prop} (hf : ∀ b a e, f b a = .error e → P e)
    {l : List α} {b : β} {e : String} (h : l.foldlM f b = .error e) : P e := by
  induction l generalizing b with
  | nil => cases h
  | cons a l ih =>
    rw [List.foldlM_cons] at h
    rcases bind_error_iff.1 h with h | ⟨b', -, h⟩
    · exact hf b a e h
    · exact ih h

theorem other_resolve {g : CodeGenerator} {r : Ident × List ℕ} {e : String} (h : g.resolve r = .error e) : Other e := by
  rw [CodeGenerator.resolve] at h
  cases hl : g.labels.lookup r.1 with
  | none =>
    rw [hl] at h
    obtain rfl := Except.error.inj h
    apply other_of_take
    rw [String.toList_append, String.toList_append, List.append_assoc, List.take_append_of_le_length (by simp)]
    decide
  | some addr =>
    rw [hl] at h
    refine foldlM_error (fun g pos e he => ?_) h
    rcases bind_error_iff.1 he with he | ⟨w, -, he⟩
    · exact other_lconst he
    · cases he

/-! ### Shapes -/

/-- The listing of a part of a program with the functions `fs` and the calls `cs`, which is to declare the labels `own`
of its surroundings and may refer to the labels `vis`. -/
structure Shape (vis own : List ℕ) (fs cs : List Ident) (c : Context) (l : Listing) : Prop where
  numbers : ∃ m, ∀ k, (numbers l.1).count k ≤ own.count k + within c.counter m k
  funcs : (funcs l.1).Sublist fs
  other : ∀ e, l.2 = .error e → Other e
  done : ∀ c', l.2 = .ok c' → ∃ m, c'.counter = c.counter + m ∧
    (∀ k, (Compiler.numbers l.1).count k = own.count k + within c.counter m k) ∧ Compiler.funcs l.1 = fs ∧
    calls l.1 = cs ∧ ∀ k, .generated k ∈ refs l.1 → k ∈ vis ∨ k ∈ Compiler.numbers l.1

namespace Shape

variable {vis own own' : List ℕ} {fs fs' cs cs' : List Ident} {c : Context} {l : Listing} {p q : Pass} {e : String}

/-- **Step.** One part after another. -/
theorem andThen (h : Shape vis own fs cs c l) (h' : ∀ c, Shape vis own' fs' cs' c (p c)) :
    Shape vis (own ++ own') (fs ++ fs') (cs ++ cs') c (l.andThen p) := by
  obtain ⟨is, r⟩ := l
  cases r with
  | error e =>
    obtain ⟨m, hm⟩ := h.numbers
    refine ⟨⟨m, fun k => ?_⟩, h.funcs.trans (List.sublist_append_left _ _), h.other, fun c' hc' => nomatch hc'⟩
    have hk := hm k
    rw [List.count_append]
    exact hk.trans (by omega)
  | ok c₁ =>
    obtain ⟨m, hcounter, hcount, hfuncs, hcalls, hrefs⟩ := h.done c₁ rfl
    have h' := h' c₁
    rw [Listing.andThen_of_ok rfl]
    simp only at hcount hfuncs hcalls hrefs
    refine ⟨?_, ?_, h'.other, fun c' hc' => ?_⟩
    · obtain ⟨m', hm'⟩ := h'.numbers
      refine ⟨m + m', fun k => ?_⟩
      have hk := hm' k
      rw [hcounter] at hk
      rw [numbers_append, List.count_append, List.count_append, hcount, ← within_add]
      omega
    · rw [funcs_append, hfuncs]
      exact h'.funcs.append_left _
    · obtain ⟨m', hcounter', hcount', hfuncs', hcalls', hrefs'⟩ := h'.done c' hc'
      refine ⟨m + m', by omega, fun k => ?_, by rw [funcs_append, hfuncs, hfuncs'],
        by rw [calls_append, hcalls, hcalls'], fun k hk => ?_⟩
      · rw [numbers_append, List.count_append, List.count_append, hcount, hcount', hcounter, ← within_add]
        omega
      · rw [numbers_append, List.mem_append]
        rw [refs_append, List.mem_append] at hk
        rcases hk with hk | hk
        · exact (hrefs k hk).imp_right .inl
        · exact (hrefs' k hk).imp_right .inr

theorem congr {c' : Context} (h : Shape vis own fs cs c l) (hc : c'.counter = c.counter) : Shape vis own fs cs c' l where
  numbers := hc ▸ h.numbers
  funcs := h.funcs
  other := h.other
  done := hc ▸ h.done

theorem word {w : Opcode} {is : List Item} {r : Except String Context} (h : Shape vis own fs cs c (is, r)) :
    Shape vis own fs cs c (.word w :: is, r) := ⟨h.numbers, h.funcs, h.other, h.done⟩

theorem stop {is : List Item} {c' : Context} (h : Shape vis own fs cs c (is, .ok c')) (he : Other e) :
    Shape vis own fs cs c (is, .error e) :=
  ⟨h.numbers, h.funcs, fun _ heq => Except.error.inj heq ▸ he, fun _ heq => (nomatch heq)⟩

theorem leave {is : List Item} {c' : Context} (h : Shape vis own fs cs c (is, .ok c')) :
    Shape vis own fs cs c (is, .ok c'.leave) := by
  refine ⟨h.numbers, h.funcs, fun _ heq => (nomatch heq), fun c₁ heq => ?_⟩
  obtain rfl := Except.ok.inj heq
  exact h.done c' rfl

/-- a listing that takes no number -/
theorem plain {is : List Item} {c' : Context} (hc : c'.counter = c.counter) (hnumbers : Compiler.numbers is = own)
    (hfuncs : Compiler.funcs is = fs) (hcalls : calls is = cs) (hrefs : ∀ k, .generated k ∈ refs is → k ∈ vis) :
    Shape vis own fs cs c (is, .ok c') where
  numbers := ⟨0, fun k => by simp [hnumbers]⟩
  funcs := by simp [hfuncs]
  other e he := nomatch he
  done c₁ hc₁ := by
    obtain rfl := Except.ok.inj hc₁
    have hzero : ∀ k, within c.counter 0 k = 0 := fun k => if_neg (by omega)
    exact ⟨0, hc, fun k => by rw [hnumbers, hzero, Nat.add_zero], hfuncs, hcalls, fun k hk => .inl (hrefs k hk)⟩

theorem fail (he : Other e) : Shape vis own fs cs c (Pass.fail e c) where
  numbers := ⟨0, fun k => Nat.zero_le _⟩
  funcs := List.nil_sublist _
  other e' he' := by rwa [← Except.error.inj he']
  done c' hc' := nomatch hc'

end Shape

/-- the listing of `p` has the same shape from every context -/
def Shapes (vis own : List ℕ) (fs cs : List Ident) (p : Pass) : Prop := ∀ c, Shape vis own fs cs c (p c)

namespace Shapes

variable {vis own own' : List ℕ} {fs fs' cs cs' : List Ident} {p q : Pass} {f : Ident} {k : ℕ}

theorem skip : Shapes vis [] [] [] Pass.skip := fun _ => .plain rfl rfl rfl rfl fun _ hk => nomatch hk

theorem andThen (h : Shapes vis own fs cs p) (h' : Shapes vis own' fs' cs' q) :
    Shapes vis (own ++ own') (fs ++ fs') (cs ++ cs') (Pass.andThen p q) := fun c => (h c).andThen h'

theorem of_perm (h : Shapes vis own fs cs p) (hown : own.Perm own') (hfs : fs = fs') (hcs : cs = cs') :
    Shapes vis own' fs' cs' p := by
  subst hfs hcs
  intro c
  obtain ⟨hnumbers, hfuncs, hother, hdone⟩ := h c
  have hcount : ∀ k, own'.count k = own.count k := fun k => hown.symm.count_eq k
  simp only [← hcount] at hnumbers hdone
  exact ⟨hnumbers, hfuncs, hother, hdone⟩

theorem nil : Shapes vis [] [] [] (Pass.seq []) := skip

theorem cons {ps : List Pass} (h : Shapes vis own fs cs p) (h' : Shapes vis own' fs' cs' (Pass.seq ps)) :
    Shapes vis (own ++ own') (fs ++ fs') (cs ++ cs') (Pass.seq (p :: ps)) := h.andThen h'

theorem word (w : Opcode) : Shapes vis [] [] [] (Pass.item (.word w)) := fun _ =>
  .plain rfl rfl rfl rfl fun _ hk => nomatch hk

theorem ref (hk : k ∈ vis) : Shapes vis [] [] [] (Pass.item (.ref (.generated k))) := fun _ =>
  .plain rfl rfl rfl rfl fun k' hk' => by
    obtain rfl : k' = k := by simpa [refs, Item.ref?] using hk'
    exact hk

theorem call (f : Ident) : Shapes vis [] [] [f] (Pass.item (.ref (.func f))) := fun _ =>
  .plain rfl rfl rfl rfl fun k' hk' => by simp [refs, Item.ref?] at hk'

theorem label (k : ℕ) : Shapes vis [k] [] [] (Pass.item (.label (.generated k))) := fun _ =>
  .plain rfl rfl rfl rfl fun _ hk => nomatch hk

theorem func (f : Ident) : Shapes vis [] [f] [] (Pass.item (.label (.func f))) := fun _ =>
  .plain rfl rfl rfl rfl fun _ hk => nomatch hk

theorem push {w : Except String Opcode} (hw : ∀ e, w = .error e → Other e) : Shapes vis [] [] [] (Pass.push w) := by
  cases w with
  | error e => exact fun _ => .fail (hw e rfl)
  | ok w => exact word w

/-- a label of a part is declared in it -/
theorem fresh {p : Label → Pass} (h : ∀ k, Shapes (k :: vis) (k :: own) fs cs (p (.generated k))) :
    Shapes vis own fs cs (Pass.fresh p) := by
  intro c
  have hc := h c.counter { c with counter := c.counter + 1 }
  have hsucc : ∀ m k, (c.counter :: own).count k + within (c.counter + 1) m k = own.count k + within c.counter (m + 1) k := by
    intro m k
    rw [List.count_cons, ← within_succ]
    simp only [beq_iff_eq]
    omega
  refine ⟨?_, hc.funcs, hc.other, fun c' hc' => ?_⟩
  · obtain ⟨m, hm⟩ := hc.numbers
    exact ⟨m + 1, fun k => (hm k).trans (hsucc m k).le⟩
  · obtain ⟨m, hcounter, hcount, hfuncs, hcalls, hrefs⟩ := hc.done c' hc'
    have hcount' := fun k => (hcount k).trans (hsucc m k)
    refine ⟨m + 1, by rw [hcounter]; exact Nat.succ_add_eq_add_succ .., hcount', hfuncs, hcalls, fun k hk => ?_⟩
    rcases hrefs k hk with hk | hk
    · rcases List.mem_cons.1 hk with rfl | hk
      · refine .inr (List.count_pos_iff.1 ?_)
        rw [Pass.fresh, hcount', within, if_pos (by omega)]
        omega
      · exact .inl hk
    · exact .inr hk

theorem op {m : OpSrc} {alu : OpAlu} {imm : ℤ} : Shapes vis [] [] [] (Pass.push (Assembler.op m alu imm)) :=
  push fun _ h => other_op h

theorem lconst {w : Word} : Shapes vis [] [] [] (Pass.push (Assembler.lconst w)) := push fun _ h => other_lconst h

theorem alloc {x : Ident} {p : ℕ → Pass} (h : ∀ addr, Shapes vis own fs cs (p addr)) :
    Shapes vis own fs cs (Pass.alloc x p) := by
  intro c
  rw [Pass.alloc]
  cases ha : c.allocator.alloc x with
  | error e => exact .fail (other_alloc ha)
  | ok r => exact (h r.1 { c with allocator := r.2 }).congr rfl

theorem endBlock (H : HashOrder (Ident × ℕ)) : Shapes vis [] [] [] (Pass.endBlock H) := by
  intro c
  rw [Pass.endBlock]
  cases ha : c.allocator.endBlock H with
  | error e => exact .fail (other_endBlock ha)
  | ok a => exact (skip { c with allocator := a }).congr rfl

theorem inBlock (H : HashOrder (Ident × ℕ)) (h : Shapes vis own fs cs p) : Shapes vis own fs cs (Pass.inBlock H p) := by
  intro c
  have hp := (h.andThen (endBlock H)) { c with allocator := c.allocator.startBlock }
  rw [List.append_nil, List.append_nil, List.append_nil] at hp
  exact hp.congr rfl

theorem expr (t : Expr) : Shapes vis [] [] [] (Pass.expr t) := by
  intro c
  cases h : visitExpr t (c.visitor .new) with
  | error e =>
    rw [Pass.expr, h]
    exact .fail (other_visitAst (visitExpr_ast t ▸ h))
  | ok v =>
    obtain ⟨ws, hws, -⟩ := (visitExpr_iff t).1 h
    rw [Pass.expr_of_compiles hws]
    have hlabels : labels (ws.map .word) = [] := by simp [labels, List.filterMap_map, Function.comp_def, Item.label?]
    have hrefs : refs (ws.map .word) = [] := by simp [refs, List.filterMap_map, Function.comp_def, Item.ref?]
    exact .plain rfl (by rw [numbers, hlabels]; rfl) (by rw [funcs, hlabels]; rfl) (by rw [calls, hrefs]; rfl)
      fun k hk => by rw [hrefs] at hk; cases hk

theorem save (addr : ℕ) (scope : Scope) : Shapes vis [] [] [] (Pass.save addr scope) := by
  cases scope with
  | global => exact lconst.cons (op.cons nil)
  | stack => exact op

theorem varDecl (x : Ident) (e : Expr) : Shapes vis [] [] [] (Pass.varDecl x e) := by
  have hsave : ∀ addr, Shapes vis [] [] [] (fun c => Pass.save addr c.allocator.scope c) := fun addr c => save addr _ c
  exact alloc fun addr => (expr e).cons ((hsave addr).cons nil)

theorem assign (x : Ident) (e : Expr) : Shapes vis [] [] [] (Pass.assign x e) := by
  intro c
  rw [Pass.assign]
  cases c.getDeclaration x with
  | none => exact .fail (other_visitAssign x)
  | some d => exact (expr e).cons ((save d.1 d.2).cons nil) c

theorem print (e : Expr) : Shapes vis [] [] [] (Pass.print e) := (expr e).cons ((save (2 ^ 30) .global).cons nil)

theorem callStmt (f : Ident) : Shapes vis [] [] [f] (Pass.call f) := (call f).cons (op.cons nil)

variable {cs₁ cs₂ : List Ident} {q? : Option Pass} (H : HashOrder (Ident × ℕ))

theorem ifStmt (cond : Expr) (h : ∀ vis, Shapes vis [] [] cs p) : Shapes vis [] [] cs (Pass.ifStmt H cond p none) :=
  inBlock H (fresh fun k => of_perm
    ((expr cond).cons ((ref List.mem_cons_self).cons (op.cons ((inBlock H (h (k :: vis))).cons ((label k).cons nil)))))
    (.refl _) rfl (by simp))

theorem elseStmt {k : ℕ} (h : ∀ vis, Shapes vis [] [] cs p) :
    Shapes vis [k] [] cs (Pass.elseStmt H (.generated k) (some p)) := by
  refine fresh (p := fun l => Pass.seq [Pass.item (.ref l), Pass.push Assembler.ajmp, Pass.item (.label (.generated k)),
    Pass.inBlock H p, Pass.item (.label l)]) fun k' => of_perm
    ((ref List.mem_cons_self).cons (op.cons ((label k).cons ((inBlock H (h (k' :: vis))).cons ((label k').cons nil)))))
    ?_ rfl (by simp)
  exact .swap _ _ _

theorem ifElseStmt (cond : Expr) (h : ∀ vis, Shapes vis [] [] cs p) (h' : ∀ vis, Shapes vis [] [] cs' q) :
    Shapes vis [] [] (cs ++ cs') (Pass.ifStmt H cond p (some q)) :=
  inBlock H (fresh fun k => of_perm
    ((expr cond).cons ((ref List.mem_cons_self).cons (op.cons ((inBlock H (h (k :: vis))).cons
      ((elseStmt H h').cons nil)))))
    (.refl _) rfl (by simp))

theorem whileStmt (cond : Expr) (h : ∀ vis, Shapes vis [] [] cs p) : Shapes vis [] [] cs (Pass.whileStmt H cond p) := by
  refine inBlock H (fresh fun k => ?_)
  have hloop : Shapes (k :: vis) [] [] cs (Pass.fresh fun l => Pass.seq [Pass.item (.ref l), Pass.push Assembler.cjmpz,
      Pass.inBlock H p, Pass.item (.ref (.generated k)), Pass.push Assembler.ajmp, Pass.item (.label l)]) :=
    fresh fun k' => of_perm
      ((ref List.mem_cons_self).cons (op.cons ((inBlock H (h (k' :: k :: vis))).cons
        ((ref (List.mem_cons_of_mem _ List.mem_cons_self)).cons (op.cons ((label k').cons nil))))))
      (.refl _) rfl (by simp)
  exact of_perm ((label k).cons ((expr cond).cons (hloop.cons nil))) (.refl _) rfl (by simp)

end Shapes

mutual

theorem shapes_stmt (H : HashOrder (Ident × ℕ)) : ∀ s vis, Shapes vis [] [] s.calls (Pass.stmt H s)
  | .ifStmt cond thenStmt, vis => by
    rw [Pass.stmt, Stmt.calls]
    exact .ifStmt H cond (shapes_stmt H thenStmt)
  | .ifElseStmt cond thenStmt elseStmt, vis => by
    rw [Pass.stmt, Stmt.calls]
    exact .ifElseStmt H cond (shapes_stmt H thenStmt) (shapes_stmt H elseStmt)
  | .whileStmt cond body, vis => by
    rw [Pass.stmt, Stmt.calls]
    exact .whileStmt H cond (shapes_stmt H body)
  | .varDeclStmt x e, vis => by
    rw [Pass.stmt, Stmt.calls]
    exact .varDecl x e
  | .assignStmt x e, vis => by
    rw [Pass.stmt, Stmt.calls]
    exact .assign x e
  | .printStmt e, vis => by
    rw [Pass.stmt, Stmt.calls]
    exact .print e
  | .callStmt f, vis => by
    rw [Pass.stmt, Stmt.calls]
    exact .callStmt f
  | .block ss, vis => by
    rw [Pass.stmt, Stmt.calls]
    exact shapes_stmts H ss vis

theorem shapes_stmts (H : HashOrder (Ident × ℕ)) : ∀ ss vis, Shapes vis [] [] ss.calls (Pass.stmts H ss)
  | .nil, vis => by
    rw [Pass.stmts, Stmts.calls]
    exact .skip
  | .cons s ss, vis => by
    rw [Pass.stmts, Stmts.calls]
    exact (shapes_stmt H s vis).andThen (shapes_stmts H ss vis)

end

namespace Shapes

variable {cs : List Ident} {p : Pass} (H : HashOrder (Ident × ℕ))

theorem frame (h : Shapes [] [] [] cs p) : Shapes [] [] [] cs (Pass.frame p) := by
  intro c
  have hbody : Shape [] [] [] cs c (p { c with allocator := .new 0 .stack, below := c.allocator :: c.below }) :=
    (h _).congr rfl
  rw [Pass.frame]
  revert hbody
  obtain ⟨is, r⟩ := p { c with allocator := .new 0 .stack, below := c.allocator :: c.below }
  intro hbody
  cases r with
  | error e => exact hbody.word
  | ok c' =>
    cases hsize : Assembler.addfp (BitVec.ofNat 32 c'.allocator.getMaxAlloc).toInt with
    | error e =>
      simp only [hsize]
      exact (hbody.stop (other_op hsize)).word
    | ok w =>
      simp only [hsize]
      have hend : Shapes [] [] [] [] (Pass.seq [Pass.push (Assembler.addfp
          (-(BitVec.ofNat 32 c'.allocator.getMaxAlloc).toInt)), Pass.push Assembler.ajmp]) := op.cons (op.cons nil)
      simpa using hbody.leave.word.andThen hend

theorem funcDecl (f : Ident) (body : Stmts) : Shapes [] [] [f] body.calls (Pass.funcDecl H f body) :=
  of_perm ((func f).cons (op.cons ((frame (shapes_stmts H body [])).cons nil))) (.refl _) rfl (by simp)

theorem varDecls : ∀ prog, Shapes [] [] [] [] (Pass.varDecls prog)
  | [] => skip
  | .varDeclStmt x e :: rest => (varDecl x e).andThen (varDecls rest)
  | .funcDecl _ _ :: rest => varDecls rest

theorem funcDecls : ∀ prog, Shapes [] [] (funcNames prog) (bodyCalls prog) (Pass.funcDecls H prog)
  | [] => skip
  | .varDeclStmt _ _ :: rest => funcDecls rest
  | .funcDecl f body :: rest => (funcDecl H f body).andThen (funcDecls rest)

theorem startUp (prog : Prog) : Shapes [] [] [] ["main"] (Pass.startUp prog) := by
  have hloop : Shapes [] [] [] [] (Pass.fresh fun l => Pass.seq [Pass.item (.label l), Pass.item (.ref l),
      Pass.push Assembler.ajmp]) :=
    fresh fun k => (label k).cons ((ref List.mem_cons_self).cons (op.cons nil))
  exact lconst.cons (op.cons ((varDecls prog).cons ((call "main").cons (op.cons (hloop.cons nil)))))

theorem program (prog : Prog) :
    Shapes [] [] (funcNames prog) (calledNames prog) (Pass.andThen (Pass.startUp prog) (Pass.funcDecls H prog)) :=
  (startUp prog).andThen (funcDecls H prog)

end Shapes

/-! ## Calls -/

variable {H : HashOrder (Ident × ℕ)} {R : HashOrder (Ident × List ℕ)} {prog : Prog} {out : List Opcode} {c : Context}

/-- the prologue of the function `f` begins at address `a` -/
def PrologueAt (H : HashOrder (Ident × ℕ)) (prog : Prog) (out : List Opcode) (f : Ident) (a : ℕ) : Prop :=
  ∃ before body after, prog = before ++ .funcDecl f body :: after ∧
    a = size ((Pass.startUp prog).andThen (Pass.funcDecls H before) .new).1 ∧
    ∃ w, Assembler.lppc = .ok w ∧ out[a]? = some w

/-- word `n` is the target of a call of `f` -/
def CallAt (H : HashOrder (Ident × ℕ)) (prog : Prog) (f : Ident) (n : ℕ) : Prop :=
  (cells (listing H prog).1)[n]? = some (.ref (.func f))

/-- calls reach the functions they name -/
structure CallsResolve (H : HashOrder (Ident × ℕ)) (R : HashOrder (Ident × List ℕ)) (prog : Prog) : Prop where
  targets : ∀ out ls, visitAll H R prog = .ok (out, ls) → ∀ f n, CallAt H prog f n →
    ∃ a, PrologueAt H prog out f a ∧ out[n]? = some (BitVec.ofNat 32 a)
  undeclared : ∀ v, visitProg H prog new = .ok v → ∀ f ∈ calledNames prog, f ∉ funcNames prog →
    ∃ e, v.gen (CodeGenerator.resolveRefs R) = .error e
  duplicates : (funcNames prog).Nodup → ∀ x, visitAll H R prog ≠ .error (duplicate x)

/-- no label of a function is a generated one, and a call of a name that is no function finds no label -/
structure NamesApart (H : HashOrder (Ident × ℕ)) (prog : Prog) : Prop where
  labels : Apart (listing H prog).1
  called : ∀ c, (listing H prog).2 = .ok c → (∀ f ∈ calledNames prog, f ∈ funcNames prog) ∨
    (∃ f ∈ calledNames prog, f ∉ funcNames prog ∧ ∀ k ∈ numbers (listing H prog).1, f ≠ (Label.generated k).name) ∨
    ∃ l ∈ refs (listing H prog).1, ∃ a, addressOf l.name (listing H prog).1 = some a ∧ ¬Fits a

theorem Listing.andThen_assoc (l : Listing) (p q : Pass) : (l.andThen p).andThen q = l.andThen (p.andThen q) := by
  obtain ⟨is, r⟩ := l
  cases r with
  | error e => rfl
  | ok c =>
    show Listing.andThen (is ++ (p c).1, (p c).2) q = (is ++ ((p c).andThen q).1, ((p c).andThen q).2)
    obtain ⟨js, r⟩ := p c
    cases r with
    | error e => rfl
    | ok c' => simp [andThen]

theorem funcDecls_append (H : HashOrder (Ident × ℕ)) (before rest : Prog) :
    Pass.funcDecls H (before ++ rest) = (Pass.funcDecls H before).andThen (Pass.funcDecls H rest) := by
  induction before with
  | nil => rfl
  | cons d before ih =>
    cases d with
    | varDeclStmt x e => exact ih
    | funcDecl f body =>
      rw [List.cons_append, Pass.funcDecls, Pass.funcDecls, ih]
      funext c
      exact (Listing.andThen_assoc ..).symm

/-- a function begins with its label and its prologue -/
theorem funcDecl_ok {f : Ident} {body : Stmts} {c' : Context} (h : Pass.funcDecl H f body c = (is, .ok c')) :
    ∃ w rest, Assembler.lppc = .ok w ∧ is = .label (.func f) :: .word w :: rest := by
  obtain ⟨w, hw⟩ : ∃ w, Assembler.lppc = .ok w := ⟨_, rfl⟩
  obtain ⟨is₁, c₁, is₂, h₁, h₂, rfl⟩ := Pass.seq_cons_ok_iff.1 h
  obtain ⟨is₃, c₃, is₄, h₃, h₄, rfl⟩ := Pass.seq_cons_ok_iff.1 h₂
  rw [hw] at h₃
  obtain rfl := (Prod.mk.inj h₁).1
  obtain rfl := (Prod.mk.inj h₃).1
  exact ⟨w, is₄, hw, rfl⟩

/-- where the label of a declared function stands -/
theorem listing_funcDecl {before after : Prog} {f : Ident} {body : Stmts} (hp : prog = before ++ .funcDecl f body :: after)
    (h : listing H prog = (is, .ok c)) : ∃ w rest, Assembler.lppc = .ok w ∧
      is = ((Pass.startUp prog).andThen (Pass.funcDecls H before) .new).1 ++ .label (.func f) :: .word w :: rest := by
  have hsplit : listing H prog = ((Pass.startUp prog).andThen (Pass.funcDecls H before) .new).andThen
      (Pass.funcDecls H (.funcDecl f body :: after)) := by
    obtain ⟨funcs, hfuncs⟩ : ∃ funcs, funcs = Pass.funcDecls H (.funcDecl f body :: after) := ⟨_, rfl⟩
    rw [listing, ← hfuncs]
    have happend : Pass.funcDecls H prog = (Pass.funcDecls H before).andThen funcs := by rw [hp, funcDecls_append, hfuncs]
    rw [happend]
    exact (Listing.andThen_assoc ..).symm
  rw [hsplit] at h
  obtain ⟨is₁, c₁, is₂, h₁, h₂, rfl⟩ := Listing.andThen_ok_iff.1 h
  obtain ⟨is₃, c₃, is₄, h₃, h₄, rfl⟩ := Pass.andThen_ok_iff.1 h₂
  obtain ⟨w, rest, hw, rfl⟩ := funcDecl_ok h₃
  rw [h₁]
  exact ⟨w, rest ++ is₄, hw, rfl⟩

theorem shape_listing (H : HashOrder (Ident × ℕ)) (prog : Prog) :
    Shape [] [] (funcNames prog) (calledNames prog) .new (listing H prog) := Shapes.program H prog .new

/-- a number is taken once -/
theorem numbers_nodup (H : HashOrder (Ident × ℕ)) (prog : Prog) : (numbers (listing H prog).1).Nodup := by
  obtain ⟨m, hm⟩ := (shape_listing H prog).numbers
  rw [List.nodup_iff_count_le_one]
  intro k
  have hk := hm k
  rw [List.count_nil, within] at hk
  split_ifs at hk <;> omega

/-- different functions, and none with the name of a generated label -/
theorem distinct_of_apart (hn : (funcNames prog).Nodup) (h : Apart (listing H prog).1) : Distinct (listing H prog).1 :=
  distinct_iff.2 ⟨(shape_listing H prog).funcs.nodup hn, numbers_nodup H prog, h⟩

theorem mem_funcNames {f : Ident} : f ∈ funcNames prog → ∃ before body after, prog = before ++ .funcDecl f body :: after := by
  induction prog with
  | nil => exact fun h => nomatch h
  | cons d rest ih =>
    intro h
    cases d with
    | varDeclStmt x e =>
      obtain ⟨before, body, after, rfl⟩ := ih h
      exact ⟨.varDeclStmt x e :: before, body, after, rfl⟩
    | funcDecl f' body' =>
      rcases List.mem_cons.1 h with rfl | h
      · exact ⟨[], body', rest, rfl⟩
      · obtain ⟨before, body, after, rfl⟩ := ih h
        exact ⟨.funcDecl f' body' :: before, body, after, rfl⟩

theorem funcNames_mem {f : Ident} {before after : Prog} {body : Stmts} :
    f ∈ funcNames (before ++ .funcDecl f body :: after) := by
  induction before with
  | nil => exact List.mem_cons_self
  | cons d before ih =>
    cases d with
    | varDeclStmt x e => exact ih
    | funcDecl f' body' => exact List.mem_cons_of_mem _ ih

/-- where the condition holds, an accepted program calls functions only -/
theorem NamesApart.declared (h : NamesApart H prog) (hl : listing H prog = (is, .ok c)) (hr : Resolved is) :
    ∀ f ∈ calledNames prog, f ∈ funcNames prog := by
  obtain ⟨m, -, -, hfuncs, hcalls, -⟩ := (shape_listing H prog).done c (by rw [hl])
  have hcalled := h.called c (by rw [hl])
  rw [hl] at hfuncs hcalls hcalled
  rcases hcalled with hall | ⟨f, hf, hundeclared, hnumbers⟩ | ⟨l, hl, a, ha, hfits⟩
  · exact hall
  · rw [← hcalls] at hf
    rw [← hfuncs] at hundeclared
    obtain ⟨a, ha, -⟩ := hr _ (mem_calls.1 hf)
    have hsome : addressOf f is ≠ none := by
      rw [Label.name] at ha
      rw [ha]
      exact Option.some_ne_none a
    rw [Ne, addressOf_eq_none_iff] at hsome
    push Not at hsome
    obtain ⟨l, hl, rfl⟩ := hsome
    cases l with
    | func f => exact absurd (mem_funcs.2 hl) hundeclared
    | generated k => exact absurd rfl (hnumbers k (mem_numbers.2 hl))
  · obtain ⟨a', ha', hfits'⟩ := hr l hl
    rw [ha] at ha'
    obtain rfl := Option.some.inj ha'
    exact absurd hfits' hfits

theorem onto_ok_iff {l : Listing} {g : CodeGenerator} {v : MyVisitor} : l.onto g = .ok v ↔
    ∃ c g', l.2 = .ok c ∧ emit l.1 g = .ok g' ∧ v = c.visitor g' := by
  rw [Listing.onto, bind_ok_iff]
  constructor
  · rintro ⟨g', hg', h⟩
    obtain ⟨c, hc, h⟩ := bind_ok_iff.1 h
    exact ⟨c, g', hc, hg', (Except.ok.inj h).symm⟩
  · rintro ⟨c, g', hc, hg', rfl⟩
    exact ⟨g', hg', bind_ok_iff.2 ⟨c, hc, rfl⟩⟩

/-- two labels of one name end the compilation -/
theorem visitAll_duplicate (h : ¬Distinct (listing H prog).1) : ∃ x, visitAll H R prog = .error (duplicate x) := by
  cases hemit : emit (listing H prog).1 .new with
  | ok g => exact absurd (emit_new_iff.1 ⟨g, hemit⟩) h
  | error e =>
    obtain ⟨l, -, rfl⟩ := emit_error hemit
    exact ⟨l.name, by rw [visitAll, visitProg_eq, Listing.onto, hemit]; rfl⟩

/-- and nothing else does it with this message -/
theorem not_distinct_of_duplicate {x : Ident} (h : visitAll H R prog = .error (duplicate x)) :
    ¬Distinct (listing H prog).1 := by
  intro hd
  obtain ⟨g, hg⟩ := emit_new_iff.2 hd
  rw [visitAll, visitProg_eq] at h
  rcases bind_error_iff.1 h with h | ⟨v, hv, h⟩
  · rcases bind_error_iff.1 h with h | ⟨g', -, h⟩
    · rw [hg] at h
      cases h
    · rcases bind_error_iff.1 h with h | ⟨c, -, h⟩
      · exact (shape_listing H prog).other _ h x rfl
      · cases h
  · rcases bind_error_iff.1 h with h | ⟨v', -, h⟩
    · rcases bind_error_iff.1 h with h | ⟨g', -, h⟩
      · exact foldlM_error (fun _ _ _ he => other_resolve he) h x rfl
      · cases h
    · cases h

/-- **Calls.** They resolve as they should if and only if the condition holds, or two functions have one name. -/
theorem calls_resolve_iff (H : HashOrder (Ident × ℕ)) (R : HashOrder (Ident × List ℕ)) (prog : Prog) :
    CallsResolve H R prog ↔ ((funcNames prog).Nodup → NamesApart H prog) := by
  constructor
  · intro h hn
    have hapart : Apart (listing H prog).1 := by
      by_contra hclash
      obtain ⟨x, hx⟩ := visitAll_duplicate (R := R) fun hd : Distinct (listing H prog).1 => hclash (distinct_iff.1 hd).2.2
      exact h.duplicates hn x hx
    refine ⟨hapart, fun c hc => ?_⟩
    -- otherwise the program is accepted, and a call has no function to go to
    by_contra hcond
    push Not at hcond
    obtain ⟨⟨f, hf, hundeclared⟩, hgenerated, hfits⟩ := hcond
    obtain ⟨m, -, -, hfuncs, hcalls, hrefs⟩ := (shape_listing H prog).done c hc
    have hlabel : ∀ l ∈ refs (listing H prog).1, addressOf l.name (listing H prog).1 ≠ none := by
      intro l hl
      rw [Ne, addressOf_eq_none_iff]
      push Not
      cases l with
      | func f' =>
        have hf' : f' ∈ calledNames prog := hcalls ▸ mem_calls.2 hl
        by_cases hdecl : f' ∈ funcNames prog
        · exact ⟨.func f', mem_funcs.1 (hfuncs ▸ hdecl), rfl⟩
        · obtain ⟨k, hk, heq⟩ := hgenerated f' hf' hdecl
          exact ⟨.generated k, mem_numbers.1 hk, heq.symm⟩
      | generated k =>
        rcases hrefs k hl with hk | hk
        · cases hk
        · exact ⟨.generated k, mem_numbers.1 hk, rfl⟩
    have hres : Resolved (listing H prog).1 := by
      intro l hl
      obtain ⟨a, ha⟩ := Option.ne_none_iff_exists'.1 (hlabel l hl)
      exact ⟨a, ha, hfits l hl a ha⟩
    obtain ⟨ls, hls⟩ := (visitAll_iff (R := R) H prog _).2
      ⟨_, c, Prod.ext rfl hc, distinct_of_apart hn hapart, hres, rfl⟩
    obtain ⟨n, hn⟩ := List.mem_iff_getElem?.1
      (List.mem_filter.2 ⟨mem_refs.1 (mem_calls.1 (hcalls ▸ hf)), rfl⟩ : Item.ref (.func f) ∈ cells (listing H prog).1)
    obtain ⟨a, ⟨before, body, after, hp, -⟩, -⟩ := h.targets _ ls hls f n hn
    exact hundeclared (by rw [hp]; exact funcNames_mem)
  · intro h
    refine ⟨fun out ls hout f n hcall => ?_, fun v hv f hf hundeclared => ?_, fun hn x hx => ?_⟩
    · obtain ⟨is, c, hl, hd, hres, rfl⟩ := (visitAll_iff H prog out).1 ⟨ls, hout⟩
      obtain ⟨m, -, -, hfuncs, hcalls, -⟩ := (shape_listing H prog).done c (by rw [hl])
      rw [CallAt, hl] at hcall
      rw [hl] at hfuncs hcalls
      have hn : (funcNames prog).Nodup := hfuncs ▸ (distinct_iff.1 hd).1
      have hf : f ∈ calledNames prog :=
        hcalls ▸ mem_calls.2 (mem_refs.2 (List.mem_filter.1 (List.mem_of_getElem? hcall)).1)
      obtain ⟨before, body, after, hp⟩ := mem_funcNames ((h hn).declared hl hres f hf)
      obtain ⟨w, rest, hw, his⟩ := listing_funcDecl hp hl
      subst his
      refine ⟨_, ⟨before, body, after, hp, rfl, w, hw, ?_⟩, ?_⟩
      · rw [link, List.getElem?_map, cells_append, size, List.getElem?_append_right le_rfl, Nat.sub_self]
        rfl
      · rw [link, List.getElem?_map, hcall, Option.map_some, Item.resolve, addressOf_label hd, Option.getD_some]
    · rw [visitProg_eq] at hv
      obtain ⟨c, g, hc, hg, rfl⟩ := onto_ok_iff.1 hv
      have hl : listing H prog = ((listing H prog).1, .ok c) := Prod.ext rfl hc
      have hd := emit_new_iff.1 ⟨g, hg⟩
      cases hr : (c.visitor g).gen (CodeGenerator.resolveRefs R) with
      | error e => exact ⟨e, rfl⟩
      | ok v' =>
        obtain ⟨g', hg', -⟩ := bind_ok_iff.1 hr
        have hres := (resolveRefs_ok_iff (emitted_of_ok hg)).1 ⟨g', hg'⟩
        have hn : (funcNames prog).Nodup := by
          obtain ⟨m, -, -, hfuncs, -⟩ := (shape_listing H prog).done c hc
          exact hfuncs ▸ (distinct_iff.1 hd).1
        exact absurd ((h hn).declared hl hres f hf) hundeclared
    · exact not_distinct_of_duplicate hx (distinct_of_apart hn (h hn).labels)

/-- `func main { call L0; }` is accepted, and the call goes to the loop at the end of the program;
`func L0 { } func main { }` is rejected -/
theorem generated_names_clash :
    ¬CallsResolve (.insertion _) (.insertion _) [.funcDecl "main" (.cons (.callStmt "L0") .nil)] ∧
      ¬CallsResolve (.insertion _) (.insertion _) [.funcDecl "L0" .nil, .funcDecl "main" .nil] := by
  constructor
  · intro h
    have hok : (visitAll (.insertion _) (.insertion _) [.funcDecl "main" (.cons (.callStmt "L0") .nil)]).isOk = true := by
      decide +kernel
    cases hall : visitAll (.insertion _) (.insertion _) [.funcDecl "main" (.cons (.callStmt "L0") .nil)] with
    | error e =>
      rw [hall] at hok
      cases hok
    | ok r =>
      obtain ⟨v, hv, hrest⟩ := bind_ok_iff.1 hall
      obtain ⟨v', hv', -⟩ := bind_ok_iff.1 hrest
      obtain ⟨e, he⟩ := h.undeclared v hv "L0" (by decide) (by decide)
      rw [he] at hv'
      cases hv'
  · intro h
    exact h.duplicates (by decide) "L0" (by decide +kernel)

end FpgaLearning.Compiler
