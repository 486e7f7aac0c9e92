/-
Functions and calls.

A function pushes the return address, makes room for its variables above the frame of the caller and takes both away at
the end. The size of its frame is known after the body only.

- `Installed`: the functions of the program stand in the ROM.
- `correct_call`: a call leaves the frame of the caller as it was.
- `correct_exec`: with every amount of fuel the machine simulates the interpreter.
-/
import FpgaLearning.Compiler.Statements

namespace FpgaLearning.Compiler

open FpgaLearning.Memory FpgaLearning.Stack FpgaLearning.Stack.Arch FpgaLearning.Traced

variable {z : DivByZero} {rom : Word → Word} {addr : Ident → Option ℕ} {ga : VariableAllocator} {k : ℕ} {pass : Pass}
  {c c' : Context} {is : List Item} {p q n a base fsize : ℕ} {env : Env} {s s' : Arch} {H : HashOrder (Ident × ℕ)}
  {prog : Prog} {body : Stmts} {w op op' op'' : Word} {f : Ident} {delta : ℤ}

/-! ## Frames -/

/-- the words of a frame: its size is that of the allocator after the body -/
theorem Pass.frame_ok (h : Pass.frame pass c = (is, .ok c')) : ∃ js c₁ op op' op'',
    pass { c with allocator := .new 0 .stack, below := c.allocator :: c.below } = (js, .ok c₁) ∧
      Assembler.addfp (BitVec.ofNat 32 c₁.allocator.firstFree).toInt = .ok op ∧
      Assembler.addfp (-(BitVec.ofNat 32 c₁.allocator.firstFree).toInt) = .ok op' ∧ Assembler.ajmp = .ok op'' ∧
      is = .word op :: (js ++ [.word op', .word op'']) ∧ c' = c₁.leave := by
  rw [Pass.frame] at h
  cases hp : pass { c with allocator := .new 0 .stack, below := c.allocator :: c.below } with
  | mk js r =>
    rw [hp] at h
    cases r with
    | error e => cases (Prod.mk.inj h).2
    | ok c₁ =>
      cases hop : Assembler.addfp (BitVec.ofNat 32 c₁.allocator.firstFree).toInt with
      | error e =>
        simp only [VariableAllocator.getMaxAlloc, hop] at h
        cases (Prod.mk.inj h).2
      | ok op =>
        simp only [VariableAllocator.getMaxAlloc, hop] at h
        obtain ⟨is₁, c₂, is₂, h₁, h₂, rfl⟩ := Listing.andThen_ok_iff.1 h
        obtain ⟨rfl, hleave⟩ := Prod.mk.inj h₁
        obtain rfl := Except.ok.inj hleave
        obtain ⟨op', _, hop', h₃, rfl⟩ := Pass.cons_push_ok h₂
        obtain ⟨op'', hop'', rfl, rfl⟩ := Pass.push_ok (Pass.last_ok h₃)
        exact ⟨js, c₁, op, op', op'', rfl, hop, hop', hop'', rfl, rfl⟩

/-- a function leaves the allocators as they were -/
theorem Pass.funcDecl_context (h : Pass.funcDecl H f body c = (is, .ok c')) :
    c'.allocator = c.allocator ∧ c'.below = c.below := by
  obtain ⟨_, h₁, rfl⟩ := Pass.item_ok h
  obtain ⟨op, _, -, h₂, rfl⟩ := Pass.cons_push_ok h₁
  obtain ⟨js, c₁, -, -, -, hjs, -, -, -, -, rfl⟩ := Pass.frame_ok (Pass.last_ok h₂)
  have hbelow := (Pass.grows_stmts H body _ _ _ hjs).below
  exact ⟨by rw [Context.leave, hbelow]; rfl, by rw [Context.leave, hbelow]; rfl⟩

/-- `addfp` -/
theorem moves_addfp (hlaid : Laid rom addr p (.word op :: is)) (hop : Assembler.addfp delta = .ok op) (hat : At p n s) :
    ∃ s', (machine z rom).Runs 1 s [] s' ∧ At (p + 1) n s' ∧ s'.fp = s.fp + BitVec.ofInt 32 delta ∧ s'.mem = s.mem := by
  have hdec : decode (rom s.pc) = _ := hat.fetch hlaid ▸ Assembler.decode_op hop
  exact ⟨_, runs_addfp hdec, ⟨by rw [hat.pc, ofNat_add_one], hat.sp, hat.room⟩, rfl, rfl⟩

/-- into a function: the return address is on the stack and there is room for the variables -/
theorem moves_call {js : List Item} (hlaid : Laid rom addr p [.ref (.func f), .word op]) (hop : Assembler.ajmp = .ok op)
    (hbody : Laid rom addr q (.label (.func f) :: .word op' :: .word op'' :: js)) (hop' : Assembler.lppc = .ok op')
    (hop'' : Assembler.addfp delta = .ok op'') (hat : At p n s) (hs : (machine z rom).Always Safe s) :
    ∃ s', (machine z rom).Runs 4 s [] s' ∧ At (q + 2) (n + 1) s' ∧ s'.fp = s.fp + BitVec.ofInt 32 delta ∧
      s'.word n = BitVec.ofNat 32 (p + 2) ∧ ∀ k < 2 ^ 15, k < n ∨ 200 ≤ k → s'.word k = s.word k := by
  obtain ⟨hlabel, hppc, haddfp⟩ := hbody
  obtain ⟨a, s₁, ha, hrun₁, hmoved₁, hret⟩ := moves_jump hlaid hop hat hs
  obtain rfl := Option.some.inj (ha.symm.trans hlabel)
  have hroom := hat.room
  have hdec : decode (rom s₁.pc) = _ := (hmoved₁.pos.pc ▸ hppc : rom s₁.pc = op') ▸ Assembler.decode_op hop'
  have hrun₂ := runs_ppc (z := z) hdec hmoved₁.pos.sp (by omega)
  obtain ⟨hmoved₂, htop⟩ := Moved.push hmoved₁.pos ((hs.after hrun₁).last hrun₂) rfl rfl rfl rfl
  obtain ⟨s₃, hrun₃, hat₃, hfp, hmem⟩ := moves_addfp (z := z) haddfp hop'' hmoved₂.pos
  refine ⟨s₃, (hrun₁.trans hrun₂).trans hrun₃, hat₃, ?_, ?_, fun k hk hkn => ?_⟩
  · rw [hfp, hmoved₂.fp, hmoved₁.fp]
  · rw [word, hmem]
    exact htop.trans hret
  · rw [word, hmem]
    exact (hmoved₂.words k hk hkn).trans (hmoved₁.words k hk hkn)

/-- out of a function -/
theorem moves_return (hlaid : Laid rom addr p [.word op, .word op']) (hop : Assembler.addfp delta = .ok op)
    (hop' : Assembler.ajmp = .ok op') (hat : At p (n + 1) s) (hret : s.word n = BitVec.ofNat 32 a) :
    ∃ s', (machine z rom).Runs 2 s [] s' ∧ At a n s' ∧ s'.fp = s.fp + BitVec.ofInt 32 delta ∧ s'.mem = s.mem := by
  obtain ⟨s₁, hrun₁, hat₁, hfp, hmem⟩ := moves_addfp (z := z) hlaid hop hat
  have hroom := hat.room
  have hdec : decode (rom s₁.pc) = _ := hat₁.fetch hlaid.2 ▸ Assembler.decode_op hop'
  have hrun₂ := runs_ajmp (z := z) hdec hat₁.sp (by omega)
  refine ⟨_, hrun₁.trans hrun₂, ⟨?_, rfl, by omega⟩, hfp, hmem⟩
  show s₁.word n = _
  rw [word, hmem]
  exact hret

/-! ## Calls -/

/-- the functions that a statement calls are there -/
def Declared (prog : Prog) (calls : List Ident) : Prop := ∀ f ∈ calls, (functionBody prog f).isSome = true

/-- the functions of the program stand in the ROM and call each other -/
structure Installed (H : HashOrder (Ident × ℕ)) (rom : Word → Word) (addr : Ident → Option ℕ) (ga : VariableAllocator)
    (prog : Prog) : Prop where
  laid : ∀ f body, functionBody prog f = some body → ∃ q is c c', c.allocator = ga ∧ c.below = [] ∧
    Pass.funcDecl H f body c = (is, .ok c') ∧ Laid rom addr q is
  selfFree : ∀ f body, functionBody prog f = some body → body.SelfFree
  declared : ∀ f body, functionBody prog f = some body → Declared prog body.calls

/-- a new frame above that of the caller -/
theorem InFrame.enter {a : VariableAllocator} (h : InFrame ga a env base fsize s) (hg : GlobalAllocator ga)
    (hfp : s'.fp = BitVec.ofNat 32 (base + fsize + n)) (hhigh : base + fsize + n < 2 ^ 15)
    (hwords : ∀ k < 2 ^ 15, 200 ≤ k → s'.word k = s.word k) :
    InFrame ga (.new 0 .stack) { env with locals := [] } (base + fsize) n s' where
  fp := hfp
  low := h.low.trans (Nat.le_add_right base fsize)
  high := hhigh
  fits := Nat.zero_le n
  globals := by
    show env.globals = _
    rw [h.globals]
    refine List.map_congr_left fun v hv => ?_
    have hlt := hg.slot_lt hv
    rw [hwords _ (by omega) (by omega)]
  locals := rfl

/-- **Calls.** The frame of the caller is back, with what the function did to the global variables. -/
theorem correct_call (hi : Installed H rom addr ga prog) (hbody : functionBody prog f = some body) {again : Env → Exec}
    (hagain : Correct z rom addr ga k (Pass.stmts H body) again) :
    Correct z rom addr ga (k + 1) (Pass.call f) fun env =>
      (again { env with locals := [] }).andThen fun env' => .done { env' with locals := env.locals } := by
  intro c is c' p n env base fsize s hpass hlaid hc hfits hat hf hs
  obtain ⟨op, _, hop, hnil, rfl⟩ := Pass.jump_ok hpass
  obtain ⟨rfl, rfl⟩ := Pass.nil_ok hnil
  obtain ⟨q, _, cf, cf', hcf, hbelow, hfunc, hlaidf⟩ := hi.laid f body hbody
  obtain ⟨_, h₁, rfl⟩ := Pass.item_ok hfunc
  obtain ⟨opp, _, hopp, h₂, rfl⟩ := Pass.cons_push_ok h₁
  obtain ⟨js, c₁, op₁, op₂, op₃, hjs, hop₁, hop₂, hop₃, rfl, -⟩ := Pass.frame_ok (Pass.last_ok h₂)
  obtain ⟨s₁, hrun₁, hat₁, hfp₁, hret, hwords₁⟩ := moves_call hlaid hop hlaidf hopp hop₁ hat hs
  obtain ⟨-, -, -, hlaidf⟩ := hlaidf
  obtain ⟨hlaid₁, hlaid₂⟩ := laid_append.1 hlaidf
  have hc₁ : InFunction ga { cf with allocator := .new 0 .stack, below := cf.allocator :: cf.below } :=
    ⟨by rw [hcf, hbelow], hc.globals, rfl, rfl, .new 0 .stack, Nat.zero_le _⟩
  have hlocal := ((Pass.grows_stmts H body _ _ _ hjs).inFunction hc₁).allocator
  have hlow := hf.low
  have hhigh := hf.high
  have hroom := hat.room
  have hfew := hlocal.few
  -- the new frame pointer does not wrap around
  rw [hf.fp, BitVec.ofInt_toInt, ← BitVec.ofNat_add] at hfp₁
  have hhigh₁ : base + fsize + c₁.allocator.firstFree < 2 ^ 15 := by
    have hsafe := (hs.last hrun₁).fp
    rw [hfp₁, BitVec.toNat_ofNat, Nat.mod_eq_of_lt (by omega)] at hsafe
    exact hsafe
  have hf₁ := hf.enter hc.globals hfp₁ hhigh₁ fun k hk hk' => hwords₁ k hk (.inr hk')
  have hsim := hagain _ _ _ _ _ _ _ _ _ hjs hlaid₁ hc₁ le_rfl hat₁ hf₁ (hs.after hrun₁)
  refine (Simulates.after_silent hrun₁ (hsim.andThen (hs.after hrun₁) fun env₂ s₂ hs₂ hends => ?_)).mono
    (show k + 1 ≤ 4 + k by omega) fun _ _ hends => hends
  have hret₂ : s₂.word n = BitVec.ofNat 32 (p + 2) :=
    (hends.kept n (by omega) (.inl (Nat.lt_succ_self n))).trans hret
  obtain ⟨s₃, hrun₃, hat₃, hfp₃, hmem₃⟩ := moves_return (z := z) hlaid₂ hop₂ hop₃ hends.pos hret₂
  have hword : ∀ k, s₃.word k = s₂.word k := fun k => by rw [word, word, hmem₃]
  have hkept : Kept (base + fsize) n s s₃ := fun k hk hkn =>
    (hword k).trans ((hends.kept k hk (by omega)).trans (hwords₁ k hk (by omega)))
  refine .ended hrun₃ ⟨hat₃, ⟨?_, hlow, hhigh, hf.fits, ?_, ?_⟩, fun k hk hkn => hkept k hk (by omega)⟩
  · rw [hfp₃, hends.frame.fp, BitVec.ofInt_neg, BitVec.ofInt_toInt, ← BitVec.sub_eq_add_neg, BitVec.ofNat_add,
      BitVec.add_sub_cancel]
  · show env₂.globals = _
    rw [hends.frame.globals]
    exact List.map_congr_left fun v _ => by rw [hword]
  · show env.locals = _
    rw [hf.locals]
    refine List.map_congr_left fun v hv => ?_
    have hlt := hc.allocator.slot_lt hf hv
    rw [hkept _ (by omega) (.inr (by omega))]

/-! ## The interpreter -/

mutual

theorem correct_execStmt (hi : Installed H rom addr ga prog) {again : Stmt → Env → Exec}
    (hagain : ∀ s : Stmt, s.SelfFree → Declared prog s.calls → Correct z rom addr ga k (Pass.stmt H s) (again s)) :
    ∀ s : Stmt, s.SelfFree → Declared prog s.calls →
      Correct z rom addr ga (k + 1) (Pass.stmt H s) (execStmt z prog again s)
  | .ifStmt cond thenStmt, hself, hcalls => by
    rw [Stmt.SelfFree] at hself
    rw [Stmt.calls] at hcalls
    have hgrows := Pass.grows_stmt H thenStmt
    rw [Pass.stmt, execStmt]
    exact (Correct.fresh fun l => correct_ifBody (correct_execStmt hi hagain thenStmt hself hcalls) hgrows).around
      (Pass.grows_fresh fun l => Pass.grows_ifBody hgrows fun _ hp => nomatch hp)
      (Pass.steady_fresh fun l => Pass.steady_ifBody hgrows fun _ hp => nomatch hp)
  | .ifElseStmt cond thenStmt elseStmt, hself, hcalls => by
    rw [Stmt.SelfFree] at hself
    rw [Stmt.calls] at hcalls
    have hgrows := Pass.grows_stmt H thenStmt
    have hgrows' := Pass.grows_stmt H elseStmt
    have helse : ∀ p ∈ some (Pass.stmt H elseStmt), Pass.Grows p := fun p hp => Option.some.inj hp ▸ hgrows'
    rw [Pass.stmt, execStmt]
    exact (Correct.fresh fun l => correct_ifElseBody
        (correct_execStmt hi hagain thenStmt hself.1 fun f hf => hcalls f (List.mem_append_left _ hf)) hgrows
        (correct_execStmt hi hagain elseStmt hself.2 fun f hf => hcalls f (List.mem_append_right _ hf)) hgrows').around
      (Pass.grows_fresh fun l => Pass.grows_ifBody hgrows helse)
      (Pass.steady_fresh fun l => Pass.steady_ifBody hgrows helse)
  | .whileStmt cond body, hself, hcalls => by
    have hloop := hagain (.whileStmt cond body) hself hcalls
    rw [Stmt.SelfFree] at hself
    rw [Stmt.calls] at hcalls
    rw [Pass.stmt] at hloop ⊢
    rw [execStmt]
    have hbody := correct_execStmt hi hagain body hself hcalls
    exact correct_whileStmt (hbody.mono (Nat.le_succ k)) (Pass.grows_stmt H body) hloop
  | .varDeclStmt x e, hself, _ => by
    rw [Stmt.SelfFree] at hself
    rw [Pass.stmt, execStmt]
    exact correct_varDecl hself
  | .assignStmt x e, _, _ => by
    rw [Pass.stmt, execStmt]
    exact correct_assign
  | .printStmt e, _, _ => by
    rw [Pass.stmt, execStmt]
    exact correct_print
  | .callStmt f, _, hcalls => by
    rw [Stmt.calls] at hcalls
    obtain ⟨body, hbody⟩ := Option.isSome_iff_exists.1 (hcalls f List.mem_cons_self)
    have hblock := hagain (.block body)
      (by rw [Stmt.SelfFree]; exact hi.selfFree f body hbody) (by rw [Stmt.calls]; exact hi.declared f body hbody)
    rw [Pass.stmt] at hblock
    rw [Pass.stmt, execStmt]
    simp only [hbody]
    exact correct_call hi hbody hblock
  | .block ss, hself, hcalls => by
    rw [Stmt.SelfFree] at hself
    rw [Stmt.calls] at hcalls
    rw [Pass.stmt, execStmt]
    exact correct_execStmts hi hagain ss hself hcalls

theorem correct_execStmts (hi : Installed H rom addr ga prog) {again : Stmt → Env → Exec}
    (hagain : ∀ s : Stmt, s.SelfFree → Declared prog s.calls → Correct z rom addr ga k (Pass.stmt H s) (again s)) :
    ∀ ss : Stmts, ss.SelfFree → Declared prog ss.calls →
      Correct z rom addr ga (k + 1) (Pass.stmts H ss) (execStmts z prog again ss)
  | .nil, _, _ => by
    rw [Pass.stmts, execStmts]
    exact .skip
  | .cons s ss, hself, hcalls => by
    rw [Stmts.SelfFree] at hself
    rw [Stmts.calls] at hcalls
    rw [Pass.stmts, execStmts]
    exact (correct_execStmt hi hagain s hself.1 fun f hf => hcalls f (List.mem_append_left _ hf)).andThen
      (correct_execStmts hi hagain ss hself.2 fun f hf => hcalls f (List.mem_append_right _ hf))
      (Pass.grows_stmt H s) (Pass.grows_stmts H ss)

end

/-- **Statements.** With every amount of fuel the words of a statement do what the interpreter does. -/
theorem correct_exec (hi : Installed H rom addr ga prog) (k : ℕ) : ∀ s : Stmt, s.SelfFree → Declared prog s.calls →
    Correct z rom addr ga k (Pass.stmt H s) (exec z prog k s) := by
  induction k with
  | zero => exact fun s _ _ _ _ _ _ _ _ _ _ _ _ _ _ _ _ _ _ => .outOfFuel
  | succ k ih => exact correct_execStmt hi ih

end FpgaLearning.Compiler
