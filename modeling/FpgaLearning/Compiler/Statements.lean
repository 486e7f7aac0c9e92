/-
The words of a statement do what the interpreter does.

- `Correct k pass run`: from a frame in which the machine and the interpreter agree, the machine simulates `run` with the
  words of `pass`. It comes to the word behind them with the stack as it was, and leaves the frames below alone.
- One lemma for each form of statement but the call.
-/
import FpgaLearning.Compiler.Frames

namespace FpgaLearning.Compiler

open FpgaLearning.Memory FpgaLearning.Stack FpgaLearning.Stack.Arch FpgaLearning.Traced

/-! ## Agreement -/

/-- the first `n` words of the stack and the frames up to `base` are as they were -/
def Kept (base n : ℕ) (s s' : Arch) : Prop := ∀ k < 2 ^ 15, k < n ∨ 1024 < k ∧ k ≤ base → s'.word k = s.word k

/-- the machine has come to word `p`, where it agrees with the interpreter -/
structure Ends (ga a : VariableAllocator) (base fsize p n : ℕ) (s : Arch) (env : Env) (s' : Arch) : Prop where
  pos : At p n s'
  frame : InFrame ga a env base fsize s'
  kept : Kept base n s s'

def Correct (z : DivByZero) (rom : Word → Word) (addr : Ident → Option ℕ) (ga : VariableAllocator) (k : ℕ) (pass : Pass)
    (run : Env → Exec) : Prop :=
  ∀ c is c' p n env base fsize s, pass c = (is, .ok c') → Laid rom addr p is → InFunction ga c →
    c'.allocator.firstFree ≤ fsize → At p n s → InFrame ga c.allocator env base fsize s → (machine z rom).Always Safe s →
    Simulates (machine z rom) k (Ends ga c'.allocator base fsize (p + size is) n s) s (run env)

variable {z : DivByZero} {rom : Word → Word} {addr : Ident → Option ℕ} {ga a a' : VariableAllocator} {k k' j : ℕ}
  {pass pass' : Pass} {run run' : Env → Exec} {c c' : Context} {is : List Item} {p p' n n' m base fsize : ℕ}
  {env env' : Env} {s s' s'' : Arch} {H : HashOrder (Ident × ℕ)} {w op : Word} {x f : Ident} {e : Expr} {l : Label}

theorem Kept.refl (base n : ℕ) (s : Arch) : Kept base n s s := fun _ _ _ => rfl

theorem Kept.trans (h : Kept base n s s') (h' : Kept base n s' s'') : Kept base n s s'' := fun k hk hkn =>
  (h' k hk hkn).trans (h k hk hkn)

theorem Moved.kept (h : Moved p n' n s s') : Kept base n s s' := fun k hk hkn => h.words k hk (by omega)

/-- the rest of a statement, from a later state -/
theorem Ends.from (hk : Kept base n s s') (h : Ends ga a base fsize p n s' env s'') : Ends ga a base fsize p n s env s'' :=
  ⟨h.pos, h.frame, hk.trans h.kept⟩

/-- two ways to say where a statement ends -/
theorem Ends.cast (h : Ends ga a base fsize p n s env s') (hp : p = p') : Ends ga a base fsize p' n s env s' := hp ▸ h

theorem Correct.mono (hk : k' ≤ k) (h : Correct z rom addr ga k pass run) : Correct z rom addr ga k' pass run :=
  fun c is c' p n env base fsize s hpass hlaid hc hfits hat hf hs =>
    (h c is c' p n env base fsize s hpass hlaid hc hfits hat hf hs).mono hk fun _ _ h => h

/-! ## Sequences and blocks -/

theorem Correct.skip : Correct z rom addr ga k Pass.skip .done := by
  intro c is c' p n env base fsize s hpass hlaid hc hfits hat hf hs
  obtain ⟨rfl, rfl⟩ := Pass.nil_ok hpass
  exact .done ⟨hat, hf, .refl base n s⟩

theorem Correct.andThen (h : Correct z rom addr ga k pass run) (h' : Correct z rom addr ga k pass' run')
    (hg : Pass.Grows pass) (hg' : Pass.Grows pass') :
    Correct z rom addr ga k (pass.andThen pass') fun env => (run env).andThen run' := by
  intro c is c' p n env base fsize s hpass hlaid hc hfits hat hf hs
  obtain ⟨is₁, c₁, is₂, h₁, h₂, rfl⟩ := Pass.andThen_ok_iff.1 hpass
  obtain ⟨hlaid₁, hlaid₂⟩ := laid_append.1 hlaid
  have hmono := (hg' _ _ _ h₂).mono
  refine (h _ _ _ _ _ _ _ _ _ h₁ hlaid₁ hc (hmono.trans hfits) hat hf hs).andThen hs fun env₁ s₁ hs₁ hends => ?_
  rw [size_append, ← Nat.add_assoc]
  exact (h' _ _ _ _ _ _ _ _ _ h₂ hlaid₂ ((hg _ _ _ h₁).inFunction hc) hfits hends.pos hends.frame hs₁).mono le_rfl
    fun _ _ h => h.from hends.kept

theorem InFunction.startBlock (hc : InFunction ga c) : InFunction ga { c with allocator := c.allocator.startBlock } :=
  ⟨hc.below, hc.globals, hc.allocator.scope, hc.allocator.base, hc.allocator.partition.startBlock, hc.allocator.few⟩

theorem Correct.inBlock (h : Correct z rom addr ga k pass run) (hg : Pass.Grows pass) :
    Correct z rom addr ga k (Pass.inBlock H pass) (inScope run) := by
  intro c is c' p n env base fsize s hpass hlaid hc hfits hat hf hs
  obtain ⟨c₁, h₁, hgrown, hgrown', hblock, hfree⟩ := Pass.grown_inBlock hg hpass
  have hf₀ : InFrame ga c.allocator.startBlock env base fsize s := hf.of_vars rfl hf.fits
  have hvars : c'.allocator.vars = c.allocator.vars := by
    rw [VariableAllocator.vars, hblock, hgrown'.outer]
    rfl
  refine (h _ _ _ _ _ _ _ _ _ h₁ hlaid hc.startBlock (hfree ▸ hfits) hat hf₀ hs).andThen hs fun env₁ s₁ hs₁ hends => .done ?_
  refine ⟨hends.pos, hends.frame.leave ?_ hfits ?_, hends.kept⟩
  · rw [hgrown.outer, hvars]
    rfl
  · rw [hf.locals, hvars, List.length_map]

/-! ## Expressions -/

/-- an expression in a frame: the machine pushes what the interpreter computes -/
theorem compiles_moves (hws : Compiles c.getDeclaration e.ast ws) (hlaid : Laid rom addr p (ws.map .word))
    (hc : InFunction ga c) (hat : At p n s) (hf : InFrame ga c.allocator env base fsize s)
    (hs : (machine z rom).Always Safe s) :
    ∃ w s', e.ast.result z env.read = some w ∧ (machine z rom).Runs ws.length s [] s' ∧
      Moved (p + ws.length) (n + 1) n s s' ∧ s'.word n = w :=
  hws.moves hlaid hat
    (fun x _ d hd => by
      obtain ⟨haddr, hlow, hhigh⟩ := hf.address hc hd
      rw [haddr]
      exact above_ofNat hhigh hlow)
    (fun x _ => hf.read_eq hc x) hs

theorem expr_moves (he : Pass.expr e c = (is, .ok c')) (hlaid : Laid rom addr p is) (hc : InFunction ga c) (hat : At p n s)
    (hf : InFrame ga c.allocator env base fsize s) (hs : (machine z rom).Always Safe s) :
    ∃ w s' j, e.ast.result z env.read = some w ∧ (machine z rom).Runs j s [] s' ∧ Moved (p + size is) (n + 1) n s s' ∧
      s'.word n = w := by
  obtain ⟨-, ws, hws, rfl⟩ := Pass.expr_ok he
  obtain ⟨w, s', hval, hrun, hmoved, htop⟩ := compiles_moves hws hlaid hc hat hf hs
  rw [size_words]
  exact ⟨w, s', _, hval, hrun, hmoved, htop⟩

theorem withValue_eq {f : Word → Exec} (h : e.ast.result z env.read = some w) : withValue z e env f = f w := by
  rw [withValue, h]

/-! ## Variables -/

/-- a new variable changes the meaning of its name only -/
theorem getDeclaration_alloc {slot : ℕ} (hc : InFunction ga c) (hc' : InFunction ga { c with allocator := a })
    (ha : c.allocator.alloc x = .ok (slot, a)) {y : Ident} (hy : y ≠ x) :
    ({ c with allocator := a } : Context).getDeclaration y = c.getDeclaration y := by
  obtain ⟨slot', -, hvars⟩ := VariableAllocator.vars_of_alloc ha
  have hne : (y == x) = false := by simpa using hy
  rw [getDeclaration_eq hc', getDeclaration_eq hc, hvars, List.lookup_cons, hne]

/-- a word between the stack and the frames, or in the frame -/
theorem Stored.kept (h : Stored p n m s s') (hn : n ≤ 200) (hm : 200 ≤ m) (hbase : m ≤ 1024 ∨ base < m) : Kept base n s s' :=
  fun k hk hkn => h.words k hk (by omega) (by omega)

theorem InFrame.place_apart (h : InFrame ga c.allocator env base fsize s) (hc : InFunction ga c) {d : ℕ × Scope}
    (hx : c.getDeclaration x = some d) : place base fsize d ≤ 1024 ∨ base < place base fsize d := by
  obtain ⟨slot, hl, rfl⟩ | ⟨slot, -, hl, rfl⟩ := getDeclaration_cases hc hx
  · have hlt := hc.allocator.slot_lt h (mem_of_lookup hl)
    exact .inr (by simp only [place]; omega)
  · have hlt := hc.globals.slot_lt (mem_of_lookup hl)
    exact .inl (by simp only [place]; omega)

/-- the words that save the top of the stack -/
theorem save_moves {slot : ℕ} {scope : Scope} (hsave : Pass.save slot scope c = (is, .ok c')) (hlaid : Laid rom addr p is)
    (hat : At p (n + 1) s) (hm : address s slot scope = BitVec.ofNat 32 m) (hm' : m < 2 ^ 15)
    (hs : (machine z rom).Always Safe s) :
    ∃ s' j, (machine z rom).Runs j s [] s' ∧ Stored (p + size is) n m s s' := by
  cases scope with
  | global =>
    obtain ⟨op, js, hop, hjs, rfl⟩ := Pass.cons_push_ok hsave
    obtain ⟨op', hop', rfl, -⟩ := Pass.push_ok (Pass.last_ok hjs)
    have haddr : BitVec.ofNat 32 slot = BitVec.ofNat 32 m := hm
    rw [haddr] at hop
    obtain ⟨s', hrun, hst⟩ := moves_stmem hlaid hop hop' hat hm' hs
    exact ⟨s', _, hrun, hst⟩
  | stack =>
    obtain ⟨op, hop, rfl, -⟩ := Pass.push_ok hsave
    obtain ⟨s', hrun, hst⟩ := moves_stfpmem hlaid hop hat hm hm'
    exact ⟨s', _, hrun, hst⟩

theorem correct_varDecl (hx : x ∉ e.ast.idents) : Correct z rom addr ga k (Pass.varDecl x e) fun env =>
    withValue z e env fun w => .done (env.declare x w) := by
  intro c is c' p n env base fsize s hpass hlaid hc hfits hat hf hs
  have hc' := (Pass.grows_varDecl x e _ _ _ hpass).inFunction hc
  obtain ⟨slot, a, ws, op, ha, rfl, hws, hop, rfl⟩ := Pass.varDecl_local_ok hc.allocator hpass
  obtain ⟨hlaid₁, hlaid₂⟩ := laid_append.1 hlaid
  rw [size_words] at hlaid₂
  have hws' : Compiles c.getDeclaration e.ast ws := hws.congr fun y hy =>
    (getDeclaration_alloc hc hc' ha fun heq => hx (heq ▸ hy)).symm
  obtain ⟨w, s₁, hval, hrun₁, hmoved, rfl⟩ := compiles_moves hws' hlaid₁ hc hat hf hs
  simp only [withValue_eq hval]
  have hf₁ := hf.moved hc rfl hmoved
  obtain ⟨slot', hslot', hvars⟩ := VariableAllocator.vars_of_alloc ha
  rw [hc.allocator.base, Nat.zero_add] at hslot'
  subst hslot'
  have hslot : slot < fsize :=
    (hc'.allocator.partition.slot_lt (by rw [hvars]; exact List.mem_cons_self)).trans_le hfits
  have hlow := hf.low
  have hhigh := hf.high
  obtain ⟨s₂, hrun₂, hst⟩ := moves_stfpmem hlaid₂ hop hmoved.pos (hf₁.local_address hslot) (by omega)
  refine .ended (hrun₁.trans hrun₂) ⟨?_, hf₁.declare hc.globals hc.allocator hc'.allocator ha hfits hst, ?_⟩
  · rw [size_append, size_words, ← Nat.add_assoc]
    exact hst.pos
  · exact hmoved.kept.trans (hst.kept hat.room (by omega) (.inr (by omega)))

theorem correct_assign : Correct z rom addr ga k (Pass.assign x e) fun env => withValue z e env fun w =>
    match env.assign x w with
    | some env' => .done env'
    | none => .stop .stuck := by
  intro c is c' p n env base fsize s hpass hlaid hc hfits hat hf hs
  obtain ⟨slot, scope, hd, hseq⟩ := Pass.assign_ok hpass
  obtain rfl := Pass.quiet_assign x e _ _ _ hpass
  obtain ⟨is₁, is₂, he, hsave, rfl⟩ := Pass.cons_expr_ok hseq
  obtain ⟨hlaid₁, hlaid₂⟩ := laid_append.1 hlaid
  obtain ⟨w, s₁, j, hval, hrun₁, hmoved, rfl⟩ := expr_moves he hlaid₁ hc hat hf hs
  simp only [withValue_eq hval]
  have hf₁ := hf.moved hc rfl hmoved
  obtain ⟨haddr, hlow, hhigh⟩ := hf₁.address hc hd
  obtain ⟨s₂, j', hrun₂, hst⟩ := save_moves (Pass.last_ok hsave) hlaid₂ hmoved.pos haddr hhigh (hs.after hrun₁)
  obtain ⟨env', henv, hf₂⟩ := hf₁.assign hc hd hst
  rw [henv]
  refine .ended (hrun₁.trans hrun₂) ⟨?_, hf₂, hmoved.kept.trans (hst.kept hat.room hlow (hf₁.place_apart hc hd))⟩
  rw [size_append, ← Nat.add_assoc]
  exact hst.pos

theorem correct_print : Correct z rom addr ga k (Pass.print e) fun env => withValue z e env fun w => ([w], .ok env) := by
  intro c is c' p n env base fsize s hpass hlaid hc hfits hat hf hs
  obtain rfl := Pass.quiet_print e _ _ _ hpass
  obtain ⟨is₁, is₂, he, hsave, rfl⟩ := Pass.cons_expr_ok hpass
  obtain ⟨op, js, hop, hjs, rfl⟩ := Pass.cons_push_ok (Pass.last_ok hsave)
  obtain ⟨op', hop', rfl, -⟩ := Pass.push_ok (Pass.last_ok hjs)
  obtain ⟨hlaid₁, hlaid₂⟩ := laid_append.1 hlaid
  obtain ⟨w, s₁, j, hval, hrun₁, hmoved, rfl⟩ := expr_moves he hlaid₁ hc hat hf hs
  simp only [withValue_eq hval]
  obtain ⟨s₂, hrun₂, hmoved'⟩ := moves_print hlaid₂ hop hop' hmoved.pos (hs.after hrun₁)
  have hall : Moved (p + size is₁ + 2) n n s s₂ := hmoved.trans hmoved'
  refine .ended (hrun₁.trans hrun₂) ⟨?_, hf.moved hc rfl hall, hall.kept⟩
  rw [size_append, ← Nat.add_assoc]
  exact hall.pos

/-! ## Branches -/

/-- a condition and its branch: where the machine goes on -/
theorem cond_moves (he : Pass.expr e c = (is, .ok c')) (hop : Assembler.cjmpz = .ok op)
    (hlaid : Laid rom addr p (is ++ [.ref l, .word op])) (hc : InFunction ga c) (hat : At p n s)
    (hf : InFrame ga c.allocator env base fsize s) (hs : (machine z rom).Always Safe s) :
    ∃ w a s' j, e.ast.result z env.read = some w ∧ addr l.name = some a ∧ 0 < j ∧ (machine z rom).Runs j s [] s' ∧
      Moved (if w = 0 then a else p + size (is ++ [.ref l, .word op])) n n s s' := by
  obtain ⟨hlaid₁, hlaid₂⟩ := laid_append.1 hlaid
  obtain ⟨w, s₁, j, hval, hrun₁, hmoved, rfl⟩ := expr_moves he hlaid₁ hc hat hf hs
  obtain ⟨a, s₂, ha, hrun₂, hmoved'⟩ := moves_branch hlaid₂ hop hmoved.pos (hs.after hrun₁)
  refine ⟨_, a, s₂, j + 2, hval, ha, Nat.succ_pos _, hrun₁.trans hrun₂, ?_⟩
  rw [size_append, ← Nat.add_assoc]
  exact hmoved.trans hmoved'

/-- the innermost block and those around it are the same, so the variables are -/
theorem Grown.vars_eq (h : Grown c c') (hb : c'.allocator.block = c.allocator.block) :
    c'.allocator.vars = c.allocator.vars := by
  rw [VariableAllocator.vars, hb, h.outer, VariableAllocator.vars]

/-- a block that declares nothing itself -/
theorem Correct.around (h : Correct z rom addr ga k pass run) (hg : Pass.Grows pass) (hsteady : Pass.Steady pass) :
    Correct z rom addr ga k (Pass.inBlock H pass) run := by
  intro c is c' p n env base fsize s hpass hlaid hc hfits hat hf hs
  obtain ⟨c₁, h₁, hgrown, hgrown', hblock, hfree⟩ := Pass.grown_inBlock hg hpass
  have hf₀ : InFrame ga c.allocator.startBlock env base fsize s := hf.of_vars rfl hf.fits
  refine (h _ _ _ _ _ _ _ _ _ h₁ hlaid hc.startBlock (hfree ▸ hfits) hat hf₀ hs).mono le_rfl fun env₁ s₁ hends => ?_
  refine ⟨hends.pos, hends.frame.of_vars ?_ hfits, hends.kept⟩
  rw [hgrown'.vars_eq hblock, hgrown.vars_eq (hsteady _ _ _ h₁)]
  rfl

theorem InFunction.counter (hc : InFunction ga c) (m : ℕ) : InFunction ga { c with counter := m } :=
  ⟨hc.below, hc.globals, hc.allocator⟩

theorem Correct.fresh {pass : Label → Pass} (h : ∀ l, Correct z rom addr ga k (pass l) run) :
    Correct z rom addr ga k (Pass.fresh pass) run := by
  intro c is c' p n env base fsize s hpass hlaid hc hfits hat hf hs
  exact h _ _ _ _ _ _ _ _ _ _ hpass hlaid (hc.counter _) hfits hat hf hs

/-- `if` inside its block -/
theorem correct_ifBody (h : Correct z rom addr ga k pass run) (hg : Pass.Grows pass) :
    Correct z rom addr ga k (Pass.seq [Pass.expr e, Pass.item (.ref l), Pass.push Assembler.cjmpz, Pass.inBlock H pass,
      Pass.elseStmt H l none]) fun env => withValue z e env fun w => if w = 0 then .done env else inScope run env := by
  intro c is c' p n env base fsize s hpass hlaid hc hfits hat hf hs
  obtain ⟨is₁, _, he, hp₁, rfl⟩ := Pass.cons_expr_ok hpass
  obtain ⟨op, _, hop, hp₂, rfl⟩ := Pass.jump_ok hp₁
  obtain ⟨is₂, c₁, _, hthen, hp₃, rfl⟩ := Pass.seq_cons_ok_iff.1 hp₂
  obtain ⟨_, hp₄, rfl⟩ := Pass.item_ok hp₃
  obtain ⟨rfl, rfl⟩ := Pass.nil_ok hp₄
  rw [← List.append_assoc] at hlaid ⊢
  obtain ⟨hlaid₁, hlaid⟩ := laid_append.1 hlaid
  obtain ⟨hlaid₂, hlabel, -⟩ := laid_append.1 hlaid
  obtain ⟨w, a, s₁, j, hval, ha, -, hrun, hmoved⟩ := cond_moves he hop hlaid₁ hc hat hf hs
  have hf₁ := hf.moved hc rfl hmoved
  simp only [withValue_eq hval]
  by_cases hw : w = 0
  · rw [if_pos hw] at hmoved ⊢
    obtain ⟨-, -, -, hgrown, hblock, -⟩ := Pass.grown_inBlock hg hthen
    obtain rfl := Option.some.inj (ha.symm.trans hlabel)
    have hf₂ := hf₁.of_vars (hgrown.vars_eq hblock) hfits
    refine .ended hrun (Ends.cast ⟨hmoved.pos, hf₂, hmoved.kept⟩ ?_)
    simp only [size_append, size_label, size_nil, Nat.add_assoc, Nat.add_zero]
  · rw [if_neg hw] at hmoved ⊢
    have hsim := h.inBlock hg _ _ _ _ _ _ _ _ _ hthen hlaid₂ hc hfits hmoved.pos hf₁ (hs.after hrun)
    refine Simulates.later hrun (hsim.mono le_rfl fun _ _ hends => (hends.from hmoved.kept).cast ?_)
    simp only [size_append, size_label, size_nil, Nat.add_assoc, Nat.add_zero]

/-- `if` with `else` inside its block -/
theorem correct_ifElseBody (h : Correct z rom addr ga k pass run) (hg : Pass.Grows pass)
    (h' : Correct z rom addr ga k pass' run') (hg' : Pass.Grows pass') :
    Correct z rom addr ga k (Pass.seq [Pass.expr e, Pass.item (.ref l), Pass.push Assembler.cjmpz, Pass.inBlock H pass,
      Pass.elseStmt H l (some pass')]) fun env => withValue z e env fun w =>
        if w = 0 then inScope run' env else inScope run env := by
  intro c is c' p n env base fsize s hpass hlaid hc hfits hat hf hs
  obtain ⟨is₁, _, he, hp₁, rfl⟩ := Pass.cons_expr_ok hpass
  obtain ⟨op, _, hop, hp₂, rfl⟩ := Pass.jump_ok hp₁
  obtain ⟨is₂, c₁, _, hthen, hp₃, rfl⟩ := Pass.seq_cons_ok_iff.1 hp₂
  have hp₃' : Pass.seq _ { c₁ with counter := c₁.counter + 1 } = _ := Pass.last_ok hp₃
  obtain ⟨op', _, hop', hp₄, rfl⟩ := Pass.jump_ok hp₃'
  obtain ⟨_, hp₅, rfl⟩ := Pass.item_ok hp₄
  obtain ⟨is₃, c₂, _, helse, hp₆, rfl⟩ := Pass.seq_cons_ok_iff.1 hp₅
  obtain ⟨_, hp₇, rfl⟩ := Pass.item_ok hp₆
  obtain ⟨rfl, rfl⟩ := Pass.nil_ok hp₇
  rw [← List.append_assoc] at hlaid ⊢
  obtain ⟨hlaid₁, hlaid⟩ := laid_append.1 hlaid
  obtain ⟨hlaid₂, hlaid⟩ := laid_append.1 hlaid
  obtain ⟨hlaid₃, hlabel, hlaid⟩ := laid_append.1 hlaid
  obtain ⟨hlaid₄, hlabel', -⟩ := laid_append.1 hlaid
  obtain ⟨-, -, -, hgrown, hblock, -⟩ := Pass.grown_inBlock hg hthen
  obtain ⟨-, -, -, hgrown', hblock', -⟩ := Pass.grown_inBlock hg' helse
  have hc₁ := (hgrown.inFunction hc).counter (c₁.counter + 1)
  have hfits₁ : c₁.allocator.firstFree ≤ fsize := hgrown'.mono.trans hfits
  obtain ⟨w, a, s₁, j, hval, ha, -, hrun, hmoved⟩ := cond_moves he hop hlaid₁ hc hat hf hs
  have hf₁ := hf.moved hc rfl hmoved
  simp only [withValue_eq hval]
  by_cases hw : w = 0
  · rw [if_pos hw] at hmoved ⊢
    obtain rfl := Option.some.inj (ha.symm.trans hlabel)
    have hf₂ : InFrame ga c₁.allocator env base fsize s₁ := hf₁.of_vars (hgrown.vars_eq hblock) hfits₁
    have hsim := h'.inBlock hg' _ _ _ _ _ _ _ _ _ helse hlaid₄ hc₁ hfits hmoved.pos hf₂ (hs.after hrun)
    refine Simulates.later hrun (hsim.mono le_rfl fun _ _ hends => (hends.from hmoved.kept).cast ?_)
    simp only [size_append, size_label, size_nil, Nat.add_assoc, Nat.add_zero]
  · rw [if_neg hw] at hmoved ⊢
    have hsim := h.inBlock hg _ _ _ _ _ _ _ _ _ hthen hlaid₂ hc hfits₁ hmoved.pos hf₁ (hs.after hrun)
    refine Simulates.later hrun (hsim.extend (hs.after hrun) fun env₂ s₂ hs₂ hends => ?_)
    -- over the `else` part
    obtain ⟨a', s₃, ha', hrun₃, hmoved₃, -⟩ := moves_jump hlaid₃ hop' hends.pos hs₂
    obtain rfl := Option.some.inj (ha'.symm.trans hlabel')
    have hf₃ := (hends.frame.moved (hgrown.inFunction hc) rfl hmoved₃).of_vars (hgrown'.vars_eq hblock') hfits
    have hkept : Kept base n s s₃ := hmoved.kept.trans (hends.kept.trans hmoved₃.kept)
    refine ⟨_, s₃, hrun₃, Ends.cast ⟨hmoved₃.pos, hf₃, hkept⟩ ?_⟩
    simp only [size_append, size_label, size_nil, Nat.add_assoc, Nat.add_zero]

/-- `while`: after the body the machine is back at the condition, and at least one step has been taken -/
theorem correct_whileStmt {again : Env → Exec} (h : Correct z rom addr ga k pass run) (hg : Pass.Grows pass)
    (hagain : Correct z rom addr ga k (Pass.whileStmt H e pass) again) :
    Correct z rom addr ga (k + 1) (Pass.whileStmt H e pass) fun env => withValue z e env fun w =>
      if w = 0 then .done env else (inScope run env).andThen again := by
  intro c is c' p n env base fsize s hpass hlaid hc hfits hat hf hs
  obtain ⟨c₁, h₁, -, hgrown', hblock, hfree⟩ := Pass.grown_inBlock (Pass.grows_fresh fun _ => Pass.grows_whileBody hg) hpass
  have hc₀ := hc.startBlock.counter (c.counter + 1)
  have h₁' : Pass.seq _ { c with allocator := c.allocator.startBlock, counter := c.counter + 1 } = _ := h₁
  obtain ⟨_, hp₁, rfl⟩ := Pass.item_ok h₁'
  obtain ⟨is₁, _, he, hp₂, rfl⟩ := Pass.cons_expr_ok hp₁
  have hp₂' : Pass.seq _ { c with allocator := c.allocator.startBlock, counter := c.counter + 1 + 1 } = _ :=
    Pass.last_ok hp₂
  obtain ⟨op, _, hop, hp₃, rfl⟩ := Pass.jump_ok hp₂'
  obtain ⟨is₂, c₂, _, hbody, hp₄, rfl⟩ := Pass.seq_cons_ok_iff.1 hp₃
  obtain ⟨op', _, hop', hp₅, rfl⟩ := Pass.jump_ok hp₄
  obtain ⟨_, hp₆, rfl⟩ := Pass.item_ok hp₅
  obtain ⟨rfl, rfl⟩ := Pass.nil_ok hp₆
  rw [← List.append_assoc] at hpass hlaid ⊢
  have hwhole := hlaid
  obtain ⟨hloop, hlaid⟩ := hlaid
  obtain ⟨hlaid₁, hlaid⟩ := laid_append.1 hlaid
  obtain ⟨hlaid₂, hlaid⟩ := laid_append.1 hlaid
  obtain ⟨hlaid₃, hend, -⟩ := laid_append.1 hlaid
  obtain ⟨-, -, -, hbodyGrown, hbodyBlock, -⟩ := Pass.grown_inBlock hg hbody
  have hf₀ : InFrame ga c.allocator.startBlock env base fsize s := hf.of_vars rfl hf.fits
  obtain ⟨w, a, s₁, j, hval, ha, hj, hrun, hmoved⟩ := cond_moves he hop hlaid₁ hc₀ hat hf₀ hs
  simp only [withValue_eq hval]
  by_cases hw : w = 0
  · rw [if_pos hw] at hmoved ⊢
    obtain rfl := Option.some.inj (ha.symm.trans hend)
    have hf₁ := (hf.moved hc rfl hmoved).of_vars (hgrown'.vars_eq hblock) hfits
    refine .ended hrun (Ends.cast ⟨hmoved.pos, hf₁, hmoved.kept⟩ ?_)
    simp only [size_append, size_label, size_nil, Nat.add_assoc, Nat.add_zero]
  · rw [if_neg hw] at hmoved ⊢
    have hsim := h.inBlock hg _ _ _ _ _ _ _ _ _ hbody hlaid₂ (hc₀.counter _) (hfree ▸ hfits) hmoved.pos
      (hf₀.moved hc₀ rfl hmoved) (hs.after hrun)
    have hsteps : k + 1 ≤ j + k := by omega
    refine Simulates.mono hsteps (fun _ _ hends => hends) (Simulates.after_silent hrun ?_)
    refine hsim.andThen (hs.after hrun) fun env₂ s₂ hs₂ hends => ?_
    -- back to the condition
    obtain ⟨a', s₃, ha', hrun₃, hmoved₃, -⟩ := moves_jump hlaid₃ hop' hends.pos hs₂
    obtain rfl := Option.some.inj (ha'.symm.trans hloop)
    have hf₃ : InFrame ga c.allocator env₂ base fsize s₃ :=
      (hends.frame.moved (hbodyGrown.inFunction (hc₀.counter _)) rfl hmoved₃).of_vars
        (hbodyGrown.vars_eq hbodyBlock).symm (hgrown'.mono.trans hfits)
    have hkept : Kept base n s s₃ := hmoved.kept.trans (hends.kept.trans hmoved₃.kept)
    exact ((hagain _ _ _ _ _ _ _ _ _ hpass hwhole hc hfits hmoved₃.pos hf₃ (hs₂.after hrun₃)).mono le_rfl
      fun _ _ hends => hends.from hkept).later hrun₃

end FpgaLearning.Compiler
