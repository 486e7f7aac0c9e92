/-
What an expression is worth, and whether the emitted words compute it.

- `BinaryOp.meaning` is the arithmetic of 32-bit words that the operators stand for.
- The visitor emits the operation of `&` for `|` and `^` too. `visitExpr_preserves_iff`: every part of an expression is
  computed rightly if and only if the operands of each `|` are equal and those of each `^` are zero.
- `visitExpr_or`: `1 | 2` comes out as 0.
-/
import FpgaLearning.Compiler.Expressions

namespace FpgaLearning.Compiler

open FpgaLearning.Memory FpgaLearning.Stack FpgaLearning.Stack.Arch

/-! ## Meaning -/

def UnaryOp.meaning (o : UnaryOp) (a : Word) : Word :=
  match o with
  | .minus => -a
  | .bitnot => ~~~a

/-- a quotient or remainder by zero has no meaning -/
def BinaryOp.meaning (o : BinaryOp) (a b : Word) : Option Word :=
  match o with
  | .bitor => some (a ||| b)
  | .bitxor => some (a ^^^ b)
  | .bitand => some (a &&& b)
  | .equal => some (if a = b then 1 else 0)
  | .notequal => some (if a = b then 0 else 1)
  | .less => some (if a.toInt < b.toInt then 1 else 0)
  | .lessequal => some (if a.toInt ≤ b.toInt then 1 else 0)
  | .greater => some (if b.toInt < a.toInt then 1 else 0)
  | .greaterequal => some (if b.toInt ≤ a.toInt then 1 else 0)
  | .shiftleft => some (if 32 ≤ b.toNat then 0 else a <<< b.toNat)
  | .shiftright => some (if 32 ≤ b.toNat then 0 else a >>> b.toNat)
  | .plus => some (a + b)
  | .minus => some (a - b)
  | .mult => some (a * b)
  | .div => if b = 0 then none else some (BitVec.ofNat 32 (a.toNat / b.toNat))
  | .rem => if b = 0 then none else some (BitVec.ofNat 32 (a.toNat % b.toNat))

/-- the value of an expression, when every divisor in it is not zero -/
def Ast.value (read : Ident → Option Word) (e : Ast) : Option Word := e.eval UnaryOp.meaning BinaryOp.meaning read

/-! ## Operators -/

variable {z : DivByZero} {a b w : Word} {o : BinaryOp}

theorem unaryResult_eq (z : DivByZero) (o : UnaryOp) : unaryResult z o = o.meaning := by
  cases o <;> rfl

theorem and_eq_or_iff : a &&& b = a ||| b ↔ a = b := by
  constructor
  · intro h
    apply BitVec.eq_of_getLsbD_eq
    intro i hi
    have hbit := congrArg (·.getLsbD i) h
    simp only [BitVec.getLsbD_and, BitVec.getLsbD_or] at hbit
    revert hbit
    cases a.getLsbD i <;> cases b.getLsbD i <;> simp
  · rintro rfl
    simp

theorem and_eq_xor_iff : a &&& b = a ^^^ b ↔ a = 0 ∧ b = 0 := by
  constructor
  · intro h
    have hbits : ∀ i, a.getLsbD i = false ∧ b.getLsbD i = false := by
      intro i
      have hbit := congrArg (·.getLsbD i) h
      simp only [BitVec.getLsbD_and, BitVec.getLsbD_xor] at hbit
      revert hbit
      cases a.getLsbD i <;> cases b.getLsbD i <;> simp
    exact ⟨BitVec.eq_of_getLsbD_eq fun i _ => by simp [(hbits i).1],
      BitVec.eq_of_getLsbD_eq fun i _ => by simp [(hbits i).2]⟩
  · rintro ⟨rfl, rfl⟩
    rfl

/-- the operations of the machine, where `|` and `^` are not concerned -/
theorem binaryResult_eq (hor : o ≠ .bitor) (hxor : o ≠ .bitxor) (h : o.meaning a b = some w) : binaryResult z o a b = w := by
  cases o with
  | bitor => exact absurd rfl hor
  | bitxor => exact absurd rfl hxor
  | bitand => exact Option.some.inj h
  | equal => rw [← Option.some.inj h]; show ALU.boolWord _ = _; by_cases hab : a = b <;> simp [ALU.boolWord, hab]
  | notequal => rw [← Option.some.inj h]; show ALU.boolWord _ = _; by_cases hab : a = b <;> simp [ALU.boolWord, hab]
  | less => rw [← Option.some.inj h]; show ALU.boolWord _ = _; simp [ALU.boolWord, BitVec.slt]
  | lessequal => rw [← Option.some.inj h]; show ALU.boolWord _ = _; simp [ALU.boolWord, BitVec.sle]
  | greater => rw [← Option.some.inj h]; show ALU.boolWord _ = _; simp [ALU.boolWord, BitVec.slt]
  | greaterequal => rw [← Option.some.inj h]; show ALU.boolWord _ = _; simp [ALU.boolWord, BitVec.sle]
  | shiftleft =>
    rw [← Option.some.inj h]
    show a <<< b.toNat = _
    split_ifs with hb
    · exact BitVec.shiftLeft_eq_zero hb
    · rfl
  | shiftright =>
    rw [← Option.some.inj h]
    show a >>> b.toNat = _
    split_ifs with hb
    · exact BitVec.ushiftRight_eq_zero hb
    · rfl
  | plus => exact Option.some.inj h
  | minus => exact Option.some.inj h
  | mult => exact Option.some.inj h
  | div =>
    simp only [BinaryOp.meaning] at h
    split_ifs at h with hb
    rw [← Option.some.inj h, ← BitVec.toNat_udiv, BitVec.ofNat_toNat, BitVec.setWidth_eq]
    exact if_neg hb
  | rem =>
    simp only [BinaryOp.meaning] at h
    split_ifs at h with hb
    rw [← Option.some.inj h, ← BitVec.toNat_umod, BitVec.ofNat_toNat, BitVec.setWidth_eq]
    exact if_neg hb

/-! ## Expressions -/

variable {decl : Ident → Option (ℕ × Scope)} {read : Ident → Option Word} {e u l r : Ast} {ws : List Opcode} {s : Arch}

/-- what the emitted words compute -/
def Ast.result (z : DivByZero) (read : Ident → Option Word) (e : Ast) : Option Word :=
  e.eval (unaryResult z) (fun o a b => some (binaryResult z o a b)) read

/-- the operands of each `|` in `e` are equal, those of each `^` are zero -/
def Agrees (read : Ident → Option Word) (e : Ast) : Prop := ∀ l r,
  (.binary .bitor l r ∈ e.subexprs → l.value read = r.value read) ∧
    (.binary .bitxor l r ∈ e.subexprs → l.value read = some 0 ∧ r.value read = some 0)

theorem Agrees.sub (h : Agrees read e) (hu : u ∈ e.subexprs) : Agrees read u := fun l r =>
  ⟨fun hor => (h l r).1 (Ast.subexprs_trans hu hor), fun hxor => (h l r).2 (Ast.subexprs_trans hu hxor)⟩

theorem mem_subexprs_left : l ∈ (Ast.binary o l r).subexprs :=
  List.mem_cons_of_mem _ (List.mem_append_left _ l.mem_subexprs_self)

theorem mem_subexprs_right : r ∈ (Ast.binary o l r).subexprs :=
  List.mem_cons_of_mem _ (List.mem_append_right _ r.mem_subexprs_self)

theorem mem_subexprs_operand {o : UnaryOp} : e ∈ (Ast.unary o e).subexprs := List.mem_cons_of_mem _ e.mem_subexprs_self

/-- where the condition holds, the words compute the value -/
theorem Agrees.result_eq (h : Agrees read e) (hval : e.value read = some w) : e.result z read = some w := by
  induction e generalizing w with
  | number n => exact hval
  | ident x => exact hval
  | unary o e ih =>
    obtain ⟨a, ha, rfl⟩ := Option.map_eq_some_iff.1 hval
    have hres : e.result z read = some a := ih (h.sub mem_subexprs_operand) ha
    rw [Ast.result] at hres
    rw [Ast.result, Ast.eval, hres, unaryResult_eq, Option.map_some]
  | binary o l r ihl ihr =>
    obtain ⟨a, ha, hrest⟩ := Option.bind_eq_some_iff.1 hval
    obtain ⟨b, hb, hw⟩ := Option.bind_eq_some_iff.1 hrest
    have hl : l.result z read = some a := ihl (h.sub mem_subexprs_left) ha
    have hr : r.result z read = some b := ihr (h.sub mem_subexprs_right) hb
    have hop : binaryResult z o a b = w := by
      by_cases hor : o = .bitor
      · subst hor
        have hab : l.value read = r.value read := (h l r).1 (Ast.mem_subexprs_self _)
        obtain rfl : a = b := Option.some.inj (ha.symm.trans (hab.trans hb))
        exact (and_eq_or_iff.2 rfl).trans (Option.some.inj hw)
      · by_cases hxor : o = .bitxor
        · subst hxor
          obtain ⟨hl0, hr0⟩ := (h l r).2 (Ast.mem_subexprs_self _)
          obtain rfl : a = 0 := Option.some.inj (ha.symm.trans hl0)
          obtain rfl : b = 0 := Option.some.inj (hb.symm.trans hr0)
          exact (and_eq_xor_iff.2 ⟨rfl, rfl⟩).trans (Option.some.inj hw)
        · exact binaryResult_eq hor hxor hw
    rw [Ast.result] at hl hr
    rw [Ast.result, Ast.eval, hl, hr]
    exact congrArg some hop

/-- a part of an expression with a value has one -/
theorem Ast.value_sub (h : ∃ w, e.value read = some w) (hu : u ∈ e.subexprs) : ∃ w, u.value read = some w := by
  obtain ⟨w, hw⟩ := h
  induction e generalizing w with
  | number n =>
    obtain rfl := List.mem_singleton.1 hu
    exact ⟨w, hw⟩
  | ident x =>
    obtain rfl := List.mem_singleton.1 hu
    exact ⟨w, hw⟩
  | unary o e ih =>
    rcases List.mem_cons.1 hu with rfl | hu
    · exact ⟨w, hw⟩
    · obtain ⟨a, ha, -⟩ := Option.map_eq_some_iff.1 hw
      exact ih hu a ha
  | binary o l r ihl ihr =>
    rcases List.mem_cons.1 hu with rfl | hu
    · exact ⟨w, hw⟩
    · obtain ⟨a, ha, hrest⟩ := Option.bind_eq_some_iff.1 hw
      obtain ⟨b, hb, -⟩ := Option.bind_eq_some_iff.1 hrest
      rcases List.mem_append.1 hu with hu | hu
      · exact ihl hu a ha
      · exact ihr hu b hb

/-- and where the words compute the value of every part, the condition holds -/
theorem agrees_of_result (hdef : ∃ w, e.value read = some w)
    (h : ∀ u ∈ e.subexprs, u.result z read = u.value read) : Agrees read e := by
  have hnode : ∀ o l r, .binary o l r ∈ e.subexprs → ∃ a b w, l.value read = some a ∧ r.value read = some b ∧
      o.meaning a b = some w ∧ binaryResult z o a b = w := by
    intro o l r hu
    obtain ⟨w, hw⟩ := Ast.value_sub hdef hu
    have hres := (h _ hu).trans hw
    obtain ⟨a, ha, hrest⟩ := Option.bind_eq_some_iff.1 hw
    obtain ⟨b, hb, hmean⟩ := Option.bind_eq_some_iff.1 hrest
    have hl : l.result z read = some a := (h l (Ast.subexprs_trans hu mem_subexprs_left)).trans ha
    have hr : r.result z read = some b := (h r (Ast.subexprs_trans hu mem_subexprs_right)).trans hb
    rw [Ast.result] at hl hr
    rw [Ast.result, Ast.eval, hl, hr] at hres
    exact ⟨a, b, w, ha, hb, hmean, Option.some.inj hres⟩
  intro l r
  constructor
  · intro hu
    obtain ⟨a, b, w, ha, hb, hmean, hres⟩ := hnode _ l r hu
    rw [ha, hb, and_eq_or_iff.1 (hres.trans (Option.some.inj hmean).symm)]
  · intro hu
    obtain ⟨a, b, w, ha, hb, hmean, hres⟩ := hnode _ l r hu
    obtain ⟨rfl, rfl⟩ := and_eq_xor_iff.1 (hres.trans (Option.some.inj hmean).symm)
    exact ⟨ha, hb⟩

/-! ## The emitted words -/

/-- the stack has room for `t`, in the RAM and apart from the variables -/
structure Room (v : MyVisitor) (t : Expr) (s : Arch) : Prop where
  fits : s.sp.toNat + t.ast.depth ≤ 2 ^ 15
  apart : ∀ x ∈ t.ast.idents, ∀ d, v.getDeclaration x = some d →
    Outside s.sp.toNat t.ast.depth (address s d.1 d.2)

/-- the words that `visitExpr` emits for `t`, run from `s`, push the value of `t` and leave the rest as it is -/
def Preserves (z : DivByZero) (v : MyVisitor) (t : Expr) (s : Arch) : Prop :=
  ∃ ws w, MyVisitor.visitExpr t v = .ok (v.append ws) ∧ t.ast.value (Compiler.read v.getDeclaration s) = some w ∧
    ∀ rom, Holds rom s.pc ws →
      ∃ s', (machine z rom).Runs ws.length s [] s' ∧ Pushed s.sp.toNat t.ast.depth ws.length w s s'

/-- the words of a part are among the words of the whole -/
theorem Compiles.sub (h : Compiles decl e ws) (hu : u ∈ e.subexprs) :
    ∃ before words after, ws = before ++ words ++ after ∧ Compiles decl u words := by
  induction h with
  | number hn hw =>
    obtain rfl := List.mem_singleton.1 hu
    exact ⟨[], _, [], by simp, .number hn hw⟩
  | global hx hw hw' =>
    obtain rfl := List.mem_singleton.1 hu
    exact ⟨[], _, [], by simp, .global hx hw hw'⟩
  | stack hx hw =>
    obtain rfl := List.mem_singleton.1 hu
    exact ⟨[], _, [], by simp, .stack hx hw⟩
  | @unary o e ws op he hw ih =>
    rcases List.mem_cons.1 hu with rfl | hu
    · exact ⟨[], _, [], by simp, .unary he hw⟩
    · obtain ⟨before, words, after, rfl, hc⟩ := ih hu
      exact ⟨before, words, after ++ [op], by simp, hc⟩
  | @binary o l r ws ws' op hl hr hw ihl ihr =>
    rcases List.mem_cons.1 hu with rfl | hu
    · exact ⟨[], _, [], by simp, .binary hl hr hw⟩
    · rcases List.mem_append.1 hu with hu | hu
      · obtain ⟨before, words, after, rfl, hc⟩ := ihl hu
        exact ⟨before, words, after ++ ws' ++ [op], by simp, hc⟩
      · obtain ⟨before, words, after, rfl, hc⟩ := ihr hu
        exact ⟨ws ++ before, words, after ++ [op], by simp, hc⟩

/-- a part needs no more of the stack and has no other variables -/
theorem Ast.sub_le (hu : u ∈ e.subexprs) : u.depth ≤ e.depth ∧ ∀ x ∈ u.idents, x ∈ e.idents := by
  induction e with
  | number n =>
    obtain rfl := List.mem_singleton.1 hu
    exact ⟨le_rfl, fun _ hx => hx⟩
  | ident x =>
    obtain rfl := List.mem_singleton.1 hu
    exact ⟨le_rfl, fun _ hx => hx⟩
  | unary o e ih =>
    rcases List.mem_cons.1 hu with rfl | hu
    · exact ⟨le_rfl, fun _ hx => hx⟩
    · exact ih hu
  | binary o l r ihl ihr =>
    rcases List.mem_cons.1 hu with rfl | hu
    · exact ⟨le_rfl, fun _ hx => hx⟩
    · rcases List.mem_append.1 hu with hu | hu
      · exact ⟨(ihl hu).1.trans (le_max_left _ _), fun x hx => List.mem_append_left _ ((ihl hu).2 x hx)⟩
      · exact ⟨(ihr hu).1.trans ((Nat.le_succ _).trans (le_max_right _ _)),
          fun x hx => List.mem_append_right _ ((ihr hu).2 x hx)⟩

theorem Room.sub {v : MyVisitor} {t t' : Expr} (h : Room v t s) (hu : t'.ast ∈ t.ast.subexprs) : Room v t' s where
  fits := (Nat.add_le_add_left (Ast.sub_le hu).1 _).trans h.fits
  apart x hx d hd :=
    (h.apart x ((Ast.sub_le hu).2 x hx) d hd).mono le_rfl (Nat.add_le_add_left (Ast.sub_le hu).1 _)

/-- with all variables declared, the words compute something -/
theorem Compiles.exists_result (h : Compiles decl e ws) (z : DivByZero) (s : Arch) :
    ∃ w, e.result z (Compiler.read decl s) = some w := by
  induction h with
  | number hn hw => exact ⟨_, rfl⟩
  | global hx hw hw' => exact ⟨_, by rw [Ast.result, Ast.eval, Compiler.read, hx]; rfl⟩
  | stack hx hw => exact ⟨_, by rw [Ast.result, Ast.eval, Compiler.read, hx]; rfl⟩
  | unary he hw ih =>
    obtain ⟨a, ha⟩ := ih
    rw [Ast.result] at ha
    exact ⟨_, by rw [Ast.result, Ast.eval, ha]; rfl⟩
  | binary hl hr hw ihl ihr =>
    obtain ⟨a, ha⟩ := ihl
    obtain ⟨b, hb⟩ := ihr
    rw [Ast.result] at ha hb
    exact ⟨_, by rw [Ast.result, Ast.eval, ha, hb]; rfl⟩

/-- what the words of `t` do, whatever they compute -/
theorem Room.run {v : MyVisitor} {t : Expr} {rom : Word → Word} (hroom : Room v t s)
    (hc : Compiles v.getDeclaration t.ast ws) (hrom : Holds rom s.pc ws)
    (hres : t.ast.result z (Compiler.read v.getDeclaration s) = some w) :
    ∃ s', (machine z rom).Runs ws.length s [] s' ∧ Pushed s.sp.toNat t.ast.depth ws.length w s s' :=
  hc.run hrom (by rw [BitVec.ofNat_toNat, BitVec.setWidth_eq]) hroom.fits hroom.apart hres

/-- the words of `t` preserve its meaning if and only if they compute its value -/
theorem preserves_iff {v : MyVisitor} {t : Expr} {rom : Word → Word} (hroom : Room v t s)
    (hc : Compiles v.getDeclaration t.ast ws) (hrom : Holds rom s.pc ws)
    (hdef : ∃ w, t.ast.value (Compiler.read v.getDeclaration s) = some w) :
    Preserves z v t s ↔ t.ast.result z (Compiler.read v.getDeclaration s) =
      t.ast.value (Compiler.read v.getDeclaration s) := by
  constructor
  · rintro ⟨ws', w, hvisit, hw, hrun⟩
    obtain ⟨r, hr⟩ := hc.exists_result z s
    -- both runs are the run from `s`
    have hsame : v.append ws' = v.append ws :=
      Except.ok.inj (hvisit.symm.trans ((MyVisitor.visitExpr_iff t).2 ⟨ws, hc, rfl⟩))
    obtain rfl : ws' = ws := by simpa [MyVisitor.append] using hsame
    obtain ⟨s₁, hs₁, hp₁⟩ := hrun rom hrom
    obtain ⟨s₂, hs₂, hp₂⟩ := hroom.run hc hrom hr
    obtain rfl : s₁ = s₂ := hs₁.state.symm.trans hs₂.state
    rw [hr, hw, ← hp₁.top, ← hp₂.top]
  · intro heq
    obtain ⟨w, hw⟩ := hdef
    exact ⟨ws, w, (MyVisitor.visitExpr_iff t).2 ⟨ws, hc, rfl⟩, hw, fun rom hrom => hroom.run hc hrom (heq.trans hw)⟩

theorem holds_shift {rom : Word → Word} {k pc : Word} (h : Holds rom (pc + k) ws) : Holds (fun a => rom (a + k)) pc ws := by
  induction ws generalizing pc with
  | nil => trivial
  | cons w ws ih =>
    refine ⟨h.1, ih ?_⟩
    rw [BitVec.add_assoc, BitVec.add_comm 1, ← BitVec.add_assoc]
    exact h.2

/-- **Expressions.** Every part of `t` is computed rightly if and only if the operands of each `|` in `t` are equal and
those of each `^` are zero. -/
theorem visitExpr_preserves_iff (z : DivByZero) (v : MyVisitor) (t : Expr) (s : Arch) (rom : Word → Word)
    (ws : List Opcode) (hvisit : MyVisitor.visitExpr t v = .ok (v.append ws)) (hrom : Holds rom s.pc ws)
    (hroom : Room v t s) (hdef : ∃ w, t.ast.value (Compiler.read v.getDeclaration s) = some w) :
    (∀ u : Expr, u.ast ∈ t.ast.subexprs → Preserves z v u s) ↔ Agrees (Compiler.read v.getDeclaration s) t.ast := by
  obtain ⟨ws', hc, hws'⟩ := (MyVisitor.visitExpr_iff t).1 hvisit
  obtain rfl : ws = ws' := by simpa [MyVisitor.append] using hws'
  -- one part: its words stand somewhere among the words of `t`
  have hpart : ∀ u : Expr, u.ast ∈ t.ast.subexprs → (Preserves z v u s ↔
      u.ast.result z (Compiler.read v.getDeclaration s) = u.ast.value (Compiler.read v.getDeclaration s)) := by
    intro u hu
    obtain ⟨before, words, after, rfl, hcu⟩ := hc.sub hu
    have hwords : Holds rom (s.pc + BitVec.ofNat 32 before.length) words := (holds_append.1 (holds_append.1 hrom).1).2
    exact preserves_iff (hroom.sub hu) hcu (holds_shift hwords) (Ast.value_sub hdef hu)
  constructor
  · intro h
    refine agrees_of_result (z := z) hdef fun u hu => ?_
    rw [← u.ast_expr] at hu ⊢
    exact (hpart u.expr hu).1 (h u.expr hu)
  · intro h u hu
    obtain ⟨w, hw⟩ := Ast.value_sub hdef hu
    exact (hpart u hu).2 (((h.sub hu).result_eq hw).trans hw.symm)

/-- `3 | 3` comes out as 3 -/
theorem visitExpr_or_same :
    Preserves ⟨fun _ => 0, fun _ => 0⟩ .new (BinaryOp.bitor.expr (.number 3) (.number 3)) (Arch.init fun _ => 0) := by
  have hagrees : Agrees (Compiler.read (MyVisitor.new).getDeclaration (Arch.init fun _ => 0))
      (BinaryOp.bitor.expr (.number 3) (.number 3)).ast := by
    intro l r
    rw [BinaryOp.ast_expr]
    constructor
    · intro h
      obtain ⟨rfl, rfl⟩ : l = .number 3 ∧ r = .number 3 := by simpa [Ast.subexprs, Factor.ast] using h
      rfl
    · intro h
      simp [Ast.subexprs, Factor.ast] at h
  exact (visitExpr_preserves_iff _ _ _ _ (fun a => [3#32, 3#32, 0x80000070#32].getD a.toNat 0)
    [3#32, 3#32, 0x80000070#32] (by decide) ⟨by decide, by decide, by decide, trivial⟩
    ⟨by decide, fun _ hx => (List.not_mem_nil hx).elim⟩ ⟨3, by decide⟩).2 hagrees _ (Ast.mem_subexprs_self _)

/-- `1 | 2` is compiled to the words of `1 & 2` -/
theorem visitExpr_or : ¬ ∀ (z : DivByZero) (v : MyVisitor) (t : Expr) (s : Arch) (rom : Word → Word) (ws : List Opcode),
    MyVisitor.visitExpr t v = .ok (v.append ws) → Holds rom s.pc ws → Room v t s →
      (∃ w, t.ast.value (Compiler.read v.getDeclaration s) = some w) → Preserves z v t s := by
  intro h
  have hc : Compiles (MyVisitor.new).getDeclaration (BinaryOp.bitor.expr (.number 1) (.number 2)).ast
      [1#32, 2#32, 0x80000070#32] := .binary (.number (by decide) rfl) (.number (by decide) rfl) (by decide)
  have hrom : Holds (fun a => [1#32, 2#32, 0x80000070#32].getD a.toNat 0) (Arch.init fun _ => 0).pc
      [1#32, 2#32, 0x80000070#32] := ⟨by decide, by decide, by decide, trivial⟩
  have hroom : Room .new (BinaryOp.bitor.expr (.number 1) (.number 2)) (Arch.init fun _ => 0) :=
    ⟨by decide, fun _ hx => (List.not_mem_nil hx).elim⟩
  have hdef : ∃ w, (BinaryOp.bitor.expr (.number 1) (.number 2)).ast.value
      (Compiler.read (MyVisitor.new).getDeclaration (Arch.init fun _ => 0)) = some w := ⟨3, by decide⟩
  have hp := h ⟨fun _ => 0, fun _ => 0⟩ _ _ _ _ _ ((MyVisitor.visitExpr_iff _).2 ⟨_, hc, rfl⟩) hrom hroom hdef
  exact absurd ((preserves_iff hroom hc hrom hdef).1 hp) (by decide)

end FpgaLearning.Compiler
