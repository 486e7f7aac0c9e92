/-
What the visitor emits for an expression, and what these words do.

- `Compiles decl e ws`: under the declarations `decl` the words for `e` are `ws`. `visitExpr_iff` says that this is what
  `visitExpr` appends to the program.
- `Compiles.run`: the words push one word, the value of the expression in the operations that were emitted, and change
  nothing but the stack from `sp` on.
-/
import FpgaLearning.Compiler.Machine
import FpgaLearning.Compiler.Visitor

namespace FpgaLearning.Compiler

open FpgaLearning.Memory FpgaLearning.Stack

/-! ## Operations and values -/

/-- what the visitor emits -/
def UnaryOp.alu : UnaryOp → OpAlu
  | .minus => .negate
  | .bitnot => .not

/-- what the visitor emits; `|` and `^` share the operation of `&` -/
def BinaryOp.alu : BinaryOp → OpAlu
  | .bitor => .and | .bitxor => .and | .bitand => .and | .equal => .eq | .notequal => .neq | .less => .lt
  | .lessequal => .le | .greater => .gt | .greaterequal => .ge | .shiftleft => .shl | .shiftright => .shr | .plus => .add
  | .minus => .sub | .mult => .mul | .div => .div | .rem => .rem

namespace Ast

/-- the value of an expression, if there is one, for given meanings of its operations and variables -/
def eval (unary : UnaryOp → Word → Word) (binary : BinaryOp → Word → Word → Option Word) (read : Ident → Option Word) :
    Ast → Option Word
  | .number n => some (BitVec.ofNat 32 n)
  | .ident x => read x
  | .unary o e => (e.eval unary binary read).map (unary o)
  | .binary o l r => do
    let a ← l.eval unary binary read
    let b ← r.eval unary binary read
    binary o a b

/-- words on the stack while the expression is evaluated -/
def depth : Ast → ℕ
  | .number _ => 1
  | .ident _ => 1
  | .unary _ e => e.depth
  | .binary _ l r => max l.depth (r.depth + 1)

def idents : Ast → List Ident
  | .number _ => []
  | .ident x => [x]
  | .unary _ e => e.idents
  | .binary _ l r => l.idents ++ r.idents

theorem depth_pos (e : Ast) : 0 < e.depth := by
  induction e with
  | number n => exact Nat.one_pos
  | ident x => exact Nat.one_pos
  | unary o e ih => exact ih
  | binary o l r ihl _ => exact lt_of_lt_of_le ihl (le_max_left _ _)

end Ast

/-! ## The visitor -/

/-- `decl` is what `getDeclaration` answers -/
inductive Compiles (decl : Ident → Option (ℕ × Scope)) : Ast → List Opcode → Prop where
  | number {n : ℕ} {w : Opcode} (hn : n < 2 ^ 32) (hw : Assembler.lconst (BitVec.ofNat 32 n) = .ok w) :
      Compiles decl (.number n) [w]
  | global {x : Ident} {addr : ℕ} {w w' : Opcode} (hx : decl x = some (addr, .global))
      (hw : Assembler.lconst (BitVec.ofNat 32 addr) = .ok w) (hw' : Assembler.lmem = .ok w') :
      Compiles decl (.ident x) [w, w']
  | stack {x : Ident} {addr : ℕ} {w : Opcode} (hx : decl x = some (addr, .stack))
      (hw : Assembler.lfpmem (CodeGenerator.fpDelta addr) = .ok w) : Compiles decl (.ident x) [w]
  | unary {o : UnaryOp} {e : Ast} {ws : List Opcode} {w : Opcode} (he : Compiles decl e ws)
      (hw : Assembler.unary o.alu = .ok w) : Compiles decl (.unary o e) (ws ++ [w])
  | binary {o : BinaryOp} {l r : Ast} {ws ws' : List Opcode} {w : Opcode} (hl : Compiles decl l ws)
      (hr : Compiles decl r ws') (hw : Assembler.binary o.alu = .ok w) : Compiles decl (.binary o l r) (ws ++ ws' ++ [w])

/-- what counts is the declarations of the variables in the expression -/
theorem Compiles.congr {decl decl' : Ident → Option (ℕ × Scope)} {e : Ast} {ws : List Opcode} (h : Compiles decl e ws)
    (hd : ∀ x ∈ e.idents, decl' x = decl x) : Compiles decl' e ws := by
  induction h with
  | number hn hw => exact .number hn hw
  | global hx hw hw' => exact .global ((hd _ List.mem_cons_self).trans hx) hw hw'
  | stack hx hw => exact .stack ((hd _ List.mem_cons_self).trans hx) hw
  | unary he hw ih => exact .unary (ih hd) hw
  | binary hl hr hw ihl ihr =>
    exact .binary (ihl fun x hx => hd x (List.mem_append_left _ hx)) (ihr fun x hx => hd x (List.mem_append_right _ hx)) hw

namespace MyVisitor

open CodeGenerator

variable {v v' : MyVisitor} {e : Ast} {ws : List Opcode}

def visitAst : Ast → Visit
  | .number n => visitNumber n
  | .ident x => visitIdent x
  | .unary o e => fun v => do
    let v ← visitAst e v
    v.gen (push (Assembler.unary o.alu))
  | .binary o l r => visitOperands (visitAst l) (visitAst r) (push (Assembler.binary o.alu))

mutual

/-- the levels of the grammar differ in the operators only -/
theorem visitExpr_ast : ∀ e : Expr, visitExpr e = visitAst e.ast
  | .bitwiseor e => by rw [visitExpr, visitBitwiseor_ast e, Expr.ast]

theorem visitBitwiseor_ast : ∀ e : Bitwiseor, visitBitwiseor e = visitAst e.ast
  | .bitor l r => by rw [visitBitwiseor, visitBitwiseor_ast l, visitBitwisexor_ast r]; rfl
  | .bitwisexor e => by rw [visitBitwiseor, visitBitwisexor_ast e, Bitwiseor.ast]

theorem visitBitwisexor_ast : ∀ e : Bitwisexor, visitBitwisexor e = visitAst e.ast
  | .bitxor l r => by rw [visitBitwisexor, visitBitwisexor_ast l, visitBitwiseand_ast r]; rfl
  | .bitwiseand e => by rw [visitBitwisexor, visitBitwiseand_ast e, Bitwisexor.ast]

theorem visitBitwiseand_ast : ∀ e : Bitwiseand, visitBitwiseand e = visitAst e.ast
  | .bitand l r => by rw [visitBitwiseand, visitBitwiseand_ast l, visitEqcomparison_ast r]; rfl
  | .eqcomparison e => by rw [visitBitwiseand, visitEqcomparison_ast e, Bitwiseand.ast]

theorem visitEqcomparison_ast : ∀ e : Eqcomparison, visitEqcomparison e = visitAst e.ast
  | .equal l r => by rw [visitEqcomparison, visitEqcomparison_ast l, visitComparison_ast r]; rfl
  | .notequal l r => by rw [visitEqcomparison, visitEqcomparison_ast l, visitComparison_ast r]; rfl
  | .comparison e => by rw [visitEqcomparison, visitComparison_ast e, Eqcomparison.ast]

theorem visitComparison_ast : ∀ e : Comparison, visitComparison e = visitAst e.ast
  | .less l r => by rw [visitComparison, visitComparison_ast l, visitShift_ast r]; rfl
  | .lessequal l r => by rw [visitComparison, visitComparison_ast l, visitShift_ast r]; rfl
  | .greater l r => by rw [visitComparison, visitComparison_ast l, visitShift_ast r]; rfl
  | .greaterequal l r => by rw [visitComparison, visitComparison_ast l, visitShift_ast r]; rfl
  | .shift e => by rw [visitComparison, visitShift_ast e, Comparison.ast]

theorem visitShift_ast : ∀ e : Shift, visitShift e = visitAst e.ast
  | .shiftleft l r => by rw [visitShift, visitShift_ast l, visitSumma_ast r]; rfl
  | .shiftright l r => by rw [visitShift, visitShift_ast l, visitSumma_ast r]; rfl
  | .summa e => by rw [visitShift, visitSumma_ast e, Shift.ast]

theorem visitSumma_ast : ∀ e : Summa, visitSumma e = visitAst e.ast
  | .plus l r => by rw [visitSumma, visitSumma_ast l, visitTerm_ast r]; rfl
  | .minus l r => by rw [visitSumma, visitSumma_ast l, visitTerm_ast r]; rfl
  | .term e => by rw [visitSumma, visitTerm_ast e, Summa.ast]

theorem visitTerm_ast : ∀ e : Term, visitTerm e = visitAst e.ast
  | .mult l r => by rw [visitTerm, visitTerm_ast l, visitFactor_ast r]; rfl
  | .div l r => by rw [visitTerm, visitTerm_ast l, visitFactor_ast r]; rfl
  | .rem l r => by rw [visitTerm, visitTerm_ast l, visitFactor_ast r]; rfl
  | .factor e => by rw [visitTerm, visitFactor_ast e, Term.ast]

theorem visitFactor_ast : ∀ e : Factor, visitFactor e = visitAst e.ast
  | .minus e => by rw [visitFactor, visitFactor_ast e]; rfl
  | .bitnot e => by rw [visitFactor, visitFactor_ast e]; rfl
  | .number n => rfl
  | .ident x => rfl
  | .paren e => by rw [visitFactor, visitExpr_ast e, Factor.ast]

end

/-- more words at the end of the program -/
def append (ws : List Opcode) (v : MyVisitor) : MyVisitor :=
  { v with codeGen := { v.codeGen with program := v.codeGen.program ++ ws } }

theorem append_append (ws ws' : List Opcode) (v : MyVisitor) : (v.append ws).append ws' = v.append (ws ++ ws') := by
  simp [append]

@[simp] theorem getDeclaration_append (ws : List Opcode) (v : MyVisitor) :
    (v.append ws).getDeclaration = v.getDeclaration := rfl

theorem bind_ok_iff {α β : Type} {x : Except String α} {f : α → Except String β} {b : β} :
    (x >>= f) = .ok b ↔ ∃ a, x = .ok a ∧ f a = .ok b := by
  cases x <;> simp [bind, Except.bind]

theorem gen_push_iff {w : Except String Opcode} : v.gen (push w) = .ok v' ↔ ∃ op, w = .ok op ∧ v' = v.append [op] := by
  cases w with
  | error m => simp [gen, push, bind, Except.bind]
  | ok op => simp [gen, push, bind, Except.bind, append, eq_comm]

theorem gen_push_push_iff {w w' : Except String Opcode} : v.gen (fun g => push w g >>= push w') = .ok v' ↔
    ∃ op op', w = .ok op ∧ w' = .ok op' ∧ v' = v.append [op, op'] := by
  cases w with
  | error m => simp [gen, push, bind, Except.bind]
  | ok op =>
    cases w' with
    | error m => simp [gen, push, bind, Except.bind]
    | ok op' => simp [gen, push, bind, Except.bind, append, eq_comm]

/-- what is emitted for an expression is what it compiles to -/
theorem compiles_of_visitAst (h : visitAst e v = .ok v') : ∃ ws, Compiles v.getDeclaration e ws ∧ v' = v.append ws := by
  induction e generalizing v v' with
  | number n =>
    rw [visitAst, visitNumber] at h
    split_ifs at h with hn
    obtain ⟨w, hw, rfl⟩ := gen_push_iff.1 h
    exact ⟨_, .number hn hw, rfl⟩
  | ident x =>
    rw [visitAst, visitIdent] at h
    cases hx : v.getDeclaration x with
    | none => simp [hx] at h
    | some d =>
      obtain ⟨addr, scope⟩ := d
      rw [hx] at h
      cases scope with
      | global =>
        obtain ⟨w, w', hw, hw', rfl⟩ := gen_push_push_iff.1 h
        exact ⟨_, .global hx hw hw', rfl⟩
      | stack =>
        obtain ⟨w, hw, rfl⟩ := gen_push_iff.1 h
        exact ⟨_, .stack hx hw, rfl⟩
  | unary o e ih =>
    obtain ⟨v₁, h₁, h₂⟩ := bind_ok_iff.1 h
    obtain ⟨ws, hws, rfl⟩ := ih h₁
    obtain ⟨w, hw, rfl⟩ := gen_push_iff.1 h₂
    exact ⟨_, .unary hws hw, append_append ..⟩
  | binary o l r ihl ihr =>
    obtain ⟨v₁, h₁, h₂⟩ := bind_ok_iff.1 h
    obtain ⟨v₂, h₂, h₃⟩ := bind_ok_iff.1 h₂
    obtain ⟨ws, hws, rfl⟩ := ihl h₁
    obtain ⟨ws', hws', rfl⟩ := ihr h₂
    obtain ⟨w, hw, rfl⟩ := gen_push_iff.1 h₃
    refine ⟨_, .binary hws hws' hw, ?_⟩
    rw [append_append, append_append, List.append_assoc]

theorem visitAst_of_compiles {decl : Ident → Option (ℕ × Scope)} (h : Compiles decl e ws) (hv : v.getDeclaration = decl) :
    visitAst e v = .ok (v.append ws) := by
  induction h generalizing v with
  | number hn hw =>
    rw [visitAst, visitNumber, if_pos hn]
    exact gen_push_iff.2 ⟨_, hw, rfl⟩
  | global hx hw hw' =>
    rw [visitAst, visitIdent, hv, hx]
    exact gen_push_push_iff.2 ⟨_, _, hw, hw', rfl⟩
  | stack hx hw =>
    rw [visitAst, visitIdent, hv, hx]
    exact gen_push_iff.2 ⟨_, hw, rfl⟩
  | unary he hw ih =>
    refine bind_ok_iff.2 ⟨_, ih hv, gen_push_iff.2 ⟨_, hw, ?_⟩⟩
    rw [append_append]
  | binary hl hr hw ihl ihr =>
    refine bind_ok_iff.2 ⟨_, ihl hv, bind_ok_iff.2 ⟨_, ihr hv, gen_push_iff.2 ⟨_, hw, ?_⟩⟩⟩
    rw [append_append, append_append, List.append_assoc]

/-- **The visitor on expressions.** -/
theorem visitExpr_iff (t : Expr) :
    visitExpr t v = .ok v' ↔ ∃ ws, Compiles v.getDeclaration t.ast ws ∧ v' = v.append ws := by
  rw [visitExpr_ast]
  constructor
  · exact compiles_of_visitAst
  · rintro ⟨ws, hws, rfl⟩
    exact visitAst_of_compiles hws rfl

end MyVisitor

/-! ## Running the words -/

section Run

open Traced Arch

variable {z : DivByZero} {rom : Word → Word} {decl : Ident → Option (ℕ × Scope)} {e : Ast} {ws : List Opcode}
  {s s' : Arch} {n : ℕ} {w : Word}

/-- the words are in the ROM from address `a` on -/
def Holds (rom : Word → Word) : Word → List Opcode → Prop
  | _, [] => True
  | a, w :: ws => rom a = w ∧ Holds rom (a + 1) ws

theorem holds_append {a : Word} {ws ws' : List Opcode} :
    Holds rom a (ws ++ ws') ↔ Holds rom a ws ∧ Holds rom (a + BitVec.ofNat 32 ws.length) ws' := by
  induction ws generalizing a with
  | nil => simp [Holds]
  | cons w ws ih =>
    have hlen : a + 1 + BitVec.ofNat 32 ws.length = a + BitVec.ofNat 32 (w :: ws).length := by
      rw [List.length_cons, ← ofNat_add_one, BitVec.add_assoc, BitVec.add_comm 1]
    rw [List.cons_append, Holds, Holds, ih, hlen, and_assoc]

/-- the address of a variable: a frame is counted down from fp -/
def address (s : Arch) (addr : ℕ) : Scope → Word
  | .global => BitVec.ofNat 32 addr
  | .stack => s.fp - BitVec.ofNat 32 addr

theorem address_eq (hfp : s'.fp = s.fp) : address s' = address s := by
  funext addr scope
  cases scope with
  | global => rfl
  | stack => rw [address, address, hfp]

/-- the declared variables in a state of the machine -/
def read (decl : Ident → Option (ℕ × Scope)) (s : Arch) (x : Ident) : Option Word :=
  (decl x).map fun d => s.load (address s d.1 d.2)

/-- one more word on the stack, above `n` others; nothing else has changed but the `d` words from `n` on -/
structure Pushed (n d len : ℕ) (w : Word) (s s' : Arch) : Prop where
  pc : s'.pc = s.pc + BitVec.ofNat 32 len
  sp : s'.sp = BitVec.ofNat 32 (n + 1)
  fp : s'.fp = s.fp
  ppc : s'.ppc = s.ppc
  top : s'.word n = w
  frame : ∀ a, Outside n d a → s'.load a = s.load a

/-- the operations of the machine -/
def unaryResult (z : DivByZero) (o : UnaryOp) (a : Word) : Word := ALU.result z o.alu.aluOp a 0

def binaryResult (z : DivByZero) (o : BinaryOp) (a b : Word) : Word := ALU.result z o.alu.aluOp a b

theorem decode_unary {o : OpAlu} (hw : Assembler.unary o = .ok w) :
    decode w = ⟨0, .stack, .imm, .stack, o.aluOp⟩ := Assembler.decode_op hw

theorem decode_binary {o : OpAlu} (hw : Assembler.binary o = .ok w) :
    decode w = ⟨0, .stack, .stack, .stack, o.aluOp⟩ := Assembler.decode_op hw

theorem decode_lmem (hw : Assembler.lmem = .ok w) : decode w = ⟨0, .addr, .stack, .stack, .a⟩ := Assembler.decode_op hw

theorem decode_lfpmem {delta : ℤ} (hw : Assembler.lfpmem delta = .ok w) :
    decode w = ⟨BitVec.ofInt 32 delta, .addr, .fpImm, .stack, .a⟩ := Assembler.decode_op hw

theorem fp_add_fpDelta (s : Arch) (addr : ℕ) :
    s.fp + BitVec.ofInt 32 (CodeGenerator.fpDelta addr) = address s addr .stack := by
  rw [CodeGenerator.fpDelta, BitVec.ofInt_neg, BitVec.ofInt_toInt, address, BitVec.sub_eq_add_neg]

namespace Ast

theorem eval_congr {unary : UnaryOp → Word → Word} {binary : BinaryOp → Word → Word → Option Word}
    {f g : Ident → Option Word} (h : ∀ x ∈ e.idents, f x = g x) : e.eval unary binary f = e.eval unary binary g := by
  induction e with
  | number n => rfl
  | ident x => exact h x (List.mem_singleton_self x)
  | unary o e ih => rw [eval, eval, ih h]
  | binary o l r ihl ihr =>
    rw [eval, eval, ihl fun x hx => h x (List.mem_append_left _ hx), ihr fun x hx => h x (List.mem_append_right _ hx)]

end Ast

/-- one word that pushes -/
theorem Pushed.one (hpc : s'.pc = s.pc + 1) (hsp : s'.sp = BitVec.ofNat 32 (n + 1)) (hfp : s'.fp = s.fp)
    (hppc : s'.ppc = s.ppc) (hout : s'.out1 = s.out1) (hmem : s'.mem = put s.mem n w) (hn : n < 2 ^ 15) :
    Pushed n 1 1 w s s' :=
  ⟨hpc, hsp, hfp, hppc, word_put hmem, fun _ ha => load_put hmem hout hn ha⟩

/-- a word that takes the top of the stack and pushes another -/
theorem Pushed.replace {d len : ℕ} {a : Word} {t : Arch} (h : Pushed n d len a s t) (hpc : s'.pc = t.pc + 1)
    (hsp : s'.sp = BitVec.ofNat 32 (n + 1)) (hfp : s'.fp = t.fp) (hppc : s'.ppc = t.ppc) (hout : s'.out1 = t.out1)
    (hmem : s'.mem = put t.mem n w) (hn : n < 2 ^ 15) (hd : 0 < d) : Pushed n d (len + 1) w s s' where
  pc := by rw [hpc, h.pc, BitVec.add_assoc, ofNat_add_one]
  sp := hsp
  fp := hfp.trans h.fp
  ppc := hppc.trans h.ppc
  top := word_put hmem
  frame a ha := (load_put hmem hout hn (ha.mono le_rfl (by omega))).trans (h.frame a ha)

/-- a word that takes two and pushes one -/
theorem Pushed.operate {d d' len len' : ℕ} {a b : Word} {t u : Arch} (h : Pushed n d len a s t)
    (h' : Pushed (n + 1) d' len' b t u) (hpc : s'.pc = u.pc + 1) (hsp : s'.sp = BitVec.ofNat 32 (n + 1))
    (hfp : s'.fp = u.fp) (hppc : s'.ppc = u.ppc) (hout : s'.out1 = u.out1) (hmem : s'.mem = put u.mem n w)
    (hn : n < 2 ^ 15) : Pushed n (max d (d' + 1)) (len + len' + 1) w s s' where
  pc := by rw [hpc, h'.pc, h.pc, BitVec.add_assoc, BitVec.add_assoc, ofNat_add_one, ← BitVec.ofNat_add, Nat.add_assoc]
  sp := hsp
  fp := hfp.trans (h'.fp.trans h.fp)
  ppc := hppc.trans (h'.ppc.trans h.ppc)
  top := word_put hmem
  frame a ha := by
    calc s'.load a
      _ = u.load a := load_put hmem hout hn (ha.mono le_rfl (by omega))
      _ = t.load a := h'.frame a (ha.mono (by omega) (by omega))
      _ = s.load a := h.frame a (ha.mono le_rfl (by omega))

/-- what is below the pushed word is as it was -/
theorem Pushed.word_below {d len m : ℕ} (h : Pushed n d len w s s') (hm : m < n) (hn : n ≤ 2 ^ 15) :
    s'.word m = s.word m := by
  rw [← load_ofNat (by omega), ← load_ofNat (by omega)]
  exact h.frame _ (outside_ofNat (by omega) (.inl hm))

/-- a push changes no variable outside the stack -/
theorem Pushed.read_eq {d len : ℕ} {x : Ident} (h : Pushed n d len w s s')
    (hx : ∀ v, decl x = some v → Outside n d (address s v.1 v.2)) : read decl s' x = read decl s x := by
  unfold read
  cases hd : decl x with
  | none => rfl
  | some v =>
    rw [Option.map_some, Option.map_some, address_eq h.fp, h.frame _ (hx v hd)]

/-- the words of an expression: induction on how they were put together -/
theorem Compiles.run (h : Compiles decl e ws) (hrom : Holds rom s.pc ws) (hsp : s.sp = BitVec.ofNat 32 n)
    (hroom : n + e.depth ≤ 2 ^ 15)
    (hvars : ∀ x ∈ e.idents, ∀ d, decl x = some d → Outside n e.depth (address s d.1 d.2))
    (hval : e.eval (unaryResult z) (fun o a b => some (binaryResult z o a b)) (read decl s) = some w) :
    ∃ s', (machine z rom).Runs ws.length s [] s' ∧ Pushed n e.depth ws.length w s s' := by
  induction h generalizing s n w with
  | @number k op hk hw =>
    obtain ⟨hop, -⟩ := hrom
    rw [Ast.depth] at hroom
    obtain rfl : BitVec.ofNat 32 k = w := by simpa [Ast.eval] using hval
    have hdec : decode (rom s.pc) = _ := hop ▸ Assembler.decode_lconst hw
    exact ⟨_, runs_const hdec hsp (by omega), .one rfl rfl rfl rfl rfl rfl (by omega)⟩
  | @global x addr op op' hx hw hw' =>
    obtain ⟨hop, hop', -⟩ := hrom
    have hfree := hvars x (List.mem_singleton_self x) _ hx
    simp only [Ast.depth, address] at hroom hfree
    simp only [Ast.eval, read, hx, Option.map_some, address, Option.some.injEq] at hval
    subst hval
    have hdec : decode (rom s.pc) = _ := hop ▸ Assembler.decode_lconst hw
    have hdec' : decode (rom (s.pc + 1)) = _ := hop' ▸ decode_lmem hw'
    have h₁ := runs_const (z := z) hdec hsp (by omega)
    set t : Arch := { s with pc := s.pc + 1, sp := BitVec.ofNat 32 (n + 1), mem := put s.mem n (BitVec.ofNat 32 addr) }
    have hp : Pushed n 1 1 (BitVec.ofNat 32 addr) s t := .one rfl rfl rfl rfl rfl rfl (by omega)
    have h₂ := runs_mem (z := z) (s := t) hdec' rfl (by omega)
    rw [hp.top, hp.frame _ hfree] at h₂
    exact ⟨_, h₁.trans h₂, hp.replace rfl rfl rfl rfl rfl rfl (by omega) Nat.one_pos⟩
  | @stack x addr op hx hw =>
    obtain ⟨hop, -⟩ := hrom
    rw [Ast.depth] at hroom
    have hdec : decode (rom s.pc) = _ := hop ▸ decode_lfpmem hw
    simp only [Ast.eval, read, hx, Option.map_some, Option.some.injEq] at hval
    subst hval
    have h₁ := runs_fpmem (z := z) hdec hsp (by omega)
    rw [fp_add_fpDelta] at h₁
    exact ⟨_, h₁, .one rfl rfl rfl rfl rfl rfl (by omega)⟩
  | @unary o e ws op he hw ih =>
    obtain ⟨hws, hop, -⟩ := holds_append.1 hrom
    have hpos := e.depth_pos
    rw [Ast.depth] at hroom hvars ⊢
    obtain ⟨a, ha, rfl⟩ : ∃ a, e.eval _ _ _ = some a ∧ unaryResult z o a = w := by simpa [Ast.eval] using hval
    obtain ⟨t, hrun, hp⟩ := ih hws hsp hroom hvars ha
    have hdec : decode (rom t.pc) = _ := hp.pc ▸ hop ▸ decode_unary hw
    have hstep := runs_unary (z := z) hdec hp.sp (by omega)
    rw [hp.top] at hstep
    rw [List.length_append]
    exact ⟨_, hrun.trans hstep, hp.replace rfl rfl rfl rfl rfl rfl (by omega) hpos⟩
  | @binary o l r ws ws' op hl hr hw ihl ihr =>
    obtain ⟨hws, hop, -⟩ := holds_append.1 hrom
    obtain ⟨hws, hws'⟩ := holds_append.1 hws
    have hpos := r.depth_pos
    rw [Ast.depth] at hroom hvars ⊢
    have hvl : ∀ x ∈ l.idents, ∀ d, decl x = some d → Outside n l.depth (address s d.1 d.2) := fun x hx d hd =>
      (hvars x (List.mem_append_left _ hx) d hd).mono le_rfl (by omega)
    have hvr : ∀ x ∈ r.idents, ∀ d, decl x = some d → Outside n (max l.depth (r.depth + 1)) (address s d.1 d.2) :=
      fun x hx d hd => hvars x (List.mem_append_right _ hx) d hd
    obtain ⟨a, ha, b, hb, rfl⟩ : ∃ a, l.eval _ _ _ = some a ∧ ∃ b, r.eval _ _ _ = some b ∧ binaryResult z o a b = w := by
      simpa [Ast.eval, Option.bind_eq_some_iff] using hval
    obtain ⟨t, hrun, hp⟩ := ihl hws hsp (by omega) hvl ha
    -- the right operand finds the variables as they were
    have hread : ∀ x ∈ r.idents, read decl t x = read decl s x := fun x hx =>
      hp.read_eq fun d hd => (hvr x hx d hd).mono le_rfl (by omega)
    have hvt : ∀ x ∈ r.idents, ∀ d, decl x = some d → Outside (n + 1) r.depth (address t d.1 d.2) := by
      intro x hx d hd
      rw [address_eq hp.fp]
      exact (hvr x hx d hd).mono (by omega) (by omega)
    obtain ⟨u, hrun', hp'⟩ := ihr (hp.pc ▸ hws') hp.sp (by omega) hvt (by rw [Ast.eval_congr hread]; exact hb)
    have hpc : u.pc = s.pc + BitVec.ofNat 32 (ws ++ ws').length := by
      rw [hp'.pc, hp.pc, BitVec.add_assoc, ← BitVec.ofNat_add, List.length_append]
    have hdec : decode (rom u.pc) = _ := hpc ▸ hop ▸ decode_binary hw
    have hstep := runs_binary (z := z) hdec hp'.sp (by omega)
    rw [hp'.top, hp'.word_below (Nat.lt_succ_self n) (by omega), hp.top] at hstep
    rw [List.length_append, List.length_append]
    exact ⟨_, (hrun.trans hrun').trans hstep, hp.operate hp' rfl rfl rfl rfl rfl rfl (by omega)⟩

end Run

end FpgaLearning.Compiler
