/-
Model of the assembler of the first processor (`Calc/assembly/assembly.py`), what its lines mean, and what the program in it
does.

A line works on a stack that is a list: `Line.exec` says what each name does, without its word. A program is a list of
lines, run from line 0; it is undefined outside the list and wherever the stack machine is.

- `assembles_iff`: a program is assembled when it has at most 256 lines and its constants have 31 bits;
- `assembled_runs`: the circuit with the words of an assembled program in its ROM runs the lines;
- `prog_counts`: on the circuit, whatever its RAM holds, the program shows 1, 2, ... 10 for ever.
-/
import FpgaLearning.Calc.StackMachine

namespace FpgaLearning.Calc

open FpgaLearning.Memory
open FpgaLearning.Stack (DivByZero)

/-! ## Operations -/

namespace Assembly

/-- `OpSrc` -/
def OpSrc.value : OperandSource → ℕ
  | .zero => 0b00 | .imm => 0b01 | .stack => 0b10 | .mem => 0b11

/-- `OpDst` -/
def OpDst.value : Destination → ℕ
  | .none => 0b00 | .stack => 0b01 | .mem => 0b10 | .pc => 0b11

/-- `OpAlu` -/
def OpAlu.value : AluOp → ℕ
  | .zero => 0b0000 | .negate => 0b0001 | .add => 0b0010 | .sub => 0b0011 | .mult => 0b0100 | .div => 0b0101
  | .rem => 0b0110 | .and => 0b0111 | .or => 0b1000 | .not => 0b1001 | .xor => 0b1010 | .a => 0b1011
  | .shl => 0b1100 | .shr => 0b1101 | .eq => 0b1110 | .le => 0b1111

structure Op where
  opASrc : OperandSource
  opBSrc : OperandSource
  aluOp : AluOp
  opDst : Destination
deriving DecidableEq, Repr

/-- `Op.__call__` -/
def Op.call (o : Op) : ℕ :=
  (0b1 <<< 31) ||| OpSrc.value o.opASrc ||| OpSrc.value o.opBSrc <<< 2 |||
    OpDst.value o.opDst <<< 4 ||| OpAlu.value o.aluOp <<< 6

/-- `Const.__call__` -/
def LCONST (val : ℤ) : Except String ℕ :=
  if val < 0 ∨ val > 2147483647 then .error "Val must be valid 31 bit value" else .ok val.toNat

def LZERO : Op := ⟨.zero, .zero, .zero, .stack⟩
def LMEM : Op := ⟨.mem, .stack, .a, .stack⟩
def STMEM : Op := ⟨.stack, .stack, .a, .mem⟩
def POP : Op := ⟨.zero, .stack, .zero, .none⟩
def ADD : Op := ⟨.stack, .stack, .add, .stack⟩
def SUB : Op := ⟨.stack, .stack, .sub, .stack⟩
def NEGATE : Op := ⟨.stack, .zero, .negate, .stack⟩
def MUL : Op := ⟨.stack, .stack, .mult, .stack⟩
def DIV : Op := ⟨.stack, .stack, .div, .stack⟩
def REM : Op := ⟨.stack, .stack, .rem, .stack⟩
def AND : Op := ⟨.stack, .stack, .and, .stack⟩
def OR : Op := ⟨.stack, .stack, .or, .stack⟩
def XOR : Op := ⟨.stack, .stack, .xor, .stack⟩
def NOT : Op := ⟨.stack, .zero, .not, .stack⟩
def SHL : Op := ⟨.stack, .stack, .shl, .stack⟩
def SHR : Op := ⟨.stack, .stack, .shr, .stack⟩
def EQU : Op := ⟨.stack, .stack, .eq, .stack⟩
def LE : Op := ⟨.stack, .stack, .le, .stack⟩
def CJMP : Op := ⟨.stack, .stack, .zero, .pc⟩

/-- **The assembler and the decoder agree** on every operation that can be built. -/
theorem Op.decode_call (o : Op) : decode (.ofNat 32 o.call) = ⟨0, o.opASrc, o.opBSrc, o.opDst, o.aluOp⟩ := by
  obtain ⟨a, b, alu, dst⟩ := o
  cases a <;> cases b <;> cases dst <;> cases alu <;> rfl

/-- a constant is pushed -/
theorem decode_LCONST {val : ℤ} {w : ℕ} (h : LCONST val = .ok w) :
    decode (.ofNat 32 w) = ⟨.ofNat 32 w, .imm, .zero, .stack, .a⟩ := by
  rw [LCONST] at h
  split at h
  · cases h
  · next hrange =>
    cases h
    have hbit : (BitVec.ofNat 32 val.toNat).getLsbD 31 = false := by
      rw [BitVec.getLsbD_ofNat, Nat.testBit_lt_two_pow (by omega), Bool.and_false]
    rw [decode, if_pos hbit]
    simp only [Insn.mk.injEq, and_true]
    refine BitVec.eq_of_toNat_eq ?_
    simp only [BitVec.toNat_setWidth, BitVec.extractLsb'_toNat, BitVec.toNat_ofNat, Nat.shiftRight_zero]
    omega

/-! ## Lines -/

/-- a line of the list: a constant or one of the operations -/
inductive Line where
  | const (val : ℤ)
  | LZERO | LMEM | STMEM | POP | ADD | SUB | NEGATE | MUL | DIV | REM | AND | OR | XOR | NOT | SHL | SHR | EQU | LE | CJMP
deriving DecidableEq, Repr

def Line.word : Line → Except String ℕ
  | .const val => Assembly.LCONST val
  | .LZERO => .ok Assembly.LZERO.call
  | .LMEM => .ok Assembly.LMEM.call
  | .STMEM => .ok Assembly.STMEM.call
  | .POP => .ok Assembly.POP.call
  | .ADD => .ok Assembly.ADD.call
  | .SUB => .ok Assembly.SUB.call
  | .NEGATE => .ok Assembly.NEGATE.call
  | .MUL => .ok Assembly.MUL.call
  | .DIV => .ok Assembly.DIV.call
  | .REM => .ok Assembly.REM.call
  | .AND => .ok Assembly.AND.call
  | .OR => .ok Assembly.OR.call
  | .XOR => .ok Assembly.XOR.call
  | .NOT => .ok Assembly.NOT.call
  | .SHL => .ok Assembly.SHL.call
  | .SHR => .ok Assembly.SHR.call
  | .EQU => .ok Assembly.EQU.call
  | .LE => .ok Assembly.LE.call
  | .CJMP => .ok Assembly.CJMP.call

/-- the words of a list, or its first error -/
def assemble (lines : List Line) : Except String (List ℕ) := do
  let ws ← lines.mapM Line.word
  if ws.length > 256 then .error "Generated program is too long" else return ws

/-- `output.mif` behind `romAddr[7:0]`: the words, then zeros -/
def outputMif (ws : List ℕ) (addr : Word) : Word := .ofNat 32 (ws[(addr.setWidth 8).toNat]?.getD 0)

end Assembly

/-! ## What a line does -/

namespace Machine

variable (base : ℕ)

def push (v : Word) (m : Machine) : Option Machine :=
  if m.stack.length < base then some { m with stack := v :: m.stack } else none

def pop (m : Machine) : Option (Word × Machine) :=
  match m.stack with
  | [] => none
  | x :: xs => some (x, { m with stack := xs })

/-- the second operand is on top -/
def binary (f : Word → Word → Word) (m : Machine) : Option Machine := do
  let (b, m) ← m.pop
  let (a, m) ← m.pop
  m.push base (f a b)

def unary (f : Word → Word) (m : Machine) : Option Machine := do
  let (a, m) ← m.pop
  m.push base (f a)

end Machine

namespace Assembly

def Line.exec (base : ℕ) (z : DivByZero) (l : Line) (m : Machine) : Option Machine :=
  match l with
  | .const val => m.push base (.ofInt 32 val)
  | .LZERO => m.push base 0
  | .LMEM => do
    let (addr, m) ← m.pop
    if Machine.Free base addr then m.push base (m.load addr) else none
  | .STMEM => do
    let (addr, m) ← m.pop
    let (val, m) ← m.pop
    if Machine.Free base addr then some (m.store addr val) else none
  | .POP => do
    let (_, m) ← m.pop
    return m
  | .ADD => m.binary base fun a b => a + b
  | .SUB => m.binary base fun a b => a - b
  | .NEGATE => m.unary base fun a => -a
  | .MUL => m.binary base fun a b => a * b
  | .DIV => m.binary base fun a b => if b = 0 then z.quot a else a / b
  | .REM => m.binary base fun a b => if b = 0 then z.rem a else a % b
  | .AND => m.binary base fun a b => a &&& b
  | .OR => m.binary base fun a b => a ||| b
  | .XOR => m.binary base fun a b => a ^^^ b
  | .NOT => m.unary base fun a => ~~~a
  | .SHL => m.binary base fun a b => a <<< b
  | .SHR => m.binary base fun a b => a >>> b
  | .EQU => m.binary base fun a b => if a = b then 1 else 0
  | .LE => m.binary base fun a b => if a < b then 1 else 0
  | .CJMP => do
    let (target, m) ← m.pop
    let (cond, m) ← m.pop
    return if cond.getLsbD 0 then { m with pc := target } else m

/-- the line at pc -/
def stepLines (base : ℕ) (z : DivByZero) (lines : List Line) (m : Machine) : Option Machine := do
  let l ← lines[(m.pc.setWidth 8).toNat]?
  l.exec base z { m with pc := m.pc + 1 }

/-- `n` lines -/
def runLines (base : ℕ) (z : DivByZero) (lines : List Line) : ℕ → Machine → Option Machine
  | 0, m => some m
  | n + 1, m => do runLines base z lines n (← stepLines base z lines m)

/-! ### Words -/

section

variable {base : ℕ} {z : DivByZero} {lines : List Line} {ws : List ℕ} {m m' : Machine}

/-- a word does what its line does -/
theorem Line.exec_decode {l : Line} {w : ℕ} (h : l.word = .ok w) :
    m.exec base z (decode (.ofNat 32 w)) = l.exec base z m := by
  cases l with
  | const val =>
    have hval : BitVec.ofInt 32 val = .ofNat 32 w := by
      simp only [Line.word, LCONST] at h
      split at h
      · cases h
      · next hrange =>
        cases h
        rw [← BitVec.ofInt_natCast, Int.toNat_of_nonneg (by omega)]
    rw [decode_LCONST h, Line.exec, hval]
    rfl
  | LMEM =>
    cases h
    rw [Op.decode_call]
    cases hst : m.stack with
    | nil => simp [Assembly.LMEM, Machine.exec, Machine.operand, Line.exec, Machine.pop, hst]
    | cons addr st =>
      by_cases hfree : Machine.Free base addr
      · simp [Assembly.LMEM, Machine.exec, Machine.operand, Machine.save, Line.exec, Machine.pop, Machine.push, ALU.result,
          hst, hfree]
      · simp [Assembly.LMEM, Machine.exec, Machine.operand, Line.exec, Machine.pop, hst, hfree]
  | _ =>
    cases h
    rw [Op.decode_call]
    rfl

theorem bind_eq_ok {α β : Type} {x : Except String α} {f : α → Except String β} {b : β} :
    x >>= f = .ok b ↔ ∃ a, x = .ok a ∧ f a = .ok b := by
  cases x <;> simp [bind, Except.bind]

theorem mapM_word (h : lines.mapM Line.word = .ok ws) : List.Forall₂ (fun l w => l.word = .ok w) lines ws := by
  induction lines generalizing ws with
  | nil =>
    cases h
    exact .nil
  | cons l lines ih =>
    rw [List.mapM_cons] at h
    obtain ⟨w, hw, h⟩ := bind_eq_ok.mp h
    obtain ⟨ws', hws, h⟩ := bind_eq_ok.mp h
    cases h
    exact .cons hw (ih hws)

theorem assemble_words (h : assemble lines = .ok ws) :
    List.Forall₂ (fun l w => l.word = .ok w) lines ws ∧ ws.length ≤ 256 := by
  obtain ⟨ws', hws, h⟩ := bind_eq_ok.mp h
  split at h
  · cases h
  · next hlen =>
    cases h
    exact ⟨mapM_word hws, not_lt.mp hlen⟩

/-- **What is assembled.** -/
theorem assembles_iff (lines : List Line) : (∃ ws, assemble lines = .ok ws) ↔
    lines.length ≤ 256 ∧ ∀ val, .const val ∈ lines → 0 ≤ val ∧ val ≤ 2147483647 := by
  constructor
  · rintro ⟨ws, h⟩
    obtain ⟨hwords, hlen⟩ := assemble_words h
    refine ⟨hwords.length_eq ▸ hlen, fun val hval => ?_⟩
    obtain ⟨i, hi, hget⟩ := List.getElem_of_mem hval
    have hword := (List.forall₂_iff_get.mp hwords).2 i hi (hwords.length_eq ▸ hi)
    rw [List.get_eq_getElem, hget, Line.word, LCONST] at hword
    split at hword
    · cases hword
    · omega
  · rintro ⟨hlen, hconst⟩
    obtain ⟨ws, hws⟩ : ∃ ws, lines.mapM Line.word = .ok ws := by
      clear hlen
      induction lines with
      | nil => exact ⟨[], rfl⟩
      | cons l lines ih =>
        obtain ⟨ws, hws⟩ := ih fun val hval => hconst val (.tail _ hval)
        obtain ⟨w, hw⟩ : ∃ w, l.word = .ok w := by
          cases l with
          | const val =>
            have hrange := hconst val (.head _)
            exact ⟨val.toNat, if_neg (by omega)⟩
          | _ => exact ⟨_, rfl⟩
        refine ⟨w :: ws, ?_⟩
        rw [List.mapM_cons, hw, hws]
        rfl
    refine ⟨ws, bind_eq_ok.mpr ⟨ws, hws, if_neg ?_⟩⟩
    rw [← (mapM_word hws).length_eq]
    omega

/-- the word of a line -/
theorem word_at (h : assemble lines = .ok ws) {i : ℕ} {l : Line} (hl : lines[i]? = some l) :
    ∃ w, ws[i]? = some w ∧ l.word = .ok w := by
  obtain ⟨hwords, -⟩ := assemble_words h
  obtain ⟨hi, rfl⟩ := List.getElem?_eq_some_iff.mp hl
  have hi' := hwords.length_eq ▸ hi
  exact ⟨ws[i], List.getElem?_eq_getElem hi', (List.forall₂_iff_get.mp hwords).2 i hi hi'⟩

/-- **A line.** A line that is defined is a step of the stack machine. -/
theorem step_of_stepLines (h : assemble lines = .ok ws) (hm : stepLines base z lines m = some m') :
    m.step base z (outputMif ws) = some m' := by
  obtain ⟨l, hl, hexec⟩ := Option.bind_eq_some_iff.mp hm
  obtain ⟨w, hat, hw⟩ := word_at h hl
  rw [Machine.step, outputMif, hat, Option.getD_some, Line.exec_decode hw]
  exact hexec

theorem run_of_runLines (h : assemble lines = .ok ws) {n : ℕ} (hm : runLines base z lines n m = some m') :
    m.run base z (outputMif ws) n = some m' := by
  induction n generalizing m with
  | zero => exact hm
  | succ n ih =>
    obtain ⟨m₁, hstep, hrun⟩ := Option.bind_eq_some_iff.mp hm
    rw [Machine.run, step_of_stepLines h hstep]
    exact ih hrun

/-- **An assembled program runs.** For every program that is assembled and every memory, as long as its lines are defined
the circuit is in their state every eight cycles. -/
theorem assembled_runs (h : assemble lines = .ok ws) (rdw : Word → Word → Word) (mem : RamWords) (romData ramQ : Word)
    (hbase : base ≤ 256) {n : ℕ} (hrun : runLines base z lines n (.init mem) = some m) :
    Represents base m (System.run z (outputMif ws) rdw mem romData ramQ (8 * n + 1)).arch := by
  rw [(run_at z (outputMif ws) rdw mem romData ramQ n 0 (by decide)).arch]
  exact (represents_init hbase mem).run (run_of_runLines h hrun)

/-- `out1 = 6 * 7` -/
def product : List Line := [.const 6, .const 7, .MUL, .const (1 <<< 30), .STMEM]

theorem assembled_runs_product : ∃ ws, assemble product = .ok ws ∧
    (System.run ⟨fun _ => 0, id⟩ (outputMif ws) (fun _ w => w) (fun _ => 7) 0 0 (8 * 5 + 1)).arch.out1 = 42 := by
  obtain ⟨ws, hws⟩ : ∃ ws, assemble product = .ok ws := ⟨_, rfl⟩
  have hrun : runLines 4 ⟨fun _ => 0, id⟩ product 5 (.init fun _ => 7) = some ⟨5, [], fun _ => 7, 42⟩ := rfl
  exact ⟨ws, hws, (assembled_runs hws _ _ _ _ (by decide) hrun).out1⟩

end

/-! ## The program -/

def A_ADDR : ℤ := 31

def progLines : List Line :=
  [.LZERO, .const A_ADDR, .STMEM,
    -- while (a < 10)
    .const A_ADDR, .LMEM, .const 10, .LE, .NOT, .const 23, .CJMP,
    -- a = a + 1; out1 = a
    .const A_ADDR, .LMEM, .const 1, .ADD, .const A_ADDR, .STMEM, .const A_ADDR, .LMEM, .const (1 <<< 30), .STMEM,
    .const 1, .const 3, .CJMP,
    -- afterloop
    .const 1, .const 0, .CJMP]

/-- `prog` -/
def prog : Except String (List ℕ) := assemble progLines

/-- `prog` is in the ROM -/
def HoldsProg (rom : Word → Word) : Prop := ∀ ws, prog = .ok ws → ∀ n w, ws[n]? = some w → rom (.ofNat 32 n) = .ofNat 32 w

theorem prog_assembled : ∃ ws, prog = .ok ws := ⟨_, rfl⟩

end Assembly

namespace Machine

variable {base : ℕ} {z : DivByZero} {rom : Word → Word} {m m₁ m₂ : Machine}

/-- `n` steps from `m` to `m₁`, the output register unchanged before the last of them -/
structure Quiet (base : ℕ) (z : DivByZero) (rom : Word → Word) (n : ℕ) (m m₁ : Machine) : Prop where
  reaches : m.run base z rom n = some m₁
  out1 : ∀ k < n, ∃ m', m.run base z rom k = some m' ∧ m'.out1 = m.out1

namespace Quiet

theorem trans {a b : ℕ} (h : Quiet base z rom a m m₁) (ho : m₁.out1 = m.out1) (h' : Quiet base z rom b m₁ m₂) :
    Quiet base z rom (a + b) m m₂ := by
  refine ⟨by rw [run_add, h.reaches, Option.bind_some, h'.reaches], fun k hk => ?_⟩
  by_cases hka : k < a
  · exact h.out1 k hka
  · obtain ⟨m', hrun, hout⟩ := h'.out1 (k - a) (by omega)
    refine ⟨m', ?_, hout.trans ho⟩
    rw [show k = a + (k - a) by omega, run_add, h.reaches, Option.bind_some, hrun]

theorem last (h : m.step base z rom = some m₁) : Quiet base z rom 1 m m₁ := by
  refine ⟨by rw [run, h, Option.bind_eq_bind, Option.bind_some, run], fun k hk => ⟨m, ?_, rfl⟩⟩
  rw [Nat.lt_one_iff.mp hk, run]

theorem step {n : ℕ} (h : m.step base z rom = some m₁) (ho : m₁.out1 = m.out1) (h' : Quiet base z rom n m₁ m₂) :
    Quiet base z rom (1 + n) m m₂ := (last h).trans ho h'

end Quiet

end Machine

open Assembly

section

variable {z : DivByZero} {rom : Word → Word} {base n : ℕ} {k : ℤ} {v a b : Word} {st : List Word} {vars : RamWords} {o : Word}

/-! ### Steps -/

/-- the machine before line `n` -/
def before (n : ℕ) (st : List Word) (vars : RamWords) (o : Word) : Machine := ⟨.ofNat 32 n, st, vars, o⟩

/-- line `n` is in the ROM -/
def HoldsLine (rom : Word → Word) (n : ℕ) (l : Line) : Prop := ∃ w, l.word = .ok w ∧ rom (.ofNat 32 n) = .ofNat 32 w

theorem prog_at (hrom : HoldsProg rom) (n : ℕ) (l : Line) (hl : progLines[n]? = some l) : HoldsLine rom n l := by
  obtain ⟨ws, hws⟩ := prog_assembled
  obtain ⟨w, hat, hw⟩ := word_at hws hl
  exact ⟨w, hw, hrom ws hws n w hat⟩

theorem step_line {l : Line} (h : HoldsLine rom n l) (st : List Word) (vars : RamWords) (o : Word) :
    (before n st vars o).step base z rom = l.exec base z (before (n + 1) st vars o) := by
  obtain ⟨w, hw, hat⟩ := h
  rw [Machine.step, show (before n st vars o).pc = .ofNat 32 n from rfl, hat, Line.exec_decode hw, before, before,
    BitVec.ofNat_add]
  rfl

theorem step_zero (h : HoldsLine rom n .LZERO) (hroom : st.length < base) :
    (before n st vars o).step base z rom = some (before (n + 1) (0 :: st) vars o) := by
  rw [step_line h]
  exact if_pos hroom

theorem step_const (v : Word) (h : HoldsLine rom n (.const k)) (hv : .ofInt 32 k = v) (hroom : st.length < base) :
    (before n st vars o).step base z rom = some (before (n + 1) (v :: st) vars o) := by
  subst hv
  rw [step_line h]
  exact if_pos hroom

theorem step_load (v : Word) (h : HoldsLine rom n .LMEM) (hfree : Machine.Free base b) (hroom : st.length < base)
    (hv : (before n [] vars o).load b = v) :
    (before n (b :: st) vars o).step base z rom = some (before (n + 1) (v :: st) vars o) := by
  subst hv
  rw [step_line h]
  exact (if_pos hfree).trans (if_pos hroom)

theorem step_store (h : HoldsLine rom n .STMEM) (hbit : b.getLsbD 30 = false) (hb : base ≤ (b.setWidth 8).toNat) :
    (before n (b :: a :: st) vars o).step base z rom =
      some (before (n + 1) st (Function.update vars (b.setWidth 8) a) o) := by
  have hfree : Machine.Free base b := .inr hb
  rw [step_line h]
  refine (if_pos hfree).trans ?_
  rw [Machine.store, hbit, if_neg Bool.false_ne_true]
  rfl

theorem step_out (h : HoldsLine rom n .STMEM) (hbit : b.getLsbD 30 = true) :
    (before n (b :: a :: st) vars o).step base z rom = some (before (n + 1) st vars a) := by
  have hfree : Machine.Free base b := .inl hbit
  rw [step_line h]
  refine (if_pos hfree).trans ?_
  rw [Machine.store, if_pos hbit]
  rfl

theorem step_binary {l : Line} (f : Word → Word → Word) (h : HoldsLine rom n l)
    (hf : l.exec base z = Machine.binary base f) (hroom : st.length < base) :
    (before n (b :: a :: st) vars o).step base z rom = some (before (n + 1) (f a b :: st) vars o) := by
  rw [step_line h, hf]
  exact if_pos hroom

theorem step_unary {l : Line} (f : Word → Word) (h : HoldsLine rom n l) (hf : l.exec base z = Machine.unary base f)
    (hroom : st.length < base) :
    (before n (a :: st) vars o).step base z rom = some (before (n + 1) (f a :: st) vars o) := by
  rw [step_line h, hf]
  exact if_pos hroom

/-- a jump on a condition -/
theorem step_jump {c : Prop} [Decidable c] (h : HoldsLine rom n .CJMP) (hc : a.getLsbD 0 = decide c) (target : ℕ) :
    (before n (.ofNat 32 target :: a :: st) vars o).step base z rom =
      some (before (if c then target else n + 1) st vars o) := by
  rw [step_line h]
  simp only [before, Line.exec, Machine.pop, Option.bind_eq_bind, Option.bind_some, hc, decide_eq_true_eq]
  split <;> rfl

/-! ### Blocks -/

/-- `a = 0` -/
theorem prologue (hrom : HoldsProg rom) :
    Machine.Quiet 31 z rom 3 (before 0 [] vars o) (before 3 [] (Function.update vars 31 0) o) :=
  .step (step_zero (prog_at hrom 0 _ rfl) (by decide)) rfl <|
  .step (step_const 31 (prog_at hrom 1 _ rfl) rfl (by simp)) rfl <|
  .last (step_store (prog_at hrom 2 _ rfl) (by decide) (by decide))

/-- `while (a < 10)` -/
theorem loop_test (hrom : HoldsProg rom) :
    Machine.Quiet 31 z rom 7 (before 3 [] vars o) (before (if vars 31 < 10 then 10 else 23) [] vars o) := by
  have hcond : (~~~(if vars 31 < 10 then 1 else 0 : Word)).getLsbD 0 = decide (¬vars 31 < 10) := by
    by_cases h : vars 31 < 10
    · simp only [h]
      decide
    · simp only [h]
      decide
  have hjump := @step_jump z rom 31 9 _ [] vars o _ _ (prog_at hrom 9 _ rfl) hcond 23
  rw [ite_not] at hjump
  exact .step (step_const 31 (prog_at hrom 3 _ rfl) rfl (by decide)) rfl <|
    .step (step_load (vars 31) (prog_at hrom 4 _ rfl) (by decide) (by decide) rfl) rfl <|
    .step (step_const 10 (prog_at hrom 5 _ rfl) rfl (by simp)) rfl <|
    .step (step_binary (fun a b => if a < b then 1 else 0) (prog_at hrom 6 _ rfl) rfl (by simp)) rfl <|
    .step (step_unary (fun a => ~~~a) (prog_at hrom 7 _ rfl) rfl (by simp)) rfl <|
    .step (step_const 23 (prog_at hrom 8 _ rfl) rfl (by simp)) rfl <|
    .last hjump

/-- `a = a + 1` -/
theorem increment (hrom : HoldsProg rom) : Machine.Quiet 31 z rom 6 (before 10 [] vars o)
    (before 16 [] (Function.update vars 31 (vars 31 + 1)) o) :=
  .step (step_const 31 (prog_at hrom 10 _ rfl) rfl (by decide)) rfl <|
  .step (step_load (vars 31) (prog_at hrom 11 _ rfl) (by decide) (by decide) rfl) rfl <|
  .step (step_const 1 (prog_at hrom 12 _ rfl) rfl (by simp)) rfl <|
  .step (step_binary (fun a b => a + b) (prog_at hrom 13 _ rfl) rfl (by simp)) rfl <|
  .step (step_const 31 (prog_at hrom 14 _ rfl) rfl (by simp)) rfl <|
  .last (step_store (prog_at hrom 15 _ rfl) (by decide) (by decide))

/-- `out1 = a` -/
theorem output (hrom : HoldsProg rom) : Machine.Quiet 31 z rom 4 (before 16 [] vars o) (before 20 [] vars (vars 31)) :=
  .step (step_const 31 (prog_at hrom 16 _ rfl) rfl (by simp)) rfl <|
  .step (step_load (vars 31) (prog_at hrom 17 _ rfl) (by decide) (by simp) rfl) rfl <|
  .step (step_const 0x40000000 (prog_at hrom 18 _ rfl) rfl (by simp)) rfl <|
  .last (step_out (prog_at hrom 19 _ rfl) (by decide))

/-- to the loop begin -/
theorem loop_end (hrom : HoldsProg rom) : Machine.Quiet 31 z rom 3 (before 20 [] vars o) (before 3 [] vars o) :=
  .step (step_const 1 (prog_at hrom 20 _ rfl) rfl (by decide)) rfl <|
  .step (step_const 3 (prog_at hrom 21 _ rfl) rfl (by simp)) rfl <|
  .last (step_jump (c := True) (prog_at hrom 22 _ rfl) (by decide) 3)

/-- `afterloop` -/
theorem afterloop (hrom : HoldsProg rom) : Machine.Quiet 31 z rom 3 (before 23 [] vars o) (before 0 [] vars o) :=
  .step (step_const 1 (prog_at hrom 23 _ rfl) rfl (by decide)) rfl <|
  .step (step_const 0 (prog_at hrom 24 _ rfl) rfl (by simp)) rfl <|
  .last (step_jump (c := True) (prog_at hrom 25 _ rfl) (by decide) 0)

/-! ### The program -/

/-- `a` is `i` -/
def counting (vars : RamWords) (i : ℕ) : RamWords := Function.update vars 31 (.ofNat 32 i)

/-- one round of the loop, up to its output -/
theorem count (hrom : HoldsProg rom) {i : ℕ} (hi : i < 10) : Machine.Quiet 31 z rom 17 (before 3 [] (counting vars i) o)
    (before 20 [] (counting vars (i + 1)) (.ofNat 32 (i + 1))) := by
  have ha : counting vars i 31 = .ofNat 32 i := Function.update_self _ _ _
  have hlt : counting vars i 31 < 10 := by
    rw [ha, BitVec.lt_def, BitVec.toNat_ofNat, Nat.mod_eq_of_lt (by omega)]
    exact hi
  have htest := @loop_test z rom (counting vars i) o hrom
  have hadd := @increment z rom (counting vars i) o hrom
  rw [if_pos hlt] at htest
  rw [ha, counting, Function.update_idem] at hadd
  rw [show BitVec.ofNat 32 i + 1 = .ofNat 32 (i + 1) from (BitVec.ofNat_add _ _).symm] at hadd
  have hout := @output z rom (counting vars (i + 1)) o hrom
  rw [show counting vars (i + 1) 31 = .ofNat 32 (i + 1) from Function.update_self _ _ _] at hout
  exact htest.trans rfl (hadd.trans rfl hout)

/-- `a` is 10 -/
theorem leave (hrom : HoldsProg rom) :
    Machine.Quiet 31 z rom 13 (before 20 [] (counting vars 10) o) (before 0 [] (counting vars 10) o) := by
  have htest := @loop_test z rom (counting vars 10) o hrom
  rw [if_neg (by rw [counting, Function.update_self]; decide)] at htest
  exact (loop_end hrom).trans rfl (htest.trans rfl (afterloop hrom))

/-- the state round `r` begins in -/
def atRound (mem : RamWords) (r : ℕ) : Machine :=
  if r = 0 then before 0 [] mem 0 else before 0 [] (counting mem 10) 10

/-- the first output of a round -/
theorem first (hrom : HoldsProg rom) (mem : RamWords) (r : ℕ) :
    Machine.Quiet 31 z rom 20 (atRound mem r) (before 20 [] (counting mem 1) 1) := by
  have hcount (vars : RamWords) (o : Word) (hvars : counting vars 0 = counting mem 0) :
      Machine.Quiet 31 z rom 20 (before 0 [] vars o) (before 20 [] (counting mem 1) 1) := by
    have hpro := @prologue z rom vars o hrom
    rw [show Function.update vars 31 0 = counting vars 0 from rfl, hvars] at hpro
    exact hpro.trans rfl (count hrom (by decide))
  rw [atRound]
  split
  · exact hcount _ _ rfl
  · exact hcount _ _ (Function.update_idem _ _ _)

/-- the state at output `i` of round `r` -/
theorem run_round (hrom : HoldsProg rom) (mem : RamWords) (r : ℕ) :
    (Machine.init mem).run 31 z rom (213 * r) = some (atRound mem r) ∧
      ∀ i, i < 10 → (Machine.init mem).run 31 z rom (213 * r + 20 * (i + 1)) =
        some (before 20 [] (counting mem (i + 1)) (.ofNat 32 (i + 1))) := by
  -- the outputs of a round follow from its start
  have houts (r : ℕ) (hr : (Machine.init mem).run 31 z rom (213 * r) = some (atRound mem r)) (i : ℕ) (hi : i < 10) :
      (Machine.init mem).run 31 z rom (213 * r + 20 * (i + 1)) =
        some (before 20 [] (counting mem (i + 1)) (.ofNat 32 (i + 1))) := by
    induction i with
    | zero =>
      rw [Nat.zero_add, Nat.mul_one, Machine.run_add, hr, Option.bind_some, (first hrom mem r).reaches]
      rfl
    | succ i ih =>
      rw [show 213 * r + 20 * (i + 1 + 1) = 213 * r + 20 * (i + 1) + 20 by ring, Machine.run_add, ih (by omega),
        Option.bind_some]
      exact ((loop_end hrom).trans rfl (count hrom hi)).reaches
  have hrounds : (Machine.init mem).run 31 z rom (213 * r) = some (atRound mem r) := by
    induction r with
    | zero =>
      rw [Nat.mul_zero, Machine.run, atRound, if_pos rfl]
      rfl
    | succ r ih =>
      rw [show 213 * (r + 1) = 213 * r + 20 * (9 + 1) + 13 by ring, Machine.run_add,
        houts r ih 9 (by decide), Option.bind_some]
      exact (leave hrom).reaches
  exact ⟨hrounds, houts r hrounds⟩

/-- what `out1` shows before instruction number `n` -/
def shown (n : ℕ) : ℕ := if n % 213 < 20 then (if n < 213 then 0 else 10) else n % 213 / 20

/-- the machine is defined for ever -/
theorem run_shows (hrom : HoldsProg rom) (mem : RamWords) (n : ℕ) :
    ∃ m, (Machine.init mem).run 31 z rom n = some m ∧ m.out1 = .ofNat 32 (shown n) := by
  obtain ⟨hstart, houts⟩ := run_round (z := z) hrom mem (n / 213)
  have hdiv := Nat.div_add_mod n 213
  have hmod := Nat.mod_lt n (show 213 > 0 by decide)
  rw [shown]
  split
  · next hfirst =>
    obtain ⟨m, hrun, hout⟩ := (first (z := z) hrom mem (n / 213)).out1 (n % 213) hfirst
    refine ⟨m, ?_, hout.trans ?_⟩
    · rw [show n = 213 * (n / 213) + n % 213 from hdiv.symm, Machine.run_add, hstart, Option.bind_some]
      exact hrun
    · rw [atRound]
      by_cases hr : n / 213 = 0
      · rw [if_pos hr, if_pos (by omega), before]
        rfl
      · rw [if_neg hr, if_neg (by omega), before]
        rfl
  · next hlater =>
    -- `i` outputs are behind
    obtain ⟨i, hi⟩ : ∃ i, n % 213 / 20 = i + 1 := ⟨n % 213 / 20 - 1, by omega⟩
    have hreach := houts i (by omega)
    rw [hi]
    by_cases hlast : i + 1 < 10
    · obtain ⟨m, hrun, hout⟩ := ((loop_end hrom).trans rfl (count (z := z) hrom hlast)).out1 (n % 213 % 20) (by omega)
      refine ⟨m, ?_, hout⟩
      rw [show n = 213 * (n / 213) + 20 * (i + 1) + n % 213 % 20 by omega, Machine.run_add, hreach,
        Option.bind_some]
      exact hrun
    · obtain ⟨m, hrun, hout⟩ := (@leave z rom mem (.ofNat 32 10) hrom).out1 (n % 213 - 200) (by omega)
      have hten : i + 1 = 10 := by omega
      rw [hten] at hreach ⊢
      refine ⟨m, ?_, hout⟩
      rw [show n = 213 * (n / 213) + 20 * 10 + (n % 213 - 200) by omega, Machine.run_add, hreach, Option.bind_some]
      exact hrun

/-- **The program counts.** On the circuit, whatever its RAM holds, the output register shows 1 to 10 again and again, every
number for twenty instructions and 10 for thirty-three of them. -/
theorem prog_counts (hrom : HoldsProg rom) (rdw : Word → Word → Word) (mem : RamWords) (romData ramQ : Word) (n : ℕ) :
    (System.run z rom rdw mem romData ramQ (8 * n + 1)).arch.out1 = .ofNat 32 (shown n) := by
  obtain ⟨m, hrun, hout⟩ := run_shows (z := z) hrom mem n
  rw [(run_at z rom rdw mem romData ramQ n 0 (by decide)).arch, ((represents_init (by decide) mem).run hrun).out1, hout]

theorem holdsProg_outputMif {ws : List ℕ} (hws : prog = .ok ws) : HoldsProg (outputMif ws) := by
  intro ws' hws' n w hw
  obtain rfl : ws = ws' := Except.ok.inj (hws.symm.trans hws')
  have hlen := (assemble_words hws).2
  have hn := (List.getElem?_eq_some_iff.mp hw).1
  have haddr : ((BitVec.ofNat 32 n).setWidth 8).toNat = n := by
    rw [(stack_addr (by omega)).2, BitVec.toNat_ofNat]
    exact Nat.mod_eq_of_lt (by omega)
  rw [outputMif, haddr, hw, Option.getD_some]

/-- the second time at 7 -/
theorem prog_counts_again : ∃ ws, prog = .ok ws ∧
    (System.run ⟨fun _ => 0, id⟩ (outputMif ws) (fun _ w => w) (fun _ => 7) 0 0 (8 * 359 + 1)).arch.out1 = 7 := by
  obtain ⟨ws, hws⟩ := prog_assembled
  exact ⟨ws, hws, prog_counts (holdsProg_outputMif hws) _ _ _ _ 359⟩

end

end FpgaLearning.Calc
