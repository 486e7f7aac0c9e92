/-
`Assembler.h`: the words of the stack processor as the compiler writes them.

- `op` packs an addressing mode, an ALU code and a signed immediate into a word; an immediate outside 22 bits throws.
- `decode_op` and `decode_lconst` say that the processor reads out of a word what was packed into it.
-/
import FpgaLearning.Stack.Isa

namespace FpgaLearning.Compiler

open FpgaLearning.Memory FpgaLearning.Stack

/-- `opcode_t` -/
abbrev Opcode := Word

/-! ## Fields -/

/-- operand A, operand B and destination -/
inductive OpSrc where
  | stackStackStack | stackImmStack | memImmStack | stackImmMem | memStackStack | stackStackMem | memFpImmStack
  | stackFpImmMem | fpImmStack | stackImmFp | fpImmFp | immStackPc | stackStackPcZ | stackStackPcNz | ppcImmStack
  | immImmNop
deriving DecidableEq, Repr

namespace OpSrc

def code : OpSrc → ℕ
  | stackStackStack => 0 | stackImmStack => 1 | memImmStack => 2 | stackImmMem => 3 | memStackStack => 4
  | stackStackMem => 5 | memFpImmStack => 6 | stackFpImmMem => 7 | fpImmStack => 8 | stackImmFp => 9 | fpImmFp => 10
  | immStackPc => 11 | stackStackPcZ => 12 | stackStackPcNz => 13 | ppcImmStack => 14 | immImmNop => 15

end OpSrc

inductive OpAlu where
  | zero | negate | add | sub | mul | div | rem | and | or | not | xor | a | b | shl | shr | eq | neq | lt | gt | le | ge
deriving DecidableEq, Repr

namespace OpAlu

def code : OpAlu → ℕ
  | zero => 0 | negate => 1 | add => 2 | sub => 3 | mul => 4 | div => 5 | rem => 6 | and => 7 | or => 8 | not => 9
  | xor => 10 | a => 11 | b => 12 | shl => 13 | shr => 14 | eq => 15 | neq => 16 | lt => 17 | gt => 18 | le => 19 | ge => 20

/-- the operation the processor performs for it -/
def aluOp (o : OpAlu) : AluOp := AluOp.ofBits (BitVec.ofNat 5 o.code)

end OpAlu

/-! ## Words -/

namespace Assembler

/-- the smallest and the largest immediate of an operation -/
def min22 : ℤ := -(2 ^ 21)

def max22 : ℤ := 2 ^ 21 - 1

/-- `Op::operator()` -/
def word (mode : OpSrc) (alu : OpAlu) (imm : Word) : Opcode :=
  1#32 <<< 31 ||| BitVec.ofNat 32 mode.code ||| BitVec.ofNat 32 alu.code <<< 4 ||| (imm &&& 0x3FFFFF#32) <<< 9

/-- `Op(mode, alu, imm)()` -/
def op (mode : OpSrc) (alu : OpAlu) (imm : ℤ) : Except String Opcode :=
  if imm > max22 ∨ imm < min22 then .error "Val must be valid signed 22 bit value"
  else .ok (word mode alu (BitVec.ofInt 32 imm))

/-- `Const()(v)` -/
def lconst (v : Word) : Except String Opcode :=
  if v.toNat > 2 ^ 31 - 1 then .error "Val must be valid unsigned 31 bit value" else .ok v

def nop : Except String Opcode := op .immImmNop .zero 0

def lppc : Except String Opcode := op .ppcImmStack .a 0

def lzero : Except String Opcode := lconst 0

def lmem : Except String Opcode := op .memStackStack .a 0

def lfpmem (addrdelta : ℤ) : Except String Opcode := op .memFpImmStack .a addrdelta

/-- `lmema` and `stmema` hand an unsigned address to a signed parameter -/
def lmema (addr : Word) : Except String Opcode := op .memImmStack .a addr.toInt

def stmem : Except String Opcode := op .stackStackMem .a 0

def stfpmem (addrdelta : ℤ) : Except String Opcode := op .stackFpImmMem .a addrdelta

def stmema (addr : Word) : Except String Opcode := op .stackImmMem .a addr.toInt

/-- pops B, pops A, pushes the result -/
def binary (alu : OpAlu) : Except String Opcode := op .stackStackStack alu 0

/-- pops A, pushes the result -/
def unary (alu : OpAlu) : Except String Opcode := op .stackImmStack alu 0

def add : Except String Opcode := binary .add
def inc : Except String Opcode := op .stackImmStack .add 1
def sub : Except String Opcode := binary .sub
def negate : Except String Opcode := unary .negate
def mul : Except String Opcode := binary .mul
def div : Except String Opcode := binary .div
def rem : Except String Opcode := binary .rem
def and_ : Except String Opcode := binary .and
def or_ : Except String Opcode := binary .or
def xor_ : Except String Opcode := binary .xor
def not_ : Except String Opcode := unary .not
def shl : Except String Opcode := binary .shl
def shr : Except String Opcode := binary .shr
def equ : Except String Opcode := binary .eq
def nequ : Except String Opcode := binary .neq
def lt : Except String Opcode := binary .lt
def gt : Except String Opcode := binary .gt
def le : Except String Opcode := binary .le
def ge : Except String Opcode := binary .ge

def ajmp : Except String Opcode := op .immStackPc .a 0

def cjmpz : Except String Opcode := op .stackStackPcZ .a 0

def cjmpnz : Except String Opcode := op .stackStackPcNz .a 0

def addfp (delta : ℤ) : Except String Opcode := op .fpImmFp .add delta

def lfp : Except String Opcode := op .stackImmFp .a 0

/-! ## What the processor reads -/

theorem getLsbD_word (mode : OpSrc) (alu : OpAlu) (imm : Word) (k : ℕ) : (word mode alu imm).getLsbD k =
    if k < 4 then (BitVec.ofNat 4 mode.code).getLsbD k
    else if k < 9 then (BitVec.ofNat 5 alu.code).getLsbD (k - 4)
    else if k < 31 then imm.getLsbD (k - 9)
    else decide (k = 31) := by
  have hmode : BitVec.ofNat 32 mode.code = (BitVec.ofNat 4 mode.code).setWidth 32 := by cases mode <;> rfl
  have halu : BitVec.ofNat 32 alu.code = (BitVec.ofNat 5 alu.code).setWidth 32 := by cases alu <;> rfl
  have hmask : 0x3FFFFF#32 = (BitVec.allOnes 22).setWidth 32 := rfl
  have hone : 1#32 = (BitVec.allOnes 1).setWidth 32 := rfl
  rw [word, hmode, halu, hmask, hone]
  simp only [BitVec.getLsbD_or, BitVec.getLsbD_and, BitVec.getLsbD_shiftLeft, BitVec.getLsbD_setWidth,
    BitVec.getLsbD_allOnes]
  have hlow : ∀ j, 4 ≤ j → (BitVec.ofNat 4 mode.code).getLsbD j = false := fun j hj => BitVec.getLsbD_of_ge _ _ hj
  have hmid : ∀ j, 5 ≤ j → (BitVec.ofNat 5 alu.code).getLsbD j = false := fun j hj => BitVec.getLsbD_of_ge _ _ hj
  grind

theorem extract_mode (mode : OpSrc) (alu : OpAlu) (imm : Word) :
    (word mode alu imm).extractLsb' 0 4 = BitVec.ofNat 4 mode.code := by
  apply BitVec.eq_of_getLsbD_eq
  intro k hk
  simp only [BitVec.getLsbD_extractLsb', getLsbD_word]
  grind

theorem extract_alu (mode : OpSrc) (alu : OpAlu) (imm : Word) :
    (word mode alu imm).extractLsb' 4 5 = BitVec.ofNat 5 alu.code := by
  apply BitVec.eq_of_getLsbD_eq
  intro k hk
  simp only [BitVec.getLsbD_extractLsb', getLsbD_word]
  grind

theorem extract_imm (mode : OpSrc) (alu : OpAlu) (imm : Word) :
    (word mode alu imm).extractLsb' 9 22 = imm.setWidth 22 := by
  apply BitVec.eq_of_getLsbD_eq
  intro k hk
  simp only [BitVec.getLsbD_extractLsb', getLsbD_word, BitVec.getLsbD_setWidth]
  grind

/-- 22 bits hold every immediate that `op` accepts -/
theorem signExtend_ofInt {imm : ℤ} (hmin : min22 ≤ imm) (hmax : imm ≤ max22) :
    ((BitVec.ofInt 32 imm).setWidth 22).signExtend 32 = BitVec.ofInt 32 imm := by
  unfold min22 at hmin
  unfold max22 at hmax
  have hnat : ((BitVec.ofInt 32 imm).toNat : ℤ) = imm % 2 ^ 32 := by
    rw [BitVec.toNat_ofInt, Int.toNat_of_nonneg (by omega)]
    norm_num
  have hmod : (imm % 2 ^ 32).bmod (2 ^ 22) = imm.bmod (2 ^ 22) := by
    rw [← Int.emod_bmod, Int.emod_emod_of_dvd _ (by norm_num), Int.emod_bmod]
  apply BitVec.eq_of_toInt_eq
  rw [BitVec.toInt_signExtend_of_le (by decide), BitVec.toInt_setWidth, hnat, hmod, BitVec.toInt_ofInt,
    Int.bmod_eq_of_le (by omega) (by omega), Int.bmod_eq_of_le (by omega) (by omega)]

/-- the instruction that `op` encodes -/
def insn (m : OpSrc) (alu : OpAlu) (imm : ℤ) : Insn :=
  let srcs := mode (BitVec.ofNat 4 m.code)
  ⟨BitVec.ofInt 32 imm, srcs.1, srcs.2.1, srcs.2.2, alu.aluOp⟩

/-- **Encoding.** The processor reads the fields that were packed. -/
theorem decode_op {m : OpSrc} {alu : OpAlu} {imm : ℤ} {w : Opcode} (h : op m alu imm = .ok w) :
    decode w = insn m alu imm := by
  unfold op at h
  split_ifs at h with hrange
  push Not at hrange
  obtain rfl : word m alu (BitVec.ofInt 32 imm) = w := by simpa using h
  have hbit : (word m alu (BitVec.ofInt 32 imm)).getLsbD 31 = true := by simp [getLsbD_word]
  simp only [decode, hbit, Bool.true_eq_false, if_false, extract_mode, extract_alu, extract_imm]
  rw [signExtend_ofInt hrange.2 hrange.1]
  rfl

/-- **Encoding.** A constant is pushed as it is. -/
theorem decode_lconst {v : Word} {w : Opcode} (h : lconst v = .ok w) : decode w = ⟨v, .imm, .imm, .stack, .a⟩ := by
  unfold lconst at h
  split_ifs at h with hv
  obtain rfl : v = w := by simpa using h
  have hbit : v.getLsbD 31 = false := by
    rw [BitVec.getLsbD, Nat.testBit_lt_two_pow (by omega)]
  have himm : (v.extractLsb' 0 31).setWidth 32 = v := by
    apply BitVec.eq_of_getLsbD_eq
    intro k hk
    simp only [BitVec.getLsbD_setWidth, BitVec.getLsbD_extractLsb']
    grind
  rw [decode, if_pos hbit, himm]

end Assembler

end FpgaLearning.Compiler
