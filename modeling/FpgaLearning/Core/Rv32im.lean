/-
RV32IM programs.

The base instructions together with the eight multiply/divide instructions, and runs of a program: in every step the word
at pc, read from the same byte memory that loads and stores use, is the encoding of the instruction executed.
-/
import FpgaLearning.Core.Rv32i
import FpgaLearning.Core.Rv32m

namespace FpgaLearning.Rv32im

open FpgaLearning.Memory FpgaLearning.Rv32i

/-! ## Instructions -/

/-- OP with funct7 = 0000001 -/
inductive MulOp where
  | mul | mulh | mulhsu | mulhu | div | divu | rem | remu
deriving DecidableEq, Repr

def MulOp.funct3 : MulOp → BitVec 3
  | .mul => 0b000
  | .mulh => 0b001
  | .mulhsu => 0b010
  | .mulhu => 0b011
  | .div => 0b100
  | .divu => 0b101
  | .rem => 0b110
  | .remu => 0b111

def MulOp.eval : MulOp → Word → Word → Word
  | .mul => Rv32m.mul
  | .mulh => Rv32m.mulh
  | .mulhsu => Rv32m.mulhsu
  | .mulhu => Rv32m.mulhu
  | .div => Rv32m.div
  | .divu => Rv32m.divu
  | .rem => Rv32m.rem
  | .remu => Rv32m.remu

inductive Insn where
  | base (i : Rv32i.Insn)
  | mulDiv (o : MulOp) (rd rs1 rs2 : Reg)
deriving DecidableEq, Repr

namespace Insn

def encode : Insn → Word
  | .base i => i.encode
  | .mulDiv o rd rs1 rs2 => rType 0b0000001 rs2 rs1 o.funct3 rd 0b0110011

@[simp] theorem encode_base (i : Rv32i.Insn) : (base i).encode = i.encode := rfl

/-- the destination register and the value for it -/
def result (i : Insn) (s : State) : Option (Reg × Word) :=
  match i with
  | .base i => i.result s
  | .mulDiv o rd rs1 rs2 => some (rd, o.eval (s.regs rs1) (s.regs rs2))

def nextPc (i : Insn) (s : State) : Word :=
  match i with
  | .base i => i.nextPc s
  | .mulDiv .. => s.pc + 4

def memAfter (i : Insn) (s : State) : Word → Byte :=
  match i with
  | .base i => i.memAfter s
  | .mulDiv .. => s.mem

/-- a destination x0 drops the value -/
def writeResult (regs : Reg → Word) : Option (Reg × Word) → Reg → Word
  | some (rd, v) => if rd = 0 then regs else Function.update regs rd v
  | none => regs

theorem writeResult_x0 {regs : Reg → Word} (h : regs 0 = 0) (r : Option (Reg × Word)) : writeResult regs r 0 = 0 := by
  cases r with
  | none => exact h
  | some r =>
    simp only [writeResult]
    split_ifs with h0
    · exact h
    · rw [Function.update_of_ne (Ne.symm h0), h]

def step (i : Insn) (s : State) : State where
  pc := i.nextPc s
  regs := writeResult s.regs (i.result s)
  mem := i.memAfter s
  x0 := writeResult_x0 s.x0 _

end Insn

/-! ## Runs -/

/-- a run of the program in memory -/
structure Execution where
  state : ℕ → State
  insn : ℕ → Insn
  fetched : ∀ n, readWord (state n).mem (state n).pc = (insn n).encode
  stepped : ∀ n, state (n + 1) = (insn n).step (state n)

namespace Execution

/-- the register writes of the first `n` instructions, those to x0 included -/
def results (X : Execution) : ℕ → List (Reg × Word)
  | 0 => []
  | n + 1 => results X n ++ ((X.insn n).result (X.state n)).toList

/-- the run of a program whose instructions are known where the invariant `I` holds -/
def ofInvariant (I : State → Prop) (fetch : State → Insn) (s : State) (h0 : I s)
    (hfetch : ∀ s, I s → readWord s.mem s.pc = (fetch s).encode) (hstep : ∀ s, I s → I ((fetch s).step s)) :
    Execution where
  state n := (fun s => (fetch s).step s)^[n] s
  insn n := fetch ((fun s => (fetch s).step s)^[n] s)
  fetched n := hfetch _ (Function.Iterate.rec I h0 hstep n)
  stepped _ := Function.iterate_succ_apply' ..

theorem ofInvariant_inv {I : State → Prop} {fetch : State → Insn} {s : State} {h0 : I s}
    {hfetch : ∀ s, I s → readWord s.mem s.pc = (fetch s).encode} {hstep : ∀ s, I s → I ((fetch s).step s)} (n : ℕ) :
    I ((ofInvariant I fetch s h0 hfetch hstep).state n) := Function.Iterate.rec I h0 hstep n

end Execution

end FpgaLearning.Rv32im
