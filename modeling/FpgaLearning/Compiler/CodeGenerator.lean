/-
`CodeGenerator.cpp` and `LabelGenerator.h`: the program under construction, its labels and the places that wait for one.

- A reference is a word `lconst 0`, patched by `resolveRefs`; the prologue of a function leaves a word for the size of
  its frame, patched by `compileEpilogue`.
-/
import FpgaLearning.Compiler.Assembler
import FpgaLearning.Compiler.VariableAllocator

namespace FpgaLearning.Compiler

open FpgaLearning.Memory

/-! ## Labels -/

/-- the names `L0`, `L1`, ... -/
structure LabelGenerator where
  counter : ℕ
  stem : String
deriving DecidableEq, Repr

namespace LabelGenerator

def new : LabelGenerator := ⟨0, "L"⟩

def next (g : LabelGenerator) : Ident × LabelGenerator := (g.stem ++ toString g.counter, { g with counter := g.counter + 1 })

end LabelGenerator

/-! ## The program under construction -/

/-- `mLabels` with the newest label first, `mRefs` in the order of insertion, `mFpAdds` with its back first -/
structure CodeGenerator where
  program : List Opcode
  labels : List (Ident × ℕ)
  refs : List (Ident × List ℕ)
  fpAdds : List ℕ
deriving DecidableEq, Repr

namespace CodeGenerator

def new : CodeGenerator := ⟨[], [], [], []⟩

/-- `mProgram.push_back` -/
def push (w : Except String Opcode) (g : CodeGenerator) : Except String CodeGenerator := do
  let w ← w
  .ok { g with program := g.program ++ [w] }

def compileAdd : CodeGenerator → Except String CodeGenerator := push Assembler.add
def compileNegate : CodeGenerator → Except String CodeGenerator := push Assembler.negate
def compileSub : CodeGenerator → Except String CodeGenerator := push Assembler.sub
def compileMul : CodeGenerator → Except String CodeGenerator := push Assembler.mul
def compileDiv : CodeGenerator → Except String CodeGenerator := push Assembler.div
def compileRem : CodeGenerator → Except String CodeGenerator := push Assembler.rem
def compileAnd : CodeGenerator → Except String CodeGenerator := push Assembler.and_
def compileOr : CodeGenerator → Except String CodeGenerator := push Assembler.or_
def compileXor : CodeGenerator → Except String CodeGenerator := push Assembler.xor_
def compileNot : CodeGenerator → Except String CodeGenerator := push Assembler.not_
def compileShl : CodeGenerator → Except String CodeGenerator := push Assembler.shl
def compileShr : CodeGenerator → Except String CodeGenerator := push Assembler.shr
def compileEq : CodeGenerator → Except String CodeGenerator := push Assembler.equ
def compileNeq : CodeGenerator → Except String CodeGenerator := push Assembler.nequ
def compileLt : CodeGenerator → Except String CodeGenerator := push Assembler.lt
def compileLe : CodeGenerator → Except String CodeGenerator := push Assembler.le
def compileGt : CodeGenerator → Except String CodeGenerator := push Assembler.gt
def compileGe : CodeGenerator → Except String CodeGenerator := push Assembler.ge

def compileConst (val : Word) : CodeGenerator → Except String CodeGenerator := push (Assembler.lconst val)

def compileLoad (addr : ℕ) (g : CodeGenerator) : Except String CodeGenerator := do
  let g ← g.push (Assembler.lconst (BitVec.ofNat 32 addr))
  g.push Assembler.lmem

/-- `-static_cast<int32_t>(addr)` -/
def fpDelta (addr : ℕ) : ℤ := -(BitVec.ofNat 32 addr).toInt

def compileStackLoad (addr : ℕ) : CodeGenerator → Except String CodeGenerator := push (Assembler.lfpmem (fpDelta addr))

def compileSave (addr : ℕ) (g : CodeGenerator) : Except String CodeGenerator := do
  let g ← g.push (Assembler.lconst (BitVec.ofNat 32 addr))
  g.push Assembler.stmem

def compileStackSave (addr : ℕ) : CodeGenerator → Except String CodeGenerator := push (Assembler.stfpmem (fpDelta addr))

def compilePushPpc : CodeGenerator → Except String CodeGenerator := push Assembler.lppc
def compileCJmpz : CodeGenerator → Except String CodeGenerator := push Assembler.cjmpz
def compileAJmp : CodeGenerator → Except String CodeGenerator := push Assembler.ajmp
def compileLoadFp : CodeGenerator → Except String CodeGenerator := push Assembler.lfp

def compilePrologue (g : CodeGenerator) : Except String CodeGenerator := do
  let g ← g.compilePushPpc
  .ok { g with program := g.program ++ [0], fpAdds := g.program.length :: g.fpAdds }

/-- `mFpAdds` is not empty: the prologue came first -/
def compileEpilogue (frameSize : Word) (g : CodeGenerator) : Except String CodeGenerator := do
  let w ← Assembler.addfp frameSize.toInt
  let g := { g with program := g.program.set (g.fpAdds.headD 0) w, fpAdds := g.fpAdds.tail }
  let g ← g.push (Assembler.addfp (-frameSize.toInt))
  g.compileAJmp

def declareLabel (labelName : Ident) (g : CodeGenerator) : Except String CodeGenerator :=
  if (g.labels.lookup labelName).isSome then
    .error ("Compiler::CodeGenerator::declareLabel: label with name '" ++ labelName ++ "' already declared")
  else .ok { g with labels := (labelName, g.program.length) :: g.labels }

/-- `mRefs[labelName].push_back(pos)` -/
def addRef (labelName : Ident) (pos : ℕ) : List (Ident × List ℕ) → List (Ident × List ℕ)
  | [] => [(labelName, [pos])]
  | (l, poses) :: rest => if l = labelName then (l, poses ++ [pos]) :: rest else (l, poses) :: addRef labelName pos rest

def compileRef (labelName : Ident) (g : CodeGenerator) : Except String CodeGenerator :=
  push (Assembler.lconst 0) { g with refs := addRef labelName g.program.length g.refs }

/-- `mProgram[pos] = mAsm.lconst(addr)` -/
def patch (addr : ℕ) (g : CodeGenerator) (pos : ℕ) : Except String CodeGenerator := do
  let w ← Assembler.lconst (BitVec.ofNat 32 addr)
  .ok { g with program := g.program.set pos w }

/-- the body of the loop of `resolveRefs` -/
def resolve (g : CodeGenerator) (ref : Ident × List ℕ) : Except String CodeGenerator :=
  match g.labels.lookup ref.1 with
  | none => .error ("Compiler::CodeGenerator::resolveRefs: label with name '" ++ ref.1 ++ "' is not declared")
  | some addr => ref.2.foldlM (patch addr) g

def resolveRefs (H : HashOrder (Ident × List ℕ)) (g : CodeGenerator) : Except String CodeGenerator :=
  (H.walk g.refs).foldlM resolve g

/-- sorted by address, then by name -/
def getLabels (g : CodeGenerator) : List (Ident × ℕ) :=
  g.labels.mergeSort fun l r => if l.2 = r.2 then l.1 ≤ r.1 else l.2 < r.2

end CodeGenerator

end FpgaLearning.Compiler
