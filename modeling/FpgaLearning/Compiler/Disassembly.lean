/-
The assembler, its disassembler and the decoder of the processor, table against table.

- `Constructor` lists the methods of `Assembler` that make a word.
- `OpSrc.named` and `OpAlu.named` are what the members of the two enumerations say by their names.
- `describe` is the text that the decoder of the processor gives for a word, `disasm` the one of the source.
- `faithful_iff`: all three agree on every word of every constructor but `ajmp`, which `disasm` shows with its operands
  exchanged.
-/
import FpgaLearning.Compiler.Assembler

namespace FpgaLearning.Compiler

open FpgaLearning.Memory FpgaLearning.Stack

/-! ## Names -/

/-- operand A, operand B and destination, as the member is called -/
def OpSrc.named : OpSrc → OperandSource × OperandSource × StoreDestination
  | .stackStackStack => (.stack, .stack, .stack)
  | .stackImmStack => (.stack, .imm, .stack)
  | .memImmStack => (.addr, .imm, .stack)
  | .stackImmMem => (.stack, .imm, .mem)
  | .memStackStack => (.addr, .stack, .stack)
  | .stackStackMem => (.stack, .stack, .mem)
  | .memFpImmStack => (.addr, .fpImm, .stack)
  | .stackFpImmMem => (.stack, .fpImm, .mem)
  | .fpImmStack => (.fp, .imm, .stack)
  | .stackImmFp => (.stack, .imm, .fp)
  | .fpImmFp => (.fp, .imm, .fp)
  | .immStackPc => (.imm, .stack, .pc)
  | .stackStackPcZ => (.stack, .stack, .pcZ)
  | .stackStackPcNz => (.stack, .stack, .pcNz)
  | .ppcImmStack => (.ppc, .imm, .stack)
  | .immImmNop => (.imm, .imm, .none)

def OpAlu.named : OpAlu → AluOp
  | .zero => .zero | .negate => .negate | .add => .add | .sub => .sub | .mul => .mult | .div => .div | .rem => .rem
  | .and => .and | .or => .or | .not => .not | .xor => .xor | .a => .a | .b => .b | .shl => .shl | .shr => .shr
  | .eq => .eq | .neq => .neq | .lt => .lt | .gt => .gt | .le => .le | .ge => .ge

/-- the decoder reads the modes as they are called -/
theorem OpSrc.mode_code (m : OpSrc) : mode (BitVec.ofNat 4 m.code) = m.named := by cases m <;> rfl

theorem OpAlu.aluOp_eq (o : OpAlu) : o.aluOp = o.named := by cases o <;> rfl

/-! ## Constructors -/

/-- the methods of `Assembler`, with their arguments -/
inductive Constructor where
  | nop | lconst (val : Word) | lppc | lzero | lmem | lfpmem (addrdelta : ℤ) | lmema (addr : Word)
  | stmem | stfpmem (addrdelta : ℤ) | stmema (addr : Word)
  | add | inc | sub | negate | mul | div | rem | and_ | or_ | xor_ | not_ | shl | shr
  | equ | nequ | lt | gt | le | ge
  | ajmp | cjmpz | cjmpnz | addfp (delta : ℤ) | lfp
deriving DecidableEq

namespace Constructor

/-- the word, or the exception -/
def assemble : Constructor → Except String Opcode
  | nop => Assembler.nop
  | lconst val => Assembler.lconst val
  | lppc => Assembler.lppc
  | lzero => Assembler.lzero
  | lmem => Assembler.lmem
  | lfpmem addrdelta => Assembler.lfpmem addrdelta
  | lmema addr => Assembler.lmema addr
  | stmem => Assembler.stmem
  | stfpmem addrdelta => Assembler.stfpmem addrdelta
  | stmema addr => Assembler.stmema addr
  | add => Assembler.add
  | inc => Assembler.inc
  | sub => Assembler.sub
  | negate => Assembler.negate
  | mul => Assembler.mul
  | div => Assembler.div
  | rem => Assembler.rem
  | and_ => Assembler.and_
  | or_ => Assembler.or_
  | xor_ => Assembler.xor_
  | not_ => Assembler.not_
  | shl => Assembler.shl
  | shr => Assembler.shr
  | equ => Assembler.equ
  | nequ => Assembler.nequ
  | lt => Assembler.lt
  | gt => Assembler.gt
  | le => Assembler.le
  | ge => Assembler.ge
  | ajmp => Assembler.ajmp
  | cjmpz => Assembler.cjmpz
  | cjmpnz => Assembler.cjmpnz
  | addfp delta => Assembler.addfp delta
  | lfp => Assembler.lfp

/-- what a constructor packs: a constant, or a mode, an operation and an immediate -/
inductive Fields where
  | const (val : Word)
  | op (mode : OpSrc) (alu : OpAlu) (imm : ℤ)

def fields : Constructor → Fields
  | nop => .op .immImmNop .zero 0
  | lconst val => .const val
  | lppc => .op .ppcImmStack .a 0
  | lzero => .const 0
  | lmem => .op .memStackStack .a 0
  | lfpmem addrdelta => .op .memFpImmStack .a addrdelta
  | lmema addr => .op .memImmStack .a addr.toInt
  | stmem => .op .stackStackMem .a 0
  | stfpmem addrdelta => .op .stackFpImmMem .a addrdelta
  | stmema addr => .op .stackImmMem .a addr.toInt
  | add => .op .stackStackStack .add 0
  | inc => .op .stackImmStack .add 1
  | sub => .op .stackStackStack .sub 0
  | negate => .op .stackImmStack .negate 0
  | mul => .op .stackStackStack .mul 0
  | div => .op .stackStackStack .div 0
  | rem => .op .stackStackStack .rem 0
  | and_ => .op .stackStackStack .and 0
  | or_ => .op .stackStackStack .or 0
  | xor_ => .op .stackStackStack .xor 0
  | not_ => .op .stackImmStack .not 0
  | shl => .op .stackStackStack .shl 0
  | shr => .op .stackStackStack .shr 0
  | equ => .op .stackStackStack .eq 0
  | nequ => .op .stackStackStack .neq 0
  | lt => .op .stackStackStack .lt 0
  | gt => .op .stackStackStack .gt 0
  | le => .op .stackStackStack .le 0
  | ge => .op .stackStackStack .ge 0
  | ajmp => .op .immStackPc .a 0
  | cjmpz => .op .stackStackPcZ .a 0
  | cjmpnz => .op .stackStackPcNz .a 0
  | addfp delta => .op .fpImmFp .add delta
  | lfp => .op .stackImmFp .a 0

theorem assemble_eq (c : Constructor) : c.assemble = match c.fields with
    | .const val => Assembler.lconst val
    | .op mode alu imm => Assembler.op mode alu imm := by
  cases c <;> rfl

end Constructor

/-- the instruction that the fields name -/
def Constructor.Fields.named : Fields → Insn
  | .const val => ⟨val, .imm, .imm, .stack, .a⟩
  | .op mode alu imm => ⟨BitVec.ofInt 32 imm, mode.named.1, mode.named.2.1, mode.named.2.2, alu.named⟩

/-- the immediates that fit -/
def Constructor.Fields.Fits : Fields → Prop
  | .const val => val.toNat < 2 ^ 31
  | .op _ _ imm => -(2 ^ 21) ≤ imm ∧ imm < 2 ^ 21

/-! ## Disassembly -/

/-- `addrModeName` -/
def addrModeName : ℕ → Option String
  | 0 => some "stack, stack -> stack"
  | 1 => some "stack, imm -> stack"
  | 2 => some "[B], imm -> stack"
  | 3 => some "stack, imm -> [B]"
  | 4 => some "[B], stack -> stack"
  | 5 => some "stack, stack -> [B]"
  | 6 => some "[B], fp + imm -> stack"
  | 7 => some "stack, fp + imm -> [B]"
  | 8 => some "fp, imm -> stack"
  | 9 => some "stack, imm -> fp"
  | 10 => some "fp, imm -> fp"
  | 11 => some "stack, imm -> pc"
  | 12 => some "stack, stack -> a == 0 ? pc : nop"
  | 13 => some "stack, stack -> a != 0 ? pc : nop"
  | 14 => some "ppc, imm -> stack"
  | 15 => some "imm, imm -> nop"
  | _ => none

/-- `aluName` -/
def aluName : ℕ → Option String
  | 0 => some "ZERO" | 1 => some "NEG" | 2 => some "ADD" | 3 => some "SUB" | 4 => some "MUL" | 5 => some "DIV"
  | 6 => some "REM" | 7 => some "AND" | 8 => some "OR" | 9 => some "NOT" | 10 => some "XOR" | 11 => some "A"
  | 12 => some "B" | 13 => some "SHL" | 14 => some "SHR" | 15 => some "EQ" | 16 => some "NEQ" | 17 => some "LT"
  | 18 => some "GT" | 19 => some "LE" | 20 => some "GE"
  | _ => none

/-- `unordered_map::at` -/
def at_ (name : Option String) : Except String String :=
  match name with
  | some text => .ok text
  | none => .error "invalid unordered_map<K, T> key"

/-- the text of an operation -/
def opText (alu addrMode : ℕ) (imm : ℤ) : Except String String := do
  let op ← at_ (aluName alu)
  let mode ← at_ (addrModeName addrMode)
  .ok (op ++ " : " ++ mode ++ " imm=" ++ toString imm)

def Assembler.disasm (op : Word) : Except String String :=
  let addrMode := op &&& 0b1111#32
  let alu := (op >>> 4) &&& 0b11111#32
  let imm := (op >>> 9) &&& 0x3FFFFF#32
  let imm := (imm <<< 10).sshiftRight 10
  let isConst := (op &&& 0x80000000#32) == 0
  if isConst then .ok (toString op.toNat) else opText alu.toNat addrMode.toNat imm.toInt

/-! ### Its fields are those of the decoder -/

theorem and_mode (w : Word) : w &&& 0b1111#32 = (w.extractLsb' 0 4).setWidth 32 := by
  have hmask : 0b1111#32 = (BitVec.allOnes 4).setWidth 32 := rfl
  apply BitVec.eq_of_getLsbD_eq
  intro k hk
  rw [hmask, BitVec.getLsbD_and, BitVec.getLsbD_setWidth, BitVec.getLsbD_allOnes, BitVec.getLsbD_setWidth,
    BitVec.getLsbD_extractLsb', Nat.zero_add]
  grind

theorem and_alu (w : Word) : (w >>> 4) &&& 0b11111#32 = (w.extractLsb' 4 5).setWidth 32 := by
  have hmask : 0b11111#32 = (BitVec.allOnes 5).setWidth 32 := rfl
  apply BitVec.eq_of_getLsbD_eq
  intro k hk
  rw [hmask, BitVec.getLsbD_and, BitVec.getLsbD_setWidth, BitVec.getLsbD_allOnes, BitVec.getLsbD_setWidth,
    BitVec.getLsbD_extractLsb', BitVec.getLsbD_ushiftRight]
  grind

/-- shifting up and down again extends the sign -/
theorem sshiftRight_imm (w : Word) :
    (((w >>> 9) &&& 0x3FFFFF#32) <<< 10).sshiftRight 10 = (w.extractLsb' 9 22).signExtend 32 := by
  have hmask : 0x3FFFFF#32 = (BitVec.allOnes 22).setWidth 32 := rfl
  apply BitVec.eq_of_getLsbD_eq
  intro k hk
  rw [hmask]
  simp only [BitVec.getLsbD_sshiftRight, BitVec.getLsbD_signExtend, BitVec.getLsbD_extractLsb', BitVec.msb_eq_getLsbD_last,
    BitVec.getLsbD_shiftLeft, BitVec.getLsbD_and, BitVec.getLsbD_setWidth, BitVec.getLsbD_allOnes,
    BitVec.getLsbD_ushiftRight]
  grind

theorem and_const (w : Word) : ((w &&& 0x80000000#32) == 0) = !w.getLsbD 31 := by
  have hmask : 0x80000000#32 = BitVec.twoPow 32 31 := rfl
  rw [hmask, BitVec.and_twoPow]
  cases w.getLsbD 31 <;> rfl

/-- **Fields.** The fields `disasm` takes out of any word are those of the decoder. -/
theorem Assembler.disasm_eq (w : Word) : disasm w = if w.getLsbD 31 = false then .ok (toString w.toNat) else
    opText (w.extractLsb' 4 5).toNat (w.extractLsb' 0 4).toNat ((w.extractLsb' 9 22).signExtend 32).toInt := by
  have hmode : ((w.extractLsb' 0 4).setWidth 32).toNat = (w.extractLsb' 0 4).toNat :=
    BitVec.toNat_setWidth_of_le (by decide)
  have halu : ((w.extractLsb' 4 5).setWidth 32).toNat = (w.extractLsb' 4 5).toNat :=
    BitVec.toNat_setWidth_of_le (by decide)
  rw [disasm, and_mode, and_alu, sshiftRight_imm, and_const, hmode, halu]
  cases w.getLsbD 31 <;> rfl

/-! ## What the processor reads -/

def operandText : OperandSource → String
  | .imm => "imm" | .stack => "stack" | .stackImm => "stack + imm" | .fp => "fp" | .fpImm => "fp + imm" | .ppc => "ppc"
  | .addr => "[B]" | .addrImm => "[B + imm]"

def destinationText : StoreDestination → String
  | .none => "nop" | .stack => "stack" | .mem => "[B]" | .fp => "fp" | .pc => "pc" | .pcZ => "a == 0 ? pc : nop"
  | .pcNz => "a != 0 ? pc : nop"

def aluText : AluOp → String
  | .zero => "ZERO" | .negate => "NEG" | .add => "ADD" | .sub => "SUB" | .mult => "MUL" | .div => "DIV" | .rem => "REM"
  | .and => "AND" | .or => "OR" | .not => "NOT" | .xor => "XOR" | .a => "A" | .b => "B" | .shl => "SHL" | .shr => "SHR"
  | .eq => "EQ" | .neq => "NEQ" | .lt => "LT" | .gt => "GT" | .le => "LE" | .ge => "GE" | .reserved => "RESERVED"

def modeText (m : OperandSource × OperandSource × StoreDestination) : String :=
  operandText m.1 ++ ", " ++ operandText m.2.1 ++ " -> " ++ destinationText m.2.2

/-- a word in the notation of `disasm`, as the decoder of the processor reads it -/
def describe (w : Word) : String :=
  let i := decode w
  if w.getLsbD 31 = false then toString i.imm.toNat
  else aluText i.aluOp ++ " : " ++ modeText (i.opASrc, i.opBSrc, i.resDst) ++ " imm=" ++ toString i.imm.toInt

theorem aluName_code (o : OpAlu) : aluName o.code = some (aluText o.named) := by cases o <;> rfl

/-- one entry of the table of `disasm` is wrong -/
theorem addrModeName_code_iff (m : OpSrc) : addrModeName m.code = some (modeText m.named) ↔ m ≠ .immStackPc := by
  cases m <;> decide

/-! ## Agreement -/

/-- what is asked of a constructor -/
structure Constructor.Faithful (c : Constructor) : Prop where
  /-- the processor reads what the constructor names -/
  decodes : ∀ w, c.assemble = .ok w → decode w = c.fields.named
  /-- an immediate that does not fit is refused, and no other -/
  accepts : (∃ w, c.assemble = .ok w) ↔ c.fields.Fits
  /-- `disasm` shows what the processor reads -/
  text : ∀ w, c.assemble = .ok w → Assembler.disasm w = .ok (describe w)

namespace Constructor

variable {c : Constructor} {m : OpSrc} {alu : OpAlu} {imm : ℤ} {val w : Word}

theorem decode_of_assemble (h : c.assemble = .ok w) : decode w = c.fields.named := by
  rw [assemble_eq] at h
  cases hf : c.fields with
  | const val =>
    rw [hf] at h
    exact Assembler.decode_lconst h
  | op m alu imm =>
    rw [hf] at h
    rw [Assembler.decode_op h, Assembler.insn, OpSrc.mode_code, OpAlu.aluOp_eq]
    rfl

theorem op_iff : (∃ w, Assembler.op m alu imm = .ok w) ↔ -(2 ^ 21) ≤ imm ∧ imm < 2 ^ 21 := by
  by_cases h : imm > 2 ^ 21 - 1 ∨ imm < -(2 ^ 21)
  · have herr : Assembler.op m alu imm = .error _ := if_pos h
    rw [herr]
    exact ⟨fun ⟨_, hw⟩ => (nomatch hw), fun hv => by omega⟩
  · have hok : Assembler.op m alu imm = .ok _ := if_neg h
    exact ⟨fun _ => by omega, fun _ => ⟨_, hok⟩⟩

theorem lconst_iff : (∃ w, Assembler.lconst val = .ok w) ↔ val.toNat < 2 ^ 31 := by
  by_cases h : val.toNat > 2 ^ 31 - 1
  · have herr : Assembler.lconst val = .error _ := if_pos h
    rw [herr]
    exact ⟨fun ⟨_, hw⟩ => (nomatch hw), fun hv => by omega⟩
  · have hok : Assembler.lconst val = .ok _ := if_neg h
    exact ⟨fun _ => by omega, fun _ => ⟨_, hok⟩⟩

theorem assemble_iff (c : Constructor) : (∃ w, c.assemble = .ok w) ↔ c.fields.Fits := by
  rw [assemble_eq]
  cases c.fields with
  | const val => exact lconst_iff
  | op m alu imm => exact op_iff

/-- a constant is shown as it is -/
theorem disasm_const (h : Assembler.lconst val = .ok w) : Assembler.disasm w = .ok (describe w) := by
  have hlt := lconst_iff.1 ⟨w, h⟩
  have hdec := Assembler.decode_lconst h
  obtain rfl : val = w := by
    rw [Assembler.lconst, if_neg (by omega)] at h
    exact Except.ok.inj h
  have hbit : val.getLsbD 31 = false := by rw [BitVec.getLsbD, Nat.testBit_lt_two_pow hlt]
  rw [Assembler.disasm_eq, if_pos hbit, describe, if_pos hbit, hdec]

/-- an operation is shown with the name its mode has in the table -/
theorem disasm_op (h : Assembler.op m alu imm = .ok w) :
    Assembler.disasm w = .ok (describe w) ↔ addrModeName m.code = some (modeText m.named) := by
  have hdec := Assembler.decode_op h
  obtain ⟨hmin, hmax⟩ := op_iff.1 ⟨w, h⟩
  obtain rfl : Assembler.word m alu (BitVec.ofInt 32 imm) = w := by
    rw [Assembler.op, if_neg (by simp only [Assembler.min22, Assembler.max22]; omega)] at h
    exact Except.ok.inj h
  have hbit : (Assembler.word m alu (BitVec.ofInt 32 imm)).getLsbD 31 = true := by simp [Assembler.getLsbD_word]
  have hm : (BitVec.ofNat 4 m.code).toNat = m.code := by cases m <;> rfl
  have ha : (BitVec.ofNat 5 alu.code).toNat = alu.code := by cases alu <;> rfl
  have hi : ((BitVec.ofInt 32 imm).setWidth 22).signExtend 32 = BitVec.ofInt 32 imm :=
    Assembler.signExtend_ofInt hmin (by simp only [Assembler.max22]; omega)
  rw [Assembler.disasm_eq, hbit, Assembler.extract_mode, Assembler.extract_alu, Assembler.extract_imm, hi, hm, ha,
    describe, hdec, hbit, opText, aluName_code]
  simp only [Assembler.insn, OpSrc.mode_code, OpAlu.aluOp_eq]
  cases addrModeName m.code with
  | none => simp [at_, bind, Except.bind]
  | some text => simp [at_, bind, Except.bind]

/-- the mode whose entry is wrong is that of `ajmp` alone -/
theorem fields_ajmp_iff (c : Constructor) : (∃ alu imm, c.fields = .op .immStackPc alu imm) ↔ c = .ajmp := by
  constructor
  · rintro ⟨alu, imm, h⟩
    cases c <;> first | rfl | cases h
  · rintro rfl
    exact ⟨.a, 0, rfl⟩

/-- **Three tables.** Assembler, decoder and disassembler agree on every constructor but `ajmp`. -/
theorem faithful_iff (c : Constructor) : c.Faithful ↔ c ≠ .ajmp := by
  constructor
  · rintro h rfl
    obtain ⟨w, hw⟩ := (assemble_iff .ajmp).2 ⟨by norm_num, by norm_num⟩
    have hop : Assembler.op .immStackPc .a 0 = .ok w := hw
    exact (addrModeName_code_iff .immStackPc).1 ((disasm_op hop).1 (h.text w hw)) rfl
  · intro hc
    refine ⟨fun w => decode_of_assemble, assemble_iff c, fun w hw => ?_⟩
    rw [assemble_eq] at hw
    cases hf : c.fields with
    | const val =>
      rw [hf] at hw
      exact disasm_const hw
    | op m alu imm =>
      rw [hf] at hw
      refine (disasm_op hw).2 ((addrModeName_code_iff m).2 ?_)
      rintro rfl
      exact hc ((fields_ajmp_iff c).1 ⟨alu, imm, hf⟩)

/-- `disasm` shows the jump as if it took A from the stack and B from the immediate -/
theorem ajmp_text : ¬ ∀ c : Constructor, c.Faithful := by
  intro h
  have htext : Assembler.disasm 0x800000bb#32 = .ok "A : stack, imm -> pc imm=0" := by decide
  have hread : describe 0x800000bb#32 = "A : imm, stack -> pc imm=0" := by decide
  have hshown := (h .ajmp).text 0x800000bb#32 rfl
  rw [htext, hread] at hshown
  exact absurd hshown (by decide)

end Constructor

end FpgaLearning.Compiler
