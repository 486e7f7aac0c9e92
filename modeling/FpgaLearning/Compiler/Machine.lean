/-
The stack processor, instruction by instruction, running words of the assembler.

- `machine` is the instruction set of `Stack.Isa` as a machine that shows what is written to address `1 << 30`.
- One rule for each kind of word that the compiler emits. They speak of the words of the RAM by number: `s.sp` is the
  number of words on the stack, and the word at the bottom has number 0.
-/
import FpgaLearning.Core.Traced
import FpgaLearning.Compiler.Assembler

namespace FpgaLearning.Stack

open FpgaLearning.Memory FpgaLearning.Traced

namespace Arch

/-- address and word of the memory write of an instruction -/
def memWrite (z : DivByZero) (i : Insn) (s : Arch) : Option (Word × Word) :=
  let (b, s) := s.loadB i
  let (a, s) := s.loadA i b
  (s.storeAddr i b).map fun addr => (addr, ALU.result z i.aluOp a b)

/-- the address of `print` -/
def outAddr : Word := 1#32 <<< 30

/-- what is written to `1 << 30` -/
def printed : Option (Word × Word) → List Word
  | some (addr, w) => if addr = outAddr then [w] else []
  | none => []

def machine (z : DivByZero) (rom : Word → Word) : Machine Arch Word where
  step := step z rom
  emit s := printed (memWrite z (decode (rom s.pc)) { s with pc := s.pc + 1 })

/-! ## The RAM by number -/

variable {s : Arch} {n m : ℕ} {w : Word}

/-- word `n` of the RAM -/
def word (s : Arch) (n : ℕ) : Word := s.mem (BitVec.ofNat 15 n)

def put (mem : RamWords) (n : ℕ) (w : Word) : RamWords := Function.update mem (BitVec.ofNat 15 n) w

theorem setWidth_ofNat (n : ℕ) : (BitVec.ofNat 32 n).setWidth 15 = BitVec.ofNat 15 n := by
  apply BitVec.eq_of_toNat_eq
  simp only [BitVec.toNat_setWidth, BitVec.toNat_ofNat]
  exact Nat.mod_mod_of_dvd _ (by decide)

theorem getLsbD_ofNat_30 (h : n < 2 ^ 30) : (BitVec.ofNat 32 n).getLsbD 30 = false := by
  rw [BitVec.getLsbD_ofNat, Nat.testBit_lt_two_pow h, Bool.and_false]

theorem load_ofNat (h : n < 2 ^ 15) : s.load (BitVec.ofNat 32 n) = s.word n := by
  rw [load, getLsbD_ofNat_30 (by omega), if_neg Bool.false_ne_true, setWidth_ofNat, word]

theorem store_ofNat (h : n < 2 ^ 15) : s.store (BitVec.ofNat 32 n) w = { s with mem := put s.mem n w } := by
  rw [store, getLsbD_ofNat_30 (by omega), if_neg Bool.false_ne_true, setWidth_ofNat, put]

theorem ofNat_ne_outAddr (h : n < 2 ^ 15) : BitVec.ofNat 32 n ≠ outAddr := by
  intro heq
  have hbit := getLsbD_ofNat_30 (n := n) (by omega)
  rw [heq] at hbit
  exact absurd hbit (by decide)

theorem ofNat_succ_sub (n : ℕ) : BitVec.ofNat 32 (n + 1) - 1 = BitVec.ofNat 32 n := by
  rw [BitVec.ofNat_add]
  exact BitVec.add_sub_cancel _ _

theorem ofNat_add_one (n : ℕ) : BitVec.ofNat 32 n + 1 = BitVec.ofNat 32 (n + 1) := by rw [BitVec.ofNat_add]; rfl

/-- the address is none of the `d` words of the RAM from `n` on -/
def Outside (n d : ℕ) (a : Word) : Prop := a.getLsbD 30 = true ∨ (a.setWidth 15).toNat < n ∨ n + d ≤ (a.setWidth 15).toNat

theorem Outside.mono {n d n' d' : ℕ} {a : Word} (h : Outside n d a) (hn : n ≤ n') (hd : n' + d' ≤ n + d) :
    Outside n' d' a := by
  rcases h with h | h | h
  · exact .inl h
  · exact .inr (.inl (h.trans_le hn))
  · exact .inr (.inr (hd.trans h))

theorem outside_ofNat {d : ℕ} (hm : m < 2 ^ 15) (h : m < n ∨ n + d ≤ m) : Outside n d (BitVec.ofNat 32 m) := by
  rw [Outside, setWidth_ofNat, BitVec.toNat_ofNat, Nat.mod_eq_of_lt hm]
  exact .inr h

theorem load_put {s' : Arch} (hmem : s'.mem = put s.mem n w) (hout : s'.out1 = s.out1) (hn : n < 2 ^ 15) {a : Word}
    (ha : Outside n 1 a) : s'.load a = s.load a := by
  rw [load, load, hout]
  split_ifs with hbit
  · rfl
  · have hne : a.setWidth 15 ≠ BitVec.ofNat 15 n := by
      intro heq
      have hnat : (a.setWidth 15).toNat = n := by rw [heq, BitVec.toNat_ofNat, Nat.mod_eq_of_lt hn]
      rcases ha with ha | ha | ha
      · exact hbit ha
      · omega
      · omega
    rw [hmem, put, Function.update_of_ne hne]

theorem word_put {s' : Arch} {mem : RamWords} (hmem : s'.mem = put mem n w) : s'.word n = w := by
  rw [word, hmem, put, Function.update_self]

/-! ## Rules -/

section Rules

variable {z : DivByZero} {rom : Word → Word} {i : Insn} {imm a b : Word} {alu : AluOp} {s' : Arch}

/-- both operands of an instruction, and the state after they are taken -/
def operands (i : Insn) (s : Arch) : Word × Word × Arch :=
  let (b, s) := s.loadB i
  let (a, s) := s.loadA i b
  (a, b, s)

theorem operands_eq {t : Arch} (hB : s.loadB i = (b, t)) (hA : t.loadA i b = (a, s')) : operands i s = (a, b, s') := by
  simp only [operands, hB, hA]

theorem exec_eq (z : DivByZero) (i : Insn) (s : Arch) : exec z i s = (operands i s).2.2.save i (operands i s).1
    (operands i s).2.1 (ALU.result z i.aluOp (operands i s).1 (operands i s).2.1) := rfl

theorem memWrite_eq (z : DivByZero) (i : Insn) (s : Arch) : memWrite z i s =
    ((operands i s).2.2.storeAddr i (operands i s).2.1).map
      fun addr => (addr, ALU.result z i.aluOp (operands i s).1 (operands i s).2.1) := rfl

/-- an instruction that pushes its result -/
theorem runs_push (hw : decode (rom s.pc) = i) (hdst : i.resDst = .stack)
    (hops : operands i { s with pc := s.pc + 1 } = (a, b, s')) (hsp : s'.sp = BitVec.ofNat 32 n) (hn : n < 2 ^ 15) :
    (machine z rom).Runs 1 s []
      { s' with sp := BitVec.ofNat 32 (n + 1), mem := put s'.mem n (ALU.result z i.aluOp a b) } := by
  refine .one ?_ ?_
  · simp only [machine, step, hw, exec_eq, hops, save, hdst, hsp, store_ofNat hn, ofNat_add_one]
  · simp only [machine, hw, memWrite_eq, hops, storeAddr, hdst, Option.map_some, printed, hsp,
      if_neg (ofNat_ne_outAddr hn)]

/-- an instruction that writes its result to `b` -/
theorem runs_store (hw : decode (rom s.pc) = i) (hdst : i.resDst = .mem)
    (hops : operands i { s with pc := s.pc + 1 } = (a, b, s')) :
    (machine z rom).Runs 1 s (printed (some (b, ALU.result z i.aluOp a b))) (s'.store b (ALU.result z i.aluOp a b)) := by
  refine .one ?_ ?_
  · simp only [machine, step, hw, exec_eq, hops, save, hdst]
  · simp only [machine, hw, memWrite_eq, hops, storeAddr, hdst, Option.map_some]

/-- a jump, or an instruction that sets fp -/
theorem runs_register (hw : decode (rom s.pc) = i) (hdst : ∀ s : Arch, s.storeAddr i b = none)
    (hops : operands i { s with pc := s.pc + 1 } = (a, b, s')) :
    (machine z rom).Runs 1 s [] (s'.save i a b (ALU.result z i.aluOp a b)) := by
  refine .one ?_ ?_
  · simp only [machine, step, hw, exec_eq, hops]
  · simp only [machine, hw, memWrite_eq, hops, hdst, Option.map_none, printed]

/-! ### Words that push -/

/-- `lconst` -/
theorem runs_const (hw : decode (rom s.pc) = ⟨w, .imm, .imm, .stack, .a⟩) (hsp : s.sp = BitVec.ofNat 32 n)
    (hn : n < 2 ^ 15) :
    (machine z rom).Runs 1 s [] { s with pc := s.pc + 1, sp := BitVec.ofNat 32 (n + 1), mem := put s.mem n w } :=
  runs_push hw rfl rfl hsp hn

/-- `lppc` -/
theorem runs_ppc (hw : decode (rom s.pc) = ⟨imm, .ppc, .imm, .stack, .a⟩) (hsp : s.sp = BitVec.ofNat 32 n)
    (hn : n < 2 ^ 15) :
    (machine z rom).Runs 1 s [] { s with pc := s.pc + 1, sp := BitVec.ofNat 32 (n + 1), mem := put s.mem n s.ppc } :=
  runs_push hw rfl rfl hsp hn

/-- `lfpmem` -/
theorem runs_fpmem (hw : decode (rom s.pc) = ⟨imm, .addr, .fpImm, .stack, .a⟩) (hsp : s.sp = BitVec.ofNat 32 n)
    (hn : n < 2 ^ 15) :
    (machine z rom).Runs 1 s []
      { s with pc := s.pc + 1, sp := BitVec.ofNat 32 (n + 1), mem := put s.mem n (s.load (s.fp + imm)) } :=
  runs_push hw rfl rfl hsp hn

/-- the operand on top of the stack -/
theorem pop_eq (hsp : s.sp = BitVec.ofNat 32 (n + 1)) (hn : n < 2 ^ 15) :
    (s.load (s.sp - 1), { s with sp := s.sp - 1 }) = (s.word n, ({ s with sp := BitVec.ofNat 32 n } : Arch)) := by
  rw [hsp, ofNat_succ_sub, load_ofNat hn]

theorem loadB_pop (hB : i.opBSrc = .stack) (hsp : s.sp = BitVec.ofNat 32 (n + 1)) (hn : n < 2 ^ 15) :
    s.loadB i = (s.word n, { s with sp := BitVec.ofNat 32 n }) := by
  rw [loadB, hB]
  exact pop_eq hsp hn

theorem loadA_pop (hA : i.opASrc = .stack) (hsp : s.sp = BitVec.ofNat 32 (n + 1)) (hn : n < 2 ^ 15) :
    s.loadA i b = (s.word n, { s with sp := BitVec.ofNat 32 n }) := by
  rw [loadA, hA]
  exact pop_eq hsp hn

/-- `lmem` -/
theorem runs_mem (hw : decode (rom s.pc) = ⟨imm, .addr, .stack, .stack, .a⟩) (hsp : s.sp = BitVec.ofNat 32 (n + 1))
    (hn : n < 2 ^ 15) :
    (machine z rom).Runs 1 s []
      { s with pc := s.pc + 1, sp := BitVec.ofNat 32 (n + 1), mem := put s.mem n (s.load (s.word n)) } :=
  runs_push hw rfl (operands_eq (loadB_pop rfl hsp hn) rfl) rfl hn

/-- `negate` and `not_` -/
theorem runs_unary (hw : decode (rom s.pc) = ⟨imm, .stack, .imm, .stack, alu⟩) (hsp : s.sp = BitVec.ofNat 32 (n + 1))
    (hn : n < 2 ^ 15) :
    (machine z rom).Runs 1 s []
      { s with
        pc := s.pc + 1, sp := BitVec.ofNat 32 (n + 1), mem := put s.mem n (ALU.result z alu (s.word n) imm) } :=
  runs_push hw rfl (operands_eq rfl (loadA_pop rfl hsp hn)) rfl hn

/-- the operations with two operands: the one pushed first is A -/
theorem runs_binary (hw : decode (rom s.pc) = ⟨imm, .stack, .stack, .stack, alu⟩)
    (hsp : s.sp = BitVec.ofNat 32 (n + 2)) (hn : n + 1 < 2 ^ 15) :
    (machine z rom).Runs 1 s []
      { s with
        pc := s.pc + 1, sp := BitVec.ofNat 32 (n + 1)
        mem := put s.mem n (ALU.result z alu (s.word n) (s.word (n + 1))) } :=
  runs_push hw rfl (operands_eq (loadB_pop rfl hsp hn) (loadA_pop rfl rfl (by omega))) rfl (by omega)

/-! ### Words that take from the stack -/

/-- `stmem` -/
theorem runs_stmem (hw : decode (rom s.pc) = ⟨imm, .stack, .stack, .mem, .a⟩) (hsp : s.sp = BitVec.ofNat 32 (n + 2))
    (hn : n + 1 < 2 ^ 15) :
    (machine z rom).Runs 1 s (printed (some (s.word (n + 1), s.word n)))
      (({ s with pc := s.pc + 1, sp := BitVec.ofNat 32 n } : Arch).store (s.word (n + 1)) (s.word n)) :=
  runs_store hw rfl (operands_eq (loadB_pop rfl hsp hn) (loadA_pop rfl rfl (by omega)))

/-- `stfpmem` -/
theorem runs_stfpmem (hw : decode (rom s.pc) = ⟨imm, .stack, .fpImm, .mem, .a⟩) (hsp : s.sp = BitVec.ofNat 32 (n + 1))
    (hn : n < 2 ^ 15) :
    (machine z rom).Runs 1 s (printed (some (s.fp + imm, s.word n)))
      (({ s with pc := s.pc + 1, sp := BitVec.ofNat 32 n } : Arch).store (s.fp + imm) (s.word n)) :=
  runs_store hw rfl (operands_eq rfl (loadA_pop rfl hsp hn))

/-- `ajmp` -/
theorem runs_ajmp (hw : decode (rom s.pc) = ⟨imm, .imm, .stack, .pc, .a⟩) (hsp : s.sp = BitVec.ofNat 32 (n + 1))
    (hn : n < 2 ^ 15) :
    (machine z rom).Runs 1 s [] { s with pc := s.word n, ppc := s.pc + 1, sp := BitVec.ofNat 32 n } :=
  runs_register hw (fun _ => rfl) (operands_eq (loadB_pop rfl hsp hn) rfl)

/-- `cjmpz` -/
theorem runs_cjmpz (hw : decode (rom s.pc) = ⟨imm, .stack, .stack, .pcZ, .a⟩) (hsp : s.sp = BitVec.ofNat 32 (n + 2))
    (hn : n + 1 < 2 ^ 15) :
    (machine z rom).Runs 1 s [] (jump (s.word n == 0) (s.word (n + 1)) { s with pc := s.pc + 1, sp := BitVec.ofNat 32 n }) :=
  runs_register hw (fun _ => rfl) (operands_eq (loadB_pop rfl hsp hn) (loadA_pop rfl rfl (by omega)))

/-- `lfp` -/
theorem runs_lfp (hw : decode (rom s.pc) = ⟨imm, .stack, .imm, .fp, .a⟩) (hsp : s.sp = BitVec.ofNat 32 (n + 1))
    (hn : n < 2 ^ 15) :
    (machine z rom).Runs 1 s [] { s with pc := s.pc + 1, sp := BitVec.ofNat 32 n, fp := s.word n } :=
  runs_register hw (fun _ => rfl) (operands_eq rfl (loadA_pop rfl hsp hn))

/-- `addfp` -/
theorem runs_addfp (hw : decode (rom s.pc) = ⟨imm, .fp, .imm, .fp, .add⟩) :
    (machine z rom).Runs 1 s [] { s with pc := s.pc + 1, fp := s.fp + imm } :=
  runs_register hw (fun _ => rfl) (operands_eq rfl rfl)

end Rules

end Arch

end FpgaLearning.Stack
