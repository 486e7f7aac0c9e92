/-
The RV32M operations on register values. The division rules are those of the instruction set: division by zero answers all
ones and the dividend, the overflow pair answers the dividend and zero, and nothing traps.
-/
import FpgaLearning.Core.Memory

namespace FpgaLearning.Rv32m

open FpgaLearning.Memory

/-! ## Multiplication -/

def mul (a b : Word) : Word := BitVec.ofInt 32 (a.toInt * b.toInt)

def mulh (a b : Word) : Word := BitVec.ofInt 32 (a.toInt * b.toInt / 2 ^ 32)

def mulhsu (a b : Word) : Word := BitVec.ofInt 32 (a.toInt * b.toNat / 2 ^ 32)

def mulhu (a b : Word) : Word := BitVec.ofNat 32 (a.toNat * b.toNat / 2 ^ 32)

/-! ## Division -/

/-- rounded toward zero -/
def div (a b : Word) : Word :=
  if b = 0 then BitVec.allOnes 32
  else if a = BitVec.intMin 32 ∧ b = -1 then BitVec.intMin 32
  else BitVec.ofInt 32 (a.toInt.tdiv b.toInt)

def divu (a b : Word) : Word := if b = 0 then BitVec.allOnes 32 else BitVec.ofNat 32 (a.toNat / b.toNat)

/-- with the sign of the dividend -/
def rem (a b : Word) : Word :=
  if b = 0 then a
  else if a = BitVec.intMin 32 ∧ b = -1 then 0
  else BitVec.ofInt 32 (a.toInt.tmod b.toInt)

def remu (a b : Word) : Word := if b = 0 then a else BitVec.ofNat 32 (a.toNat % b.toNat)

/-! ## The signed operations on bit vectors -/

theorem div_eq_sdiv {a b : Word} (hb : b ≠ 0) : div a b = a.sdiv b := by
  have h : a.sdiv b = BitVec.ofInt 32 (a.toInt.tdiv b.toInt) := by
    apply BitVec.eq_of_toInt_eq
    rw [BitVec.toInt_sdiv, BitVec.toInt_ofInt]
  unfold div
  rw [if_neg hb]
  split_ifs with hov
  · obtain ⟨rfl, rfl⟩ := hov
    decide
  · exact h.symm

theorem rem_eq_srem {a b : Word} (hb : b ≠ 0) : rem a b = a.srem b := by
  have h : a.srem b = BitVec.ofInt 32 (a.toInt.tmod b.toInt) := by
    rw [← BitVec.toInt_srem, BitVec.ofInt_toInt]
  unfold rem
  rw [if_neg hb]
  split_ifs with hov
  · obtain ⟨rfl, rfl⟩ := hov
    decide
  · exact h.symm

theorem divu_eq_udiv {a b : Word} (hb : b ≠ 0) : divu a b = a.udiv b := by
  unfold divu
  rw [if_neg hb]
  apply BitVec.eq_of_toNat_eq
  rw [BitVec.toNat_ofNat, BitVec.udiv_eq, BitVec.toNat_udiv]
  exact Nat.mod_eq_of_lt (lt_of_le_of_lt (Nat.div_le_self _ _) a.isLt)

theorem remu_eq_umod {a b : Word} (hb : b ≠ 0) : remu a b = a.umod b := by
  unfold remu
  rw [if_neg hb]
  apply BitVec.eq_of_toNat_eq
  rw [BitVec.toNat_ofNat, BitVec.umod_eq, BitVec.toNat_umod]
  exact Nat.mod_eq_of_lt (lt_of_le_of_lt (Nat.mod_le _ _) a.isLt)

end FpgaLearning.Rv32m
