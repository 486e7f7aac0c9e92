/-
The board of `top.sv` as a byte memory.

The interconnect decodes three address bits, the memories drop what they do not have, and the output register is one
word. At the addresses of `Mapped` nothing is aliased: the data port is a little-endian byte memory there whose ROM part
is never written. The timer is left out.

- `Represents.load`: a read returns the word of the byte memory.
- `Represents.store`: a masked write changes the bytes of that word and no others.
-/
import FpgaLearning.ArxCore.Effects
import FpgaLearning.Bus.Pause

namespace FpgaLearning.Bus

open FpgaLearning.Memory FpgaLearning.ArxCore MemoryInterconnect

/-! ## Addresses -/

/-- RAM words and the output register -/
def Writable (a : Word) : Prop :=
  (0x20000000 ≤ a.toNat ∧ a.toNat < 0x20020000) ∨ (0x40000000 ≤ a.toNat ∧ a.toNat < 0x40000004)

/-- ROM words, RAM words and the output register -/
def Mapped (a : Word) : Prop := a.toNat < 0x40000 ∨ Writable a

/-- the three bits that are decoded -/
theorem toNat_regionBits (a : Word) : (0xE0000000#32 &&& a).toNat = a.toNat / 2 ^ 29 * 2 ^ 29 := by
  have h : 0xE0000000#32 &&& a = (a.extractLsb' 29 3 ++ 0#29 : BitVec 32) := by
    apply BitVec.eq_of_getLsbD_eq
    intro k hk
    have hmask : (0xE0000000#32).getLsbD k = decide (29 ≤ k) := by
      interval_cases k <;> rfl
    simp only [BitVec.getLsbD_and, hmask, BitVec.getLsbD_append, BitVec.getLsbD_extractLsb']
    by_cases h29 : k < 29
    · simp [h29, show ¬ 29 ≤ k by omega]
    · simp [h29, show 29 ≤ k by omega, show k - 29 < 3 by omega, show 29 + (k - 29) = k by omega]
  have := a.isLt
  rw [h, BitVec.toNat_append, BitVec.extractLsb'_toNat]
  simp [Nat.shiftRight_eq_div_pow, Nat.shiftLeft_eq]
  omega

theorem toNat_masked (sl : Slave) (a : Word) : (masked sl a).toNat = a.toNat % 2 ^ 29 := by
  have h : masked sl a = (0#3 ++ a.extractLsb' 0 29 : BitVec 32) := by
    have hmask : ∀ k < 32, (~~~(0xE0000000#32)).getLsbD k = decide (k < 29) := by
      intro k hk
      interval_cases k <;> rfl
    apply BitVec.eq_of_getLsbD_eq
    intro k hk
    have hs : sl.mask = 0xE0000000#32 := by cases sl <;> rfl
    simp only [masked, hs, BitVec.getLsbD_and, hmask k hk, BitVec.getLsbD_append, BitVec.getLsbD_extractLsb']
    by_cases h29 : k < 29
    · simp [h29]
    · simp [h29]
  rw [h, BitVec.toNat_append, BitVec.extractLsb'_toNat]
  simp

theorem region_rom {a : Word} (h : a.toNat < 2 ^ 29) : region a = some .rom := by
  have hin : inRegion .rom a = true := by
    rw [inRegion, beq_iff_eq, ← BitVec.toNat_inj]
    show (0xE0000000#32 &&& a).toNat = 0
    rw [toNat_regionBits]
    omega
  exact (inRegion_iff _ _).1 hin

theorem region_ram {a : Word} (h : 2 ^ 29 ≤ a.toNat) (h' : a.toNat < 2 ^ 30) : region a = some .ram := by
  have hin : inRegion .ram a = true := by
    rw [inRegion, beq_iff_eq, ← BitVec.toNat_inj]
    show (0xE0000000#32 &&& a).toNat = 0x20000000
    rw [toNat_regionBits]
    omega
  exact (inRegion_iff _ _).1 hin

theorem region_periph {a : Word} (h : 2 ^ 30 ≤ a.toNat) (h' : a.toNat < 0x60000000) : region a = some .periph := by
  have hin : inRegion .periph a = true := by
    rw [inRegion, beq_iff_eq, ← BitVec.toNat_inj]
    show (0xE0000000#32 &&& a).toNat = 0x40000000
    rw [toNat_regionBits]
    omega
  exact (inRegion_iff _ _).1 hin

theorem toNat_memAddr (a : Word) : (LoadStoreUnit.memAddr a).toNat = a.toNat / 4 * 4 := by
  have := a.isLt
  show (a.extractLsb' 2 30 ++ 0#2).toNat = _
  rw [BitVec.toNat_append, BitVec.extractLsb'_toNat]
  simp [Nat.shiftRight_eq_div_pow, Nat.shiftLeft_eq]
  omega

/-- the address lines of a memory of `2^n` words -/
theorem wordLines_eq {n : ℕ} {a b : Word} :
    a.extractLsb' 2 n = b.extractLsb' 2 n ↔ a.toNat / 4 % 2 ^ n = b.toNat / 4 % 2 ^ n := by
  rw [← BitVec.toNat_inj, BitVec.extractLsb'_toNat, BitVec.extractLsb'_toNat, Nat.shiftRight_eq_div_pow,
    Nat.shiftRight_eq_div_pow]

/-! ## The byte memory -/

/-- the word at a mapped address -/
def boardWord (rom : BitVec 16 → Word) (d : Top.Dev) (a : Word) : Word :=
  if a.toNat < 0x40000 then rom (a.extractLsb' 2 16)
  else if a.toNat < 0x20020000 then d.1 (a.extractLsb' 2 15)
  else d.2

def boardByte (rom : BitVec 16 → Word) (d : Top.Dev) (a : Word) : Byte := lane (boardWord rom d a) (laneIndex a)

/-- the board shows the bytes of `f` -/
def Represents (rom : BitVec 16 → Word) (d : Top.Dev) (f : Word → Byte) : Prop := ∀ a, Mapped a → boardByte rom d a = f a

variable {rom : BitVec 16 → Word} {rdw : Word → MemReq → Word} {d : Top.Dev} {f : Word → Byte} {a b : Word} {r : MemReq}

theorem boardWord_congr (h : wordIndex a = wordIndex b) : boardWord rom d a = boardWord rom d b := by
  have hn : a.toNat / 4 = b.toNat / 4 := by
    rw [← toNat_wordIndex, ← toNat_wordIndex, h]
  have h16 : a.extractLsb' 2 16 = b.extractLsb' 2 16 := wordLines_eq.2 (by rw [hn])
  have h15 : a.extractLsb' 2 15 = b.extractLsb' 2 15 := wordLines_eq.2 (by rw [hn])
  have h₁ : a.toNat < 0x40000 ↔ b.toNat < 0x40000 := by omega
  have h₂ : a.toNat < 0x20020000 ↔ b.toNat < 0x20020000 := by omega
  simp only [boardWord, h₁, h₂, h16, h15]

/-- what the data port reads at a mapped address -/
theorem serve_read (ha : Mapped a) (haddr : r.addr = LoadStoreUnit.memAddr a) (hwe : r.we = false) :
    ((Top.device rom rdw).serve d r).2 = boardWord rom d a := by
  have hm := toNat_memAddr a
  rw [← haddr] at hm
  have hmask := fun sl => toNat_masked sl r.addr
  rcases ha with h | ⟨h, h'⟩ | ⟨h, h'⟩
  · rw [boardWord, if_pos h]
    simp only [Top.device, region_rom (a := r.addr) (by omega), romRead]
    exact congrArg rom (wordLines_eq.2 (by rw [hmask]; omega))
  · rw [boardWord, if_neg (by omega), if_pos h']
    simp only [Top.device, region_ram (a := r.addr) (by omega) (by omega), topRam, hwe]
    exact congrArg d.1 (wordLines_eq.2 (by rw [hmask]; omega))
  · have hzero : masked .periph r.addr = 0 := by
      apply BitVec.eq_of_toNat_eq
      rw [hmask, hm]
      show _ = 0
      omega
    rw [boardWord, if_neg (by omega), if_neg (by omega)]
    simp [Top.device, region_periph (a := r.addr) (by omega) (by omega), Peripherals.q, hzero]

/-- what a write to a writable address leaves at a mapped one -/
theorem serve_write (ha : Writable a) (haddr : r.addr = LoadStoreUnit.memAddr a) (hwe : r.we = true) (hb : Mapped b) :
    boardWord rom ((Top.device rom rdw).serve d r).1 b =
      if wordIndex b = wordIndex a then mergeBytes (boardWord rom d b) r.wdata r.mask else boardWord rom d b := by
  have hm := toNat_memAddr a
  rw [← haddr] at hm
  have hmask := fun sl => toNat_masked sl r.addr
  have hindex : wordIndex b = wordIndex a ↔ b.toNat / 4 = a.toNat / 4 := by
    rw [← BitVec.toNat_inj, toNat_wordIndex, toNat_wordIndex]
  simp only [hindex]
  rcases ha with ⟨h, h'⟩ | ⟨h, h'⟩
  · simp only [Top.device, region_ram (a := r.addr) (by omega) (by omega), topRam, hwe, ite_true]
    rcases hb with hb | ⟨hb, hb'⟩ | ⟨hb, hb'⟩
    · simp only [boardWord, if_pos hb, if_neg (show ¬ b.toNat / 4 = a.toNat / 4 by omega)]
    · simp only [boardWord, if_neg (show ¬ b.toNat < 0x40000 by omega), if_pos hb']
      have hline : b.extractLsb' 2 15 = (masked .ram r.addr).extractLsb' 2 15 ↔ b.toNat / 4 = a.toNat / 4 := by
        rw [wordLines_eq, hmask]
        omega
      by_cases heq : b.toNat / 4 = a.toNat / 4
      · rw [if_pos heq, hline.2 heq, Function.update_self]
      · rw [if_neg heq, Function.update_of_ne (fun h => heq (hline.1 h))]
    · simp only [boardWord, if_neg (show ¬ b.toNat < 0x40000 by omega), if_neg (show ¬ b.toNat < 0x20020000 by omega),
        if_neg (show ¬ b.toNat / 4 = a.toNat / 4 by omega)]
  · have hzero : masked .periph r.addr = 0 := by
      apply BitVec.eq_of_toNat_eq
      rw [hmask, hm]
      show _ = 0
      omega
    simp only [Top.device, region_periph (a := r.addr) (by omega) (by omega), Peripherals.writeOut1, hwe, hzero,
      Bool.true_and, beq_self_eq_true, ite_true]
    rcases hb with hb | ⟨hb, hb'⟩ | ⟨hb, hb'⟩
    · simp only [boardWord, if_pos hb, if_neg (show ¬ b.toNat / 4 = a.toNat / 4 by omega)]
    · simp only [boardWord, if_neg (show ¬ b.toNat < 0x40000 by omega), if_pos hb',
        if_neg (show ¬ b.toNat / 4 = a.toNat / 4 by omega)]
    · simp only [boardWord, if_neg (show ¬ b.toNat < 0x40000 by omega), if_neg (show ¬ b.toNat < 0x20020000 by omega),
        if_pos (show b.toNat / 4 = a.toNat / 4 by omega)]

/-- the word of the byte memory at a mapped address -/
theorem Represents.word (h : Represents rom d f) (ha : Mapped a) : boardWord rom d a = wordsOf f (wordIndex a) := by
  apply word_ext
  intro l
  have hw : wordIndex (wordIndex a ++ l : Word) = wordIndex a := by
    apply BitVec.eq_of_getLsbD_eq
    intro k hk
    simp only [wordIndex, BitVec.getLsbD_extractLsb', BitVec.getLsbD_append]
    grind
  have hl : laneIndex (wordIndex a ++ l : Word) = l := by
    apply BitVec.eq_of_getLsbD_eq
    intro k hk
    simp only [laneIndex, BitVec.getLsbD_extractLsb', BitVec.getLsbD_append]
    grind
  have hn : (wordIndex a ++ l : Word).toNat / 4 = a.toNat / 4 := by
    rw [← toNat_wordIndex, hw, toNat_wordIndex]
  have hmapped : Mapped (wordIndex a ++ l : Word) := by
    rcases ha with h | ⟨h, h'⟩ | ⟨h, h'⟩
    · exact .inl (by omega)
    · exact .inr (.inl (by omega))
    · exact .inr (.inr (by omega))
  have hbyte := h _ hmapped
  rw [boardByte, hl, ← boardWord_congr hw.symm] at hbyte
  rw [hbyte, wordsOf, lane_joinLanes]

/-- **Loads.** -/
theorem Represents.load (h : Represents rom d f) (ha : Mapped a) (haddr : r.addr = LoadStoreUnit.memAddr a)
    (hwe : r.we = false) : ((Top.device rom rdw).serve d r).2 = wordsOf f (wordIndex a) := by
  rw [serve_read ha haddr hwe, h.word ha]

/-- **Stores.** -/
theorem Represents.store (h : Represents rom d f) (ha : Writable a) (haddr : r.addr = LoadStoreUnit.memAddr a)
    (hwe : r.we = true) : Represents rom ((Top.device rom rdw).serve d r).1 (byteAt ((wordsOf f).write r)) := by
  intro b hb
  rw [byteAt_write, byteAt_wordsOf, boardByte, serve_write ha haddr hwe hb, haddr, wordIndex_memAddr]
  by_cases hi : wordIndex b = wordIndex a
  · rw [if_pos hi, lane_mergeBytes]
    simp only [hwe, hi, true_and]
    split_ifs
    · rfl
    · exact h b hb
  · rw [if_neg hi, if_neg (fun hc => hi hc.2.1)]
    exact h b hb

end FpgaLearning.Bus
