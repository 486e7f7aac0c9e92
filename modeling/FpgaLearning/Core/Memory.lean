/-
Word memories with byte lanes, and memory ports that serve a request when they like.

- A word is four byte lanes (`lane`, `joinLanes`); `mergeBytes` is a byte-masked overwrite.
- `MemReq` is what a master drives on a 32-bit port in one cycle; a `Device` answers one request at a time from its own
  state, and reads leave that state unchanged.
- `WordMem` is the plain memory of 2^30 words and `byteAt` its little-endian byte view; `byteAt_serve` says which byte a
  masked write changes.
- `Port` is a device behind a request/acknowledge handshake: in each cycle the environment decides whether the request
  it sees is served, and the acknowledge is high in the next cycle exactly when it was.
-/
import Mathlib.Tactic

namespace FpgaLearning.Memory

abbrev Word := BitVec 32

abbrev Byte := BitVec 8

/-! ## Byte lanes -/

/-- byte lane `i` of a word, lane 0 least significant -/
def lane (w : Word) (i : BitVec 2) : Byte := w.extractLsb' (8 * i.toNat) 8

/-- the word with the given byte lanes -/
def joinLanes (f : BitVec 2 → Byte) : Word := f 3 ++ f 2 ++ f 1 ++ f 0

theorem lane_index (i : BitVec 2) : i = 0 ∨ i = 1 ∨ i = 2 ∨ i = 3 := by
  revert i; decide

@[simp] theorem lane_joinLanes (f : BitVec 2 → Byte) (i : BitVec 2) : lane (joinLanes f) i = f i := by
  apply BitVec.eq_of_getLsbD_eq
  intro k hk
  rcases lane_index i with rfl | rfl | rfl | rfl
  all_goals simp only [lane, joinLanes, BitVec.getLsbD_extractLsb', BitVec.getLsbD_append, hk, decide_true,
    Bool.true_and]
  · simp [hk]
  · simp [hk, show ¬ 8 + k < 8 by omega, show 8 + k - 8 = k by omega]
  · simp [hk, show ¬ 16 + k < 8 by omega, show ¬ 16 + k - 8 < 8 by omega, show 16 + k - 8 - 8 = k by omega]
  · simp [hk, show ¬ 24 + k < 8 by omega, show ¬ 24 + k - 8 < 8 by omega, show ¬ 24 + k - 8 - 8 < 8 by omega,
      show 24 + k - 8 - 8 - 8 = k by omega]

@[simp] theorem joinLanes_lane (w : Word) : joinLanes (lane w) = w := by
  apply BitVec.eq_of_getLsbD_eq
  intro k hk
  simp only [lane, joinLanes, BitVec.getLsbD_extractLsb', BitVec.getLsbD_append]
  have hq : k < 8 ∨ (8 ≤ k ∧ k < 16) ∨ (16 ≤ k ∧ k < 24) ∨ 24 ≤ k := by omega
  rcases hq with h | h | h | h
  · simp [h]
  · simp [show ¬ k < 8 by omega, show k - 8 < 8 by omega, show 8 + (k - 8) = k by omega]
  · simp [show ¬ k < 8 by omega, show ¬ k - 8 < 8 by omega, show k - 8 - 8 < 8 by omega,
      show 16 + (k - 8 - 8) = k by omega]
  · simp [show ¬ k < 8 by omega, show ¬ k - 8 < 8 by omega, show ¬ k - 8 - 8 < 8 by omega,
      show k - 8 - 8 - 8 < 8 by omega, show 24 + (k - 8 - 8 - 8) = k by omega]

theorem word_ext {w w' : Word} (h : ∀ i, lane w i = lane w' i) : w = w' := by
  rw [← joinLanes_lane w, ← joinLanes_lane w', funext h]

/-- the word whose lane `i` comes from `new` where bit `i` of the mask is set and from `old` elsewhere -/
def mergeBytes (old new : Word) (mask : BitVec 4) : Word :=
  joinLanes fun i => if mask.getLsbD i.toNat then lane new i else lane old i

@[simp] theorem lane_mergeBytes (old new : Word) (mask : BitVec 4) (i : BitVec 2) :
    lane (mergeBytes old new mask) i = if mask.getLsbD i.toNat then lane new i else lane old i :=
  lane_joinLanes _ i

/-! ## Requests and devices -/

/-- one cycle of a master's port: address, write data, write enable and byte mask -/
structure MemReq where
  addr : Word
  wdata : Word
  we : Bool
  mask : BitVec 4
deriving DecidableEq, Repr

/-- a served request as an observer sees it; the data of a store's answer is not part of it -/
inductive Access where
  | load (addr data : Word)
  | store (addr wdata : Word) (mask : BitVec 4)
deriving DecidableEq, Repr

def MemReq.access (r : MemReq) (data : Word) : Access :=
  if r.we then .store r.addr r.wdata r.mask else .load r.addr data

/-- a memory-mapped device: the state after a request and the word it answers with -/
structure Device (σ : Type*) where
  serve : σ → MemReq → σ × Word
  /-- a read changes nothing -/
  read_pure : ∀ s r, r.we = false → (serve s r).1 = s

/-! ## The plain memory -/

/-- 2^30 words; byte address `a` lies in word `a[31:2]` -/
abbrev WordMem := BitVec 30 → Word

def wordIndex (a : Word) : BitVec 30 := a.extractLsb' 2 30

def laneIndex (a : Word) : BitVec 2 := a.extractLsb' 0 2

/-- the little-endian byte view -/
def byteAt (m : WordMem) (a : Word) : Byte := lane (m (wordIndex a)) (laneIndex a)

/-- a byte address is its word index and its lane -/
theorem addr_ext {a b : Word} (h1 : wordIndex a = wordIndex b) (h2 : laneIndex a = laneIndex b) : a = b := by
  have e : ∀ x : Word, wordIndex x ++ laneIndex x = x := by
    intro x
    apply BitVec.eq_of_getLsbD_eq
    intro k hk
    simp only [wordIndex, laneIndex, BitVec.getLsbD_append, BitVec.getLsbD_extractLsb']
    by_cases h : k < 2
    · simp [h]
    · simp [h, show k - 2 < 30 by omega, show 2 + (k - 2) = k by omega]
  calc a = wordIndex a ++ laneIndex a := (e a).symm
    _ = wordIndex b ++ laneIndex b := by rw [h1, h2]
    _ = b := e b

def WordMem.write (m : WordMem) (r : MemReq) : WordMem :=
  if r.we then Function.update m (wordIndex r.addr) (mergeBytes (m (wordIndex r.addr)) r.wdata r.mask) else m

/-- the memory as a device: the answer is the word held before the request -/
def wordDevice : Device WordMem where
  serve m r := (m.write r, m (wordIndex r.addr))
  read_pure := by
    intro m r h
    simp [WordMem.write, h]

/-- **Byte view of a masked write.** Only the bytes of the addressed word whose mask bit is set change. -/
theorem byteAt_write (m : WordMem) (r : MemReq) (a : Word) :
    byteAt (m.write r) a =
      if r.we ∧ wordIndex a = wordIndex r.addr ∧ r.mask.getLsbD (laneIndex a).toNat then lane r.wdata (laneIndex a)
      else byteAt m a := by
  unfold byteAt WordMem.write
  by_cases hw : r.we
  · by_cases hi : wordIndex a = wordIndex r.addr
    · simp [hw, hi]
    · simp [hw, hi]
  · simp [hw]

/-! ## Ports -/

/-- a device behind a handshake: its state, the acknowledge of this cycle and the word on the bus -/
structure Port (σ : Type*) where
  dev : σ
  ack : Bool
  data : Word

variable {σ : Type*}

/-- one cycle of a port. `grant` is the environment's choice to serve what it sees; `bus` is whatever stands on the data
lines when no read was served. -/
def Port.next (D : Device σ) (p : Port σ) (req : Bool) (r : MemReq) (grant : Bool) (bus : Word) : Port σ :=
  if req && grant then ⟨(D.serve p.dev r).1, true, if r.we then bus else (D.serve p.dev r).2⟩ else ⟨p.dev, false, bus⟩

/-- what a port serves in one cycle -/
def Port.served (D : Device σ) (p : Port σ) (req : Bool) (r : MemReq) (grant : Bool) : List Access :=
  if req && grant then [r.access (D.serve p.dev r).2] else []

end FpgaLearning.Memory
