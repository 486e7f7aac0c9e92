/-
Delivery: what the interconnect does with the requests of its masters, with the clock enable high.

A master keeps a request unchanged until the cycle of its acknowledge (`Keeps`). A transaction begins in a cycle with a
request when the master was idle in the cycle before or is just being acknowledged (`Begins`). `Served m t g` says that
the request begun in cycle `t` is granted in cycle `g`: acknowledged in cycle `g + 1` and not before, with the right
data, and presented to its slave in cycle `g` only.

- `masterAck_next`: an acknowledge is a grant of the cycle before, to the master whose request it was.
- `wins_next`: a request that is not granted is granted in the next cycle.
- `interconnect_delivers`: every transaction is served within two cycles, every acknowledge belongs to one transaction,
  and every write a slave sees is the write of one transaction in its grant cycle.
-/
import FpgaLearning.Bus.Interconnect

namespace FpgaLearning.Bus

open FpgaLearning.Memory

/-! ## The arbiter -/

namespace RamArbiter2to1

variable {s : St} {i : Master → MasterIn} {m : Master}

theorem nextMaster_alone (h : (i m).req = true) (ho : (i m.other).req = false) (ack : Bool) :
    nextMaster s i ack = m := by
  cases m <;> simp_all [nextMaster, Master.other]

/-- after a grant the other master comes first -/
theorem nextMaster_flip (h : (i m).req = true) (hs : s.selectedMaster = m.other) : nextMaster s i true = m := by
  cases m
  · cases ho : (i .master2).req <;> simp_all [nextMaster, Master.other]
  · cases ho : (i .master1).req <;> simp_all [nextMaster, Master.other]

theorem eq_other_of_ne {a b : Master} (h : a ≠ b) : a = b.other := by
  cases a <;> cases b <;> simp_all [Master.other]

end RamArbiter2to1

namespace MemoryInterconnect

/-! ## Regions -/

/-- the slave of an address, if any -/
def region (addr : Word) : Option Slave :=
  if inRegion .rom addr then some .rom
  else if inRegion .ram addr then some .ram
  else if inRegion .periph addr then some .periph
  else none

/-- the regions are disjoint -/
theorem inRegion_iff (sl : Slave) (addr : Word) : inRegion sl addr = true ↔ region addr = some sl := by
  unfold region
  cases hrom : inRegion .rom addr <;> cases hram : inRegion .ram addr <;> cases hper : inRegion .periph addr <;>
    cases sl <;> simp_all [inRegion, Slave.base, Slave.mask]

theorem slaveReq_iff (sl : Slave) (i : MasterIn) : slaveReq sl i = true ↔ i.req = true ∧ region i.r.addr = some sl := by
  unfold slaveReq
  rw [Bool.and_eq_true, inRegion_iff, and_comm]

theorem badReq_iff (i : MasterIn) : badReq i = true ↔ i.req = true ∧ region i.r.addr = none := by
  unfold badReq region
  cases inRegion .rom i.r.addr <;> cases inRegion .ram i.r.addr <;> cases inRegion .periph i.r.addr <;> simp

/-! ## One cycle -/

variable {s : St} {i i' : Master → MasterIn} {m : Master} {sl : Slave}

/-- the request of master `m` is granted in this cycle -/
def Wins (s : St) (i : Master → MasterIn) (m : Master) : Prop :=
  (i m).req = true ∧ ∀ sl, region (i m).r.addr = some sl → granted s i sl = m

theorem slaveIn_eq : slaveIn s i sl = toSlave sl (i (granted s i sl)) := rfl

theorem portAck_next : portAck (next s true i) sl = (slaveIn s i sl).req := by
  cases sl with
  | rom =>
    show RomPort.ack (RomPort.next s.romPort true (slaveIn s i .rom).req) = _
    cases s.romPort <;> cases (slaveIn s i .rom).req <;> rfl
  | ram => rfl
  | periph => rfl

/-- the answer of slave `sl` one cycle later goes to the master granted now, if that one requested `sl` -/
theorem arbiter_next : RamArbiter2to1.masterAck ((next s true i).arbiter sl) (portAck (next s true i) sl) m =
    (decide (granted s i sl = m) && slaveReq sl (i (granted s i sl))) := by
  have hsel : ((next s true i).arbiter sl).selectedMaster = granted s i sl := rfl
  rw [RamArbiter2to1.masterAck, hsel, portAck_next, slaveIn_eq]
  by_cases h : granted s i sl = m <;> simp [h, toSlave]

/-- **Acknowledge.** It answers the grant of the cycle before. -/
theorem masterAck_next : masterAck (next s true i) m = true ↔ Wins s i m := by
  have hreq : ∀ sl, (next s true i).reqDelay m sl = slaveReq sl (i m) := fun _ => rfl
  have hbad : (next s true i).badReqDelay m = badReq (i m) := rfl
  unfold masterAck Wins
  rw [hreq, hreq, hreq, hbad, arbiter_next, arbiter_next, arbiter_next]
  cases hr : (i m).req
  · simp [slaveReq, badReq, hr]
  · cases hreg : region (i m).r.addr with
    | none =>
      have hno : ∀ sl, slaveReq sl (i m) = false := by
        intro sl
        rw [Bool.eq_false_iff, Ne, slaveReq_iff, hreg]; simp
      simp [hno, (badReq_iff (i m)).2 ⟨hr, hreg⟩]
    | some sl =>
      have hyes : slaveReq sl (i m) = true := (slaveReq_iff sl (i m)).2 ⟨hr, hreg⟩
      have hno : ∀ sl', sl' ≠ sl → slaveReq sl' (i m) = false := by
        intro sl' hne
        rw [Bool.eq_false_iff, Ne, slaveReq_iff, hreg]
        rintro ⟨-, h⟩
        exact hne (Option.some.inj h).symm
      have hwin : (decide (granted s i sl = m) && slaveReq sl (i (granted s i sl))) = true ↔ granted s i sl = m := by
        by_cases hg : granted s i sl = m <;> simp [hg, hyes]
      cases sl <;> simp [hno, hyes] <;> simpa using hwin

/-- **Data.** It is that of the slave addressed in the cycle before. -/
theorem masterData_next (h : Wins s i m) (slaveData : Slave → Word) :
    masterData (next s true i) slaveData m =
      match region (i m).r.addr with
      | some sl => slaveData sl
      | none => BitVec.allOnes 32 := by
  obtain ⟨hr, hg⟩ := h
  have hreq : ∀ sl, (next s true i).reqDelay m sl = slaveReq sl (i m) := fun _ => rfl
  have hbad : (next s true i).badReqDelay m = badReq (i m) := rfl
  have hsel : ∀ sl, ((next s true i).arbiter sl).selectedMaster = granted s i sl := fun _ => rfl
  unfold masterData RamArbiter2to1.masterData
  rw [hreq, hreq, hreq, hbad, hsel, hsel, hsel]
  cases hreg : region (i m).r.addr with
  | none =>
    have hno : ∀ sl, slaveReq sl (i m) = false := by
      intro sl
      rw [Bool.eq_false_iff, Ne, slaveReq_iff, hreg]; simp
    simp [hno, (badReq_iff (i m)).2 ⟨hr, hreg⟩]
  | some sl =>
    have hyes : slaveReq sl (i m) = true := (slaveReq_iff sl (i m)).2 ⟨hr, hreg⟩
    have hno : ∀ sl', sl' ≠ sl → slaveReq sl' (i m) = false := by
      intro sl' hne
      rw [Bool.eq_false_iff, Ne, slaveReq_iff, hreg]
      rintro ⟨-, h⟩
      exact hne (Option.some.inj h).symm
    have hwin := hg sl hreg
    cases sl <;> simp [hno, hyes, hwin]

/-- a granted request is what its slave sees -/
theorem slaveOut_of_wins (h : Wins s i m) (hreg : region (i m).r.addr = some sl) :
    slaveOut s i sl = RamPort.out (toSlave sl (i m)) := by
  rw [slaveOut, slaveIn_eq, h.2 sl hreg]

/-- a write on the pins of a slave is the granted write of a master to its region -/
theorem wins_of_write (h : (slaveOut s i sl).we = true) :
    sl ≠ .rom ∧ Wins s i (granted s i sl) ∧ region (i (granted s i sl)).r.addr = some sl ∧
      (i (granted s i sl)).r.we = true := by
  rw [slaveOut, slaveIn_eq, RamPort.out] at h
  simp only [Bool.and_eq_true] at h
  obtain ⟨hreq, hwe⟩ := h
  obtain ⟨hr, hreg⟩ := (slaveReq_iff _ _).1 hreq
  have hrom : sl ≠ .rom := by rintro rfl; simp [toSlave] at hwe
  refine ⟨hrom, ⟨hr, fun sl' hsl' => ?_⟩, hreg, ?_⟩
  · rw [hreg] at hsl'
    rw [← Option.some.inj hsl']
  · cases sl with
    | rom => exact absurd rfl hrom
    | ram => exact hwe
    | periph => exact hwe

/-- **Bounded wait.** A request kept up for a second cycle is granted in that cycle, if not before. -/
theorem wins_next (hr : (i m).req = true) (hn : ¬ Wins s i m) (hk : i' m = i m) : Wins (next s true i) i' m := by
  obtain ⟨sl, hreg, hlost⟩ : ∃ sl, region (i m).r.addr = some sl ∧ granted s i sl ≠ m := by
    by_contra hno
    refine hn ⟨hr, fun sl hsl => ?_⟩
    by_contra hg
    exact hno ⟨sl, hsl, hg⟩
  have hother : granted s i sl = m.other := RamArbiter2to1.eq_other_of_ne hlost
  have hyes : (toSlave sl (i m)).req = true := (slaveReq_iff sl (i m)).2 ⟨hr, hreg⟩
  -- the other master took the slave, so its port acknowledges in the next cycle
  have hboth : (toSlave sl (i m.other)).req = true := by
    cases ho : (toSlave sl (i m.other)).req
    · exact absurd (RamArbiter2to1.nextMaster_alone hyes ho _) hlost
    · rfl
  have hack : portAck (next s true i) sl = true := by
    rw [portAck_next, slaveIn_eq, hother]; exact hboth
  refine ⟨by rw [hk]; exact hr, fun sl' hsl' => ?_⟩
  rw [hk, hreg] at hsl'
  obtain rfl := Option.some.inj hsl'
  unfold granted
  rw [hack]
  exact RamArbiter2to1.nextMaster_flip (by rw [hk]; exact hyes) hother

end MemoryInterconnect

/-! ## Transactions -/

open MemoryInterconnect

section
variable {σ : Type*} (rom : Word → Word) (M : SyncRam σ) (ram : σ) (romData ramData : Word)
  (i : ℕ → Master → MasterIn) (periph : ℕ → Word)

/-- the fabric in cycle `n`, fed with the inputs of the masters, clock enable high -/
def fabric (n : ℕ) : Fabric σ :=
  Clocked.run (fun f x => f.next rom M true x) i (Fabric.init ram romData ramData) n

def ackAt (n : ℕ) (m : Master) : Bool := masterAck (fabric rom M ram romData ramData i n).ic m

def dataAt (n : ℕ) (m : Master) : Word :=
  masterData (fabric rom M ram romData ramData i n).ic
    ((fabric rom M ram romData ramData i n).slaveData (periph n)) m

/-- a master keeps its request unchanged until the cycle of its acknowledge -/
def Keeps (m : Master) : Prop :=
  ∀ n, (i n m).req = true → ackAt rom M ram romData ramData i (n + 1) m = false → i (n + 1) m = i n m

/-- a new request in cycle `t` -/
def Begins (m : Master) (t : ℕ) : Prop :=
  (i t m).req = true ∧ ∀ n, t = n + 1 → (i n m).req = false ∨ ackAt rom M ram romData ramData i t m = true

/-- the address as its slave sees it -/
def masked (sl : Slave) (addr : Word) : Word := addr &&& ~~~sl.mask

/-- what an acknowledge returns for request `r`, granted in cycle `g` -/
def expectedData (r : MemReq) (g : ℕ) : Word :=
  match region r.addr with
  | some .rom => rom (masked .rom r.addr)
  | some .ram =>
    M.answer (M.read (fabric rom M ram romData ramData i g).ram (masked .ram r.addr))
      { r with addr := masked .ram r.addr }
  | some .periph => periph (g + 1)
  | none => BitVec.allOnes 32

/-- slave `sl` sees a write of master `m` in cycle `n` -/
def Presents (m : Master) (sl : Slave) (n : ℕ) : Prop :=
  granted (fabric rom M ram romData ramData i n).ic (i n) sl = m ∧
    (slaveOut (fabric rom M ram romData ramData i n).ic (i n) sl).we = true

/-- the request of `m` begun in cycle `t` is granted in cycle `g` -/
structure Served (m : Master) (t g : ℕ) : Prop where
  granted_after : t ≤ g
  bound : g ≤ t + 1
  kept : ∀ n, t ≤ n → n ≤ g → i n m = i t m
  waits : ∀ n, t < n → n ≤ g → ackAt rom M ram romData ramData i n m = false
  ack : ackAt rom M ram romData ramData i (g + 1) m = true
  data : dataAt rom M ram romData ramData i periph (g + 1) m =
    expectedData rom M ram romData ramData i periph (i t m).r g
  /-- the word the RAM held in the grant cycle, for a write if the RAM is read-first -/
  held : region (i t m).r.addr = some .ram → ((i t m).r.we = false ∨ ∀ w r, M.answer w r = w) →
    dataAt rom M ram romData ramData i periph (g + 1) m =
      M.read (fabric rom M ram romData ramData i g).ram (masked .ram (i t m).r.addr)
  /-- a write to the RAM or a peripheral is on the pins of its slave in the grant cycle, with its own mask and data -/
  presented : ∀ sl, sl ≠ .rom → region (i t m).r.addr = some sl →
    slaveOut (fabric rom M ram romData ramData i g).ic (i g) sl =
      { (i t m).r with addr := masked sl (i t m).r.addr }
  /-- and on the pins of no slave in any other cycle of the transaction -/
  once : ∀ n sl, t ≤ n → n ≤ g → Presents rom M ram romData ramData i m sl n →
    n = g ∧ region (i t m).r.addr = some sl ∧ (i t m).r.we = true

/-- **What the interconnect owes its masters.** -/
structure Delivers : Prop where
  served : ∀ m t, Begins rom M ram romData ramData i m t → ∃ g, Served rom M ram romData ramData i periph m t g
  /-- an acknowledge answers the one request not answered yet -/
  answers : ∀ m n, ackAt rom M ram romData ramData i n m = true →
    ∃ t g, Begins rom M ram romData ramData i m t ∧ Served rom M ram romData ramData i periph m t g ∧ n = g + 1
  /-- every write a slave sees is the write of a transaction to its region, in its grant cycle -/
  writes : ∀ n sl, (slaveOut (fabric rom M ram romData ramData i n).ic (i n) sl).we = true →
    ∃ m t, Begins rom M ram romData ramData i m t ∧ Served rom M ram romData ramData i periph m t n ∧ sl ≠ .rom ∧
      region (i t m).r.addr = some sl ∧ (i t m).r.we = true

variable {rom M ram romData ramData i periph} {m : Master}

theorem ackAt_succ (n : ℕ) : ackAt rom M ram romData ramData i (n + 1) m = true ↔
    Wins (fabric rom M ram romData ramData i n).ic (i n) m := masterAck_next

/-- a kept request is granted in one of two cycles -/
theorem wins_of_kept {n : ℕ} (hkeeps : Keeps rom M ram romData ramData i m) (hr : (i n m).req = true)
    (hn : ackAt rom M ram romData ramData i (n + 1) m = false) :
    Wins (fabric rom M ram romData ramData i (n + 1)).ic (i (n + 1)) m := by
  have hno : ¬ Wins (fabric rom M ram romData ramData i n).ic (i n) m := by
    rw [← ackAt_succ, hn]; decide
  exact wins_next hr hno (hkeeps n hr hn)

theorem data_of_wins {g : ℕ} (hw : Wins (fabric rom M ram romData ramData i g).ic (i g) m) :
    dataAt rom M ram romData ramData i periph (g + 1) m =
      expectedData rom M ram romData ramData i periph (i g m).r g := by
  unfold dataAt expectedData
  refine (masterData_next hw _).trans ?_
  cases hreg : region (i g m).r.addr with
  | none => rfl
  | some sl =>
    have hout := slaveOut_of_wins hw hreg
    have hreq : slaveReq sl (i g m) = true := (slaveReq_iff _ _).2 ⟨hw.1, hreg⟩
    cases sl with
    | rom =>
      show rom (slaveOut (fabric rom M ram romData ramData i g).ic (i g) .rom).addr = _
      rw [hout]; rfl
    | ram =>
      show M.answer (M.read _ (slaveOut (fabric rom M ram romData ramData i g).ic (i g) .ram).addr)
        (slaveOut (fabric rom M ram romData ramData i g).ic (i g) .ram) = _
      rw [hout]
      simp only [RamPort.out, toSlave, hreq, Bool.true_and]
      rfl
    | periph => rfl

/-- a request that is kept from `t` to its first grant in cycle `g` is served -/
theorem served_of_wins {t g : ℕ} (htg : t ≤ g) (hgt : g ≤ t + 1) (hkept : ∀ n, t ≤ n → n ≤ g → i n m = i t m)
    (hwaits : ∀ n, t < n → n ≤ g → ackAt rom M ram romData ramData i n m = false)
    (hw : Wins (fabric rom M ram romData ramData i g).ic (i g) m) :
    Served rom M ram romData ramData i periph m t g := by
  have hg := hkept g htg (le_refl g)
  refine ⟨htg, hgt, hkept, hwaits, (ackAt_succ g).2 hw, ?_, ?_, ?_, ?_⟩
  · rw [data_of_wins hw, hg]
  · intro hreg hread
    rw [data_of_wins hw, hg]
    unfold expectedData
    rw [hreg]
    rcases hread with hwe | hfirst
    · exact M.answer_read _ _ hwe
    · exact hfirst _ _
  · intro sl hrom hreg
    rw [← hg] at hreg
    have hreq : slaveReq sl (i g m) = true := (slaveReq_iff _ _).2 ⟨hw.1, hreg⟩
    rw [slaveOut_of_wins hw hreg, ← hg]
    cases sl with
    | rom => exact absurd rfl hrom
    | ram => simp [RamPort.out, toSlave, hreq, masked]
    | periph => simp [RamPort.out, toSlave, hreq, masked]
  · intro n sl hn hng hp
    obtain ⟨hm, hwe⟩ := hp
    obtain ⟨-, hwn, hreg, hwr⟩ := wins_of_write hwe
    rw [hm] at hwn hreg hwr
    rw [hkept n hn hng] at hreg hwr
    refine ⟨?_, hreg, hwr⟩
    by_contra hne
    have hack := (ackAt_succ n).2 hwn
    rw [hwaits (n + 1) (by omega) (by omega)] at hack
    cases hack

variable (periph) in
/-- every grant is the grant of a transaction -/
theorem exists_served_of_wins (hkeeps : Keeps rom M ram romData ramData i m) {g : ℕ}
    (hw : Wins (fabric rom M ram romData ramData i g).ic (i g) m) :
    ∃ t, Begins rom M ram romData ramData i m t ∧ Served rom M ram romData ramData i periph m t g := by
  by_cases hb : Begins rom M ram romData ramData i m g
  · refine ⟨g, hb, served_of_wins (le_refl g) (by omega) ?_ (fun n hn hng => by omega) hw⟩
    intro n hn hng
    rw [show n = g by omega]
  · -- the request was up in the cycle before, and not granted there
    obtain ⟨n, rfl, hr, hack⟩ : ∃ n, g = n + 1 ∧ (i n m).req = true ∧
        ackAt rom M ram romData ramData i g m = false := by
      by_contra hno
      refine hb ⟨hw.1, fun n hn => ?_⟩
      by_contra hor
      simp only [not_or, Bool.not_eq_true, Bool.not_eq_false] at hor
      exact hno ⟨n, hn, hor.1, hor.2⟩
    have hkept := hkeeps n hr hack
    have hbn : Begins rom M ram romData ramData i m n := by
      refine ⟨hr, fun k hk => ?_⟩
      by_contra hor
      simp only [not_or, Bool.not_eq_true, Bool.not_eq_false] at hor
      subst hk
      have hw' := wins_of_kept hkeeps hor.1 hor.2
      rw [← ackAt_succ, hack] at hw'
      cases hw'
    refine ⟨n, hbn, served_of_wins (by omega) (le_refl _) ?_ ?_ hw⟩
    · intro k hk hkg
      rcases (by omega : k = n ∨ k = n + 1) with rfl | rfl
      · rfl
      · exact hkept
    · intro k hk hkg
      rw [show k = n + 1 by omega]; exact hack

/-- **Interconnect delivery.** For all requests of two masters that keep them up until they are acknowledged. -/
theorem interconnect_delivers (rom : Word → Word) (M : SyncRam σ) (ram : σ) (romData ramData : Word)
    (i : ℕ → Master → MasterIn) (periph : ℕ → Word) (hkeeps : ∀ m, Keeps rom M ram romData ramData i m) :
    Delivers rom M ram romData ramData i periph := by
  refine ⟨?_, ?_, ?_⟩
  · intro m t hb
    by_cases hw : Wins (fabric rom M ram romData ramData i t).ic (i t) m
    · refine ⟨t, served_of_wins (le_refl t) (by omega) ?_ (fun n hn hng => by omega) hw⟩
      intro n hn hng
      rw [show n = t by omega]
    · have hack : ackAt rom M ram romData ramData i (t + 1) m = false := by
        rw [← ackAt_succ] at hw; exact Bool.eq_false_iff.2 hw
      refine ⟨t + 1, served_of_wins (by omega) (le_refl _) ?_ ?_ (wins_of_kept (hkeeps m) hb.1 hack)⟩
      · intro n hn hng
        rcases (by omega : n = t ∨ n = t + 1) with rfl | rfl
        · rfl
        · exact hkeeps m _ hb.1 hack
      · intro n hn hng
        rw [show n = t + 1 by omega]; exact hack
  · intro m n hack
    cases n with
    | zero => cases hack
    | succ g =>
      obtain ⟨t, hb, hs⟩ := exists_served_of_wins periph (hkeeps m) ((ackAt_succ g).1 hack)
      exact ⟨t, g, hb, hs, rfl⟩
  · intro n sl hwe
    obtain ⟨hrom, hw, hreg, hwr⟩ := wins_of_write hwe
    obtain ⟨t, hb, hs⟩ := exists_served_of_wins periph (hkeeps _) hw
    have hkept := hs.kept n hs.granted_after (le_refl n)
    rw [hkept] at hreg hwr
    exact ⟨_, t, hb, hs, hrom, hreg, hwr⟩

end

/-- the plain word memory as a RAM that shows the word held before a write -/
def wordRam : SyncRam WordMem where
  read m a := m (wordIndex a)
  write := WordMem.write
  answer held _ := held
  answer_read _ _ _ := rfl
  write_read m r h := by simp [WordMem.write, h]

/-- master 1 keeps writing the RAM word that master 2 keeps reading -/
def demoMasters (_ : ℕ) : Master → MasterIn
  | .master1 => ⟨true, ⟨0x20000004, 0xAABBCCDD, true, 0b0011⟩⟩
  | .master2 => ⟨true, ⟨0x20000004, 0, false, 0⟩⟩

theorem interconnect_delivers_demo :
    (ackAt (fun a => a) wordRam (fun _ => 0) 0 0 demoMasters 1 .master1 = true ∧
      ackAt (fun a => a) wordRam (fun _ => 0) 0 0 demoMasters 1 .master2 = false ∧
      ackAt (fun a => a) wordRam (fun _ => 0) 0 0 demoMasters 2 .master2 = true ∧
      dataAt (fun a => a) wordRam (fun _ => 0) 0 0 demoMasters (fun _ => 0) 2 .master2 = 0xCCDD) ∧
    Delivers (fun a => a) wordRam (fun _ => 0) 0 0 demoMasters (fun _ => 0) :=
  ⟨by decide +kernel, interconnect_delivers _ _ _ _ _ demoMasters _ fun _ _ _ _ => rfl⟩

end FpgaLearning.Bus
