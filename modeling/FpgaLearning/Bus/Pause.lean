/-
Pausing the clock enable of the RISC-V system: one cycle.

A pause freezes an acknowledge together with the data that belongs to it, while the core goes on. A master that presents
its next request to the same slave in that cycle is acknowledged once more with the old word. Everything else about a
pause is harmless. `Clean` says of one cycle that no master presents a request to a slave whose frozen acknowledge is its
own, and that the fetch unit sees no peripheral and one and the same word at each RAM address (whether an instruction is
fetched before or after a store to its word is a matter of timing in any case). A loader that fills the RAM before the
program runs there is fine.

`Rel.next`: in clean cycles the system is the core behind two memory ports, each with some grant schedule.
-/
import FpgaLearning.ArxCore.Halt
import FpgaLearning.Bus.Delivery
import FpgaLearning.Bus.Top

namespace FpgaLearning.Bus

open FpgaLearning.Memory FpgaLearning.ArxCore MemoryInterconnect

/-! ## The ports of the core -/

namespace Top

variable (rom : BitVec 16 → Word) (rdw : Word → MemReq → Word)

/-- what the data port reaches: the RAM and the output register -/
abbrev Dev := RamWords × Word

/-- the data port as one device. The timer reads as zero, which nobody sees in a run without timer reads. -/
def device : Device Dev where
  serve d r :=
    match region r.addr with
    | some .rom => (d, romRead rom (masked .rom r.addr))
    | some .ram =>
      let r' := { r with addr := masked .ram r.addr }
      (((topRam rdw).write d.1 r', d.2), (topRam rdw).answer ((topRam rdw).read d.1 r'.addr) r')
    | some .periph =>
      let r' := { r with addr := masked .periph r.addr }
      ((d.1, Peripherals.writeOut1 d.2 r'), Peripherals.q ⟨d.2, 0⟩ r'.addr)
    | none => (d, BitVec.allOnes 32)
  read_pure := by
    intro d r h
    cases region r.addr with
    | none => rfl
    | some sl => cases sl <;> simp [topRam, Peripherals.writeOut1, h]

/-- the instruction memory of a run that finds the word `code addr` wherever it fetches from RAM -/
def insnMem (code : Word → Word) (addr : Word) : Word :=
  match region addr with
  | some .rom => romRead rom (masked .rom addr)
  | some .ram => code addr
  | some .periph => 0
  | none => BitVec.allOnes 32

/-- the RAM write among the accesses of the core -/
def ramWrite : Access → Option MemReq
  | .store addr wdata mask => if region addr = some .ram then some ⟨masked .ram addr, wdata, true, mask⟩ else none
  | .load .. => none

/-! ## Clean cycles -/

/-- the fetch unit asks no peripheral, and finds the words of `code` in the RAM -/
structure FetchStable (code : Word → Word) (t : Top) (clkEn : Bool) : Prop where
  no_periph : slaveReq .periph (t.masters .master2) = false
  stable : clkEn = true → slaveReq .ram (t.masters .master2) = true →
    (topRam rdw).read t.fabric.ram (masked .ram (t.masters .master2).r.addr) = code (t.masters .master2).r.addr

/-- no request is presented to a slave that is frozen acknowledging its master -/
def NoStaleAck (t : Top) (clkEn : Bool) : Prop :=
  clkEn = false → ∀ m sl, slaveReq sl (t.masters m) = true → portAck t.fabric.ic sl = true →
    (t.fabric.ic.arbiter sl).selectedMaster ≠ m

/-- the core does not load from the timer -/
def NoTimerRead (t : Top) : Prop :=
  slaveReq .periph (t.masters .master1) = true → (t.masters .master1).r.we = false →
    masked .periph (t.masters .master1).r.addr ≠ 4

/-- a cycle in which the clock enable does no harm -/
structure Clean (code : Word → Word) (t : Top) (clkEn : Bool) : Prop where
  no_stale : NoStaleAck t clkEn
  fetch : FetchStable rdw code t clkEn

/-! ## Grants with a clock enable -/

/-- the request of `m` is granted: an unmapped address always is -/
def Granted (t : Top) (clkEn : Bool) (m : Master) : Prop :=
  (t.masters m).req = true ∧
    ∀ sl, region (t.masters m).r.addr = some sl → clkEn = true ∧ granted t.fabric.ic t.masters sl = m

variable {rom rdw} {code : Word → Word} {t : Top} {clkEn : Bool} {m : Master}

theorem masterAck_next (hs : NoStaleAck t clkEn) :
    masterAck (t.next rom rdw clkEn).fabric.ic m = true ↔ Granted t clkEn m := by
  cases hce : clkEn
  · -- nothing is granted in a paused cycle, and a frozen acknowledge meets no request
    have hfrozen : ∀ sl, ((t.next rom rdw false).fabric.ic.reqDelay m sl) = slaveReq sl (t.masters m) := fun _ => rfl
    have hbad : (t.next rom rdw false).fabric.ic.badReqDelay m = badReq (t.masters m) := rfl
    have hstale : ∀ sl, slaveReq sl (t.masters m) = true →
        RamArbiter2to1.masterAck ((t.next rom rdw false).fabric.ic.arbiter sl)
          (portAck (t.next rom rdw false).fabric.ic sl) m = false := by
      intro sl hreq
      have harb : (t.next rom rdw false).fabric.ic.arbiter sl = t.fabric.ic.arbiter sl := rfl
      have hport : portAck (t.next rom rdw false).fabric.ic sl = portAck t.fabric.ic sl := by cases sl <;> rfl
      rw [RamArbiter2to1.masterAck, harb, hport]
      split_ifs with hsel
      · by_contra hack
        exact hs hce m sl hreq (by simpa using hack) hsel
      · rfl
    unfold masterAck Granted
    rw [hfrozen, hfrozen, hfrozen, hbad]
    cases hr : (t.masters m).req
    · simp [slaveReq, badReq, hr]
    · cases hreg : region (t.masters m).r.addr with
      | none =>
        have hno : ∀ sl, slaveReq sl (t.masters m) = false := by
          intro sl
          rw [Bool.eq_false_iff, Ne, slaveReq_iff, hreg]; simp
        simp [hno, (badReq_iff (t.masters m)).2 ⟨hr, hreg⟩]
      | some sl =>
        have hyes : slaveReq sl (t.masters m) = true := (slaveReq_iff sl _).2 ⟨hr, hreg⟩
        have hno : ∀ sl', sl' ≠ sl → slaveReq sl' (t.masters m) = false := by
          intro sl' hne
          rw [Bool.eq_false_iff, Ne, slaveReq_iff, hreg]
          rintro ⟨-, h⟩
          exact hne (Option.some.inj h).symm
        have := hstale sl hyes
        cases sl <;> simp_all
  · have h := MemoryInterconnect.masterAck_next (s := t.fabric.ic) (i := t.masters) (m := m)
    refine h.trans ?_
    simp [Wins, Granted]

/-! ## One cycle -/

/-- with a slave behind it, a granted request is one of an enabled cycle -/
theorem Granted.wins (h : Granted t clkEn m) {sl : Slave} (hreg : region (t.masters m).r.addr = some sl) :
    clkEn = true ∧ Wins t.fabric.ic t.masters m :=
  ⟨(h.2 sl hreg).1, h.1, fun sl' hsl' => (h.2 sl' hsl').2⟩

/-- **Data.** -/
theorem masterVal_next (h : Granted t clkEn m) : (t.next rom rdw clkEn).masterVal m =
    match region (t.masters m).r.addr with
    | some sl => (t.next rom rdw clkEn).fabric.slaveData (t.next rom rdw clkEn).periphVal sl
    | none => BitVec.allOnes 32 := by
  cases hreg : region (t.masters m).r.addr with
  | none =>
    have hno : ∀ sl, slaveReq sl (t.masters m) = false := by
      intro sl
      rw [Bool.eq_false_iff, Ne, slaveReq_iff, hreg]; simp
    have hbad : badReq (t.masters m) = true := (badReq_iff _).2 ⟨h.1, hreg⟩
    have hfrozen : ∀ sl, (t.next rom rdw clkEn).fabric.ic.reqDelay m sl = slaveReq sl (t.masters m) := fun _ => rfl
    have hdelay : (t.next rom rdw clkEn).fabric.ic.badReqDelay m = badReq (t.masters m) := rfl
    simp [masterVal, masterData, hfrozen, hdelay, hno, hbad]
  | some sl =>
    obtain ⟨rfl, hw⟩ := h.wins hreg
    have := MemoryInterconnect.masterData_next hw
      ((t.next rom rdw true).fabric.slaveData (t.next rom rdw true).periphVal)
    rw [hreg] at this
    exact this

/-- the pins of the slave of a granted request -/
theorem slaveOut_of_granted (h : Granted t clkEn m) {sl : Slave} (hreg : region (t.masters m).r.addr = some sl)
    (hrom : sl ≠ .rom) :
    slaveOut t.fabric.ic t.masters sl = { (t.masters m).r with addr := masked sl (t.masters m).r.addr } := by
  have hreq : slaveReq sl (t.masters m) = true := (slaveReq_iff _ _).2 ⟨h.1, hreg⟩
  rw [slaveOut_of_wins (h.wins hreg).2 hreg]
  cases sl with
  | rom => exact absurd rfl hrom
  | ram => simp [RamPort.out, toSlave, hreq, masked]
  | periph => simp [RamPort.out, toSlave, hreq, masked]

/-- in an enabled cycle only a granted store of the core writes a slave -/
theorem slaveOut_we {sl : Slave} (hce : clkEn = true)
    (h : ¬ (Granted t clkEn .master1 ∧ region (t.masters .master1).r.addr = some sl ∧ (t.masters .master1).r.we = true)) :
    (slaveOut t.fabric.ic t.masters sl).we = false := by
  by_contra hwe
  obtain ⟨-, hw, hreg, hwr⟩ := wins_of_write (by simpa using hwe)
  cases hm : granted t.fabric.ic t.masters sl with
  | master1 =>
    rw [hm] at hw hreg hwr
    exact h ⟨⟨hw.1, fun sl' hsl' => ⟨hce, hw.2 sl' hsl'⟩⟩, hreg, hwr⟩
  | master2 =>
    rw [hm] at hwr
    cases hwr

/-! ## The core behind its ports -/

/-- the grants and bus words that one cycle of the system gives the two ports; `t'` is the next state -/
def schedule (t' : Top) : Cycle where
  romGrant := masterAck t'.fabric.ic .master2
  ramGrant := masterAck t'.fabric.ic .master1
  romBus := t'.masterVal .master2
  ramBus := t'.masterVal .master1
  haltReq := false
  resumeReq := false
  debugReq := false
  debug := ⟨0, 0, false, 0⟩

structure Rel (t : Top) (s : System Dev) : Prop where
  core : s.core = t.core
  romAck : s.romAck = masterAck t.fabric.ic .master2
  romData : s.romData = t.masterVal .master2
  ram : s.ram = ⟨(t.fabric.ram, t.periph.out1), masterAck t.fabric.ic .master1, t.masterVal .master1⟩
  commits : s.commits = t.commits
  writes : t.ramWrites = s.accesses.filterMap ramWrite

theorem Rel.init (c : Core) (ram : RamWords) (romData ramData : Word) :
    Rel (Top.init c ram romData ramData) (System.init c (ram, 0) 0 0) where
  core := rfl
  romAck := rfl
  romData := rfl
  ram := rfl
  commits := rfl
  writes := rfl

variable {s : System Dev}

theorem Rel.pins (h : Rel t s) (t' : Top) : s.pins (schedule t') = t.pins := by
  simp only [System.pins, schedule, Top.pins, ackPins, h.romAck, h.romData, h.ram]

/-! What the slaves do at the clock edge. -/

theorem ram_next_of_read (h : clkEn = true → (slaveOut t.fabric.ic t.masters .ram).we = false) :
    (t.next rom rdw clkEn).fabric.ram = t.fabric.ram := by
  show (if clkEn then (topRam rdw).write t.fabric.ram (slaveOut t.fabric.ic t.masters .ram) else t.fabric.ram) = _
  split_ifs with hce
  · exact (topRam rdw).write_read _ _ (h hce)
  · rfl

theorem out1_next_of_read (h : clkEn = true → (slaveOut t.fabric.ic t.masters .periph).we = false) :
    (t.next rom rdw clkEn).periph.out1 = t.periph.out1 := by
  show (if clkEn then Peripherals.writeOut1 t.periph.out1 (slaveOut t.fabric.ic t.masters .periph)
    else t.periph.out1) = _
  split_ifs with hce
  · simp [Peripherals.writeOut1, h hce]
  · rfl

variable (rom rdw t clkEn) in
/-- **Effect.** RAM and output register change by what the data port is granted, and by nothing else. -/
theorem device_next [Decidable (Granted t clkEn .master1)] :
    ((t.next rom rdw clkEn).fabric.ram, (t.next rom rdw clkEn).periph.out1) =
      if Granted t clkEn .master1 then
        ((device rom rdw).serve (t.fabric.ram, t.periph.out1) (t.masters .master1).r).1
      else (t.fabric.ram, t.periph.out1) := by
  have hquiet : ∀ sl, ¬ (Granted t clkEn .master1 ∧ region (t.masters .master1).r.addr = some sl) →
      clkEn = true → (slaveOut t.fabric.ic t.masters sl).we = false :=
    fun sl hno hce => slaveOut_we hce fun h => hno ⟨h.1, h.2.1⟩
  split_ifs with hg
  · cases hreg : region (t.masters .master1).r.addr with
    | none =>
      rw [ram_next_of_read (hquiet .ram (by rw [hreg]; simp)), out1_next_of_read (hquiet .periph (by rw [hreg]; simp))]
      simp [device, hreg]
    | some sl =>
      obtain ⟨rfl, -⟩ := hg.wins hreg
      cases sl with
      | rom =>
        rw [ram_next_of_read (hquiet .ram (by rw [hreg]; simp)), out1_next_of_read (hquiet .periph (by rw [hreg]; simp))]
        simp [device, hreg]
      | ram =>
        rw [out1_next_of_read (hquiet .periph (by rw [hreg]; simp))]
        have hram : (t.next rom rdw true).fabric.ram =
            (topRam rdw).write t.fabric.ram (slaveOut t.fabric.ic t.masters .ram) := rfl
        rw [hram, slaveOut_of_granted hg hreg (by decide)]
        simp [device, hreg]
      | periph =>
        rw [ram_next_of_read (hquiet .ram (by rw [hreg]; simp))]
        have hout : (t.next rom rdw true).periph.out1 =
            Peripherals.writeOut1 t.periph.out1 (slaveOut t.fabric.ic t.masters .periph) := rfl
        rw [hout, slaveOut_of_granted hg hreg (by decide)]
        simp [device, hreg]
  · rw [ram_next_of_read (hquiet .ram fun h => hg h.1), out1_next_of_read (hquiet .periph fun h => hg h.1)]

/-- a granted ROM read -/
theorem romData_next (h : Granted t clkEn m) (hreg : region (t.masters m).r.addr = some .rom) :
    (t.next rom rdw clkEn).fabric.romData = romRead rom (masked .rom (t.masters m).r.addr) := by
  obtain ⟨rfl, hw⟩ := h.wins hreg
  show romRead rom (slaveOut t.fabric.ic t.masters .rom).addr = _
  rw [slaveOut_of_wins hw hreg]
  rfl

/-- a granted RAM read -/
theorem ramData_next (h : Granted t clkEn m) (hreg : region (t.masters m).r.addr = some .ram)
    (hwe : (t.masters m).r.we = false) :
    (t.next rom rdw clkEn).fabric.ramData = (topRam rdw).read t.fabric.ram (masked .ram (t.masters m).r.addr) := by
  obtain ⟨rfl, hw⟩ := h.wins hreg
  show (topRam rdw).answer ((topRam rdw).read t.fabric.ram (slaveOut t.fabric.ic t.masters .ram).addr)
    (slaveOut t.fabric.ic t.masters .ram) = _
  rw [slaveOut_of_granted h hreg (by decide)]
  exact (topRam rdw).answer_read _ _ hwe

/-- a granted fetch returns the word of the instruction memory -/
theorem fetch_next (hg : Granted t clkEn .master2) (hf : FetchStable rdw code t clkEn) :
    (t.next rom rdw clkEn).masterVal .master2 = insnMem rom code (t.masters .master2).r.addr := by
  rw [masterVal_next hg]
  unfold insnMem
  cases hreg : region (t.masters .master2).r.addr with
  | none => rfl
  | some sl =>
    have hreq : slaveReq sl (t.masters .master2) = true := (slaveReq_iff _ _).2 ⟨hg.1, hreg⟩
    cases sl with
    | rom => exact romData_next hg hreg
    | ram => exact (ramData_next hg hreg rfl).trans (hf.stable (hg.wins hreg).1 hreq)
    | periph => rw [hf.no_periph] at hreq; cases hreq

variable (rom rdw) in
/-- in the cycle of its acknowledge the data port still drives its address, and requests nothing -/
theorem masters_next (hhalt : t.core.haltReqIn = false) (hreq : (t.masters .master1).req = true)
    (hpending : t.core.mem.memRequest = true → t.core.mem.validInInternal = true ∧ t.core.mem.memDataValid = false)
    (hack : masterAck (t.next rom rdw clkEn).fabric.ic .master1 = true) :
    (t.next rom rdw clkEn).masters .master1 = ⟨false, (t.masters .master1).r⟩ := by
  have hnh : t.core.mIsHalted = false := Core.mIsHalted_eq_false hhalt
  have hhalt' : (t.next rom rdw clkEn).core.haltReqIn = false := by
    simp [Top.next, Core.next, Top.pins, ackPins, hhalt]
  have hnh' : (t.next rom rdw clkEn).core.mIsHalted = false := Core.mIsHalted_eq_false hhalt'
  have hmr : t.core.mem.memRequest = true := by
    have hq : (t.core.mem.memRequest && !t.core.memAckIn t.ackPins) = true := by
      simpa [masters, Core.ramReq, hnh, MemStage.memReqOut] using hreq
    exact (Bool.and_eq_true_iff.1 hq).1
  obtain ⟨hv, hd⟩ := hpending hmr
  have hout : MemStage.memOut (t.next rom rdw clkEn).core.mem = MemStage.memOut t.core.mem :=
    MemStage.next_memOut hv hd _ _ _ _ _ _
  have hq : (t.next rom rdw clkEn).core.ramReq (t.next rom rdw clkEn).ackPins = false := by
    simp [Core.ramReq, hnh', MemStage.memReqOut, Core.memAckIn, ackPins, hack]
  simp [masters, hq, Core.ramOut, hnh, hnh', hout]

/-- a granted peripheral read is answered with the register of the grant cycle -/
theorem periphVal_next (hhalt : t.core.haltReqIn = false)
    (hpending : t.core.mem.memRequest = true → t.core.mem.validInInternal = true ∧ t.core.mem.memDataValid = false)
    (hg : Granted t clkEn .master1) (hs : NoStaleAck t clkEn)
    (hreg : region (t.masters .master1).r.addr = some .periph) (hwe : (t.masters .master1).r.we = false)
    (ht : NoTimerRead t) (hf : slaveReq .periph ((t.next rom rdw clkEn).masters .master2) = false) :
    (t.next rom rdw clkEn).periphVal =
      Peripherals.q ⟨t.periph.out1, 0⟩ (masked .periph (t.masters .master1).r.addr) := by
  have hm1 := masters_next rom rdw hhalt hg.1 hpending ((masterAck_next hs).2 hg)
  have hreq : slaveReq .periph (t.masters .master1) = true := (slaveReq_iff _ _).2 ⟨hg.1, hreg⟩
  obtain ⟨hce, hwin⟩ := hg.wins hreg
  have hsel : ((t.next rom rdw clkEn).fabric.ic.arbiter .periph).selectedMaster = .master1 := by
    subst hce
    exact hwin.2 .periph hreg
  have haddr : (slaveOut (t.next rom rdw clkEn).fabric.ic (t.next rom rdw clkEn).masters .periph).addr =
      masked .periph (t.masters .master1).r.addr := by
    have h1 : (toSlave .periph ((t.next rom rdw clkEn).masters .master1)).req = false := by
      rw [hm1]; simp [toSlave, slaveReq]
    have h2 : (toSlave .periph ((t.next rom rdw clkEn).masters .master2)).req = false := hf
    have hnext : granted (t.next rom rdw clkEn).fabric.ic (t.next rom rdw clkEn).masters .periph = .master1 := by
      simp [granted, RamArbiter2to1.nextMaster, h1, h2, hsel]
    rw [slaveOut, slaveIn_eq, hnext, hm1]
    rfl
  have hout : (t.next rom rdw clkEn).periph.out1 = t.periph.out1 := by
    refine out1_next_of_read fun hce => slaveOut_we hce fun h => ?_
    rw [hwe] at h
    cases h.2.2
  rw [periphVal, haddr]
  simp only [Peripherals.q, hout, if_neg (ht hreq hwe)]

variable (rom rdw) in
/-- a granted load returns what the device answers -/
theorem load_next (hhalt : t.core.haltReqIn = false)
    (hpending : t.core.mem.memRequest = true → t.core.mem.validInInternal = true ∧ t.core.mem.memDataValid = false)
    (hg : Granted t clkEn .master1) (hs : NoStaleAck t clkEn) (hwe : (t.masters .master1).r.we = false)
    (ht : NoTimerRead t) (hf : slaveReq .periph ((t.next rom rdw clkEn).masters .master2) = false) :
    (t.next rom rdw clkEn).masterVal .master1 =
      ((device rom rdw).serve (t.fabric.ram, t.periph.out1) (t.masters .master1).r).2 := by
  rw [masterVal_next hg]
  cases hreg : region (t.masters .master1).r.addr with
  | none => simp [device, hreg]
  | some sl =>
    cases sl with
    | rom => exact (romData_next hg hreg).trans (by simp [device, hreg])
    | ram =>
      refine (ramData_next hg hreg hwe).trans ?_
      simp [device, hreg, (topRam rdw).answer_read, hwe]
    | periph =>
      refine (periphVal_next hhalt hpending hg hs hreg hwe ht hf).trans ?_
      simp [device, hreg]

/-- the RAM writes of a cycle are those among the accesses served in it -/
theorem ramWrites_next (hs : NoStaleAck t clkEn) (data : Word) :
    (if clkEn && (slaveOut t.fabric.ic t.masters .ram).we then [slaveOut t.fabric.ic t.masters .ram] else []) =
      (if (t.masters .master1).req && masterAck (t.next rom rdw clkEn).fabric.ic .master1 then
        [(t.masters .master1).r.access data] else []).filterMap ramWrite := by
  by_cases hw : Granted t clkEn .master1 ∧ region (t.masters .master1).r.addr = some .ram ∧
      (t.masters .master1).r.we = true
  · obtain ⟨hg, hreg, hwe⟩ := hw
    have hack : masterAck (t.next rom rdw clkEn).fabric.ic .master1 = true := (masterAck_next hs).2 hg
    rw [slaveOut_of_granted hg hreg (by decide), hg.1, hack, (hg.wins hreg).1]
    simp [hwe, MemReq.access, ramWrite, hreg]
  · have hwe : (clkEn && (slaveOut t.fabric.ic t.masters .ram).we) = false := by
      cases hce : clkEn
      · rfl
      · rw [Bool.true_and]; exact slaveOut_we hce hw
    rw [hwe]
    cases hack : (t.masters .master1).req && masterAck (t.next rom rdw clkEn).fabric.ic .master1
    · rfl
    · simp only [Bool.and_eq_true] at hack
      have hg : Granted t clkEn .master1 := (masterAck_next hs).1 hack.2
      cases hwr : (t.masters .master1).r.we
      · simp [MemReq.access, hwr, ramWrite]
      · have hreg : ¬ region (t.masters .master1).r.addr = some .ram := fun hreg => hw ⟨hg, hreg, hwr⟩
        simp [MemReq.access, hwr, ramWrite, hreg]

/-- without stale acknowledges the core moves as behind a port, whatever this one holds -/
theorem Rel.next_core (h : Rel t s) (hs : NoStaleAck t clkEn) (imem : Word → Word) :
    (s.next imem (device rom rdw) (schedule (t.next rom rdw clkEn))).core = (t.next rom rdw clkEn).core ∧
      (s.next imem (device rom rdw) (schedule (t.next rom rdw clkEn))).romAck =
        masterAck (t.next rom rdw clkEn).fabric.ic .master2 := by
  have hpins := h.pins (t.next rom rdw clkEn)
  have hromReq : s.core.romReq t.pins = (t.masters .master2).req := by rw [h.core]; rfl
  refine ⟨?_, ?_⟩
  · show s.core.next _ = t.core.next t.pins
    rw [hpins, h.core]
  · show (s.core.romReq _ && masterAck (t.next rom rdw clkEn).fabric.ic .master2) = _
    rw [hpins, hromReq]
    cases hm : masterAck (t.next rom rdw clkEn).fabric.ic .master2
    · rw [Bool.and_false]
    · rw [((masterAck_next hs).1 hm).1, Bool.and_true]

/-- **Simulation step.** A clean cycle of the system is a cycle of the core behind its ports. -/
theorem Rel.next (h : Rel t s) (hhalt : t.core.haltReqIn = false) (hport : PortInv s) (hc : Clean rdw code t clkEn)
    (ht : NoTimerRead t) (hf : slaveReq .periph ((t.next rom rdw clkEn).masters .master2) = false) :
    Rel (t.next rom rdw clkEn)
      (s.next (insnMem rom code) (device rom rdw) (schedule (t.next rom rdw clkEn))) := by
  have hpins := h.pins (t.next rom rdw clkEn)
  have hnh : s.core.mIsHalted = false := by rw [h.core]; exact Core.mIsHalted_eq_false hhalt
  have hpending : t.core.mem.memRequest = true →
      t.core.mem.validInInternal = true ∧ t.core.mem.memDataValid = false := by
    rw [← h.core]; exact hport.pending
  have hromReq : s.core.romReq t.pins = (t.masters .master2).req := by rw [h.core]; rfl
  have hromAddr : s.core.romAddr t.pins = (t.masters .master2).r.addr := by rw [h.core]; rfl
  have hramReq : s.core.ramReq t.pins = (t.masters .master1).req := by rw [h.core]; rfl
  have hramOut : s.core.ramOut t.pins = (t.masters .master1).r := by rw [h.core]; rfl
  set t' := t.next rom rdw clkEn with ht'
  have hromData : (s.next (insnMem rom code) (device rom rdw) (schedule t')).romData =
      if (t.masters .master2).req && masterAck t'.fabric.ic .master2 then
        insnMem rom code (t.masters .master2).r.addr
      else t'.masterVal .master2 := by
    rw [← hromReq, ← hromAddr, ← hpins]; rfl
  have hram : (s.next (insnMem rom code) (device rom rdw) (schedule t')).ram =
      s.ram.next (device rom rdw) (t.masters .master1).req (t.masters .master1).r (masterAck t'.fabric.ic .master1)
        (t'.masterVal .master1) := by
    rw [← hramReq, ← hramOut, ← hpins]; rfl
  have haccesses : (s.next (insnMem rom code) (device rom rdw) (schedule t')).accesses = s.accesses ++
      s.ram.served (device rom rdw) (t.masters .master1).req (t.masters .master1).r
        (masterAck t'.fabric.ic .master1) := by
    rw [← hramReq, ← hramOut, ← hpins]
    simp only [System.next, hnh, Bool.false_eq_true, ite_false]
    rfl
  refine ⟨(h.next_core hc.no_stale _).1, (h.next_core hc.no_stale _).2, ?_, ?_, ?_, ?_⟩
  · rw [hromData]
    split_ifs with hg
    · rw [Bool.and_eq_true] at hg
      exact (fetch_next ((masterAck_next hc.no_stale).1 hg.2) hc.fetch).symm
    · rfl
  · classical
    have hdev := device_next rom rdw t clkEn
    rw [← ht'] at hdev
    rw [hram, h.ram]
    unfold Port.next
    cases hm : masterAck t'.fabric.ic .master1
    · have hno : ¬ Granted t clkEn .master1 := by
        intro hg
        rw [ht', (masterAck_next hc.no_stale).2 hg] at hm; cases hm
      rw [if_neg hno] at hdev
      rw [Bool.and_false, if_neg (by decide), hdev]
    · have hg : Granted t clkEn .master1 := (masterAck_next hc.no_stale).1 hm
      rw [if_pos hg] at hdev
      rw [hg.1, Bool.and_true, if_pos rfl, hdev]
      cases hwe : (t.masters .master1).r.we
      · rw [if_neg (by decide), load_next rom rdw hhalt hpending hg hc.no_stale hwe ht hf]
      · rw [if_pos rfl]
  · show s.commits ++ System.commitNow s.core = t.commits ++ System.commitNow t.core
    rw [h.commits, h.core]
  · rw [haccesses, List.filterMap_append, ← h.writes]
    show t.ramWrites ++ _ = _
    rw [ramWrites_next hc.no_stale]
    rfl

/-! ## Requests are kept -/

/-- the fetch unit repeats a request that is not acknowledged -/
theorem fetch_kept (hreq : (t.masters .master2).req = true)
    (hack : masterAck (t.next rom rdw clkEn).fabric.ic .master2 = false) :
    (t.next rom rdw clkEn).masters .master2 = t.masters .master2 := by
  obtain ⟨hstate, hpc⟩ := InsnFetch.next_request hreq t.core.pcBranch (t.masterVal .master2)
  have hstate' : (t.next rom rdw clkEn).core.fs.curState = .fetch := hstate
  have hpc' : (t.next rom rdw clkEn).core.fs.pc = t.core.romAddr t.ackPins := hpc
  obtain ⟨h1, h2⟩ := InsnFetch.request_of_fetch hstate' (t.next rom rdw clkEn).core.idReadyIn
    (t.next rom rdw clkEn).core.pcWe (t.next rom rdw clkEn).core.pcBranch
  have h1' : (t.next rom rdw clkEn).core.romReq (t.next rom rdw clkEn).ackPins = true := by
    simp only [Core.romReq, Core.fetch, ackPins, hack]; exact h1
  have h2' : (t.next rom rdw clkEn).core.romAddr (t.next rom rdw clkEn).ackPins = t.core.romAddr t.ackPins := by
    rw [← hpc', ← h2]
    simp only [Core.romAddr, Core.fetch, ackPins, hack]
  have hreq' : t.core.romReq t.ackPins = true := hreq
  simp only [masters, h1', h2', hreq']

end Top

end FpgaLearning.Bus
