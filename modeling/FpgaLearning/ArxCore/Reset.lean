/-
Reset as a two-run property of the core.

Reset assigns the valid bits, the state machines, the register file and the scoreboard, and leaves the payload registers
behind them as they were. `Agree` relates two states of a stage that are equal in every register reset assigns, and in
the payload registers wherever something in the stage is live: a pending redirect, an instruction in decode, an operation
in a unit, an access or result in the memory stage, a result in write-back.

Two reset cores agree whatever they held before. One clock edge keeps agreeing (a lemma per stage, then for the core and
its ports), and agreeing cores commit and serve the same. `reset_forgets` is the run.
-/
import FpgaLearning.ArxCore.Alignment

namespace FpgaLearning.ArxCore

open FpgaLearning.Memory FpgaLearning.Clocked

/-! ## InsnFetch -/

namespace InsnFetch

/-- equal up to the redirect target, which is live while a redirect is pending -/
structure Agree (x y : St) : Prop where
  state : x.curState = y.curState
  pc : x.pc = y.pc
  buf : x.insnBuf = y.insnBuf
  pending : x.pcWeBuf = y.pcWeBuf
  target : x.pcWeBuf = true → x.pcInBuf = y.pcInBuf

variable {x y : St}

theorem Agree.reset (x y : St) : Agree (reset x) (reset y) :=
  ⟨rfl, rfl, rfl, rfl, fun h => absurd h Bool.false_ne_true⟩

theorem Agree.comb (h : Agree x y) (a r w : Bool) : comb x a r w = comb y a r w := by
  unfold InsnFetch.comb pcWeInternal
  rw [h.state, h.pending]

theorem Agree.pcNext (h : Agree x y) {w : Bool} {t t' : Word} (ht : w = true → t = t') :
    pcNext x w t = pcNext y w t' := by
  unfold InsnFetch.pcNext pcInInternal pcWeInternal
  rw [h.pc, ← h.pending]
  cases w with
  | true => rw [ht rfl]; rfl
  | false =>
    cases hp : x.pcWeBuf with
    | true => exact h.target hp
    | false => rfl

theorem Agree.memAddr (h : Agree x y) (c : Comb) {w : Bool} {t t' : Word} (ht : w = true → t = t') :
    memAddr x c w t = memAddr y c w t' := by
  unfold InsnFetch.memAddr
  rw [h.pc, h.pcNext ht]

theorem Agree.pcOut (h : Agree x y) (c : Comb) : pcOut x c = pcOut y c := by
  unfold InsnFetch.pcOut
  rw [h.pc]

/-- the word on the instruction bus is looked at only under its acknowledge -/
theorem memAck_of_comb {s : St} {a r w : Bool}
    (h : (InsnFetch.comb s a r w).outSource = .mem ∨ (InsnFetch.comb s a r w).insnBufWe = true) : a = true := by
  cases a with
  | true => rfl
  | false =>
    unfold InsnFetch.comb at h
    cases hs : s.curState with
    | waitHandshake =>
      simp only [hs] at h
      split at h
      · split at h <;> simp at h
      · simp at h
    | _ => simp [hs] at h

theorem Agree.insnOut (h : Agree x y) {a r w : Bool} {d d' : Word} (hd : a = true → d = d') :
    insnOut x (InsnFetch.comb x a r w) d = insnOut y (InsnFetch.comb x a r w) d' := by
  unfold InsnFetch.insnOut
  cases hc : (InsnFetch.comb x a r w).outSource with
  | none => rfl
  | mem => exact hd (memAck_of_comb (.inl hc))
  | buf => exact h.buf

/-- **Fetch step.** -/
theorem Agree.next (h : Agree x y) {a r w : Bool} {d d' t t' : Word} (hd : a = true → d = d') (ht : w = true → t = t') :
    Agree (next x (InsnFetch.comb x a r w) d w t) (next y (InsnFetch.comb x a r w) d' w t') := by
  refine ⟨rfl, ?_, ?_, ?_, ?_⟩
  · simp only [InsnFetch.next]
    rw [h.pc, h.pcNext ht]
  · simp only [InsnFetch.next]
    cases hc : (InsnFetch.comb x a r w).insnBufWe with
    | true => exact hd (memAck_of_comb (.inr hc))
    | false => exact h.buf
  · simp only [InsnFetch.next]
    rw [h.pending]
  · intro hp
    cases hack : (InsnFetch.comb x a r w).pcWeAck with
    | true => simp [InsnFetch.next, hack] at hp
    | false =>
      cases w with
      | true => simpa [InsnFetch.next, hack] using ht rfl
      | false =>
        have hp' : x.pcWeBuf = true := by simpa [InsnFetch.next, hack] using hp
        simpa [InsnFetch.next, hack] using h.target hp'

end InsnFetch

/-! ## InsnDecodeStage -/

namespace InsnDecodeStage

/-- equal up to the instruction and its pc, which are live while the stage is valid -/
structure Agree (x y : St) : Prop where
  valid : x.mValid = y.mValid
  regs : x.regs = y.regs
  used : x.mUsedReg = y.mUsedReg
  insn : x.mValid = true → x.mPc = y.mPc ∧ x.mInsn = y.mInsn

variable {x y : St}

theorem Agree.reset (x y : St) : Agree (reset x) (reset y) := ⟨rfl, rfl, rfl, fun h => absurd h Bool.false_ne_true⟩

theorem Agree.eq_of_valid (h : Agree x y) (hv : x.mValid = true) : x = y := by
  obtain ⟨hpc, hinsn⟩ := h.insn hv
  obtain ⟨v, p, i, g, u⟩ := x
  obtain ⟨v', p', i', g', u'⟩ := y
  obtain ⟨h1, h2, h3, -⟩ := h
  dsimp only at h1 h2 h3 hpc hinsn
  rw [h1, h2, h3, hpc, hinsn]

theorem Agree.validOut (h : Agree x y) (flush halt : Bool) : validOut x flush halt = validOut y flush halt := by
  cases hv : x.mValid with
  | true => rw [h.eq_of_valid hv]
  | false => rw [validOut_of_not_valid hv, validOut_of_not_valid (h.valid ▸ hv)]

theorem Agree.readyIn (h : Agree x y) (flush halt r : Bool) : readyIn x flush halt r = readyIn y flush halt r := by
  unfold InsnDecodeStage.readyIn
  rw [h.valid, h.validOut]

theorem Agree.out (h : Agree x y) {flush halt : Bool} (hv : InsnDecodeStage.validOut x flush halt = true) :
    out x = out y := by
  rw [h.eq_of_valid (valid_of_validOut hv)]

/-- without an issue the scoreboard does not look at the destination in decode -/
theorem nextUsedReg_of_not_issue (used : BitVec 5 → BitVec 2) (rdIn : BitVec 5) (we : Bool) (rd rd' : BitVec 5) :
    nextUsedReg used rdIn we rd false = nextUsedReg used rdIn we rd' false := by
  simp [nextUsedReg]

/-- **Decode step.** -/
theorem Agree.next (h : Agree x y) (flush halt v r : Bool) {pc pc' insn insn' : Word} (hpc : v = true → pc = pc')
    (hinsn : v = true → insn = insn') (rdIn : BitVec 5) (val : Word) (we : Bool) :
    Agree (next x flush halt v r pc insn rdIn val we) (next y flush halt v r pc' insn' rdIn val we) := by
  have hready := h.readyIn flush halt r
  have hvalid := h.validOut flush halt
  refine ⟨?_, ?_, ?_, fun hv => ?_⟩
  · simp only [InsnDecodeStage.next, h.valid, hready, hvalid]
  · simp only [InsnDecodeStage.next, h.regs]
  · simp only [InsnDecodeStage.next, ← h.used, ← hvalid]
    cases hx : InsnDecodeStage.validOut x flush halt with
    | true => rw [h.out hx]
    | false => exact nextUsedReg_of_not_issue _ _ _ _ _
  · simp only [InsnDecodeStage.next, ← hready] at hv ⊢
    cases hf : v && InsnDecodeStage.readyIn x flush halt r with
    | true =>
      have hv : v = true := (Bool.and_eq_true_iff.1 hf).1
      exact ⟨hpc hv, hinsn hv⟩
    | false =>
      refine h.insn ?_
      rw [hf] at hv
      simp only [Bool.false_eq_true, if_false] at hv
      split at hv
      · cases hv
      · exact hv

end InsnDecodeStage

/-! ## ExecStage -/

theorem IALU.next_idle (s : IALU.St) (r : Bool) (op op' : AluOp) (a b a' b' : Word) :
    IALU.next s false r op a b = IALU.next s false r op' a' b' := by
  simp only [IALU.next, Bool.false_and, Bool.false_eq_true, if_false]

theorem IMUL.next_idle (s : IMUL.St) (r : Bool) (op op' : MduOp) (a b a' b' : Word) :
    IMUL.next s false r op a b = IMUL.next s false r op' a' b' := by
  simp only [IMUL.next, Bool.false_and, Bool.false_eq_true, if_false]

theorem IDIV.next_idle (s : IDIV.St) (r : Bool) (op op' : MduOp) (a b a' b' : Word) :
    IDIV.next s false r op a b = IDIV.next s false r op' a' b' := by
  simp only [IDIV.next, Bool.false_and, Bool.false_eq_true, if_false]

/-- equal up to the working registers, which are live while the divider counts -/
structure IDIV.Agree (x y : IDIV.St) : Prop where
  cnt : x.cnt = y.cnt
  validOut : x.validOut = y.validOut
  resOut : x.resOut = y.resOut
  work : x.cnt ≠ 0 → x.work = y.work

namespace IDIV

variable {x y : St}

theorem Agree.eq_of_busy (h : Agree x y) (hc : x.cnt ≠ 0) : x = y := by
  have hw := h.work hc
  obtain ⟨c, w, v, r⟩ := x
  obtain ⟨c', w', v', r'⟩ := y
  obtain ⟨h1, h2, h3, -⟩ := h
  dsimp only at h1 h2 h3 hw
  rw [h1, h2, h3, hw]

theorem Agree.readyIn (h : Agree x y) (r : Bool) : readyIn x r = readyIn y r := by
  unfold IDIV.readyIn busy
  rw [h.cnt, h.validOut]

/-- **Divider step.** -/
theorem Agree.next (h : Agree x y) (v r : Bool) (op : MduOp) (a b : Word) :
    Agree (next x v r op a b) (next y v r op a b) := by
  by_cases hc : x.cnt = 0
  · have hb : busy x = false := by simp [busy, hc]
    have hb' : busy y = false := by simp [busy, ← h.cnt, hc]
    have hready := h.readyIn r
    cases hf : v && IDIV.readyIn x r with
    | true =>
      have hf' : (v && IDIV.readyIn y r) = true := hready ▸ hf
      refine ⟨?_, ?_, ?_, fun _ => ?_⟩ <;> simp [IDIV.next, hf, hf', hb, hb', h.resOut]
    | false =>
      have hf' : (v && IDIV.readyIn y r) = false := hready ▸ hf
      cases ht : x.validOut && r with
      | true =>
        have ht' : (y.validOut && r) = true := h.validOut ▸ ht
        refine ⟨?_, ?_, ?_, fun hn => absurd ?_ hn⟩
        · simp [IDIV.next, hf, hf', hb, hb', ht, ht', h.cnt]
        · simp [IDIV.next, hf, hf', hb, hb', ht, ht']
        · simp [IDIV.next, hf, hf', hb, hb', ht, ht', h.resOut]
        · simp [IDIV.next, hf, hb, ht, hc]
      | false =>
        have ht' : (y.validOut && r) = false := h.validOut ▸ ht
        simpa [IDIV.next, hf, hf', hb, hb', ht, ht'] using h
  · rw [h.eq_of_busy hc]
    exact ⟨rfl, rfl, rfl, fun _ => rfl⟩

end IDIV

namespace ExecStage

/-- equal up to the stage registers, which are live while a unit holds an operation -/
structure Agree (x y : St) : Prop where
  ialu : x.ialu = y.ialu
  mul : x.imdu.mul = y.imdu.mul
  div : IDIV.Agree x.imdu.div y.imdu.div
  regs : Held x → { x with imdu := y.imdu } = y

variable {x y : St}

theorem Agree.reset (x y : St) : Agree (reset x) (reset y) := by
  refine ⟨rfl, rfl, ⟨rfl, rfl, rfl, fun h => absurd rfl h⟩, fun h => ?_⟩
  simp [Held, ExecStage.reset, IALU.reset, IMDU.reset, IMUL.reset, IDIV.reset] at h

theorem Agree.mdu_readyIn (h : Agree x y) (r : Bool) : IMDU.readyIn x.imdu r = IMDU.readyIn y.imdu r := by
  unfold IMDU.readyIn
  rw [h.mul, h.div.readyIn]

theorem Agree.readyIn (h : Agree x y) (halt r : Bool) : readyIn x halt r = readyIn y halt r := by
  unfold ExecStage.readyIn
  rw [h.ialu, h.mdu_readyIn]

theorem Agree.mdu_validOut (h : Agree x y) : IMDU.validOut x.imdu = IMDU.validOut y.imdu := by
  unfold IMDU.validOut
  rw [h.mul, h.div.validOut]

theorem Agree.mdu_resOut (h : Agree x y) : IMDU.resOut x.imdu = IMDU.resOut y.imdu := by
  unfold IMDU.resOut
  rw [h.mul, h.div.validOut, h.div.resOut]

theorem Agree.held (h : Agree x y) : Held x ↔ Held y := by
  unfold Held
  rw [h.ialu, h.mul, h.div.cnt, h.div.validOut]

theorem Agree.validOut (h : Agree x y) (halt : Bool) : validOut x halt = validOut y halt := by
  by_cases hx : Held x
  · have hm := h.mdu_validOut
    rw [← h.regs hx]
    unfold ExecStage.validOut
    rw [hm]
  · have hno : ∀ z : St, ¬ Held z → ExecStage.validOut z halt = false :=
      fun z hz => Bool.eq_false_iff.2 fun hv => hz (held_of_validOut hv)
    rw [hno x hx, hno y (mt h.held.2 hx)]

theorem Agree.out (h : Agree x y) (hx : Held x) : out x = out y := by
  have hr := h.mdu_resOut
  rw [← h.regs hx]
  unfold ExecStage.out aluOut
  rw [hr]

theorem Agree.pcBranchOut (h : Agree x y) (hx : Held x) : pcBranchOut x = pcBranchOut y := by
  rw [← h.regs hx]
  rfl

theorem Agree.pcWeOut (h : Agree x y) (halt r : Bool) : pcWeOut x halt r = pcWeOut y halt r := by
  unfold ExecStage.pcWeOut
  rw [← h.validOut]
  cases hv : ExecStage.validOut x halt with
  | false => simp
  | true =>
    rw [← h.regs (held_of_validOut hv)]

/-- **Execute step.** -/
theorem Agree.next (h : Agree x y) (halt v r : Bool) {i j : IdOut} (hi : v = true → i = j) :
    Agree (next x halt v r i) (next y halt v r j) := by
  have hready := h.readyIn halt r
  cases hf : ExecStage.readyIn x halt r && v with
  | true =>
    have hf' : (ExecStage.readyIn y halt r && v) = true := hready ▸ hf
    obtain rfl := hi (Bool.and_eq_true_iff.1 hf).2
    have hmdu := h.mdu_readyIn (!halt && r)
    refine ⟨?_, ?_, ?_, fun _ => ?_⟩
    · simp only [ExecStage.next, hf, hf', h.ialu]
    · simp only [ExecStage.next, IMDU.next, hf, hf', h.mul, hmdu]
    · simp only [ExecStage.next, IMDU.next, hf, hf', hmdu]
      exact h.div.next _ _ _ _ _
    · simp only [ExecStage.next, hf, hf', h.ialu, if_true]
  | false =>
    -- nothing is issued: the stage registers stay and the units are offered nothing
    have hf' : (ExecStage.readyIn y halt r && v) = false := hready ▸ hf
    refine ⟨?_, ?_, ?_, fun hx => ?_⟩
    · simp only [ExecStage.next, hf, hf', h.ialu, Bool.false_and]
      exact IALU.next_idle _ _ _ _ _ _ _ _
    · simp only [ExecStage.next, IMDU.next, hf, hf', h.mul, Bool.false_and]
      exact IMUL.next_idle _ _ _ _ _ _ _ _
    · simp only [ExecStage.next, IMDU.next, hf, hf', Bool.false_and]
      rw [IDIV.next_idle y.imdu.div _ _ i.d.mduOp _ _ (ialuArg1 i) (ialuArg2 i)]
      exact h.div.next _ _ _ _ _
    · have hregs := h.regs (held_of_next hf hx)
      have halu : (ExecStage.next x halt v r i).ialu = (ExecStage.next y halt v r j).ialu := by
        simp only [ExecStage.next, hf, hf', h.ialu, Bool.false_and]
        exact IALU.next_idle _ _ _ _ _ _ _ _
      calc { ExecStage.next x halt v r i with imdu := (ExecStage.next y halt v r j).imdu }
          = { { x with imdu := y.imdu } with
              ialu := (ExecStage.next x halt v r i).ialu, imdu := (ExecStage.next y halt v r j).imdu } := by
            simp only [ExecStage.next, hf, Bool.false_eq_true, if_false]
        _ = { y with ialu := (ExecStage.next y halt v r j).ialu, imdu := (ExecStage.next y halt v r j).imdu } := by
          rw [hregs, halu]
        _ = ExecStage.next y halt v r j := by simp only [ExecStage.next, hf', Bool.false_eq_true, if_false]

end ExecStage

/-! ## MemStage and WriteBackStage -/

namespace MemStage

/-- equal in the registers with a reset, and in all of them while the stage holds an operation or requests memory -/
structure Agree (x y : St) : Prop where
  valid : x.validInInternal = y.validInInternal
  dataValid : x.memDataValid = y.memDataValid
  data : x.memDataInternal = y.memDataInternal
  request : x.memRequest = y.memRequest
  live : x.validInInternal = true ∨ x.memRequest = true → x = y

variable {x y : St}

theorem Agree.reset (x y : St) : Agree (reset x) (reset y) :=
  ⟨rfl, rfl, rfl, rfl, fun h => absurd h (by simp [MemStage.reset])⟩

theorem Agree.validOut (h : Agree x y) (halt : Bool) : validOut x halt = validOut y halt := by
  unfold MemStage.validOut
  rw [h.valid, h.dataValid]

theorem Agree.readyIn (h : Agree x y) (halt r : Bool) : readyIn x halt r = readyIn y halt r := by
  unfold MemStage.readyIn
  rw [h.valid, h.validOut]

theorem valid_of_validOut {halt : Bool} (h : validOut x halt = true) : x.validInInternal = true := by
  unfold MemStage.validOut at h
  split at h
  · exact (Bool.and_eq_true_iff.1 h).1
  · cases h

theorem Agree.memReqOut (h : Agree x y) (ack : Bool) : memReqOut x ack = memReqOut y ack := by
  unfold MemStage.memReqOut
  rw [h.request]

theorem Agree.memOut (h : Agree x y) {ack : Bool} (hr : MemStage.memReqOut x ack = true) : memOut x = memOut y := by
  rw [h.live (.inr (Bool.and_eq_true_iff.1 hr).1)]

/-- **Memory step.** -/
theorem Agree.next (h : Agree x y) (halt v r : Bool) {i j : ExOut} (hi : v = true → i = j) (ack : Bool) {d d' : Word}
    (hd : ack = true → d = d') : Agree (next x halt v r i ack d) (next y halt v r j ack d') := by
  -- the operation and the word on the bus are looked at only under their handshakes
  have hbus : MemStage.next y halt v r j ack d' = MemStage.next y halt v r i ack d := by
    cases v <;> cases ack <;> simp_all [MemStage.next]
  rw [hbus]
  by_cases hx : x.validInInternal = true ∨ x.memRequest = true
  · rw [h.live hx]
    exact ⟨rfl, rfl, rfl, rfl, fun _ => rfl⟩
  · obtain ⟨hv, hq⟩ := not_or.1 hx
    have hv : x.validInInternal = false := Bool.eq_false_iff.2 hv
    have hq : x.memRequest = false := Bool.eq_false_iff.2 hq
    have hv' : y.validInInternal = false := h.valid ▸ hv
    have hq' : y.memRequest = false := h.request ▸ hq
    have hready := h.readyIn halt r
    have hout := h.validOut halt
    cases hf : v && MemStage.readyIn x halt r with
    | true =>
      have hf' : (v && MemStage.readyIn y halt r) = true := hready ▸ hf
      refine ⟨?_, ?_, ?_, ?_, fun _ => ?_⟩ <;> simp [MemStage.next, hf, hf', hq, hq', h.data]
    | false =>
      have hf' : (v && MemStage.readyIn y halt r) = false := hready ▸ hf
      refine ⟨?_, ?_, ?_, ?_, fun hl => absurd hl ?_⟩ <;>
        simp [MemStage.next, hf, hf', hv, hv', hq, hq', h.data, h.dataValid]

end MemStage

namespace WriteBackStage

/-- equal up to the result, which is live while the stage is valid -/
structure Agree (x y : St) : Prop where
  valid : x.validInInternal = y.validInInternal
  live : x.validInInternal = true → x = y

variable {x y : St}

theorem Agree.reset (x y : St) : Agree (reset x) (reset y) := ⟨rfl, fun h => absurd h Bool.false_ne_true⟩

/-- what the stage commits -/
theorem Agree.outputs (h : Agree x y) :
    regWriteOut x = regWriteOut y ∧ rdOut x = rdOut y ∧ resOut x = resOut y := by
  cases hv : x.validInInternal with
  | true =>
    rw [h.live hv]
    exact ⟨rfl, rfl, rfl⟩
  | false =>
    have hv' : y.validInInternal = false := h.valid ▸ hv
    simp [regWriteOut, rdOut, resOut, hv, hv']

/-- **Write-back step.** Nothing of the old result survives. -/
theorem agree_next (x y : St) (v : Bool) {i j : MemOut} (hi : v = true → i = j) :
    Agree (next x v i) (next y v j) := by
  cases v with
  | true =>
    obtain rfl := hi rfl
    exact ⟨rfl, fun _ => rfl⟩
  | false => exact ⟨rfl, fun h => absurd h Bool.false_ne_true⟩

end WriteBackStage

/-! ## The core -/

namespace Core

/-- two running cores that agree in every stage -/
structure Agree (c c' : Core) : Prop where
  fs : InsnFetch.Agree c.fs c'.fs
  id : InsnDecodeStage.Agree c.id c'.id
  ex : ExecStage.Agree c.ex c'.ex
  mem : MemStage.Agree c.mem c'.mem
  wb : WriteBackStage.Agree c.wb c'.wb
  running : c.haltReqIn = false
  running' : c'.haltReqIn = false

/-- input pins that agree where an acknowledge says so -/
structure PinsAgree (i j : CoreIn) : Prop where
  romAck : i.romAck = j.romAck
  romData : i.romAck = true → i.romData = j.romData
  ramAck : i.ramAck = j.ramAck
  ramData : i.ramAck = true → i.ramData = j.ramData
  quiet : i.haltReq = false
  quiet' : j.haltReq = false

variable {c c' : Core} {i j : CoreIn}

/-- whatever two cores held, after reset they agree -/
theorem Agree.reset (c c' : Core) : Agree c.reset c'.reset :=
  ⟨.reset _ _, .reset _ _, .reset _ _, .reset _ _, .reset _ _, rfl, rfl⟩

theorem Agree.memReadyIn (h : Agree c c') : c.memReadyIn = c'.memReadyIn := by
  unfold Core.memReadyIn
  rw [h.running, h.running', h.mem.readyIn]

theorem Agree.exReadyIn (h : Agree c c') : c.exReadyIn = c'.exReadyIn := by
  unfold Core.exReadyIn
  rw [h.running, h.running', h.memReadyIn, h.ex.readyIn]

theorem Agree.pcWe (h : Agree c c') : c.pcWe = c'.pcWe := by
  unfold Core.pcWe
  rw [h.running, h.running', h.memReadyIn, h.ex.pcWeOut]

/-- the target of a redirect is live -/
theorem Agree.pcBranch (h : Agree c c') (hwe : c.pcWe = true) : c.pcBranch = c'.pcBranch :=
  h.ex.pcBranchOut (ExecStage.held_of_pcWeOut hwe).1

theorem Agree.idReadyIn (h : Agree c c') : c.idReadyIn = c'.idReadyIn := by
  unfold Core.idReadyIn
  rw [h.running, h.running', h.pcWe, h.exReadyIn, h.id.readyIn]

theorem Agree.fetch (h : Agree c c') (hp : PinsAgree i j) : c.fetch i = c'.fetch j := by
  unfold Core.fetch
  rw [← hp.romAck, h.idReadyIn, h.pcWe, h.fs.comb]

theorem Agree.romReq (h : Agree c c') (hp : PinsAgree i j) : c.romReq i = c'.romReq j := by
  unfold Core.romReq
  rw [h.fetch hp]

theorem Agree.romAddr (h : Agree c c') (hp : PinsAgree i j) : c.romAddr i = c'.romAddr j := by
  unfold Core.romAddr
  rw [← h.fetch hp, ← h.pcWe]
  exact h.fs.memAddr _ h.pcBranch

theorem Agree.ramReq (h : Agree c c') (hp : PinsAgree i j) : c.ramReq i = c'.ramReq j := by
  unfold Core.ramReq memAckIn
  rw [mIsHalted_eq_false h.running, mIsHalted_eq_false h.running', ← hp.ramAck]
  exact h.mem.memReqOut _

theorem Agree.ramOut (h : Agree c c') (hr : c.ramReq i = true) : c.ramOut i = c'.ramOut j := by
  unfold Core.ramReq at hr
  unfold Core.ramOut
  rw [mIsHalted_eq_false h.running] at hr ⊢
  rw [mIsHalted_eq_false h.running']
  exact h.mem.memOut hr

/-- **Core step.** Agreeing cores behind agreeing pins agree after the clock edge. -/
theorem Agree.next (h : Agree c c') (hp : PinsAgree i j) : Agree (c.next i) (c'.next j) := by
  have hfetch := h.fetch hp
  have hvalid := h.id.validOut c.pcWe false
  refine ⟨?_, ?_, ?_, ?_, ?_, ?_, ?_⟩
  · simp only [Core.next]
    rw [← hfetch, ← h.pcWe]
    exact h.fs.next hp.romData h.pcBranch
  · obtain ⟨hw, hrd, hres⟩ := h.wb.outputs
    simp only [Core.next, h.running, h.running']
    rw [← hfetch, ← h.pcWe, ← h.exReadyIn, ← hw, ← hrd, ← hres]
    exact h.id.next _ _ _ _ (fun _ => h.fs.pcOut _) (fun _ => h.fs.insnOut hp.romData) _ _ _
  · simp only [Core.next, h.running, h.running']
    rw [← h.pcWe, ← hvalid, ← h.memReadyIn]
    exact h.ex.next _ _ _ fun hv => h.id.out hv
  · simp only [Core.next, h.running, h.running', memAckIn, memDataIn, mIsHalted_eq_false h.running,
      mIsHalted_eq_false h.running']
    rw [← h.ex.validOut, ← hp.ramAck]
    exact h.mem.next _ _ _ (fun hv => h.ex.out (ExecStage.held_of_validOut hv)) _ hp.ramData
  · simp only [Core.next, h.running, h.running']
    rw [← h.mem.validOut]
    exact WriteBackStage.agree_next _ _ _ fun hv => by rw [h.mem.live (.inl (MemStage.valid_of_validOut hv))]
  · simp [Core.next, hp.quiet, h.running]
  · simp [Core.next, hp.quiet', h.running']

theorem Agree.commitNow (h : Agree c c') : System.commitNow c = System.commitNow c' := by
  obtain ⟨hw, hrd, hres⟩ := h.wb.outputs
  unfold System.commitNow
  rw [hw, hrd, hres]

end Core

/-! ## Behind the memory ports -/

namespace System

variable {σ : Type*} {imem : Word → Word} {D : Device σ} {s t : System σ} {cs : List Commit} {as : List Access}

/-- agreeing cores on the same memory; the logs of the first run start with `cs` and `as` -/
structure Agree (cs : List Commit) (as : List Access) (s t : System σ) : Prop where
  core : s.core.Agree t.core
  romAck : s.romAck = t.romAck
  romData : s.romAck = true → s.romData = t.romData
  dev : s.ram.dev = t.ram.dev
  ramAck : s.ram.ack = t.ram.ack
  ramData : s.ram.ack = true → s.ram.data = t.ram.data
  commits : s.commits = cs ++ t.commits
  accesses : s.accesses = as ++ t.accesses

theorem Agree.pins (h : Agree cs as s t) {e : Cycle} (he : e.haltReq = false) : Core.PinsAgree (s.pins e) (t.pins e) :=
  ⟨h.romAck, h.romData, h.ramAck, h.ramData, he, he⟩

/-- what a port does depends on its device, the request and the choices of the environment -/
theorem port_next_congr {p q : Port σ} (hdev : p.dev = q.dev) {req : Bool} {r r' : MemReq} (hr : req = true → r = r')
    (g : Bool) (bus : Word) :
    p.next D req r g bus = q.next D req r' g bus ∧ p.served D req r g = q.served D req r' g := by
  unfold Port.next Port.served
  rw [hdev]
  cases req with
  | true =>
    rw [hr rfl]
    exact ⟨rfl, rfl⟩
  | false => exact ⟨rfl, rfl⟩

/-- **Step.** -/
theorem Agree.next (h : Agree cs as s t) {e : Cycle} (he : e.haltReq = false) :
    Agree cs as (s.next imem D e) (t.next imem D e) := by
  have hp := h.pins he
  have hreq := h.core.ramReq hp
  obtain ⟨hport, hserved⟩ := port_next_congr (D := D) h.dev
    (fun hr => h.core.ramOut (i := s.pins e) (j := t.pins e) hr) e.ramGrant e.ramBus
  have hram : (s.next imem D e).ram = (t.next imem D e).ram := by
    simp only [System.next]
    rw [← hreq]
    exact hport
  refine ⟨h.core.next hp, ?_, ?_, by rw [hram], by rw [hram], fun _ => by rw [hram], ?_, ?_⟩
  · simp only [System.next]
    rw [h.core.romReq hp]
  · intro _
    simp only [System.next]
    rw [h.core.romReq hp, h.core.romAddr hp]
  · simp only [System.next]
    rw [h.commits, h.core.commitNow, List.append_assoc]
  · simp only [System.next]
    rw [h.accesses, Core.mIsHalted_eq_false h.core.running, Core.mIsHalted_eq_false h.core.running', ← hreq, hserved]
    exact List.append_assoc _ _ _

/-! ## Reset -/

/-- `arstn` falls: the reset branches are asynchronous, so the registers take their reset values at once -/
def assertReset (s : System σ) : System σ := { s with core := s.core.reset }

/-- one clock edge with `arstn` low: the core stays in reset, the memories see what the reset core drives -/
def nextReset (imem : Word → Word) (D : Device σ) (s : System σ) (e : Cycle) : System σ :=
  { System.next imem D s.assertReset e with core := s.core.reset }

theorem nextReset_eq (s : System σ) (e : Cycle) :
    s.nextReset imem D e =
      { init s.core s.ram.dev e.romBus e.ramBus with commits := s.commits, accesses := s.accesses } := by
  -- the reset core requests nothing and commits nothing
  have hrom : s.core.reset.romReq (s.assertReset.pins e) = false := rfl
  have hram : s.core.reset.ramReq (s.assertReset.pins e) = false := rfl
  have hcommit : commitNow s.core.reset = [] := rfl
  have hhalt : s.core.reset.mIsHalted = false := rfl
  simp only [nextReset, System.next, assertReset, init, Port.next, Port.served] at hrom hram ⊢
  simp [hrom, hram, hcommit, hhalt]

/-- after any number of clocks in reset only the memory and the logs are left of the state before -/
theorem run_nextReset (s : System σ) (e : ℕ → Cycle) (k : ℕ) :
    Clocked.run (System.nextReset imem D) e s (k + 1) =
      { init s.core s.ram.dev (e k).romBus (e k).ramBus with commits := s.commits, accesses := s.accesses } := by
  induction k with
  | zero => exact nextReset_eq s (e 0)
  | succ k ih =>
    rw [Clocked.run_succ, ih, nextReset_eq]
    rfl

/-- a system out of reset agrees with one started from any other core on the same memory -/
theorem Agree.init (c c' : Core) (d : σ) (romBus ramBus romBus' ramBus' : Word) :
    Agree cs as { init c d romBus ramBus with commits := cs, accesses := as } (init c' d romBus' ramBus') :=
  ⟨.reset c c', rfl, fun h => absurd h Bool.false_ne_true, rfl, rfl, fun h => absurd h Bool.false_ne_true,
    (List.append_nil cs).symm, (List.append_nil as).symm⟩

/-- **Run.** -/
theorem Agree.run (h : Agree cs as s t) {e : ℕ → Cycle} (he : ∀ n, (e n).haltReq = false) (n : ℕ) :
    Agree cs as (Clocked.run (System.next imem D) e s n) (Clocked.run (System.next imem D) e t n) := by
  induction n with
  | zero => exact h
  | succ n ih => exact ih.next (he n)

end System

/-! ## Reset forgets -/

/-- a core with all registers zero -/
def zeroCore : Core where
  fs := ⟨.idle, 0, 0, false, 0⟩
  id := ⟨false, 0, 0, fun _ => 0, fun _ => 0⟩
  ex := ⟨0, 0, 0, 0, 0, .regImm, false, false, false, .loadByte, false, false, false, ⟨false, 0, false⟩,
    ⟨⟨false, 0⟩, ⟨0, ⟨0, 0, 0, false, false⟩, false, 0⟩⟩⟩
  mem := ⟨false, 0, 0, 0, 0, false, false, false, 0, false, .loadByte⟩
  wb := ⟨false, false, false, 0, 0, 0, 0⟩
  haltReqIn := false
  halted := false

example : zeroCore.reset = zeroCore := rfl

/-- **Reset forgets everything except memory.** From any state, whatever its registers hold, and after any number of
clocks in reset (at least one), the core commits, serves and stores at every cycle what a core with all registers zero
does on the memory contents found. -/
theorem reset_forgets {σ : Type*} (imem : Word → Word) (D : Device σ) (s : System σ) (inReset : ℕ → Cycle) (k : ℕ)
    (romBus ramBus : Word) (e : ℕ → Cycle) (hhalt : ∀ n, (e n).haltReq = false) (n : ℕ) :
    let reset := run (System.nextReset imem D) inReset s (k + 1)
    let fresh := System.run imem D zeroCore s.ram.dev romBus ramBus e n
    (run (System.next imem D) e reset n).commits = s.commits ++ fresh.commits ∧
      (run (System.next imem D) e reset n).accesses = s.accesses ++ fresh.accesses ∧
      (run (System.next imem D) e reset n).ram.dev = fresh.ram.dev := by
  intro reset fresh
  have h : System.Agree s.commits s.accesses (run (System.next imem D) e reset n) fresh := by
    rw [show reset = _ from System.run_nextReset s inReset k]
    exact (System.Agree.init s.core zeroCore s.ram.dev _ _ romBus ramBus).run hhalt n
  exact ⟨h.commits, h.accesses, h.dev⟩

/-- a core reset in the middle of a division, with garbage everywhere else -/
theorem reset_forgets_demo :
    let s : System WordMem := ⟨demoCore, true, 7, ⟨fun _ => 0, true, 7⟩, true, [], []⟩
    let reset := run (System.nextReset demoProgram wordDevice) (fun _ => demoCycle) s 1
    let fresh := System.run demoProgram wordDevice zeroCore (fun _ => 0) 0 0 (fun _ => demoCycle) 20
    (run (System.next demoProgram wordDevice) (fun _ => demoCycle) reset 20).commits = [] ++ fresh.commits ∧
      (run (System.next demoProgram wordDevice) (fun _ => demoCycle) reset 20).accesses = [] ++ fresh.accesses ∧
      (run (System.next demoProgram wordDevice) (fun _ => demoCycle) reset 20).ram.dev = fresh.ram.dev :=
  reset_forgets demoProgram wordDevice ⟨demoCore, true, 7, ⟨fun _ => 0, true, 7⟩, true, [], []⟩ (fun _ => demoCycle) 0 0 0
    (fun _ => demoCycle) (fun _ => rfl) 20

end FpgaLearning.ArxCore
