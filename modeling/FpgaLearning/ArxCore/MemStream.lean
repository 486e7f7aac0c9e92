/-
The memory stage against a byte-addressed memory, under an arbitrary environment: operations offered or not, ready, halting,
and a memory that serves the request it sees in any cycle it likes and acks in the next.

- `ExOut.bytesAfter` and `ExOut.loaded` are what an operation does to a little-endian byte memory; `byteAt_wordsAfter` and
  `memVal_eq_loaded` connect them with the request the stage drives and the word it is answered with.
- `MemSession` logs the operations accepted, the outputs handed over and the accesses served. `Phase` is the invariant: where
  the operation in the stage stands, and what the three logs and the memory hold then.
- `exactly_once` is the contract.
-/
import FpgaLearning.ArxCore.Conformance
import FpgaLearning.ArxCore.StageLemmas
import FpgaLearning.Core.Clocked

namespace FpgaLearning.ArxCore

open FpgaLearning.Memory FpgaLearning.Clocked FpgaLearning.Rv32i

/-! ## Operations on bytes -/

def LsType.kind : LsType → LoadOp ⊕ StoreOp
  | .loadByte => .inl .lb
  | .loadByteUnsigned => .inl .lbu
  | .loadHalfword => .inl .lh
  | .loadHalfwordUnsigned => .inl .lhu
  | .loadWord => .inl .lw
  | .storeByte => .inr .sb
  | .storeHalfword => .inr .sh
  | .storeWord => .inr .sw

namespace ExOut

/-- a memory operation has a naturally aligned address -/
def Aligned (o : ExOut) : Prop :=
  o.memOp = true → match o.memOpType.kind with
    | .inl l => o.alu.toNat % l.size = 0
    | .inr st => o.alu.toNat % st.size = 0

instance (o : ExOut) : Decidable o.Aligned := by
  unfold Aligned
  cases o.memOpType.kind <;> exact inferInstance

/-- the bytes of the memory after the operation -/
def bytesAfter (b : Word → Byte) (o : ExOut) : Word → Byte :=
  if o.memOp then
    match o.memOpType.kind with
    | .inl _ => b
    | .inr st => writeBytes b o.alu st.size o.rs2
  else b

/-- what a load returns -/
def loaded (b : Word → Byte) (o : ExOut) : Option Word :=
  if o.memOp then
    match o.memOpType.kind with
    | .inl l => some (l.eval b o.alu)
    | .inr _ => none
  else none

/-- the words of the memory after the request of the operation -/
def wordsAfter (m : WordMem) (o : ExOut) : WordMem := if o.memOp then m.write o.memReq else m

/-- the word the memory answers with -/
def answer (m : WordMem) (o : ExOut) : Word := m (wordIndex o.memReq.addr)

def accesses (m : WordMem) (o : ExOut) : List Access := if o.memOp then [o.memReq.access (o.answer m)] else []

variable {o : ExOut}

theorem kind_load {l : LoadOp} {t : LsType} (h : t.kind = .inl l) : t = loadType l := by
  cases t <;> cases l <;> simp_all [LsType.kind, loadType]

theorem kind_store {st : StoreOp} {t : LsType} (h : t.kind = .inr st) : t = storeType st := by
  cases t <;> cases st <;> simp_all [LsType.kind, storeType]

/-- **Stores** change the bytes they address and no others, loads change none. -/
theorem byteAt_wordsAfter (h : o.Aligned) (m : WordMem) : byteAt (o.wordsAfter m) = o.bytesAfter (byteAt m) := by
  unfold wordsAfter bytesAfter
  split_ifs with hop
  · have ha := h hop
    cases hk : o.memOpType.kind with
    | inl l =>
      have hwe : o.memReq.we = false := by
        simp only [memReq, LoadStoreUnit.request, kind_load hk]
        cases l <;> rfl
      simp [WordMem.write, hwe]
    | inr st =>
      rw [hk] at ha
      have hreq : o.memReq = LoadStoreUnit.request (storeType st) o.alu o.rs2 := by rw [memReq, kind_store hk]
      rw [hreq]
      exact LoadStoreUnit.byteAt_store st m o.alu o.rs2 ha
  · rfl

/-- **Loads** return the bytes they address. -/
theorem memVal_eq_loaded (h : o.Aligned) {m : WordMem} {v : Word} (hv : o.loaded (byteAt m) = some v) :
    o.memVal (o.answer m) = v := by
  unfold loaded at hv
  split_ifs at hv with hop
  have ha := h hop
  cases hk : o.memOpType.kind with
  | inl l =>
    rw [hk] at hv ha
    obtain rfl := Option.some.inj hv
    have haddr : wordIndex o.memReq.addr = wordIndex o.alu := wordIndex_memAddr o.alu
    rw [memVal, answer, kind_load hk, haddr]
    exact LoadStoreUnit.readData_load l m o.alu ha
  | inr st => rw [hk] at hv; cases hv

/-- the answer to a store is not looked at -/
theorem memVal_store (h : o.memReq.we = true) (data data' : Word) : o.memVal data = o.memVal data' := by
  have hwe : LoadStoreUnit.writeEn o.memOpType = true := h
  cases ht : o.memOpType <;> simp_all [memVal, LoadStoreUnit.readData, LoadStoreUnit.writeEn]

end ExOut

/-! ## Sequences of operations -/

/-- the operations one after another, on bytes and on words -/
def bytesAfter (b : Word → Byte) (l : List ExOut) : Word → Byte := l.foldl ExOut.bytesAfter b

def wordsAfter (m : WordMem) (l : List ExOut) : WordMem := l.foldl ExOut.wordsAfter m

/-- the accesses of the operations, each once and in order -/
def accessesOf (m : WordMem) : List ExOut → List Access
  | [] => []
  | o :: l => o.accesses m ++ accessesOf (o.wordsAfter m) l

theorem wordsAfter_snoc (m : WordMem) (l : List ExOut) (o : ExOut) :
    wordsAfter m (l ++ [o]) = o.wordsAfter (wordsAfter m l) := by
  simp [wordsAfter]

theorem accessesOf_snoc (m : WordMem) (l : List ExOut) (o : ExOut) :
    accessesOf m (l ++ [o]) = accessesOf m l ++ o.accesses (wordsAfter m l) := by
  induction l generalizing m with
  | nil => simp [accessesOf, wordsAfter]
  | cons p l ih => simp [accessesOf, ih, wordsAfter]

theorem byteAt_wordsAfter (m : WordMem) {l : List ExOut} (h : ∀ o ∈ l, o.Aligned) :
    byteAt (wordsAfter m l) = bytesAfter (byteAt m) l := by
  induction l generalizing m with
  | nil => rfl
  | cons o l ih =>
    have ho : o.Aligned := h o (List.mem_cons_self ..)
    show byteAt (wordsAfter (o.wordsAfter m) l) = bytesAfter (o.bytesAfter (byteAt m)) l
    rw [ih _ fun p hp => h p (List.mem_cons_of_mem o hp), ExOut.byteAt_wordsAfter ho]

/-- the output of an operation that finds the bytes `b` -/
structure Answers (b : Word → Byte) (o : ExOut) (r : MemOut) : Prop where
  rd : r.rd = o.rd
  pc : r.pc = o.pc
  regWrite : r.regWrite = o.regWrite
  memToReg : r.memToReg = o.memToReg
  aluRes : r.aluRes = o.alu
  memVal : ∀ v, o.loaded b = some v → r.memVal = v

/-- outputs in the order of the operations, one each; an operation finds the bytes the ones before it left -/
inductive Answered (b : Word → Byte) : List ExOut → List MemOut → Prop
  | nil : Answered b [] []
  | snoc {l : List ExOut} {outs : List MemOut} {o : ExOut} {r : MemOut} (h : Answered b l outs)
      (ho : Answers (bytesAfter b l) o r) : Answered b (l ++ [o]) (outs ++ [r])

theorem Answered.length_eq {b : Word → Byte} {l : List ExOut} {outs : List MemOut} (h : Answered b l outs) :
    outs.length = l.length := by
  induction h with
  | nil => rfl
  | snoc _ _ ih => rw [List.length_append, List.length_append, ih]; rfl

/-! ## Sessions -/

/-- what the environment drives in one cycle -/
structure MemIn where
  haltReqIn : Bool
  validIn : Bool
  op : ExOut
  readyOut : Bool
  grant : Bool
  bus : Word

structure MemSession where
  stage : MemStage.St
  port : Port WordMem
  accepted : List ExOut
  outs : List MemOut
  served : List Access

namespace MemSession

open MemStage

variable (s : MemSession) (i : MemIn)

def accepts : Bool := i.validIn && readyIn s.stage i.haltReqIn i.readyOut

def hands : Bool := validOut s.stage i.haltReqIn && i.readyOut

def request : Bool := memReqOut s.stage s.port.ack

def step : MemSession where
  stage := next s.stage i.haltReqIn i.validIn i.readyOut i.op s.port.ack s.port.data
  port := Port.next wordDevice s.port s.request (memOut s.stage) i.grant i.bus
  accepted := if s.accepts i then s.accepted ++ [i.op] else s.accepted
  outs := if s.hands i then s.outs ++ [out s.stage] else s.outs
  served := s.served ++ Port.served wordDevice s.port s.request (memOut s.stage) i.grant

/-- out of reset, from any register contents, with nothing served in the cycle before -/
def start (m : MemStage.St) (m0 : WordMem) (bus : Word) : MemSession := ⟨reset m, ⟨m0, false, bus⟩, [], [], []⟩

def after (m : MemStage.St) (m0 : WordMem) (bus : Word) (inp : ℕ → MemIn) (n : ℕ) : MemSession :=
  run step inp (start m m0 bus) n

/-- the memory has served the operations `l` and nothing else -/
structure Served (m0 : WordMem) (s : MemSession) (l : List ExOut) : Prop where
  dev : s.port.dev = wordsAfter m0 l
  log : s.served = accessesOf m0 l

/-- where the operation in the stage stands; `l` are the operations before it -/
inductive Phase (m0 : WordMem) (s : MemSession) (l : List ExOut) : List ExOut → Prop
  | empty (hx : Empty s.stage) (hack : s.port.ack = false) (hs : Served m0 s l) : Phase m0 s l []
  | waiting (o : ExOut) (hx : Waiting s.stage o) (hack : s.port.ack = false) (hs : Served m0 s l) : Phase m0 s l [o]
  | acked (o : ExOut) (hx : Waiting s.stage o) (hack : s.port.ack = true)
      (hdata : o.memVal s.port.data = o.memVal (o.answer (wordsAfter m0 l))) (hs : Served m0 s (l ++ [o])) : Phase m0 s l [o]
  | done (o : ExOut) (hx : Done s.stage o (o.answer (wordsAfter m0 l))) (hack : s.port.ack = false)
      (hs : Served m0 s (l ++ [o])) : Phase m0 s l [o]

/-- the operations before the one in the stage have been answered -/
structure Inv (m0 : WordMem) (s : MemSession) (l p : List ExOut) : Prop where
  accepted : s.accepted = l ++ p
  aligned : ∀ o ∈ s.accepted, o.Aligned
  answered : Answered (byteAt m0) l s.outs
  phase : Phase m0 s l p

variable {s i} {m0 : WordMem} {l p : List ExOut}

/-- nothing is served in a cycle without a request -/
theorem Served.quiet (h : Served m0 s l) (hr : s.request = false) (i : MemIn) :
    Served m0 (s.step i) l ∧ (s.step i).port.ack = false := by
  refine ⟨⟨?_, ?_⟩, ?_⟩ <;> simp [step, Port.next, Port.served, hr, h.dev, h.log]

/-- an operation with its access behind it is not requested again -/
theorem skip_served {o : ExOut} (hop : o.memOp = false) (h : Served m0 s l) : Served m0 s (l ++ [o]) := by
  refine ⟨?_, ?_⟩
  · rw [wordsAfter_snoc, ExOut.wordsAfter, hop, h.dev]; rfl
  · rw [accessesOf_snoc, ExOut.accesses, hop, h.log]; simp

theorem request_of_ack (hack : s.port.ack = true) : s.request = false := by simp [request, memReqOut, hack]

theorem request_of_quiet (hq : s.stage.memRequest = false) : s.request = false := by simp [request, memReqOut, hq]

/-- the output in the last phase is the answer -/
theorem answers_of_done {o : ExOut} (h : Done s.stage o (o.answer (wordsAfter m0 l))) (ho : o.Aligned)
    (hl : ∀ o ∈ l, o.Aligned) : Answers (bytesAfter (byteAt m0) l) o (out s.stage) := by
  refine ⟨h.rd, h.pc, h.regWrite, h.memToReg, h.alu, fun v hv => ?_⟩
  rw [← byteAt_wordsAfter m0 hl] at hv
  have hop : o.memOp = true := by
    by_contra hop
    simp [ExOut.loaded, hop] at hv
  exact (h.loaded hop).trans (ExOut.memVal_eq_loaded ho hv)

/-- **Enter.** The stage is free: it takes the operation offered, or stays empty. -/
theorem phase_enter (hq : s.stage.memRequest = false) (hs : Served m0 s l)
    (hfree : s.accepts i = false → Empty (s.step i).stage) :
    Phase m0 (s.step i) l (if s.accepts i then [i.op] else []) := by
  obtain ⟨hs', hack'⟩ := hs.quiet (request_of_quiet hq) i
  cases hacc : s.accepts i with
  | false => exact .empty (hfree hacc) hack' hs'
  | true =>
    obtain ⟨hv, hr⟩ := Bool.and_eq_true_iff.1 hacc
    have hnext := next_accept i.op (i.op.answer (wordsAfter m0 l)) s.port.ack s.port.data hr hq
    have hstage : (s.step i).stage = next s.stage i.haltReqIn true i.readyOut i.op s.port.ack s.port.data := by
      simp only [step, hv]
    rw [← hstage] at hnext
    cases hop : i.op.memOp with
    | true =>
      rw [hop, if_pos rfl] at hnext
      exact .waiting _ hnext hack' hs'
    | false =>
      rw [hop, if_neg Bool.false_ne_true] at hnext
      exact .done _ hnext hack' (skip_served hop hs')

/-- **Wait.** One cycle of an operation whose request is high: served or not. -/
theorem phase_waiting {o : ExOut} (hx : Waiting s.stage o) (hack : s.port.ack = false) (hs : Served m0 s l) (i : MemIn) :
    Phase m0 (s.step i) l [o] := by
  have hreq : s.request = true := by simp [request, memReqOut, hx.request, hack]
  have hx' : Waiting (s.step i).stage o := by
    have := next_waiting hx i.haltReqIn i.validIn i.readyOut i.op s.port.data
    rwa [← hack] at this
  cases hg : i.grant with
  | false =>
    refine .waiting o hx' (by simp [step, Port.next, hg]) ⟨?_, ?_⟩
    · simp [step, Port.next, hg, hs.dev]
    · simp [step, Port.served, hg, hs.log]
  | true =>
    refine .acked o hx' (by simp [step, Port.next, hreq, hg]) ?_ ⟨?_, ?_⟩
    · cases hwe : o.memReq.we with
      | true => exact ExOut.memVal_store hwe _ _
      | false => simp [step, Port.next, hreq, hg, hx.memOut, hwe, wordDevice, hs.dev, ExOut.answer]
    · rw [wordsAfter_snoc, ExOut.wordsAfter, hx.memOp, ← hs.dev]
      simp [step, Port.next, hreq, hg, hx.memOut, wordDevice]
    · rw [accessesOf_snoc, ExOut.accesses, hx.memOp, ← hs.log, ← hs.dev]
      simp [step, Port.served, hreq, hg, hx.memOut, wordDevice, ExOut.answer]

theorem step_accepted (s : MemSession) (i : MemIn) :
    (s.step i).accepted = s.accepted ++ if s.accepts i then [i.op] else [] := by
  cases h : s.accepts i <;> simp [step, h]

theorem step_outs (s : MemSession) (i : MemIn) :
    (s.step i).outs = s.outs ++ if s.hands i then [out s.stage] else [] := by
  cases h : s.hands i <;> simp [step, h]

/-- only aligned operations are accepted -/
theorem aligned_step (h : ∀ o ∈ s.accepted, o.Aligned) (hi : i.validIn = true → i.op.Aligned) :
    ∀ o ∈ (s.step i).accepted, o.Aligned := by
  intro o ho
  rw [step_accepted] at ho
  rcases List.mem_append.1 ho with hold | hnew
  · exact h o hold
  · split_ifs at hnew with hacc
    · obtain rfl := List.mem_singleton.1 hnew
      exact hi (Bool.and_eq_true_iff.1 hacc).1
    · cases hnew

/-- an operation that stays in the stage: nothing is accepted and nothing handed over -/
theorem Inv.stay {o : ExOut} (h : Inv m0 s l [o]) (hi : i.validIn = true → i.op.Aligned) (hacc : s.accepts i = false)
    (hhand : s.hands i = false) (hp : Phase m0 (s.step i) l [o]) : Inv m0 (s.step i) l [o] := by
  refine ⟨?_, aligned_step h.aligned hi, ?_, hp⟩
  · rw [step_accepted, hacc, h.accepted]
    simp
  · rw [step_outs, hhand]
    simpa using h.answered

/-- **Stage step.** -/
theorem Inv.step (h : Inv m0 s l p) (hi : i.validIn = true → i.op.Aligned) : ∃ l' p', Inv m0 (s.step i) l' p' := by
  cases h.phase with
  | empty hx hack hs =>
    have hhand : s.hands i = false := by simp [hands, hx.validOut]
    refine ⟨l, _, ⟨?_, aligned_step h.aligned hi, ?_, phase_enter hx.quiet hs fun hacc => ?_⟩⟩
    · rw [step_accepted, h.accepted, List.append_nil]
    · rw [step_outs, hhand]
      simpa using h.answered
    · exact next_empty hx _ _ hacc
  | waiting o hx hack hs =>
    have hacc : s.accepts i = false := by simp [accepts, hx.readyIn]
    have hhand : s.hands i = false := by simp [hands, hx.validOut]
    exact ⟨l, [o], h.stay hi hacc hhand (phase_waiting hx hack hs i)⟩
  | acked o hx hack hdata hs =>
    have hacc : s.accepts i = false := by simp [accepts, hx.readyIn]
    have hhand : s.hands i = false := by simp [hands, hx.validOut]
    obtain ⟨hs', hack'⟩ := hs.quiet (request_of_ack hack) i
    have hx' := next_ack hx i.haltReqIn i.validIn i.readyOut i.op hdata
    rw [← hack] at hx'
    exact ⟨l, [o], h.stay hi hacc hhand (.done o hx' hack' hs')⟩
  | done o hx hack hs =>
    have hlast : ∀ o' ∈ l ++ [o], o'.Aligned := by rw [← h.accepted]; exact h.aligned
    cases hr : (!i.haltReqIn && i.readyOut) with
    | false =>
      have hacc : s.accepts i = false := by rw [accepts, hx.readyIn, hr, Bool.and_false]
      have hhand : s.hands i = false := by rw [hands, hx.validOut, hr]
      obtain ⟨hs', hack'⟩ := hs.quiet (request_of_quiet hx.quiet) i
      exact ⟨l, [o], h.stay hi hacc hhand (.done o (next_done hx i.op _ hr) hack' hs')⟩
    | true =>
      -- the result leaves, and the next operation may enter in the same cycle
      have hhand : s.hands i = true := by rw [hands, hx.validOut, hr]
      have hans := answers_of_done hx (hlast o (List.mem_append_right l (List.mem_singleton_self o)))
        fun o' ho' => hlast o' (List.mem_append_left [o] ho')
      refine ⟨l ++ [o], _, ⟨?_, aligned_step h.aligned hi, ?_, phase_enter hx.quiet hs fun hacc => ?_⟩⟩
      · rw [step_accepted, h.accepted]
      · rw [step_outs, hhand]
        exact h.answered.snoc hans
      · obtain ⟨hh, hready⟩ := Bool.and_eq_true_iff.1 hr
        have hv : i.validIn = false := by simpa [accepts, hx.readyIn, hr] using hacc
        have hhalt : i.haltReqIn = false := by simpa using hh
        have hdrain : Empty (next s.stage false false i.readyOut i.op s.port.ack s.port.data) :=
          next_drain hx _ _ hready
        simpa only [MemSession.step, hv, hhalt] using hdrain

theorem Inv.start (m : St) (m0 : WordMem) (bus : Word) : Inv m0 (start m m0 bus) [] [] :=
  ⟨rfl, fun _ h => absurd h List.not_mem_nil, .nil, .empty ⟨rfl, rfl⟩ rfl ⟨rfl, rfl⟩⟩

/-! ## The contract -/

section Contract

variable (m : St) (m0 : WordMem) (bus : Word) (inp : ℕ → MemIn)

/-- every operation offered is naturally aligned -/
def OffersAligned : Prop := ∀ n, (inp n).validIn = true → (inp n).op.Aligned

/-- the reader takes results and the memory serves requests again and again -/
structure Fair : Prop where
  ready : ∀ n, ∃ k, n ≤ k ∧ (!(inp k).haltReqIn && (inp k).readyOut) = true
  grant : ∀ n, ∃ k, n ≤ k ∧ (inp k).grant = true

/-- outputs in acceptance order and with the operation's own data, every access served once and nothing else, memory and
loads those of a little-endian byte memory; under fairness every accepted operation is answered -/
structure ExactlyOnce : Prop where
  outs : ∀ n, ∃ l p, (after m m0 bus inp n).accepted = l ++ p ∧ p.length ≤ 1 ∧
    Answered (byteAt m0) l (after m m0 bus inp n).outs
  served : ∀ n, ∃ l p, (after m m0 bus inp n).accepted = l ++ p ∧ p.length ≤ 1 ∧
    (after m m0 bus inp n).outs.length ≤ l.length ∧ (after m m0 bus inp n).served = accessesOf m0 l ∧
    byteAt (after m m0 bus inp n).port.dev = bytesAfter (byteAt m0) l
  answered : Fair inp → ∀ n, ∃ k, (after m m0 bus inp n).accepted.length ≤ (after m m0 bus inp k).outs.length

end Contract

/-! ## Runs -/

variable {m : St} {bus : Word} {inp : ℕ → MemIn}

theorem run_inv (ho : OffersAligned inp) (n : ℕ) : ∃ l p, Inv m0 (after m m0 bus inp n) l p := by
  refine Clocked.run_inv (fun s => ∃ l p, Inv m0 s l p)
    (fun (_ : MemSession) (i : MemIn) => i.validIn = true → i.op.Aligned) ⟨[], [], Inv.start m m0 bus⟩ ?_ ho n
  rintro s i ⟨l, p, h⟩ hok
  exact h.step hok

theorem accepted_mono {n k : ℕ} (hnk : n ≤ k) :
    (after m m0 bus inp n).accepted <+: (after m m0 bus inp k).accepted :=
  log_prefix MemSession.accepted (fun s i => step_accepted s i ▸ List.prefix_append _ _) hnk

theorem Inv.length_le_one (h : Inv m0 s l p) : p.length ≤ 1 := by
  cases h.phase <;> simp

/-! ### Progress -/

/-- the operation in the stage needs no access any more -/
def Ready (s : MemSession) : Prop := s.stage.validInInternal = true ∧ s.stage.memDataValid = true

/-- the request of the operation in the stage is high -/
def Requests (s : MemSession) : Prop := (∃ o, Waiting s.stage o) ∧ s.port.ack = false

theorem Ready.step (h : Ready s) (hr : (!i.haltReqIn && i.readyOut) = false) : Ready (s.step i) := by
  obtain ⟨hv, hd⟩ := h
  have hready : readyIn s.stage i.haltReqIn i.readyOut = false := by
    cases hh : i.haltReqIn <;> simp_all [readyIn, validOut]
  constructor
  · cases hh : i.haltReqIn <;> simp_all [MemSession.step, next, validOut]
  · simp [MemSession.step, next, hready, hd]

theorem Ready.hands (h : Ready s) (hr : (!i.haltReqIn && i.readyOut) = true) : s.hands i = true := by
  obtain ⟨hh, hready⟩ := Bool.and_eq_true_iff.1 hr
  simp_all [MemSession.hands, validOut, h.1, h.2]

theorem Requests.step (h : Requests s) (hg : i.grant = false) : Requests (s.step i) := by
  obtain ⟨⟨o, hx⟩, hack⟩ := h
  refine ⟨⟨o, ?_⟩, by simp [MemSession.step, Port.next, hg]⟩
  have := next_waiting hx i.haltReqIn i.validIn i.readyOut i.op s.port.data
  rwa [← hack] at this

/-- an access served is acknowledged and over one cycle later -/
theorem ready_of_ack {o : ExOut} (hx : Waiting s.stage o) (hack : s.port.ack = true) (i : MemIn) : Ready (s.step i) := by
  have hd : Done (next s.stage i.haltReqIn i.validIn i.readyOut i.op true s.port.data) o s.port.data :=
    next_ack hx _ _ _ _ rfl
  rw [← hack] at hd
  exact ⟨hd.valid, hd.dataValid⟩

theorem answered_of_ready (ho : OffersAligned inp) (hf : Fair inp) {n : ℕ} (h : Ready (after m m0 bus inp n)) :
    ∃ k, n ≤ k ∧ (after m m0 bus inp k).accepted.length ≤ (after m m0 bus inp (k + 1)).outs.length := by
  obtain ⟨k, hnk, hk, hr⟩ := lasts_until (P := fun n => Ready (after m m0 bus inp n))
    (fun n hn hq => hn.step (Bool.eq_false_iff.2 hq)) hf.ready h
  obtain ⟨l, p, hinv⟩ : ∃ l p, Inv m0 (after m m0 bus inp k) l p := run_inv ho k
  refine ⟨k, hnk, ?_⟩
  have hout : (after m m0 bus inp (k + 1)).outs = _ := step_outs (after m m0 bus inp k) (inp k)
  rw [hout, hk.hands hr, hinv.accepted, if_pos rfl, List.length_append, List.length_append, hinv.answered.length_eq]
  have := hinv.length_le_one
  simp only [List.length_singleton]
  omega

theorem ready_of_requests (hf : Fair inp) {n : ℕ} (h : Requests (after m m0 bus inp n)) :
    ∃ k, n ≤ k ∧ Ready (after m m0 bus inp k) := by
  obtain ⟨k, hnk, ⟨⟨o, hx⟩, hack⟩, hg⟩ := lasts_until (P := fun n => Requests (after m m0 bus inp n))
    (fun n hn hq => hn.step (Bool.eq_false_iff.2 hq)) hf.grant h
  have hreq : (after m m0 bus inp k).request = true := by simp [request, memReqOut, hx.request, hack]
  have hx' : Waiting (after m m0 bus inp (k + 1)).stage o := by
    have := next_waiting hx (inp k).haltReqIn (inp k).validIn (inp k).readyOut (inp k).op (after m m0 bus inp k).port.data
    rwa [← hack] at this
  have hack' : (after m m0 bus inp (k + 1)).port.ack = true := by
    show (Port.next wordDevice _ (after m m0 bus inp k).request _ (inp k).grant _).ack = true
    simp [Port.next, hreq, hg]
  exact ⟨k + 2, by omega, ready_of_ack hx' hack' (inp (k + 1))⟩

/-- **Progress.** -/
theorem answered (ho : OffersAligned inp) (hf : Fair inp) (n : ℕ) :
    ∃ k, (after m m0 bus inp n).accepted.length ≤ (after m m0 bus inp k).outs.length := by
  obtain ⟨l, p, h⟩ : ∃ l p, Inv m0 (after m m0 bus inp n) l p := run_inv ho n
  -- from any cycle in which the operation has its access behind it
  have hlater : ∀ k, n ≤ k → Ready (after m m0 bus inp k) →
      ∃ k', (after m m0 bus inp n).accepted.length ≤ (after m m0 bus inp k').outs.length := by
    intro k hnk hk
    obtain ⟨k', hk', hle⟩ := answered_of_ready ho hf hk
    exact ⟨k' + 1, (accepted_mono (hnk.trans hk')).length_le.trans hle⟩
  cases h.phase with
  | empty hx hack hs => exact ⟨n, by rw [h.accepted, h.answered.length_eq, List.append_nil]⟩
  | waiting o hx hack hs =>
    obtain ⟨k, hnk, hk⟩ := ready_of_requests hf ⟨⟨o, hx⟩, hack⟩
    exact hlater k hnk hk
  | acked o hx hack hdata hs => exact hlater (n + 1) (Nat.le_succ n) (ready_of_ack hx hack (inp n))
  | done o hx hack hs => exact hlater n le_rfl ⟨hx.valid, hx.dataValid⟩

/-- what the memory has served is a prefix of the operations that reaches past the outputs -/
theorem Inv.served (h : Inv m0 s l p) : ∃ l' p', s.accepted = l' ++ p' ∧ p'.length ≤ 1 ∧ s.outs.length ≤ l'.length ∧
    s.served = accessesOf m0 l' ∧ byteAt s.port.dev = bytesAfter (byteAt m0) l' := by
  have halign := h.aligned
  rw [h.accepted] at halign ⊢
  have hlen := h.answered.length_eq
  have hbytes : ∀ l', Served m0 s l' → (∀ o ∈ l', o.Aligned) → byteAt s.port.dev = bytesAfter (byteAt m0) l' :=
    fun l' hs hl => by rw [hs.dev, byteAt_wordsAfter m0 hl]
  cases h.phase with
  | empty hx hack hs => exact ⟨l, [], rfl, by simp, hlen.le, hs.log, hbytes l hs (by simpa using halign)⟩
  | waiting o hx hack hs =>
    exact ⟨l, [o], rfl, le_rfl, hlen.le, hs.log, hbytes l hs fun o' ho' => halign o' (List.mem_append_left [o] ho')⟩
  | acked o hx hack hdata hs =>
    exact ⟨l ++ [o], [], (List.append_nil _).symm, by simp, by simp [hlen], hs.log, hbytes _ hs halign⟩
  | done o hx hack hs =>
    exact ⟨l ++ [o], [], (List.append_nil _).symm, by simp, by simp [hlen], hs.log, hbytes _ hs halign⟩

/-- **The memory stage.** -/
theorem exactly_once (m : St) (m0 : WordMem) (bus : Word) (inp : ℕ → MemIn) (ho : OffersAligned inp) :
    ExactlyOnce m m0 bus inp := by
  refine ⟨fun n => ?_, fun n => ?_, answered ho⟩
  · obtain ⟨l, p, h⟩ := run_inv ho n
    exact ⟨l, p, h.accepted, h.length_le_one, h.answered⟩
  · obtain ⟨l, p, h⟩ := run_inv ho n
    exact h.served

/-- SB to byte address 5 and LHU from byte address 4 in turn, a memory that takes a cycle now and then -/
def storesAndLoads (n : ℕ) : MemIn where
  haltReqIn := false
  validIn := true
  op := if n % 2 = 0 then ⟨5, 0xAB, 0, 0, false, false, true, .storeByte⟩
    else ⟨4, 0, 7, 4, true, true, true, .loadHalfwordUnsigned⟩
  readyOut := true
  grant := n % 3 != 0
  bus := 0

theorem exactly_once_demo : ExactlyOnce ⟨false, 0, 0, 0, 0, false, false, false, 0, false, .loadByte⟩ (fun _ => 0) 0
    storesAndLoads := by
  refine exactly_once _ _ _ _ fun n _ => ?_
  show ExOut.Aligned (if n % 2 = 0 then _ else _)
  split_ifs
  · decide
  · decide

end MemSession

end FpgaLearning.ArxCore
