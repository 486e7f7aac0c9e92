/-
The execute stage between an issuer and a receiver that may refuse: one instruction at a time, each handed over once.

`ExecSession` is the stage with the instructions it accepted and the results it handed over, oldest first. The three units
share the stage registers, so nothing can be said of a result before it is known that only one unit is occupied:
- `Units` says which units are occupied and `ExecSession.Inv` that they are those of the one instruction held, if any;
- `Inv.step` moves the instruction from accepted to held to handed over;
- `one_at_a_time` is the contract, with the cycle by which a held instruction leaves and the cycles of the redirect.

Halt requests and refusals are arbitrary. The issuer enables exactly one of the two units.
-/
import FpgaLearning.ArxCore.StageLemmas

namespace FpgaLearning.ArxCore

open FpgaLearning.Memory

namespace ExecStage

variable {x : St} {i : IdOut}

/-! ## Occupied units -/

def aluOccupied (x : St) : Bool := x.ialu.validOut

def mulOccupied (x : St) : Bool := x.imdu.mul.validOut

/-- busy or with a result -/
def divOccupied (x : St) : Bool := IDIV.busy x.imdu.div || x.imdu.div.validOut

/-- some unit holds an instruction -/
def occupied (x : St) : Bool := aluOccupied x || mulOccupied x || divOccupied x

/-- at most one unit is occupied, and the latched enables select it -/
structure Units (x : St) : Prop where
  one : (aluOccupied x).toNat + (mulOccupied x).toNat + (divOccupied x).toNat ≤ 1
  alu : aluOccupied x = true → x.mAluEnIn = true ∧ x.mMduEnIn = false
  mdu : (mulOccupied x || divOccupied x) = true → x.mAluEnIn = false ∧ x.mMduEnIn = true

theorem Empty.occupied (h : Empty x) : occupied x = false := by
  simp [ExecStage.occupied, aluOccupied, mulOccupied, divOccupied, IDIV.busy, h.alu, h.mul, h.div.1, h.div.2]

theorem Empty.units (h : Empty x) : Units x := by
  have hno := h.occupied
  simp only [ExecStage.occupied, Bool.or_eq_false_iff] at hno
  obtain ⟨⟨ha, hm⟩, hd⟩ := hno
  constructor <;> simp [ha, hm, hd]

theorem divOccupied_of_idle (h : IDIV.Idle x.imdu.div) : divOccupied x = false := by
  simp [divOccupied, IDIV.busy, h.1, h.2]

theorem divOccupied_of_holds {op : MduOp} {a b : Word} (h : IDIV.Holds x.imdu.div op a b) : divOccupied x = true := by
  rcases h with ⟨hc, -⟩ | ⟨-, hv, -⟩
  · have hb : IDIV.busy x.imdu.div = true := by simpa [IDIV.busy] using hc
    simp [divOccupied, hb]
  · simp [divOccupied, hv]

/-- which units a held instruction occupies -/
theorem Holds.occupancy (h : Holds x i) : aluOccupied x = i.d.aluEn ∧
    mulOccupied x = (!i.d.aluEn && IMDU.mulOp i.d.mduOp) ∧ divOccupied x = (!i.d.aluEn && !IMDU.mulOp i.d.mduOp) := by
  cases h.unit with
  | alu he ha hm hd => simp [aluOccupied, mulOccupied, divOccupied_of_idle hd, ha, hm, he]
  | mul he ho ha hm hd => simp [aluOccupied, mulOccupied, divOccupied_of_idle hd, ha, hm, he, ho]
  | div he ho ha hm hd => simp [aluOccupied, mulOccupied, divOccupied_of_holds hd, ha, hm, he, ho]

theorem Holds.occupied (h : Holds x i) : occupied x = true := by
  obtain ⟨ha, hm, hd⟩ := h.occupancy
  rw [ExecStage.occupied, ha, hm, hd]
  cases i.d.aluEn <;> cases IMDU.mulOp i.d.mduOp <;> rfl

theorem Holds.units (h : Holds x i) : Units x := by
  obtain ⟨ha, hm, hd⟩ := h.occupancy
  have hen := h.latched.aluEn
  have hmen := h.latched.mduEn
  rw [h.one] at hmen
  constructor
  · rw [ha, hm, hd]
    cases i.d.aluEn <;> cases IMDU.mulOp i.d.mduOp <;> decide
  · intro hal
    rw [ha] at hal
    simp [hen, hmen, hal]
  · intro hmd
    rw [hm, hd] at hmd
    have hal : i.d.aluEn = false := by
      cases he : i.d.aluEn
      · rfl
      · simp [he] at hmd
    simp [hen, hmen, hal]

/-- an accepting stage is empty or hands over -/
theorem Holds.hands_of_ready (h : Holds x i) {halt r : Bool} (hr : ExecStage.readyIn x halt r = true) :
    (ExecStage.validOut x halt && r) = true := by
  rw [h.validOut, ← h.readyIn, hr]

/-- cycles until the result of a held instruction is there -/
def remaining (x : St) : ℕ := x.imdu.div.cnt.toNat

theorem Holds.done_iff (h : Holds x i) : done x = true ↔ remaining x = 0 := by
  have hidle : IDIV.Idle x.imdu.div → remaining x = 0 := fun hd => by simp [remaining, hd.1]
  cases h.unit with
  | alu he ha hm hd => simp [done, ha, hidle hd]
  | mul he ho ha hm hd => simp [done, hm, hidle hd]
  | div he ho ha hm hd =>
    rcases hd with ⟨hc, -, hv, -⟩ | ⟨hc, hv, -⟩
    · have hne : x.imdu.div.cnt.toNat ≠ 0 := fun h0 => hc (BitVec.eq_of_toNat_eq (by simpa using h0))
      simp [done, remaining, ha, hm, hv, hne]
    · simp [done, remaining, hv, hc]

theorem Holds.remaining_le (h : Holds x i) : remaining x ≤ 33 := by
  have hidle : IDIV.Idle x.imdu.div → remaining x ≤ 33 := fun hd => by simp [remaining, hd.1]
  cases h.unit with
  | alu he ha hm hd => exact hidle hd
  | mul he ho ha hm hd => exact hidle hd
  | div he ho ha hm hd =>
    rcases hd with ⟨-, hle, -, -⟩ | ⟨hc, -, -⟩
    · exact hle
    · simp [remaining, hc]

/-- the divider counts down in every cycle, halted or not -/
theorem remaining_next {halt v r : Bool} (j : IdOut) (hf : (ExecStage.readyIn x halt r && v) = false) :
    remaining (next x halt v r j) = remaining x - 1 := by
  simp only [remaining, next, hf, Bool.false_and, IMDU.next, IDIV.next]
  by_cases hc : x.imdu.div.cnt = 0
  · have hb : IDIV.busy x.imdu.div = false := by simp [IDIV.busy, hc]
    simp [hb, hc, apply_ite IDIV.St.cnt]
  · have hb : IDIV.busy x.imdu.div = true := by simpa [IDIV.busy] using hc
    have hpos : 0 < x.imdu.div.cnt.toNat :=
      Nat.pos_of_ne_zero fun h0 => hc (BitVec.eq_of_toNat_eq (by simpa using h0))
    rw [if_pos hb]
    exact BitVec.toNat_sub_of_le (BitVec.le_def.2 hpos)

end ExecStage

/-! ## Sessions -/

/-- what the neighbours and the halt control drive in one cycle -/
structure ExecIn where
  haltReqIn : Bool
  validIn : Bool
  readyOut : Bool
  insn : IdOut

/-- exactly one unit is enabled in every offer -/
def OneUnit (i : ExecIn) : Prop := i.validIn = true → i.insn.d.mduEn = !i.insn.d.aluEn

/-- the stage with the instructions it accepted and the results it handed over, oldest first -/
structure ExecSession where
  stage : ExecStage.St
  accepted : List IdOut
  handed : List ExOut

namespace ExecSession

def accepts (s : ExecSession) (i : ExecIn) : Bool := ExecStage.readyIn s.stage i.haltReqIn i.readyOut && i.validIn

def hands (s : ExecSession) (i : ExecIn) : Bool := ExecStage.validOut s.stage i.haltReqIn && i.readyOut

def redirects (s : ExecSession) (i : ExecIn) : Bool := ExecStage.pcWeOut s.stage i.haltReqIn i.readyOut

def step (s : ExecSession) (i : ExecIn) : ExecSession where
  stage := ExecStage.next s.stage i.haltReqIn i.validIn i.readyOut i.insn
  accepted := if s.accepts i then s.accepted ++ [i.insn] else s.accepted
  handed := if s.hands i then s.handed ++ [ExecStage.out s.stage] else s.handed

/-- out of reset, from any register contents -/
def start (x : ExecStage.St) : ExecSession := ⟨ExecStage.reset x, [], []⟩

def after (x : ExecStage.St) (inp : ℕ → ExecIn) (n : ℕ) : ExecSession := Clocked.run step inp (start x) n

/-- the stage is empty or holds one instruction -/
inductive Held (x : ExecStage.St) : List IdOut → Prop
  | empty (h : ExecStage.Empty x) : Held x []
  | one {i : IdOut} (h : ExecStage.Holds x i) : Held x [i]

/-- **Conservation.** Every accepted instruction has been handed over with its own result, except the one held. -/
structure Inv (s : ExecSession) (p : List IdOut) : Prop where
  held : Held s.stage p
  split : ∃ l, s.accepted = l ++ p ∧ s.handed = l.map ExecStage.exOut

variable {s : ExecSession} {p : List IdOut}

theorem Inv.start (x : ExecStage.St) : Inv (start x) [] :=
  ⟨.empty ⟨rfl, rfl, rfl, rfl⟩, [], rfl, rfl⟩

theorem Held.length_le_one {x : ExecStage.St} (h : Held x p) : p.length ≤ 1 := by
  cases h <;> simp

theorem Held.units {x : ExecStage.St} (h : Held x p) : ExecStage.Units x := by
  cases h with
  | empty h => exact h.units
  | one h => exact h.units

/-- what is held when an instruction is accepted is handed over in the same cycle -/
theorem Held.leaves (h : Held s.stage p) {i : ExecIn} (hacc : s.accepts i = true) :
    (if s.hands i then [] else p) = [] := by
  obtain ⟨hr, -⟩ := Bool.and_eq_true_iff.1 hacc
  cases h with
  | empty he => simp
  | one ho => exact if_pos (ho.hands_of_ready hr)

/-- an accepted instruction becomes the one held; without one, a handover leaves the stage empty -/
theorem Held.next (h : Held s.stage p) {i : ExecIn} (hi : OneUnit i) :
    Held (s.step i).stage (if s.accepts i then [i.insn] else if s.hands i then [] else p) := by
  cases hacc : s.accepts i
  · cases h with
    | empty he =>
      have hnext : ExecStage.Empty (s.step i).stage := ExecStage.next_empty he i.insn hacc
      simpa using Held.empty hnext
    | one ho =>
      cases hh : s.hands i
      · refine .one (ExecStage.next_keep ho i.insn ?_)
        rwa [← ho.validOut]
      · have hk : (!i.haltReqIn && ExecStage.done s.stage && i.readyOut) = true := by rwa [← ho.validOut]
        have hv : i.validIn = false := by
          rw [accepts, ho.readyIn, hk, Bool.true_and] at hacc
          exact hacc
        refine .empty ?_
        rw [ExecSession.step, hv]
        exact ExecStage.next_drain ho i.insn hk
  · obtain ⟨hr, hv⟩ := Bool.and_eq_true_iff.1 hacc
    refine .one ?_
    rw [ExecSession.step, hv]
    exact ExecStage.next_issue s.stage i.insn hr (hi hv)

/-- a handover takes the instruction held, with its own result -/
theorem Inv.hand_over (h : Inv s p) {i : ExecIn} (hh : s.hands i = true) :
    ∃ j, p = [j] ∧ ExecStage.out s.stage = ExecStage.exOut j := by
  obtain ⟨hv, -⟩ := Bool.and_eq_true_iff.1 hh
  cases h.held with
  | empty he => rw [he.validOut] at hv; cases hv
  | one ho =>
    rw [ho.validOut] at hv
    exact ⟨_, rfl, ho.out (Bool.and_eq_true_iff.1 hv).2⟩

theorem Inv.handed_step (h : Inv s p) (i : ExecIn) :
    ∃ l, s.accepted = l ++ (if s.hands i then [] else p) ∧ (s.step i).handed = l.map ExecStage.exOut := by
  obtain ⟨l, hacc, hhand⟩ := h.split
  cases hh : s.hands i
  · exact ⟨l, by simpa using hacc, by simpa [ExecSession.step, hh] using hhand⟩
  · obtain ⟨j, rfl, hout⟩ := h.hand_over hh
    exact ⟨l ++ [j], by simpa using hacc, by simp [ExecSession.step, hh, hout, hhand]⟩

/-- **Step.** The instruction moves from offered to held to handed over. -/
theorem Inv.step (h : Inv s p) {i : ExecIn} (hi : OneUnit i) :
    Inv (s.step i) (if s.accepts i then [i.insn] else if s.hands i then [] else p) := by
  obtain ⟨l, hl, hhand⟩ := h.handed_step i
  refine ⟨h.held.next hi, l, ?_, hhand⟩
  cases hacc : s.accepts i
  · simpa [ExecSession.step, hacc] using hl
  · rw [h.held.leaves hacc, List.append_nil] at hl
    simp [ExecSession.step, hacc, hl]

/-- the redirect is the handover of a taken branch or jump -/
theorem Inv.redirects_iff (h : Inv s p) (i : ExecIn) :
    s.redirects i = true ↔ s.hands i = true ∧ ∃ j, p = [j] ∧ j.taken = true := by
  cases h.held with
  | empty he => simp [redirects, he.pcWeOut]
  | one ho => simp [redirects, hands, ho.pcWeOut, ho.validOut, and_comm]

/-! ### Runs -/

variable {x : ExecStage.St} {inp : ℕ → ExecIn}

theorem run_inv (hin : ∀ n, OneUnit (inp n)) (n : ℕ) : ∃ p, Inv (after x inp n) p := by
  refine Clocked.run_inv (fun s => ∃ p, Inv s p) (fun _ i => OneUnit i) ⟨[], Inv.start x⟩ ?_ hin n
  rintro s i ⟨p, h⟩ hi
  exact ⟨_, h.step hi⟩

/-- the instruction a handover in cycle `n` is of: the first one accepted and not handed over -/
def current (s : ExecSession) : Option IdOut := s.accepted[s.handed.length]?

theorem Inv.current (h : Inv s p) : s.current = p.head? := by
  obtain ⟨l, hacc, hhand⟩ := h.split
  rw [ExecSession.current, hacc, hhand, List.length_map, List.getElem?_append_right le_rfl, Nat.sub_self]
  exact List.head?_eq_getElem?.symm

/-- with one instruction held, the stage accepts only in the cycle that hands it over -/
theorem Inv.hands_of_accepts {j : IdOut} (h : Inv s [j]) {i : ExecIn} (hacc : s.accepts i = true) :
    s.hands i = true := by
  cases h.held with
  | one ho => exact ho.hands_of_ready (Bool.and_eq_true_iff.1 hacc).1

theorem handed_mono (n : ℕ) : (after x inp n).handed.length ≤ (after x inp (n + 1)).handed.length := by
  rw [after, after, Clocked.run_succ, step]
  split_ifs <;> simp

/-- the instructions accepted before cycle `n` have left by cycle `n + k`, or the last of them waits for its result -/
theorem left_or_waits (hin : ∀ n, OneUnit (inp n)) (n k : ℕ) :
    (after x inp n).accepted.length ≤ (after x inp (n + k)).handed.length ∨
      ∃ j, Inv (after x inp (n + k)) [j] ∧
        (after x inp n).accepted.length = (after x inp (n + k)).handed.length + 1 ∧
        ExecStage.remaining (after x inp (n + k)).stage ≤ 33 - k := by
  induction k with
  | zero =>
    obtain ⟨p, h⟩ := run_inv (x := x) hin n
    obtain ⟨l, hacc, hhand⟩ := h.split
    cases hheld : h.held with
    | empty he => left; simp [hacc, hhand]
    | one ho => exact .inr ⟨_, h, by simp [hacc, hhand], ho.remaining_le⟩
  | succ k ih =>
    have hmono : (after x inp (n + k)).handed.length ≤ (after x inp (n + k + 1)).handed.length := handed_mono (n + k)
    rcases ih with hleft | ⟨j, h, hlen, hrem⟩
    · exact .inl (hleft.trans hmono)
    · have hstep := h.step (hin (n + k))
      have hrun : after x inp (n + (k + 1)) = (after x inp (n + k)).step (inp (n + k)) := rfl
      cases hh : (after x inp (n + k)).hands (inp (n + k))
      · have hacc : (after x inp (n + k)).accepts (inp (n + k)) = false := by
          by_contra hne
          have := h.hands_of_accepts (Bool.not_eq_false _ ▸ hne)
          simp [hh] at this
        rw [hacc, hh] at hstep
        have hdrop : ExecStage.remaining ((after x inp (n + k)).step (inp (n + k))).stage = _ :=
          ExecStage.remaining_next (inp (n + k)).insn hacc
        refine .inr ⟨j, hstep, ?_, ?_⟩
        · rw [hrun, ExecSession.step, hh]
          exact hlen
        · rw [hrun, hdrop]
          omega
      · left
        rw [hrun, ExecSession.step, hh, hlen]
        simp

/-- **Latency.** What is accepted before cycle `n` leaves at the latest in the first cycle from `n + 33` on in which the
receiver is ready and the core not halted. -/
theorem leaves (hin : ∀ n, OneUnit (inp n)) {n m : ℕ} (hnm : n + 33 ≤ m) (hhalt : (inp m).haltReqIn = false)
    (hready : (inp m).readyOut = true) :
    (after x inp n).accepted.length ≤ (after x inp (m + 1)).handed.length := by
  obtain ⟨k, rfl⟩ := Nat.exists_eq_add_of_le (Nat.le_trans (Nat.le_add_right n 33) hnm)
  rcases left_or_waits (x := x) hin n k with hleft | ⟨j, h, hlen, hrem⟩
  · exact hleft.trans (handed_mono _)
  · have hh : (after x inp (n + k)).hands (inp (n + k)) = true := by
      cases h.held with
      | one ho =>
        have hd := ho.done_iff.2 (by omega)
        simp [hands, ho.validOut, hd, hhalt, hready]
    have hrun : after x inp (n + k + 1) = (after x inp (n + k)).step (inp (n + k)) := rfl
    rw [hrun, ExecSession.step, hh, hlen]
    simp

/-! ### The contract -/

/-- one unit occupied at a time; every accepted instruction handed over once, in order and with its own result; the
redirect in exactly the cycles that hand over a taken branch or jump -/
structure OneAtATime (x : ExecStage.St) (inp : ℕ → ExecIn) : Prop where
  units : ∀ n, ExecStage.Units (after x inp n).stage
  inOrder : ∀ n, (after x inp n).handed <+: (after x inp n).accepted.map ExecStage.exOut
  atMostOne : ∀ n, (after x inp n).accepted.length ≤ (after x inp n).handed.length + 1
  leaves : ∀ n m, n + 33 ≤ m → (inp m).haltReqIn = false → (inp m).readyOut = true →
    (after x inp n).accepted.length ≤ (after x inp (m + 1)).handed.length
  redirects : ∀ n, (after x inp n).redirects (inp n) = true ↔
    (after x inp n).hands (inp n) = true ∧ ∃ i, (after x inp n).current = some i ∧ i.taken = true

/-- **Execute stage.** Whatever the issuer, the receiver and the halt control do. -/
theorem one_at_a_time (x : ExecStage.St) (inp : ℕ → ExecIn) (hin : ∀ n, OneUnit (inp n)) : OneAtATime x inp where
  units n := by
    obtain ⟨p, h⟩ := run_inv (x := x) hin n
    exact h.held.units
  inOrder n := by
    obtain ⟨p, h⟩ := run_inv (x := x) hin n
    obtain ⟨l, hacc, hhand⟩ := h.split
    rw [hacc, hhand, List.map_append]
    exact List.prefix_append _ _
  atMostOne n := by
    obtain ⟨p, h⟩ := run_inv (x := x) hin n
    obtain ⟨l, hacc, hhand⟩ := h.split
    have hp := h.held.length_le_one
    simp only [hacc, hhand, List.length_append, List.length_map]
    omega
  leaves n m hnm hhalt hready := leaves hin hnm hhalt hready
  redirects n := by
    obtain ⟨p, h⟩ := run_inv (x := x) hin n
    rw [h.redirects_iff, h.current]
    refine and_congr_right fun hh => ?_
    obtain ⟨j, rfl, -⟩ := h.hand_over hh
    simp

/-- a division offered again and again to a receiver that is always ready -/
theorem one_at_a_time_div : OneAtATime
    ⟨0, 0, 0, 0, 0, .pcImm, false, false, false, .loadWord, false, false, false, ⟨false, 0, false⟩,
      ⟨⟨false, 0⟩, ⟨0, IDIV.load .divu 0 0, false, 0⟩⟩⟩
    fun _ => ⟨false, true, true, ⟨decode 0x0220c1b3, 7, 2, 3, 0⟩⟩ :=
  one_at_a_time _ _ fun _ _ => decode_unit _

end ExecSession

end FpgaLearning.ArxCore
