/-
Bit 0 of the program counters.

The pc comes from three adders: the fetch stage adds 4, branches and JAL add an immediate whose bit 0 is 0, JALR adds a
register and an immediate, and nothing clears bit 0 of that sum. `PcAligned` says that every pc in the core is even, where
the stage that holds it is occupied, and that so are the operands and link values made from it. Each stage has its step
lemma, and `pc_aligned_iff` is the run: the pcs stay even exactly as long as no JALR redirects to an odd sum (`OddJalr`).
-/
import FpgaLearning.ArxCore.Refinement

namespace FpgaLearning.ArxCore

open FpgaLearning.Memory FpgaLearning.Clocked

/-! ## Even words -/

/-- bit 0 is 0 -/
def EvenPc (w : Word) : Prop := w.getLsbD 0 = false

instance (w : Word) : Decidable (EvenPc w) := inferInstanceAs (Decidable (_ = _))

theorem bit0_add (a b : Word) : (a + b).getLsbD 0 = (a.getLsbD 0 ^^ b.getLsbD 0) := by
  rw [BitVec.getLsbD_add (by decide)]
  simp

theorem EvenPc.add {a b : Word} (ha : EvenPc a) (hb : EvenPc b) : EvenPc (a + b) := by
  unfold EvenPc at *
  rw [bit0_add, ha, hb]
  rfl

theorem evenPc_zero : EvenPc 0 := rfl

theorem evenPc_four : EvenPc 4 := rfl

/-! ## Immediates -/

theorem evenPc_immB (insn : Word) : EvenPc (InsnDecoder.immB insn) := by
  unfold EvenPc InsnDecoder.immB
  rw [BitVec.getLsbD_append]
  rfl

theorem evenPc_immJ (insn : Word) : EvenPc (InsnDecoder.immJ insn) := by
  unfold EvenPc InsnDecoder.immJ
  rw [BitVec.getLsbD_append]
  rfl

theorem evenPc_immU (insn : Word) : EvenPc (InsnDecoder.immU insn) := by
  unfold EvenPc InsnDecoder.immU
  rw [BitVec.getLsbD_append]
  rfl

/-- the operation is no comparison of a branch -/
def AluOp.NoBranch (op : AluOp) : Prop := ∀ a b, IALU.mBranchEn op a b = false

theorem noBranch_decodeAluOp (f3 : BitVec 3) (f7 : BitVec 7) : (decodeAluOp f3 f7).NoBranch := by
  refine ite_both ?_ <| ite_both ?_ <| ite_both ?_ <| ite_both ?_ <| ite_both ?_ <| ite_both ?_ <| ite_both ?_ <|
    ite_both ?_ <| ite_both ?_ <| ite_both ?_ ?_
  all_goals exact fun _ _ => rfl

theorem noBranch_decodeImmOp (f3 : BitVec 3) (f7 : BitVec 7) : (decodeImmOp f3 f7).NoBranch := by
  refine ite_both ?_ <| ite_both ?_ <| ite_both ?_ <| ite_both ?_ <| ite_both ?_ <| ite_both (ite_both ?_ ?_) <|
    ite_both ?_ ?_
  all_goals exact fun _ _ => rfl

/-- **Offsets.** An instruction that may redirect relative to the pc has an even immediate. -/
theorem decode_offset (insn : Word) : (decode insn).pcAddrType = .pcImm →
    EvenPc (decode insn).imm ∨ ((decode insn).pcJumpEn = false ∧ (decode insn).aluOp.NoBranch) := by
  let P : Decoded → Prop := fun d =>
    d.pcAddrType = .pcImm → EvenPc d.imm ∨ (d.pcJumpEn = false ∧ d.aluOp.NoBranch)
  have hquiet : ∀ {d : Decoded}, d.pcJumpEn = false → d.aluOp.NoBranch → P d := fun hj hop _ => .inr ⟨hj, hop⟩
  have hadd : AluOp.NoBranch .add := fun _ _ => rfl
  refine ite_formats (P := P) ?op ?opImm ?load ?store ?branch ?jal ?jalr ?lui ?auipc ?other
  case op => exact hquiet rfl (noBranch_decodeAluOp _ _)
  case opImm => exact hquiet rfl (noBranch_decodeImmOp _ _)
  case load => exact hquiet rfl hadd
  case store => exact hquiet rfl hadd
  case branch => exact fun _ => .inl (evenPc_immB insn)
  case jal => exact fun _ => .inl (evenPc_immJ insn)
  case jalr =>
    intro h
    cases h
  case lui => exact hquiet rfl hadd
  case auipc => exact hquiet rfl hadd
  case other => exact hquiet rfl hadd

/-- an operand taken from the pc makes a link value (JAL, JALR) or an AUIPC result -/
theorem decode_pc_operand (insn : Word) : (decode insn).aluSrc1 = .pc → (decode insn).aluOp = .add ∧
    ((decode insn).aluSrc2 = .four ∨ ((decode insn).aluSrc2 = .imm ∧ EvenPc (decode insn).imm)) := by
  let P : Decoded → Prop := fun d =>
    d.aluSrc1 = .pc → d.aluOp = .add ∧ (d.aluSrc2 = .four ∨ (d.aluSrc2 = .imm ∧ EvenPc d.imm))
  have hno : ∀ {d : Decoded}, d.aluSrc1 ≠ .pc → P d := fun hne h => absurd h hne
  refine ite_formats (P := P) ?op ?opImm ?load ?store ?branch ?jal ?jalr ?lui ?auipc ?other
  case jal => exact fun _ => ⟨rfl, .inl rfl⟩
  case jalr => exact fun _ => ⟨rfl, .inl rfl⟩
  case auipc => exact fun _ => ⟨rfl, .inr ⟨rfl, evenPc_immU insn⟩⟩
  all_goals exact hno fun h => AluSrc1.noConfusion h

/-! ## Stages -/

/-- the pc of the fetch stage and a redirect it has not taken yet -/
structure InsnFetch.Even (f : InsnFetch.St) : Prop where
  pc : EvenPc f.pc
  redirect : f.pcWeBuf = true → EvenPc f.pcInBuf

theorem InsnFetch.Even.next {f : InsnFetch.St} (h : Even f) (c : Comb) (insn : Word) {pcWe : Bool} {pcIn : Word}
    (hin : pcWe = true → EvenPc pcIn) : Even (InsnFetch.next f c insn pcWe pcIn) := by
  have hnext : EvenPc (pcNext f pcWe pcIn) := by
    unfold pcNext pcWeInternal pcInInternal
    cases hwe : pcWe with
    | true => simpa using hin hwe
    | false =>
      cases hbuf : f.pcWeBuf with
      | true => simpa using h.redirect hbuf
      | false => simpa using h.pc.add evenPc_four
  constructor
  · show EvenPc (if c.pcUpd then _ else _)
    split_ifs
    · exact hnext
    · exact h.pc
  · cases hack : c.pcWeAck with
    | true => simp [InsnFetch.next, hack]
    | false =>
      cases hwe : pcWe with
      | true => simpa [InsnFetch.next, hack] using hin hwe
      | false => simpa [InsnFetch.next, hack] using h.redirect

theorem InsnFetch.Even.pcOut {f : InsnFetch.St} (h : Even f) (c : Comb) : EvenPc (InsnFetch.pcOut f c) := by
  unfold InsnFetch.pcOut
  split
  · exact evenPc_zero
  · exact h.pc

namespace InsnDecodeStage

variable {x : St}

theorem validOut_of_not_valid (h : x.mValid = false) (flush halt : Bool) : validOut x flush halt = false := by
  unfold validOut
  rw [h]
  split <;> rfl

theorem valid_of_validOut {flush halt : Bool} (h : validOut x flush halt = true) : x.mValid = true := by
  by_contra hv
  rw [validOut_of_not_valid (Bool.eq_false_iff.2 hv)] at h
  cases h

end InsnDecodeStage

namespace ExecStage

/-- an operation is in one of the units -/
def Held (x : St) : Prop :=
  x.ialu.validOut = true ∨ x.imdu.mul.validOut = true ∨ x.imdu.div.cnt ≠ 0 ∨ x.imdu.div.validOut = true

/-- the operation in the stage may redirect -/
def mayRedirect (x : St) : Bool := x.mAluEnIn && x.ialu.branchEn || x.mPcJumpEnIn

/-- the latched pc, and the latched immediate of a pc-relative redirect -/
structure Even (x : St) : Prop where
  pc : Held x → EvenPc x.mPcIn
  offset : Held x → mayRedirect x = true → x.mPcBranchType = .pcImm → EvenPc x.mImmIn

variable {x : St}

theorem ialu_of_next {s : IALU.St} {r : Bool} {op : AluOp} {a b : Word} :
    ((IALU.next s false r op a b).validOut = true → s.validOut = true) ∧
      ((IALU.next s false r op a b).branchEn = true → s.branchEn = true) := by
  unfold IALU.next
  rw [Bool.false_and, if_neg Bool.false_ne_true]
  split
  · exact ⟨fun h => absurd h Bool.false_ne_true, fun h => absurd h Bool.false_ne_true⟩
  · exact ⟨id, id⟩

theorem imul_of_next {s : IMUL.St} {r : Bool} {op : MduOp} {a b : Word}
    (h : (IMUL.next s false r op a b).validOut = true) : s.validOut = true := by
  revert h
  unfold IMUL.next
  rw [Bool.false_and, if_neg Bool.false_ne_true]
  split
  · exact fun h => absurd h Bool.false_ne_true
  · exact id

theorem idiv_of_next {s : IDIV.St} {r : Bool} {op : MduOp} {a b : Word}
    (h : (IDIV.next s false r op a b).cnt ≠ 0 ∨ (IDIV.next s false r op a b).validOut = true) :
    s.cnt ≠ 0 ∨ s.validOut = true := by
  by_cases hc : s.cnt = 0
  · have hb : IDIV.busy s = false := by simp [IDIV.busy, hc]
    cases hv : s.validOut with
    | true => exact .inr rfl
    | false => simp [IDIV.next, hb, hv, hc] at h
  · exact .inl hc

variable {halt v r : Bool} {i : IdOut}

/-- without a new operation the units only empty -/
theorem held_of_next (hf : (readyIn x halt r && v) = false) (h : Held (next x halt v r i)) : Held x := by
  simp only [Held, next, hf, Bool.false_and, IMDU.next] at h
  rcases h with h | h | h | h
  · exact .inl (ialu_of_next.1 h)
  · exact .inr (.inl (imul_of_next h))
  · exact .inr (.inr (idiv_of_next (.inl h)))
  · exact .inr (.inr (idiv_of_next (.inr h)))

theorem mayRedirect_of_next (hf : (readyIn x halt r && v) = false) (h : mayRedirect (next x halt v r i) = true) :
    mayRedirect x = true := by
  simp only [mayRedirect, next, hf, Bool.false_and, Bool.or_eq_true, Bool.and_eq_true] at h ⊢
  rcases h with ⟨he, hb⟩ | hj
  · exact .inl ⟨he, ialu_of_next.2 hb⟩
  · exact .inr hj

/-- what is issued redirects only if it is a jump or a branch -/
theorem mayRedirect_issue (hf : (readyIn x halt r && v) = true) (hj : i.d.pcJumpEn = false) (hop : i.d.aluOp.NoBranch) :
    mayRedirect (next x halt v r i) = false := by
  obtain ⟨hr, rfl⟩ := Bool.and_eq_true_iff.1 hf
  have hh : halt = false := by
    cases halt
    · rfl
    · simp [readyIn] at hr
  subst hh
  have halu : IALU.readyIn x.ialu r = true := by simp [readyIn] at hr; exact hr.1
  cases he : i.d.aluEn with
  | false => simp [mayRedirect, next, hr, he, hj]
  | true => simp [mayRedirect, next, hr, he, hj, IALU.next, halu, hop _ _]

theorem Even.next (h : Even x) {insn : Word} (hd : i.d = decode insn) (hpc : v = true → EvenPc i.pc) :
    Even (ExecStage.next x halt v r i) := by
  cases hf : readyIn x halt r && v with
  | true =>
    have hv : v = true := (Bool.and_eq_true_iff.1 hf).2
    refine ⟨fun _ => by simpa [ExecStage.next, hf] using hpc hv, fun _ hm hb => ?_⟩
    have himm : (ExecStage.next x halt v r i).mImmIn = i.d.imm := by simp [ExecStage.next, hf]
    have htype : (ExecStage.next x halt v r i).mPcBranchType = i.d.pcAddrType := by simp [ExecStage.next, hf]
    rw [himm, hd]
    rcases decode_offset insn (by rw [← hd, ← htype, hb]) with heven | ⟨hj, hop⟩
    · exact heven
    · rw [mayRedirect_issue hf (by rw [hd, hj]) (by rw [hd]; exact hop)] at hm
      cases hm
  | false =>
    constructor
    · intro hx
      simpa [ExecStage.next, hf] using h.pc (held_of_next hf hx)
    · intro hx hm hb
      have hb' : x.mPcBranchType = .pcImm := by simpa [ExecStage.next, hf] using hb
      simpa [ExecStage.next, hf] using h.offset (held_of_next hf hx) (mayRedirect_of_next hf hm) hb'

/-- a result on the output is one of a held operation -/
theorem held_of_validOut (h : validOut x halt = true) : Held x := by
  unfold validOut IMDU.validOut at h
  split at h
  · simp only [Bool.or_eq_true, Bool.and_eq_true] at h
    rcases h with ⟨-, h⟩ | ⟨-, h | h⟩
    · exact .inl h
    · exact .inr (.inl h)
    · exact .inr (.inr (.inr h))
  · cases h

/-- a redirect comes from an operation in the stage -/
theorem held_of_pcWeOut (h : pcWeOut x halt r = true) : Held x ∧ mayRedirect x = true := by
  simp only [pcWeOut, Bool.and_eq_true] at h
  obtain ⟨⟨hm, hv⟩, -⟩ := h
  exact ⟨held_of_validOut hv, hm⟩

end ExecStage

/-! ## The core -/

/-- every pc in an occupied stage is even, and so are the operands and results made from it and the redirect target -/
structure PcAligned (c : Core) : Prop where
  fetch : EvenPc c.fs.pc
  pending : c.fs.pcWeBuf = true → EvenPc c.fs.pcInBuf
  decode : c.id.mValid = true → EvenPc c.id.mPc
  exec : ExecStage.Held c.ex → EvenPc c.ex.mPcIn
  /-- AUIPC results and link values, as the ALU makes them when the instruction issues -/
  result : c.id.mValid = true → (ArxCore.decode c.id.mInsn).aluSrc1 = .pc →
    EvenPc (IALU.mRes (ArxCore.decode c.id.mInsn).aluOp (ExecStage.ialuArg1 (InsnDecodeStage.out c.id))
      (ExecStage.ialuArg2 (InsnDecodeStage.out c.id)))
  target : c.pcWe = true → EvenPc c.pcBranch

/-- a JALR redirects in this cycle and the sum of its register and immediate is odd -/
def OddJalr (c : Core) : Prop :=
  c.pcWe = true ∧ c.ex.mPcBranchType = .regImm ∧ ¬ EvenPc (c.ex.mRs1In + c.ex.mImmIn)

namespace Core

/-- the part of `PcAligned` about registers -/
structure Even (c : Core) : Prop where
  fetch : InsnFetch.Even c.fs
  decode : c.id.mValid = true → EvenPc c.id.mPc
  exec : ExecStage.Even c.ex

variable {c : Core}

theorem Even.target (h : Even c) (hodd : ¬ OddJalr c) (hwe : c.pcWe = true) : EvenPc c.pcBranch := by
  obtain ⟨hheld, hm⟩ := ExecStage.held_of_pcWeOut hwe
  unfold pcBranch ExecStage.pcBranchOut
  cases htype : c.ex.mPcBranchType with
  | pcImm => exact (h.exec.pc hheld).add (h.exec.offset hheld hm htype)
  | regImm =>
    by_contra hne
    exact hodd ⟨hwe, htype, hne⟩

theorem Even.result (h : Even c) (hv : c.id.mValid = true) (hsrc : (ArxCore.decode c.id.mInsn).aluSrc1 = .pc) :
    EvenPc (IALU.mRes (ArxCore.decode c.id.mInsn).aluOp (ExecStage.ialuArg1 (InsnDecodeStage.out c.id))
      (ExecStage.ialuArg2 (InsnDecodeStage.out c.id))) := by
  obtain ⟨hop, hsrc2⟩ := decode_pc_operand c.id.mInsn hsrc
  have harg1 : ExecStage.ialuArg1 (InsnDecodeStage.out c.id) = c.id.mPc := by
    simp [ExecStage.ialuArg1, InsnDecodeStage.out, hsrc]
  have harg2 : EvenPc (ExecStage.ialuArg2 (InsnDecodeStage.out c.id)) := by
    rcases hsrc2 with h2 | ⟨h2, heven⟩
    · simpa [ExecStage.ialuArg2, InsnDecodeStage.out, h2] using evenPc_four
    · simpa [ExecStage.ialuArg2, InsnDecodeStage.out, h2] using heven
  rw [hop, harg1]
  show EvenPc ((IALU.sumsub .add _ _).setWidth 32)
  rw [IALU.sumsub_add]
  exact (h.decode hv).add harg2

theorem Even.pcAligned (h : Even c) (hodd : ¬ OddJalr c) : PcAligned c :=
  ⟨h.fetch.pc, h.fetch.redirect, h.decode, h.exec.pc, fun hv hsrc => h.result hv hsrc, fun hwe => h.target hodd hwe⟩

/-- **Core step.** -/
theorem Even.next (h : Even c) (hodd : ¬ OddJalr c) (i : CoreIn) : Even (c.next i) := by
  refine ⟨h.fetch.next _ _ fun hwe => h.target hodd hwe, fun hv => ?_, h.exec.next rfl fun hv => ?_⟩
  · show EvenPc (if _ then _ else _)
    split
    · exact h.fetch.pcOut _
    · rename_i hfire
      refine h.decode ?_
      simp only [Core.next, InsnDecodeStage.next, hfire] at hv
      split at hv <;> simp_all
  · exact h.decode (InsnDecodeStage.valid_of_validOut hv)

theorem Even.reset (c : Core) : Even c.reset := by
  refine ⟨⟨evenPc_zero, ?_⟩, ?_, ⟨?_, ?_⟩⟩ <;>
    simp [Core.reset, InsnFetch.reset, InsnDecodeStage.reset, ExecStage.reset, ExecStage.Held, IALU.reset, IMDU.reset,
      IMUL.reset, IDIV.reset]

end Core

/-! ## Runs -/

variable {σ : Type*}

/-- **Alignment.** For every program, data device, memory schedule, halt schedule and contents of the unreset registers,
all pcs stay even exactly when no JALR redirects to an odd sum. -/
theorem pc_aligned_iff (imem : Word → Word) (D : Device σ) (c : Core) (d : σ) (romBus ramBus : Word) (e : ℕ → Cycle) :
    (∀ n, PcAligned (System.run imem D c d romBus ramBus e n).core) ↔
      ∀ n, ¬ OddJalr (System.run imem D c d romBus ramBus e n).core := by
  constructor
  · rintro h n ⟨hwe, htype, hodd⟩
    have htarget := (h n).target hwe
    rw [Core.pcBranch, ExecStage.pcBranchOut, htype] at htarget
    exact hodd htarget
  · intro hodd n
    have heven : Core.Even (System.run imem D c d romBus ramBus e n).core := by
      induction n with
      | zero => exact Core.Even.reset c
      | succ n ih => exact ih.next (hodd n) _
    exact heven.pcAligned (hodd n)

/-- `jalr x0, 1(x0)` at address 0: the core fetches from address 1 five cycles after reset -/
theorem jalr_fetches_from_one :
    (System.run (fun _ => 0x00100067) wordDevice demoCore (fun _ => 0) 0 0 (fun _ => demoCycle) 5).core.fs.pc = 1 ∧
      ¬ ∀ n, PcAligned
        (System.run (fun _ => 0x00100067) wordDevice demoCore (fun _ => 0) 0 0 (fun _ => demoCycle) n).core := by
  have hpc : (System.run (fun _ => 0x00100067) wordDevice demoCore (fun _ => 0) 0 0 (fun _ => demoCycle) 5).core.fs.pc =
      1 := by
    decide +kernel
  refine ⟨hpc, fun h => ?_⟩
  have hfetch := (h 5).fetch
  rw [hpc] at hfetch
  exact absurd hfetch (by decide)

end FpgaLearning.ArxCore
