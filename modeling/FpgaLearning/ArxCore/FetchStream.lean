/-
The instruction stream of `InsnFetch` under an arbitrary environment: ready, redirects in any cycle, halting, and a memory
that serves a request or not.

The environment is as in the unit's test bench: `expectedPc` follows the redirects and counts the handshakes, and every
handshake logs the pair handed over with the pc expected. The invariant is that the fetch target is the expected pc
(`FetchSession.Inv`); the stage lemmas say how each cycle moves it.
-/
import FpgaLearning.ArxCore.StageLemmas
import FpgaLearning.Core.Clocked

namespace FpgaLearning.ArxCore

open FpgaLearning.Memory FpgaLearning.Clocked InsnFetch

/-- what the environment drives in one cycle; `grant` serves the request, `bus` is on the port when nothing is acked -/
structure FetchIn where
  haltReqIn : Bool
  readyOut : Bool
  pcWe : Bool
  pcIn : Word
  grant : Bool
  bus : Word

/-- one handshake -/
structure Fetched where
  pc : Word
  insn : Word
  expectedPc : Word
deriving DecidableEq, Repr

structure FetchSession where
  fetch : InsnFetch.St
  /-- `mem_ack` and `mem_insn_in` -/
  ack : Bool
  data : Word
  expectedPc : Word
  out : List Fetched

namespace FetchSession

variable (imem : Word → Word) (s : FetchSession) (i : FetchIn)

def comb : InsnFetch.Comb := InsnFetch.comb s.fetch s.ack i.readyOut i.pcWe

def validOut : Bool := InsnFetch.validOut (s.comb i) i.haltReqIn

def pcOut : Word := InsnFetch.pcOut s.fetch (s.comb i)

def insnOut : Word := InsnFetch.insnOut s.fetch (s.comb i) s.data

def handshake : Bool := s.validOut i && i.readyOut

/-- the memory serves the request of this cycle -/
def served : Bool := memReq (s.comb i) && i.grant

def step (s : FetchSession) (i : FetchIn) : FetchSession where
  fetch := InsnFetch.next s.fetch (s.comb i) s.data i.pcWe i.pcIn
  ack := s.served i
  data := if s.served i then imem (memAddr s.fetch (s.comb i) i.pcWe i.pcIn) else i.bus
  expectedPc := if i.pcWe then i.pcIn else if s.handshake i then s.expectedPc + 4 else s.expectedPc
  out := if s.handshake i then s.out ++ [⟨s.pcOut i, s.insnOut i, s.expectedPc⟩] else s.out

/-- out of reset, from any register contents -/
def start (f : InsnFetch.St) (bus : Word) : FetchSession := ⟨InsnFetch.reset f, false, bus, 0, []⟩

def after (f : InsnFetch.St) (bus : Word) (inp : ℕ → FetchIn) (n : ℕ) : FetchSession := run (step imem) inp (start f bus) n

/-- the next word to hand over is the expected one, and what has been handed over was -/
structure Inv (s : FetchSession) : Prop where
  fetch : InsnFetch.Inv imem s.fetch s.ack s.data
  target : fetchTarget s.fetch = s.expectedPc
  out : ∀ d ∈ s.out, d.pc = d.expectedPc ∧ d.insn = imem d.pc

variable {imem s i}

/-- a handshake carries the word at the expected pc, and no redirect is in sight -/
theorem Inv.handshake (h : Inv imem s) (hs : s.handshake i = true) :
    s.pcOut i = s.expectedPc ∧ s.insnOut i = imem s.expectedPc ∧ i.pcWe = false ∧ s.fetch.pcWeBuf = false := by
  obtain ⟨hpc, hinsn⟩ := fire h.fetch i.haltReqIn i.readyOut i.pcWe hs
  obtain ⟨hwe, hbuf⟩ := fire_no_redirect h.fetch hs
  rw [h.target] at hpc hinsn
  exact ⟨hpc, hinsn, hwe, hbuf⟩

/-- **Fetch step.** -/
theorem Inv.step (h : Inv imem s) (hhalt : i.haltReqIn = true → i.readyOut = false) : Inv imem (step imem s i) := by
  refine ⟨next_inv h.fetch i.pcIn i.bus, ?_, ?_⟩
  · show fetchTarget (InsnFetch.next _ _ _ _ _) = _
    rw [comb, next_fetchTarget h.fetch i.haltReqIn i.readyOut i.pcWe i.pcIn hhalt, h.target]
    rfl
  · intro d hd
    change d ∈ (if s.handshake i then s.out ++ [⟨s.pcOut i, s.insnOut i, s.expectedPc⟩] else s.out) at hd
    split_ifs at hd with hs
    · rcases List.mem_append.1 hd with hold | hnew
      · exact h.out d hold
      · obtain rfl := List.mem_singleton.1 hnew
        obtain ⟨hpc, hinsn, _⟩ := h.handshake hs
        exact ⟨hpc, by rw [hinsn, hpc]⟩
    · exact h.out d hd

theorem Inv.start (imem : Word → Word) (f : InsnFetch.St) (bus : Word) : Inv imem (start f bus) := by
  refine ⟨⟨?_, ?_, ?_⟩, rfl, ?_⟩ <;> simp [FetchSession.start, InsnFetch.reset]

/-- **Offers.** A pair offered and not taken is offered again in the next cycle, unless that cycle redirects or halts. -/
theorem Inv.offer (h : Inv imem s) (hv : s.validOut i = true) (hr : i.readyOut = false) (j : FetchIn)
    (hwe : j.pcWe = false) (hhalt : j.haltReqIn = false) :
    (FetchSession.step imem s i).validOut j = true ∧ (FetchSession.step imem s i).pcOut j = s.pcOut i ∧
      (FetchSession.step imem s i).insnOut j = s.insnOut i := by
  have hcomb : s.comb i = InsnFetch.comb s.fetch s.ack false i.pcWe := by rw [comb, hr]
  have hoffer : InsnFetch.validOut (s.comb i) i.haltReqIn = true := hv
  rw [hcomb] at hoffer
  have hpark := next_park h.fetch i.pcIn hoffer
  rw [← hcomb] at hpark
  obtain ⟨hstate, hbuf, hpc, hinsn⟩ : (FetchSession.step imem s i).fetch.curState = .waitHandshake ∧
    (FetchSession.step imem s i).fetch.pcWeBuf = false ∧ (FetchSession.step imem s i).fetch.pc = s.pcOut i ∧
    (FetchSession.step imem s i).fetch.insnBuf = s.insnOut i := hpark
  obtain ⟨hv', hpc', hinsn'⟩ := offer_parked hstate hbuf (FetchSession.step imem s i).ack j.readyOut
    (FetchSession.step imem s i).data
  unfold validOut pcOut insnOut comb
  rw [hwe, hhalt]
  exact ⟨hv', hpc'.trans hpc, hinsn'.trans hinsn⟩

/-! ## Runs -/

variable (imem : Word → Word) (f : InsnFetch.St) (bus : Word) (inp : ℕ → FetchIn)

/-- every handshake hands over the word at the expected pc, none happens under a redirect, and an offer stays until it is
taken, redirected or halted -/
structure Streams : Prop where
  out : ∀ n, ∀ d ∈ (after imem f bus inp n).out, d.pc = d.expectedPc ∧ d.insn = imem d.pc
  quiet : ∀ n, (after imem f bus inp n).handshake (inp n) = true →
    (inp n).pcWe = false ∧ (after imem f bus inp n).fetch.pcWeBuf = false
  offer : ∀ n, (after imem f bus inp n).validOut (inp n) = true → (inp n).readyOut = false →
    (inp (n + 1)).pcWe = false → (inp (n + 1)).haltReqIn = false →
    (after imem f bus inp (n + 1)).validOut (inp (n + 1)) = true ∧
      (after imem f bus inp (n + 1)).pcOut (inp (n + 1)) = (after imem f bus inp n).pcOut (inp n) ∧
      (after imem f bus inp (n + 1)).insnOut (inp (n + 1)) = (after imem f bus inp n).insnOut (inp n)

/-- **Instruction fetch.** -/
theorem fetch_streams (hhalt : ∀ n, (inp n).haltReqIn = true → (inp n).readyOut = false) :
    Streams imem f bus inp := by
  have hinv : ∀ n, Inv imem (after imem f bus inp n) :=
    run_inv (Inv imem) (fun _ i => i.haltReqIn = true → i.readyOut = false) (Inv.start imem f bus)
      (fun _ _ h hok => h.step hok) hhalt
  constructor
  · exact fun n => (hinv n).out
  · intro n hs
    exact ((hinv n).handshake hs).2.2
  · intro n hv hr hwe hh
    exact (hinv n).offer hv hr (inp (n + 1)) hwe hh

/-- a reader that takes every third offer, with a halt in between and a redirect to 0x40 every fifth cycle -/
theorem fetch_streams_demo :
    Streams (fun a => a ^^^ 0x13) ⟨.halt, 8, 1, true, 12⟩ 0
      fun n => ⟨n % 3 == 1, n % 3 == 0, n % 5 == 4, 0x40, n % 2 == 0, 0⟩ := by
  refine fetch_streams _ _ _ _ fun n h => ?_
  have h1 : n % 3 = 1 := by simpa using h
  simp [h1]

end FetchSession

end FpgaLearning.ArxCore
