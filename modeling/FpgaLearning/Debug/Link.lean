/-
The debug module at the core, wired as in `top.sv`: the halt and resume requests and the program and data memory ports
of `DebugModule`, with `DebugMemoryBridge` in between, and `ArxCore` under the reset of `ResetController`. The board
buttons are idle and `clk_en` is high, so the bridge passes everything on.

- `Link` is the state: the debug module, the core with its memories, and the program memory, which the core fetches from
  and the debug module writes on its second port.
- `LinkIn` is one cycle of its surroundings: the bytes of the UART, its `send_ready`, and the memory requests that are
  served.
- `Recovers` is what is wanted of the link, `Wedges` the cycle in which it goes wrong: a data memory transfer is
  dispatched to a core that has not been asked to halt.
- `Inv` holds as long as that does not happen; `Inv.next` is the step.
-/
import FpgaLearning.ArxCore.Halt
import FpgaLearning.ArxCore.Reset
import FpgaLearning.Debug.Session

namespace FpgaLearning.Debug

open FpgaLearning.Memory FpgaLearning.Clocked
open FpgaLearning.ArxCore (Core CoreIn)

/-! ## The wiring -/

structure LinkIn where
  inputValid : Bool
  inputError : Bool
  inputByte : Byte
  sendReady : Bool
  romGrant : Bool
  ramGrant : Bool
  progGrant : Bool
  romBus : Word
  ramBus : Word
  progBus : Word

structure Link (σ : Type*) where
  dm : DebugModule.St
  sys : ArxCore.System σ
  prog : Port WordMem

namespace Link

variable {σ : Type*}

/-- the core as its outputs show it: `core_reset_n` is asynchronous -/
def core (s : Link σ) : Core := if DebugModule.softResetN s.dm then s.sys.core else s.sys.core.reset

/-- the memory side of the core's pins; its answers to the debug port depend on nothing else -/
def memoryPins (s : Link σ) : CoreIn where
  romData := s.sys.romData
  romAck := s.sys.romAck
  ramData := s.sys.ram.data
  ramAck := s.sys.ram.ack
  haltReq := false
  resumeReq := false
  debugReq := false
  debug := ⟨0, 0, false, 0⟩

def pins (s : Link σ) (e : LinkIn) : DebugModule.In where
  inputValid := e.inputValid
  inputError := e.inputError
  inputByte := e.inputByte
  sendReady := e.sendReady
  isHalted := s.core.halted
  dataData
    | .prog => s.prog.data
    | .data => s.core.debugData s.memoryPins
  dataAck
    | .prog => s.prog.ack
    | .data => s.core.debugAck s.memoryPins

/-- what the core and its memories see in this cycle -/
def coreCycle (s : Link σ) (e : LinkIn) : ArxCore.Cycle where
  romGrant := e.romGrant
  ramGrant := e.ramGrant
  romBus := e.romBus
  ramBus := e.ramBus
  haltReq := DebugModule.haltReq s.dm
  resumeReq := DebugModule.resumeReq s.dm
  debugReq := DebugModule.req s.dm (s.pins e) .data
  debug := DebugModule.out s.dm .data

/-- one clock edge -/
def next (timeoutTicks : ℕ) (D : Device σ) (s : Link σ) (e : LinkIn) : Link σ where
  dm := DebugModule.next timeoutTicks s.dm (s.pins e)
  sys :=
    if DebugModule.softResetN s.dm then s.sys.next (fun a => s.prog.dev (wordIndex a)) D (s.coreCycle e)
    else s.sys.nextReset (fun a => s.prog.dev (wordIndex a)) D (s.coreCycle e)
  prog := s.prog.next wordDevice (DebugModule.req s.dm (s.pins e) .prog) (DebugModule.out s.dm .prog) e.progGrant
    e.progBus

/-- after reset; `dm` and `c` hold whatever the registers without reset hold -/
def init (dm : DebugModule.St) (c : Core) (d : σ) (m : WordMem) (bus : Word) : Link σ where
  dm := DebugModule.reset dm
  sys := ArxCore.System.init c d bus bus
  prog := ⟨m, false, bus⟩

abbrev run (timeoutTicks : ℕ) (D : Device σ) (e : ℕ → LinkIn) (s : Link σ) (n : ℕ) : Link σ :=
  Clocked.run (next timeoutTicks D) e s n

/-- some bytes, `send_ready` and memory answers bring the command state machine back to `S_WAIT_INPUT` -/
def Recovers (timeoutTicks : ℕ) (D : Device σ) (s : Link σ) : Prop :=
  ∃ e k, (run timeoutTicks D e s k).dm.curState = .waitInput

/-- a packet that moves at least one byte of data memory is dispatched, and the core has not been asked to halt -/
def Wedges (s : Link σ) : Prop :=
  s.dm.curState = .waitInput ∧ PacketParser.resValid s.dm.parser = true ∧ s.dm.parser.resError = false ∧
    s.sys.core.haltReqIn = false ∧
    (s.dm.parser.resCmd = DebugModule.cmdReadData ∧ 5 ≤ s.dm.parser.resLen ∧ s.dm.parser.resDataBuf 4 ≠ 0 ∨
      s.dm.parser.resCmd = DebugModule.cmdWriteData ∧ 4 < s.dm.parser.resLen)

/-! ## The invariant -/

open PacketParser (Holds Shows)
open DebugMemoryCopier (Moves)
open DebugModule (Stage dispatch)

variable {T : ℕ} {D : Device σ} {s : Link σ} {e : LinkIn} {p : Packet} {t : Target}

structure Inv (T : ℕ) (s : Link σ) : Prop where
  stage : Stage T s.dm
  live : s.sys.core.Live
  served : s.dm.curState = .read .data ∨ s.dm.curState = .write .data → s.sys.core.haltReqIn = true ∨
    ∃ p, Holds s.dm.parser p ∧ ¬ Moves p (s.dm.curState == .write .data)

theorem core_eq (h : Stage T s.dm) (hs : s.dm.curState ≠ .reset) : s.core = s.sys.core := by
  rw [core, if_pos (h.softResetN hs)]

theorem sys_next (h : Stage T s.dm) (hs : s.dm.curState ≠ .reset) (e : LinkIn) :
    (s.next T D e).sys = s.sys.next (fun a => s.prog.dev (wordIndex a)) D (s.coreCycle e) := by
  show (if _ then _ else _) = _
  rw [if_pos (h.softResetN hs)]

/-- the halt request of the core changes with HALT, RESUME and RESET only -/
theorem haltReqIn_next (h : Stage T s.dm) (h1 : s.dm.curState ≠ .halt) (h2 : s.dm.curState ≠ .resume)
    (h3 : s.dm.curState ≠ .reset) (e : LinkIn) :
    (s.next T D e).sys.core.haltReqIn = s.sys.core.haltReqIn := by
  rw [sys_next h h3]
  simp [ArxCore.System.next, Core.next, ArxCore.System.pins, coreCycle, DebugModule.haltReq, DebugModule.resumeReq,
    h1, h2]

theorem live_next (h : s.sys.core.Live) (e : LinkIn) : (s.next T D e).sys.core.Live := by
  show (if _ then _ else _ : ArxCore.System σ).core.Live
  split
  · exact h.next _
  · exact .reset _

theorem Inv.init (T : ℕ) (dm : DebugModule.St) (c : Core) (d : σ) (m : WordMem) (bus : Word) :
    Inv T (init dm c d m bus) :=
  ⟨.reset T dm, .reset c, fun h => by rcases h with h | h <;> cases h⟩

/-- the bad dispatch, in terms of the packet -/
theorem wedges_iff (hs : s.dm.curState = .waitInput) (hP : Holds s.dm.parser p) (hh : s.sys.core.haltReqIn = false) :
    s.Wedges ↔ (dispatch p.cmd p.len = .read .data ∨ dispatch p.cmd p.len = .write .data) ∧
      Moves p (dispatch p.cmd p.len == .write .data) := by
  have hvalid : PacketParser.resValid s.dm.parser = true := by simp [PacketParser.resValid, hP.ready]
  have hread := (Packet.dispatch_copy (p := p) .data).1
  have hwrite := (Packet.dispatch_copy (p := p) .data).2
  have hfive : 5 ≤ s.dm.parser.resLen ↔ 5 ≤ p.payload.length := by
    rw [hP.len]
    exact p.le_len (n := 5) (by decide)
  have hfour : 4 < s.dm.parser.resLen ↔ 4 < p.payload.length := by
    rw [hP.len, BitVec.lt_def, p.toNat_len]
    rfl
  constructor
  · rintro ⟨-, -, -, -, ⟨hcmd, hlen, hne⟩ | ⟨hcmd, hlen⟩⟩
    · have hto := hread.2 ⟨hP.cmd.symm.trans hcmd, hfive.1 hlen⟩
      refine ⟨.inl hto, ?_⟩
      rw [hto]
      rwa [show s.dm.parser.resDataBuf 4 = p.byte 4 from hP.buf 4 (hfive.1 hlen)] at hne
    · have hto := hwrite.2 ⟨hP.cmd.symm.trans hcmd, (hfour.1 hlen).le⟩
      refine ⟨.inr hto, ?_⟩
      rw [hto]
      exact hfour.1 hlen
  · rintro ⟨hto | hto, hmoves⟩
    · rw [hto] at hmoves
      obtain ⟨hcmd, hlen⟩ := hread.1 hto
      refine ⟨hs, hvalid, hP.error, hh, .inl ⟨hP.cmd.trans hcmd, hfive.2 hlen, ?_⟩⟩
      rw [show s.dm.parser.resDataBuf 4 = p.byte 4 from hP.buf 4 hlen]
      exact hmoves
    · rw [hto] at hmoves
      obtain ⟨hcmd, -⟩ := hwrite.1 hto
      exact ⟨hs, hvalid, hP.error, hh, .inr ⟨hP.cmd.trans hcmd, hfour.2 hmoves⟩⟩

/-- a command that is dispatched starts from a packet in the parser -/
theorem dispatched (h : Stage T s.dm) (hs : s.dm.curState = .waitInput) (e : LinkIn)
    (hcopy : (s.next T D e).dm.curState = .read t ∨ (s.next T D e).dm.curState = .write t) :
    ∃ p, Holds s.dm.parser p ∧ (s.next T D e).dm.curState = dispatch p.cmd p.len := by
  have hnext : (s.next T D e).dm.curState = DebugModule.nextState T s.dm (s.pins e) := rfl
  cases h with
  | receive _ hP => simp [hnext, DebugModule.nextState, hs, hP.resValid] at hcopy
  | dispatch _ hP =>
    cases hP with
    | flagged hr he => simp [hnext, DebugModule.nextState, hs, PacketParser.resValid, hr, he] at hcopy
    | @packet p hp =>
      refine ⟨p, hp, ?_⟩
      simp [hnext, DebugModule.nextState, hs, PacketParser.resValid, hp.ready, hp.error, hp.cmd, hp.len]
  | drain h' | parity h' | send h' => simp [hs] at h'
  | exec h' => exact absurd (h' ▸ hs) (dispatch_ne _ _).1

/-- **Step.** -/
theorem Inv.next (h : Inv T s) (hw : ¬ s.Wedges) (e : LinkIn) : Inv T (s.next T D e) := by
  refine ⟨h.stage.next _, live_next h.live e, fun hcopy => ?_⟩
  rcases DebugModule.nextState_of_copy (T := T) (i := s.pins e) hcopy rfl with hs | hs
  · -- the transfer is dispatched
    rw [haltReqIn_next h.stage (by simp [hs]) (by simp [hs]) (by simp [hs]) e]
    cases hh : s.sys.core.haltReqIn with
    | true => exact .inl rfl
    | false =>
      obtain ⟨p, hp, hto⟩ := dispatched h.stage hs e hcopy
      refine .inr ⟨p, hp.stay (DebugModule.not_resReady (by simp [hs]) _), fun hmoves => hw ?_⟩
      rw [hto] at hcopy hmoves
      exact (wedges_iff hs hp hh).2 ⟨hcopy, hmoves⟩
  · -- it goes on
    have hsame : s.dm.curState = (s.next T D e).dm.curState := hs
    rw [← hsame] at hcopy ⊢
    have hne : s.dm.curState ≠ .halt ∧ s.dm.curState ≠ .resume ∧ s.dm.curState ≠ .reset ∧
        s.dm.curState ≠ .waitSend := by
      rcases hcopy with hc | hc <;> simp [hc]
    rw [haltReqIn_next h.stage hne.1 hne.2.1 hne.2.2.1 e]
    refine (h.served hcopy).imp id ?_
    rintro ⟨p, hp, hno⟩
    exact ⟨p, hp.stay (DebugModule.not_resReady hne.2.2.2 _), hno⟩

end Link

end FpgaLearning.Debug
