/-
Model of the board of `UartTest` (`UartTest/src/top.sv`): the loader and its memory behind the serial port, and the host of
`UartTest/tools/protocol.py`.

The loader holds a byte of an answer on its output for one cycle and drops it if there is no room. The host waits for
the four bytes of a read before he sends anything else, so the queue to the line never holds more than one answer. A frame
with two stop bits is a little shorter than the time the receiver takes for it, so the receiver may come late.

- `queue_le`: there is always room;
- `memory_over_line`: over the two wires of the line the host writes and reads the memory as his commands say.
-/
import FpgaLearning.Loader.Replies
import FpgaLearning.Uart.Rs232

namespace FpgaLearning.Loader

open FpgaLearning.SerialLine FpgaLearning.Uart

/-! ## The host -/

namespace Command

/-- `write_word` and `read_word` -/
def bytes : Command .uartTest → List Byte
  | .write a d => 0 :: a :: wordBytes d
  | .read a => [1, a]

/-- as many bytes `read_word` waits for -/
def awaited : Command .uartTest → ℕ
  | .write _ _ => 0
  | .read _ => 4

end Command

theorem bigEndian_wordBytes (w : Word) : BitVec.ofNat 32 (bigEndian (wordBytes w)) = w := by
  apply BitVec.eq_of_toNat_eq
  have hw := w.isLt
  simp only [bigEndian, wordBytes, List.foldl_cons, List.foldl_nil, BitVec.extractLsb'_toNat, BitVec.toNat_ofNat,
    Nat.shiftRight_eq_div_pow]
  omega

theorem bigEndian_byte (b : Byte) : BitVec.ofNat 8 (bigEndian [b]) = b := by
  apply BitVec.eq_of_toNat_eq
  simp [bigEndian]

theorem commands_bytes (c : Command .uartTest) (r : List Byte) :
    commands .uartTest (c.bytes ++ r) = c :: commands .uartTest r := by
  cases c with
  | write a d =>
    have h := @commands_write .uartTest 0 (by decide) [a] (wordBytes d) rfl rfl r
    rw [bigEndian_wordBytes] at h
    exact h.trans (congrArg (fun x => Command.write x d :: _) (bigEndian_byte a))
  | read a =>
    have h := @commands_read .uartTest 1 (by decide) [a] rfl r
    exact h.trans (congrArg (fun x => Command.read x :: _) (bigEndian_byte a))

theorem commands_flatMap (cs : List (Command .uartTest)) (r : List Byte) :
    commands .uartTest (cs.flatMap Command.bytes ++ r) = cs ++ commands .uartTest r := by
  induction cs with
  | nil => rfl
  | cons c cs ih => rw [List.flatMap_cons, List.append_assoc, commands_bytes, ih, List.cons_append]

/-- the beginning of a command is none -/
theorem commands_part {c : Command .uartTest} {l : List Byte} (hl : l <+: c.bytes) (hlt : l.length < c.bytes.length) :
    commands .uartTest l = [] := by
  cases l with
  | nil => rw [commands]
  | cons op l =>
    cases c with
    | write a d =>
      obtain ⟨rfl, -⟩ := List.cons_prefix_cons.1 hl
      refine commands_short_write (by decide) ?_
      change l.length + 1 < 6 at hlt
      change l.length < 5
      omega
    | read a =>
      refine commands_short ?_
      change l.length + 1 < 2 at hlt
      change l.length < 1
      omega

/-- what has come of the bytes of `cs` are commands of `cs` and the beginning of the next one -/
theorem commands_le {cs : List (Command .uartTest)} {l : List Byte} (h : l <+: cs.flatMap Command.bytes) :
    commands .uartTest l <+: cs ∧ (commands .uartTest l).flatMap Command.bytes <+: l := by
  induction cs generalizing l with
  | nil =>
    obtain rfl := List.prefix_nil.1 h
    rw [commands]
    exact ⟨List.prefix_refl _, List.prefix_refl _⟩
  | cons c cs ih =>
    rw [List.flatMap_cons] at h
    rcases Nat.lt_or_ge l.length c.bytes.length with hlt | hge
    · have hpart : l <+: c.bytes := List.prefix_of_prefix_length_le h (List.prefix_append _ _) hlt.le
      rw [commands_part hpart hlt]
      exact ⟨List.nil_prefix, List.nil_prefix⟩
    · obtain ⟨l', rfl⟩ := List.prefix_of_prefix_length_le (List.prefix_append _ _) h hge
      obtain ⟨hle, hbytes⟩ := ih ((List.prefix_append_right_inj _).1 h)
      rw [commands_bytes, List.flatMap_cons]
      exact ⟨List.cons_prefix_cons.2 ⟨rfl, hle⟩, (List.prefix_append_right_inj _).2 hbytes⟩

/-- commands that have come completely are taken -/
theorem le_commands {ps : List (Command .uartTest)} {l : List Byte} (h : ps.flatMap Command.bytes <+: l) :
    ps <+: commands .uartTest l := by
  obtain ⟨r, rfl⟩ := h
  rw [commands_flatMap]
  exact List.prefix_append _ _

theorem replies_length (m : Mem .uartTest) (ps : List (Command .uartTest)) :
    (replies m ps).length = (ps.map Command.awaited).sum := by
  induction ps generalizing m with
  | nil => rfl
  | cons c ps ih =>
    rw [replies, List.length_append, ih, List.map_cons, List.sum_cons]
    cases c <;> rfl

theorem replies_mono (m : Mem .uartTest) {ps qs : List (Command .uartTest)} (h : ps <+: qs) :
    replies m ps <+: replies m qs := by
  obtain ⟨r, rfl⟩ := h
  induction ps generalizing m with
  | nil => exact List.nil_prefix
  | cons c ps ih => exact (List.prefix_append_right_inj _).2 (ih _)

theorem awaited_mono {ps qs : List (Command .uartTest)} (h : ps <+: qs) :
    (ps.map Command.awaited).sum ≤ (qs.map Command.awaited).sum := by
  obtain ⟨r, rfl⟩ := h
  rw [List.map_append, List.sum_append]
  exact Nat.le_add_right _ _

/-! ## How long the loader takes no bytes -/

namespace LoaderSession

open UartMemInit

variable {v : Version} {m : Mem v} {s : LoaderSession v} {i : LoaderIn}

/-- the cycles until the loader takes bytes again, with a receiver that is ready -/
def wait (s : LoaderSession v) : ℕ :=
  match s.unit.state with
  | .cmd | .addr | .data => 0
  | .exec => if s.unit.cmd.getLsbD 0 then 5 else 2
  | .memRead => 4 - s.unit.dataCnt.toNat
  | .memWrite => 1

theorem wait_le (s : LoaderSession v) : s.wait ≤ 5 := by
  rw [wait]
  split <;> (try split) <;> omega

theorem ready_of_wait (h : s.wait = 0) : fromUartReady s.unit = true := by
  have hcnt := s.unit.dataCnt.isLt
  cases hs : s.unit.state <;> simp only [wait, hs] at h <;> simp only [fromUartReady, hs]
  · split at h <;> omega
  · omega
  · omega

/-- without a byte the loader stays as it is -/
theorem wait_step_quiet (h : s.wait = 0) (hno : s.accepts i = false) : (s.step i).wait = 0 := by
  have hready := ready_of_wait h
  have hv : i.fromUartValid = false := by rwa [accepts, hready, Bool.true_and] at hno
  cases hs : s.unit.state <;> simp only [fromUartReady, hs, Bool.false_eq_true] at hready <;>
    simp [wait, step, next, hs, hv]

theorem wait_step_busy (h : Phase m s) (hr : i.toUartReady = true) (hw : 0 < s.wait) : (s.step i).wait + 1 = s.wait := by
  cases h with
  | cmd _ hs | addr _ _ _ hs | data _ _ _ _ hs => simp [wait, hs] at hw
  | exec _ _ hs _ hcnt =>
    cases hc : s.unit.cmd.getLsbD 0
    all_goals simp only [wait, step, next, hs, hc, hcnt, if_true, Bool.false_eq_true, if_false]
    rfl
  | memRead _ _ k hs _ hk hcnt =>
    have hcases : k = 0 ∨ k = 1 ∨ k = 2 ∨ k = 3 := by omega
    rcases hcases with rfl | rfl | rfl | rfl <;> simp [wait, step, next, hs, hr, hcnt]
  | memWrite _ _ hs => simp [wait, step, next, hs]

theorem shown_le_next (s : LoaderSession v) : s.shown <+: s.shownNext := by
  rw [shownNext]
  split
  · exact List.prefix_append _ _
  · exact List.prefix_refl _

variable (x : St v) (m : Mem v) (r : Word) (inp : ℕ → LoaderIn)

/-- the loader has taken a byte less than six cycles ago, or it takes the next one -/
theorem wait_run (n : ℕ) (hready : ∀ k < n, 0 < k → (inp k).toUartReady = true) : (after x m r inp n).wait = 0 ∨
    ∃ k < n, (after x m r inp k).accepts (inp k) = true ∧ n + (after x m r inp n).wait ≤ k + 6 := by
  induction n with
  | zero => exact .inl rfl
  | succ n ih =>
    have ih := ih fun k hk => hready k (Nat.lt_succ_of_lt hk)
    have hle := wait_le (after x m r inp (n + 1))
    rw [after_succ] at hle ⊢
    by_cases hw : (after x m r inp n).wait = 0
    · cases hacc : (after x m r inp n).accepts (inp n) with
      | false => exact .inl (wait_step_quiet hw hacc)
      | true => exact .inr ⟨n, Nat.lt_succ_self n, hacc, by omega⟩
    · obtain ⟨k, hk, hacc, hsum⟩ := ih.resolve_left hw
      have hstep := wait_step_busy (run_phase x m r inp n) (hready n (Nat.lt_succ_self n) (by omega)) (by omega)
      exact .inr ⟨k, Nat.lt_succ_of_lt hk, hacc, by omega⟩

/-- it takes the next one in the end -/
theorem wait_ends (hready : ∀ k, 0 < k → (inp k).toUartReady = true) (n : ℕ) :
    ∃ k, n ≤ k ∧ (after x m r inp k).wait = 0 := by
  induction hw : (after x m r inp n).wait generalizing n with
  | zero => exact ⟨n, le_rfl, hw⟩
  | succ w ih =>
    have hpos : 0 < n := by
      by_contra hzero
      obtain rfl : n = 0 := by omega
      cases hw
    have hstep := wait_step_busy (run_phase x m r inp n) (hready n hpos) (by omega)
    rw [← after_succ] at hstep
    obtain ⟨k, hk, hzero⟩ := ih (n + 1) (by omega)
    exact ⟨k, by omega, hzero⟩

end LoaderSession

/-! ## The wiring -/

/-- the serial port has no parity -/
def plain : Coding .uartTest := .plain .uartTest

structure SerialMemory (F : Scfifo (Params.uartTest.dw + 1)) where
  session : LoaderSession .uartTest
  uart : Rs232 .uartTest F

/-- one cycle of the surroundings: the line from the host, and what the memory puts out when it is written -/
structure SerialIn where
  uartRx : Bool
  bus : Word

namespace SerialMemory

section

variable {F : Scfifo (Params.uartTest.dw + 1)} (s : SerialMemory F) (i : SerialIn)

def loaderIn : LoaderIn := ⟨s.uart.fromUartData plain, s.uart.fromUartValid, s.uart.toUartReady, i.bus⟩

def uartIn : Rs232.Input plain where
  reset := false
  fromUartReady := UartMemInit.fromUartReady s.session.unit
  toUartData := s.session.unit.toUartData
  toUartError := false
  toUartValid := s.session.unit.toUartValid
  uartRxd := i.uartRx

def step : SerialMemory F := ⟨s.session.step (s.loaderIn i), s.uart.step (s.uartIn i)⟩

/-- the byte that the serial port hands over -/
def received : Option Byte := (s.uart.delivered (s.uartIn i)).map Prod.fst

/-- the byte that the serial port takes -/
def sent : Option Byte := s.uart.accepted (s.uartIn i)

/-- the byte that is put on the line -/
def loaded : Option Byte := s.uart.outSerializer.loaded

/-- the bytes that wait for the line -/
def queue : List Byte := F.contents s.uart.outSerializer.fifo

theorem received_eq : s.received i =
    if s.session.accepts (s.loaderIn i) then some (s.loaderIn i).fromUartData else none := by
  change Option.map Prod.fst (if s.session.accepts (s.loaderIn i) then _ else none) = _
  cases s.session.accepts (s.loaderIn i) <;> rfl

theorem accepted_step : (s.step i).session.accepted = s.session.accepted ++ (s.received i).toList := by
  rw [received_eq]
  change (if s.session.accepts (s.loaderIn i) then _ else _) = _
  split
  · rfl
  · exact (List.append_nil _).symm

theorem transferred_step : (s.step i).session.transferred = s.session.transferred ++ (s.sent i).toList := by
  have hsent : s.sent i = if s.session.transfers (s.loaderIn i) then some s.session.unit.toUartData else none := rfl
  rw [hsent]
  change (if s.session.transfers (s.loaderIn i) then _ else _) = _
  split
  · rfl
  · exact (List.append_nil _).symm

end

variable (F : Scfifo (Params.uartTest.dw + 1)) (x : St .uartTest) (m : Mem .uartTest) (r : Word)

/-- `n` cycles after reset, with the memory `m` -/
def run (inp : ℕ → SerialIn) (n : ℕ) : SerialMemory F := Clocked.run step inp ⟨.start x m r, .init F⟩ n

/-- the queue to the line has not been full before cycle `n` -/
def Room (inp : ℕ → SerialIn) (n : ℕ) : Prop := ∀ k < n, F.full (run F x m r inp k).uart.outSerializer.fifo = false

/-- what a host reads off the line before cycle `n` -/
def heard (S : Sampling) (inp : ℕ → SerialIn) (n : ℕ) : List Byte :=
  logOf (S.frames (fun n => (run F x m r inp n).uart.uartTxd) (Params.uartTest.dw + 1)) n

variable {F x m r} {inp : ℕ → SerialIn}

theorem session_run (n : ℕ) : (run F x m r inp n).session =
    LoaderSession.after x m r (fun n => (run F x m r inp n).loaderIn (inp n)) n := by
  induction n with
  | zero => rfl
  | succ n ih =>
    change (run F x m r inp n).session.step _ = LoaderSession.step _ _
    rw [ih]
    rfl

theorem uart_run (n : ℕ) : (run F x m r inp n).uart =
    Rs232.run F (fun n => (run F x m r inp n).uartIn (inp n)) n := by
  induction n with
  | zero => rfl
  | succ n ih =>
    change (run F x m r inp n).uart.step _ = Rs232.step _ _
    rw [ih]
    rfl

variable (F x m r inp) in
theorem phase_run (n : ℕ) : LoaderSession.Phase m (run F x m r inp n).session := by
  rw [session_run]
  exact LoaderSession.run_phase x m r _ n

/-- the loader takes what the serial port hands over -/
theorem accepted_eq (n : ℕ) :
    (run F x m r inp n).session.accepted = logOf (fun n => (run F x m r inp n).received (inp n)) n := by
  induction n with
  | zero => rfl
  | succ n ih =>
    rw [logOf_succ, ← ih]
    exact accepted_step _ _

/-- the serial port takes what arrives from the loader -/
theorem transferred_eq (n : ℕ) :
    (run F x m r inp n).session.transferred = logOf (fun n => (run F x m r inp n).sent (inp n)) n := by
  induction n with
  | zero => rfl
  | succ n ih =>
    rw [logOf_succ, ← ih]
    exact transferred_step _ _

/-! ### Room for the answers -/

/-- a receiver with room is always ready, from the second cycle on -/
theorem ready_of_room {N : ℕ} (hroom : Room F x m r inp N) {n : ℕ}
    (hpos : 0 < n) (hn : n ≤ N) : (run F x m r inp n).uart.toUartReady = true := by
  obtain ⟨k, rfl⟩ := Nat.exists_eq_add_of_lt hpos
  rw [Nat.zero_add] at hn ⊢
  have hk := hroom k hn
  rw [uart_run] at hk ⊢
  exact Rs232.toUartReady_succ (fun _ => rfl) hk

/-- while there was room, everything that was shown has arrived -/
theorem transferred_shown {n : ℕ} (hroom : Room F x m r inp n) :
    (run F x m r inp n).session.transferred = (run F x m r inp n).session.shown := by
  rw [session_run, LoaderSession.transferred_eq_iff]
  intro k hk hvalid
  cases k with
  | zero => cases hvalid
  | succ k => exact ready_of_room hroom (Nat.succ_pos k) hk.le

/-- what arrives is put on the line or waits for it -/
theorem loaded_log {n : ℕ} (hroom : Room F x m r inp n) :
    logOf (fun n => (run F x m r inp n).loaded) n ++ (run F x m r inp n).queue =
      (run F x m r inp n).session.transferred := by
  have hsent : (fun n => (run F x m r inp n).sent (inp n)) = fun n =>
      (Rs232.run F (fun n => (run F x m r inp n).uartIn (inp n)) n).accepted ((run F x m r inp n).uartIn (inp n)) :=
    funext fun n => by rw [← uart_run]; rfl
  rw [transferred_eq, hsent]
  simp only [Room, loaded, queue, uart_run] at hroom ⊢
  exact (Rs232.out_log (fun _ => rfl) hroom).trans (List.map_id _)

/-- as long as there is room, the loader takes a byte when it has taken none for six cycles -/
theorem takes_in_time {n : ℕ} (hroom : Room F x m r inp n)
    (hquiet : ∀ k < n, n < k + 6 → (run F x m r inp k).received (inp k) = none) :
    UartMemInit.fromUartReady (run F x m r inp n).session.unit = true := by
  have hwait := LoaderSession.wait_run x m r (fun n => (run F x m r inp n).loaderIn (inp n)) n
    fun k hk hpos => ready_of_room hroom hpos hk.le
  simp only [← session_run] at hwait
  refine LoaderSession.ready_of_wait ?_
  by_contra hbusy
  obtain ⟨k, hk, hacc, hsum⟩ := hwait.resolve_left hbusy
  have hnone := hquiet k hk (by omega)
  rw [received_eq, hacc, if_pos rfl] at hnone
  cases hnone

/-! ### The commands that come over the line -/

/-- the host has read the answers to all commands before the byte that he sends next -/
def Answered (cs : List (Command .uartTest)) (f : ℕ → Option Byte) (heard : ℕ → List Byte)
    (n : ℕ) : Prop :=
  ∀ ps, ps <+: cs → (ps.flatMap Command.bytes).length ≤ (logOf f n).length →
    (ps.map Command.awaited).sum ≤ (heard n).length

/-- the host sends the bytes of his commands, and goes on after a read when he has read its answer -/
structure Asks (cs : List (Command .uartTest)) (f : ℕ → Option Byte) (heard : ℕ → List Byte) :
    Prop where
  sends : ∀ n, logOf f n <+: cs.flatMap Command.bytes
  waits : ∀ n, (f n).isSome → Answered cs f heard n

variable {num den lag : ℕ} {phase : ℕ → ℕ} {f : ℕ → Option Byte} {S : Sampling}
  {cs : List (Command .uartTest)} (hlatency : F.latency ≤ 4780) (hkeeps : Params.uartTest.KeepsUp num den lag)
  (hhost : SendsTicks num den 11 phase (fun n => (inp n).uartRx) f) (hlag : Params.uartTest.InTime lag f)
  (hS : Params.uartTest.ReadBy S) (hasks : Asks cs f (heard F x m r S inp))

include hlatency hkeeps hhost hlag

/-- as long as there is room for the answers, the loader takes the bytes of the host, each at most a fixed time late -/
theorem accepted_bounds {n : ℕ} (hroom : Room F x m r inp n) :
    (run F x m r inp n).session.accepted <+: logOf f (n - 4787) ∧
      logOf f (n - 4787 - (F.latency + 1) - lag) <+: (run F x m r inp n).session.accepted := by
  have hbits : Params.uartTest.allBits = 4785 := rfl
  have hreceived : ∀ k, (run F x m r inp k).received (inp k) =
      ((Rs232.run F (fun n => (run F x m r inp n).uartIn (inp n)) k).delivered ((run F x m r inp k).uartIn (inp k))).map
        Prod.fst := fun k => by rw [← uart_run]; rfl
  obtain ⟨hle, hge⟩ := @Rs232.delivered_soon .uartTest _ plain F (fun n => (run F x m r inp n).uartIn (inp n)) 6 n
    (fun _ => rfl) rfl Sampling.frames_apart (fun k hk _ hquiet => takes_in_time (fun j hj => hroom j (hj.trans hk))
      fun j hj hkj => by rw [hreceived, hquiet j hj hkj]; rfl) (by rw [hbits]; omega) n le_rfl
  have hread (l : List (BitVec (Params.uartTest.dw + 1))) : (l.map (Rs232.reading plain)).map Prod.fst = l := by
    rw [List.map_map]
    exact List.map_id l
  have hle := hle.map Prod.fst
  have hge := hge.map Prod.fst
  rw [hread, ← logOf_map] at hle hge
  simp only [← hreceived] at hle hge
  have hlate := fun n => hkeeps.frames_late (by decide) hhost hlag n
  rw [accepted_eq]
  exact ⟨hle.trans (hlate _).1, (hlate _).2.trans hge⟩

omit hlatency hkeeps hhost hlag

/-- what is put on the line has been heard two cycles later -/
theorem heard_eq (hS : Params.uartTest.ReadBy S) (n : ℕ) :
    heard F x m r S inp n = logOf (fun n => (run F x m r inp n).loaded) (n - 2) := by
  have hframes := @Rs232.out_frames .uartTest plain F (fun n => (run F x m r inp n).uartIn (inp n)) S hS fun _ => rfl
  simp only [← uart_run] at hframes
  exact (congrArg (fun e => logOf e n) hframes).trans logOf_delay

variable (F x m r S inp) in
theorem heard_mono {n k : ℕ} (h : n ≤ k) : heard F x m r S inp n <+: heard F x m r S inp k := logOf_mono h

/-- the host waits for one answer at most -/
theorem awaited_le (hasks : Asks cs f (heard F x m r S inp)) {n : ℕ} {l : List Byte} (hl : l <+: logOf f n) :
    ((commands .uartTest l).map Command.awaited).sum ≤ (heard F x m r S inp n).length + 4 := by
  obtain ⟨hle, hbytes⟩ := commands_le (hl.trans (hasks.sends n))
  rcases List.eq_nil_or_concat (commands .uartTest l) with hnil | ⟨ps, c, hps⟩
  · rw [hnil]
    exact Nat.zero_le _
  · -- when the first byte of the last command was sent, the answers to those before had been heard
    rw [hps, List.concat_eq_append] at hle hbytes ⊢
    have hlen := hbytes.length_le.trans hl.length_le
    rw [List.flatMap_append, List.flatMap_singleton, List.length_append] at hlen
    have hpos : 0 < c.bytes.length := by cases c <;> exact Nat.succ_pos _
    have hawaited : c.awaited ≤ 4 := by cases c <;> simp [Command.awaited]
    obtain ⟨k, hk, hfk, hfklen⟩ := event_of_lt_length (show (ps.flatMap Command.bytes).length < (logOf f n).length by omega)
    have hanswered := hasks.waits k hfk ps ((List.prefix_append _ _).trans hle) hfklen.ge
    have hmono := (heard_mono F x m r inp S hk.le).length_le
    rw [List.map_append, List.sum_append, List.map_singleton, List.sum_singleton]
    omega

include hlatency hkeeps hhost hlag hasks

/-- what comes over the line are commands of the host -/
theorem accepted_asked {n : ℕ} (hroom : Room F x m r inp n) :
    (run F x m r inp n).session.accepted <+: cs.flatMap Command.bytes :=
  (accepted_bounds hlatency hkeeps hhost hlag hroom).1.trans (hasks.sends _)

include hS

/-- no more than one answer waits for the line -/
theorem queue_le {n : ℕ} (hroom : Room F x m r inp n) : (run F x m r inp n).queue.length ≤ 4 := by
  have hlog := congrArg List.length (loaded_log hroom)
  rw [transferred_shown hroom, List.length_append] at hlog
  have hshown := (phase_run F x m r inp n).shown_le.length_le
  rw [replies_length] at hshown
  have hheard := (logOf_mono (e := fun n => (run F x m r inp n).loaded) (Nat.sub_le n 2)).length_le
  rw [← heard_eq hS] at hheard
  have hawaited := awaited_le hasks ((accepted_bounds hlatency hkeeps hhost hlag hroom).1.trans (logOf_mono (Nat.sub_le _ _)))
  have hnext := (LoaderSession.shown_le_next (run F x m r inp n).session).length_le
  omega

/-- **There is always room.** -/
theorem room (n : ℕ) : Room F x m r inp n := by
  induction n with
  | zero => exact fun k hk => absurd hk (Nat.not_lt_zero k)
  | succ n ih =>
    intro k hk
    rcases Nat.lt_succ_iff_lt_or_eq.1 hk with hlt | rfl
    · exact ih k hlt
    · have hle : (F.contents (run F x m r inp k).uart.outSerializer.fifo).length ≤ 4 :=
        queue_le hlatency hkeeps hhost hlag hS hasks ih
      rw [Bool.eq_false_iff, Ne, Scfifo.full_iff]
      omega

/-! ### Progress -/

omit hlatency hkeeps hhost hlag hS hasks in
/-- what waits for the line is put on it -/
theorem loads_again {n : ℕ} (hne : (run F x m r inp n).queue ≠ []) : ∃ k, n ≤ k ∧ ((run F x m r inp k).loaded).isSome := by
  rw [queue, uart_run] at hne
  obtain ⟨k, hk, hloaded⟩ := Rs232.out_loads (fun _ => rfl) hne
  rw [← uart_run] at hloaded
  exact ⟨k, hk, hloaded⟩

/-- whatever has arrived from the loader is heard -/
theorem hears {n c : ℕ} (hc : c ≤ (run F x m r inp n).session.transferred.length) :
    ∃ k, n ≤ k ∧ c ≤ (heard F x m r S inp k).length := by
  have hroom := fun n => room hlatency hkeeps hhost hlag hS hasks n
  obtain ⟨k, hk, hck⟩ := @length_ge_of_events _ n (fun n => (run F x m r inp n).loaded) c fun k hk hlt => by
    have hlog := congrArg List.length (loaded_log (hroom k))
    have hmono := (logOf_mono (e := fun n => (run F x m r inp n).sent (inp n)) hk).length_le
    rw [← transferred_eq, ← transferred_eq] at hmono
    rw [List.length_append] at hlog
    exact loads_again (List.ne_nil_of_length_pos (by omega))
  exact ⟨k + 2, by omega, by rw [heard_eq hS]; exact hck⟩

/-- the host goes on as long as he may -/
def GoesOn (cs : List (Command .uartTest)) (f : ℕ → Option Byte) (heard : ℕ → List Byte) : Prop :=
  ∀ n, (logOf f n).length < (cs.flatMap Command.bytes).length → Answered cs f heard n → ∃ k, n ≤ k ∧ (f k).isSome

omit hlatency hkeeps hhost hlag hS hasks in
/-- when the answers to `ps` have been heard, the host sends the next command to its end -/
theorem GoesOn.next (hgoes : GoesOn cs f (heard F x m r S inp)) {ps : List (Command .uartTest)} {c : Command .uartTest}
    (hps : ps ++ [c] <+: cs) {n : ℕ} (hheard : (ps.map Command.awaited).sum ≤ (heard F x m r S inp n).length) :
    ∃ k, n ≤ k ∧ ((ps ++ [c]).flatMap Command.bytes).length ≤ (logOf f k).length := by
  refine length_ge_of_events fun k hk hlt => ?_
  have hmono := (heard_mono F x m r inp S hk).length_le
  -- the commands before the next byte are among `ps`
  exact hgoes k (hlt.trans_le (hps.flatMap _).length_le) fun qs hqs hlen =>
    (awaited_mono (sent_le hps hqs (hlen.trans_lt hlt))).trans (hheard.trans hmono)

/-- the loader takes all commands that have been sent -/
theorem takes {ps : List (Command .uartTest)} (hps : ps <+: cs) {n : ℕ}
    (hsent : (ps.flatMap Command.bytes).length ≤ (logOf f n).length) :
    ∃ k, n ≤ k ∧ (run F x m r inp k).session.wait = 0 ∧ ps <+: commands .uartTest (run F x m r inp k).session.accepted := by
  have hroom := fun n => room hlatency hkeeps hhost hlag hS hasks n
  obtain ⟨k, hk, hwait⟩ := LoaderSession.wait_ends x m r (fun n => (run F x m r inp n).loaderIn (inp n))
    (fun k hpos => ready_of_room (hroom k) hpos le_rfl) (n + 4787 + (F.latency + 1) + lag)
  rw [← session_run] at hwait
  refine ⟨k, by omega, hwait, le_commands ?_⟩
  have hge := (accepted_bounds hlatency hkeeps hhost hlag (hroom k)).2
  have hmono := (logOf_mono (e := f) (show n ≤ k - 4787 - (F.latency + 1) - lag by omega)).trans hge
  obtain ⟨rest, rfl⟩ := hps
  have hasked := accepted_asked hlatency hkeeps hhost hlag hasks (hroom k)
  rw [List.flatMap_append] at hasked
  exact List.prefix_of_prefix_length_le (List.prefix_append _ _) hasked (hsent.trans hmono.length_le)

/-- **Every answer is heard.** -/
theorem hears_all (hgoes : GoesOn cs f (heard F x m r S inp)) {ps : List (Command .uartTest)} (hps : ps <+: cs) :
    ∃ n, (ps.flatMap Command.bytes).length ≤ (logOf f n).length ∧
      (ps.map Command.awaited).sum ≤ (heard F x m r S inp n).length := by
  -- induction on the commands: the answers to those before have been heard
  induction ps using List.reverseRecOn with
  | nil => exact ⟨0, Nat.zero_le _, Nat.zero_le _⟩
  | append_singleton ps c ih =>
    obtain ⟨n, -, hheard⟩ := ih ((List.prefix_append ps [c]).trans hps)
    obtain ⟨j, -, hsent⟩ := hgoes.next hps hheard
    obtain ⟨k, hjk, hwait, htaken⟩ := takes hlatency hkeeps hhost hlag hS hasks hps hsent
    have hroom := fun n => room hlatency hkeeps hhost hlag hS hasks n
    have hready := ((phase_run F x m r inp k).of_ready (LoaderSession.ready_of_wait hwait)).2
    have hshown : (run F x m r inp (k + 1)).session.shown = (run F x m r inp k).session.shownNext := rfl
    have hlen : ((ps ++ [c]).map Command.awaited).sum ≤ (run F x m r inp (k + 1)).session.transferred.length := by
      rw [transferred_shown (hroom _), hshown, hready, replies_length]
      exact awaited_mono htaken
    obtain ⟨i, hi, hall⟩ := hears hlatency hkeeps hhost hlag hS hasks hlen
    have hmono := (logOf_mono (e := f) (show j ≤ i by omega)).length_le
    exact ⟨i, by omega, hall⟩

/-- what the host hears are answers to his commands -/
theorem heard_le (n : ℕ) : heard F x m r S inp n <+: replies m cs := by
  have hroom := room hlatency hkeeps hhost hlag hS hasks (n - 2)
  have hasked := accepted_asked hlatency hkeeps hhost hlag hasks hroom
  rw [heard_eq hS]
  have hshown : logOf (fun n => (run F x m r inp n).loaded) (n - 2) <+: (run F x m r inp (n - 2)).session.shown :=
    ⟨_, (loaded_log hroom).trans (transferred_shown hroom)⟩
  exact (hshown.trans (LoaderSession.shown_le_next _)).trans
    ((phase_run F x m r inp (n - 2)).shown_le.trans (replies_mono m (commands_le hasked).1))

/-- the memory is always that after some of his commands -/
theorem mem_le (n : ℕ) : ∃ ps, ps <+: cs ∧ (run F x m r inp n).session.mem = memAfter m ps := by
  cases n with
  | zero => exact ⟨[], List.nil_prefix, rfl⟩
  | succ n =>
    have hasked := accepted_asked hlatency hkeeps hhost hlag hasks (room hlatency hkeeps hhost hlag hS hasks n)
    obtain ⟨ps, hps, hmem⟩ := (phase_run F x m r inp n).mem_le
    exact ⟨ps, hps.trans (commands_le hasked).1, hmem⟩

/-- when all commands have been taken, the loader rests -/
theorem rests {k : ℕ} (hwait : (run F x m r inp k).session.wait = 0)
    (htaken : cs <+: commands .uartTest (run F x m r inp k).session.accepted) {n : ℕ} (hn : k ≤ n) :
    (run F x m r inp n).session.wait = 0 ∧ (run F x m r inp n).session.accepted = cs.flatMap Command.bytes := by
  have hasked := fun n => accepted_asked hlatency hkeeps hhost hlag hasks (room hlatency hkeeps hhost hlag hS hasks n)
  induction hn with
  | refl =>
    obtain ⟨hle, hbytes⟩ := commands_le (hasked k)
    rw [hle.eq_of_length_le htaken.length_le] at hbytes
    exact ⟨hwait, (hasked k).eq_of_length_le hbytes.length_le⟩
  | @step n hn ih =>
    obtain ⟨hwait, hall⟩ := ih
    have hnext : (run F x m r inp (n + 1)).session.accepted = _ := accepted_step _ (inp n)
    have hle := (hasked (n + 1)).length_le
    change (run F x m r inp (n + 1)).session.accepted =
      (run F x m r inp n).session.accepted ++ ((run F x m r inp n).received (inp n)).toList at hnext
    rw [hnext, hall, List.length_append] at hle
    have hnone : (run F x m r inp n).received (inp n) = none :=
      Option.toList_eq_nil_iff.1 (List.eq_nil_of_length_eq_zero (by omega))
    refine ⟨LoaderSession.wait_step_quiet hwait ?_, by rw [hnext, hall, hnone, Option.toList_none, List.append_nil]⟩
    rw [received_eq] at hnone
    split at hnone
    · cases hnone
    · next hno => exact Bool.eq_false_iff.2 hno

/-- **The memory over the line.** A host with a clock of his own writes words and reads them back, and waits for the answer of
each read. Every byte he hears is the next one of the answers, and the memory is never anything else than after some of his
commands. If he goes on, he hears all answers, and the memory is in the end that after all his commands. -/
theorem memory_over_line :
    (∀ n, heard F x m r S inp n <+: replies m cs ∧ ∃ ps, ps <+: cs ∧ (run F x m r inp n).session.mem = memAfter m ps) ∧
      (GoesOn cs f (heard F x m r S inp) →
        ∃ n, ∀ k, n ≤ k → heard F x m r S inp k = replies m cs ∧ (run F x m r inp k).session.mem = memAfter m cs) := by
  refine ⟨fun n => ⟨heard_le hlatency hkeeps hhost hlag hS hasks n, mem_le hlatency hkeeps hhost hlag hS hasks n⟩,
    fun hgoes => ?_⟩
  obtain ⟨n, hsent, hheard⟩ := hears_all hlatency hkeeps hhost hlag hS hasks hgoes (List.prefix_refl cs)
  obtain ⟨j, hnj, hwait, htaken⟩ := takes hlatency hkeeps hhost hlag hS hasks (List.prefix_refl cs) hsent
  refine ⟨j + 1, fun k hk => ⟨?_, ?_⟩⟩
  · refine (heard_le hlatency hkeeps hhost hlag hS hasks k).eq_of_length_le ?_
    rw [replies_length]
    exact hheard.trans (heard_mono F x m r inp S (by omega)).length_le
  · obtain ⟨i, rfl⟩ := Nat.exists_eq_add_of_le' (show 1 ≤ k by omega)
    obtain ⟨hwait, hall⟩ := rests hlatency hkeeps hhost hlag hS hasks hwait htaken (show j ≤ i by omega)
    have hmem := ((phase_run F x m r inp i).of_ready
      (LoaderSession.ready_of_wait hwait)).1
    have hcs : commands .uartTest (cs.flatMap Command.bytes) = cs := by
      have h := commands_flatMap cs []
      rwa [List.append_nil, commands, List.append_nil] at h
    rw [hall, hcs] at hmem
    exact hmem

omit hlatency hkeeps hhost hlag hS hasks

/-! ### A write and a read -/

/-- a word to address 11, and back -/
def writeRead : List (Command .uartTest) := [.write 11 0xABCDABCE, .read 11]

/-- the bytes one behind the other, at 115200 baud -/
def writeReadLine (n : ℕ) : SerialIn := ⟨rowLine 434 10 (11 * 434) (writeRead.flatMap Command.bytes) n, 0⟩

def writeReadBytes : ℕ → Option Byte := row 10 (11 * 434) (writeRead.flatMap Command.bytes)

theorem writeReadBytes_le (n : ℕ) : logOf writeReadBytes n <+: writeRead.flatMap Command.bytes := by
  rw [writeReadBytes, logOf_row (by decide)]
  exact List.take_prefix _ _

theorem writeReadLine_sends : SendsTicks 434 1 11 (fun _ => 0) (fun n => (writeReadLine n).uartRx) writeReadBytes :=
  sendsTicks_row (by decide) (by decide) 10 (writeRead.flatMap Command.bytes)

/-- the receiver is late by 14 cycles with every byte -/
theorem writeRead_inTime : Params.uartTest.InTime 206 writeReadBytes :=
  Params.inTime_of_apart (apart_of_ticks writeReadLine_sends.phase_lt (show 4774 * 1 ≤ 11 * 434 by decide)
    writeReadLine_sends.apart) (k := 8) (fun n => (writeReadBytes_le n).length_le) (by decide)

theorem writeRead_asks (heard : ℕ → List Byte) : Asks writeRead writeReadBytes heard := by
  refine ⟨writeReadBytes_le, fun n hn ps hps hlen => ?_⟩
  -- with the byte of this cycle the commands cannot all be over
  have hle := (writeReadBytes_le (n + 1)).length_le
  rw [length_logOf_succ hn] at hle
  have hlt : ps.length < 2 := by
    by_contra hge
    obtain rfl := hps.eq_of_length_le (not_lt.1 hge)
    omega
  obtain ⟨k, rfl⟩ : ∃ k, ps = writeRead.take k := ⟨ps.length, List.prefix_iff_eq_take.1 hps⟩
  have hk : k = 0 ∨ k = 1 ∨ 2 ≤ k := by omega
  rcases hk with rfl | rfl | hk
  · exact Nat.zero_le _
  · exact Nat.zero_le _
  · rw [List.take_of_length_le hk] at hlt
    exact absurd hlt (by decide)

theorem memory_over_line_writeRead : ∃ n, ∀ k, n ≤ k →
    heard (.oneLate 8) ⟨.cmd, 0, 0, 0, 0, false, 0, false⟩ (fun _ => 0) 0 Params.uartTest.sampling writeReadLine k =
        [0xAB, 0xCD, 0xAB, 0xCE] ∧
      (run (.oneLate 8) ⟨.cmd, 0, 0, 0, 0, false, 0, false⟩ (fun _ => 0) 0 writeReadLine k).session.mem 11 =
        0xABCDABCE := by
  obtain ⟨n, hn⟩ := (memory_over_line (F := .oneLate 8) (x := ⟨.cmd, 0, 0, 0, 0, false, 0, false⟩) (m := fun _ => 0) (r := 0)
    (by decide) (Params.keepsUp_uartTest (by decide) (by decide)) writeReadLine_sends writeRead_inTime
    Params.uartTest.readBy_sampling (writeRead_asks _)).2 fun n hlt _ => row_goes_on (by decide) hlt
  refine ⟨n, fun k hk => ?_⟩
  obtain ⟨hheard, hmem⟩ := hn k hk
  exact ⟨hheard.trans (by decide), by rw [hmem]; decide⟩

end SerialMemory

end FpgaLearning.Loader
