/-
Model of the serial port (`uart_rs232_0.v` under `Calc/uart`, `Calc2/uart` and `UartTest/uart_ip`).

The three generated modules are one deserializer and one serializer with different parameters. In `Calc2` a ninth bit
carries the parity of the byte, in the other two the word is the byte. The hosts on the other end have clocks of their
own: a cycle of the board is `den` ticks, a bit of the host is `num` ticks. If his frames are too short for the receiver to
be back in time, it comes late.

- `parity_detects`: what a wrong bit does to the parity check;
- `receives`: a consumer gets the words of the host in order, and none is lost unless it comes while the queue is full;
- `receives_soon`: a consumer that always takes words gets each of them within a fixed time.
-/
import FpgaLearning.Uart.Serializer

namespace FpgaLearning.Uart

open SerialLine

/-! ## Parameters -/

/-- `Calc`: 9600 baud at 50 MHz, eight bits, no parity -/
def Params.calc : Params := ⟨13, 5208, 2604, 10, 7, by decide, by decide, by decide, by decide, by decide⟩

/-- `Calc2`: 115200 baud at 50 MHz, eight bits and parity -/
def Params.calc2 : Params := ⟨9, 434, 217, 11, 8, by decide, by decide, by decide, by decide, by decide⟩

/-- `UartTest`: 115200 baud at 50 MHz, eight bits, no parity, two stop bits -/
def Params.uartTest : Params := ⟨9, 434, 217, 11, 7, by decide, by decide, by decide, by decide, by decide⟩

/-! ## Bytes and words -/

/-- `^x` -/
def xorAll {n : ℕ} (x : BitVec n) : Bool := (List.range n).foldr (fun i b => x.getLsbD i ^^ b) false

/-- what the bits sent for a byte are, and how the bits received are read -/
structure Coding (p : Params) where
  width : ℕ
  encode : BitVec width → BitVec (p.dw + 1)
  data : BitVec (p.dw + 1) → BitVec width
  error : BitVec (p.dw + 1) → Bool
  data_encode : ∀ x, data (encode x) = x
  error_encode : ∀ x, error (encode x) = false

theorem foldr_xor {l : List ℕ} {f g : ℕ → Bool} :
    l.foldr (fun i b => (f i ^^ g i) ^^ b) false =
      (l.foldr (fun i b => f i ^^ b) false ^^ l.foldr (fun i b => g i ^^ b) false) := by
  induction l with
  | nil => rfl
  | cons i l ih =>
    simp only [List.foldr_cons, ih]
    cases f i <;> cases g i <;> simp

theorem xorAll_xor {n : ℕ} (x y : BitVec n) : xorAll (x ^^^ y) = (xorAll x ^^ xorAll y) := by
  rw [xorAll, xorAll, xorAll, ← foldr_xor]
  congr 1
  funext i b
  rw [BitVec.getLsbD_xor]

theorem foldr_last {l : List ℕ} {f : ℕ → Bool} {b : Bool} :
    l.foldr (fun i b => f i ^^ b) b = (l.foldr (fun i b => f i ^^ b) false ^^ b) := by
  induction l with
  | nil => simp
  | cons i l ih => rw [List.foldr_cons, List.foldr_cons, ih, Bool.xor_assoc]

theorem xorAll_cons {n : ℕ} (b : Bool) (x : BitVec n) : xorAll (BitVec.cons b x) = (xorAll x ^^ b) := by
  rw [xorAll, List.range_succ, List.foldr_append, xorAll]
  simp only [List.foldr_cons, List.foldr_nil, Bool.xor_false]
  rw [foldr_last]
  congr 1
  · refine List.foldr_ext _ _ _ fun i hi c => ?_
    rw [BitVec.getLsbD_cons, if_neg (List.mem_range.1 hi).ne]
  · rw [BitVec.getLsbD_cons, if_pos rfl]

/-- without parity -/
def Coding.plain (p : Params) : Coding p := ⟨p.dw + 1, id, id, fun _ => false, fun _ => rfl, fun _ => rfl⟩

/-- the parity bit above the byte, `ODD_PARITY` or even -/
def Coding.parity (p : Params) (oddParity : Bool) : Coding p where
  width := p.dw
  encode x := .cons (xorAll x ^^ oddParity) x
  data w := w.setWidth p.dw
  error w := xorAll w ^^ oddParity
  data_encode x := BitVec.setWidth_cons
  error_encode x := by
    rw [xorAll_cons]
    cases xorAll x <;> cases oddParity <;> rfl

/-- **Parity.** The error flag is raised exactly when an odd number of bits of the word has changed on the way. -/
theorem Coding.parity_detects (p : Params) (oddParity : Bool) (x : BitVec p.dw) (flips : BitVec (p.dw + 1)) :
    (Coding.parity p oddParity).error ((Coding.parity p oddParity).encode x ^^^ flips) = xorAll flips := by
  have hok := (Coding.parity p oddParity).error_encode x
  change (xorAll _ ^^ oddParity) = false at hok
  change (xorAll _ ^^ oddParity) = _
  rw [xorAll_xor, Bool.xor_assoc, Bool.xor_comm (xorAll flips), ← Bool.xor_assoc, hok, Bool.false_xor]

/-! ## The module -/

structure Rs232 (p : Params) (F : Scfifo (p.dw + 1)) where
  inDeserializer : Deserializer p F
  outSerializer : Serializer p F

namespace Rs232

variable {p : Params} (c : Coding p) (F : Scfifo (p.dw + 1))

structure Input where
  reset : Bool
  fromUartReady : Bool
  toUartData : BitVec c.width
  toUartError : Bool
  toUartValid : Bool
  uartRxd : Bool

def init : Rs232 p F := ⟨.init p F, .init p F⟩

variable {c F} (s : Rs232 p F) (i : Input c)

def fromUartData (c : Coding p) (s : Rs232 p F) : BitVec c.width := c.data s.inDeserializer.receivedData

def fromUartError (c : Coding p) (s : Rs232 p F) : Bool := c.error s.inDeserializer.receivedData

def fromUartValid : Bool := s.inDeserializer.receivedDataValid

/-- the room in the queue one cycle ago -/
def toUartReady : Bool := s.outSerializer.fifoWriteSpace != 0

def uartTxd : Bool := s.outSerializer.serialDataOut

def inputIn : Deserializer.Input := ⟨i.reset, i.uartRxd, i.fromUartReady⟩

def inputOut : Serializer.Input p := ⟨i.reset, c.encode i.toUartData, i.toUartValid && s.toUartReady⟩

def step : Rs232 p F := ⟨s.inDeserializer.step (inputIn i), s.outSerializer.step (s.inputOut i)⟩

/-- the byte that is handed over to the consumer, with its error flag -/
def delivered : Option (BitVec c.width × Bool) :=
  if i.fromUartReady && s.fromUartValid then some (s.fromUartData c, s.fromUartError c) else none

/-- the byte that the producer hands over -/
def accepted : Option (BitVec c.width) := if i.toUartValid && s.toUartReady then some i.toUartData else none

/-- how a word is read -/
def reading (c : Coding p) (w : BitVec (p.dw + 1)) : BitVec c.width × Bool := (c.data w, c.error w)

theorem delivered_eq :
    s.delivered i = (F.read s.inDeserializer.fifo (s.inDeserializer.port (inputIn i))).map (reading c) := by
  rw [Scfifo.read, apply_ite (Option.map (reading c))]
  rfl

/-! ## Runs -/

variable (F)

/-- the serial port after `n` cycles -/
def run (inp : ℕ → Input c) (n : ℕ) : Rs232 p F := Clocked.run step inp (init F) n

variable {F} {inp : ℕ → Input c}

theorem inDeserializer_run (n : ℕ) : (run F inp n).inDeserializer = Deserializer.run p F (fun n => inputIn (inp n)) n := by
  induction n with
  | zero => rfl
  | succ n ih =>
    change (run F inp n).inDeserializer.step _ = _
    rw [ih]
    rfl

theorem outSerializer_run (n : ℕ) :
    (run F inp n).outSerializer = Serializer.run p F (fun n => (run F inp n).inputOut (inp n)) n := by
  induction n with
  | zero => rfl
  | succ n ih =>
    change (run F inp n).outSerializer.step ((run F inp n).inputOut (inp n)) =
      (Serializer.run p F (fun n => (run F inp n).inputOut (inp n)) n).step ((run F inp n).inputOut (inp n))
    rw [← ih]

theorem fifo_succ (hreset : ∀ n, (inp n).reset = false) (n : ℕ) : (run F inp (n + 1)).inDeserializer.fifo =
    F.step ((run F inp n).inDeserializer.port (inputIn (inp n))).data
      ((run F inp n).inDeserializer.port (inputIn (inp n))).rdreq (run F inp n).inDeserializer.fifo := by
  change ((run F inp n).inDeserializer.step (inputIn (inp n))).fifo = _
  simp only [Deserializer.step, inputIn, hreset n]
  rfl

/-- a word from the line at the queue -/
def arriving (s : Rs232 p F) : Option (BitVec (p.dw + 1)) :=
  if F.full s.inDeserializer.fifo then none else s.inDeserializer.allBitsReceived

/-- what the consumer has got, and what waits for him, is what has arrived -/
theorem delivered_log (hreset : ∀ n, (inp n).reset = false) (n : ℕ) :
    logOf (fun n => (run F inp n).delivered (inp n)) n ++ (F.contents (run F inp n).inDeserializer.fifo).map (reading c) =
      (logOf (fun n => (run F inp n).arriving) n).map (reading c) := by
  have hlog := @Scfifo.log_split _ F (fun n => (run F inp n).inDeserializer.fifo)
    (fun n => (run F inp n).inDeserializer.port (inputIn (inp n))) rfl (fifo_succ hreset)
    (fun n => Deserializer.port_legal _ _) n
  simp only [delivered_eq, logOf_map]
  rw [← List.map_append, hlog]
  rfl

end Rs232

/-! ## Hosts -/

/-- a host whose bits are `num / den` cycles long can be heard when his frames are `bits` bits long -/
structure Params.Hears (p : Params) (num den bits : ℕ) : Prop where
  early : (p.dw + 1) * num ≤ (p.halfBaudTickCount + 2 + (p.dw + 1) * p.bitTime) * den
  late : (p.halfBaudTickCount + 3 + (p.dw + 1) * p.bitTime) * den ≤ (p.dw + 2) * num
  start : (p.halfBaudTickCount + 3) * den ≤ num
  done : (p.dw + 2) * num ≤ (p.allBits + 3) * den
  back : (p.allBits + 3) * den ≤ bits * num

/-- a host can be heard who is heard `lag` cycles late at most -/
structure Params.KeepsUp (p : Params) (num den lag : ℕ) : Prop where
  early : (p.dw + 1) * num ≤ (p.halfBaudTickCount + 2 + (p.dw + 1) * p.bitTime) * den
  late : (lag + p.halfBaudTickCount + 3 + (p.dw + 1) * p.bitTime) * den ≤ (p.dw + 2) * num
  start : (lag + p.halfBaudTickCount + 3) * den ≤ num
  done : (p.dw + 2) * num ≤ (p.allBits + 3) * den

/-- a line that is not too steep at its end is not too steep before -/
theorem le_of_le_last {a b c j w : ℕ} (hj : j ≤ w) (h : w * a ≤ c + w * b) : j * a ≤ c + j * b := by
  rcases le_total a b with hab | hab
  · exact (Nat.mul_le_mul_left j hab).trans (Nat.le_add_left _ _)
  · obtain ⟨d, rfl⟩ := Nat.exists_eq_add_of_le hab
    have hd : j * d ≤ w * d := Nat.mul_le_mul_right d hj
    rw [Nat.mul_add] at h ⊢
    omega

variable {p : Params} {num den bits lag : ℕ} {phase : ℕ → ℕ} {f : ℕ → Option (BitVec (p.dw + 1))} {line : ℕ → Bool}

theorem Params.KeepsUp.le_offset (h : p.KeepsUp num den lag) {j : ℕ} (hj : j < p.dw + 1) :
    (j + 1) * num ≤ p.sampling.offset j * den := by
  have hlast := h.early
  rw [Nat.add_mul (p.halfBaudTickCount + 2), Nat.mul_assoc] at hlast
  have := le_of_le_last (j := j + 1) (by omega) hlast
  rwa [Params.sampling_offset, Nat.add_mul (p.halfBaudTickCount + 2), Nat.mul_assoc (j + 1)]

theorem Params.KeepsUp.offset_lt (h : p.KeepsUp num den lag) {j : ℕ} (hj : j < p.dw + 1) :
    (lag + p.sampling.offset j + 1) * den ≤ (j + 2) * num := by
  -- the other way round: the line `(lag + HALF + 3) * den + j * bitTime * den` against `num + j * num`
  obtain ⟨d, hd⟩ := Nat.exists_eq_add_of_le h.start
  have hlast := h.late
  rw [Nat.add_mul (lag + p.halfBaudTickCount + 3), Nat.mul_assoc, show p.dw + 2 = p.dw + 1 + 1 by omega,
    Nat.add_mul (p.dw + 1) 1] at hlast
  have hj' := le_of_le_last (show j + 1 ≤ p.dw + 1 by omega)
    (show (p.dw + 1) * (p.bitTime * den) ≤ d + (p.dw + 1) * num by omega)
  rw [Params.sampling_offset, show j + 2 = j + 1 + 1 by omega, Nat.add_mul (j + 1) 1,
    show lag + (p.halfBaudTickCount + 2 + (j + 1) * p.bitTime) + 1 =
      lag + p.halfBaudTickCount + 3 + (j + 1) * p.bitTime by omega,
    Nat.add_mul (lag + p.halfBaudTickCount + 3), Nat.mul_assoc]
  omega

theorem Params.Hears.keepsUp (h : p.Hears num den bits) : p.KeepsUp num den 0 :=
  ⟨h.early, by rw [Nat.zero_add]; exact h.late, by rw [Nat.zero_add]; exact h.start, h.done⟩

theorem Params.Hears.fits (h : p.Hears num den bits) (hhost : SendsTicks num den bits phase line f) :
    p.sampling.Fits (tickEdge num den phase) f := by
  refine p.sampling.fits_tickEdge hhost.phase_lt ?_ (fun j hj => h.keepsUp.le_offset hj) (fun j hj => ?_) h.done h.back
    hhost.apart
  · have := h.start
    rw [Nat.add_mul] at this
    omega
  · have := h.keepsUp.offset_lt hj
    rwa [Nat.zero_add] at this

/-- the receiver is at most `lag` cycles late for every frame -/
def Params.InTime (p : Params) (lag : ℕ) (f : ℕ → Option (BitVec (p.dw + 1))) : Prop :=
  ∀ s, (f s).isSome → p.sampling.back f s ≤ s + lag

/-- a host that sends at most `k` words, and leaves `period` cycles between their starts -/
theorem Params.inTime_of_apart {period k : ℕ} (happ : Apart period f) (hfew : ∀ n, (logOf f n).length ≤ k)
    (hlag : k * (p.allBits + 3 - period) ≤ lag) : p.InTime lag f := by
  intro s hs
  have hback : p.sampling.back f s ≤ s + (logOf f s).length * (p.allBits + 3 - period) :=
    Sampling.back_le happ s s le_rfl fun j hj hfj => by
      by_contra hlt
      rw [happ j hfj s hj (by omega)] at hs
      cases hs
  have hle := Nat.mul_le_mul_right (p.allBits + 3 - period) (hfew s)
  omega

/-- a receiver that is late reads the words of the host late -/
theorem Params.KeepsUp.frames_late (h : p.KeepsUp num den lag) (hbits : 0 < bits)
    (hhost : SendsTicks num den bits phase line f) (hlag : p.InTime lag f) (n : ℕ) :
    logOf (p.sampling.frames line (p.dw + 1)) n <+: logOf f n ∧
      logOf f (n - lag) <+: logOf (p.sampling.frames line (p.dw + 1)) n := by
  refine hhost.sends.frames_late (p.sampling.catches_tickEdge hhost.phase_lt hlag ?_ (fun j hj => h.le_offset hj)
    (fun j hj => h.offset_lt hj) h.done hbits hhost.apart) hlag n
  have hstart := h.start
  rw [Nat.add_mul, Nat.add_mul] at hstart
  rw [Nat.add_mul]
  omega

/-- `Calc`: with two stop bits, bits between 4920 and 5534 cycles; at 9600 baud they are 5208 -/
theorem Params.hears_calc (hlo : 4920 * den ≤ num) (hhi : num ≤ 5534 * den) : Params.calc.Hears num den 11 := by
  constructor <;> simp only [Params.calc, Params.allBits, Params.bitTime] <;> omega

/-- `UartTest`: bits between 434 and 462 cycles, at 115200 baud they are 434, and a receiver late by no more than 206 -/
theorem Params.keepsUp_uartTest (hlo : 434 * den ≤ num) (hhi : num ≤ 462 * den) : Params.uartTest.KeepsUp num den 206 := by
  constructor <;> simp only [Params.uartTest, Params.allBits, Params.bitTime] <;> omega

/-- `Calc2`: with two stop bits, bits between 414 and 459 cycles; at 115200 baud they are 434 -/
theorem Params.hears_calc2 (hlo : 414 * den ≤ num) (hhi : num ≤ 459 * den) : Params.calc2.Hears num den 12 := by
  constructor <;> simp only [Params.calc2, Params.allBits, Params.bitTime] <;> omega

namespace Rs232

variable {c : Coding p} {F : Scfifo (p.dw + 1)} {inp : ℕ → Input c}

theorem arriving_eq (hreset : ∀ n, (inp n).reset = false)
    (hframes : p.sampling.frames (fun n => (inp n).uartRxd) (p.dw + 1) = f) (n : ℕ) :
    (run F inp n).arriving = if F.full (run F inp n).inDeserializer.fifo then none else delay (p.allBits + 2) f n := by
  have hall := @Deserializer.allBitsReceived_eq p F (fun n => inputIn (inp n)) hreset
  rw [arriving, inDeserializer_run, congrFun hall n]
  change (if _ then none else delay _ (p.sampling.frames (fun n => (inp n).uartRxd) (p.dw + 1)) n) = _
  rw [hframes]

/-- **From the host.** Whatever words a host sends, at his own pace and by his own clock, the consumer gets them as they
were sent, in order; only words that come while the queue is full are missing. -/
theorem receives (hreset : ∀ n, (inp n).reset = false) (hears : p.Hears num den bits)
    (hhost : SendsTicks num den bits phase (fun n => (inp n).uartRxd) f) (n : ℕ) :
    logOf (fun n => (run F inp n).delivered (inp n)) n ++ (F.contents (run F inp n).inDeserializer.fifo).map (reading c) =
      (logOf (fun n => if F.full (run F inp n).inDeserializer.fifo then none else delay (p.allBits + 2) f n) n).map
        (reading c) := by
  rw [delivered_log hreset]
  simp only [arriving_eq hreset (hhost.sends.frames_eq (hears.fits hhost))]

/-- what the board of `Calc2` reads as the letter `A` -/
def evenParity : Coding .calc2 := .parity .calc2 false

def letter : BitVec evenParity.width := 0x41#8

def queue : Scfifo (Params.calc2.dw + 1) := .oneLate 9

/-- a host at 115200 baud who sends the letter, and a producer who hands it over -/
def letterIn (n : ℕ) : Input evenParity where
  reset := false
  fromUartReady := true
  toUartData := letter
  toUartError := false
  toUartValid := n == 20
  uartRxd := oneFrame 15625 36 10 (evenParity.encode letter) n

theorem letterIn_sends :
    SendsTicks 15625 36 12 (fun _ => 0) (fun n => (letterIn n).uartRxd) (once 10 (evenParity.encode letter)) :=
  sendsTicks_oneFrame (by decide) (by decide) 12 10 (evenParity.encode letter)

theorem receives_letter :
    logOf (fun n => (run queue letterIn n).delivered (letterIn n)) 5000 ++
      (queue.contents (run queue letterIn 5000).inDeserializer.fifo).map (reading evenParity) =
      (logOf (fun n => if queue.full (run queue letterIn n).inDeserializer.fifo then none
        else delay 4787 (once 10 (evenParity.encode letter)) n) 5000).map (reading evenParity) :=
  receives (fun _ => rfl) (Params.hears_calc2 (by decide) (by decide)) letterIn_sends 5000

/-- a consumer that until cycle `N` takes every word it is shown, unless it has taken one less than `pause` cycles ago, gets
whatever the port reads off the line -/
theorem delivered_soon {pause N : ℕ} (hreset : ∀ n, (inp n).reset = false)
    (hframes : p.sampling.frames (fun n => (inp n).uartRxd) (p.dw + 1) = f) (happ : Apart (p.allBits + 3) f)
    (hready : ∀ n < N, (run F inp n).fromUartValid = true →
      (∀ m < n, n < m + pause → (run F inp m).delivered (inp m) = none) → (inp n).fromUartReady = true)
    (hlatency : pause + F.latency ≤ p.allBits + 1) {n : ℕ} (hn : n ≤ N) :
    logOf (fun n => (run F inp n).delivered (inp n)) n <+: (logOf f (n - (p.allBits + 2))).map (reading c) ∧
      (logOf f (n - (p.allBits + 2) - (F.latency + 1))).map (reading c) <+:
        logOf (fun n => (run F inp n).delivered (inp n)) n := by
  have hbusy : Apart (p.allBits + 3) (delay (p.allBits + 2) f) := happ.delay
  have hdata : ∀ n, ((run F inp n).inDeserializer.port (inputIn (inp n))).data = (run F inp n).arriving := fun n => rfl
  have hapart : Apart (pause + F.latency + 2) fun n => ((run F inp n).inDeserializer.port (inputIn (inp n))).data := by
    refine (hbusy.mono (by omega)).of_isSome fun n hn => ?_
    rw [hdata, arriving_eq hreset hframes] at hn
    split at hn
    · cases hn
    · exact hn
  have hfresh := fun n (hn : n ≤ N) => (@Scfifo.fresh _ F (fun n => (run F inp n).inDeserializer.fifo)
    (fun n => (run F inp n).inDeserializer.port (inputIn (inp n))) pause (fifo_succ hreset)
    (fun n => Deserializer.port_legal _ _) hapart N (fun n hn hempty hquiet => by
      have hvalid : (run F inp n).fromUartValid = true := by
        rw [fromUartValid, Deserializer.receivedDataValid, hempty, Bool.not_false]
      have htakes := hready n hn hvalid fun m hm hmn => by
        rw [delivered_eq, Scfifo.read, hquiet m hm hmn]
        rfl
      simp [Deserializer.port, inputIn, htakes, hempty])
    rfl n hn).2
  have harriving : logOf (fun n => (run F inp n).arriving) n = logOf (delay (p.allBits + 2) f) n := by
    refine logOf_congr fun k hk => ?_
    rw [arriving_eq hreset hframes, (hfresh k (hk.le.trans hn)).not_full]
    rfl
  have hlog := delivered_log (F := F) hreset n
  rw [harriving, logOf_delay] at hlog
  refine ⟨⟨_, hlog⟩, ?_⟩
  have hsoon := (hfresh n hn).log_le (Scfifo.log_split rfl (fifo_succ hreset) (fun n => Deserializer.port_legal _ _) n)
    (hapart.mono (by omega))
  simp only [hdata] at hsoon
  rw [logOf_congr (n := n - (F.latency + 1)) fun k hk => by
    rw [arriving_eq hreset hframes, (hfresh k (by omega)).not_full, if_neg Bool.false_ne_true], logOf_delay] at hsoon
  simp only [delivered_eq, logOf_map]
  rw [show n - (p.allBits + 2) - (F.latency + 1) = n - (F.latency + 1) - (p.allBits + 2) by omega]
  exact hsoon.map (reading c)

/-- **A consumer that is always ready** gets every word a fixed time after its start bit at the latest. -/
theorem receives_soon (hreset : ∀ n, (inp n).reset = false) (hears : p.Hears num den bits)
    (hhost : SendsTicks num den bits phase (fun n => (inp n).uartRxd) f) (hready : ∀ n, (inp n).fromUartReady = true)
    (hlatency : F.latency ≤ p.allBits + 1) (n : ℕ) :
    logOf (fun n => (run F inp n).delivered (inp n)) n <+: (logOf f (n - (p.allBits + 2))).map (reading c) ∧
      (logOf f (n - (p.allBits + 2) - (F.latency + 1))).map (reading c) <+:
        logOf (fun n => (run F inp n).delivered (inp n)) n :=
  delivered_soon hreset (hhost.sends.frames_eq (hears.fits hhost))
    (apart_of_ticks hhost.phase_lt hears.back hhost.apart) (fun n _ _ _ => hready n)
    (show 0 + F.latency ≤ p.allBits + 1 by omega) (le_refl n)

theorem receives_soon_letter :
    logOf (fun n => (run queue letterIn n).delivered (letterIn n)) 5000 = [(0x41#8, false)] := by
  obtain ⟨hle, hge⟩ := receives_soon (F := queue) (fun _ => rfl) (Params.hears_calc2 (by decide) (by decide))
    letterIn_sends (fun _ => rfl) (by decide) 5000
  rw [logOf_once, if_pos (by decide)] at hle hge
  exact hle.eq_of_length_le hge.length_le

/-! ## To the host -/

/-- a byte as the host should read it -/
def sound (x : BitVec c.width) : BitVec c.width × Bool := (x, false)

theorem reading_encode (x : BitVec c.width) : reading c (c.encode x) = sound x := by
  rw [reading, c.data_encode, c.error_encode, sound]

theorem out_fifo_succ (hreset : ∀ n, (inp n).reset = false) (n : ℕ) : (run F inp (n + 1)).outSerializer.fifo =
    F.step ((run F inp n).outSerializer.port ((run F inp n).inputOut (inp n))).data
      ((run F inp n).outSerializer.port ((run F inp n).inputOut (inp n))).rdreq (run F inp n).outSerializer.fifo := by
  change ((run F inp n).outSerializer.step ((run F inp n).inputOut (inp n))).fifo = _
  simp only [Serializer.step, inputOut, hreset n]
  rfl

/-- what goes to the queue is a byte that was handed over -/
theorem out_apart {len : ℕ} (hapart : Apart len fun n => (run F inp n).accepted (inp n)) :
    Apart len fun n => ((run F inp n).outSerializer.port ((run F inp n).inputOut (inp n))).data := by
  intro s hs n hsn hn
  have haccepted : ∀ n, (run F inp n).accepted (inp n) = none →
      ((run F inp n).outSerializer.port ((run F inp n).inputOut (inp n))).data = none := by
    intro n hnone
    simp only [accepted, ite_eq_right_iff, reduceCtorEq, imp_false, Bool.not_eq_true] at hnone
    simp [Serializer.port, inputOut, hnone]
  refine haccepted n (hapart s ?_ n hsn hn)
  by_contra hnone
  have hdata := haccepted s (Option.not_isSome_iff_eq_none.1 hnone)
  simp only [hdata, Option.isSome_none, Bool.false_eq_true] at hs

/-- the serializer takes a word that is shown when it has taken none for the time of a frame -/
theorem out_reads (hreset : ∀ n, (inp n).reset = false) (n : ℕ) (hempty : F.empty (run F inp n).outSerializer.fifo = false)
    (hquiet : ∀ m < n, n < m + (p.allBits + 3) →
      ((run F inp m).outSerializer.port ((run F inp m).inputOut (inp m))).rdreq = false) :
    ((run F inp n).outSerializer.port ((run F inp n).inputOut (inp n))).rdreq = true := by
  change (run F inp n).outSerializer.readFifoEn = true
  rw [outSerializer_run] at hempty ⊢
  refine Serializer.readFifoEn_of_quiet hreset hempty fun m hm hnm => ?_
  rw [← outSerializer_run]
  exact hquiet m hm hnm

/-- a producer that leaves time between his bytes finds the queue empty -/
theorem out_fresh (hreset : ∀ n, (inp n).reset = false)
    (hapart : Apart (p.allBits + F.latency + 5) fun n => (run F inp n).accepted (inp n)) (n : ℕ) :
    F.Fresh (fun n => (run F inp n).outSerializer.fifo)
      (fun n => (run F inp n).outSerializer.port ((run F inp n).inputOut (inp n))) n :=
  (@Scfifo.fresh _ F _ _ (p.allBits + 3) (out_fifo_succ hreset) (fun n => Serializer.port_legal _ _)
    ((out_apart hapart).mono (by omega)) n (fun n _ => out_reads hreset n) rfl n le_rfl).2

/-- while there is room, the queue gets what is handed over -/
theorem out_data {n : ℕ} (hroom : F.full (run F inp n).outSerializer.fifo = false) :
    ((run F inp n).outSerializer.port ((run F inp n).inputOut (inp n))).data =
      ((run F inp n).accepted (inp n)).map c.encode := by
  simp only [Serializer.port, inputOut, accepted, hroom, Bool.not_false, Bool.and_true]
  split <;> rfl

/-- as long as there is room, what has been put on the line and what waits for it is what was handed over -/
theorem out_log (hreset : ∀ n, (inp n).reset = false) {n : ℕ}
    (hroom : ∀ k < n, F.full (run F inp k).outSerializer.fifo = false) :
    logOf (fun n => (run F inp n).outSerializer.loaded) n ++ F.contents (run F inp n).outSerializer.fifo =
      (logOf (fun n => (run F inp n).accepted (inp n)) n).map c.encode := by
  have hlog := @Scfifo.log_split _ F (fun n => (run F inp n).outSerializer.fifo)
    (fun n => (run F inp n).outSerializer.port ((run F inp n).inputOut (inp n))) rfl (out_fifo_succ hreset)
    (fun n => Serializer.port_legal _ _) n
  rw [logOf_congr fun k hk => out_data (hroom k hk), logOf_map] at hlog
  exact hlog

/-- a word that waits for the line is put on it -/
theorem out_loads (hreset : ∀ n, (inp n).reset = false) {n : ℕ} (hne : F.contents (run F inp n).outSerializer.fifo ≠ []) :
    ∃ m, n ≤ m ∧ (run F inp m).outSerializer.loaded.isSome := by
  obtain ⟨m, hnm, hm⟩ := Scfifo.reads_again (out_fifo_succ hreset) (fun n => Serializer.port_legal _ _) (out_reads hreset) hne
  have hread : (run F inp m).outSerializer.readFifoEn = true := hm
  exact ⟨m, hnm, by rw [Serializer.loaded, hread]; rfl⟩

/-- what a host reads off the line is what is put on it -/
theorem out_frames {S : Sampling} (hS : p.ReadBy S) (hreset : ∀ n, (inp n).reset = false) :
    S.frames (fun n => (run F inp n).uartTxd) (p.dw + 1) = delay 2 fun n => (run F inp n).outSerializer.loaded := by
  have heq := @Serializer.frames_eq p F (fun n => (run F inp n).inputOut (inp n)) S hS hreset
  simp only [← outSerializer_run] at heq
  exact heq

theorem toUartReady_succ (hreset : ∀ n, (inp n).reset = false) {n : ℕ}
    (hfull : F.full (run F inp n).outSerializer.fifo = false) : (run F inp (n + 1)).toUartReady = true := by
  change (((run F inp n).outSerializer.step ((run F inp n).inputOut (inp n))).fifoWriteSpace != 0) = true
  simp only [Serializer.step, inputOut, hreset n, Bool.false_eq_true, if_false, bne_iff_ne, ne_eq, hfull]
  intro hzero
  have hnat := congrArg BitVec.toNat hzero
  have hused := (F.usedw (run F inp n).outSerializer.fifo).isLt
  rw [BitVec.toNat_sub, BitVec.toNat_cons'] at hnat
  simp at hnat
  omega

/-- **To the host.** A host that reads the line gets the bytes of a producer who leaves time between them, in order and
with the right parity, each a fixed time after it was handed over at the latest. -/
theorem sends_soon {S : Sampling} (hS : p.ReadBy S) (hreset : ∀ n, (inp n).reset = false)
    (hapart : Apart (p.allBits + F.latency + 5) fun n => (run F inp n).accepted (inp n)) (n : ℕ) :
    (logOf (S.frames (fun n => (run F inp n).uartTxd) (p.dw + 1)) n).map (reading c) <+:
        (logOf (fun n => (run F inp n).accepted (inp n)) (n - 2)).map sound ∧
      (logOf (fun n => (run F inp n).accepted (inp n)) (n - 2 - (F.latency + 1))).map sound <+:
        (logOf (S.frames (fun n => (run F inp n).uartTxd) (p.dw + 1)) n).map (reading c) := by
  have hlog := out_log (F := F) hreset (n := n - 2) fun k _ => (out_fresh hreset hapart k).not_full
  have hsoon := (out_fresh hreset hapart (n - 2)).log_le (Scfifo.log_split rfl (out_fifo_succ hreset)
    (fun n => Serializer.port_legal _ _) (n - 2)) ((out_apart hapart).mono (by omega))
  have hmap : ∀ l : List (BitVec c.width), l.map sound = (l.map c.encode).map (reading c) := by
    intro l
    rw [List.map_map]
    exact List.map_congr_left fun x _ => (reading_encode x).symm
  rw [logOf_congr fun k _ => out_data (out_fresh hreset hapart k).not_full, logOf_map] at hsoon
  simp only [Serializer.read_port] at hsoon
  rw [out_frames hS hreset, logOf_delay, hmap, hmap]
  exact ⟨List.IsPrefix.map _ ⟨_, hlog⟩, hsoon.map _⟩

end Rs232

end FpgaLearning.Uart
