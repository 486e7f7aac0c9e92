/-
Model of the loader of the first processor (`Calc/UartRamLoader.sv`) behind its serial port, wired as in `Calc/top.sv`.

The loader makes a word of every four bytes, the least significant first, and writes word after word to consecutive
addresses, which start again after 256. On the board the second port of the ROM is not enabled; here the writes are logged.

- `run_collects`: whatever bytes the loader takes, the writes are the words of these bytes;
- `loads_soon`: the words of a host at 9600 baud are written in order, each within a fixed time of its last byte.
-/
import FpgaLearning.Core.Memory
import FpgaLearning.Uart.Rs232

namespace FpgaLearning.Calc

open FpgaLearning.Memory FpgaLearning.SerialLine FpgaLearning.Uart

/-! ## The circuit -/

structure UartRamLoader where
  ramAddr : BitVec 8
  ramData : Word
  ramWe : Bool
  shiftReg : Word
  byteCount : BitVec 2
  addr : BitVec 8
deriving DecidableEq, Repr

namespace UartRamLoader

/-- the RAM port is not reset, but for its strobe -/
def reset (s : UartRamLoader) : UartRamLoader := { s with ramWe := false, shiftReg := 0, byteCount := 0, addr := 0 }

structure In where
  uartData : Byte
  uartValid : Bool
deriving DecidableEq, Repr

def uartRead (i : In) : Bool := i.uartValid

def next (s : UartRamLoader) (i : In) : UartRamLoader :=
  let word : Word := i.uartData ++ s.shiftReg.extractLsb' 8 24
  if i.uartValid then
    if s.byteCount = 3 then
      { ramAddr := s.addr, ramData := word, ramWe := true, shiftReg := word, byteCount := 0, addr := s.addr + 1 }
    else { s with ramWe := false, shiftReg := word, byteCount := s.byteCount + 1 }
  else { s with ramWe := false }

/-- the byte that is taken -/
def taken (i : In) : Option Byte := if i.uartValid then some i.uartData else none

/-- what is written in this cycle -/
def write (s : UartRamLoader) : Option (BitVec 8 × Word) := if s.ramWe then some (s.ramAddr, s.ramData) else none

/-! ## Words -/

/-- a number in bytes, the least significant first -/
def littleEndian : List Byte → ℕ
  | [] => 0
  | b :: l => b.toNat + 256 * littleEndian l

theorem littleEndian_snoc (l : List Byte) (b : Byte) :
    littleEndian (l ++ [b]) = littleEndian l + 256 ^ l.length * b.toNat := by
  induction l with
  | nil => simp [littleEndian]
  | cons c l ih =>
    rw [List.cons_append, littleEndian, ih, littleEndian, List.length_cons, Nat.pow_succ]
    ring

/-- the complete words in a sequence of bytes -/
def wordsOf : List Byte → List Word
  | b₀ :: b₁ :: b₂ :: b₃ :: l => .ofNat 32 (littleEndian [b₀, b₁, b₂, b₃]) :: wordsOf l
  | _ => []

theorem wordsOf_short {l : List Byte} (h : l.length < 4) : wordsOf l = [] := by
  rcases l with _ | ⟨a, _ | ⟨b, _ | ⟨c, _ | ⟨d, l⟩⟩⟩⟩
  all_goals first | rfl | (simp only [List.length_cons] at h; omega)

theorem wordsOf_word {got : List Byte} (hgot : got.length = 4) (l : List Byte) :
    wordsOf (got ++ l) = .ofNat 32 (littleEndian got) :: wordsOf l := by
  rcases got with _ | ⟨a, _ | ⟨b, _ | ⟨c, _ | ⟨d, _ | ⟨e, got⟩⟩⟩⟩⟩
  all_goals first | rfl | (simp only [List.length_cons, List.length_nil] at hgot; omega)

theorem wordsOf_append {done : List Byte} (hdone : 4 ∣ done.length) (l : List Byte) :
    wordsOf (done ++ l) = wordsOf done ++ wordsOf l := by
  obtain ⟨k, hk⟩ := hdone
  induction k generalizing done with
  | zero =>
    obtain rfl := List.length_eq_zero_iff.mp hk
    rfl
  | succ k ih =>
    have hlen : (done.take 4).length = 4 := by rw [List.length_take]; omega
    rw [← List.take_append_drop 4 done, List.append_assoc, wordsOf_word hlen, wordsOf_word hlen,
      ih (by rw [List.length_drop]; omega), List.cons_append]

theorem wordsOf_mono {l l' : List Byte} (h : l <+: l') : wordsOf l <+: wordsOf l' := by
  obtain ⟨r, rfl⟩ := h
  have hlen : (l.take (4 * (l.length / 4))).length = 4 * (l.length / 4) := by rw [List.length_take]; omega
  have hdvd : 4 ∣ (l.take (4 * (l.length / 4))).length := ⟨l.length / 4, hlen⟩
  conv_lhs => rw [← List.take_append_drop (4 * (l.length / 4)) l]
  conv_rhs => rw [← List.take_append_drop (4 * (l.length / 4)) l, List.append_assoc]
  have hshort : (l.drop (4 * (l.length / 4))).length < 4 := by rw [List.length_drop]; omega
  rw [wordsOf_append hdvd, wordsOf_append hdvd, wordsOf_short hshort, List.append_nil]
  exact List.prefix_append _ _

/-- words at the addresses from 0 on -/
def placed (ws : List Word) : List (BitVec 8 × Word) := ws.zipIdx.map fun x => (.ofNat 8 x.2, x.1)

theorem placed_snoc (ws : List Word) (w : Word) : placed (ws ++ [w]) = placed ws ++ [(.ofNat 8 ws.length, w)] := by
  simp [placed, List.zipIdx_append]

theorem placed_mono {ws ws' : List Word} (h : ws <+: ws') : placed ws <+: placed ws' := by
  obtain ⟨r, rfl⟩ := h
  rw [placed, placed, List.zipIdx_append, List.map_append]
  exact List.prefix_append _ _

/-! ## Runs -/

/-- the loader after `n` cycles out of reset -/
def after (x : UartRamLoader) (inp : ℕ → In) (n : ℕ) : UartRamLoader := Clocked.run next inp (reset x) n

/-- `done` has been made into words and written, `got` is in the shift register -/
structure Collects (s : UartRamLoader) (log : List (BitVec 8 × Word)) (done got : List Byte) : Prop where
  whole : 4 ∣ done.length
  part : got.length < 4
  byteCount : s.byteCount = .ofNat 2 got.length
  shiftReg : s.shiftReg.toNat / 256 ^ (4 - got.length) = littleEndian got
  addr : s.addr = .ofNat 8 (wordsOf done).length
  log : log ++ s.write.toList = placed (wordsOf done)

variable {s : UartRamLoader} {i : In} {log : List (BitVec 8 × Word)} {done got : List Byte}

theorem Collects.quiet (h : Collects s log done got) (hv : i.uartValid = false) :
    Collects (s.next i) (log ++ s.write.toList) done got := by
  have hnext : s.next i = { s with ramWe := false } := by simp [next, hv]
  rw [hnext]
  exact ⟨h.whole, h.part, h.byteCount, h.shiftReg, h.addr, by rw [h.log]; simp [write]⟩

/-- the register with one more byte -/
theorem Collects.shiftIn (h : Collects s log done got) (b : Byte) :
    (b ++ s.shiftReg.extractLsb' 8 24 : Word).toNat / 256 ^ (4 - (got ++ [b]).length) = littleEndian (got ++ [b]) := by
  have hpart := h.part
  have hb := b.isLt
  have hs := s.shiftReg.isLt
  rw [littleEndian_snoc, ← h.shiftReg, List.length_append, List.length_singleton, BitVec.toNat_append,
    ← Nat.shiftLeft_add_eq_or_of_lt (BitVec.isLt _), BitVec.extractLsb'_toNat, Nat.shiftLeft_eq, Nat.shiftRight_eq_div_pow]
  have hcases : got.length = 0 ∨ got.length = 1 ∨ got.length = 2 ∨ got.length = 3 := by omega
  rcases hcases with hk | hk | hk | hk <;> rw [hk] <;> omega

theorem Collects.byte (h : Collects s log done got) (hv : i.uartValid = true) (hfew : got.length ≠ 3) :
    Collects (s.next i) (log ++ s.write.toList) done (got ++ [i.uartData]) := by
  have hpart := h.part
  have hcount : s.byteCount ≠ 3 := by
    rw [h.byteCount]
    intro heq
    have hnat := congrArg BitVec.toNat heq
    rw [BitVec.toNat_ofNat, Nat.mod_eq_of_lt (by omega)] at hnat
    exact hfew hnat
  have hnext : s.next i =
      { s with ramWe := false, shiftReg := i.uartData ++ s.shiftReg.extractLsb' 8 24, byteCount := s.byteCount + 1 } := by
    rw [next, if_pos hv, if_neg hcount]
  rw [hnext]
  refine ⟨h.whole, ?_, ?_, h.shiftIn _, h.addr, by rw [h.log]; simp [write]⟩
  · rw [List.length_append, List.length_singleton]
    omega
  · rw [List.length_append, List.length_singleton, BitVec.ofNat_add, ← h.byteCount]
    rfl

theorem Collects.word (h : Collects s log done got) (hv : i.uartValid = true) (hthree : got.length = 3) :
    Collects (s.next i) (log ++ s.write.toList) (done ++ (got ++ [i.uartData])) [] := by
  have hlen : (got ++ [i.uartData]).length = 4 := by rw [List.length_append, hthree, List.length_singleton]
  have hcount : s.byteCount = 3 := by rw [h.byteCount, hthree]; rfl
  have hnext : s.next i =
      ⟨s.addr, i.uartData ++ s.shiftReg.extractLsb' 8 24, true, i.uartData ++ s.shiftReg.extractLsb' 8 24, 0, s.addr + 1⟩ := by
    rw [next, if_pos hv, if_pos hcount]
  have hword : (i.uartData ++ s.shiftReg.extractLsb' 8 24 : Word) = .ofNat 32 (littleEndian (got ++ [i.uartData])) := by
    rw [← h.shiftIn, hlen, Nat.sub_self, Nat.pow_zero, Nat.div_one, BitVec.ofNat_toNat, BitVec.setWidth_eq]
  have hwords : wordsOf (done ++ (got ++ [i.uartData])) =
      wordsOf done ++ [.ofNat 32 (littleEndian (got ++ [i.uartData]))] := by
    rw [wordsOf_append h.whole, ← List.append_nil (got ++ [i.uartData]), wordsOf_word hlen, List.append_nil]
    rfl
  rw [hnext]
  refine ⟨?_, by decide, rfl, ?_, ?_, ?_⟩
  · rw [List.length_append, hlen]
    exact (Nat.dvd_add_left (by decide)).mpr h.whole
  · exact Nat.div_eq_of_lt (BitVec.isLt _)
  · rw [hwords, List.length_append, List.length_singleton, BitVec.ofNat_add, ← h.addr]
    rfl
  · rw [h.log, hwords, placed_snoc, ← hword, ← h.addr]
    rfl

/-- **The loader.** Whatever it takes and when, it writes the words of what it has taken. -/
theorem run_collects (x : UartRamLoader) (inp : ℕ → In) (n : ℕ) : ∃ done got,
    Collects (after x inp n) (logOf (fun n => (after x inp n).write) n) done got ∧
      logOf (fun n => taken (inp n)) n = done ++ got := by
  induction n with
  | zero =>
    refine ⟨[], [], ⟨by decide, by decide, rfl, ?_, rfl, rfl⟩, rfl⟩
    exact Nat.div_eq_of_lt (BitVec.isLt _)
  | succ n ih =>
    obtain ⟨done, got, hc, htaken⟩ := ih
    rw [logOf_succ, logOf_succ, htaken]
    change ∃ done' got', Collects ((after x inp n).next (inp n)) _ done' got' ∧ _
    cases hv : (inp n).uartValid with
    | false => exact ⟨done, got, hc.quiet hv, by simp [taken, hv]⟩
    | true =>
      by_cases hthree : got.length = 3
      · exact ⟨_, [], hc.word hv hthree, by simp [taken, hv]⟩
      · exact ⟨done, _, hc.byte hv hthree, by simp [taken, hv]⟩

theorem writes_eq (x : UartRamLoader) (inp : ℕ → In) (n : ℕ) :
    logOf (fun n => (after x inp n).write) (n + 1) = placed (wordsOf (logOf (fun n => taken (inp n)) n)) := by
  obtain ⟨done, got, hc, htaken⟩ := run_collects x inp n
  rw [logOf_succ, hc.log, htaken, wordsOf_append hc.whole, wordsOf_short hc.part, List.append_nil]

end UartRamLoader

/-! ## Behind the serial port -/

/-- the serial port has no parity -/
def plain : Coding .calc := .plain .calc

structure SerialLoader (F : Scfifo (Params.calc.dw + 1)) where
  uart : Rs232 .calc F
  ramLoader : UartRamLoader

namespace SerialLoader

section

variable {F : Scfifo (Params.calc.dw + 1)} (s : SerialLoader F)

def loaderIn : UartRamLoader.In := ⟨s.uart.fromUartData plain, s.uart.fromUartValid⟩

/-- nothing is sent -/
def uartIn (uartRx : Bool) : Rs232.Input plain where
  reset := false
  fromUartReady := UartRamLoader.uartRead s.loaderIn
  toUartData := 0
  toUartError := false
  toUartValid := false
  uartRxd := uartRx

def next (uartRx : Bool) : SerialLoader F := ⟨s.uart.step (s.uartIn uartRx), s.ramLoader.next s.loaderIn⟩

end

variable (F : Scfifo (Params.calc.dw + 1)) (x : UartRamLoader) (uartRx : ℕ → Bool)

/-- `n` cycles after reset -/
def run (n : ℕ) : SerialLoader F := Clocked.run next uartRx ⟨Rs232.init F, x.reset⟩ n

variable {F x uartRx}

theorem uart_run (n : ℕ) :
    (run F x uartRx n).uart = Rs232.run F (fun n => (run F x uartRx n).uartIn (uartRx n)) n := by
  induction n with
  | zero => rfl
  | succ n ih =>
    change (run F x uartRx n).uart.step _ = _
    rw [ih]
    rfl

theorem ramLoader_run (n : ℕ) :
    (run F x uartRx n).ramLoader = x.after (fun n => (run F x uartRx n).loaderIn) n := by
  induction n with
  | zero => rfl
  | succ n ih =>
    change (run F x uartRx n).ramLoader.next _ = _
    rw [ih]
    rfl

/-- the loader takes what the serial port hands over -/
theorem taken_eq (n : ℕ) : UartRamLoader.taken (run F x uartRx n).loaderIn =
    ((Rs232.run F (fun n => (run F x uartRx n).uartIn (uartRx n)) n).delivered
      ((run F x uartRx n).uartIn (uartRx n))).map Prod.fst := by
  rw [← uart_run]
  change (if (run F x uartRx n).uart.fromUartValid then _ else none) =
    Option.map Prod.fst (if (run F x uartRx n).uart.fromUartValid && (run F x uartRx n).uart.fromUartValid then _ else none)
  cases (run F x uartRx n).uart.fromUartValid <;> rfl

/-- **Words from a host.** Whatever bytes a host sends at his own pace, with bits between 4920 and 5534 cycles and two stop
bits, the writes are the words of these bytes, from address 0 on, each at the latest a fixed time after its last start bit. -/
theorem loads_soon {num den : ℕ} {phase : ℕ → ℕ} {f : ℕ → Option (BitVec (Params.calc.dw + 1))}
    (hlo : 4920 * den ≤ num) (hhi : num ≤ 5534 * den) (hhost : SendsTicks num den 11 phase uartRx f)
    (hlatency : F.latency ≤ 52091) (n : ℕ) :
    logOf (fun n => (run F x uartRx n).ramLoader.write) (n + 1) <+:
        UartRamLoader.placed (UartRamLoader.wordsOf (logOf f (n - 52092))) ∧
      UartRamLoader.placed (UartRamLoader.wordsOf (logOf f (n - 52092 - (F.latency + 1)))) <+:
        logOf (fun n => (run F x uartRx n).ramLoader.write) (n + 1) := by
  have hears := Params.hears_calc hlo hhi
  have htaken : logOf (fun n => UartRamLoader.taken (run F x uartRx n).loaderIn) n =
      (logOf (fun n => (Rs232.run F (fun n => (run F x uartRx n).uartIn (uartRx n)) n).delivered
        ((run F x uartRx n).uartIn (uartRx n))) n).map Prod.fst := by
    rw [← logOf_map]
    simp only [taken_eq]
    rfl
  have hwrites : logOf (fun n => (run F x uartRx n).ramLoader.write) (n + 1) =
      UartRamLoader.placed (UartRamLoader.wordsOf
        (logOf (fun n => UartRamLoader.taken (run F x uartRx n).loaderIn) n)) := by
    rw [← UartRamLoader.writes_eq x]
    simp only [ramLoader_run]
  have hbits : Params.calc.allBits = 52090 := rfl
  obtain ⟨hle, hge⟩ := @Rs232.delivered_soon .calc f plain F (fun n => (run F x uartRx n).uartIn (uartRx n)) 0 n
    (fun _ => rfl) (hhost.sends.frames_eq (hears.fits hhost)) (apart_of_ticks hhost.phase_lt hears.back hhost.apart)
    (fun n _ hv _ => by rw [← uart_run] at hv; exact hv) (by rw [hbits, Nat.zero_add]; exact hlatency) n le_rfl
  have hread (l : List (BitVec (Params.calc.dw + 1))) : (l.map (Rs232.reading plain)).map Prod.fst = l := by
    rw [List.map_map]
    exact List.map_id l
  have hle' := hle.map Prod.fst
  have hge' := hge.map Prod.fst
  rw [hread] at hle' hge'
  rw [hwrites, htaken]
  exact ⟨UartRamLoader.placed_mono (UartRamLoader.wordsOf_mono hle'),
    UartRamLoader.placed_mono (UartRamLoader.wordsOf_mono hge')⟩

/-- the word `0x12345678` and three bytes more -/
def someBytes : List Byte := [0x78, 0x56, 0x34, 0x12, 1, 2, 3]

theorem loads_soon_word :
    logOf (fun n => (run (.oneLate 8) ⟨0, 0, false, 0, 0, 0⟩ (rowLine 5208 10 (11 * 5208) someBytes) n).ramLoader.write)
      500000 = [(0, 0x12345678)] := by
  obtain ⟨hle, hge⟩ := @loads_soon (.oneLate 8) ⟨0, 0, false, 0, 0, 0⟩ _ 5208 1 _ _ (by decide) (by decide)
    (sendsTicks_row (by decide) (by decide) 10 someBytes) (by decide) 499999
  have hlog (k : ℕ) (hk : 401017 ≤ k) : logOf (row 10 (11 * 5208) someBytes) k = someBytes := by
    rw [logOf_row (by decide)]
    exact List.take_of_length_le (by simp only [someBytes, List.length_cons, List.length_nil]; omega)
  rw [hlog _ (by decide)] at hle hge
  exact hle.eq_of_length_le hge.length_le

end SerialLoader

end FpgaLearning.Calc
