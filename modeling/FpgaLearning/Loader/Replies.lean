/-
What `UartMemInit` does with the commands it takes, and which of its answers arrive.

`Phase` is the state of the loader together with the commands complete so far and the bytes of the one under way; one step
lemma for each state of the machine. The memory and the bytes put on the output are those of the commands
(`Phase.of_settled`, `Phase.shown_le`). A byte is on the output for one cycle only, decided by the ready of the cycle
before: it arrives if and only if the receiver is ready for one cycle more, `replies_arrive_iff`.
-/
import FpgaLearning.Loader.UartMemInit

namespace FpgaLearning.Loader

variable {v : Version}

/-! ## Numbers in bytes -/

theorem bigEndian_snoc (l : List Byte) (b : Byte) : bigEndian (l ++ [b]) = 256 * bigEndian l + b.toNat := by
  simp [bigEndian, List.foldl_append]

/-- the register has taken in the bytes `got`, over whatever stood there before -/
def Shifted (w : ℕ) (r : BitVec w) (got : List Byte) : Prop :=
  ∃ stale : ℕ, r = BitVec.ofNat w (256 ^ got.length * stale + bigEndian got)

theorem Shifted.nil {w : ℕ} (r : BitVec w) : Shifted w r [] := ⟨r.toNat, by simp [bigEndian]⟩

theorem Shifted.snoc {w : ℕ} {r r' : BitVec w} {got : List Byte} (h : Shifted w r got) {b : Byte}
    (hr : r' = BitVec.ofNat w (256 * r.toNat + b.toNat)) : Shifted w r' (got ++ [b]) := by
  obtain ⟨stale, rfl⟩ := h
  refine ⟨stale, ?_⟩
  rw [hr, bigEndian_snoc, List.length_append, List.length_singleton]
  apply BitVec.eq_of_toNat_eq
  simp only [BitVec.toNat_ofNat]
  have hpow : 256 ^ (got.length + 1) * stale + (256 * bigEndian got + b.toNat) =
      256 * (256 ^ got.length * stale + bigEndian got) + b.toNat := by ring
  rw [hpow, Nat.add_mod, Nat.mul_mod_mod, ← Nat.add_mod]

/-- as many bytes as the register is wide leave nothing of what stood there before -/
theorem Shifted.full {n : ℕ} {r : BitVec (8 * n)} {got : List Byte} (h : Shifted (8 * n) r got) (hn : got.length = n) :
    r = BitVec.ofNat _ (bigEndian got) := by
  obtain ⟨stale, rfl⟩ := h
  have hpow : (2 : ℕ) ^ (8 * n) = 256 ^ n := Nat.pow_mul 2 8 n
  apply BitVec.eq_of_toNat_eq
  rw [BitVec.toNat_ofNat, BitVec.toNat_ofNat, hpow, hn, Nat.mul_add_mod]

/-- shifting a byte into a word -/
theorem shiftIn_eq (r : Word) (b : Byte) :
    (r.extractLsb' 0 24 ++ b : BitVec 32) = BitVec.ofNat 32 (256 * r.toNat + b.toNat) := by
  apply BitVec.eq_of_toNat_eq
  rw [BitVec.toNat_append, ← Nat.shiftLeft_add_eq_or_of_lt b.isLt, BitVec.extractLsb'_toNat, BitVec.toNat_ofNat,
    Nat.shiftLeft_eq, Nat.shiftRight_zero]
  have hb := b.isLt
  omega

/-! ## Bytes and commands -/

theorem commands_read {op : Byte} (hop : op.getLsbD 0 = true) {a : List Byte} (ha : a.length = v.addrBytes)
    (r : List Byte) : commands v (op :: (a ++ r)) = .read (BitVec.ofNat _ (bigEndian a)) :: commands v r := by
  rw [commands, if_pos hop, if_neg (by simp [ha]), ← ha, List.take_left, List.drop_left]

theorem commands_write {op : Byte} (hop : op.getLsbD 0 = false) {a d : List Byte} (ha : a.length = v.addrBytes)
    (hd : d.length = 4) (r : List Byte) : commands v (op :: (a ++ (d ++ r))) =
      .write (BitVec.ofNat _ (bigEndian a)) (BitVec.ofNat _ (bigEndian d)) :: commands v r := by
  have hno : ¬ op.getLsbD 0 = true := Bool.eq_false_iff.1 hop
  have hdrop : (a ++ (d ++ r)).drop (v.addrBytes + 4) = r := by
    rw [← ha, ← hd, ← List.drop_drop, List.drop_left, List.drop_left]
  have htake : (a ++ (d ++ r)).take v.addrBytes = a := by rw [← ha, List.take_left]
  have hrest : ((a ++ (d ++ r)).drop v.addrBytes).take 4 = d := by rw [← ha, List.drop_left, ← hd, List.take_left]
  rw [commands, if_neg hno, if_neg (by simp [ha, hd]), hdrop, htake, hrest]

theorem commands_short {op : Byte} {r : List Byte} (hr : r.length < v.addrBytes) : commands v (op :: r) = [] := by
  have hlong : r.length < v.addrBytes + 4 := by omega
  rw [commands, if_pos hr, if_pos hlong, ite_self]

theorem commands_short_write {op : Byte} (hop : op.getLsbD 0 = false) {r : List Byte} (hr : r.length < v.addrBytes + 4) :
    commands v (op :: r) = [] := by
  have hno : ¬ op.getLsbD 0 = true := Bool.eq_false_iff.1 hop
  rw [commands, if_neg hno, if_pos hr]

/-- the bytes `got` are the command `c` -/
def Complete (got : List Byte) (c : Command v) : Prop := ∀ r, commands v (got ++ r) = c :: commands v r

/-- the bytes taken are the commands `l` and then `got` -/
def Parsed (acc : List Byte) (l : List (Command v)) (got : List Byte) : Prop :=
  ∃ done, acc = done ++ got ∧ ∀ r, commands v (done ++ r) = l ++ commands v r

theorem Parsed.snoc {acc : List Byte} {l : List (Command v)} {got : List Byte} (h : Parsed acc l got) (b : Byte) :
    Parsed (acc ++ [b]) l (got ++ [b]) := by
  obtain ⟨done, rfl, hl⟩ := h
  exact ⟨done, List.append_assoc _ _ _, hl⟩

theorem Parsed.complete {acc : List Byte} {l : List (Command v)} {got : List Byte} {c : Command v} (h : Parsed acc l got)
    (hc : Complete got c) : Parsed acc (l ++ [c]) [] := by
  obtain ⟨done, rfl, hl⟩ := h
  refine ⟨done ++ got, (List.append_nil _).symm, fun r => ?_⟩
  rw [List.append_assoc, hl, hc, List.append_assoc, List.singleton_append]

theorem Parsed.commands_eq {acc : List Byte} {l : List (Command v)} {got : List Byte} (h : Parsed acc l got) :
    commands v acc = l ++ commands v got := by
  obtain ⟨done, rfl, hl⟩ := h
  exact hl got

theorem memAfter_snoc (m : Mem v) (l : List (Command v)) (c : Command v) : memAfter m (l ++ [c]) = c.run (memAfter m l) := by
  simp [memAfter, List.foldl_append]

theorem replies_snoc (m : Mem v) (l : List (Command v)) (c : Command v) :
    replies m (l ++ [c]) = replies m l ++ c.reply (memAfter m l) := by
  induction l generalizing m with
  | nil => simp [replies, memAfter]
  | cons b l ih =>
    rw [List.cons_append, replies, ih, replies, List.append_assoc]
    rfl

/-! ## Phases -/

namespace LoaderSession

open UartMemInit

variable {m : Mem v} {s : LoaderSession v} {i : LoaderIn}

/-- the memory when the write strobe of this cycle is over -/
def memNext (s : LoaderSession v) : Mem v :=
  if s.unit.memWe then Function.update s.mem s.unit.memAddr s.unit.memWriteData else s.mem

/-- the bytes put on the output, with the one of this cycle -/
def shownNext (s : LoaderSession v) : List Byte :=
  if s.unit.toUartValid then s.shown ++ [s.unit.toUartData] else s.shown

/-- the bytes taken are the commands `l` and then `got`; memory and output are those of `l`, and `out` of the next answer -/
structure Facts (m : Mem v) (s : LoaderSession v) (l : List (Command v)) (got out : List Byte) : Prop where
  parsed : Parsed s.accepted l got
  mem : s.memNext = memAfter m l
  shown : s.shownNext = replies m l ++ out

inductive Phase (m : Mem v) (s : LoaderSession v) : Prop
  | cmd (l) (hs : s.unit.state = .cmd) (h : Facts m s l [] []) (hcnt : s.unit.dataCnt = 0)
  | addr (l op got) (hs : s.unit.state = .addr) (h : Facts m s l (op :: got) []) (hop : s.unit.cmd = op)
      (hlen : got.length < v.addrBytes) (hcnt : s.unit.dataCnt = BitVec.ofNat 2 got.length)
      (haddr : Shifted _ s.unit.memAddr got)
  | data (l op a got) (hs : s.unit.state = .data) (h : Facts m s l (op :: (a ++ got)) []) (hop : s.unit.cmd = op)
      (heven : op.getLsbD 0 = false) (ha : a.length = v.addrBytes) (haddr : s.unit.memAddr = BitVec.ofNat _ (bigEndian a))
      (hlen : got.length < 4) (hcnt : s.unit.dataCnt = BitVec.ofNat 2 got.length)
      (hdata : Shifted 32 s.unit.memWriteData got)
  | exec (l got) (hs : s.unit.state = .exec) (h : Facts m s l got []) (hcnt : s.unit.dataCnt = 0)
      (hwe : s.unit.memWe = false)
      (hc : Complete got (if s.unit.cmd.getLsbD 0 then Command.read s.unit.memAddr
        else .write s.unit.memAddr s.unit.memWriteData))
  | memRead (l got k) (hs : s.unit.state = .memRead) (h : Facts m s l got ((wordBytes (s.mem s.unit.memAddr)).take k))
      (hk : k < 4) (hcnt : s.unit.dataCnt = BitVec.ofNat 2 k) (hwe : s.unit.memWe = false)
      (hdata : s.readData = s.mem s.unit.memAddr) (hc : Complete got (Command.read s.unit.memAddr))
  | memWrite (l got) (hs : s.unit.state = .memWrite) (h : Facts m s l got []) (hcnt : s.unit.dataCnt = 0)
      (hc : Complete got (Command.write s.unit.memAddr s.unit.memWriteData))

/-! ### One clock edge -/

theorem takeAddr_strobes : ∀ (v : Version) (x : St v) (b : Byte),
    (takeAddr v x b).memWe = x.memWe ∧ (takeAddr v x b).toUartValid = x.toUartValid ∧
      (takeAddr v x b).toUartData = x.toUartData ∧ (takeAddr v x b).memWriteData = x.memWriteData ∧
      (takeAddr v x b).cmd = x.cmd
  | .calc2, _, _ => ⟨rfl, rfl, rfl, rfl, rfl⟩
  | .uartTest, _, _ => ⟨rfl, rfl, rfl, rfl, rfl⟩

theorem next_memWe (x : St v) (i : In) : (next x i).memWe = (x.state == .memWrite) := by
  cases hs : x.state <;> simp only [next, hs] <;> try split_ifs
  all_goals first | rfl | exact (takeAddr_strobes v _ _).1

theorem next_toUartValid (x : St v) (i : In) : (next x i).toUartValid = (x.state == .memRead && i.toUartReady) := by
  cases hs : x.state <;> simp only [next, hs] <;> try split_ifs
  all_goals first | rfl | exact (takeAddr_strobes v _ _).2.1 | simp_all

theorem memNext_step (hs : s.unit.state ≠ .memWrite) (i : LoaderIn) : (s.step i).memNext = s.memNext := by
  have hwe : (s.step i).unit.memWe = false := by simp [step, next_memWe, hs]
  rw [memNext, hwe]
  rfl

theorem shownNext_step (h : (s.unit.state == .memRead && i.toUartReady) = false) :
    (s.step i).shownNext = s.shownNext := by
  have hv : (s.step i).unit.toUartValid = false := by simp only [step, next_toUartValid, h]
  rw [shownNext, hv]
  rfl

theorem Facts.quiet {l : List (Command v)} {got got' out : List Byte} (h : Facts m s l got out)
    (hw : s.unit.state ≠ .memWrite) (hr : (s.unit.state == .memRead && i.toUartReady) = false)
    (hp : Parsed (s.step i).accepted l got') : Facts m (s.step i) l got' out :=
  ⟨hp, (memNext_step hw i).trans h.mem, (shownNext_step hr).trans h.shown⟩

theorem accepted_of_not_accepts (h : s.accepts i = false) : (s.step i).accepted = s.accepted := by simp [step, h]

theorem accepted_of_accepts (h : s.accepts i = true) : (s.step i).accepted = s.accepted ++ [i.fromUartData] := by
  simp [step, h]

/-- an address byte, the last one or not -/
theorem takeAddr_eq : ∀ (v : Version) (x : St v) (b : Byte) {k : ℕ}, k < v.addrBytes → x.dataCnt = BitVec.ofNat 2 k →
    (takeAddr v x b).memAddr = BitVec.ofNat _ (256 * x.memAddr.toNat + b.toNat) ∧
      if k + 1 = v.addrBytes then (takeAddr v x b).state = afterAddr x.cmd ∧ (takeAddr v x b).dataCnt = 0
      else (takeAddr v x b).state = x.state ∧ (takeAddr v x b).dataCnt = BitVec.ofNat 2 (k + 1) := by
  intro v x b k hk hcnt
  cases v with
  | calc2 =>
    refine ⟨shiftIn_eq x.memAddr b, ?_⟩
    have hk4 : k < 4 := hk
    have hcases : k = 0 ∨ k = 1 ∨ k = 2 ∨ k = 3 := by omega
    rcases hcases with rfl | rfl | rfl | rfl <;> simp [takeAddr, hcnt, Version.addrBytes]
  | uartTest =>
    have hk0 : k = 0 := Nat.lt_one_iff.1 hk
    subst hk0
    refine ⟨?_, ?_⟩
    · apply BitVec.eq_of_toNat_eq
      have hb := b.isLt
      show b.toNat = (256 * x.memAddr.toNat + b.toNat) % 256
      omega
    · simp [takeAddr, hcnt, Version.addrBytes]

theorem Phase.next_cmd {l : List (Command v)} (hs : s.unit.state = .cmd) (h : Facts m s l [] [])
    (hcnt : s.unit.dataCnt = 0) : Phase m (s.step i) := by
  have hacc : s.accepts i = i.fromUartValid := by simp [accepts, fromUartReady, hs]
  have hquiet {got' : List Byte} (hp : Parsed (s.step i).accepted l got') : Facts m (s.step i) l got' [] :=
    h.quiet (by simp [hs]) (by simp [hs]) hp
  cases hv : i.fromUartValid
  · rw [hv] at hacc
    refine .cmd l ?_ (hquiet ?_) ?_
    · simp [step, next, hs, hv]
    · rw [accepted_of_not_accepts hacc]
      exact h.parsed
    · simp [step, next, hs, hv, hcnt]
  · rw [hv] at hacc
    refine .addr l i.fromUartData [] ?_ (hquiet ?_) ?_ ?_ ?_ (.nil _)
    · simp [step, next, hs, hv]
    · rw [accepted_of_accepts hacc]
      exact h.parsed.snoc _
    · simp [step, next, hs, hv]
    · cases v <;> decide
    · simp [step, next, hs, hv, hcnt]

theorem Phase.next_addr {l : List (Command v)} {op : Byte} {got : List Byte} (hs : s.unit.state = .addr)
    (h : Facts m s l (op :: got) []) (hop : s.unit.cmd = op) (hlen : got.length < v.addrBytes)
    (hcnt : s.unit.dataCnt = BitVec.ofNat 2 got.length) (haddr : Shifted _ s.unit.memAddr got) : Phase m (s.step i) := by
  have hacc : s.accepts i = i.fromUartValid := by simp [accepts, fromUartReady, hs]
  have hquiet {got' : List Byte} (hp : Parsed (s.step i).accepted l got') : Facts m (s.step i) l got' [] :=
    h.quiet (by simp [hs]) (by simp [hs]) hp
  cases hv : i.fromUartValid
  · rw [hv] at hacc
    refine .addr l op got ?_ (hquiet ?_) ?_ hlen ?_ ?_
    · simp [step, next, hs, hv]
    · rw [accepted_of_not_accepts hacc]
      exact h.parsed
    · simp [step, next, hs, hv, hop]
    · simp [step, next, hs, hv, hcnt]
    · simpa [step, next, hs, hv] using haddr
  · rw [hv] at hacc
    have hunit : (s.step i).unit =
        takeAddr v { s.unit with memWe := false, toUartValid := false } i.fromUartData := by
      simp [step, next, hs, hv]
    have hstrobes := takeAddr_strobes v { s.unit with memWe := false, toUartValid := false } i.fromUartData
    obtain ⟨hreg, hstate⟩ := takeAddr_eq v { s.unit with memWe := false, toUartValid := false } i.fromUartData hlen hcnt
    rw [← hunit] at hstrobes hreg hstate
    have hshift : Shifted _ (s.step i).unit.memAddr (got ++ [i.fromUartData]) := haddr.snoc hreg
    have hparsed : Parsed (s.step i).accepted l (op :: (got ++ [i.fromUartData])) := by
      rw [accepted_of_accepts hacc]
      exact h.parsed.snoc _
    have hcmd : (s.step i).unit.cmd = op := hstrobes.2.2.2.2.trans hop
    by_cases hfull : got.length + 1 = v.addrBytes
    · rw [if_pos hfull] at hstate
      have ha : (got ++ [i.fromUartData]).length = v.addrBytes := by simpa using hfull
      have hfulladdr := hshift.full ha
      have hnext : (s.step i).unit.state = afterAddr op := hstate.1.trans (congrArg afterAddr hop)
      cases hodd : op.getLsbD 0
      · refine .data l op (got ++ [i.fromUartData]) [] ?_ (hquiet ?_) hcmd hodd ha hfulladdr (by decide) ?_ (.nil _)
        · rw [hnext, afterAddr, hodd]
          rfl
        · simpa using hparsed
        · exact hstate.2
      · refine .exec l _ ?_ (hquiet hparsed) hstate.2 hstrobes.1 ?_
        · rw [hnext, afterAddr, hodd]
          rfl
        · rw [hcmd, hodd, if_pos rfl, hfulladdr]
          exact fun r => commands_read hodd ha r
    · rw [if_neg hfull] at hstate
      refine .addr l op (got ++ [i.fromUartData]) (hstate.1.trans hs) (hquiet hparsed) hcmd ?_ ?_ hshift
      · rw [List.length_append, List.length_singleton]
        omega
      · rw [hstate.2, List.length_append, List.length_singleton]

theorem Phase.next_data {l : List (Command v)} {op : Byte} {a got : List Byte} (hs : s.unit.state = .data)
    (h : Facts m s l (op :: (a ++ got)) []) (hop : s.unit.cmd = op) (heven : op.getLsbD 0 = false)
    (ha : a.length = v.addrBytes) (haddr : s.unit.memAddr = BitVec.ofNat _ (bigEndian a)) (hlen : got.length < 4)
    (hcnt : s.unit.dataCnt = BitVec.ofNat 2 got.length) (hdata : Shifted 32 s.unit.memWriteData got) :
    Phase m (s.step i) := by
  have hacc : s.accepts i = i.fromUartValid := by simp [accepts, fromUartReady, hs]
  have hquiet {got' : List Byte} (hp : Parsed (s.step i).accepted l got') : Facts m (s.step i) l got' [] :=
    h.quiet (by simp [hs]) (by simp [hs]) hp
  cases hv : i.fromUartValid
  · rw [hv] at hacc
    refine .data l op a got ?_ (hquiet ?_) ?_ heven ha ?_ hlen ?_ ?_
    · simp [step, next, hs, hv]
    · rw [accepted_of_not_accepts hacc]
      exact h.parsed
    · simp [step, next, hs, hv, hop]
    · simp [step, next, hs, hv, haddr]
    · simp [step, next, hs, hv, hcnt]
    · simpa [step, next, hs, hv] using hdata
  · rw [hv] at hacc
    have haddr' : (s.step i).unit.memAddr = BitVec.ofNat _ (bigEndian a) := by simp [step, next, hs, hv, haddr]
    have hcmd : (s.step i).unit.cmd = op := by simp [step, next, hs, hv, hop]
    have hreg : (s.step i).unit.memWriteData =
        BitVec.ofNat 32 (256 * s.unit.memWriteData.toNat + i.fromUartData.toNat) := by
      rw [← shiftIn_eq]
      simp [step, next, hs, hv]
    have hshift : Shifted 32 (s.step i).unit.memWriteData (got ++ [i.fromUartData]) := hdata.snoc hreg
    have hparsed : Parsed (s.step i).accepted l (op :: (a ++ (got ++ [i.fromUartData]))) := by
      rw [accepted_of_accepts hacc, ← List.append_assoc]
      exact h.parsed.snoc _
    have hcases : got.length = 0 ∨ got.length = 1 ∨ got.length = 2 ∨ got.length = 3 := by omega
    by_cases hfull : got.length = 3
    · have hd : (got ++ [i.fromUartData]).length = 4 := by simp [hfull]
      rw [hfull] at hcnt
      refine .exec l _ ?_ (hquiet hparsed) ?_ ?_ ?_
      · simp [step, next, hs, hv, hcnt]
      · simp [step, next, hs, hv, hcnt]
      · simp [step, next_memWe, hs]
      · rw [hcmd, heven, haddr', Shifted.full (n := 4) hshift hd]
        exact fun r => by simpa using commands_write heven ha hd r
    · refine .data l op a (got ++ [i.fromUartData]) ?_ (hquiet hparsed) hcmd heven ha haddr' ?_ ?_ hshift
      · rcases hcases with h0 | h0 | h0 | h0 <;> simp_all [step, next]
      · rw [List.length_append, List.length_singleton]
        omega
      · rcases hcases with h0 | h0 | h0 | h0 <;> simp_all [step, next]

theorem Phase.next_exec {l : List (Command v)} {got : List Byte} (hs : s.unit.state = .exec) (h : Facts m s l got [])
    (hcnt : s.unit.dataCnt = 0) (hwe : s.unit.memWe = false)
    (hc : Complete got (if s.unit.cmd.getLsbD 0 then Command.read s.unit.memAddr
      else .write s.unit.memAddr s.unit.memWriteData)) : Phase m (s.step i) := by
  have hacc : s.accepts i = false := by simp [accepts, fromUartReady, hs]
  have hfacts : Facts m (s.step i) l got [] := h.quiet (by simp [hs]) (by simp [hs]) (by
    rw [accepted_of_not_accepts hacc]
    exact h.parsed)
  have haddr : (s.step i).unit.memAddr = s.unit.memAddr := by simp [step, next, hs]
  have hdata : (s.step i).unit.memWriteData = s.unit.memWriteData := by simp [step, next, hs]
  have hcnt' : (s.step i).unit.dataCnt = 0 := by simp [step, next, hs, hcnt]
  cases hodd : s.unit.cmd.getLsbD 0
  · rw [hodd] at hc
    refine .memWrite l got ?_ hfacts hcnt' ?_
    · simp only [step, next, hs, hodd]
      rfl
    · rw [haddr, hdata]
      exact hc
  · rw [hodd, if_pos rfl] at hc
    refine .memRead l got 0 ?_ hfacts (by decide) hcnt' ?_ ?_ (haddr ▸ hc)
    · simp only [step, next, hs, hodd]
      rfl
    · simp [step, next_memWe, hs]
    · simp [step, hwe, next, hs]

/-- the byte sent is the next one of the word -/
theorem take_byteOf (w : Word) {k : ℕ} (hk : k < 4) :
    (wordBytes w).take k ++ [byteOf w (BitVec.ofNat 2 k)] = (wordBytes w).take (k + 1) := by
  have hcases : k = 0 ∨ k = 1 ∨ k = 2 ∨ k = 3 := by omega
  rcases hcases with rfl | rfl | rfl | rfl <;> rfl

theorem Phase.next_memRead {l : List (Command v)} {got : List Byte} {k : ℕ} (hs : s.unit.state = .memRead)
    (h : Facts m s l got ((wordBytes (s.mem s.unit.memAddr)).take k)) (hk : k < 4)
    (hcnt : s.unit.dataCnt = BitVec.ofNat 2 k) (hwe : s.unit.memWe = false) (hdata : s.readData = s.mem s.unit.memAddr)
    (hc : Complete got (Command.read s.unit.memAddr)) : Phase m (s.step i) := by
  have hacc : s.accepts i = false := by simp [accepts, fromUartReady, hs]
  have haddr : (s.step i).unit.memAddr = s.unit.memAddr := by
    simp only [step, next, hs]
    split_ifs <;> rfl
  have hmem : (s.step i).mem = s.mem := by simp [step, hwe]
  have hwe' : (s.step i).unit.memWe = false := by simp [step, next_memWe, hs]
  have hmemNext : (s.step i).memNext = memAfter m l := (memNext_step (by simp [hs]) i).trans h.mem
  have hdata' : (s.step i).readData = (s.step i).mem (s.step i).unit.memAddr := by
    rw [haddr, hmem]
    simp [step, hwe]
  have hparsed : Parsed (s.step i).accepted l got := by
    rw [accepted_of_not_accepts hacc]
    exact h.parsed
  cases hr : i.toUartReady
  · refine .memRead l got k ?_ (h.quiet (by simp [hs]) (by simp [hr]) hparsed |> fun h => ?_) hk ?_ hwe' hdata' (haddr ▸ hc)
    · simp [step, next, hs, hr]
    · rwa [haddr, hmem]
    · simp [step, next, hs, hr, hcnt]
  · have hshown : (s.step i).shownNext = replies m l ++ (wordBytes (s.mem s.unit.memAddr)).take (k + 1) := by
      have hnow : (s.step i).shown = s.shownNext := rfl
      have hvalid : (s.step i).unit.toUartValid = true := by simp [step, next_toUartValid, hs, hr]
      have hbyte : (s.step i).unit.toUartData = byteOf (s.mem s.unit.memAddr) (BitVec.ofNat 2 k) := by
        simp [step, next, hs, hr, hcnt, hdata]
      rw [shownNext, hvalid, if_pos rfl, hnow, h.shown, hbyte, List.append_assoc, take_byteOf _ hk]
    by_cases hlast : k = 3
    · subst hlast
      have hread : s.mem s.unit.memAddr = memAfter m l s.unit.memAddr := by
        rw [← h.mem, memNext, hwe]
        rfl
      refine .cmd (l ++ [.read s.unit.memAddr]) ?_ ⟨hparsed.complete hc, ?_, ?_⟩ ?_
      · simp [step, next, hs, hr, hcnt]
      · rw [memAfter_snoc, hmemNext]
        rfl
      · rw [hshown, replies_snoc, List.append_nil, hread]
        rfl
      · simp [step, next, hs, hr, hcnt]
    · have hcases : k = 0 ∨ k = 1 ∨ k = 2 := by omega
      refine .memRead l got (k + 1) ?_ ⟨hparsed, hmemNext, ?_⟩ (by omega) ?_ hwe' hdata' (haddr ▸ hc)
      · rcases hcases with rfl | rfl | rfl <;> simp [step, next, hs, hr, hcnt]
      · rw [hshown, haddr, hmem]
      · rcases hcases with rfl | rfl | rfl <;> simp [step, next, hs, hr, hcnt]

theorem Phase.next_memWrite {l : List (Command v)} {got : List Byte} (hs : s.unit.state = .memWrite)
    (h : Facts m s l got []) (hcnt : s.unit.dataCnt = 0)
    (hc : Complete got (Command.write s.unit.memAddr s.unit.memWriteData)) : Phase m (s.step i) := by
  have hacc : s.accepts i = false := by simp [accepts, fromUartReady, hs]
  have haddr : (s.step i).unit.memAddr = s.unit.memAddr := by simp [step, next, hs]
  have hdata : (s.step i).unit.memWriteData = s.unit.memWriteData := by simp [step, next, hs]
  have hwe : (s.step i).unit.memWe = true := by simp [step, next_memWe, hs]
  have hnow : (s.step i).mem = s.memNext := rfl
  refine .cmd (l ++ [.write s.unit.memAddr s.unit.memWriteData]) ?_ ⟨?_, ?_, ?_⟩ ?_
  · simp [step, next, hs]
  · rw [accepted_of_not_accepts hacc]
    exact h.parsed.complete hc
  · rw [memNext, hwe, if_pos rfl, hnow, h.mem, haddr, hdata, memAfter_snoc]
    rfl
  · rw [shownNext_step (by simp [hs]), h.shown, replies_snoc, Command.reply, List.append_nil, List.append_nil]
  · simp [step, next, hs, hcnt]

/-- **Step.** From one state of the machine to the next. -/
theorem Phase.next (h : Phase m s) (i : LoaderIn) : Phase m (s.step i) := by
  cases h with
  | cmd l hs h hcnt => exact next_cmd hs h hcnt
  | addr l op got hs h hop hlen hcnt haddr => exact next_addr hs h hop hlen hcnt haddr
  | data l op a got hs h hop heven ha haddr hlen hcnt hdata => exact next_data hs h hop heven ha haddr hlen hcnt hdata
  | exec l got hs h hcnt hwe hc => exact next_exec hs h hcnt hwe hc
  | memRead l got k hs h hk hcnt hwe hdata hc => exact next_memRead hs h hk hcnt hwe hdata hc
  | memWrite l got hs h hcnt hc => exact next_memWrite hs h hcnt hc

theorem Phase.start (x : St v) (m : Mem v) (r : Word) : Phase m (start x m r) :=
  .cmd [] rfl ⟨⟨[], rfl, fun _ => rfl⟩, rfl, rfl⟩ rfl

/-! ## What has been done for the bytes taken -/

/-- the machine takes bytes again, and no strobe is high -/
def settled (s : LoaderSession v) : Bool := fromUartReady s.unit && !s.unit.memWe && !s.unit.toUartValid

/-- memory and output as the commands ask for -/
structure Lossless (m : Mem v) (s : LoaderSession v) : Prop where
  mem : s.mem = memAfter m (commands v s.accepted)
  transferred : s.transferred = replies m (commands v s.accepted)

/-- when the machine takes bytes again, strobes of this cycle included, memory and output are those of the commands taken -/
theorem Phase.of_ready (h : Phase m s) (hready : fromUartReady s.unit = true) :
    s.memNext = memAfter m (commands v s.accepted) ∧ s.shownNext = replies m (commands v s.accepted) := by
  have hof : ∀ {l got}, Facts m s l got [] → commands v got = [] →
      s.memNext = memAfter m (commands v s.accepted) ∧ s.shownNext = replies m (commands v s.accepted) := by
    intro l got hf hgot
    rw [hf.parsed.commands_eq, hgot, List.append_nil, hf.mem, hf.shown, List.append_nil]
    exact ⟨rfl, rfl⟩
  cases h with
  | cmd l hs hf hcnt => exact hof hf (by rw [commands])
  | addr l op got hs hf hop hlen hcnt haddr => exact hof hf (commands_short hlen)
  | data l op a got hs hf hop heven ha haddr hlen hcnt hdata =>
    refine hof hf (commands_short_write heven ?_)
    rw [List.length_append, ha]
    omega
  | exec l got hs => simp [fromUartReady, hs] at hready
  | memRead l got k hs => simp [fromUartReady, hs] at hready
  | memWrite l got hs => simp [fromUartReady, hs] at hready

/-- **Settled states.** The memory and the bytes shown are those of the commands taken. -/
theorem Phase.of_settled (h : Phase m s) (hset : s.settled = true) :
    s.mem = memAfter m (commands v s.accepted) ∧ s.shown = replies m (commands v s.accepted) := by
  simp only [settled, Bool.and_eq_true, Bool.not_eq_true'] at hset
  obtain ⟨⟨hready, hwe⟩, hv⟩ := hset
  have hmem : s.memNext = s.mem := by rw [memNext, hwe]; rfl
  have hshown : s.shownNext = s.shown := by rw [shownNext, hv]; rfl
  rw [← hmem, ← hshown]
  exact h.of_ready hready

/-- the memory is never anything else than that of some of the commands taken -/
theorem Phase.mem_le (h : Phase m s) : ∃ l, l <+: commands v s.accepted ∧ s.memNext = memAfter m l := by
  have hof : ∀ {l got out}, Facts m s l got out → ∃ l, l <+: commands v s.accepted ∧ s.memNext = memAfter m l :=
    fun {l got _} hf => ⟨l, ⟨commands v got, hf.parsed.commands_eq.symm⟩, hf.mem⟩
  cases h with
  | cmd _ _ hf | addr _ _ _ _ hf | data _ _ _ _ _ hf | exec _ _ _ hf | memRead _ _ _ _ hf | memWrite _ _ _ hf => exact hof hf

/-- nothing is shown that no command asks for -/
theorem Phase.shown_le (h : Phase m s) : s.shownNext <+: replies m (commands v s.accepted) := by
  have hcomplete : ∀ {l got c}, Parsed s.accepted l got → Complete got c →
      replies m (commands v s.accepted) = replies m l ++ c.reply (memAfter m l) := by
    intro l got c hp hc
    have hcmds : commands v s.accepted = l ++ [c] := by
      have hnil := (hp.complete hc).commands_eq
      rwa [commands, List.append_nil] at hnil
    rw [hcmds, replies_snoc]
  have hshort : ∀ {l got}, Facts m s l got [] → commands v got = [] →
      s.shownNext <+: replies m (commands v s.accepted) := by
    intro l got hf hgot
    rw [hf.parsed.commands_eq, hgot, hf.shown, List.append_nil, List.append_nil]
  cases h with
  | cmd l hs hf hcnt => exact hshort hf (by rw [commands])
  | addr l op got hs hf hop hlen hcnt haddr => exact hshort hf (commands_short hlen)
  | data l op a got hs hf hop heven ha haddr hlen hcnt hdata =>
    refine hshort hf (commands_short_write heven ?_)
    rw [List.length_append, ha]
    omega
  | exec l got hs hf hcnt hwe hc =>
    rw [hcomplete hf.parsed hc, hf.shown, List.append_nil]
    exact List.prefix_append _ _
  | memRead l got k hs hf hk hcnt hwe hdata hc =>
    have hread : s.mem s.unit.memAddr = memAfter m l s.unit.memAddr := by
      rw [← hf.mem, memNext, hwe]
      rfl
    rw [hcomplete hf.parsed hc, hf.shown, hread]
    exact (List.prefix_append_right_inj _).2 (List.take_prefix _ _)
  | memWrite l got hs hf hcnt hc =>
    rw [hcomplete hf.parsed hc, hf.shown, List.append_nil]
    exact List.prefix_append _ _

/-! ## Runs -/

section Runs

variable (x : St v) (m : Mem v) (r : Word) (inp : ℕ → LoaderIn)

/-- whenever the machine has seen a ready receiver and sends, the receiver is ready for one cycle more -/
def Steady (n : ℕ) : Prop :=
  ∀ k < n, (after x m r inp k).unit.state = .memRead → (inp k).toUartReady = true → (inp (k + 1)).toUartReady = true

theorem after_succ (n : ℕ) : after x m r inp (n + 1) = (after x m r inp n).step (inp n) := rfl

theorem run_phase (n : ℕ) : Phase m (after x m r inp n) :=
  Clocked.run_inv (Phase m) (fun _ _ => True) (Phase.start x m r) (fun _ i h _ => h.next i) (fun _ => trivial) n

theorem valid_succ (n : ℕ) : (after x m r inp (n + 1)).unit.toUartValid = true ↔
    (after x m r inp n).unit.state = .memRead ∧ (inp n).toUartReady = true := by
  rw [after_succ, step, next_toUartValid, Bool.and_eq_true, beq_iff_eq]

theorem transferred_length_le (n : ℕ) :
    (after x m r inp n).transferred.length ≤ (after x m r inp n).shown.length := by
  induction n with
  | zero => exact le_rfl
  | succ n ih =>
    rw [after_succ, step]
    cases hv : (after x m r inp n).unit.toUartValid
    · simpa [transfers, hv] using ih
    · cases hr : (inp n).toUartReady
      · simpa [transfers, hv, hr] using Nat.le_succ_of_le ih
      · simpa [transfers, hv, hr] using ih

/-- the bytes shown have all arrived if and only if the receiver was ready whenever one was shown -/
theorem transferred_eq_iff (n : ℕ) : (after x m r inp n).transferred = (after x m r inp n).shown ↔
    ∀ k < n, (after x m r inp k).unit.toUartValid = true → (inp k).toUartReady = true := by
  induction n with
  | zero => exact ⟨fun _ k hk => absurd hk (Nat.not_lt_zero k), fun _ => rfl⟩
  | succ n ih =>
    have hle := transferred_length_le x m r inp n
    rw [Nat.forall_lt_succ_right, ← ih, after_succ, step]
    cases hv : (after x m r inp n).unit.toUartValid
    · simp [transfers, hv]
    · cases hr : (inp n).toUartReady
      · simp only [transfers, hv, hr, Bool.and_false, Bool.false_eq_true, ite_false, ite_true, imp_false, not_true,
          and_false, iff_false]
        intro he
        have hlen := congrArg List.length he
        rw [List.length_append, List.length_singleton] at hlen
        omega
      · simp [transfers, hv, hr]

/-- a byte that is shown was sent in the cycle before, to a receiver that stays ready -/
theorem Steady.ready {n : ℕ} (hsteady : Steady x m r inp n) :
    ∀ k < n, (after x m r inp k).unit.toUartValid = true → (inp k).toUartReady = true := by
  intro k hk hvalid
  cases k with
  | zero => cases hvalid
  | succ j =>
    obtain ⟨hs, hr⟩ := (valid_succ x m r inp j).1 hvalid
    exact hsteady j (by omega) hs hr

/-- a byte is shown in the cycle after the machine has seen a ready receiver -/
theorem steady_iff {n : ℕ} (hv : (after x m r inp n).unit.toUartValid = false) : Steady x m r inp n ↔
    ∀ k < n, (after x m r inp k).unit.toUartValid = true → (inp k).toUartReady = true := by
  refine ⟨Steady.ready x m r inp, fun hready k hk hs hr => ?_⟩
  have hvalid := (valid_succ x m r inp k).2 ⟨hs, hr⟩
  rcases Nat.lt_or_ge (k + 1) n with hlt | hge
  · exact hready (k + 1) hlt hvalid
  · obtain rfl : k + 1 = n := by omega
    rw [hv] at hvalid
    cases hvalid

/-- **Replies.** In every settled state memory and output are those of the commands taken if and only if the receiver was
ready for one cycle more whenever a byte was sent; and as long as it was, nothing else has ever been handed over. -/
theorem replies_arrive_iff :
    (∀ n, (after x m r inp n).settled = true → (Lossless m (after x m r inp n) ↔ Steady x m r inp n)) ∧
      ∀ n, Steady x m r inp n →
        (after x m r inp n).transferred <+: replies m (commands v (after x m r inp n).accepted) := by
  constructor
  · intro n hset
    obtain ⟨hmem, hshown⟩ := (run_phase x m r inp n).of_settled hset
    have hv : (after x m r inp n).unit.toUartValid = false := by
      simp only [settled, Bool.and_eq_true, Bool.not_eq_true'] at hset
      exact hset.2
    rw [steady_iff x m r inp hv, ← transferred_eq_iff, hshown]
    exact ⟨fun h => h.transferred, fun h => ⟨hmem, h⟩⟩
  · intro n hsteady
    rw [(transferred_eq_iff x m r inp n).2 (hsteady.ready x m r inp)]
    refine List.IsPrefix.trans ?_ (run_phase x m r inp n).shown_le
    rw [shownNext]
    split_ifs
    · exact List.prefix_append _ _
    · exact List.prefix_refl _

end Runs

/-- a read of address 0 from a loader in its reset state -/
def readZero (ready : ℕ → Bool) : ℕ → LoaderIn := fun n => ⟨if n = 0 then 1 else 0, n < 5, ready n, 0⟩

def zeroed : St .calc2 := ⟨.cmd, 0, 0, 0, 0, false, 0, false⟩

/-- a receiver that is always ready gets the four bytes -/
theorem replies_arrive_ready :
    Lossless (fun _ => 7) (after zeroed (fun _ => 7) 0 (readZero fun _ => true) 11) := by
  refine ((replies_arrive_iff zeroed (fun _ => 7) 0 (readZero fun _ => true)).1 11 (by decide)).2 ?_
  exact fun k _ _ _ => rfl

/-- **Lost bytes.** A receiver that is ready in every other cycle gets nothing of the answer. -/
theorem reply_lost : ¬ ∀ (x : St .calc2) (m : Mem .calc2) (r : Word) (inp : ℕ → LoaderIn) (n : ℕ),
    (after x m r inp n).settled = true → Lossless m (after x m r inp n) := by
  intro h
  have hlost := (h zeroed (fun _ => 7) 0 (readZero fun n => n % 2 == 0) 14 (by decide)).transferred
  have htransferred : (after zeroed (fun _ => 7) 0 (readZero fun n => n % 2 == 0) 14).transferred = [] := by decide
  have haccepted : (after zeroed (fun _ => 7) 0 (readZero fun n => n % 2 == 0) 14).accepted =
      1 :: ([0, 0, 0, 0] ++ []) := by decide
  rw [htransferred, haccepted, commands_read (by decide) (by decide)] at hlost
  exact absurd hlost (by simp [replies, Command.reply, wordBytes])

end LoaderSession

end FpgaLearning.Loader
