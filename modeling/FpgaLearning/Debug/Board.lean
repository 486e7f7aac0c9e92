/-
What the debug module is for, seen from the other end of the line: a core that is halted or runs, and two flat byte
memories. A request changes this `Board` and is answered from it.

`Tool.Meets` is the weakest precondition of a tool at a board. There is one rule for each method of the debugger, and
from them the rules for a whole upload and a whole dump.
-/
import FpgaLearning.Debug.Tool

namespace FpgaLearning.Debug

open FpgaLearning.Memory FpgaLearning.Interaction DebugModule

structure Board where
  halted : Bool
  mem : Target → Word → Byte
  /-- ghost: the bytes stored so far, in order -/
  stores : Target → List Access
  /-- ghost: how often the core was told to run -/
  resumes : ℕ

namespace Board

variable {b : Board} {t : Target} {a : Word} {l l' : List Byte} {p : Packet}

/-! ## Requests and replies -/

/-- the stores of a request -/
def storesOf (p : Packet) (t : Target) : List Access :=
  if p.Writes t then (List.range (p.payload.length - 4)).map p.storeOf else []

/-- the board after a request -/
def next (b : Board) (p : Packet) : Board where
  halted := if p.cmd = cmdHalt then true else if p.cmd = cmdResume then false else b.halted
  mem t y :=
    if p.Writes t ∧ (y - p.addr).toNat < p.payload.length - 4 then p.dataByte (y - p.addr).toNat else b.mem t y
  stores t := b.stores t ++ storesOf p t
  resumes := b.resumes + (p.cmd == cmdResume).toNat

structure Replies (b : Board) (p : Packet) (reply : List Byte) : Prop where
  framed : ∃ len payload, reply = p.status :: p.id :: len :: payload ∧ payload.length = len.toNat
  state : p.cmd = cmdGetState → reply = [statusOk, p.id, 1, if b.halted then 1 else 0]
  read : ∀ t, p.Reads t → p.count ≠ 0 →
    reply = statusOk :: p.id :: p.count :: (List.range p.count.toNat).map fun i => b.mem t (p.addrOf i)

def responder : Responder Board (List Byte) (List Byte) where
  legal _ bytes := ∃ p : Packet, p.bytes = bytes
  step b bytes reply b' := ∃ p : Packet, p.bytes = bytes ∧ b.Replies p reply ∧ b' = b.next p

/-! ## Memory -/

/-- `l` is stored at `a` -/
def write (b : Board) (t : Target) (a : Word) (l : List Byte) : Board :=
  { b with
    mem := fun t' y => if t' = t ∧ (y - a).toNat < l.length then l.getD (y - a).toNat 0 else b.mem t' y
    stores := fun t' =>
      if t' = t then b.stores t' ++ l.mapIdx fun i v => storeByte (a + BitVec.ofNat 32 i) v else b.stores t' }

/-- the `n` bytes from `a` on -/
def bytes (b : Board) (t : Target) (a : Word) (n : ℕ) : List Byte :=
  (List.range n).map fun i => b.mem t (a + BitVec.ofNat 32 i)

theorem write_nil (b : Board) (t : Target) (a : Word) : b.write t a [] = b := by
  simp [write]

/-- two adjacent writes are one -/
theorem write_append (h : l.length + l'.length ≤ 2 ^ 32) :
    (b.write t a l).write t (a + BitVec.ofNat 32 l.length) l' = b.write t a (l ++ l') := by
  have hmem : ∀ y : Word, (if (y - (a + BitVec.ofNat 32 l.length)).toNat < l'.length then
        l'.getD (y - (a + BitVec.ofNat 32 l.length)).toNat 0
      else if (y - a).toNat < l.length then l.getD (y - a).toNat 0 else b.mem t y) =
      if (y - a).toNat < (l ++ l').length then (l ++ l').getD (y - a).toNat 0 else b.mem t y := by
    intro y
    rw [List.length_append]
    by_cases h1 : (y - a).toNat < l.length
    · have hno : ¬ (y - (a + BitVec.ofNat 32 l.length)).toNat < l'.length := by bv_omega
      rw [if_neg hno, if_pos h1, if_pos (by omega), List.getD_eq_getElem?_getD, List.getD_eq_getElem?_getD,
        List.getElem?_append_left h1]
    · have heq : (y - (a + BitVec.ofNat 32 l.length)).toNat = (y - a).toNat - l.length := by bv_omega
      rw [if_neg h1, heq]
      by_cases h2 : (y - a).toNat - l.length < l'.length
      · rw [if_pos h2, if_pos (by omega), List.getD_eq_getElem?_getD, List.getD_eq_getElem?_getD,
          List.getElem?_append_right (by omega)]
      · rw [if_neg h2, if_neg (by omega)]
  have hstores : (l.mapIdx fun i v => storeByte (a + BitVec.ofNat 32 i) v) ++
      (l'.mapIdx fun i v => storeByte (a + BitVec.ofNat 32 l.length + BitVec.ofNat 32 i) v) =
      (l ++ l').mapIdx fun i v => storeByte (a + BitVec.ofNat 32 i) v := by
    rw [List.mapIdx_append]
    congr 2
    funext i v
    rw [BitVec.add_assoc, ← BitVec.ofNat_add, Nat.add_comm]
  unfold write
  congr 1
  · funext t' y
    by_cases ht : t' = t
    · subst ht
      simpa using hmem y
    · simp [ht]
  · funext t'
    by_cases ht : t' = t
    · simp only [ht, if_true, ← hstores, List.append_assoc]
    · simp [ht]

theorem bytes_append (b : Board) (t : Target) (a : Word) (n m : ℕ) :
    b.bytes t a (n + m) = b.bytes t a n ++ b.bytes t (a + BitVec.ofNat 32 n) m := by
  rw [bytes, bytes, bytes, List.range_add, List.map_append, List.map_map]
  congr 2
  funext i
  rw [Function.comp, BitVec.ofNat_add, BitVec.add_assoc]

/-- **What was written is read.** -/
theorem bytes_write (h : l.length ≤ 2 ^ 32) : (b.write t a l).bytes t a l.length = l := by
  refine List.ext_getElem (by simp [bytes]) fun i h1 h2 => ?_
  have hsub : (a + BitVec.ofNat 32 i - a).toNat = i := by bv_omega
  simp only [bytes, List.getElem_map, List.getElem_range, write, true_and, hsub, if_pos h2]
  simp [h2]

/-! ## What each command does to the board -/

theorem halted_eq_self (h : b.halted = true) : { b with halted := true } = b := by rw [← h]

/-- a request that is no write and drives no wire -/
theorem next_eq_self (h1 : p.cmd ≠ cmdHalt) (h2 : p.cmd ≠ cmdResume) (h3 : ∀ t : Target, p.cmd ≠ t.cmdWrite) :
    b.next p = b := by
  have hno : ∀ t, ¬ p.Writes t := fun t hw => h3 t hw.1
  simp [next, storesOf, h1, h2, hno, beq_eq_false_iff_ne.2 h2]

theorem next_halt (h : p.cmd = cmdHalt) : b.next p = { b with halted := true } := by
  have hno : ∀ t, ¬ p.Writes t := by
    intro t hw
    have hcmd := hw.1
    rw [h] at hcmd
    cases t <;> cases hcmd
  simp [next, storesOf, h, hno, cmdHalt, cmdResume]

theorem next_resume (h : p.cmd = cmdResume) : b.next p = { b with halted := false, resumes := b.resumes + 1 } := by
  have hno : ∀ t, ¬ p.Writes t := by
    intro t hw
    have hcmd := hw.1
    rw [h] at hcmd
    cases t <;> cases hcmd
  simp [next, storesOf, h, hno, cmdHalt, cmdResume]

theorem next_write (hcmd : p.cmd = t.cmdWrite) (hp : p.payload = bigEndian a ++ l) : b.next p = b.write t a l := by
  have hw : ∀ t', p.Writes t' ↔ t' = t := by
    intro t'
    refine ⟨fun h => ?_, fun h => h ▸ Packet.writes_of_payload hcmd hp⟩
    have heq := hcmd.symm.trans h.1
    cases t <;> cases t' <;> first | rfl | cases heq
  have hlen : p.payload.length - 4 = l.length := by
    rw [Packet.length_of_payload hp]
    omega
  have hne : p.cmd ≠ cmdHalt ∧ p.cmd ≠ cmdResume := by
    rw [hcmd]
    cases t <;> decide
  have hstores : (List.range l.length).map p.storeOf = l.mapIdx fun i v => storeByte (a + BitVec.ofNat 32 i) v := by
    refine List.ext_getElem (by simp) fun i h1 h2 => ?_
    have hi : i < l.length := by simpa using h1
    simp [Packet.storeOf, Packet.addrOf, Packet.addr_of_payload hp, Packet.dataByte_of_payload hp, hi]
  unfold next write
  congr 1
  · rw [if_neg hne.1, if_neg hne.2]
  · funext t' y
    simp only [hw, hlen, Packet.addr_of_payload hp, Packet.dataByte_of_payload hp]
  · funext t'
    by_cases ht : t' = t
    · simp only [storesOf, hw, ht, if_true, hlen, hstores]
    · simp [storesOf, hw, ht]
  · simp [hne.2]

theorem next_read (h : p.cmd = t.cmdRead) : b.next p = b := by
  refine next_eq_self ?_ ?_ fun t' => ?_
  · rw [h]
    cases t <;> decide
  · rw [h]
    cases t <;> decide
  · rw [h]
    cases t <;> cases t' <;> decide

end Board

/-! ## Weakest preconditions of tools -/

namespace Tool

variable {α β : Type} {b : Board} {m : Tool α} {Q Q' : α → Board → Prop}

/-- the tool asks for nothing but packets, raises no exception, and ends with `Q` -/
def Meets (m : Tool α) (Q : α → Board → Prop) (b : Board) : Prop :=
  ∀ d : UARTDebugger, d.nextId < 256 →
    (m d).wp Board.responder (fun r b' => ∃ a d', r = .ok (a, d') ∧ d'.nextId < 256 ∧ Q a b') b

theorem Meets.pure {a : α} (h : Q a b) : (Pure.pure a : Tool α).Meets Q b := fun d hd => ⟨a, d, rfl, hd, h⟩

theorem Meets.mono (h : m.Meets Q b) (hQ : ∀ a b, Q a b → Q' a b) : m.Meets Q' b := fun d hd =>
  Dialogue.wp_mono _ (fun _ b' ⟨a, d', h1, h2, h3⟩ => ⟨a, d', h1, h2, hQ a b' h3⟩) (h d hd)

theorem Meets.bind {f : α → Tool β} {Q : β → Board → Prop} (h : m.Meets (fun a b' => (f a).Meets Q b') b) :
    (m >>= f).Meets Q b := by
  intro d hd
  refine Dialogue.wp_bind _ _ (Dialogue.wp_mono _ ?_ (h d hd))
  rintro _ b' ⟨a, d', rfl, hd', hf⟩
  exact hf d' hd'

end Tool

namespace UARTDebugger

open Tool

variable {b : Board} {t : Target}

theorem receiveResponse_framed {status id len : Byte} {payload : List Byte} (h : payload.length = len.toNat) :
    receiveResponse (status :: id :: len :: payload) = .ok (status.toNat, id.toNat, payload) := by
  rw [receiveResponse, if_neg (Nat.not_lt.2 h.ge), List.take_of_length_le h.le]

/-- the packet of a command, with the next id -/
theorem sendPacket_next (d : UARTDebugger) (hd : d.nextId < 256) {cmd : ℕ} (hcmd : cmd < 256) {data : List Byte}
    (hdata : data.length ≤ 255) : ∃ p : Packet, p.cmd = BitVec.ofNat 8 cmd ∧ p.payload = data ∧
      d.sendPacket cmd data none = .ok (d.takeNextId.2, p.bytes, d.nextId) := by
  refine ⟨⟨BitVec.ofNat 8 cmd, BitVec.ofNat 8 d.nextId, data, hdata⟩, rfl, rfl, ?_⟩
  have hsend := sendPacket_packet d.takeNextId.2 ⟨BitVec.ofNat 8 cmd, BitVec.ofNat 8 d.nextId, data, hdata⟩
  rwa [BitVec.toNat_ofNat, BitVec.toNat_ofNat, Nat.mod_eq_of_lt hcmd, Nat.mod_eq_of_lt hd] at hsend

theorem takeNextId_lt (d : UARTDebugger) : d.takeNextId.2.nextId < 256 :=
  Nat.lt_of_le_of_lt Nat.and_le_right (by decide)

/-- **One command.** The packet is sent, and its reply is what the board answers. -/
theorem meets_executeCommand {cmd : ℕ} (hcmd : cmd < 256) {data : List Byte} (hdata : data.length ≤ 255)
    {Q : ℕ × ℕ × List Byte → Board → Prop}
    (h : ∀ (p : Packet) (len : Byte) (payload : List Byte), p.cmd = BitVec.ofNat 8 cmd → p.payload = data →
      b.Replies p (p.status :: p.id :: len :: payload) → Q (p.status.toNat, p.id.toNat, payload) (b.next p)) :
    (executeCommand cmd data).Meets Q b := by
  intro d hd
  obtain ⟨p, hpcmd, hpdata, hsend⟩ := sendPacket_next d hd hcmd hdata
  simp only [executeCommand, hsend]
  refine ⟨⟨p, rfl⟩, ?_⟩
  rintro reply b' ⟨q, hq, hreply, rfl⟩
  obtain rfl : q = p := Packet.bytes_injective hq
  obtain ⟨len, payload, rfl, hlen⟩ := hreply.framed
  beta_reduce
  rw [receiveResponse_framed hlen]
  exact ⟨_, _, rfl, takeNextId_lt d, h q len payload hpcmd hpdata hreply⟩

/-- a command that the module carries out -/
theorem meets_command {cmd : ℕ} (hcmd : cmd < 256) {data : List Byte} (hdata : data.length ≤ 255)
    {Q : Bool → Board → Prop} (hok : ∀ p : Packet, p.cmd = BitVec.ofNat 8 cmd → p.payload = data → p.status = statusOk)
    (h : ∀ p : Packet, p.cmd = BitVec.ofNat 8 cmd → p.payload = data → Q true (b.next p)) :
    (command cmd data).Meets Q b := by
  refine Meets.bind (meets_executeCommand hcmd hdata fun p len payload hp hpd _ => ?_)
  rw [hok p hp hpd]
  exact Meets.pure (h p hp hpd)

theorem meets_halt {Q : Bool → Board → Prop} (h : Q true { b with halted := true }) : halt.Meets Q b :=
  meets_command (by decide) (by decide) (fun p hp _ => by rw [Packet.status, hp]; rfl) fun p hp _ => by
    rw [Board.next_halt hp]
    exact h

theorem meets_resume {Q : Bool → Board → Prop} (h : Q true { b with halted := false, resumes := b.resumes + 1 }) :
    resume.Meets Q b :=
  meets_command (by decide) (by decide) (fun p hp _ => by rw [Packet.status, hp]; rfl) fun p hp _ => by
    rw [Board.next_resume hp]
    exact h

theorem meets_getState {Q : Option Bool → Board → Prop} (h : Q (some b.halted) b) : getState.Meets Q b := by
  refine Meets.bind (meets_executeCommand (by decide) (by decide) fun p len payload hp _ hreply => ?_)
  have hcmd : p.cmd = cmdGetState := hp
  have hstatus : p.status = statusOk := by
    rw [Packet.status, hcmd]
    rfl
  have hself : b.next p = b := by
    refine Board.next_eq_self ?_ ?_ fun t => ?_
    · rw [hcmd]
      decide
    · rw [hcmd]
      decide
    · rw [hcmd]
      cases t <;> decide
  have hpayload : payload = [if b.halted then 1 else 0] := by
    have heq := hreply.state hcmd
    simp only [List.cons.injEq] at heq
    exact heq.2.2.2
  rw [hstatus, hself, hpayload]
  cases hh : b.halted with
  | true =>
    rw [hh] at h
    exact Meets.pure h
  | false =>
    rw [hh] at h
    exact Meets.pure h

/-! ### The memory commands -/

/-- the method that writes to memory `t` -/
def writeTo : Target → ℕ → List Byte → Tool Bool
  | .prog => writeProg
  | .data => writeData

/-- the method that reads memory `t` -/
def readFrom : Target → ℕ → ℕ → Tool (Option (List Byte))
  | .prog => readProg
  | .data => readData

theorem meets_write {a : ℕ} (ha : a < 2 ^ 32) {l : List Byte} (hpos : 1 ≤ l.length) (hlen : l.length ≤ 251)
    {Q : Bool → Board → Prop} (h : Q true (b.write t (BitVec.ofNat 32 a) l)) : (writeTo t a l).Meets Q b := by
  have hmain : ∀ cmd : ℕ, BitVec.ofNat 8 cmd = t.cmdWrite → cmd < 256 → (write cmd a l).Meets Q b := by
    intro cmd hcmd hlt
    have hdata : (bigEndian (BitVec.ofNat 32 a) ++ l).length ≤ 255 := by
      simp only [bigEndian, List.length_append, List.length_cons, List.length_nil]
      omega
    rw [write, if_neg (by omega), packAddress, if_pos ha]
    refine Meets.bind (Meets.pure (meets_command hlt hdata (fun p hp hpd => ?_) fun p hp hpd => ?_))
    · exact System.status_of_copies (.inr (Packet.writes_of_payload (hp.trans hcmd) hpd))
    · rw [Board.next_write (hp.trans hcmd) hpd]
      exact h
  cases t with
  | prog => exact hmain _ rfl (by decide)
  | data => exact hmain _ rfl (by decide)

theorem meets_read {a : ℕ} (ha : a < 2 ^ 32) {n : ℕ} (hpos : 1 ≤ n) (hn : n ≤ 255)
    {Q : Option (List Byte) → Board → Prop} (h : Q (some (b.bytes t (BitVec.ofNat 32 a) n)) b) :
    (readFrom t a n).Meets Q b := by
  have hmain : ∀ cmd : ℕ, BitVec.ofNat 8 cmd = t.cmdRead → cmd < 256 → (read cmd a n).Meets Q b := by
    intro cmd hcmd hlt
    have hpack : packAddressSize a n = .ok (bigEndian (BitVec.ofNat 32 a) ++ [BitVec.ofNat 8 n]) := by
      have hn' : n < 256 := by omega
      rw [packAddressSize, packAddress, if_pos ha]
      show (if n < 256 then _ else _) = _
      rw [if_pos hn']
      rfl
    rw [read, if_neg (by omega), hpack]
    refine Meets.bind (Meets.pure (Meets.bind ?_))
    refine meets_executeCommand hlt (by simp [bigEndian]) fun p len payload hp hpd hr => ?_
    obtain ⟨hreads, hcount⟩ := Packet.reads_of_payload (hp.trans hcmd) hpd
    have hnat : p.count.toNat = n := by
      rw [hcount, BitVec.toNat_ofNat]
      omega
    have hne : p.count ≠ 0 := by
      intro hz
      rw [hz] at hnat
      exact absurd hnat (by simp; omega)
    have hpayload : payload = b.bytes t (BitVec.ofNat 32 a) n := by
      have heq := hr.read t hreads hne
      simp only [List.cons.injEq, hnat] at heq
      rw [heq.2.2.2, Board.bytes]
      exact List.map_congr_left fun i _ => by rw [Packet.addrOf, Packet.addr_of_payload hpd]
    rw [Board.next_read (hp.trans hcmd), System.status_of_reads hreads, hpayload]
    exact Meets.pure h
  cases t with
  | prog => exact hmain _ rfl (by decide)
  | data => exact hmain _ rfl (by decide)

end UARTDebugger

/-! ## Uploading and dumping -/

open Tool UARTDebugger

variable {b : Board} {t : Target}

theorem meets_haltUnless {Q : Bool → Board → Prop} (h : Q true { b with halted := true }) :
    (haltUnless b.halted).Meets Q b := by
  unfold haltUnless
  split
  · rename_i hh
    rw [Board.halted_eq_self hh] at h
    exact Meets.pure h
  · exact meets_halt h

/-- **The loop of an upload.** `n` chunks are left, from byte `i` of the data on. -/
theorem meets_uploadChunks {d : List Byte} {s : ℕ} (hs : s + d.length ≤ 2 ^ 32) {n i : ℕ}
    (hlt : n ≠ 0 → i + 250 * (n - 1) < d.length) (hle : d.length ≤ i + 250 * n) {Q : Bool → Board → Prop}
    (h : Q true (b.write t (BitVec.ofNat 32 s) d)) :
    (uploadChunks (writeTo t) d s (List.range' i n 250)).Meets Q (b.write t (BitVec.ofNat 32 s) (d.take i)) := by
  induction n generalizing i with
  | zero =>
    rw [List.take_of_length_le (by omega)]
    exact Meets.pure h
  | succ n ih =>
    have hi : i < d.length := by
      have := hlt (Nat.succ_ne_zero n)
      omega
    have hlen : (slice d i (min d.length (i + 250))).length = min d.length (i + 250) - i := by
      rw [slice, List.length_take, List.length_drop]
      omega
    have hwrite : (b.write t (BitVec.ofNat 32 s) (d.take i)).write t (BitVec.ofNat 32 (s + i))
        (slice d i (min d.length (i + 250))) = b.write t (BitVec.ofNat 32 s) (d.take (i + 250)) := by
      have htake : d.take i ++ slice d i (min d.length (i + 250)) = d.take (i + 250) := by
        rw [slice, ← List.take_add, List.take_eq_take_iff]
        omega
      have hfits : (d.take i).length + (slice d i (min d.length (i + 250))).length ≤ 2 ^ 32 := by
        rw [hlen, List.length_take]
        omega
      have happ := Board.write_append (b := b) (t := t) (a := BitVec.ofNat 32 s) hfits
      rwa [htake, List.length_take, Nat.min_eq_left hi.le, ← BitVec.ofNat_add] at happ
    rw [List.range'_succ, uploadChunks]
    refine Meets.bind (meets_write (by omega) (by omega) (by omega) ?_)
    rw [if_pos rfl, hwrite]
    exact ih (fun hn => by omega) (by omega)

/-- **An upload** writes its data, and leaves the core halted. -/
theorem meets_upload {d : List Byte} (hd : d ≠ []) {s : ℕ} (hs : s + d.length ≤ 2 ^ 32)
    {Q : Bool → Board → Prop} (h : Q true ({ b with halted := true }.write t (BitVec.ofNat 32 s) d)) :
    (upload (writeTo t) d s).Meets Q b := by
  have hpos := List.length_pos_iff.2 hd
  rw [upload, if_neg hd]
  refine Meets.bind (meets_getState (Meets.bind (meets_haltUnless ?_)))
  rw [if_pos rfl, pyRange]
  have hloop := meets_uploadChunks (b := { b with halted := true }) (t := t) (i := 0)
    (n := (d.length - 0 + (250 - 1)) / 250) hs (fun _ => by omega) (by omega) h
  rwa [List.take_zero, Board.write_nil] at hloop

/-- **The loop of a dump.** -/
theorem meets_dumpChunks {n s : ℕ} (hs : s + n ≤ 2 ^ 32) {l : List Byte} {Q : Option (List Byte) → Board → Prop}
    (h : Q (some (l ++ b.bytes t (BitVec.ofNat 32 s) n)) b) : (dumpChunks (readFrom t) n s l).Meets Q b := by
  induction n using Nat.strong_induction_on generalizing s l with
  | _ n ih =>
    rw [dumpChunks]
    by_cases hn : n > 0
    · rw [dif_pos hn]
      refine Meets.bind (meets_read (by omega) (by omega) (by omega) (ih _ (by omega) (by omega) ?_))
      have hsplit := Board.bytes_append b t (BitVec.ofNat 32 s) (min n 250) (n - min n 250)
      rw [Nat.add_sub_cancel' (Nat.min_le_left n 250), ← BitVec.ofNat_add] at hsplit
      rwa [List.append_assoc, ← hsplit]
    · obtain rfl : n = 0 := by omega
      rw [dif_neg hn]
      rw [Board.bytes, List.range_zero, List.map_nil, List.append_nil] at h
      exact Meets.pure h

/-- **A dump** collects what is in memory. It tells the core to run if and only if it ran before, and leaves everything
else as it was. -/
theorem meets_dump {n s : ℕ} (hs : s + n ≤ 2 ^ 32) {Q : Option (List Byte) → Board → Prop}
    (h : Q (some (b.bytes t (BitVec.ofNat 32 s) n)) { b with resumes := b.resumes + (!b.halted).toNat }) :
    (dump (readFrom t) s n).Meets Q b := by
  refine Meets.bind (meets_getState (Meets.bind (meets_haltUnless ?_)))
  rw [if_pos rfl]
  refine Meets.bind (meets_dumpChunks hs ?_)
  show (_ >>= _ : Tool _).Meets Q _
  refine Meets.bind ?_
  rw [List.nil_append]
  cases hh : b.halted with
  | true =>
    have hrest : { b with resumes := b.resumes + (!b.halted).toNat } = b := by
      simpa [hh] using Board.halted_eq_self hh
    rw [hrest] at h
    rw [Board.halted_eq_self hh]
    exact Meets.pure (Meets.pure h)
  | false =>
    have hrest : ({ b with halted := false, resumes := b.resumes + 1 } : Board) =
        { b with resumes := b.resumes + (!b.halted).toNat } := by simp [hh]
    refine meets_resume (Meets.pure ?_)
    rw [← hrest] at h
    exact h

end FpgaLearning.Debug
