/-
The memory commands.

- `write_stores_payload`: a write stores its payload at its address, byte by byte and each byte once, and nothing else.
- `read_returns_iff`: a read returns the bytes it asks for, except that a read of no byte at all has the length of the
  read before it on the same port, because the copier is done before its length register is loaded.
-/
import FpgaLearning.Debug.Liveness

namespace FpgaLearning.Debug

open FpgaLearning.Memory DebugModule

/-! ## Payloads -/

/-- an address as it is sent -/
def bigEndian (a : Word) : List Byte := [lane a 3, lane a 2, lane a 1, lane a 0]

namespace Packet

variable {p : Packet} {a : Word} {d : List Byte}

theorem addr_of_payload (hp : p.payload = bigEndian a ++ d) : p.addr = a := by
  calc p.addr = joinLanes (lane a) := by simp [addr, byte, hp, bigEndian, joinLanes]
    _ = a := joinLanes_lane a

theorem dataByte_of_payload (hp : p.payload = bigEndian a ++ d) (i : ℕ) : p.dataByte i = d.getD i 0 := by
  simp [dataByte, byte, hp, bigEndian]

theorem length_of_payload (hp : p.payload = bigEndian a ++ d) : p.payload.length = d.length + 4 := by
  simp [hp, bigEndian]

theorem writes_of_payload {t : Target} (hcmd : p.cmd = t.cmdWrite) (hp : p.payload = bigEndian a ++ d) : p.Writes t :=
  ⟨hcmd, by rw [length_of_payload hp]; omega⟩

theorem reads_of_payload {t : Target} {c : Byte} (hcmd : p.cmd = t.cmdRead) (hp : p.payload = bigEndian a ++ c :: d) :
    p.Reads t ∧ p.count = c := by
  refine ⟨⟨hcmd, by rw [length_of_payload hp, List.length_cons]; omega⟩, ?_⟩
  simpa [count, dataByte] using dataByte_of_payload hp 0

end Packet

/-- two memories with the same bytes are the same -/
theorem wordMem_ext {m m' : WordMem} (h : ∀ x, byteAt m x = byteAt m' x) : m = m' := by
  funext k
  refine word_ext fun i => ?_
  have hidx : wordIndex (k ++ i) = k := by
    apply BitVec.eq_of_getLsbD_eq
    intro j hj
    simp only [wordIndex, BitVec.getLsbD_extractLsb', BitVec.getLsbD_append, hj, decide_true, Bool.true_and]
    rw [if_neg (by omega), Nat.add_sub_cancel_left]
  have hlane : laneIndex (k ++ i) = i := by
    apply BitVec.eq_of_getLsbD_eq
    intro j hj
    simp only [laneIndex, BitVec.getLsbD_extractLsb', BitVec.getLsbD_append, Nat.zero_add, hj, decide_true, Bool.true_and]
    rw [if_pos trivial]
  have := h (k ++ i)
  rwa [byteAt, byteAt, hidx, hlane] at this

/-! ## Writing -/

section

variable (T : ℕ) (dm : DebugModule.St) (mem : Target → WordMem) (bus : Target → Word) (requests : List Packet) (e : ℕ → Cycle)

/-- **A write** stores its data at its address, each byte with one request and in increasing order, and changes nothing
else. In fair surroundings every write is executed. -/
theorem write_stores_payload {p : Packet} {t : Target} {a : Word} {d : List Byte} (hcmd : p.cmd = t.cmdWrite)
    (hp : p.payload = bigEndian a ++ d) :
    (∀ n, ∀ x ∈ (System.run T dm mem bus requests e n).done, x.request = p →
      (∀ i, (hi : i < d.length) → byteAt (x.after t) (a + BitVec.ofNat 32 i) = d[i]) ∧
      (∀ y, (∀ i < d.length, y ≠ a + BitVec.ofNat 32 i) → byteAt (x.after t) y = byteAt (x.before t) y) ∧
      x.accesses t = d.mapIdx (fun i v => storeByte (a + BitVec.ofNat 32 i) v) ∧
      (d = [] → x.after t = x.before t ∧ x.accesses t = []) ∧
      ∀ t', t' ≠ t → x.after t' = x.before t' ∧ x.accesses t' = []) ∧
    (System.Fair T dm mem bus requests e → p ∈ requests →
      ∃ n, ∃ x ∈ (System.run T dm mem bus requests e n).done, x.request = p) := by
  have hw := Packet.writes_of_payload hcmd hp
  have hlen : p.payload.length - 4 = d.length := by rw [Packet.length_of_payload hp]; omega
  have haddr : ∀ i, p.addrOf i = a + BitVec.ofNat 32 i := fun i => by rw [Packet.addrOf, Packet.addr_of_payload hp]
  constructor
  · intro n x hx hxp
    subst hxp
    have hok := (System.run_inv T dm mem bus requests e n).ok x hx
    obtain ⟨hstored, hacc⟩ := hok.write t hw
    rw [hlen] at hstored hacc
    have hacc' : x.accesses t = d.mapIdx fun i v => storeByte (a + BitVec.ofNat 32 i) v := by
      rw [hacc]
      refine List.ext_getElem (by simp) fun i h1 h2 => ?_
      have hi : i < d.length := by simpa using h2
      simp [Packet.storeOf, haddr, Packet.dataByte_of_payload hp, hi]
    refine ⟨fun i hi => ?_, fun y hy => hstored.kept y fun i hi => by rw [haddr]; exact hy i hi, hacc', fun hd => ?_,
      fun t' ht => hok.quiet t' (System.other_of_copies (.inr hw) ht).1 (System.other_of_copies (.inr hw) ht).2⟩
    · have := hstored.written i hi
      rw [haddr, Packet.dataByte_of_payload hp] at this
      simpa [hi] using this
    · subst hd
      exact ⟨wordMem_ext fun y => hstored.kept y fun i hi => absurd hi (Nat.not_lt_zero _), hacc'⟩
  · intro hfair hmem
    obtain ⟨n, hn⟩ := System.all_done hfair
    rw [← hn, List.mem_map] at hmem
    exact ⟨n, hmem⟩

/-- a byte is stored at address 6 of the program memory -/
theorem write_stores_demo : ∃ n, ∃ x ∈ (System.run 16 System.zeroed (fun _ _ => 0#32) (fun _ => 0#32)
    [⟨cmdWriteProg, 1#8, bigEndian 6#32 ++ [0xAB#8], by decide⟩] System.prompt n).done,
    byteAt (x.after .prog) 6#32 = 0xAB#8 ∧ x.accesses .prog = [storeByte 6#32 0xAB#8] := by
  obtain ⟨h, hlive⟩ := write_stores_payload 16 System.zeroed (fun _ _ => 0#32) (fun _ => 0#32)
    [⟨cmdWriteProg, 1#8, bigEndian 6#32 ++ [0xAB#8], by decide⟩] System.prompt
    (p := ⟨cmdWriteProg, 1#8, bigEndian 6#32 ++ [0xAB#8], by decide⟩) (t := .prog) rfl rfl
  obtain ⟨n, x, hx, hxp⟩ := hlive (System.prompt_fair _ _ _ _ _) (List.mem_singleton_self _)
  obtain ⟨hbyte, -, hacc, -⟩ := h n x hx hxp
  exact ⟨n, x, hx, hbyte 0 (by decide), hacc⟩

/-! ## Reading -/

/-- a read of `c` bytes of the data memory -/
def readData (id : Byte) (a : Word) (c : Byte) : Packet := ⟨cmdReadData, id, bigEndian a ++ [c], by simp [bigEndian]⟩

/-- the reply to a read of `c` bytes from `a` -/
def readReply (id c : Byte) (m : WordMem) (a : Word) : List Byte :=
  statusOk :: id :: c :: (List.range c.toNat).map fun i => byteAt m (a + BitVec.ofNat 32 i)

variable {T dm mem bus requests e}

/-- the length byte of a read of no byte is the count of the read before -/
theorem reply_of_read {n : ℕ} {xs ys : List Transaction} {x : Transaction} {t : Target} {a : Word} {c : Byte}
    {d : List Byte} (hxs : (System.run T dm mem bus requests e n).done = xs ++ x :: ys)
    (hcmd : x.request.cmd = t.cmdRead) (hp : x.request.payload = bigEndian a ++ c :: d) :
    x.after = x.before ∧ (∀ t', ∀ y ∈ x.accesses t', IsLoad y) ∧
      if c = 0#8 then x.reply[2]? = some (System.lastCount t (dm.copier t).readLen (xs.map (·.request)))
      else x.reply = readReply x.request.id c (x.before t) a := by
  have hinv := System.run_inv T dm mem bus requests e n
  have hok := hinv.ok x (by simp [hxs])
  obtain ⟨hr, hc⟩ := Packet.reads_of_payload hcmd hp
  obtain ⟨hafter, hloads, hreply⟩ := hok.read t hr
  have hother : ∀ t', t' ≠ t → x.after t' = x.before t' ∧ x.accesses t' = [] := fun t' ht =>
    hok.quiet t' (System.other_of_copies (.inl hr) ht).1 (System.other_of_copies (.inl hr) ht).2
  refine ⟨funext fun t' => ?_, fun t' => ?_, ?_⟩
  · by_cases ht : t' = t
    · rw [ht, hafter]
    · exact (hother t' ht).1
  · by_cases ht : t' = t
    · rw [ht]; exact hloads
    · simp [(hother t' ht).2]
  · rw [hc, (hinv.history xs x ys hxs).readLen t] at hreply
    split_ifs at hreply ⊢ with hz
    · exact hreply
    · simpa only [readReply, Packet.requested, Packet.addrOf, Packet.addr_of_payload hp, hc] using hreply

theorem readReply_iff {n : ℕ} {xs ys : List Transaction} {x : Transaction} {t : Target} {a : Word} {c : Byte}
    {d : List Byte} (hxs : (System.run T dm mem bus requests e n).done = xs ++ x :: ys)
    (hcmd : x.request.cmd = t.cmdRead) (hp : x.request.payload = bigEndian a ++ c :: d) :
    x.reply = readReply x.request.id c (x.before t) a ↔
      c ≠ 0#8 ∨ System.lastCount t (dm.copier t).readLen (xs.map (·.request)) = 0#8 := by
  obtain ⟨-, -, hreply⟩ := reply_of_read hxs hcmd hp
  split_ifs at hreply with hz
  · subst hz
    obtain ⟨len, payload, heq, hlen⟩ := ((System.run_inv T dm mem bus requests e n).ok x (by simp [hxs])).reply
    have hstatus : x.request.status = statusOk := System.status_of_reads (Packet.reads_of_payload hcmd hp).1
    have hthird : len = System.lastCount t (dm.copier t).readLen (xs.map (·.request)) := by simpa [heq] using hreply
    rw [heq, hstatus, ← hthird]
    refine ⟨fun h => .inr ?_, fun h => ?_⟩
    · simp only [readReply, List.cons.injEq] at h
      exact h.2.2.1
    · obtain rfl : len = 0#8 := h.resolve_left (fun h' => h' rfl)
      obtain rfl : payload = [] := List.eq_nil_of_length_eq_zero (by simpa using hlen)
      rfl
  · exact ⟨fun _ => .inl hz, fun _ => hreply⟩

variable (T dm mem bus requests e)

/-- **A read** changes no memory, and it returns the bytes it asks for if and only if it asks for some, or the read before it
on its port (for the first one: the length register after reset) asked for none. In fair surroundings every read is
executed. -/
theorem read_returns_iff {p : Packet} {t : Target} {a : Word} {c : Byte} {d : List Byte} (hcmd : p.cmd = t.cmdRead)
    (hp : p.payload = bigEndian a ++ c :: d) :
    (∀ n xs x ys, (System.run T dm mem bus requests e n).done = xs ++ x :: ys → x.request = p →
      ((x.reply = readReply p.id c (x.before t) a ∧ x.after = x.before) ↔
        c ≠ 0#8 ∨ System.lastCount t (dm.copier t).readLen (xs.map (·.request)) = 0#8)) ∧
    (System.Fair T dm mem bus requests e → p ∈ requests →
      ∃ n, ∃ x ∈ (System.run T dm mem bus requests e n).done, x.request = p) := by
  constructor
  · intro n xs x ys hxs hxp
    subst hxp
    rw [← readReply_iff hxs hcmd hp]
    exact and_iff_left (reply_of_read hxs hcmd hp).1
  · intro hfair hmem
    obtain ⟨n, hn⟩ := System.all_done hfair
    rw [← hn, List.mem_map] at hmem
    exact ⟨n, hmem⟩

end

/-- three bytes across a word boundary -/
theorem read_returns_demo : ∃ n, ∃ x ∈ (System.run 16 System.zeroed (fun _ k => k.setWidth 32) (fun _ => 0#32)
    [readData 1#8 2#32 3#8] System.prompt n).done,
    x.reply = readReply 1#8 3#8 (x.before .data) 2#32 ∧ x.after = x.before := by
  obtain ⟨h, hlive⟩ := read_returns_iff 16 System.zeroed (fun _ k => k.setWidth 32) (fun _ => 0#32) [readData 1#8 2#32 3#8]
    System.prompt (p := readData 1#8 2#32 3#8) (t := .data) (d := []) rfl rfl
  obtain ⟨n, x, hx, hxp⟩ := hlive (System.prompt_fair _ _ _ _ _) (List.mem_singleton_self _)
  obtain ⟨xs, ys, hxs⟩ := List.append_of_mem hx
  exact ⟨n, x, hx, (h n xs x ys hxs hxp).2 (.inl (by decide))⟩

/-- after a read of one byte, a read of none is answered with a length of one -/
theorem read_none_after_one : ∃ n, ∃ x ∈ (System.run 16 System.zeroed (fun _ _ => 0#32) (fun _ => 0#32)
    [readData 1#8 0#32 1#8, readData 2#8 0#32 0#8] System.prompt n).done, x.request = readData 2#8 0#32 0#8 ∧
    x.reply[2]? = some 1#8 ∧ x.reply ≠ readReply 2#8 0#8 (x.before .data) 0#32 := by
  obtain ⟨n, hn⟩ := System.all_done (System.prompt_fair 16 System.zeroed (fun _ _ => 0#32) (fun _ => 0#32)
    [readData 1#8 0#32 1#8, readData 2#8 0#32 0#8])
  obtain ⟨x₁, xs, hdone, hx₁, hxs⟩ := List.map_eq_cons_iff.1 hn
  obtain ⟨x, ys, rfl, hx, hys⟩ := List.map_eq_cons_iff.1 hxs
  have hlast : System.lastCount .data (System.zeroed.copier .data).readLen ([x₁].map (·.request)) = 1#8 := by
    rw [List.map_singleton, hx₁]
    decide
  have hcmd : x.request.cmd = Target.data.cmdRead := by rw [hx]; rfl
  have hp : x.request.payload = bigEndian 0#32 ++ 0#8 :: [] := by rw [hx]; rfl
  have hsplit : (System.run 16 System.zeroed (fun _ _ => 0#32) (fun _ => 0#32)
      [readData 1#8 0#32 1#8, readData 2#8 0#32 0#8] System.prompt n).done = [x₁] ++ x :: ys := hdone
  obtain ⟨-, -, hreply⟩ := reply_of_read hsplit hcmd hp
  rw [if_pos rfl, hlast] at hreply
  refine ⟨n, x, by simp [hdone], hx, hreply, fun h => ?_⟩
  rw [h] at hreply
  simp [readReply] at hreply

end FpgaLearning.Debug
