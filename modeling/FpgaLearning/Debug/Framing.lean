/-
The framing of the byte stream: what `PacketParser` makes of the bytes it receives.

`parse` is the reference: a packet is command, id, length and that many payload bytes, and a byte with a receive error ends
the frame it falls into. `Framing` is the same as a decomposition of the stream, with the bytes of the unfinished frame
left over; `Framing.snoc` says what one more byte does to it.

The parser runs under an arbitrary schedule of bytes, errors, gaps and `res_ready`. `Listening` says that its registers are
determined by the bytes of the unfinished frame alone, so nothing of the frames before can show: `ParserSession.Inv` is
the invariant and `parser_framing` the result.
-/
import FpgaLearning.Core.Clocked
import FpgaLearning.Debug.Host
import FpgaLearning.Debug.UnitLemmas

namespace FpgaLearning.Debug

open FpgaLearning.Memory FpgaLearning.Clocked

/-! ## The packet code -/

/-- a received byte with its error flag -/
structure RxByte where
  byte : Byte
  error : Bool
deriving DecidableEq, Repr

def RxByte.clean (b : Byte) : RxByte := ⟨b, false⟩

/-- the bytes read are the beginning of a packet that goes on -/
def Unfinished (l : List Byte) : Prop := ∃ p : Packet, l <+: p.bytes ∧ l.length < p.bytes.length

theorem unfinished_nil : Unfinished [] := ⟨⟨0, 0, [], by simp⟩, List.nil_prefix, by simp⟩

/-- the length byte decides where a packet ends -/
theorem Packet.bytes_prefix_inj {p q : Packet} (h : p.bytes <+: q.bytes) : p = q := by
  obtain ⟨cmd, id, payload, hle⟩ := p
  obtain ⟨cmd', id', payload', hle'⟩ := q
  obtain ⟨t, ht⟩ := h
  simp only [bytes, len, List.cons_append, List.cons.injEq] at ht
  obtain ⟨rfl, rfl, hlen, hpay⟩ := ht
  have hlen' : payload.length = payload'.length := by
    have := congrArg BitVec.toNat hlen
    simp only [BitVec.toNat_ofNat] at this
    omega
  obtain rfl : t = [] := by
    have := congrArg List.length hpay
    rw [List.length_append] at this
    exact List.eq_nil_of_length_eq_zero (by omega)
  simpa using hpay

/-- one more byte finishes the packet or continues it -/
theorem Unfinished.snoc {l : List Byte} (h : Unfinished l) (b : Byte) :
    (∃ p : Packet, l ++ [b] = p.bytes) ∨ Unfinished (l ++ [b]) := by
  obtain ⟨p, hpre, hlt⟩ := h
  obtain ⟨cmd, id, payload, hle⟩ := p
  match l with
  | [] => exact .inr ⟨⟨b, id, payload, hle⟩, by simp [Packet.bytes], by simp⟩
  | [c] => exact .inr ⟨⟨c, b, payload, hle⟩, by simp [Packet.bytes], by simp⟩
  | [c, i] =>
    have hb := b.isLt
    have hn : b = BitVec.ofNat 8 b.toNat := (BitVec.ofNat_toNat 8 b ▸ (BitVec.setWidth_eq b).symm)
    let p' : Packet := ⟨c, i, List.replicate b.toNat 0, by rw [List.length_replicate]; omega⟩
    have hlen : p'.len = b := by rw [Packet.len, List.length_replicate, BitVec.ofNat_toNat, BitVec.setWidth_eq]
    by_cases h0 : b = 0
    · refine .inl ⟨p', ?_⟩
      subst h0
      rfl
    · refine .inr ⟨p', ?_, ?_⟩
      · rw [Packet.bytes, hlen]
        exact List.prefix_append [c, i, b] p'.payload
      · have : b.toNat ≠ 0 := fun h => h0 (BitVec.eq_of_toNat_eq h)
        simp [p']
        omega
  | c :: i :: n :: pl =>
    obtain ⟨t, ht⟩ := hpre
    simp only [Packet.bytes, List.cons_append, List.cons.injEq] at ht
    obtain ⟨rfl, rfl, hn, rfl⟩ := ht
    simp only [Packet.length_bytes, List.length_cons, List.length_append] at hlt hle
    -- the payload is filled up with zeros to the length announced
    let p' : Packet := ⟨c, i, (pl ++ [b]) ++ List.replicate (t.length - 1) 0, by simp; omega⟩
    have hlen : p'.len = n := by
      rw [hn, Packet.len, Packet.len]
      congr 1
      simp [p']
      omega
    have hbytes : p'.bytes = (c :: i :: n :: pl ++ [b]) ++ List.replicate (t.length - 1) 0 := by
      rw [Packet.bytes, hlen]
      rfl
    by_cases h1 : t.length = 1
    · refine .inl ⟨p', ?_⟩
      rw [hbytes, h1]
      simp
    · refine .inr ⟨p', ⟨_, hbytes.symm⟩, ?_⟩
      rw [hbytes]
      simp
      omega

/-- the beginning of a packet that goes on is no packet -/
theorem Unfinished.ne_bytes {l : List Byte} (h : Unfinished l) (p : Packet) : l ≠ p.bytes := by
  rintro rfl
  obtain ⟨q, hq, hlt⟩ := h
  rw [Packet.bytes_prefix_inj hq] at hlt
  exact lt_irrefl _ hlt

/-! ## The reference parse -/

inductive Frame where
  | packet (p : Packet)
  | flagged

theorem length_take_le {n : Byte} {ds : List Byte} (h : n.toNat ≤ ds.length) : (ds.take n.toNat).length ≤ 255 := by
  rw [List.length_take_of_le h]
  exact Nat.le_of_lt_succ n.isLt

/-- the packet at the beginning of `l`, if all of it is there -/
def readPacket : List Byte → Option Packet
  | c :: i :: n :: ds =>
    if h : n.toNat ≤ ds.length then
      some ⟨c, i, ds.take n.toNat, length_take_le h⟩
    else none
  | _ => none

/-- the bytes in front of the first error -/
def cleanPrefix (bs : List RxByte) : List Byte := (bs.takeWhile fun b => !b.error).map RxByte.byte

/-- the first frame of a stream and what follows it -/
def nextFrame (bs : List RxByte) : Option (Frame × List RxByte) :=
  match readPacket (cleanPrefix bs) with
  | some p => some (.packet p, bs.drop p.bytes.length)
  | none => match bs.dropWhile fun b => !b.error with
    | [] => none
    | _ :: rest => some (.flagged, rest)

theorem nextFrame_length {bs : List RxByte} {f : Frame} {rest : List RxByte} (h : nextFrame bs = some (f, rest)) :
    rest.length < bs.length := by
  unfold nextFrame at h
  split at h
  · rename_i p hp
    have hne : bs ≠ [] := by
      rintro rfl
      simp [cleanPrefix, readPacket] at hp
    obtain ⟨-, rfl⟩ := Prod.mk.inj (Option.some.inj h)
    rw [List.length_drop, Packet.length_bytes]
    have := List.length_pos_iff.2 hne
    omega
  · split at h
    · cases h
    · rename_i x rest' hdrop
      obtain ⟨-, rfl⟩ := Prod.mk.inj (Option.some.inj h)
      have := (List.dropWhile_suffix (l := bs) fun b => !b.error).length_le
      rw [hdrop, List.length_cons] at this
      omega

/-- **Reference parse.** The frames of a stream, without the unfinished one. -/
def parse (bs : List RxByte) : List Frame :=
  match _h : nextFrame bs with
  | none => []
  | some (f, rest) => f :: parse rest
termination_by bs.length
decreasing_by exact nextFrame_length _h

theorem parse_none {bs : List RxByte} (h : nextFrame bs = none) : parse bs = [] := by
  unfold parse
  split
  · rfl
  · rename_i h'
    rw [h] at h'
    cases h'

theorem parse_some {bs : List RxByte} {f : Frame} {rest : List RxByte} (h : nextFrame bs = some (f, rest)) :
    parse bs = f :: parse rest := by
  rw [parse]
  split
  · rename_i h'
    rw [h] at h'
    cases h'
  · rename_i h'
    rw [h] at h'
    cases h'
    rfl

/-- the stream is the frames `fs` followed by the unfinished bytes `l` -/
inductive Framing : List RxByte → List Frame → List Byte → Prop
  | rest {l : List Byte} (h : Unfinished l) : Framing (l.map .clean) [] l
  | packet (p : Packet) {bs : List RxByte} {fs : List Frame} {l : List Byte} (h : Framing bs fs l) :
      Framing (p.bytes.map .clean ++ bs) (.packet p :: fs) l
  | flagged {k : List Byte} (hk : Unfinished k) (b : Byte) {bs : List RxByte} {fs : List Frame} {l : List Byte}
      (h : Framing bs fs l) : Framing (k.map .clean ++ ⟨b, true⟩ :: bs) (.flagged :: fs) l

theorem takeWhile_clean (l : List Byte) (bs : List RxByte) :
    ((l.map RxByte.clean ++ bs).takeWhile fun b => !b.error) = l.map .clean ++ bs.takeWhile fun b => !b.error := by
  rw [List.takeWhile_append_of_pos]
  intro b hb
  obtain ⟨x, _, rfl⟩ := List.mem_map.1 hb
  rfl

theorem dropWhile_clean (l : List Byte) (bs : List RxByte) :
    ((l.map RxByte.clean ++ bs).dropWhile fun b => !b.error) = bs.dropWhile fun b => !b.error := by
  rw [List.dropWhile_append_of_pos]
  intro b hb
  obtain ⟨x, _, rfl⟩ := List.mem_map.1 hb
  rfl

theorem cleanPrefix_append (l : List Byte) (bs : List RxByte) :
    cleanPrefix (l.map .clean ++ bs) = l ++ cleanPrefix bs := by
  unfold cleanPrefix
  rw [takeWhile_clean, List.map_append, List.map_map]
  congr 1
  exact List.map_id'' (fun _ => rfl) l

theorem readPacket_bytes (p : Packet) (l : List Byte) : readPacket (p.bytes ++ l) = some p := by
  have hlen := p.toNat_len
  obtain ⟨cmd, id, payload, hle⟩ := p
  simp only [Packet.bytes, List.cons_append, readPacket, hlen, List.length_append]
  rw [dif_pos (Nat.le_add_right _ _)]
  simp

theorem readPacket_unfinished {l : List Byte} (h : Unfinished l) : readPacket l = none := by
  obtain ⟨p, ⟨t, ht⟩, hlt⟩ := h
  match l with
  | [] => rfl
  | [_] => rfl
  | [_, _] => rfl
  | c :: i :: n :: pl =>
    have hlen := p.toNat_len
    obtain ⟨cmd, id, payload, hle⟩ := p
    simp only [Packet.bytes, List.cons_append, List.cons.injEq] at ht
    obtain ⟨rfl, rfl, rfl, rfl⟩ := ht
    change pl.length + 3 < (pl ++ t).length + 3 at hlt
    have hgt : ¬ (Packet.mk c i (pl ++ t) hle).len.toNat ≤ pl.length := by
      rw [hlen]
      change ¬ (pl ++ t).length ≤ pl.length
      omega
    simp only [readPacket, dif_neg hgt]

/-- the decomposition of a stream is its parse -/
theorem Framing.parse_eq {bs : List RxByte} {fs : List Frame} {l : List Byte} (h : Framing bs fs l) :
    parse bs = fs := by
  induction h with
  | @rest l h =>
    have hclean := cleanPrefix_append l []
    have hdrop := dropWhile_clean l []
    rw [List.append_nil] at hclean hdrop
    refine parse_none ?_
    unfold nextFrame
    rw [hclean, cleanPrefix, List.takeWhile_nil, List.map_nil, List.append_nil, readPacket_unfinished h, hdrop]
    rfl
  | @packet p bs fs l h ih =>
    rw [← ih]
    refine parse_some ?_
    unfold nextFrame
    rw [cleanPrefix_append, readPacket_bytes]
    simp only [Option.some.injEq, Prod.mk.injEq, true_and]
    rw [List.drop_left' (by rw [List.length_map])]
  | @flagged k hk b bs fs l h ih =>
    rw [← ih]
    refine parse_some ?_
    unfold nextFrame
    rw [cleanPrefix_append, cleanPrefix, List.takeWhile_cons_of_neg (by simp), List.map_nil, List.append_nil,
      readPacket_unfinished hk, dropWhile_clean, List.dropWhile_cons_of_neg (by simp)]

/-! ## One more byte -/

/-- **Byte step.** An error flags the frame it falls into, the last byte of a packet completes it, any other byte is left
over. -/
theorem Framing.snoc {bs : List RxByte} {fs : List Frame} {l : List Byte} (h : Framing bs fs l) (b : Byte) :
    Framing (bs ++ [⟨b, true⟩]) (fs ++ [.flagged]) [] ∧
      (∀ p : Packet, l ++ [b] = p.bytes → Framing (bs ++ [.clean b]) (fs ++ [.packet p]) []) ∧
      (Unfinished (l ++ [b]) → Framing (bs ++ [.clean b]) fs (l ++ [b])) := by
  induction h with
  | @rest l h =>
    refine ⟨?_, fun p hp => ?_, fun hu => ?_⟩
    · exact .flagged h b (.rest unfinished_nil)
    · have : l.map RxByte.clean ++ [.clean b] = p.bytes.map .clean ++ [] := by rw [← hp]; simp
      rw [this]
      exact .packet p (.rest unfinished_nil)
    · have : l.map RxByte.clean ++ [.clean b] = (l ++ [b]).map .clean := by simp
      rw [this]
      exact .rest hu
  | packet q h ih =>
    obtain ⟨herr, hlast, hmore⟩ := ih
    simp only [List.append_assoc, List.cons_append]
    exact ⟨.packet q herr, fun p hp => .packet q (hlast p hp), fun hu => .packet q (hmore hu)⟩
  | flagged hk c h ih =>
    obtain ⟨herr, hlast, hmore⟩ := ih
    simp only [List.append_assoc, List.cons_append]
    exact ⟨.flagged hk c herr, fun p hp => .flagged hk c (hlast p hp), fun hu => .flagged hk c (hmore hu)⟩

theorem Framing.unfinished {bs : List RxByte} {fs : List Frame} {l : List Byte} (h : Framing bs fs l) : Unfinished l := by
  induction h with
  | rest h => exact h
  | packet _ _ ih => exact ih
  | flagged _ _ _ ih => exact ih

/-- a further byte adds at most one frame at the end -/
theorem Framing.parse_snoc {bs : List RxByte} {fs : List Frame} {l : List Byte} (h : Framing bs fs l) (b : RxByte) :
    fs <+: parse (bs ++ [b]) := by
  obtain ⟨x, e⟩ := b
  obtain ⟨herr, hlast, hmore⟩ := h.snoc x
  cases e with
  | true => exact herr.parse_eq ▸ List.prefix_append _ _
  | false =>
    rcases h.unfinished.snoc x with ⟨p, hp⟩ | hu
    · exact (hlast p hp).parse_eq ▸ List.prefix_append _ _
    · exact (hmore hu).parse_eq ▸ List.prefix_refl _

/-- encoded packets in a row are parsed as these packets -/
theorem parse_packets (ps : List Packet) : parse ((ps.flatMap Packet.bytes).map .clean) = ps.map .packet := by
  have h : Framing ((ps.flatMap Packet.bytes).map .clean) (ps.map .packet) [] := by
    induction ps with
    | nil => exact .rest unfinished_nil
    | cons p ps ih =>
      rw [List.flatMap_cons, List.map_append]
      exact .packet p ih
  exact h.parse_eq

/-! ## The parser -/

namespace PacketParser

variable {P : St} {l : List Byte} {f : Frame} {i : In}

/-- the registers are those of a parser that has read the unfinished bytes `l`, whatever came before -/
structure Listening (P : St) (l : List Byte) : Prop where
  unfinished : Unfinished l
  receiving : ∀ p : Packet, l <+: p.bytes → Receiving P p l.length

theorem Listening.reset (P : St) : Listening (PacketParser.reset P) [] := ⟨unfinished_nil, fun _ _ => .cmd rfl⟩

theorem Listening.resValid (h : Listening P l) : resValid P = false := by
  obtain ⟨p, hp, _⟩ := h.unfinished
  exact (h.receiving p hp).resValid

theorem Listening.stay (h : Listening P l) (hv : i.inputValid = false) : Listening (next P i) l :=
  ⟨h.unfinished, fun p hp => (h.receiving p hp).stay hv⟩

/-- **The parser on one clean byte.** -/
theorem Listening.byte (h : Listening P l) (hv : i.inputValid = true) (he : i.inputError = false) :
    (∃ p : Packet, l ++ [i.inputByte] = p.bytes ∧ Holds (next P i) p) ∨ Listening (next P i) (l ++ [i.inputByte]) := by
  have hstep : ∀ p : Packet, l ++ [i.inputByte] <+: p.bytes →
      if l.length + 1 = p.bytes.length then Holds (next P i) p else Receiving (next P i) p (l.length + 1) := by
    intro p hp
    refine (h.receiving p ((List.prefix_append _ _).trans hp)).next hv he ?_
    obtain ⟨t, ht⟩ := hp
    rw [← ht]
    simp
  rcases h.unfinished.snoc i.inputByte with ⟨p, hp⟩ | hu
  · refine .inl ⟨p, hp, ?_⟩
    have hlen : l.length + 1 = p.bytes.length := by rw [← hp]; simp
    have := hstep p (hp ▸ List.prefix_refl _)
    rwa [if_pos hlen] at this
  · refine .inr ⟨hu, fun p hp => ?_⟩
    have hne : l.length + 1 ≠ p.bytes.length := by
      intro hlen
      exact hu.ne_bytes p (hp.eq_of_length (by rw [← hlen]; simp))
    have := hstep p hp
    rw [if_neg hne] at this
    simpa using this

/-- a byte with an error ends the frame at once -/
theorem Listening.error (h : Listening P l) (hv : i.inputValid = true) (he : i.inputError = true) :
    (next P i).curState = .waitReady ∧ (next P i).resError = true := by
  have hne : P.curState ≠ .waitReady := by
    have := h.resValid
    simpa [PacketParser.resValid] using this
  simp [next, nextState, hv, he, hne]

/-- what the parser shows while the frame `f` is pending -/
inductive Shows (P : St) : Frame → Prop
  | packet {p : Packet} (h : Holds P p) : Shows P (.packet p)
  | flagged (hs : P.curState = .waitReady) (he : P.resError = true) : Shows P .flagged

theorem Shows.resValid (h : Shows P f) : resValid P = true := by
  cases h with
  | packet h => simp [PacketParser.resValid, h.ready]
  | flagged hs => simp [PacketParser.resValid, hs]

theorem Shows.stay (h : Shows P f) (hr : i.resReady = false) : Shows (next P i) f := by
  cases h with
  | packet h => exact .packet (h.stay hr)
  | flagged hs he => exact .flagged (by simp [next, nextState, hs, hr]) (by simp [next, hs, hr, he])

theorem Shows.taken (h : Shows P f) (hr : i.resReady = true) : Listening (next P i) [] := by
  have hs : P.curState = .waitReady := by simpa [PacketParser.resValid] using h.resValid
  exact ⟨unfinished_nil, fun _ _ => .cmd (by simp [next, nextState, hs, hr])⟩

/-- reading the payload buffer of a packet held, in any cycle -/
theorem Holds.read {p : Packet} (h : Holds P p) {a : Byte} (ha : i.resDataAddr = some a)
    (hlt : a.toNat < p.payload.length) : (next P i).resData = p.byte a.toNat := by
  have hbuf := h.buf a.toNat hlt
  rw [BitVec.ofNat_toNat, BitVec.setWidth_eq] at hbuf
  simp [next, ha, hbuf]

end PacketParser

/-! ## Sessions -/

/-- the parser with the bytes that arrived while no frame was pending and the number of frames taken -/
structure ParserSession where
  parser : PacketParser.St
  received : List RxByte
  taken : ℕ

namespace ParserSession

open PacketParser (Listening Shows resValid)

def step (s : ParserSession) (i : PacketParser.In) : ParserSession where
  parser := PacketParser.next s.parser i
  received := if i.inputValid && !resValid s.parser then s.received ++ [⟨i.inputByte, i.inputError⟩] else s.received
  taken := if resValid s.parser && i.resReady then s.taken + 1 else s.taken

/-- out of reset, from any register contents -/
def start (P : PacketParser.St) : ParserSession := ⟨PacketParser.reset P, [], 0⟩

def after (P : PacketParser.St) (inp : ℕ → PacketParser.In) (n : ℕ) : ParserSession := run step inp (start P) n

/-- between frames and inside one, or with a frame pending -/
inductive Inv (s : ParserSession) : Prop
  | listening {fs : List Frame} {l : List Byte} (hp : Listening s.parser l) (hf : Framing s.received fs l)
      (hn : s.taken = fs.length)
  | pending {fs : List Frame} {f : Frame} (hp : Shows s.parser f) (hf : Framing s.received (fs ++ [f]) [])
      (hn : s.taken = fs.length)

theorem Inv.step {s : ParserSession} (h : Inv s) (i : PacketParser.In) : Inv (s.step i) := by
  cases h with
  | @listening fs l hp hf hn =>
    have hres := hp.resValid
    have htaken : (s.step i).taken = fs.length := by simp [ParserSession.step, hres, hn]
    cases hv : i.inputValid with
    | false =>
      have hrec : (s.step i).received = s.received := by simp [ParserSession.step, hv]
      exact .listening (hp.stay hv) (hrec ▸ hf) htaken
    | true =>
      have hrec : (s.step i).received = s.received ++ [⟨i.inputByte, i.inputError⟩] := by
        simp [ParserSession.step, hv, hres]
      obtain ⟨herr, hlast, hmore⟩ := hf.snoc i.inputByte
      cases he : i.inputError with
      | true =>
        obtain ⟨hs, hflag⟩ := hp.error hv he
        exact .pending (.flagged hs hflag) (by rw [hrec, he]; exact herr) htaken
      | false =>
        rcases hp.byte hv he with ⟨p, hbytes, hholds⟩ | hnext
        · exact .pending (.packet hholds) (by rw [hrec, he]; exact hlast p hbytes) htaken
        · exact .listening hnext (by rw [hrec, he]; exact hmore hnext.unfinished) htaken
  | @pending fs f hp hf hn =>
    have hres := hp.resValid
    have hrec : (s.step i).received = s.received := by simp [ParserSession.step, hres]
    cases hr : i.resReady with
    | true => exact .listening (hp.taken hr) (hrec ▸ hf) (by simp [ParserSession.step, hres, hr, hn])
    | false => exact .pending (hp.stay hr) (hrec ▸ hf) (by simp [ParserSession.step, hr, hn])

variable (P : PacketParser.St) (inp : ℕ → PacketParser.In)

theorem run_inv (n : ℕ) : Inv (after P inp n) :=
  Clocked.run_inv Inv (fun _ _ => True) (.listening (Listening.reset P) (.rest unfinished_nil) rfl)
    (fun _ i h _ => h.step i) (fun _ => trivial) n

/-! ### The contract -/

/-- what the outputs are while `f` is pending; a read of the payload answers one cycle later -/
def Presents (P : PacketParser.St) : Frame → Prop
  | .flagged => P.resError = true
  | .packet p => P.resError = false ∧ P.resCmd = p.cmd ∧ P.resId = p.id ∧ P.resLen = p.len ∧
      ∀ (i : PacketParser.In) (a : Byte), i.resDataAddr = some a → a.toNat < p.payload.length →
        (PacketParser.next P i).resData = p.byte a.toNat

theorem presents_of_shows {P : PacketParser.St} {f : Frame} (h : Shows P f) : Presents P f := by
  cases h with
  | packet h => exact ⟨h.error, h.cmd, h.id, h.len, fun _ _ ha hlt => h.read ha hlt⟩
  | flagged _ he => exact he

/-- the frames presented up to any cycle are the reference parse of the bytes received: those taken and, while one is
pending, that one; it is presented with its own data -/
structure Framed : Prop where
  count : ∀ n, (parse (after P inp n).received).length = (after P inp n).taken + (resValid (after P inp n).parser).toNat
  shown : ∀ n, resValid (after P inp n).parser = true →
    ∃ f, (parse (after P inp n).received)[(after P inp n).taken]? = some f ∧ Presents (after P inp n).parser f
  grows : ∀ n m, n ≤ m → parse (after P inp n).received <+: parse (after P inp m).received

theorem Inv.parse_mono {s : ParserSession} (h : Inv s) (i : PacketParser.In) :
    parse s.received <+: parse (s.step i).received := by
  have hframes : ∃ fs l, Framing s.received fs l := by
    cases h with
    | listening _ hf _ => exact ⟨_, _, hf⟩
    | pending _ hf _ => exact ⟨_, _, hf⟩
  obtain ⟨fs, l, hf⟩ := hframes
  show _ <+: parse (if _ then _ else _)
  split_ifs
  · exact hf.parse_eq ▸ hf.parse_snoc _
  · exact List.prefix_refl _

theorem framed : Framed P inp := by
  constructor
  · intro n
    cases run_inv P inp n with
    | listening hp hf hn => rw [hf.parse_eq, hp.resValid, hn]; rfl
    | pending hp hf hn => rw [hf.parse_eq, hp.resValid, hn, List.length_append]; rfl
  · intro n hv
    cases run_inv P inp n with
    | listening hp hf hn => rw [hp.resValid] at hv; cases hv
    | @pending fs f hp hf hn => exact ⟨f, by rw [hf.parse_eq, hn, List.getElem?_concat_length], presents_of_shows hp⟩
  · intro n m hnm
    induction hnm with
    | refl => exact List.prefix_refl _
    | step _ ih => exact ih.trans ((run_inv P inp _).parse_mono _)

/-- **Framing.** Under every schedule of bytes, errors, gaps and `res_ready` the packets presented are those of the
reference parse. In particular what `_send_packet` wrote, for any number of packets, is presented as these packets. -/
theorem parser_framing : Framed P inp ∧
    (∀ (d : UARTDebugger) (p : Packet),
      d.sendPacket p.cmd.toNat p.payload (some p.id.toNat) = .ok (d, p.bytes, p.id.toNat)) ∧
    ∀ (ps : List Packet) (n : ℕ), (after P inp n).received = (ps.flatMap Packet.bytes).map .clean →
      ps.length = (after P inp n).taken + (resValid (after P inp n).parser).toNat ∧
      (resValid (after P inp n).parser = true →
        ∃ p, ps[(after P inp n).taken]? = some p ∧ Presents (after P inp n).parser (.packet p)) := by
  refine ⟨framed P inp, fun d p => d.sendPacket_packet p, fun ps n hrec => ?_⟩
  have hparse : parse (after P inp n).received = ps.map .packet := by rw [hrec, parse_packets]
  constructor
  · rw [← (framed P inp).count n, hparse, List.length_map]
  · intro hv
    obtain ⟨f, hf, hpres⟩ := (framed P inp).shown n hv
    rw [hparse, List.getElem?_map] at hf
    obtain ⟨p, hp, rfl⟩ := Option.map_eq_some_iff.1 hf
    exact ⟨p, hp, hpres⟩

end ParserSession

end FpgaLearning.Debug
