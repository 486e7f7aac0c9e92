/-
Words on an asynchronous serial line: a start bit 0, the bits of the word from bit 0 on, then the line rests at 1.

Nothing in this file is about a particular circuit. Time is counted in cycles, an event stream says what happens in which
cycle, and a frame of a stream of words is an event.
- `Sampling.frames`: what a receiver reads that looks for a 0 while it rests, and at fixed distances from it afterwards;
- `Sends`: a line on which somebody sends a stream of frames, with bits as long as he likes;
- `Sends.frames_late`: a receiver that comes late reads that stream late if every sample falls into its bit;
- `Sends.frames_eq`: the receiver reads exactly that stream if it is back in time before every frame;
- `Sampling.fits_tickEdge`: when the samples fit the bits of a sender with a clock of his own.
-/
import Mathlib.Tactic

namespace FpgaLearning.SerialLine

variable {α : Type*} {w n d den len : ℕ} {e : ℕ → Option α}

/-! ## Event streams -/

/-- the events before cycle `n`, in order -/
def logOf (e : ℕ → Option α) (n : ℕ) : List α := (List.range n).filterMap e

@[simp] theorem logOf_zero : logOf e 0 = [] := rfl

theorem logOf_succ : logOf e (n + 1) = logOf e n ++ (e n).toList := by
  rw [logOf, logOf, List.range_succ, List.filterMap_append]
  cases h : e n <;> simp [h]

theorem logOf_mono {m : ℕ} (h : n ≤ m) : logOf e n <+: logOf e m := by
  induction h with
  | refl => exact List.prefix_refl _
  | step _ ih => exact ih.trans (logOf_succ ▸ List.prefix_append _ _)

theorem logOf_eq_of_none {m : ℕ} (h : m ≤ n) (hnone : ∀ k, m ≤ k → k < n → e k = none) : logOf e n = logOf e m := by
  induction h with
  | refl => rfl
  | @step n hmn ih =>
    rw [logOf_succ, hnone n hmn (Nat.lt_succ_self n), Option.toList_none, List.append_nil]
    exact ih fun k hmk hk => hnone k hmk (Nat.lt_succ_of_lt hk)

/-- the event behind the first `k` events -/
theorem event_of_lt_length {k : ℕ} (h : k < (logOf e n).length) : ∃ m < n, (e m).isSome ∧ (logOf e m).length = k := by
  induction n with
  | zero => exact absurd h (Nat.not_lt_zero k)
  | succ n ih =>
    by_cases hk : k < (logOf e n).length
    · obtain ⟨m, hm, hem, hlen⟩ := ih hk
      exact ⟨m, Nat.lt_succ_of_lt hm, hem, hlen⟩
    · rw [logOf_succ, List.length_append] at h
      cases he : e n with
      | none =>
        rw [he, Option.toList_none, List.length_nil] at h
        omega
      | some x =>
        rw [he, Option.toList_some, List.length_singleton] at h
        exact ⟨n, Nat.lt_succ_self n, by rw [he]; rfl, by omega⟩

theorem length_logOf_succ (h : (e n).isSome) : (logOf e (n + 1)).length = (logOf e n).length + 1 := by
  obtain ⟨x, hx⟩ := Option.isSome_iff_exists.1 h
  rw [logOf_succ, hx, Option.toList_some, List.length_append, List.length_singleton]

/-- as long as there are fewer than `c` events there is a next one, and so there are `c` in the end -/
theorem length_ge_of_events {c : ℕ} (h : ∀ m, n ≤ m → (logOf e m).length < c → ∃ k, m ≤ k ∧ (e k).isSome) :
    ∃ m, n ≤ m ∧ c ≤ (logOf e m).length := by
  induction c with
  | zero => exact ⟨n, le_rfl, Nat.zero_le _⟩
  | succ c ih =>
    obtain ⟨m, hnm, hm⟩ := ih fun m hnm hlt => h m hnm (Nat.lt_succ_of_lt hlt)
    by_cases hlt : c < (logOf e m).length
    · exact ⟨m, hnm, hlt⟩
    · obtain ⟨k, hmk, hk⟩ := h m hnm (Nat.lt_succ_of_le (not_lt.1 hlt))
      have hmono := (logOf_mono (e := e) hmk).length_le
      refine ⟨k + 1, Nat.le_succ_of_le (hnm.trans hmk), ?_⟩
      rw [length_logOf_succ hk]
      exact Nat.succ_le_succ (hm.trans hmono)

/-- if fewer words have been sent than those of `ps` and the message after them, the messages sent are among `ps` -/
theorem sent_le {β : Type*} {g : β → List α} {ms ps qs : List β} {p : β} (hps : ps ++ [p] <+: ms) (hqs : qs <+: ms)
    (h : (qs.flatMap g).length < ((ps ++ [p]).flatMap g).length) : qs <+: ps := by
  refine List.prefix_of_prefix_length_le hqs ((List.prefix_append _ _).trans hps) ?_
  by_contra hgt
  have hle : ps ++ [p] <+: qs := List.prefix_of_prefix_length_le hps hqs (by
    rw [List.length_append, List.length_singleton]
    exact not_le.1 hgt)
  exact absurd h (not_lt.2 (hle.flatMap g).length_le)

theorem logOf_map {β : Type*} (g : α → β) : logOf (fun n => (e n).map g) n = (logOf e n).map g := by
  rw [logOf, logOf, List.map_filterMap]

theorem logOf_congr {e' : ℕ → Option α} (h : ∀ k < n, e k = e' k) : logOf e n = logOf e' n := by
  induction n with
  | zero => rfl
  | succ n ih => rw [logOf_succ, logOf_succ, ih fun k hk => h k (Nat.lt_succ_of_lt hk), h n (Nat.lt_succ_self n)]

/-- a stream of events is its logs -/
theorem eq_of_logOf {e' : ℕ → Option α} (h : ∀ n, logOf e n = logOf e' n) : e = e' := by
  funext n
  have hsucc := h (n + 1)
  rw [logOf_succ, logOf_succ, h n, List.append_cancel_left_eq] at hsucc
  cases hn : e n <;> cases hn' : e' n <;> simp_all

/-- every event happens `d` cycles later -/
def delay (d : ℕ) (e : ℕ → Option α) (n : ℕ) : Option α := if d ≤ n then e (n - d) else none

theorem delay_add (x : α) : delay d e (n + d) = some x ↔ e n = some x := by
  rw [delay, if_pos (Nat.le_add_left _ _), Nat.add_sub_cancel]

theorem delay_some {x : α} (h : delay d e n = some x) : ∃ m, n = m + d ∧ e m = some x := by
  simp only [delay, Option.ite_none_right_eq_some] at h
  exact ⟨n - d, by omega, h.2⟩

theorem logOf_delay : logOf (delay d e) n = logOf e (n - d) := by
  induction n with
  | zero => simp
  | succ n ih =>
    rw [logOf_succ, ih]
    by_cases h : d ≤ n
    · rw [delay, if_pos h, show n + 1 - d = n - d + 1 by omega, logOf_succ]
    · rw [delay, if_neg h, show n + 1 - d = n - d by omega, Option.toList_none, List.append_nil]

/-- two events are `len` cycles apart or more -/
def Apart (len : ℕ) (e : ℕ → Option α) : Prop :=
  ∀ s, (e s).isSome → ∀ n, s < n → n < s + len → e n = none

theorem Apart.mono {len' : ℕ} (h : Apart len e) (hlen : len' ≤ len) : Apart len' e :=
  fun s hs n hsn hn => h s hs n hsn (by omega)

theorem Apart.of_isSome {e' : ℕ → Option α} (h : Apart len e) (he : ∀ n, (e' n).isSome → (e n).isSome) : Apart len e' := by
  intro s hs n hsn hn
  have hnone := h s (he s hs) n hsn hn
  by_contra hne
  have hsome := he n (Option.isSome_iff_ne_none.2 hne)
  rw [hnone] at hsome
  cases hsome

theorem Apart.delay (h : Apart len e) : Apart len (delay d e) := by
  intro s hs n hsn hn
  obtain ⟨x, hx⟩ := Option.isSome_iff_exists.1 hs
  obtain ⟨m, rfl, hm⟩ := delay_some hx
  rw [SerialLine.delay, if_pos (by omega)]
  exact h m (by rw [hm]; rfl) (n - d) (by omega) (by omega)

/-! ## Receivers -/

/-- where a receiver looks after a start bit: at bit `j` of the word `offset j` cycles later, and for the next start bit
`busy` cycles later -/
structure Sampling where
  offset : ℕ → ℕ
  busy : ℕ

namespace Sampling

variable (S : Sampling) (line : ℕ → Bool)

/-- the word that is read after a start bit in cycle `s` -/
def word (w s : ℕ) : BitVec w :=
  (BitVec.ofBoolListLE ((List.range w).map fun j => line (s + S.offset j))).setWidth w

/-- the cycle from which the receiver looks for a start bit, as it stands before cycle `n` -/
def ready : ℕ → ℕ
  | 0 => 0
  | n + 1 => if ready n ≤ n ∧ line n = false then n + S.busy else ready n

/-- the words read, each in the cycle its start bit is found -/
def frames (w n : ℕ) : Option (BitVec w) :=
  if S.ready line n ≤ n ∧ line n = false then some (S.word line w n) else none

variable {S line}

@[simp] theorem ready_zero : S.ready line 0 = 0 := rfl

theorem ready_succ :
    S.ready line (n + 1) = if S.ready line n ≤ n ∧ line n = false then n + S.busy else S.ready line n := rfl

theorem getLsbD_word {s j : ℕ} (hj : j < w) : (S.word line w s).getLsbD j = line (s + S.offset j) := by
  rw [word, BitVec.getLsbD_setWidth, BitVec.getLsbD_ofBoolListLE]
  simp [hj]

theorem frames_isSome : (S.frames line w n).isSome ↔ S.ready line n ≤ n ∧ line n = false := by
  rw [frames]
  split <;> simp_all

theorem frames_word {x : BitVec w} (h : S.frames line w n = some x) : x = S.word line w n := by
  rw [frames, Option.ite_none_right_eq_some] at h
  exact (Option.some.inj h.2).symm

/-- after a start bit the receiver is not ready until it has finished -/
theorem ready_of_frame {s : ℕ} (h : (S.frames line w s).isSome) (hs : s < n) (hn : n ≤ s + S.busy) :
    S.ready line n = s + S.busy := by
  induction hs with
  | refl => rw [ready_succ, if_pos (frames_isSome.1 h)]
  | @step m hsm ih =>
    have hsm : s + 1 ≤ m := hsm
    rw [ready_succ, ih (by omega), if_neg (by omega)]

theorem frames_apart : Apart S.busy (S.frames line w) := by
  intro s hs n hsn hn
  have hready := ready_of_frame hs hsn (by omega)
  rw [frames, if_neg (by omega)]

/-- a receiver that is not ready has found a start bit -/
theorem frame_of_not_ready (h : n < S.ready line n) :
    ∃ s, s < n ∧ S.ready line n = s + S.busy ∧ (S.frames line w s).isSome := by
  induction n with
  | zero => simp at h
  | succ n ih =>
    rw [ready_succ] at h ⊢
    split at h
    · next hc =>
      rw [if_pos hc]
      exact ⟨n, Nat.lt_succ_self n, rfl, frames_isSome.2 hc⟩
    · next hc =>
      rw [if_neg hc]
      obtain ⟨s, hs, heq, hf⟩ := ih (by omega)
      exact ⟨s, by omega, heq, hf⟩

end Sampling

/-! ## Senders -/

/-- bit `j` of a frame: the start bit, the bits of the word, and 1 from then on -/
def frameBit (x : BitVec w) : ℕ → Bool
  | 0 => false
  | j + 1 => if j < w then x.getLsbD j else true

/-- the line carries the frames `e`; bit `j` of the frame that starts in cycle `s` lies from cycle `edge s j` on -/
structure Sends (edge : ℕ → ℕ → ℕ) (line : ℕ → Bool) (e : ℕ → Option (BitVec w)) : Prop where
  edge_zero : ∀ s, edge s 0 = s
  bit : ∀ s x, e s = some x → ∀ j ≤ w, ∀ n, edge s j ≤ n → n < edge s (j + 1) → line n = frameBit x j
  rest : ∀ n, (∀ s ≤ n, (e s).isSome → edge s (w + 1) ≤ n) → line n = true

variable {S : Sampling} {edge : ℕ → ℕ → ℕ} {line : ℕ → Bool} {f : ℕ → Option (BitVec w)}

/-! ## Late receivers -/

/-- when a receiver is back that begins every frame of `e` as soon as it can, as it stands before cycle `n` -/
def Sampling.back (S : Sampling) (e : ℕ → Option α) : ℕ → ℕ
  | 0 => 0
  | n + 1 => if (e n).isSome then max n (S.back e n) + S.busy else S.back e n

/-- the cycle in which such a receiver finds the frame that starts in cycle `s` -/
def Sampling.found (S : Sampling) (e : ℕ → Option α) (s : ℕ) : ℕ := max s (S.back e s)

/-- the receiver may come late, but while the start bit lasts, and every sample falls into its bit all the same -/
structure Sampling.Catches (S : Sampling) (edge : ℕ → ℕ → ℕ) (e : ℕ → Option (BitVec w)) : Prop where
  start : ∀ s, (e s).isSome → S.found e s < edge s 1
  sample : ∀ s, (e s).isSome → ∀ j < w, edge s (j + 1) ≤ S.found e s + S.offset j ∧ S.found e s + S.offset j < edge s (j + 2)
  done : ∀ s, (e s).isSome → edge s (w + 1) ≤ S.found e s + S.busy
  order : ∀ s n, (e s).isSome → (e n).isSome → s < n → S.found e s < n

theorem Sampling.back_eq_of_none {m : ℕ} (h : m ≤ n) (hnone : ∀ k, m ≤ k → k < n → e k = none) :
    S.back e n = S.back e m := by
  induction h with
  | refl => rfl
  | @step n hmn ih =>
    rw [Sampling.back, hnone n hmn (Nat.lt_succ_self n), if_neg (by simp)]
    exact ih fun k hmk hk => hnone k hmk (Nat.lt_succ_of_lt hk)

/-- the receiver before cycle `n`: it has begun all frames, or it is not back yet and the last one waits -/
inductive Sampling.Reads (S : Sampling) (edge : ℕ → ℕ → ℕ) (line : ℕ → Bool) (f : ℕ → Option (BitVec w)) (n : ℕ) : Prop
  | all (hready : S.ready line n = S.back f n) (hlog : logOf (S.frames line w) n = logOf f n)
      (hdone : ∀ s < n, (f s).isSome → edge s (w + 1) ≤ S.back f n)
  | behind (s x) (hs : s < n) (hx : f s = some x) (hnone : ∀ k, s < k → k < n → f k = none) (hn : n ≤ S.back f s)
      (hready : S.ready line n = S.back f s) (hlog : logOf (S.frames line w) n ++ [x] = logOf f n)
      (hdone : ∀ k < s, (f k).isSome → edge k (w + 1) ≤ S.back f s)

/-- a start bit that is found gives the word that was sent -/
theorem Sends.frame_found (h : Sends edge line f) (hS : S.Catches edge f) {s : ℕ} {x : BitVec w} (hx : f s = some x)
    (hready : S.ready line (S.found f s) ≤ S.found f s) :
    line (S.found f s) = false ∧ S.frames line w (S.found f s) = some x := by
  have hsome : (f s).isSome := by rw [hx]; rfl
  have hlow : line (S.found f s) = false :=
    h.bit s x hx 0 (Nat.zero_le _) _ ((h.edge_zero s).trans_le (Nat.le_max_left _ _)) (hS.start s hsome)
  refine ⟨hlow, ?_⟩
  rw [Sampling.frames, if_pos ⟨hready, hlow⟩]
  congr 1
  refine BitVec.eq_of_getLsbD_eq fun j hj => ?_
  obtain ⟨hlo, hhi⟩ := hS.sample s hsome j hj
  rw [Sampling.getLsbD_word hj, h.bit s x hx (j + 1) hj _ hlo hhi, frameBit, if_pos hj]

theorem Sends.reads_succ (h : Sends edge line f) (hS : S.Catches edge f) (hn : S.Reads edge line f n) :
    S.Reads edge line f (n + 1) := by
  cases hn with
  | all hready hlog hdone =>
    cases hx : f n with
    | some x =>
      have hsome : (f n).isSome := by rw [hx]; rfl
      rcases Nat.lt_or_ge n (S.back f n) with hlate | hback
      · have hnone : S.frames line w n = none := by rw [Sampling.frames, if_neg (by omega)]
        refine .behind n x (Nat.lt_succ_self n) hx (fun k hk hkn => by omega) hlate ?_ ?_ hdone
        · rw [Sampling.ready_succ, if_neg (by omega), hready]
        · rw [logOf_succ, logOf_succ, hnone, hx, hlog, Option.toList_none, List.append_nil, Option.toList_some]
      · have hfound : S.found f n = n := Nat.max_eq_left hback
        obtain ⟨hlow, hframe⟩ := h.frame_found hS hx (by rw [hfound, hready]; exact hback)
        rw [hfound] at hlow hframe
        have hnext : S.back f (n + 1) = n + S.busy := by rw [Sampling.back, if_pos hsome, Nat.max_eq_left hback]
        refine .all ?_ (by rw [logOf_succ, logOf_succ, hframe, hx, hlog]) fun s hs hfs => ?_
        · rw [Sampling.ready_succ, if_pos ⟨by omega, hlow⟩, hnext]
        · rw [hnext]
          rcases Nat.lt_succ_iff_lt_or_eq.1 hs with hlt | rfl
          · exact (hdone s hlt hfs).trans (by omega)
          · have := hS.done s hfs
            rwa [hfound] at this
    | none =>
      have hnext : S.back f (n + 1) = S.back f n := by rw [Sampling.back, hx, if_neg (by simp)]
      have hhigh : ¬ (S.ready line n ≤ n ∧ line n = false) := by
        rintro ⟨hle, hlow⟩
        rw [h.rest n fun s hs hfs => ?_] at hlow
        · cases hlow
        · rcases hs.lt_or_eq with hlt | rfl
          · exact (hdone s hlt hfs).trans (hready ▸ hle)
          · rw [hx] at hfs
            cases hfs
      refine .all ?_ ?_ fun s hs hfs => ?_
      · rw [Sampling.ready_succ, if_neg hhigh, hready, hnext]
      · rw [logOf_succ, logOf_succ, hx, Sampling.frames, if_neg hhigh, hlog]
      · rw [hnext]
        refine hdone s (Nat.lt_of_le_of_ne (Nat.le_of_lt_succ hs) ?_) hfs
        rintro rfl
        rw [hx] at hfs
        cases hfs
  | behind s x hs hx hnone hn hready hlog hdone =>
    have hsome : (f s).isSome := by rw [hx]; rfl
    have hfound : S.found f s = S.back f s := Nat.max_eq_right (hs.le.trans hn)
    have hfn : f n = none := by
      by_contra hne
      have hnext := hS.order s n hsome (Option.isSome_iff_ne_none.2 hne) hs
      omega
    have hnone' : ∀ k, s < k → k < n + 1 → f k = none := fun k hk hkn => by
      rcases Nat.lt_succ_iff_lt_or_eq.1 hkn with hlt | rfl
      · exact hnone k hk hlt
      · exact hfn
    rcases Nat.lt_or_ge n (S.back f s) with hlate | hback
    · have hframe : S.frames line w n = none := by rw [Sampling.frames, if_neg (by omega)]
      refine .behind s x (Nat.lt_succ_of_lt hs) hx hnone' hlate ?_ ?_ hdone
      · rw [Sampling.ready_succ, if_neg (by omega), hready]
      · rw [logOf_succ, logOf_succ, hframe, hfn, Option.toList_none, List.append_nil, List.append_nil, hlog]
    · obtain rfl : n = S.found f s := by omega
      obtain ⟨hlow, hframe⟩ := h.frame_found hS hx (by omega)
      have hnext : S.back f (S.found f s + 1) = S.found f s + S.busy := by
        rw [Sampling.back_eq_of_none (Nat.succ_le_succ hs.le) hnone', Sampling.back, if_pos hsome, Sampling.found]
      refine .all ?_ ?_ fun k hk hfk => ?_
      · rw [Sampling.ready_succ, if_pos ⟨by omega, hlow⟩, hnext]
      · rw [logOf_succ, logOf_succ, hframe, hfn, Option.toList_some, hlog, Option.toList_none, List.append_nil]
      · rw [hnext]
        rcases Nat.lt_trichotomy k s with hlt | rfl | hgt
        · exact (hdone k hlt hfk).trans (by omega)
        · exact hS.done k hfk
        · rw [hnone' k hgt hk] at hfk
          cases hfk

theorem Sends.reads (h : Sends edge line f) (hS : S.Catches edge f) (n : ℕ) : S.Reads edge line f n := by
  induction n with
  | zero => exact .all rfl rfl fun s hs => absurd hs (Nat.not_lt_zero s)
  | succ n ih => exact h.reads_succ hS ih

/-- **A late receiver.** It reads the frames that are sent, no more and no fewer, each at most `lag` cycles late. -/
theorem Sends.frames_late (h : Sends edge line f) (hS : S.Catches edge f) {lag : ℕ}
    (hlag : ∀ s, (f s).isSome → S.back f s ≤ s + lag) (n : ℕ) :
    logOf (S.frames line w) n <+: logOf f n ∧ logOf f (n - lag) <+: logOf (S.frames line w) n := by
  cases h.reads hS n with
  | all _ hlog => exact ⟨hlog ▸ List.prefix_refl _, hlog ▸ logOf_mono (Nat.sub_le n lag)⟩
  | behind s x hs hx hnone hn _ hlog =>
    have hlast : logOf f n = logOf f s ++ [x] := by
      rw [logOf_eq_of_none (m := s + 1) hs fun k hk hkn => hnone k hk hkn, logOf_succ, hx, Option.toList_some]
    refine ⟨⟨[x], hlog⟩, ?_⟩
    rw [hlast, List.append_cancel_right_eq] at hlog
    rw [hlog]
    have hle := hlag s (by rw [hx]; rfl)
    exact logOf_mono (by omega)

/-- frames that come every `period` cycles or less often put the receiver back by the difference each -/
theorem Sampling.back_le {period : ℕ} (happ : Apart period e) (n : ℕ) :
    ∀ t, n ≤ t → (∀ s < n, (e s).isSome → s + period ≤ t) → S.back e n ≤ t + (logOf e n).length * (S.busy - period) := by
  induction n with
  | zero => exact fun t _ _ => Nat.zero_le _
  | succ n ih =>
    intro t hnt hper
    rw [Sampling.back, logOf_succ]
    cases hx : e n with
    | none =>
      rw [if_neg (by simp), Option.toList_none, List.append_nil]
      exact ih t (by omega) fun s hs hes => hper s (Nat.lt_succ_of_lt hs) hes
    | some x =>
      have hback := ih n le_rfl fun s hs hes => by
        by_contra hlt
        rw [happ s hes n hs (by omega)] at hx
        cases hx
      have hnt' := hper n (Nat.lt_succ_self n) (by rw [hx]; rfl)
      rw [if_pos (Option.isSome_some), Option.toList_some, List.length_append, List.length_singleton, Nat.succ_mul]
      omega

/-! ## Receivers in time -/

/-- every sample falls into its bit, and the receiver is back before the next frame -/
structure Sampling.Fits (S : Sampling) (edge : ℕ → ℕ → ℕ) (e : ℕ → Option (BitVec w)) : Prop where
  start : ∀ s, s < edge s 1
  sample : ∀ s, ∀ j < w, edge s (j + 1) ≤ s + S.offset j ∧ s + S.offset j < edge s (j + 2)
  done : ∀ s, edge s (w + 1) ≤ s + S.busy
  apart : Apart S.busy e

/-- a receiver that is back before the next frame is never late -/
theorem Sampling.back_le_self (happ : Apart S.busy e) (hn : (e n).isSome) : S.back e n ≤ n := by
  have hle : S.back e n ≤ n + (logOf e n).length * (S.busy - S.busy) := Sampling.back_le happ n n le_rfl fun s hs hes => by
    by_contra hlt
    rw [happ s hes n hs (by omega)] at hn
    cases hn
  rwa [Nat.sub_self, Nat.mul_zero, Nat.add_zero] at hle

/-- **A receiver whose samples fit reads the frames that are sent**, no more and no fewer. -/
theorem Sends.frames_eq (h : Sends edge line f) (hS : S.Fits edge f) : S.frames line w = f := by
  have hback : ∀ s, (f s).isSome → S.back f s ≤ s := fun s hs => Sampling.back_le_self hS.apart hs
  have hfound : ∀ s, (f s).isSome → S.found f s = s := fun s hs => Nat.max_eq_left (hback s hs)
  have hcatches : S.Catches edge f := by
    refine ⟨fun s hs => ?_, fun s hs => ?_, fun s hs => ?_, fun s n hs _ hsn => ?_⟩ <;> rw [hfound s hs]
    · exact hS.start s
    · exact hS.sample s
    · exact hS.done s
    · exact hsn
  refine eq_of_logOf fun n => ?_
  obtain ⟨hle, hge⟩ := h.frames_late hcatches (fun s hs => by rw [Nat.add_zero]; exact hback s hs) n
  exact hle.eq_of_length_le hge.length_le

/-! ## Senders with a clock of their own -/

/-- the first cycle of bit `j` when a cycle is `den` ticks long, a bit is `num` ticks long, and the frame that is seen in
cycle `s` began `phase s` ticks before -/
def tickEdge (num den : ℕ) (phase : ℕ → ℕ) (s j : ℕ) : ℕ := (s * den + j * num - phase s + (den - 1)) / den

/-- a frame takes `bits` bits, so the next one begins as many ticks later or more -/
def TicksApart (bits num den : ℕ) (phase : ℕ → ℕ) (e : ℕ → Option α) : Prop :=
  ∀ s n, (e s).isSome → (e n).isSome → s < n → s * den + bits * num + phase n ≤ n * den + phase s

variable {num bits : ℕ} {phase : ℕ → ℕ}

theorem tickEdge_le (hden : 0 < den) {s j n : ℕ} : tickEdge num den phase s j ≤ n ↔ s * den + j * num ≤ n * den + phase s := by
  rw [tickEdge, ← Nat.lt_succ_iff, Nat.div_lt_iff_lt_mul hden, Nat.succ_mul]
  omega

theorem lt_tickEdge (hden : 0 < den) {s j n : ℕ} : n < tickEdge num den phase s j ↔ n * den + phase s < s * den + j * num := by
  rw [← not_le, tickEdge_le hden, not_le]

theorem tickEdge_zero (hphase : ∀ s, phase s < den) (s : ℕ) : tickEdge num den phase s 0 = s := by
  have hden : 0 < den := (Nat.zero_le _).trans_lt (hphase s)
  refine le_antisymm ((tickEdge_le hden).2 (by omega)) (not_lt.1 fun hlt => ?_)
  have hlt := (tickEdge_le hden).1 (Nat.le_sub_one_of_lt hlt)
  have := hphase s
  cases s with
  | zero => omega
  | succ s => rw [Nat.succ_mul, Nat.succ_sub_one] at hlt; omega

theorem apart_of_ticks (hphase : ∀ s, phase s < den) (hlen : len * den ≤ bits * num) (h : TicksApart bits num den phase e) :
    Apart len e := by
  intro s hs n hsn hn
  by_contra hne
  have hapart := h s n hs (Option.isSome_iff_ne_none.2 hne) hsn
  have := hphase s
  obtain ⟨k, rfl⟩ := Nat.exists_eq_add_of_lt hsn
  have hk : (k + 2) * den ≤ len * den := Nat.mul_le_mul_right den (by omega)
  simp only [Nat.add_mul, Nat.one_mul] at hapart hk
  omega

/-- a line on which somebody sends frames of `bits` bits by his own clock -/
structure SendsTicks (num den bits : ℕ) (phase : ℕ → ℕ) (line : ℕ → Bool) (e : ℕ → Option (BitVec w)) : Prop where
  phase_lt : ∀ s, phase s < den
  apart : TicksApart bits num den phase e
  sends : Sends (tickEdge num den phase) line e

/-- **Tolerance.** The samples may drift against the sender's bits by less than half a bit either way over one frame, and
the receiver must be back after the `bits` bits of the frame. -/
theorem Sampling.fits_tickEdge (S : Sampling) (hphase : ∀ s, phase s < den) (hnum : den ≤ num)
    (hlo : ∀ j < w, (j + 1) * num ≤ S.offset j * den) (hhi : ∀ j < w, (S.offset j + 1) * den ≤ (j + 2) * num)
    (hdone : (w + 1) * num ≤ S.busy * den) (hlen : S.busy * den ≤ bits * num)
    (happ : TicksApart bits num den phase f) : S.Fits (tickEdge num den phase) f := by
  have hden : 0 < den := (Nat.zero_le _).trans_lt (hphase 0)
  refine ⟨fun s => ?_, fun s j hj => ⟨?_, ?_⟩, fun s => ?_, apart_of_ticks hphase hlen happ⟩
  · have := hphase s
    rw [lt_tickEdge hden]
    omega
  · have := hlo j hj
    rw [tickEdge_le hden, Nat.add_mul s]
    omega
  · have hj := hhi j hj
    have := hphase s
    rw [Nat.add_mul, Nat.one_mul] at hj
    rw [lt_tickEdge hden, Nat.add_mul s]
    omega
  · rw [tickEdge_le hden, Nat.add_mul s]
    omega

/-- a receiver may also come late by as much as every sample still falls into its bit -/
theorem Sampling.catches_tickEdge (S : Sampling) {lag : ℕ} (hphase : ∀ s, phase s < den)
    (hlag : ∀ s, (f s).isSome → S.back f s ≤ s + lag) (hstart : (lag + 1) * den ≤ num)
    (hlo : ∀ j < w, (j + 1) * num ≤ S.offset j * den) (hhi : ∀ j < w, (lag + S.offset j + 1) * den ≤ (j + 2) * num)
    (hdone : (w + 1) * num ≤ S.busy * den) (hbits : 0 < bits) (happ : TicksApart bits num den phase f) :
    S.Catches (tickEdge num den phase) f := by
  have hden : 0 < den := (Nat.zero_le _).trans_lt (hphase 0)
  -- the frame of cycle `s` is found in cycle `s + k`
  have hfound : ∀ s, (f s).isSome → ∃ k ≤ lag, S.found f s = s + k := fun s hs => by
    have hle := hlag s hs
    exact ⟨S.found f s - s, by rw [Sampling.found]; omega, by rw [Sampling.found]; omega⟩
  refine ⟨fun s hs => ?_, fun s hs j hj => ?_, fun s hs => ?_, fun s n hs hn hsn => ?_⟩ <;>
    obtain ⟨k, hk, heq⟩ := hfound s hs <;> rw [heq] <;> have hkden := Nat.mul_le_mul_right den hk <;> have hphase := hphase s
  · rw [lt_tickEdge hden, Nat.add_mul s]
    rw [Nat.add_mul lag] at hstart
    omega
  · have hlo := hlo j hj
    have hhi := hhi j hj
    rw [Nat.add_assoc, Nat.add_mul lag, Nat.add_mul (S.offset j)] at hhi
    rw [tickEdge_le hden, lt_tickEdge hden, Nat.add_assoc s, Nat.add_mul s, Nat.add_mul k]
    constructor <;> omega
  · rw [tickEdge_le hden, Nat.add_assoc s, Nat.add_mul s, Nat.add_mul k]
    omega
  · have hnext := happ s n hs hn hsn
    have hbit : num ≤ bits * num := Nat.le_mul_of_pos_left num hbits
    rw [Nat.add_mul lag] at hstart
    refine Nat.lt_of_mul_lt_mul_right (a := den) ?_
    rw [Nat.add_mul s]
    omega

/-! ## A single frame -/

/-- the only event, in cycle `s` -/
def once (s : ℕ) (x : α) (n : ℕ) : Option α := if n = s then some x else none

/-- the line of a host who sends one word -/
def oneFrame (num den s : ℕ) (x : BitVec w) (n : ℕ) : Bool := if n < s then true else frameBit x ((n - s) * den / num)

theorem logOf_once (s : ℕ) (x : α) (n : ℕ) : logOf (once s x) n = if s < n then [x] else [] := by
  induction n with
  | zero => rfl
  | succ n ih =>
    rw [logOf_succ, ih, once]
    rcases Nat.lt_trichotomy s n with h | rfl | h
    · rw [if_pos h, if_neg h.ne', if_pos (by omega)]
      rfl
    · simp
    · rw [if_neg (by omega), if_neg h.ne, if_neg (by omega)]
      rfl

theorem isSome_once {s : ℕ} {x : α} (h : (once s x n).isSome) : n = s := by
  rw [once] at h
  split at h
  · assumption
  · cases h

theorem frameBit_of_lt {j : ℕ} (x : BitVec w) (h : w < j) : frameBit x j = true := by
  cases j with
  | zero => omega
  | succ j => rw [frameBit, if_neg (by omega)]

theorem sendsTicks_oneFrame (hden : 0 < den) (hnum : 0 < num) (bits s : ℕ) (x : BitVec w) :
    SendsTicks num den bits (fun _ => 0) (oneFrame num den s x) (once s x) := by
  refine ⟨fun _ => hden, fun m n hm hn hmn => ?_, tickEdge_zero fun _ => hden, fun m y hy j _ n hlo hhi => ?_,
    fun n hrest => ?_⟩
  · have := isSome_once hm
    have := isSome_once hn
    omega
  · obtain rfl : m = s := isSome_once (by rw [hy]; rfl)
    rw [once, if_pos rfl, Option.some.injEq] at hy
    rw [tickEdge_le hden] at hlo
    rw [lt_tickEdge hden] at hhi
    have hle : m ≤ n := Nat.le_of_mul_le_mul_right (by omega : m * den ≤ n * den) hden
    rw [oneFrame, if_neg (by omega), hy, Nat.sub_mul]
    congr 1
    exact Nat.div_eq_of_lt_le (by omega) (by omega)
  · rw [oneFrame]
    split
    · rfl
    · next hs =>
      have hend := hrest s (by omega) (by simp [once])
      rw [tickEdge_le hden] at hend
      have hle : w + 1 ≤ (n - s) * den / num := by
        rw [Nat.le_div_iff_mul_le hnum, Nat.sub_mul]
        omega
      exact frameBit_of_lt _ hle

/-! ## A row of frames -/

/-- the elements of `l`, one every `period` cycles from cycle `start` on -/
def row (start period : ℕ) (l : List α) (n : ℕ) : Option α :=
  if start ≤ n ∧ period ∣ n - start then l[(n - start) / period]? else none

/-- the line of a host who sends words one behind the other, with bits of `num` cycles -/
def rowLine (num start period : ℕ) (l : List (BitVec w)) (n : ℕ) : Bool :=
  if n < start then true else (l[(n - start) / period]?).elim true fun x => frameBit x ((n - start) % period / num)

variable {start period : ℕ} {l : List α}

theorem row_at (hperiod : 0 < period) (k : ℕ) : row start period l (start + period * k) = l[k]? := by
  rw [row, if_pos ⟨Nat.le_add_right _ _, by rw [Nat.add_sub_cancel_left]; exact Nat.dvd_mul_right _ _⟩,
    Nat.add_sub_cancel_left, Nat.mul_div_cancel_left _ hperiod]

theorem row_some {x : α} (hperiod : 0 < period) (h : row start period l n = some x) :
    ∃ k, n = start + period * k ∧ l[k]? = some x := by
  rw [row, Option.ite_none_right_eq_some] at h
  obtain ⟨⟨hle, k, hk⟩, hx⟩ := h
  rw [hk, Nat.mul_div_cancel_left _ hperiod] at hx
  exact ⟨k, by omega, hx⟩

theorem logOf_row (hperiod : 0 < period) (n : ℕ) :
    logOf (row start period l) n = l.take ((n + period - 1 - start) / period) := by
  induction n with
  | zero => rw [Nat.div_eq_of_lt (by omega), List.take_zero, logOf_zero]
  | succ n ih =>
    rw [logOf_succ, ih]
    by_cases hn : start ≤ n
    · rw [show n + 1 + period - 1 - start = (n + period - 1 - start) + 1 by omega, Nat.succ_div,
        show n + period - 1 - start + 1 = n - start + period by omega]
      have hiff : period ∣ n - start + period ↔ period ∣ n - start := Nat.dvd_add_self_right
      by_cases hdvd : period ∣ n - start
      · obtain ⟨k, hk⟩ := hdvd
        obtain rfl : n = start + period * k := by omega
        rw [if_pos (hiff.2 ⟨k, hk⟩), row_at hperiod, show start + period * k + period - 1 - start = period - 1 + period * k by omega,
          Nat.add_mul_div_left _ _ hperiod, Nat.div_eq_of_lt (by omega), Nat.zero_add, List.take_add_one]
      · rw [row, if_neg fun h => hdvd h.2, if_neg fun h => hdvd (hiff.1 h), Option.toList_none, List.append_nil, Nat.add_zero]
    · rw [row, if_neg fun h => hn h.1, Nat.div_eq_of_lt (by omega), Nat.div_eq_of_lt (by omega), List.take_zero]
      rfl

/-- a row goes on until its end -/
theorem row_goes_on (hperiod : 0 < period) (h : (logOf (row start period l) n).length < l.length) :
    ∃ m, n ≤ m ∧ (row start period l m).isSome := by
  rw [logOf_row hperiod, List.length_take] at h
  refine ⟨start + period * ((n + period - 1 - start) / period), ?_, ?_⟩
  · have hdiv := Nat.div_add_mod (n + period - 1 - start) period
    have hmod := Nat.mod_lt (n + period - 1 - start) hperiod
    omega
  · rw [row_at hperiod, List.getElem?_eq_getElem (by omega)]
    rfl

theorem sendsTicks_row (hnum : 0 < num) (hbits : w + 1 ≤ bits) (start : ℕ) (l : List (BitVec w)) :
    SendsTicks num 1 bits (fun _ => 0) (rowLine num start (bits * num) l) (row start (bits * num) l) := by
  have hperiod : 0 < bits * num := Nat.mul_pos (by omega) hnum
  have hframe : (w + 1) * num ≤ bits * num := Nat.mul_le_mul_right num hbits
  refine ⟨fun _ => Nat.one_pos, fun s n hs hn hsn => ?_, tickEdge_zero fun _ => Nat.one_pos, fun s x hx j hj n hlo hhi => ?_,
    fun n hrest => ?_⟩
  · obtain ⟨x, hx⟩ := Option.isSome_iff_exists.1 hs
    obtain ⟨y, hy⟩ := Option.isSome_iff_exists.1 hn
    obtain ⟨k, rfl, -⟩ := row_some hperiod hx
    obtain ⟨k', rfl, -⟩ := row_some hperiod hy
    have hlt : k < k' := Nat.lt_of_mul_lt_mul_left (a := bits * num) (by omega)
    have hle := Nat.mul_le_mul_left (bits * num) (Nat.succ_le_of_lt hlt)
    rw [Nat.mul_succ] at hle
    omega
  · obtain ⟨k, rfl, hk⟩ := row_some hperiod hx
    rw [tickEdge_le Nat.one_pos] at hlo
    rw [lt_tickEdge Nat.one_pos] at hhi
    obtain ⟨r, rfl⟩ := Nat.exists_eq_add_of_le (show start + bits * num * k ≤ n by omega)
    have hr : r < (j + 1) * num := by omega
    have hle : (j + 1) * num ≤ (w + 1) * num := Nat.mul_le_mul_right num (by omega)
    rw [rowLine, if_neg (by omega), show start + bits * num * k + r - start = r + bits * num * k by omega,
      Nat.add_mul_div_left _ _ hperiod, Nat.div_eq_of_lt (by omega), Nat.zero_add, hk, Option.elim_some,
      Nat.add_mul_mod_self_left, Nat.mod_eq_of_lt (by omega)]
    congr 1
    exact Nat.div_eq_of_lt_le (by omega) hr
  · rw [rowLine]
    split
    · rfl
    · next hn =>
      cases hk : l[(n - start) / (bits * num)]? with
      | none => rfl
      | some x =>
        have hdiv := Nat.div_add_mod (n - start) (bits * num)
        have hend := hrest (start + bits * num * ((n - start) / (bits * num))) (by omega) (by rw [row_at hperiod, hk]; rfl)
        rw [tickEdge_le Nat.one_pos] at hend
        have hle : w + 1 ≤ (n - start) % (bits * num) / num := (Nat.le_div_iff_mul_le hnum).2 (by omega)
        exact frameBit_of_lt x hle

end FpgaLearning.SerialLine
