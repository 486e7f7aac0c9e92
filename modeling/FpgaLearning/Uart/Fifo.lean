/-
The queues of the serial port (`uart/synthesis/submodules/altera_up_sync_fifo.v`).

The module only wires up Altera's `scfifo`, so the queue is a parameter: `Scfifo` has its ports and, as fields, what its
manual says of them (show-ahead mode, 128 words, writing when full and reading when empty not checked). A word is shown
some cycles after it was written; how many is up to the queue.

- `Scfifo.log_split`: what was read, and what is in the queue, is what was written, in order;
- `Scfifo.fresh`: a reader that is ready soon enough empties the queue before the next word is written;
- `Scfifo.oneLate`: a queue that shows every word one cycle after it was written.
-/
import FpgaLearning.Core.Clocked
import FpgaLearning.Core.SerialLine

namespace FpgaLearning.Uart

open SerialLine

/-- a queue of words of `w` bits, with `wrreq` and `data` as one argument of `step` -/
structure Scfifo (w : ℕ) where
  State : Type
  /-- after `sclr` -/
  clear : State
  step : Option (BitVec w) → Bool → State → State
  empty : State → Bool
  full : State → Bool
  usedw : State → BitVec 7
  q : State → BitVec w
  contents : State → List (BitVec w)
  contents_clear : contents clear = []
  contents_step : ∀ data rdreq s, (data.isSome → full s = false) → (rdreq = true → empty s = false) →
    contents (step data rdreq s) = (if rdreq then (contents s).tail else contents s) ++ data.toList
  head : ∀ s, empty s = false → (contents s).head? = some (q s)
  words : ∀ s, (contents s).length = (BitVec.cons (full s) (usedw s)).toNat
  length_le : ∀ s, (contents s).length ≤ 128
  /-- the cycles after which a word is shown at the latest -/
  latency : ℕ
  shows : ∀ s (data : ℕ → Option (BitVec w)), contents s ≠ [] →
    (∀ k, (data k).isSome → full (Clocked.run (fun s d => step d false s) data s k) = false) →
      empty (Clocked.run (fun s d => step d false s) data s latency) = false

namespace Scfifo

variable {w : ℕ} (F : Scfifo w)

/-- the ports in one cycle -/
structure Port (w : ℕ) where
  data : Option (BitVec w)
  rdreq : Bool

/-- `wrreq` only while not full, `rdreq` only while not empty -/
def Legal (s : F.State) (i : Port w) : Prop :=
  (i.data.isSome → F.full s = false) ∧ (i.rdreq = true → F.empty s = false)

/-- the word that is read -/
def read (s : F.State) (i : Port w) : Option (BitVec w) := if i.rdreq then some (F.q s) else none

variable {F}

theorem contents_eq_cons {s : F.State} (h : F.empty s = false) : F.contents s = F.q s :: (F.contents s).tail := by
  have hhead := F.head s h
  cases hc : F.contents s with
  | nil => rw [hc] at hhead; cases hhead
  | cons x xs =>
    rw [hc, List.head?_cons, Option.some.injEq] at hhead
    rw [hhead, List.tail_cons]

theorem read_append {s : F.State} {i : Port w} (h : F.Legal s i) :
    (F.read s i).toList ++ F.contents (F.step i.data i.rdreq s) = F.contents s ++ i.data.toList := by
  rw [F.contents_step _ _ _ h.1 h.2, read]
  cases hr : i.rdreq with
  | false => rfl
  | true =>
    rw [if_pos rfl, if_pos rfl]
    conv_rhs => rw [contents_eq_cons (h.2 hr)]
    rfl

/-- **A queue.** Over any run, what was read and what is in the queue is what was written. -/
theorem log_split {st : ℕ → F.State} {port : ℕ → Port w} (hclear : st 0 = F.clear)
    (hstep : ∀ n, st (n + 1) = F.step (port n).data (port n).rdreq (st n)) (hlegal : ∀ n, F.Legal (st n) (port n)) (n : ℕ) :
    logOf (fun n => F.read (st n) (port n)) n ++ F.contents (st n) = logOf (fun n => (port n).data) n := by
  induction n with
  | zero => rw [hclear, F.contents_clear]; rfl
  | succ n ih => rw [logOf_succ, logOf_succ, hstep, List.append_assoc, read_append (hlegal n), ← List.append_assoc, ih]

theorem full_iff {s : F.State} : F.full s = true ↔ (F.contents s).length = 128 := by
  have hwords := F.words s
  have hle := F.length_le s
  have hused := (F.usedw s).isLt
  rw [BitVec.toNat_cons'] at hwords
  cases hf : F.full s <;> simp [hf] at hwords ⊢ <;> omega

/-- what is in a queue that is emptied in time: nothing, or the last word written, not long ago -/
def Fresh (F : Scfifo w) (st : ℕ → F.State) (port : ℕ → Port w) (n : ℕ) : Prop :=
  F.contents (st n) = [] ∨ ∃ t x, t < n ∧ n ≤ t + F.latency + 1 ∧ (port t).data = some x ∧ F.contents (st n) = [x] ∧
    ∀ m, t < m → m < n → (port m).rdreq = false

variable {st : ℕ → F.State} {port : ℕ → Port w}

/-- a word that nobody reads is shown in time -/
theorem shown_in_time (hstep : ∀ n, st (n + 1) = F.step (port n).data (port n).rdreq (st n))
    (hlegal : ∀ n, F.Legal (st n) (port n)) {t : ℕ} (hne : F.contents (st t) ≠ [])
    (hquiet : ∀ m, t ≤ m → m < t + F.latency → (port m).rdreq = false) : F.empty (st (t + F.latency)) = false := by
  have hrun : ∀ k ≤ F.latency, st (t + k) =
      Clocked.run (fun s d => F.step d false s) (fun k => if k < F.latency then (port (t + k)).data else none) (st t) k := by
    intro k hk
    induction k with
    | zero => rfl
    | succ k ih =>
      rw [Clocked.run_succ, ← ih (by omega), if_pos (Nat.lt_of_succ_le hk), ← Nat.add_assoc, hstep, hquiet (t + k) (by omega) (by omega)]
  rw [hrun _ le_rfl]
  refine F.shows _ _ hne fun k hsome => ?_
  by_cases hk : k < F.latency
  · rw [if_pos hk] at hsome
    rw [← hrun k hk.le]
    exact (hlegal (t + k)).1 hsome
  · rw [if_neg hk] at hsome
    cases hsome

/-- every read before cycle `n` came soon after a write -/
def Prompt (F : Scfifo w) (port : ℕ → Port w) (n : ℕ) : Prop :=
  ∀ m < n, (port m).rdreq = true → ∃ t < m, m ≤ t + F.latency + 1 ∧ (port t).data.isSome

theorem Prompt.succ {n : ℕ} (h : F.Prompt port n)
    (hn : (port n).rdreq = true → ∃ t < n, n ≤ t + F.latency + 1 ∧ (port t).data.isSome) : F.Prompt port (n + 1) := by
  intro m hm hr
  rcases Nat.lt_succ_iff_lt_or_eq.1 hm with hlt | rfl
  · exact h m hlt hr
  · exact hn hr

/-- the word written in cycle `t` is shown now, and the reader has not read for a while -/
theorem Prompt.quiet {pause t n : ℕ} {x : BitVec w} (h : F.Prompt port n) (ht : t < n) (hx : (port t).data = some x)
    (hapart : Apart (pause + F.latency + 2) fun n => (port n).data) (hn : n ≤ t + F.latency + 1)
    (hquiet : ∀ m, t < m → m < n → (port m).rdreq = false) : ∀ m < n, n < m + pause → (port m).rdreq = false := by
  intro m hm hpause
  cases hrm : (port m).rdreq with
  | false => rfl
  | true =>
    obtain ⟨t', htm, hmt, hsome⟩ := h m hm hrm
    rcases Nat.lt_trichotomy t' t with hlt | rfl | hgt
    · have hnone : (port t).data = none := hapart t' hsome t hlt (by omega)
      rw [hx] at hnone
      cases hnone
    · exact hrm.symm.trans (hquiet m htm hm)
    · have hnone : (port t').data = none := hapart t (by simp [hx]) t' hgt (by omega)
      rw [hnone] at hsome
      cases hsome

variable {pause : ℕ} (hstep : ∀ n, st (n + 1) = F.step (port n).data (port n).rdreq (st n))
  (hlegal : ∀ n, F.Legal (st n) (port n)) (hapart : Apart (pause + F.latency + 2) fun n => (port n).data) {N : ℕ}
  (hready : ∀ n < N, F.empty (st n) = false → (∀ m < n, n < m + pause → (port m).rdreq = false) → (port n).rdreq = true)

include hstep hlegal

theorem contents_succ (n : ℕ) : F.contents (st (n + 1)) =
    (if (port n).rdreq then (F.contents (st n)).tail else F.contents (st n)) ++ (port n).data.toList := by
  rw [hstep]
  exact F.contents_step _ _ _ (hlegal n).1 (hlegal n).2

theorem fresh_of_empty {n : ℕ} (h : F.contents (st n) = []) : (port n).rdreq = false ∧ F.Fresh st port (n + 1) := by
  have hrd : (port n).rdreq = false := by
    cases hr : (port n).rdreq with
    | false => rfl
    | true =>
      have hcons := contents_eq_cons ((hlegal n).2 hr)
      rw [h] at hcons
      cases hcons
  have hnext := contents_succ hstep hlegal n
  rw [hrd, h, if_neg Bool.false_ne_true, List.nil_append] at hnext
  refine ⟨hrd, ?_⟩
  cases hd : (port n).data with
  | none => exact .inl (by rw [hnext, hd]; rfl)
  | some x => exact .inr ⟨n, x, Nat.lt_succ_self n, by omega, hd, by rw [hnext, hd]; rfl, fun m hm hmn => by omega⟩

include hapart hready

/-- **A reader in time.** If until cycle `N` the reader takes a word that is shown unless it has taken one less than `pause`
cycles ago, and words are written far enough apart, then until then every word is read before the next one is written. -/
theorem fresh (hclear : st 0 = F.clear) {n : ℕ} (hn : n ≤ N) : F.Prompt port n ∧ F.Fresh st port n := by
  -- induction on the cycle; the reads so far came soon after their writes
  induction n with
  | zero => exact ⟨fun m hm => absurd hm (Nat.not_lt_zero m), .inl (hclear ▸ F.contents_clear)⟩
  | succ n ih =>
    obtain ⟨hreads, hempty | ⟨t, x, htn, hnt, hx, hcont, hquiet⟩⟩ := ih (Nat.le_of_succ_le hn)
    · obtain ⟨hrd, hfresh⟩ := fresh_of_empty hstep hlegal hempty
      exact ⟨hreads.succ fun hr => absurd (hrd.symm.trans hr) Bool.false_ne_true, hfresh⟩
    · have hdata : (port n).data = none := hapart t (by simp [hx]) n htn (by omega)
      have hnext := contents_succ hstep hlegal n
      rw [hdata, hcont, Option.toList_none, List.append_nil] at hnext
      refine ⟨hreads.succ fun _ => ⟨t, htn, hnt, by rw [hx]; rfl⟩, ?_⟩
      cases hr : (port n).rdreq with
      | true => exact .inl (by rw [hnext, hr]; rfl)
      | false =>
        have hlate : n ≤ t + F.latency := by
          by_contra hgt
          obtain rfl : n = t + 1 + F.latency := by omega
          have hne : F.contents (st (t + 1)) ≠ [] := by
            rw [contents_succ hstep hlegal t, hx]
            simp
          have hshown := shown_in_time hstep hlegal hne fun m hm hmn => hquiet m hm hmn
          have hread := hready _ hn hshown (hreads.quiet htn hx hapart hnt hquiet)
          rw [hread] at hr
          cases hr
        refine .inr ⟨t, x, by omega, by omega, hx, by rw [hnext, hr]; rfl, fun m hm hmn => ?_⟩
        rcases Nat.lt_succ_iff_lt_or_eq.1 hmn with hlt | rfl
        · exact hquiet m hm hlt
        · exact hr

omit hstep hlegal hapart hready

theorem Fresh.not_full {n : ℕ} (h : F.Fresh st port n) : F.full (st n) = false := by
  rw [Bool.eq_false_iff, Ne, full_iff]
  rcases h with h | ⟨_, _, _, _, _, h, _⟩ <;> rw [h] <;> simp

/-- what was written a while ago has been read -/
theorem Fresh.log_le {n : ℕ} (h : F.Fresh st port n)
    (hlog : logOf (fun n => F.read (st n) (port n)) n ++ F.contents (st n) = logOf (fun n => (port n).data) n)
    (hapart : Apart (F.latency + 1) fun n => (port n).data) :
    logOf (fun n => (port n).data) (n - (F.latency + 1)) <+: logOf (fun n => F.read (st n) (port n)) n := by
  rcases h with h | ⟨t, x, htn, hnt, hx, hcont, -⟩
  · rw [h, List.append_nil] at hlog
    rw [hlog]
    exact logOf_mono (Nat.sub_le _ _)
  · have hlast : logOf (fun n => (port n).data) n = logOf (fun n => (port n).data) t ++ [x] := by
      rw [logOf_eq_of_none (m := t + 1) htn fun k htk hk => hapart t (by simp [hx]) k htk (by omega), logOf_succ, hx]
      rfl
    rw [hcont, hlast, List.append_cancel_right_eq] at hlog
    rw [hlog]
    exact logOf_mono (by omega)

/-- a reader that takes a word which is shown, at the latest after it has taken none for `pause` cycles, takes another one -/
theorem reads_again (hstep : ∀ n, st (n + 1) = F.step (port n).data (port n).rdreq (st n))
    (hlegal : ∀ n, F.Legal (st n) (port n))
    (hready : ∀ n, F.empty (st n) = false → (∀ m < n, n < m + pause → (port m).rdreq = false) → (port n).rdreq = true)
    {n : ℕ} (hne : F.contents (st n) ≠ []) : ∃ m, n ≤ m ∧ (port m).rdreq = true := by
  by_contra hno
  push Not at hno
  have hquiet : ∀ m, n ≤ m → (port m).rdreq = false := fun m hm => Bool.eq_false_iff.2 (hno m hm)
  have hcont : ∀ m, n ≤ m → F.contents (st m) ≠ [] := by
    intro m hm
    induction hm with
    | refl => exact hne
    | @step m hm ih =>
      rw [contents_succ hstep hlegal, hquiet m hm, if_neg Bool.false_ne_true]
      exact List.append_ne_nil_of_left_ne_nil ih _
  have hshown := shown_in_time hstep hlegal (hcont (n + pause) (Nat.le_add_right _ _)) fun m hm _ => hquiet m (by omega)
  exact hno _ (by omega) (hready _ hshown fun m _ hm => hquiet m (by omega))

end Scfifo

/-! ## A queue -/

/-- the words, and how many of them are shown -/
structure Shown (w : ℕ) where
  words : List (BitVec w)
  shown : ℕ
  shown_le : shown ≤ words.length
  length_le : words.length ≤ 128

namespace Shown

variable {w : ℕ}

def nil : Shown w := ⟨[], 0, le_rfl, Nat.zero_le _⟩

/-- what is written to a full queue is lost -/
def push (data : Option (BitVec w)) (ws : List (BitVec w)) (full : Bool) : List (BitVec w) :=
  ws ++ if full then [] else data.toList

theorem length_push_le (data : Option (BitVec w)) (rdreq : Bool) (s : Shown w) :
    (push data (if rdreq then s.words.tail else s.words) (s.words.length == 128)).length ≤ 128 := by
  have hle := s.length_le
  have htail : (if rdreq then s.words.tail else s.words).length ≤ s.words.length := by
    cases rdreq with
    | false => exact le_rfl
    | true => exact List.length_tail ▸ Nat.sub_le _ _
  rw [push, List.length_append]
  cases hf : s.words.length == 128 with
  | true => simpa using htail.trans hle
  | false =>
    rw [beq_eq_false_iff_ne] at hf
    have hdata : data.toList.length ≤ 1 := by cases data <;> simp
    rw [if_neg Bool.false_ne_true]
    omega

/-- the words there before are shown afterwards -/
def step (data : Option (BitVec w)) (rdreq : Bool) (s : Shown w) : Shown w where
  words := push data (if rdreq then s.words.tail else s.words) (s.words.length == 128)
  shown := (if rdreq then s.words.tail else s.words).length
  shown_le := List.length_append ▸ Nat.le_add_right _ _
  length_le := length_push_le data rdreq s

theorem words_ne_nil {s : Shown w} (h : (s.shown == 0) = false) : s.words ≠ [] := by
  rintro hnil
  have := s.shown_le
  rw [hnil, List.length_nil, Nat.le_zero] at this
  simp [this] at h

theorem length_eq (s : Shown w) :
    s.words.length = (BitVec.cons (s.words.length == 128) (BitVec.ofNat 7 s.words.length)).toNat := by
  have := s.length_le
  rw [BitVec.toNat_cons']
  cases h : s.words.length == 128 <;> simp at h ⊢ <;> omega

end Shown

/-- a queue that shows every word one cycle after it was written -/
def Scfifo.oneLate (w : ℕ) : Scfifo w where
  State := Shown w
  clear := .nil
  step := Shown.step
  empty s := s.shown == 0
  full s := s.words.length == 128
  usedw s := .ofNat 7 s.words.length
  q s := s.words.headD 0
  contents := Shown.words
  contents_clear := rfl
  contents_step data rdreq s hdata _ := by
    cases data with
    | none => simp [Shown.step, Shown.push]
    | some x => simp [Shown.step, Shown.push, hdata rfl]
  head s h := by
    cases hw : s.words with
    | nil => exact absurd hw (Shown.words_ne_nil h)
    | cons x xs => rfl
  words := Shown.length_eq
  length_le := Shown.length_le
  latency := 1
  shows s data h _ := by
    have := List.length_pos_iff.2 h
    simp only [Clocked.run, Shown.step, Bool.false_eq_true, if_false, beq_eq_false_iff_ne]
    omega

end FpgaLearning.Uart
