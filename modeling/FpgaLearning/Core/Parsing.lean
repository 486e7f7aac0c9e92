/-
Recursive-descent parsers that look one token ahead.

A parser takes a list of tokens to a value and the tokens behind it. `Exact p yield fits n` says what `p` is on inputs of at
most `n` tokens: it returns `a` with the rest exactly when the input is `yield a` followed by the rest and the two fit.
Exact parsers are deterministic, complete and consume what the value prints as, so nothing else has to be said about them.

- `Exact.chain`: a left-associative level of binary operators over the next tighter level.
- `Exact.many`: a repetition that goes on as long as the next token may start an element.
- `longest_iff`: the longest match among the rules of a scanner, the first rule first.
-/
import Mathlib.Tactic

namespace FpgaLearning.Parsing

variable {τ α β : Type*}

/-- the value read and the tokens behind it -/
abbrev Parser (τ α : Type*) := List τ → Option (α × List τ)

def Exact (p : Parser τ α) (yield : α → List τ) (fits : α → List τ → Prop) (n : ℕ) : Prop :=
  ∀ toks : List τ, toks.length ≤ n → ∀ a rest, p toks = some (a, rest) ↔ toks = yield a ++ rest ∧ fits a rest

/-- the next token is none of `S` -/
def Clear (S : τ → Prop) (rest : List τ) : Prop := ∀ t ∈ rest.head?, ¬ S t

@[simp] theorem clear_nil (S : τ → Prop) : Clear S [] := by
  intro t h
  cases h

@[simp] theorem clear_cons {S : τ → Prop} {t : τ} {ts : List τ} : Clear S (t :: ts) ↔ ¬ S t := by
  constructor
  · intro h
    exact h t rfl
  · intro h t' ht
    cases ht
    exact h

theorem Clear.mono {S T : τ → Prop} {rest : List τ} (h : Clear T rest) (hS : ∀ t, S t → T t) : Clear S rest :=
  fun t ht hs => h t ht (hS t hs)

/-! ## One token -/

def expect [DecidableEq τ] (t : τ) : List τ → Option (List τ)
  | [] => none
  | t' :: ts => if t' = t then some ts else none

theorem expect_iff [DecidableEq τ] {t : τ} {toks ts : List τ} : expect t toks = some ts ↔ toks = t :: ts := by
  cases toks with
  | nil => simp [expect]
  | cons t' toks =>
    rw [expect]
    split_ifs with h
    · simp [h]
    · simp [h]

/-! ## Left-associative operators -/

/-- a level of binary operators: an operand alone, and what an operator token makes of two operands -/
structure Level (τ α β : Type*) where
  leaf : β → α
  op : τ → Option (α → β → α)

/-- operators and operands as long as they come; the first argument bounds their number -/
def chainRest (L : Level τ α β) (sub : Parser τ β) : ℕ → α → Parser τ α
  | _, a, [] => some (a, [])
  | 0, _, _ :: _ => none
  | n + 1, a, t :: ts =>
    match L.op t with
    | none => some (a, t :: ts)
    | some f => (sub ts).bind fun r => chainRest L sub n (f a r.1) r.2

def chain (L : Level τ α β) (sub : Parser τ β) (n : ℕ) : Parser τ α :=
  fun toks => (sub toks).bind fun r => chainRest L sub n (L.leaf r.1) r.2

/-- the trees of a level print as operands with operators between them -/
structure Level.Prints [SizeOf α] (L : Level τ α β) (ya : α → List τ) (yb : β → List τ) : Prop where
  leaf : ∀ b, ya (L.leaf b) = yb b
  node : ∀ t f, L.op t = some f → ∀ a b, ya (f a b) = ya a ++ t :: yb b
  shape : ∀ a, (∃ b, a = L.leaf b) ∨ ∃ t f l r, L.op t = some f ∧ a = f l r ∧ sizeOf l < sizeOf a

/-- induction along the left operands -/
theorem Level.Prints.induct [SizeOf α] {L : Level τ α β} {ya : α → List τ} {yb : β → List τ} (hL : L.Prints ya yb)
    {P : α → Prop} (leaf : ∀ b, P (L.leaf b)) (node : ∀ t f a b, L.op t = some f → P a → P (f a b)) (a : α) : P a := by
  induction hn : sizeOf a using Nat.strong_induction_on generalizing a with
  | _ n ih =>
    rcases hL.shape a with ⟨b, rfl⟩ | ⟨t, f, l, r, hop, rfl, hlt⟩
    · exact leaf b
    · exact node t f l r hop (ih _ (hn ▸ hlt) l rfl)

section
variable {L : Level τ α β} {ya : α → List τ} {yb : β → List τ} {sub : Parser τ β} {S : τ → Prop} {N : ℕ}

/-- the operators of the level -/
def Level.Op (L : Level τ α β) (t : τ) : Prop := L.op t ≠ none

theorem chainRest_of_clear {rest : List τ} (h : Clear L.Op rest) {n : ℕ} (hn : rest.length ≤ n) (a : α) :
    chainRest L sub n a rest = some (a, rest) := by
  cases rest with
  | nil => cases n <;> rfl
  | cons t ts =>
    obtain ⟨m, rfl⟩ : ∃ m, n = m + 1 := ⟨n - 1, by rw [List.length_cons] at hn; omega⟩
    have hop : L.op t = none := by simpa [Level.Op] using h
    simp [chainRest, hop]

variable [SizeOf α]

theorem chainRest_sound (hL : L.Prints ya yb) (hsub : Exact sub yb (fun _ => Clear S) N) (n : ℕ) :
    ∀ (a : α) (toks : List τ), toks.length ≤ N → Clear S toks → ∀ a' rest, chainRest L sub n a toks = some (a', rest) →
      ya a ++ toks = ya a' ++ rest ∧ Clear S rest ∧ Clear L.Op rest := by
  induction n with
  | zero =>
    intro a toks _ hS a' rest h
    cases toks with
    | nil =>
      cases h
      exact ⟨rfl, hS, clear_nil _⟩
    | cons t ts => cases h
  | succ n ih =>
    intro a toks hlen hS a' rest h
    cases toks with
    | nil =>
      cases h
      exact ⟨rfl, hS, clear_nil _⟩
    | cons t ts =>
      rw [chainRest] at h
      cases hop : L.op t with
      | none =>
        rw [hop] at h
        cases h
        exact ⟨rfl, hS, by simp [Level.Op, hop]⟩
      | some f =>
        rw [hop] at h
        obtain ⟨⟨b, ts'⟩, hb, hrest⟩ := Option.bind_eq_some_iff.1 h
        rw [List.length_cons] at hlen
        obtain ⟨rfl, hS'⟩ := (hsub ts (by omega) b ts').1 hb
        rw [List.length_append] at hlen
        obtain ⟨heq, hclear⟩ := ih (f a b) ts' (by omega) hS' a' rest hrest
        refine ⟨?_, hclear⟩
        rw [hL.node t f hop] at heq
        simpa using heq

/-- a whole chain is read up to the point where its rest begins -/
theorem chain_append (hL : L.Prints ya yb) (hsub : Exact sub yb (fun _ => Clear S) N)
    (hS : ∀ t, L.Op t → ¬ S t) (n : ℕ) (a : α) :
    ∀ rest : List τ, (ya a ++ rest).length ≤ N → (ya a ++ rest).length ≤ n → Clear S rest →
      ∃ m, rest.length ≤ m ∧ chain L sub n (ya a ++ rest) = chainRest L sub m a rest := by
  refine hL.induct (P := fun a => ∀ rest : List τ, (ya a ++ rest).length ≤ N → (ya a ++ rest).length ≤ n →
    Clear S rest → ∃ m, rest.length ≤ m ∧ chain L sub n (ya a ++ rest) = chainRest L sub m a rest) ?_ ?_ a
  · intro b rest hN hn hrest
    rw [hL.leaf] at hN hn ⊢
    have hb := (hsub _ hN b rest).2 ⟨rfl, hrest⟩
    rw [List.length_append] at hn
    exact ⟨n, by omega, by rw [chain, hb]; rfl⟩
  · intro t f a b hop ih rest hN hn hrest
    rw [hL.node t f hop, List.append_assoc, List.cons_append] at hN hn ⊢
    obtain ⟨m, hm, heq⟩ := ih (t :: (yb b ++ rest)) hN hn (clear_cons.2 (hS t (by simp [Level.Op, hop])))
    rw [List.length_cons, List.length_append] at hm
    obtain ⟨m, rfl⟩ : ∃ k, m = k + 1 := ⟨m - 1, by omega⟩
    rw [List.length_append, List.length_cons] at hN
    have hb := (hsub (yb b ++ rest) (by omega) b rest).2 ⟨rfl, hrest⟩
    refine ⟨m, by omega, ?_⟩
    rw [heq, chainRest, hop]
    show (sub (yb b ++ rest)).bind _ = _
    rw [hb]
    rfl

/-- **A level of operators.** -/
theorem Exact.chain (hL : L.Prints ya yb) (hsub : Exact sub yb (fun _ => Clear S) N) (hS : ∀ t, L.Op t → ¬ S t) :
    Exact (chain L sub N) ya (fun _ => Clear fun t => S t ∨ L.Op t) N := by
  intro toks hlen a rest
  constructor
  · intro h
    obtain ⟨⟨b, ts⟩, hb, hrest⟩ := Option.bind_eq_some_iff.1 h
    obtain ⟨rfl, hclear⟩ := (hsub toks hlen b ts).1 hb
    rw [List.length_append] at hlen
    obtain ⟨heq, hS', hop⟩ := chainRest_sound hL hsub N (L.leaf b) ts (by omega) hclear a rest hrest
    rw [hL.leaf] at heq
    exact ⟨heq, fun t ht hor => hor.elim (hS' t ht) (hop t ht)⟩
  · rintro ⟨rfl, hclear⟩
    obtain ⟨m, hm, heq⟩ := chain_append hL hsub hS N a rest hlen hlen (hclear.mono fun _ => .inl)
    rw [heq, chainRest_of_clear (hclear.mono fun _ => .inr) hm]

end

/-! ## Repetition -/

/-- elements as long as the next token may start one -/
def many (first : τ → Bool) (p : Parser τ α) : ℕ → Parser τ (List α)
  | _, [] => some ([], [])
  | 0, _ :: _ => none
  | n + 1, t :: ts =>
    if first t then (p (t :: ts)).bind fun r => (many first p n r.2).bind fun q => some (r.1 :: q.1, q.2)
    else some ([], t :: ts)

/-- every element fits what is behind it, and nothing more can start -/
def ManyFits (first : τ → Bool) (yield : α → List τ) (fits : α → List τ → Prop) : List α → List τ → Prop
  | [], rest => Clear (fun t => first t = true) rest
  | a :: as, rest => fits a (as.flatMap yield ++ rest) ∧ ManyFits first yield fits as rest

section
variable {first : τ → Bool} {p : Parser τ α} {yield : α → List τ} {fits : α → List τ → Prop} {N : ℕ}

@[simp] theorem many_nil (n : ℕ) : many first p n [] = some ([], []) := by
  cases n <;> rfl

theorem many_of_clear {rest : List τ} (h : Clear (fun t => first t = true) rest) {n : ℕ} (hn : rest.length ≤ n) :
    many first p n rest = some ([], rest) := by
  cases rest with
  | nil => exact many_nil n
  | cons t ts =>
    obtain ⟨m, rfl⟩ : ∃ m, n = m + 1 := ⟨n - 1, by rw [List.length_cons] at hn; omega⟩
    rw [many, if_neg (clear_cons.1 h)]

theorem many_sound (hp : Exact p yield fits N) (hne : ∀ a, yield a ≠ []) (n : ℕ) :
    ∀ toks : List τ, n ≤ N → toks.length ≤ n → ∀ as rest, many first p n toks = some (as, rest) →
      toks = as.flatMap yield ++ rest ∧ ManyFits first yield fits as rest := by
  induction n with
  | zero =>
    intro toks _ hlen as rest h
    obtain rfl : toks = [] := List.eq_nil_of_length_eq_zero (by omega)
    cases h
    exact ⟨rfl, clear_nil _⟩
  | succ n ih =>
    intro toks hN hlen as rest h
    cases toks with
    | nil =>
      cases h
      exact ⟨rfl, clear_nil _⟩
    | cons t ts =>
      rw [many] at h
      split_ifs at h with hf
      · obtain ⟨⟨a, ts'⟩, ha, h⟩ := Option.bind_eq_some_iff.1 h
        obtain ⟨⟨as', rest'⟩, has, h⟩ := Option.bind_eq_some_iff.1 h
        cases h
        obtain ⟨heq, hfits⟩ := (hp _ (by omega) a ts').1 ha
        have hpos := List.length_pos_iff.2 (hne a)
        have hshort : ts'.length ≤ n := by
          rw [heq, List.length_append] at hlen
          omega
        obtain ⟨rfl, hall⟩ := ih ts' (by omega) hshort as' rest' has
        exact ⟨by rw [heq, List.flatMap_cons, List.append_assoc], hfits, hall⟩
      · cases h
        exact ⟨rfl, clear_cons.2 hf⟩

theorem many_complete (hp : Exact p yield fits N) (hfirst : ∀ a, ∃ t ts, yield a = t :: ts ∧ first t = true)
    (as : List α) (rest : List τ) : ∀ n, n ≤ N → (as.flatMap yield ++ rest).length ≤ n →
      ManyFits first yield fits as rest → many first p n (as.flatMap yield ++ rest) = some (as, rest) := by
  induction as with
  | nil =>
    intro n _ hlen h
    exact many_of_clear h hlen
  | cons a as ih =>
    intro n hN hlen h
    obtain ⟨t, ts, hy, hf⟩ := hfirst a
    have ha := (hp (yield a ++ (as.flatMap yield ++ rest)) (by simpa using hlen.trans hN) a _).2 ⟨rfl, h.1⟩
    rw [List.flatMap_cons, List.append_assoc] at hlen ⊢
    rw [hy, List.cons_append] at ha hlen ⊢
    rw [List.length_cons, List.length_append] at hlen
    obtain ⟨m, rfl⟩ : ∃ m, n = m + 1 := ⟨n - 1, by omega⟩
    have has := ih m (by omega) (by omega) h.2
    rw [many, if_pos hf, ha, Option.bind_some, has]
    rfl

/-- **Repetition.** -/
theorem Exact.many (hp : Exact p yield fits N) (hfirst : ∀ a, ∃ t ts, yield a = t :: ts ∧ first t = true) :
    Exact (many first p N) (fun as => as.flatMap yield) (ManyFits first yield fits) N := by
  intro toks hlen as rest
  constructor
  · intro h
    refine many_sound hp (fun a => ?_) N toks le_rfl hlen as rest h
    obtain ⟨t, ts, hy, -⟩ := hfirst a
    rw [hy]
    exact List.cons_ne_nil t ts
  · rintro ⟨rfl, h⟩
    exact many_complete hp hfirst as rest N le_rfl hlen h

end

/-! ## The longest match -/

/-- the rule with the longest match and its length; of equal lengths the first rule counts -/
def longest {ρ : Type*} (len : ρ → Option ℕ) : List ρ → Option (ρ × ℕ)
  | [] => none
  | r :: rs =>
    match len r with
    | none => longest len rs
    | some n =>
      match longest len rs with
      | none => some (r, n)
      | some (r', m) => if n < m then some (r', m) else some (r, n)

section
variable {ρ : Type*} {len : ρ → Option ℕ}

theorem longest_eq_none {rs : List ρ} : longest len rs = none ↔ ∀ r ∈ rs, len r = none := by
  induction rs with
  | nil => simp [longest]
  | cons r rs ih =>
    rw [longest]
    cases hr : len r with
    | none => simp [ih, hr]
    | some n =>
      cases hrs : longest len rs with
      | none => simp [hr]
      | some q =>
        obtain ⟨r', m⟩ := q
        by_cases hlt : n < m <;> simp [hr, hlt]

/-- rule `r` matches `n`, the rules before it less and the rules behind it no more -/
def Wins (len : ρ → Option ℕ) (rs : List ρ) (r : ρ) (n : ℕ) : Prop :=
  ∃ before after, rs = before ++ r :: after ∧ len r = some n ∧ (∀ r' ∈ before, ∀ m, len r' = some m → m < n) ∧
    ∀ r' ∈ after, ∀ m, len r' = some m → m ≤ n

/-- no rule matches more than the winner -/
theorem Wins.le {rs : List ρ} {r : ρ} {n : ℕ} (h : Wins len rs r n) : ∀ r' ∈ rs, ∀ m, len r' = some m → m ≤ n := by
  obtain ⟨before, after, rfl, hr, hb, ha⟩ := h
  intro r' hr' m hm
  rcases List.mem_append.1 hr' with hr' | hr'
  · exact (hb r' hr' m hm).le
  · rcases List.mem_cons.1 hr' with rfl | hr'
    · rw [hr] at hm
      cases hm
      exact le_rfl
    · exact ha r' hr' m hm

theorem Wins.mem {rs : List ρ} {r : ρ} {n : ℕ} (h : Wins len rs r n) : r ∈ rs ∧ len r = some n := by
  obtain ⟨before, after, rfl, hr, -, -⟩ := h
  exact ⟨by simp, hr⟩

theorem Wins.cons {q : ρ} {rs : List ρ} {r : ρ} {n : ℕ} (h : Wins len rs r n) (hq : ∀ m, len q = some m → m < n) :
    Wins len (q :: rs) r n := by
  obtain ⟨before, after, rfl, hr, hb, ha⟩ := h
  refine ⟨q :: before, after, rfl, hr, fun r' hr' m hm => ?_, ha⟩
  rcases List.mem_cons.1 hr' with rfl | hr'
  · exact hq m hm
  · exact hb r' hr' m hm

theorem wins_of_longest {rs : List ρ} {r : ρ} {n : ℕ} (h : longest len rs = some (r, n)) : Wins len rs r n := by
  induction rs generalizing r n with
  | nil => cases h
  | cons q rs ih =>
    rw [longest] at h
    cases hq : len q with
    | none =>
      rw [hq] at h
      exact (ih h).cons fun m hm => by rw [hq] at hm; cases hm
    | some k =>
      rw [hq] at h
      cases hrs : longest len rs with
      | none =>
        rw [hrs] at h
        cases h
        refine ⟨[], rs, rfl, hq, by simp, fun r' hr' m hm => ?_⟩
        rw [longest_eq_none.1 hrs r' hr'] at hm
        cases hm
      | some best =>
        obtain ⟨r₁, m₁⟩ := best
        have hbest := ih hrs
        rw [hrs] at h
        by_cases hlt : k < m₁
        · simp only [if_pos hlt] at h
          cases h
          exact hbest.cons fun m hm => by rw [hq] at hm; cases hm; exact hlt
        · simp only [if_neg hlt] at h
          cases h
          exact ⟨[], rs, rfl, hq, by simp, fun r' hr' m hm => (hbest.le r' hr' m hm).trans (not_lt.1 hlt)⟩

theorem longest_of_wins {rs : List ρ} {r : ρ} {n : ℕ} (h : Wins len rs r n) : longest len rs = some (r, n) := by
  obtain ⟨before, after, rfl, hr, hb, ha⟩ := h
  induction before with
  | nil =>
    rw [List.nil_append, longest, hr]
    cases hrs : longest len after with
    | none => rfl
    | some best =>
      obtain ⟨r₁, m₁⟩ := best
      have hmem := (wins_of_longest hrs).mem
      have hle := ha r₁ hmem.1 m₁ hmem.2
      simp only [if_neg (show ¬ n < m₁ by omega)]
  | cons q before ih =>
    rw [List.cons_append, longest, ih fun r' hr' => hb r' (List.mem_cons_of_mem _ hr')]
    cases hq : len q with
    | none => rfl
    | some k => simp only [if_pos (hb q List.mem_cons_self k hq)]

/-- **Longest match, first rule.** -/
theorem longest_iff {rs : List ρ} {r : ρ} {n : ℕ} : longest len rs = some (r, n) ↔ Wins len rs r n :=
  ⟨wins_of_longest, longest_of_wins⟩

end

end FpgaLearning.Parsing
