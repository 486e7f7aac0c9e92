/-
`MyLanguageLexer.cpp`: the lexer generated from `MyLanguage.g4`.

At every position the longest match among the lexer rules counts, and of equally long ones the first rule, as the
generator documents it. White space and comments are skipped; a block comment ends at the first `*/`, and without one it
is not a comment. `none` stands for a character that no rule matches: the generated lexer reports it, drops it and goes on.

- `lex_iff`: the lexer reads without a report exactly the texts that a token list can be written as (`Written`), and
  returns that list.
-/
import Mathlib.Data.List.TakeWhile
import FpgaLearning.Compiler.Parser

namespace FpgaLearning.Compiler

open FpgaLearning.Parsing

/-! ## Characters -/

/-- `[a-zA-Z_]` -/
def isLetter (c : Char) : Bool := ('a' ≤ c && c ≤ 'z') || ('A' ≤ c && c ≤ 'Z') || c == '_'

/-- `[0-9]` -/
def isDigit (c : Char) : Bool := '0' ≤ c && c ≤ '9'

/-- `[a-zA-Z0-9_]` -/
def isPart (c : Char) : Bool := isLetter c || isDigit c

/-- `[ \t\r\n]` -/
def isSpace (c : Char) : Bool := c == ' ' || c == '\t' || c == '\r' || c == '\n'

def isEol (c : Char) : Bool := c == '\r' || c == '\n'

/-- the value of a digit sequence -/
def decimal (ds : List Char) : ℕ := ds.foldl (fun n d => 10 * n + (d.toNat - '0'.toNat)) 0

/-! ## Rules -/

/-- the text of a token that has only one -/
def Token.text : Token → List Char
  | .func => ['f', 'u', 'n', 'c']
  | .call => ['c', 'a', 'l', 'l']
  | .var => ['v', 'a', 'r']
  | .print => ['p', 'r', 'i', 'n', 't']
  | .kwIf => ['i', 'f']
  | .kwElse => ['e', 'l', 's', 'e']
  | .kwWhile => ['w', 'h', 'i', 'l', 'e']
  | .lbra => ['{']
  | .rbra => ['}']
  | .lpar => ['(']
  | .rpar => [')']
  | .plus => ['+']
  | .minus => ['-']
  | .mult => ['*']
  | .div => ['/']
  | .rem => ['%']
  | .less => ['<']
  | .lessequal => ['<', '=']
  | .greater => ['>']
  | .greaterequal => ['>', '=']
  | .equal => ['=', '=']
  | .notequal => ['!', '=']
  | .bitnot => ['~']
  | .bitor => ['|']
  | .bitand => ['&']
  | .bitxor => ['^']
  | .shiftleft => ['<', '<']
  | .shiftright => ['>', '>']
  | .assign => ['=']
  | .semicolon => [';']
  | .ident _ | .number _ => []

/-- the tokens with one text, in the order of their rules -/
def fixed : List Token :=
  [.func, .call, .var, .print, .kwIf, .kwElse, .kwWhile, .lbra, .rbra, .lpar, .rpar, .plus, .minus, .mult, .div, .rem,
    .less, .lessequal, .greater, .greaterequal, .equal, .notequal, .bitnot, .bitor, .bitand, .bitxor, .shiftleft,
    .shiftright, .assign, .semicolon]

/-- the length of a text up to and with its first `*/` -/
def commentEnd : List Char → Option ℕ
  | [] => none
  | [_] => none
  | c :: d :: cs => if c = '*' ∧ d = '/' then some 2 else (commentEnd (d :: cs)).map (· + 1)

namespace MyLanguageLexer

inductive Rule where
  | literal (t : Token)
  | ident | number | ws | lineComment | blockComment
deriving DecidableEq

def rules : List Rule := fixed.map .literal ++ [.ident, .number, .ws, .lineComment, .blockComment]

namespace Rule

/-- how much of the text a rule matches at most -/
def len : Rule → List Char → Option ℕ
  | .literal t, cs => if t.text <+: cs then some t.text.length else none
  | .ident, c :: cs => if isLetter c then some ((cs.takeWhile isPart).length + 1) else none
  | .number, c :: cs => if isDigit c then some ((cs.takeWhile isDigit).length + 1) else none
  | .ws, c :: _ => if isSpace c then some 1 else none
  | .lineComment, c :: d :: cs => if c = '/' ∧ d = '/' then some ((cs.takeWhile (!isEol ·)).length + 2) else none
  | .blockComment, c :: d :: cs => if c = '/' ∧ d = '*' then (commentEnd cs).map (· + 2) else none
  | _, _ => none

/-- the token of a lexeme; the last three rules skip -/
def action : Rule → List Char → Option Token
  | .literal t, _ => some t
  | .ident, s => some (.ident (String.ofList s))
  | .number, s => some (.number (decimal s))
  | .ws, _ | .lineComment, _ | .blockComment, _ => none

end Rule

/-- `nextToken()` until the end of the text; the first argument bounds the number of lexemes -/
def lexemes : ℕ → List Char → Option (List Token)
  | _, [] => some []
  | 0, _ :: _ => none
  | n + 1, c :: cs => do
    let (r, k) ← longest (Rule.len · (c :: cs)) rules
    let ts ← lexemes n ((c :: cs).drop k)
    return (r.action ((c :: cs).take k)).toList ++ ts

def lex (cs : List Char) : Option (List Token) := lexemes cs.length cs

end MyLanguageLexer

/-! ## Written programs -/

def keyword (t : Token) : Bool := t ∈ fixed.take 7

/-- a text of a token -/
inductive Spells : Token → List Char → Prop
  | fixed (t : Token) (h : t ∈ fixed) : Spells t t.text
  | ident (c : Char) (cs : List Char) (hc : isLetter c = true) (hcs : ∀ d ∈ cs, isPart d = true)
      (hkey : ∀ t ∈ fixed, t.text ≠ c :: cs) : Spells (.ident (String.ofList (c :: cs))) (c :: cs)
  | number (d : Char) (ds : List Char) (hd : isDigit d = true) (hds : ∀ e ∈ ds, isDigit e = true) :
      Spells (.number (decimal (d :: ds))) (d :: ds)

/-- with this character behind it the token would be another one -/
def Token.growsBy (t : Token) (c : Char) : Bool :=
  match t with
  | .less => c == '=' || c == '<'
  | .greater => c == '=' || c == '>'
  | .assign => c == '='
  | .div => c == '/'
  | .number _ => isDigit c
  | .ident _ => isPart c
  | t => keyword t && isPart c

/-- the token ends where `cs` begins -/
structure StopsBefore (t : Token) (cs : List Char) : Prop where
  next : ∀ c ∈ cs.head?, t.growsBy c = false
  /-- a division sign starts no comment -/
  comment : t = .div → ∀ ds, cs = '*' :: ds → commentEnd ds = none

/-- a skipped text before `cs` -/
inductive Gap : List Char → List Char → Prop
  | space (c : Char) (hc : isSpace c = true) (cs : List Char) : Gap [c] cs
  | line (body : List Char) (hbody : ∀ c ∈ body, isEol c = false) (cs : List Char) (hcs : ∀ c ∈ cs.head?, isEol c = true) :
      Gap ('/' :: '/' :: body) cs
  | block (body : List Char) (hbody : ¬ ['*', '/'] <:+: body) (cs : List Char) :
      Gap ('/' :: '*' :: (body ++ ['*', '/'])) cs

/-- a text of a token list -/
inductive Written : List Token → List Char → Prop
  | nil : Written [] []
  | token {t : Token} {s : List Char} {ts : List Token} {cs : List Char} (h : Spells t s) (hend : StopsBefore t cs)
      (hcs : Written ts cs) : Written (t :: ts) (s ++ cs)
  | gap {s : List Char} {ts : List Token} {cs : List Char} (h : Gap s cs) (hcs : Written ts cs) : Written ts (s ++ cs)

/-! ## Character classes and the table of texts -/

theorem le_iff_toNat {a b : Char} : a ≤ b ↔ a.toNat ≤ b.toNat := by
  rw [Char.le_def, UInt32.le_iff_toNat_le]
  rfl

theorem isLetter_iff {c : Char} :
    isLetter c = true ↔ (97 ≤ c.toNat ∧ c.toNat ≤ 122) ∨ (65 ≤ c.toNat ∧ c.toNat ≤ 90) ∨ c = '_' := by
  simp only [isLetter, Bool.or_eq_true, Bool.and_eq_true, decide_eq_true_eq, le_iff_toNat, beq_iff_eq, or_assoc]
  exact Iff.rfl

theorem isDigit_iff {c : Char} : isDigit c = true ↔ 48 ≤ c.toNat ∧ c.toNat ≤ 57 := by
  simp only [isDigit, Bool.and_eq_true, decide_eq_true_eq, le_iff_toNat]
  exact Iff.rfl

theorem not_digit_of_letter {c : Char} (h : isLetter c = true) : isDigit c = false := by
  rw [Bool.eq_false_iff, Ne, isDigit_iff]
  rcases isLetter_iff.1 h with h | h | rfl
  · omega
  · omega
  · decide

/-- the characters that a space is not -/
theorem space_class {c : Char} (h : isSpace c = true) : isLetter c = false ∧ isDigit c = false ∧ c ≠ '/' := by
  simp only [isSpace, Bool.or_eq_true, beq_iff_eq] at h
  rcases h with ((rfl | rfl) | rfl) | rfl <;> decide

theorem not_space {c : Char} (h : isLetter c = true ∨ isDigit c = true) : isSpace c = false ∧ c ≠ '/' := by
  constructor
  · rw [Bool.eq_false_iff]
    intro hs
    obtain ⟨h₁, h₂, -⟩ := space_class hs
    simp [h₁, h₂] at h
  · rintro rfl
    revert h
    decide

/-- the first characters of the fixed texts -/
theorem text_first {t : Token} (ht : t ∈ fixed) : ∃ c cs, t.text = c :: cs ∧ isLetter c = keyword t ∧
    isDigit c = false ∧ isSpace c = false ∧ (c = '/' → t = .div) := by
  simp only [fixed, List.mem_cons, List.not_mem_nil, or_false] at ht
  rcases ht with rfl | rfl | rfl | rfl | rfl | rfl | rfl | rfl | rfl | rfl | rfl | rfl | rfl | rfl | rfl | rfl | rfl |
      rfl | rfl | rfl | rfl | rfl | rfl | rfl | rfl | rfl | rfl | rfl | rfl | rfl <;>
    exact ⟨_, _, rfl, by decide, by decide, by decide, by decide⟩

theorem text_keyword {t : Token} (ht : t ∈ fixed) (hk : keyword t = true) : ∀ c ∈ t.text, isPart c = true := by
  have hall : (fixed.all fun t => !keyword t || t.text.all isPart) = true := by decide
  have h := List.all_eq_true.1 hall t ht
  rw [hk] at h
  exact List.all_eq_true.1 h

/-- a text that continues another one continues it with a character that the shorter token grows by -/
theorem text_grows {t t' : Token} (ht : t ∈ fixed) (ht' : t' ∈ fixed) (h : t.text <+: t'.text) :
    t = t' ∨ ∃ c cs, t'.text = t.text ++ c :: cs ∧ t.growsBy c = true := by
  have hall : ∀ t ∈ fixed, ∀ t' ∈ fixed, t.text <+: t'.text → t = t' ∨
      ((t'.text.drop t.text.length).head?.any t.growsBy) = true := by decide +kernel
  obtain ⟨u, hu⟩ := h
  rcases hall t ht t' ht' ⟨u, hu⟩ with h | h
  · exact .inl h
  · rw [← hu, List.drop_left] at h
    cases u with
    | nil => cases h
    | cons c cs => exact .inr ⟨c, cs, hu.symm, h⟩

/-- the end of a comment -/
theorem commentEnd_iff {cs : List Char} {m : ℕ} : commentEnd cs = some m ↔
    ∃ body rest, cs = body ++ '*' :: '/' :: rest ∧ m = body.length + 2 ∧ ¬ ['*', '/'] <:+: body := by
  induction cs generalizing m with
  | nil => simp [commentEnd]
  | cons c cs ih =>
    cases cs with
    | nil =>
      refine iff_of_false (fun h => by cases h) ?_
      rintro ⟨body, rest, h, -, -⟩
      have := congrArg List.length h
      simp at this
      omega
    | cons d cs =>
      rw [commentEnd]
      by_cases hcd : c = '*' ∧ d = '/'
      · rw [if_pos hcd]
        obtain ⟨rfl, rfl⟩ := hcd
        constructor
        · intro h
          cases h
          exact ⟨[], cs, rfl, rfl, by simp⟩
        · rintro ⟨body, rest, h, rfl, hno⟩
          cases body with
          | nil => rfl
          | cons b body =>
            -- the comment would have ended before
            cases body with
            | nil => cases h
            | cons b' body =>
              cases h
              exact absurd ⟨[], body, rfl⟩ hno
      · rw [if_neg hcd, Option.map_eq_some_iff]
        constructor
        · rintro ⟨k, hk, rfl⟩
          obtain ⟨body, rest, h, rfl, hno⟩ := ih.1 hk
          refine ⟨c :: body, rest, by rw [h]; rfl, by simp, ?_⟩
          rw [List.infix_cons_iff]
          rintro (⟨u, hu⟩ | hin)
          · cases hu
            cases h
            exact hcd ⟨rfl, rfl⟩
          · exact hno hin
        · rintro ⟨body, rest, h, rfl, hno⟩
          cases body with
          | nil =>
            cases h
            exact absurd ⟨rfl, rfl⟩ hcd
          | cons b body =>
            rw [List.cons_append] at h
            obtain ⟨rfl, htail⟩ := List.cons.inj h
            exact ⟨body.length + 2, ih.2 ⟨body, rest, htail, rfl, fun hin => hno (List.infix_cons hin)⟩, by simp⟩

/-! ## One lexeme -/

namespace MyLanguageLexer

/-- what the first `m` characters of a text must be for a rule to match them -/
def Rule.Matches (c : Char) (cs : List Char) (m : ℕ) : Rule → Prop
  | .literal t => t.text <+: c :: cs ∧ m = t.text.length
  | .ident => isLetter c = true ∧ m = (cs.takeWhile isPart).length + 1
  | .number => isDigit c = true ∧ m = (cs.takeWhile isDigit).length + 1
  | .ws => isSpace c = true ∧ m = 1
  | .lineComment => c = '/' ∧ ∃ ds, cs = '/' :: ds ∧ m = (ds.takeWhile (!isEol ·)).length + 2
  | .blockComment => c = '/' ∧ ∃ ds k, cs = '*' :: ds ∧ commentEnd ds = some k ∧ m = k + 2

theorem Rule.len_iff {c : Char} {cs : List Char} {r : Rule} {m : ℕ} : r.len (c :: cs) = some m ↔ r.Matches c cs m := by
  have hite : ∀ {p : Prop} [Decidable p] {n : ℕ}, (if p then some n else none) = some m ↔ p ∧ m = n := by
    intro p _ n
    by_cases hp : p
    · simp [hp, eq_comm]
    · simp [hp]
  cases r with
  | literal t => exact hite
  | ident => exact hite
  | number => exact hite
  | ws => exact hite
  | lineComment =>
    cases cs with
    | nil => simp [Rule.len, Rule.Matches]
    | cons d ds =>
      simp only [Rule.len, Rule.Matches, hite, List.cons.injEq, and_assoc]
      constructor
      · rintro ⟨rfl, rfl, rfl⟩
        exact ⟨rfl, ds, rfl, rfl, rfl⟩
      · rintro ⟨rfl, _, rfl, rfl, rfl⟩
        exact ⟨rfl, rfl, rfl⟩
  | blockComment =>
    cases cs with
    | nil => simp [Rule.len, Rule.Matches]
    | cons d ds =>
      simp only [Rule.len, Rule.Matches, List.cons.injEq]
      constructor
      · intro h
        split_ifs at h with hp
        obtain ⟨k, hk, rfl⟩ := Option.map_eq_some_iff.1 h
        exact ⟨hp.1, ds, k, ⟨hp.2, rfl⟩, hk, rfl⟩
      · rintro ⟨rfl, _, k, ⟨rfl, rfl⟩, hk, rfl⟩
        rw [if_pos ⟨rfl, rfl⟩, hk]
        rfl

theorem takeWhile_stop {p : Char → Bool} {s cs : List Char} (hs : ∀ c ∈ s, p c = true)
    (hcs : ∀ c ∈ cs.head?, p c = false) : (s ++ cs).takeWhile p = s := by
  rw [List.takeWhile_append_of_pos hs]
  cases cs with
  | nil => simp
  | cons c cs => simp [hcs c rfl]

theorem growsBy_keyword {t : Token} (ht : t ∈ fixed) (hk : keyword t = true) (c : Char) : t.growsBy c = isPart c := by
  simp only [fixed, List.mem_cons, List.not_mem_nil, or_false] at ht
  rcases ht with rfl | rfl | rfl | rfl | rfl | rfl | rfl | rfl | rfl | rfl | rfl | rfl | rfl | rfl | rfl | rfl | rfl |
      rfl | rfl | rfl | rfl | rfl | rfl | rfl | rfl | rfl | rfl | rfl | rfl | rfl <;>
    first | rfl | exact absurd hk (by decide)

/-- two fixed texts at one position -/
theorem literal_le {t t' : Token} (ht : t ∈ fixed) (ht' : t' ∈ fixed) {cs : List Char} (hend : StopsBefore t cs)
    (h : t'.text <+: t.text ++ cs) : t'.text.length ≤ t.text.length ∧ (t'.text.length = t.text.length → t' = t) := by
  by_cases hle : t.text.length ≤ t'.text.length
  · have hp : t.text <+: t'.text := List.prefix_of_prefix_length_le (List.prefix_append _ _) h hle
    rcases text_grows ht ht' hp with rfl | ⟨c, ds, heq, hg⟩
    · exact ⟨le_rfl, fun _ => rfl⟩
    · rw [heq, List.prefix_append_right_inj] at h
      obtain ⟨u, rfl⟩ := h
      have := hend.next c rfl
      rw [hg] at this
      cases this
  · exact ⟨by omega, fun h => by omega⟩

/-- what the other rules match of a fixed text -/
theorem pattern_le {t : Token} (ht : t ∈ fixed) {cs : List Char} (hend : StopsBefore t cs) {r : Rule}
    (hr : r ∈ [Rule.ident, .number, .ws, .lineComment, .blockComment]) {m : ℕ} (h : r.len (t.text ++ cs) = some m) :
    m ≤ t.text.length := by
  obtain ⟨c, ds, htext, hletter, hdigit, hspace, hslash⟩ := text_first ht
  rw [htext, List.cons_append, Rule.len_iff] at h
  simp only [List.mem_cons, List.not_mem_nil, or_false] at hr
  have hdiv : c = '/' → ds = [] := fun hc => by
    rw [hslash hc] at htext
    exact (List.cons.inj htext).2.symm
  rcases hr with rfl | rfl | rfl | rfl | rfl
  · obtain ⟨hc, rfl⟩ := h
    rw [hletter] at hc
    have hpart := text_keyword ht hc
    rw [htext] at hpart
    rw [takeWhile_stop (fun d hd => hpart d (List.mem_cons_of_mem c hd)) fun d hd => ?_, htext, List.length_cons]
    rw [← growsBy_keyword ht hc]
    exact hend.next d hd
  · exact Bool.noConfusion (hdigit.symm.trans h.1)
  · exact Bool.noConfusion (hspace.symm.trans h.1)
  · obtain ⟨hc, ds', hds, -⟩ := h
    rw [hdiv hc, List.nil_append] at hds
    have := hend.next '/' (by rw [hds]; rfl)
    rw [hslash hc] at this
    cases this
  · obtain ⟨hc, ds', k, hds, hk, -⟩ := h
    rw [hdiv hc, List.nil_append] at hds
    rw [hend.comment (hslash hc) ds' hds] at hk
    cases hk

theorem wins_literal {t : Token} (ht : t ∈ fixed) {cs : List Char} (hend : StopsBefore t cs) :
    Wins (Rule.len · (t.text ++ cs)) rules (.literal t) t.text.length := by
  obtain ⟨b, a, hsplit⟩ := List.append_of_mem ht
  have hnodup : fixed.Nodup := by decide
  have hlit : ∀ {t' : Token} {m : ℕ}, (Rule.literal t').len (t.text ++ cs) = some m →
      t'.text <+: t.text ++ cs ∧ m = t'.text.length := by
    intro t' m h
    simp only [Rule.len] at h
    split_ifs at h with hp
    cases h
    exact ⟨hp, rfl⟩
  refine ⟨b.map .literal, a.map .literal ++ [.ident, .number, .ws, .lineComment, .blockComment], ?_, ?_, ?_, ?_⟩
  · rw [rules, hsplit]
    simp
  · simp [Rule.len]
  · intro r hr m hm
    obtain ⟨t', ht', rfl⟩ := List.mem_map.1 hr
    obtain ⟨hp, rfl⟩ := hlit hm
    obtain ⟨hle, heq⟩ := literal_le ht (by rw [hsplit]; exact List.mem_append_left _ ht') hend hp
    refine lt_of_le_of_ne hle fun h => ?_
    rw [heq h] at ht'
    rw [hsplit, List.nodup_append] at hnodup
    exact hnodup.2.2 t ht' t List.mem_cons_self rfl
  · intro r hr m hm
    rcases List.mem_append.1 hr with hr | hr
    · obtain ⟨t', ht', rfl⟩ := List.mem_map.1 hr
      obtain ⟨hp, rfl⟩ := hlit hm
      have hmem : t' ∈ fixed := by
        rw [hsplit]
        exact List.mem_append_right _ (List.mem_cons_of_mem t ht')
      exact (literal_le ht hmem hend hp).1
    · exact pattern_le ht hend hr hm

/-- no other rule matches more of a name, and the fixed texts match less -/
theorem wins_ident {c : Char} {s cs : List Char} (hc : isLetter c = true) (hs : ∀ d ∈ s, isPart d = true)
    (hkey : ∀ t ∈ fixed, t.text ≠ c :: s) (hend : ∀ d ∈ cs.head?, isPart d = false) :
    Wins (Rule.len · (c :: s ++ cs)) rules .ident (s.length + 1) := by
  refine ⟨fixed.map .literal, [.number, .ws, .lineComment, .blockComment], rfl, ?_, ?_, ?_⟩
  · exact Rule.len_iff.2 ⟨hc, congrArg (fun l => l.length + 1) (takeWhile_stop hs hend).symm⟩
  · intro r hr m hm
    obtain ⟨t, ht, rfl⟩ := List.mem_map.1 hr
    obtain ⟨hp, rfl⟩ := Rule.len_iff.1 hm
    obtain ⟨c', ds, htext, hletter, -, -, -⟩ := text_first ht
    by_contra hlt
    have hle : (c :: s).length ≤ t.text.length := by rw [List.length_cons]; omega
    obtain ⟨u, hu⟩ : c :: s <+: t.text := List.prefix_of_prefix_length_le (List.prefix_append _ _) hp hle
    cases u with
    | nil => exact hkey t ht (by rw [← hu, List.append_nil])
    | cons d u =>
      -- a keyword that goes on, so that the name goes on
      have hcc : c' = c := by
        rw [htext] at hu
        exact (List.cons.inj hu).1.symm
      rw [hcc, hc] at hletter
      have hd : isPart d = true := text_keyword ht hletter.symm d (by rw [← hu]; simp)
      rw [← hu] at hp
      obtain ⟨v, hv⟩ := (List.prefix_append_right_inj (c :: s)).1 hp
      have := hend d (by rw [← hv]; rfl)
      exact Bool.noConfusion (this.symm.trans hd)
  · intro r hr m hm
    simp only [List.mem_cons, List.not_mem_nil, or_false] at hr
    obtain ⟨hspace, hslash⟩ := not_space (.inl hc)
    rcases hr with rfl | rfl | rfl | rfl
    · exact Bool.noConfusion ((not_digit_of_letter hc).symm.trans (Rule.len_iff.1 hm).1)
    · exact Bool.noConfusion (hspace.symm.trans (Rule.len_iff.1 hm).1)
    · exact absurd (Rule.len_iff.1 hm).1 hslash
    · exact absurd (Rule.len_iff.1 hm).1 hslash

/-- a fixed text that matches starts with the character at hand -/
theorem literal_first {t : Token} (ht : t ∈ fixed) {c : Char} {cs : List Char} {m : ℕ}
    (h : (Rule.literal t).len (c :: cs) = some m) :
    isLetter c = keyword t ∧ isDigit c = false ∧ isSpace c = false ∧ (c = '/' → t = .div ∧ m = 1) := by
  obtain ⟨hp, rfl⟩ := Rule.len_iff.1 h
  obtain ⟨c', ds, htext, hletter, hdigit, hspace, hslash⟩ := text_first ht
  rw [htext] at hp
  obtain ⟨u, hu⟩ := hp
  obtain ⟨rfl, -⟩ := List.cons.inj hu
  refine ⟨hletter, hdigit, hspace, fun hc => ?_⟩
  rw [hslash hc]
  exact ⟨rfl, rfl⟩

theorem wins_number {d : Char} {ds cs : List Char} (hd : isDigit d = true) (hds : ∀ e ∈ ds, isDigit e = true)
    (hend : ∀ e ∈ cs.head?, isDigit e = false) : Wins (Rule.len · (d :: ds ++ cs)) rules .number (ds.length + 1) := by
  refine ⟨fixed.map .literal ++ [.ident], [.ws, .lineComment, .blockComment], rfl, ?_, ?_, ?_⟩
  · exact Rule.len_iff.2 ⟨hd, congrArg (fun l => l.length + 1) (takeWhile_stop hds hend).symm⟩
  · intro r hr m hm
    rcases List.mem_append.1 hr with hr | hr
    · obtain ⟨t, ht, rfl⟩ := List.mem_map.1 hr
      exact Bool.noConfusion ((literal_first ht hm).2.1.symm.trans hd)
    · obtain rfl := List.mem_singleton.1 hr
      exact Bool.noConfusion ((not_digit_of_letter (Rule.len_iff.1 hm).1).symm.trans hd)
  · intro r hr m hm
    simp only [List.mem_cons, List.not_mem_nil, or_false] at hr
    obtain ⟨hspace, hslash⟩ := not_space (.inr hd)
    rcases hr with rfl | rfl | rfl
    · exact Bool.noConfusion (hspace.symm.trans (Rule.len_iff.1 hm).1)
    · exact absurd (Rule.len_iff.1 hm).1 hslash
    · exact absurd (Rule.len_iff.1 hm).1 hslash

theorem wins_space {c : Char} (hc : isSpace c = true) (cs : List Char) :
    Wins (Rule.len · (c :: cs)) rules .ws 1 := by
  obtain ⟨hletter, hdigit, hslash⟩ := space_class hc
  refine ⟨fixed.map .literal ++ [.ident, .number], [.lineComment, .blockComment], rfl, Rule.len_iff.2 ⟨hc, rfl⟩, ?_, ?_⟩
  · intro r hr m hm
    rcases List.mem_append.1 hr with hr | hr
    · obtain ⟨t, ht, rfl⟩ := List.mem_map.1 hr
      exact Bool.noConfusion ((literal_first ht hm).2.2.1.symm.trans hc)
    · simp only [List.mem_cons, List.not_mem_nil, or_false] at hr
      rcases hr with rfl | rfl
      · exact Bool.noConfusion (hletter.symm.trans (Rule.len_iff.1 hm).1)
      · exact Bool.noConfusion (hdigit.symm.trans (Rule.len_iff.1 hm).1)
  · intro r hr m hm
    simp only [List.mem_cons, List.not_mem_nil, or_false] at hr
    rcases hr with rfl | rfl
    · exact absurd (Rule.len_iff.1 hm).1 hslash
    · exact absurd (Rule.len_iff.1 hm).1 hslash

/-- before a comment rule only the division sign matches, and it is shorter -/
theorem lt_of_slash {cs : List Char} {r : Rule} (hr : r ∈ fixed.map Rule.literal ++ [.ident, .number, .ws]) {m : ℕ}
    (h : r.len ('/' :: cs) = some m) : m = 1 := by
  rcases List.mem_append.1 hr with hr | hr
  · obtain ⟨t, ht, rfl⟩ := List.mem_map.1 hr
    exact ((literal_first ht h).2.2.2 rfl).2
  · simp only [List.mem_cons, List.not_mem_nil, or_false] at hr
    rcases hr with rfl | rfl | rfl
    · exact absurd (Rule.len_iff.1 h).1 (by decide)
    · exact absurd (Rule.len_iff.1 h).1 (by decide)
    · exact absurd (Rule.len_iff.1 h).1 (by decide)

theorem wins_line {body cs : List Char} (hbody : ∀ c ∈ body, isEol c = false) (hcs : ∀ c ∈ cs.head?, isEol c = true) :
    Wins (Rule.len · ('/' :: '/' :: body ++ cs)) rules .lineComment (body.length + 2) := by
  have htake : (body ++ cs).takeWhile (!isEol ·) = body := takeWhile_stop
    (fun c hc => by simp [hbody c hc]) fun c hc => by simp [hcs c hc]
  refine ⟨fixed.map .literal ++ [.ident, .number, .ws], [.blockComment], rfl, ?_, ?_, ?_⟩
  · exact Rule.len_iff.2 ⟨rfl, body ++ cs, rfl, by rw [htake]⟩
  · intro r hr m hm
    have := lt_of_slash hr hm
    omega
  · intro r hr m hm
    obtain rfl := List.mem_singleton.1 hr
    obtain ⟨-, ds, k, hds, -, -⟩ := Rule.len_iff.1 hm
    exact absurd (List.cons.inj hds).1 (by decide)

theorem wins_block {body : List Char} (hbody : ¬ ['*', '/'] <:+: body) (cs : List Char) :
    Wins (Rule.len · ('/' :: '*' :: (body ++ ['*', '/']) ++ cs)) rules .blockComment (body.length + 4) := by
  have hend : commentEnd (body ++ ['*', '/'] ++ cs) = some (body.length + 2) :=
    commentEnd_iff.2 ⟨body, cs, by simp, rfl, hbody⟩
  refine ⟨fixed.map .literal ++ [.ident, .number, .ws, .lineComment], [], rfl, ?_, ?_, by simp⟩
  · exact Rule.len_iff.2 ⟨rfl, _, _, rfl, hend, rfl⟩
  · intro r hr m hm
    rw [show [Rule.ident, .number, .ws, .lineComment] = [.ident, .number, .ws] ++ [.lineComment] from rfl,
      ← List.append_assoc] at hr
    rcases List.mem_append.1 hr with hr | hr
    · have := lt_of_slash hr hm
      omega
    · obtain rfl := List.mem_singleton.1 hr
      obtain ⟨-, ds, hds, -⟩ := Rule.len_iff.1 hm
      exact absurd (List.cons.inj hds).1 (by decide)

/-- a token that may grow is not the longest match -/
theorem longer_of_grows {t : Token} (ht : t ∈ fixed) {c : Char} (hg : t.growsBy c = true) (cs : List Char) :
    ∃ r ∈ rules, ∃ m, r.len (t.text ++ c :: cs) = some m ∧ t.text.length < m := by
  have hlit : ∀ t' ∈ fixed, t'.text <+: t.text ++ c :: cs → t.text.length < t'.text.length →
      ∃ r ∈ rules, ∃ m, r.len (t.text ++ c :: cs) = some m ∧ t.text.length < m := by
    intro t' ht' hp hlt
    refine ⟨.literal t', List.mem_append_left _ (List.mem_map_of_mem ht'), t'.text.length, ?_, hlt⟩
    simp only [Rule.len, if_pos hp]
  by_cases hk : keyword t = true
  · obtain ⟨c₀, ds, htext, hletter, -, -, -⟩ := text_first ht
    have hpart := text_keyword ht hk
    rw [growsBy_keyword ht hk] at hg
    refine ⟨.ident, by decide, ((ds ++ c :: cs).takeWhile isPart).length + 1, ?_, ?_⟩
    · rw [htext, List.cons_append]
      exact Rule.len_iff.2 ⟨hletter.trans hk, rfl⟩
    · rw [htext] at hpart ⊢
      have hds : ∀ d ∈ ds ++ [c], isPart d = true := by
        intro d hd
        rcases List.mem_append.1 hd with hd | hd
        · exact hpart d (List.mem_cons_of_mem c₀ hd)
        · exact List.mem_singleton.1 hd ▸ hg
      rw [show ds ++ c :: cs = ds ++ [c] ++ cs by simp, List.takeWhile_append_of_pos hds]
      simp
  · have hcases : t = .div ∨ t = .less ∨ t = .greater ∨ t = .assign := by
      cases t with
      | div => exact .inl rfl
      | less => exact .inr (.inl rfl)
      | greater => exact .inr (.inr (.inl rfl))
      | assign => exact .inr (.inr (.inr rfl))
      | _ => simp_all [Token.growsBy, fixed]
    rcases hcases with rfl | rfl | rfl | rfl
    · refine ⟨.lineComment, by decide, (cs.takeWhile (!isEol ·)).length + 2, ?_, by simp [Token.text]⟩
      obtain rfl : c = '/' := beq_iff_eq.1 hg
      exact Rule.len_iff.2 ⟨rfl, cs, rfl, rfl⟩
    · change (c == '=' || c == '<') = true at hg
      rw [Bool.or_eq_true, beq_iff_eq, beq_iff_eq] at hg
      rcases hg with rfl | rfl
      · exact hlit .lessequal (by decide) ⟨cs, rfl⟩ (by decide)
      · exact hlit .shiftleft (by decide) ⟨cs, rfl⟩ (by decide)
    · change (c == '=' || c == '>') = true at hg
      rw [Bool.or_eq_true, beq_iff_eq, beq_iff_eq] at hg
      rcases hg with rfl | rfl
      · exact hlit .greaterequal (by decide) ⟨cs, rfl⟩ (by decide)
      · exact hlit .shiftright (by decide) ⟨cs, rfl⟩ (by decide)
    · obtain rfl : c = '=' := beq_iff_eq.1 hg
      exact hlit .equal (by decide) ⟨cs, rfl⟩ (by decide)

/-- a token at the front of a text is the longest match -/
theorem wins_of_spells {t : Token} {s cs : List Char} (h : Spells t s) (hend : StopsBefore t cs) :
    ∃ r, Wins (Rule.len · (s ++ cs)) rules r s.length ∧ r.action s = some t := by
  cases h with
  | fixed _ ht => exact ⟨_, wins_literal ht hend, rfl⟩
  | ident c s hc hs hkey => exact ⟨_, wins_ident hc hs hkey hend.next, rfl⟩
  | number d ds hd hds => exact ⟨_, wins_number hd hds hend.next, rfl⟩

/-- a gap at the front of a text is the longest match -/
theorem wins_of_gap {s cs : List Char} (h : Gap s cs) :
    ∃ r, Wins (Rule.len · (s ++ cs)) rules r s.length ∧ r.action s = none := by
  cases h with
  | space c hc => exact ⟨_, wins_space hc cs, rfl⟩
  | line body hbody _ hcs => exact ⟨_, wins_line hbody hcs, rfl⟩
  | block body hbody =>
    have hlen : ('/' :: '*' :: (body ++ ['*', '/'])).length = body.length + 4 := by simp
    exact ⟨_, hlen ▸ wins_block hbody cs, rfl⟩

/-- the longest match is a fixed text that stops there -/
theorem stops_of_wins {t : Token} {cs : List Char} {r : Rule} (ht : t ∈ fixed)
    (h : Wins (Rule.len · (t.text ++ cs)) rules r t.text.length) : StopsBefore t cs := by
  constructor
  · intro c hc
    rw [← Bool.not_eq_true]
    intro hg
    cases cs with
    | nil => cases hc
    | cons c' cs =>
      cases hc
      obtain ⟨r', hr', m, hm, hlt⟩ := longer_of_grows ht hg cs
      exact absurd (h.le r' hr' m hm) (by omega)
  · rintro rfl ds rfl
    cases hk : commentEnd ds with
    | none => rfl
    | some k =>
      have hlen : Rule.blockComment.len (Token.div.text ++ '*' :: ds) = some (k + 2) :=
        Rule.len_iff.2 ⟨rfl, ds, k, rfl, hk, rfl⟩
      have := h.le .blockComment (by decide) _ hlen
      simp [Token.text] at this

theorem dropWhile_head {p : Char → Bool} {cs : List Char} : ∀ c ∈ (cs.dropWhile p).head?, p c = false := by
  intro c hc
  have := List.head?_dropWhile_not p cs
  rw [Option.mem_def] at hc
  rw [hc] at this
  exact this

/-- **One lexeme.** The longest match at the front of a text is a token or a gap. -/
theorem lexeme_of_wins {c : Char} {cs : List Char} {r : Rule} {k : ℕ} (h : Wins (Rule.len · (c :: cs)) rules r k) :
    ∃ s rest, c :: cs = s ++ rest ∧ s.length = k ∧
      ((∃ t, r.action s = some t ∧ Spells t s ∧ StopsBefore t rest) ∨ (r.action s = none ∧ Gap s rest)) := by
  obtain ⟨hmem, hlen⟩ := h.mem
  have hm := Rule.len_iff.1 hlen
  cases r with
  | literal t =>
    obtain ⟨⟨rest, hrest⟩, rfl⟩ := hm
    have ht : t ∈ fixed := by
      rcases List.mem_append.1 hmem with hmem | hmem
      · obtain ⟨t', ht', heq⟩ := List.mem_map.1 hmem
        cases heq
        exact ht'
      · simp at hmem
    rw [← hrest] at h ⊢
    exact ⟨t.text, rest, rfl, rfl, .inl ⟨t, rfl, .fixed t ht, stops_of_wins ht h⟩⟩
  | ident =>
    obtain ⟨hc, rfl⟩ := hm
    have hsplit : c :: cs = c :: cs.takeWhile isPart ++ cs.dropWhile isPart := by simp
    have hpart : ∀ d ∈ cs.takeWhile isPart, isPart d = true := fun d hd => List.mem_takeWhile_imp hd
    refine ⟨c :: cs.takeWhile isPart, cs.dropWhile isPart, hsplit, rfl, .inl ⟨_, rfl, ?_, dropWhile_head, by simp⟩⟩
    refine .ident c _ hc hpart fun t ht htext => ?_
    -- the rule of the keyword comes first
    have hkey : keyword t = true := by
      obtain ⟨c', ds, htext', hletter, -⟩ := text_first ht
      rw [htext] at htext'
      obtain ⟨rfl, -⟩ := List.cons.inj htext'
      exact hletter.symm.trans hc
    have hstop : StopsBefore t (cs.dropWhile isPart) := by
      refine ⟨fun d hd => ?_, fun hdiv => ?_⟩
      · rw [growsBy_keyword ht hkey]
        exact dropWhile_head d hd
      · rw [hdiv] at hkey
        exact absurd hkey (by decide)
    have hwins := longest_of_wins (wins_literal ht hstop)
    rw [htext, ← hsplit, longest_of_wins h] at hwins
    cases hwins
  | number =>
    obtain ⟨hc, rfl⟩ := hm
    exact ⟨c :: cs.takeWhile isDigit, cs.dropWhile isDigit, by simp, rfl,
      .inl ⟨_, rfl, .number c _ hc fun d hd => List.mem_takeWhile_imp hd, dropWhile_head, by simp⟩⟩
  | ws =>
    obtain ⟨hc, rfl⟩ := hm
    exact ⟨[c], cs, rfl, rfl, .inr ⟨rfl, .space c hc cs⟩⟩
  | lineComment =>
    obtain ⟨rfl, ds, rfl, rfl⟩ := hm
    refine ⟨'/' :: '/' :: ds.takeWhile (!isEol ·), ds.dropWhile (!isEol ·), by simp, rfl, .inr ⟨rfl, .line _ ?_ _ ?_⟩⟩
    · intro d hd
      simpa using List.mem_takeWhile_imp hd
    · intro d hd
      simpa using dropWhile_head d hd
  | blockComment =>
    obtain ⟨rfl, ds, m, rfl, hm, rfl⟩ := hm
    obtain ⟨body, rest, rfl, rfl, hbody⟩ := commentEnd_iff.1 hm
    exact ⟨'/' :: '*' :: (body ++ ['*', '/']), rest, by simp, by simp, .inr ⟨rfl, .block body hbody rest⟩⟩

/-! ## Whole texts -/

theorem spells_ne_nil {t : Token} {s : List Char} (h : Spells t s) : s ≠ [] := by
  cases h with
  | fixed _ ht =>
    obtain ⟨c, ds, htext, -⟩ := text_first ht
    rw [htext]
    exact List.cons_ne_nil c ds
  | ident => exact List.cons_ne_nil _ _
  | number => exact List.cons_ne_nil _ _

theorem gap_ne_nil {s cs : List Char} (h : Gap s cs) : s ≠ [] := by
  cases h <;> exact List.cons_ne_nil _ _

theorem written_of_lexemes (n : ℕ) : ∀ (cs : List Char) (ts : List Token), lexemes n cs = some ts → Written ts cs := by
  induction n with
  | zero =>
    intro cs ts h
    cases cs with
    | nil =>
      cases h
      exact .nil
    | cons c cs => cases h
  | succ n ih =>
    intro cs ts h
    cases cs with
    | nil =>
      cases h
      exact .nil
    | cons c cs =>
      simp only [lexemes, bind, Option.bind_eq_some_iff, Prod.exists, pure, Option.some.injEq] at h
      obtain ⟨r, k, hwins, ts', hrest, rfl⟩ := h
      obtain ⟨s, rest, heq, rfl, hpiece⟩ := lexeme_of_wins (longest_iff.1 hwins)
      rw [heq, List.drop_left] at hrest
      rw [heq, List.take_left]
      rcases hpiece with ⟨t, ht, hs, hend⟩ | ⟨hnone, hs⟩
      · rw [ht]
        exact .token hs hend (ih _ _ hrest)
      · rw [hnone]
        exact .gap hs (ih _ _ hrest)

/-- a lexeme that wins is read, and then the rest -/
theorem lexemes_append {s cs : List Char} (hs : s ≠ []) {r : Rule}
    (h : Wins (Rule.len · (s ++ cs)) rules r s.length) {n : ℕ} (hn : (s ++ cs).length ≤ n) {ts : List Token}
    (hrest : ∀ m, cs.length ≤ m → lexemes m cs = some ts) : lexemes n (s ++ cs) = some ((r.action s).toList ++ ts) := by
  obtain ⟨c, s, rfl⟩ := List.exists_cons_of_ne_nil hs
  have hpos : (c :: s ++ cs).length = s.length + 1 + cs.length := by simp; omega
  obtain ⟨m, rfl⟩ : ∃ m, n = m + 1 := ⟨n - 1, by omega⟩
  have hlongest := longest_iff.2 h
  rw [List.cons_append] at hlongest ⊢
  simp only [lexemes, hlongest, bind, Option.bind_some]
  rw [← List.cons_append, List.drop_left, List.take_left, hrest m (by omega)]
  rfl

theorem lexemes_of_written {ts : List Token} {cs : List Char} (h : Written ts cs) :
    ∀ n, cs.length ≤ n → lexemes n cs = some ts := by
  induction h with
  | nil =>
    intro n _
    cases n <;> rfl
  | token hs hend _ ih =>
    intro n hn
    obtain ⟨r, hwins, haction⟩ := wins_of_spells hs hend
    rw [lexemes_append (spells_ne_nil hs) hwins hn ih, haction]
    rfl
  | gap hs _ ih =>
    intro n hn
    obtain ⟨r, hwins, haction⟩ := wins_of_gap hs
    rw [lexemes_append (gap_ne_nil hs) hwins hn ih, haction]
    rfl

/-- **Lexer.** A text has the tokens `ts` exactly when it is written as them. -/
theorem lex_iff (cs : List Char) (ts : List Token) : lex cs = some ts ↔ Written ts cs :=
  ⟨written_of_lexemes _ cs ts, fun h => lexemes_of_written h _ le_rfl⟩

end MyLanguageLexer

end FpgaLearning.Compiler
