/-
Text as Python reads and writes it: text mode, lines, `strip`, `split` and `int(token, 16)`.

A text is a list of characters. Nothing in this file is about a particular file format. What a function makes of a decimal
digit past ASCII comes from the Unicode tables, which are the parameter `wide`.
- `lines_line`, `words_word`: how a text laid out line by line and word by word is taken apart again;
- `universalNewlines_textMode`: reading undoes what writing makes of line ends;
- `IsByte.int16`: two hexadecimal digits, in either case, read back as the byte.
-/
import Mathlib.Data.List.DropRight
import Mathlib.Tactic

namespace FpgaLearning.PyText

/-! ## Line ends -/

/-- writing in text mode: a line ends with the separator of the platform -/
def textMode (crlf : Bool) (t : List Char) : List Char :=
  t.flatMap fun c => if c = '\n' ∧ crlf then ['\r', '\n'] else [c]

/-- reading in text mode: every kind of line end becomes `\n` -/
def universalNewlines : List Char → List Char
  | [] => []
  | '\r' :: '\n' :: r => '\n' :: universalNewlines r
  | '\r' :: r => '\n' :: universalNewlines r
  | c :: r => c :: universalNewlines r

theorem universalNewlines_cons {c : Char} (hc : c ≠ '\r') (r : List Char) :
    universalNewlines (c :: r) = c :: universalNewlines r := by
  rw [universalNewlines]
  · exact fun _ h _ => hc h
  · exact hc

theorem universalNewlines_textMode (crlf : Bool) {t : List Char} (ht : '\r' ∉ t) :
    universalNewlines (textMode crlf t) = t := by
  induction t with
  | nil => rfl
  | cons c t ih =>
    have hc : c ≠ '\r' := fun h => ht (h ▸ List.mem_cons_self)
    have ih' := ih fun h => ht (List.mem_cons_of_mem c h)
    rw [textMode, List.flatMap_cons, ← textMode]
    split_ifs with hn
    · rw [List.cons_append, List.cons_append, List.nil_append, universalNewlines, ih', hn.1]
    · rw [List.cons_append, List.nil_append, universalNewlines_cons hc, ih']

/-- the lines of a text, without their ends -/
def lines : List Char → List (List Char)
  | [] => []
  | c :: r =>
    if c = '\n' then [] :: lines r
    else match lines r with
      | [] => [[c]]
      | l :: ls => (c :: l) :: ls

theorem lines_line {l : List Char} (hl : '\n' ∉ l) (r : List Char) : lines (l ++ '\n' :: r) = l :: lines r := by
  induction l with
  | nil => simp [lines]
  | cons c l ih =>
    have hc : c ≠ '\n' := fun h => hl (h ▸ List.mem_cons_self)
    rw [List.cons_append, lines, if_neg hc, ih fun h => hl (List.mem_cons_of_mem c h)]

/-- a last line need not end -/
theorem lines_last {l : List Char} (hl : '\n' ∉ l) (hne : l ≠ []) : lines l = [l] := by
  induction l with
  | nil => exact absurd rfl hne
  | cons c l ih =>
    have hc : c ≠ '\n' := fun h => hl (h ▸ List.mem_cons_self)
    rw [lines, if_neg hc]
    by_cases hl' : l = []
    · rw [hl', lines]
    · rw [ih (fun h => hl (List.mem_cons_of_mem c h)) hl']

/-! ## Words -/

/-- `str.isspace` of one character -/
def isSpace (c : Char) : Bool :=
  c.toNat ∈ [0x09, 0x0A, 0x0B, 0x0C, 0x0D, 0x1C, 0x1D, 0x1E, 0x1F, 0x20, 0x85, 0xA0, 0x1680, 0x2028, 0x2029, 0x202F,
    0x205F, 0x3000] || (0x2000 ≤ c.toNat && c.toNat ≤ 0x200A)

/-- `str.strip()` -/
def strip (t : List Char) : List Char := (t.dropWhile isSpace).rdropWhile isSpace

/-- `str.split()` -/
def words (t : List Char) : List (List Char) := (t.splitOnP isSpace).filter (· ≠ [])

/-- a word: not empty, and without blanks -/
structure IsWord (w : List Char) : Prop where
  ne_nil : w ≠ []
  solid : ∀ c ∈ w, isSpace c = false

theorem words_nil : words [] = [] := rfl

theorem words_blank {c : Char} (hc : isSpace c = true) (t : List Char) : words (c :: t) = words t := by
  have h := List.splitOnP_append_cons [] t hc
  simp only [List.nil_append, List.splitOnP_nil] at h
  simp [words, h]

theorem words_word {w : List Char} (hw : IsWord w) {c : Char} (hc : isSpace c = true) (t : List Char) :
    words (w ++ c :: t) = w :: words t := by
  rw [words, List.splitOnP_append_cons w t hc, List.splitOnP_eq_singleton hw.solid, List.filter_append]
  simp [words, hw.ne_nil]

theorem words_last {w : List Char} (hw : IsWord w) : words w = [w] := by
  simp [words, List.splitOnP_eq_singleton hw.solid, hw.ne_nil]

/-- words separated by single blanks -/
theorem words_intercalate {ws : List (List Char)} (hws : ∀ w ∈ ws, IsWord w) : words ([' '].intercalate ws) = ws := by
  induction ws with
  | nil => rfl
  | cons w ws ih =>
    have hw := hws w List.mem_cons_self
    have ih' := ih fun v hv => hws v (List.mem_cons_of_mem w hv)
    cases ws with
    | nil => simpa [List.intercalate] using words_last hw
    | cons v ws =>
      rw [List.intercalate_cons_cons, List.append_assoc, List.singleton_append, words_word hw rfl, ih']

theorem words_snoc_blank {c : Char} (hc : isSpace c = true) (t : List Char) : words (t ++ [c]) = words t := by
  rw [words, List.splitOnP_append_cons t [] hc, List.filter_append]
  simp [words]

theorem words_strip (t : List Char) : words (strip t) = words t := by
  have hright : ∀ t : List Char, words (t.rdropWhile isSpace) = words t := by
    intro t
    induction t using List.reverseRecOn with
    | nil => rfl
    | append_singleton t c ih =>
      rw [List.rdropWhile_concat]
      split_ifs with hc
      · rw [ih, words_snoc_blank hc]
      · rfl
  have hleft : ∀ t : List Char, words (t.dropWhile isSpace) = words t := by
    intro t
    induction t with
    | nil => rfl
    | cons c t ih =>
      rw [List.dropWhile_cons]
      split_ifs with hc
      · rw [ih, words_blank hc]
      · rfl
  rw [strip, hright, hleft]

/-- a text that starts with a letter has a word that starts with it -/
theorem words_solid {c : Char} (hc : isSpace c = false) (t : List Char) : ∃ w ws, words (c :: t) = (c :: w) :: ws := by
  cases hs : t.splitOnP isSpace with
  | nil => exact absurd hs (List.splitOnP_ne_nil isSpace t)
  | cons w ws => exact ⟨w, ws.filter (· ≠ []), by simp [words, List.splitOnP_cons_eq_if_modifyHead, hc, hs]⟩

/-! ## Texts of one line -/

/-- a text without line ends -/
def OneLine (t : List Char) : Prop := ∀ c ∈ t, c ≠ '\n' ∧ c ≠ '\r'

instance (t : List Char) : Decidable (OneLine t) := List.decidableBAll (fun c => c ≠ '\n' ∧ c ≠ '\r') t

theorem OneLine.append {s t : List Char} (hs : OneLine s) (ht : OneLine t) : OneLine (s ++ t) := fun c hc =>
  (List.mem_append.1 hc).elim (hs c) (ht c)

theorem OneLine.newline {t : List Char} (h : OneLine t) : '\n' ∉ t := fun hm => (h _ hm).1 rfl

theorem OneLine.return {t : List Char} (h : OneLine t) : '\r' ∉ t := fun hm => (h _ hm).2 rfl

theorem IsWord.oneLine {w : List Char} (h : IsWord w) : OneLine w := by
  intro c hc
  have hsolid := h.solid c hc
  constructor
  · rintro rfl
    exact absurd hsolid (by decide)
  · rintro rfl
    exact absurd hsolid (by decide)

theorem oneLine_intercalate {ws : List (List Char)} (hws : ∀ w ∈ ws, IsWord w) : OneLine ([' '].intercalate ws) := by
  induction ws with
  | nil => exact fun c hc => absurd hc List.not_mem_nil
  | cons w ws ih =>
    have hw := (hws w List.mem_cons_self).oneLine
    have ih' := ih fun v hv => hws v (List.mem_cons_of_mem w hv)
    cases ws with
    | nil => simpa [List.intercalate] using hw
    | cons v ws =>
      rw [List.intercalate_cons_cons]
      exact (hw.append (by decide)).append ih'

/-- decimal numbers -/
theorem oneLine_int (z : ℤ) : OneLine (toString z).toList := by
  have hnat : ∀ n : ℕ, OneLine n.repr.toList := by
    intro n c hc
    rw [Nat.toList_repr] at hc
    have hdigit := Nat.isDigit_of_mem_toDigits (by decide) (by decide) hc
    constructor
    · rintro rfl
      exact absurd hdigit (by decide)
    · rintro rfl
      exact absurd hdigit (by decide)
  cases z with
  | ofNat n => exact hnat n
  | negSucc n =>
    have hneg : (toString (Int.negSucc n)).toList = '-' :: (n + 1).repr.toList := by simp [toString, Int.repr]
    rw [hneg]
    exact OneLine.append (s := ['-']) (by decide) (hnat (n + 1))

/-! ## Numbers -/

/-- the value of an ASCII digit in base 16 -/
def hexValue (c : Char) : Option ℕ :=
  if '0' ≤ c ∧ c ≤ '9' then some (c.toNat - 48)
  else if 'a' ≤ c ∧ c ≤ 'f' then some (c.toNat - 87)
  else if 'A' ≤ c ∧ c ≤ 'F' then some (c.toNat - 55)
  else none

/-- digits with single underscores between them; `digit` says that a digit stands before -/
def digits (acc : ℕ) (digit : Bool) : List Char → Option ℕ
  | [] => if digit then some acc else none
  | '_' :: r => if digit then digits acc false r else none
  | c :: r => (hexValue c).bind fun d => digits (16 * acc + d) true r

/-- an optional `0x`, which one underscore may follow -/
def magnitude : List Char → Option ℕ
  | '0' :: x :: r =>
    if x = 'x' ∨ x = 'X' then
      match r with
      | '_' :: r => digits 0 false r
      | r => digits 0 false r
    else digits 0 false ('0' :: x :: r)
  | r => digits 0 false r

variable (wide : Char → Option (Fin 10))

/-- a decimal digit past ASCII counts as its value -/
def toAscii (c : Char) : Char :=
  if c.toNat < 128 then c
  else match wide c with
    | some d => d.val.digitChar
    | none => '?'

/-- `int(token, 16)` of a token without blanks; `none` is a ValueError -/
def int16 (token : List Char) : Option ℤ :=
  match token.map (toAscii wide) with
  | '+' :: r => (magnitude r).map fun n => (n : ℤ)
  | '-' :: r => (magnitude r).map fun n => -(n : ℤ)
  | r => (magnitude r).map fun n => (n : ℤ)

/-- `%02x`: two digits in base 16 -/
def hex02 (n : ℕ) : List Char := (Nat.toDigits 16 n).leftpad 2 '0'

/-- `%02X` -/
def hex02Upper (n : ℕ) : List Char := (hex02 n).map Char.toUpper

/-- a character that is a digit in base 16 and nothing else -/
structure IsHex (c : Char) (d : ℕ) : Prop where
  value : hexValue c = some d
  ascii : c.toNat < 128
  solid : isSpace c = false
  plain : c ∉ ['+', '-', 'x', 'X', '_', '#']

theorem isHex_digitChar {d : ℕ} (hd : d < 16) : IsHex d.digitChar d := by
  have h : ∀ d < 16, hexValue d.digitChar = some d ∧ d.digitChar.toNat < 128 ∧ isSpace d.digitChar = false ∧
      d.digitChar ∉ ['+', '-', 'x', 'X', '_', '#'] := by decide
  obtain ⟨h1, h2, h3, h4⟩ := h d hd
  exact ⟨h1, h2, h3, h4⟩

theorem isHex_toUpper {d : ℕ} (hd : d < 16) : IsHex d.digitChar.toUpper d := by
  have h : ∀ d < 16, hexValue d.digitChar.toUpper = some d ∧ d.digitChar.toUpper.toNat < 128 ∧
      isSpace d.digitChar.toUpper = false ∧ d.digitChar.toUpper ∉ ['+', '-', 'x', 'X', '_', '#'] := by decide
  obtain ⟨h1, h2, h3, h4⟩ := h d hd
  exact ⟨h1, h2, h3, h4⟩

/-- a token of two digits -/
def IsByte (token : List Char) (n : ℕ) : Prop :=
  ∃ x y a b, token = [x, y] ∧ IsHex x a ∧ IsHex y b ∧ n = 16 * a + b

theorem hex02_eq {n : ℕ} (hn : n < 256) : hex02 n = [(n / 16).digitChar, (n % 16).digitChar] := by
  by_cases h : n < 16
  · rw [hex02, Nat.toDigits_of_lt_base h, Nat.div_eq_of_lt h, Nat.mod_eq_of_lt h]
    rfl
  · rw [hex02, Nat.toDigits_of_base_le (by decide) (by omega), Nat.toDigits_of_lt_base (by omega)]
    rfl

theorem isByte_hex02 {n : ℕ} (hn : n < 256) : IsByte (hex02 n) n :=
  ⟨_, _, _, _, hex02_eq hn, isHex_digitChar (by omega), isHex_digitChar (by omega), by omega⟩

theorem isByte_hex02Upper {n : ℕ} (hn : n < 256) : IsByte (hex02Upper n) n :=
  ⟨_, _, _, _, by rw [hex02Upper, hex02_eq hn]; rfl, isHex_toUpper (by omega), isHex_toUpper (by omega), by omega⟩

variable {wide} {token : List Char} {n : ℕ}

theorem IsByte.isWord (h : IsByte token n) : IsWord token := by
  obtain ⟨x, y, a, b, rfl, hx, hy, -⟩ := h
  refine ⟨List.cons_ne_nil _ _, fun c hc => ?_⟩
  rcases List.mem_pair.1 hc with rfl | rfl
  · exact hx.solid
  · exact hy.solid

theorem IsByte.head?_ne (h : IsByte token n) : token.head? ≠ some '#' := by
  obtain ⟨x, y, a, b, rfl, hx, -, -⟩ := h
  have hpx := hx.plain
  simp only [List.mem_cons, List.not_mem_nil, or_false, not_or] at hpx
  simpa using hpx.2.2.2.2.2

/-- **Two digits** read back as the byte, whatever the Unicode tables say. -/
theorem IsByte.int16 (h : IsByte token n) : int16 wide token = some (n : ℤ) := by
  obtain ⟨x, y, a, b, rfl, hx, hy, rfl⟩ := h
  have hpx := hx.plain
  have hpy := hy.plain
  simp only [List.mem_cons, List.not_mem_nil, or_false, not_or] at hpx hpy
  have hmap : [x, y].map (toAscii wide) = [x, y] := by simp [toAscii, hx.ascii, hy.ascii]
  have hdigits : digits 0 false [x, y] = some (16 * a + b) := by
    rw [digits, hx.value]
    · simp only [Option.bind_some]
      rw [digits, hy.value]
      · simp [digits]
      · exact hpy.2.2.2.2.1
    · exact hpx.2.2.2.2.1
  have hmag : magnitude [x, y] = some (16 * a + b) := by
    by_cases h0 : x = '0'
    · rw [h0, magnitude, if_neg (by tauto), ← h0]
      · exact hdigits
      · exact fun _ he => absurd he.symm (List.cons_ne_nil _ _)
    · rw [magnitude]
      · exact hdigits
      · exact fun _ _ he => h0 (List.cons.inj he).1
  rw [PyText.int16, hmap]
  split
  · next he => exact absurd (List.cons.inj he).1 hpx.1
  · next he => exact absurd (List.cons.inj he).1 hpx.2.1
  · rw [hmag]
    rfl

end FpgaLearning.PyText
