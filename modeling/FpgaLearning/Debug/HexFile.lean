/-
The hex files of `uart_debug.py`: `parse_hex_file` and `write_hex_file`.

A file is its text, opening it is left out. The reader is lenient: what stands behind a `#` and what is not a number is
skipped. A number that is no byte is an error that ends the reading.
- `parseLine_eq`: a line is its words, the checks before the loop over them change nothing;
- `Reads`: what a list of lines is read as, built up line by line from the end;
- `parse_write`: what `write_hex_file` writes is read back.
-/
import FpgaLearning.Core.PyText
import FpgaLearning.Debug.Tool

namespace FpgaLearning.Debug

open FpgaLearning.Memory FpgaLearning.PyText

namespace HexFile

variable (wide : Char → Option (Fin 10))

/-! ## `parse_hex_file` -/

/-- the loop over the tokens of line `lineNum` -/
def parseTokens (lineNum : ℕ) : List (List Char) → Except Failure (List ℕ)
  | [] => return []
  | token :: rest =>
    if token.head? = some '#' then return []
    else match int16 wide token with
      | none => parseTokens lineNum rest
      | some byteVal =>
        if 0 ≤ byteVal ∧ byteVal ≤ 255 then do
          let bytes ← parseTokens lineNum rest
          return byteVal.toNat :: bytes
        else throw (.debugProtocolError
          ("Invalid byte value at line " ++ toString lineNum ++ ": " ++ String.ofList token))

def parseLine (lineNum : ℕ) (line : List Char) : Except Failure (List ℕ) :=
  if strip line = [] ∨ (strip line).head? = some '#' then return []
  else parseTokens wide lineNum (words (strip line))

/-- the loop over the lines, from line `lineNum` on -/
def readLines (lineNum : ℕ) : List (List Char) → Except Failure (List ℕ)
  | [] => return []
  | line :: rest => do
    let bytes ← parseLine wide lineNum line
    let more ← readLines (lineNum + 1) rest
    return bytes ++ more

/-- the handler around the loops -/
def asParseFailure : Failure → Failure
  | .debugProtocolError msg => .debugProtocolError ("Failed to parse file: " ++ msg)
  | .valueError msg => .debugProtocolError ("Failed to parse file: " ++ msg)
  | .structError msg => .debugProtocolError ("Failed to parse file: " ++ msg)

def parseHexFile (text : List Char) : Except Failure (List Byte) :=
  match readLines wide 1 (lines (universalNewlines text)) with
  | .error x => .error (asParseFailure x)
  | .ok allBytes => pyBytes allBytes

/-! ## `write_hex_file` -/

/-- `' '.join([f"{b:02X}" for b in chunk])` -/
def hexLine (chunk : List Byte) : List Char := [' '].intercalate (chunk.map fun b => hex02Upper b.toNat)

/-- the text written; the range over the data is empty for a negative `bytesPerLine` -/
def writeHexFile (data : List Byte) (startAddr bytesPerLine : ℤ) : Except Failure (List Char) :=
  if bytesPerLine = 0 then .error (.valueError "range() arg 3 must not be zero")
  else .ok ("# Dump from memory\n".toList ++ "# Format: hex bytes separated by spaces\n".toList ++
    ("# Start addr: " ++ toString startAddr ++ " Length : " ++ toString data.length ++ "\n\n").toList ++
    (pyRange 0 data.length bytesPerLine.toNat).flatMap
      (fun i => hexLine (slice data i (min data.length (i + bytesPerLine.toNat))) ++ ['\n']) ++
    "\n# End of dump\n".toList)

/-! ## Reading -/

variable {wide} {n : ℕ}

/-- **Lines.** A line is its words; the checks before the loop over them change nothing. -/
theorem parseLine_eq (line : List Char) : parseLine wide n line = parseTokens wide n (words line) := by
  rw [parseLine, words_strip]
  split_ifs with h
  · rw [← words_strip]
    rcases h with h | h
    · rw [h, words_nil, parseTokens]
    · obtain ⟨r, hr⟩ : ∃ r, strip line = '#' :: r := List.head?_eq_some_iff.1 h
      obtain ⟨w, ws, hws⟩ := words_solid (c := '#') (by decide) r
      rw [hr, hws, parseTokens, List.head?_cons, if_pos rfl]
  · rfl

/-- a line of two-digit numbers -/
theorem parseTokens_bytes {tokens : List (List Char)} {bytes : List ℕ} (h : List.Forall₂ IsByte tokens bytes)
    (hb : ∀ b ∈ bytes, b < 256) : parseTokens wide n tokens = .ok bytes := by
  induction h with
  | nil => rfl
  | @cons token b tokens bytes hbyte _ ih =>
    have hlt : b < 256 := hb b List.mem_cons_self
    have hrange : (0 : ℤ) ≤ b ∧ (b : ℤ) ≤ 255 := by omega
    have hplain : token.head? ≠ some '#' := hbyte.head?_ne
    rw [parseTokens, if_neg hplain, hbyte.int16]
    simp only [hrange, and_self, ite_true, Int.toNat_natCast]
    rw [ih fun b hb' => hb b (List.mem_cons_of_mem _ hb')]
    rfl

theorem parseLine_comment {line : List Char} (h : line.head? = some '#') : parseLine wide n line = .ok [] := by
  obtain ⟨r, rfl⟩ := List.head?_eq_some_iff.1 h
  obtain ⟨w, ws, hws⟩ := words_solid (c := '#') (by decide) r
  rw [parseLine_eq, hws, parseTokens, List.head?_cons, if_pos rfl]
  rfl

/-- what a list of lines is read as -/
def Reads (ls : List (List Char)) (bytes : List ℕ) : Prop :=
  ∀ (wide : Char → Option (Fin 10)) (n : ℕ), readLines wide n ls = .ok bytes

theorem Reads.nil : Reads [] [] := fun _ _ => rfl

theorem Reads.cons {l : List Char} {ls : List (List Char)} {b bs : List ℕ}
    (h : ∀ (wide : Char → Option (Fin 10)) (n : ℕ), parseLine wide n l = .ok b) (hs : Reads ls bs) :
    Reads (l :: ls) (b ++ bs) := by
  intro wide n
  rw [readLines, h, hs wide (n + 1)]
  rfl

/-- comments and blank lines are skipped -/
theorem Reads.skip {l : List Char} {ls : List (List Char)} {bs : List ℕ} (h : l = [] ∨ l.head? = some '#')
    (hs : Reads ls bs) : Reads (l :: ls) bs := by
  refine Reads.cons (b := []) (fun wide n => ?_) hs
  rcases h with rfl | h
  · rfl
  · exact parseLine_comment h

/-- one more line of text -/
theorem Reads.line {l r : List Char} {b bs : List ℕ} (hl : OneLine l)
    (h : ∀ (wide : Char → Option (Fin 10)) (n : ℕ), parseLine wide n l = .ok b) (hs : Reads (lines r) bs) :
    Reads (lines (l ++ '\n' :: r)) (b ++ bs) := by
  rw [lines_line hl.newline]
  exact Reads.cons h hs

/-- one more comment or blank line -/
theorem Reads.skipLine {l r : List Char} {bs : List ℕ} (hl : OneLine l) (h : l = [] ∨ l.head? = some '#')
    (hs : Reads (lines r) bs) : Reads (lines (l ++ '\n' :: r)) bs := by
  rw [lines_line hl.newline]
  exact Reads.skip h hs

/-- a row for each item -/
theorem Reads.rows {α : Type*} {row : α → List Char} {val : α → List ℕ} (hone : ∀ x, OneLine (row x))
    (hrow : ∀ x (wide : Char → Option (Fin 10)) (n : ℕ), parseLine wide n (row x) = .ok (val x)) (xs : List α)
    {r : List Char} {bs : List ℕ} (hs : Reads (lines r) bs) :
    Reads (lines (xs.flatMap (fun x => row x ++ ['\n']) ++ r)) (xs.flatMap val ++ bs) := by
  induction xs with
  | nil => exact hs
  | cons x xs ih =>
    simp only [List.flatMap_cons, List.append_assoc, List.cons_append, List.nil_append]
    exact Reads.line (hone x) (hrow x) ih

/-- **A file** is read as its lines say. -/
theorem parse_of_reads (crlf : Bool) {text : List Char} (hcr : '\r' ∉ text) {bytes : List Byte}
    (h : Reads (lines text) (bytes.map BitVec.toNat)) : parseHexFile wide (textMode crlf text) = .ok bytes := by
  rw [parseHexFile, universalNewlines_textMode crlf hcr, h wide 1]
  exact pyBytes_toNat bytes

/-! ## What `write_hex_file` writes -/

theorem parseLine_hexLine (chunk : List Byte) :
    parseLine wide n (hexLine chunk) = .ok (chunk.map BitVec.toNat) := by
  have hbytes : List.Forall₂ IsByte (chunk.map fun b => hex02Upper b.toNat) (chunk.map BitVec.toNat) := by
    rw [List.forall₂_map_left_iff, List.forall₂_map_right_iff]
    exact List.forall₂_same.2 fun b _ => isByte_hex02Upper b.isLt
  have hwords : words (hexLine chunk) = chunk.map fun b => hex02Upper b.toNat := by
    refine words_intercalate fun w hw => ?_
    obtain ⟨b, -, rfl⟩ := List.mem_map.1 hw
    exact (isByte_hex02Upper b.isLt).isWord
  rw [parseLine_eq, hwords]
  refine parseTokens_bytes hbytes fun b hb => ?_
  obtain ⟨x, -, rfl⟩ := List.mem_map.1 hb
  exact x.isLt

theorem oneLine_hexLine (chunk : List Byte) : OneLine (hexLine chunk) := by
  refine oneLine_intercalate fun w hw => ?_
  obtain ⟨b, -, rfl⟩ := List.mem_map.1 hw
  exact (isByte_hex02Upper b.isLt).isWord

/-- `m` chunks of `k` bytes from byte `i` on -/
theorem chunks_eq (data : List Byte) (k : ℕ) (m i : ℕ) (h : data.length ≤ i + m * k) :
    (List.range' i m k).flatMap (fun i => slice data i (min data.length (i + k))) = data.drop i := by
  induction m generalizing i with
  | zero => simpa using (List.drop_eq_nil_of_le (by omega)).symm
  | succ m ih =>
    rw [List.range'_succ, List.flatMap_cons, ih (i + k) (by rw [Nat.add_mul] at h; omega), slice, ← List.drop_drop]
    rcases Nat.le_total (i + k) data.length with hk | hk
    · rw [Nat.min_eq_right hk, Nat.add_sub_cancel_left, List.take_append_drop]
    · have hend : (data.drop i).drop k = [] := by
        rw [List.drop_drop]
        exact List.drop_eq_nil_of_le hk
      rw [Nat.min_eq_left hk, hend, List.append_nil, List.take_of_length_le (by simp)]

/-- the line with the start address, without its marker -/
def startLine (startAddr : ℤ) (data : List Byte) : List Char :=
  "# Start addr: ".toList ++ ((toString startAddr).toList ++ (" Length : ".toList ++ (toString data.length).toList))

theorem startLine_eq (startAddr : ℤ) (data : List Byte) : startLine startAddr data = "# Start addr: ".toList ++
    ((toString startAddr).toList ++ (" Length : ".toList ++ (toString data.length).toList)) := rfl

/-- the text line by line -/
theorem writeHexFile_eq (data : List Byte) (startAddr : ℤ) {bytesPerLine : ℤ} (h : bytesPerLine ≠ 0) :
    writeHexFile data startAddr bytesPerLine = .ok ("# Dump from memory".toList ++ '\n' ::
      ("# Format: hex bytes separated by spaces".toList ++ '\n' :: (startLine startAddr data ++ '\n' :: ([] ++ '\n' ::
      ((pyRange 0 data.length bytesPerLine.toNat).flatMap
        (fun i => hexLine (slice data i (min data.length (i + bytesPerLine.toNat))) ++ ['\n']) ++
      ([] ++ '\n' :: ("# End of dump".toList ++ '\n' :: []))))))) := by
  have h1 : "# Dump from memory\n".toList = "# Dump from memory".toList ++ ['\n'] := by simp
  have h2 : "# Format: hex bytes separated by spaces\n".toList =
    "# Format: hex bytes separated by spaces".toList ++ ['\n'] := by simp
  have h3 : ("# Start addr: " ++ toString startAddr ++ " Length : " ++ toString data.length ++ "\n\n").toList =
      startLine startAddr data ++ ['\n', '\n'] := by
    have hends : "\n\n".toList = ['\n', '\n'] := by simp
    rw [startLine_eq, String.toList_append, String.toList_append, String.toList_append, String.toList_append, hends]
    simp only [List.append_assoc]
  have h4 : "\n# End of dump\n".toList = '\n' :: ("# End of dump".toList ++ ['\n']) := by simp
  rw [writeHexFile, if_neg h, h1, h2, h3, h4]
  simp only [List.append_assoc, List.cons_append, List.nil_append]

theorem oneLine_startLine (startAddr : ℤ) (data : List Byte) : OneLine (startLine startAddr data) :=
  .append (by decide +kernel) (.append (oneLine_int _) (.append (by decide +kernel) (oneLine_int data.length)))

theorem chunks_all (data : List Byte) {k : ℕ} (hk : 0 < k) :
    (pyRange 0 data.length k).flatMap (fun i => slice data i (min data.length (i + k))) = data := by
  have hcover := Nat.lt_mul_div_succ (data.length + (k - 1)) hk
  rw [pyRange, chunks_eq, List.drop_zero]
  rw [Nat.mul_add, Nat.mul_one] at hcover
  rw [Nat.mul_comm, Nat.sub_zero]
  omega

/-- **Dump files.** What `write_hex_file` writes is read back, for either kind of line end. -/
theorem parse_write (wide : Char → Option (Fin 10)) (crlf : Bool) (data : List Byte) (startAddr : ℤ) {bytesPerLine : ℤ}
    (h : 0 < bytesPerLine) : ∃ text, writeHexFile data startAddr bytesPerLine = .ok text ∧
      parseHexFile wide (textMode crlf text) = .ok data := by
  refine ⟨_, writeHexFile_eq data startAddr h.ne', parse_of_reads crlf ?_ ?_⟩
  · have hstart := (oneLine_startLine startAddr data).return
    have hrows := fun i => (oneLine_hexLine (slice data i (min data.length (i + bytesPerLine.toNat)))).return
    simp [hstart, hrows]
  · have hchunks : (pyRange 0 data.length bytesPerLine.toNat).flatMap
        (fun i => (slice data i (min data.length (i + bytesPerLine.toNat))).map BitVec.toNat) = data.map BitVec.toNat := by
      rw [← List.map_flatMap, chunks_all data (by omega)]
    have hdump : OneLine "# Dump from memory".toList := by decide +kernel
    have hformat : OneLine "# Format: hex bytes separated by spaces".toList := by decide +kernel
    have hlast : OneLine "# End of dump".toList := by decide +kernel
    have hnil : Reads (lines []) [] := Reads.nil
    have hend := hnil.skipLine hlast (.inr (by simp))
    have hrows := Reads.rows (fun i => oneLine_hexLine (slice data i (min data.length (i + bytesPerLine.toNat))))
      (fun i _ _ => parseLine_hexLine _) (pyRange 0 data.length bytesPerLine.toNat)
      (hend.skipLine (l := []) (by decide) (.inl rfl))
    rw [hchunks, List.append_nil] at hrows
    have hstart := Reads.skipLine (oneLine_startLine startAddr data) (.inr (by simp [startLine_eq]))
      (hrows.skipLine (l := []) (by decide) (.inl rfl))
    exact .skipLine hdump (.inr (by simp)) (.skipLine hformat (.inr (by simp)) hstart)

end HexFile

end FpgaLearning.Debug
