/-
`HexExport.cpp`: the compiler's hex file, and the way of a program through the files into the memory of the board.

`saveHex` writes the four bytes of each word on a line, least significant first, between two comments. The reader is
`parse_hex_file` of the host tool, the only other party to the format.
- `parse_saveHex`: the reader gets the bytes of the words, little-endian, and nothing else;
- `word_write`: bytes stored in that order from a word boundary on are the words again;
- `hex_round_trip`: both writers and the reader, and the upload behind it.
-/
import FpgaLearning.Debug.HexFile
import FpgaLearning.Debug.Upload

namespace FpgaLearning.Compiler

open FpgaLearning.Memory FpgaLearning.PyText FpgaLearning.Debug FpgaLearning.Debug.HexFile

/-- the four bytes of a word on one line -/
def hexWord (word : Word) : List Char :=
  let byte0 := word &&& 0xFF
  let byte1 := (word >>> 8) &&& 0xFF
  let byte2 := (word >>> 16) &&& 0xFF
  let byte3 := (word >>> 24) &&& 0xFF
  hex02 byte0.toNat ++ [' '] ++ hex02 byte1.toNat ++ [' '] ++ hex02 byte2.toNat ++ [' '] ++ hex02 byte3.toNat ++ [' ']

/-- `saveHex`: the text of the file, or what is thrown -/
def saveHex (program : List Word) (depth : ℕ) : Except String (List Char) :=
  if program.length > depth then .error "Program size exceeds specified depth"
  else .ok ("# Program begin\n\n".toList ++ program.flatMap (fun word => hexWord word ++ ['\n']) ++
    "\n\n# Program end".toList)

/-- the bytes of a word, least significant first -/
def littleEndian (w : Word) : List Byte := [lane w 0, lane w 1, lane w 2, lane w 3]

/-! ## Reading the file -/

theorem byte_toNat (w : Word) (k : ℕ) : ((w >>> k) &&& 0xFF).toNat = (w.extractLsb' k 8).toNat := by
  have hmask : w.toNat >>> k &&& 0xFF = w.toNat >>> k % 2 ^ 8 := Nat.and_two_pow_sub_one_eq_mod _ 8
  simpa using hmask

/-- the line, with the bytes as lanes -/
theorem hexWord_eq (w : Word) : hexWord w = hex02 (lane w 0).toNat ++ ' ' :: (hex02 (lane w 1).toNat ++ ' ' ::
    (hex02 (lane w 2).toNat ++ ' ' :: (hex02 (lane w 3).toNat ++ ' ' :: []))) := by
  have h0 : (w &&& 0xFF).toNat = (lane w 0).toNat := by
    have hshift := byte_toNat w 0
    rwa [BitVec.ushiftRight_zero] at hshift
  have h1 : ((w >>> 8) &&& 0xFF).toNat = (lane w 1).toNat := byte_toNat w 8
  have h2 : ((w >>> 16) &&& 0xFF).toNat = (lane w 2).toNat := byte_toNat w 16
  have h3 : ((w >>> 24) &&& 0xFF).toNat = (lane w 3).toNat := byte_toNat w 24
  simp only [hexWord, h0, h1, h2, h3, List.append_assoc, List.cons_append, List.nil_append]

theorem words_hexWord (w : Word) : words (hexWord w) = (littleEndian w).map fun b => hex02 b.toNat := by
  have hword : ∀ b : Byte, IsWord (hex02 b.toNat) := fun b => (isByte_hex02 b.isLt).isWord
  rw [hexWord_eq, words_word (hword _) rfl, words_word (hword _) rfl, words_word (hword _) rfl,
    words_word (hword _) rfl, words_nil]
  rfl

theorem oneLine_hexWord (w : Word) : OneLine (hexWord w) := by
  have hword : ∀ b : Byte, OneLine (hex02 b.toNat) := fun b => (isByte_hex02 b.isLt).isWord.oneLine
  have hblank : ∀ {t}, OneLine t → OneLine (' ' :: t) := fun ht => OneLine.append (s := [' ']) (by decide) ht
  rw [hexWord_eq]
  exact (hword _).append (hblank ((hword _).append (hblank ((hword _).append (hblank ((hword _).append (by decide)))))))

theorem parseLine_hexWord (w : Word) (wide : Char → Option (Fin 10)) (n : ℕ) :
    parseLine wide n (hexWord w) = .ok ((littleEndian w).map BitVec.toNat) := by
  have hbytes : List.Forall₂ IsByte ((littleEndian w).map fun b => hex02 b.toNat) ((littleEndian w).map BitVec.toNat) := by
    rw [List.forall₂_map_left_iff, List.forall₂_map_right_iff]
    exact List.forall₂_same.2 fun b _ => isByte_hex02 b.isLt
  rw [parseLine_eq, words_hexWord]
  refine parseTokens_bytes hbytes fun b hb => ?_
  obtain ⟨x, -, rfl⟩ := List.mem_map.1 hb
  exact x.isLt

/-- **Program files.** The reader gets the bytes of the words in little-endian order and nothing else. -/
theorem parse_saveHex (wide : Char → Option (Fin 10)) (crlf : Bool) {program : List Word} {depth : ℕ}
    (h : program.length ≤ depth) : ∃ text, saveHex program depth = .ok text ∧
      parseHexFile wide (textMode crlf text) = .ok (program.flatMap littleEndian) := by
  refine ⟨_, if_neg (Nat.not_lt.2 h), ?_⟩
  have hbegin : "# Program begin\n\n".toList = "# Program begin".toList ++ '\n' :: ([] ++ '\n' :: []) := by simp
  have hend : "\n\n# Program end".toList = [] ++ '\n' :: ([] ++ '\n' :: "# Program end".toList) := by simp
  have hfirst : OneLine "# Program begin".toList := by decide +kernel
  have hlast : OneLine "# Program end".toList := by decide +kernel
  rw [hbegin, hend]
  refine parse_of_reads crlf ?_ ?_
  · have hrows := fun w => (oneLine_hexWord w).return
    simp [hrows]
  · have hread : Reads (lines "# Program end".toList) [] := by
      rw [lines_last hlast.newline (by simp)]
      exact .skip (.inr (by simp)) .nil
    have hrows := Reads.rows oneLine_hexWord parseLine_hexWord program
      ((hread.skipLine (l := []) (by decide) (.inl rfl)).skipLine (l := []) (by decide) (.inl rfl))
    rw [← List.map_flatMap, List.append_nil] at hrows
    have hall := (hrows.skipLine (l := []) (by decide) (.inl rfl)).skipLine hfirst (.inr (by simp))
    simpa only [List.append_assoc, List.cons_append, List.nil_append] using hall

/-! ## The words in memory -/

/-- the word of four bytes from `a` on, as the memories hold it -/
def wordAt (mem : Word → Byte) (a : Word) : Word := joinLanes fun i => mem (a + i.setWidth 32)

/-- on a word boundary this is the word of the memory -/
theorem wordAt_byteAt (m : WordMem) {a : Word} (ha : laneIndex a = 0) : wordAt (byteAt m) a = m (wordIndex a) := by
  have hlane : ∀ i : BitVec 2, byteAt m (a + i.setWidth 32) = lane (m (wordIndex a)) i := by
    intro i
    have hi := i.isLt
    have ha' : a.toNat % 4 = 0 := by simpa [laneIndex] using congrArg BitVec.toNat ha
    have hadd : (a + i.setWidth 32).toNat = a.toNat + i.toNat := by
      rw [BitVec.toNat_add, BitVec.toNat_setWidth]
      omega
    have hword : wordIndex (a + i.setWidth 32) = wordIndex a := by
      apply BitVec.eq_of_toNat_eq
      simp only [wordIndex, BitVec.extractLsb'_toNat, hadd, Nat.shiftRight_eq_div_pow]
      omega
    have hlane : laneIndex (a + i.setWidth 32) = i := by
      apply BitVec.eq_of_toNat_eq
      simp only [laneIndex, BitVec.extractLsb'_toNat, hadd, Nat.shiftRight_eq_div_pow]
      omega
    rw [byteAt, hword, hlane]
  rw [wordAt, funext hlane, joinLanes_lane]

theorem getElem_flatMap_littleEndian (program : List Word) {i : ℕ} (hi : i < program.length) (k : BitVec 2) :
    (program.flatMap littleEndian).getD (4 * i + k.toNat) 0 = lane program[i] k := by
  induction program generalizing i with
  | nil => exact absurd hi (Nat.not_lt_zero i)
  | cons w ws ih =>
    rw [List.flatMap_cons]
    cases i with
    | zero =>
      rcases lane_index k with rfl | rfl | rfl | rfl <;> rfl
    | succ i =>
      have hlen : (littleEndian w).length = 4 := rfl
      rw [List.getD_eq_getElem?_getD, List.getElem?_append_right (by omega), hlen,
        show 4 * (i + 1) + k.toNat - 4 = 4 * i + k.toNat by omega, ← List.getD_eq_getElem?_getD]
      exact ih (Nat.lt_of_succ_lt_succ hi)

theorem length_flatMap_littleEndian (program : List Word) :
    (program.flatMap littleEndian).length = 4 * program.length := by
  induction program with
  | nil => rfl
  | cons w ws ih =>
    rw [List.flatMap_cons, List.length_append, ih, List.length_cons]
    simp only [littleEndian, List.length_cons, List.length_nil]
    omega

theorem word_write (b : Board) (t : Target) {program : List Word} {a : ℕ} (ha : a + 4 * program.length ≤ 2 ^ 32)
    {i : ℕ} (hi : i < program.length) :
    wordAt ((b.write t (BitVec.ofNat 32 a) (program.flatMap littleEndian)).mem t) (BitVec.ofNat 32 (a + 4 * i)) =
      program[i] := by
  have hlane : ∀ k : BitVec 2, (b.write t (BitVec.ofNat 32 a) (program.flatMap littleEndian)).mem t
      (BitVec.ofNat 32 (a + 4 * i) + k.setWidth 32) = lane program[i] k := by
    intro k
    have hk := k.isLt
    have hoff : (BitVec.ofNat 32 (a + 4 * i) + k.setWidth 32 - BitVec.ofNat 32 a).toNat = 4 * i + k.toNat := by
      bv_omega
    have hlt : 4 * i + k.toNat < (program.flatMap littleEndian).length := by
      rw [length_flatMap_littleEndian]
      omega
    simp only [Board.write, true_and, hoff, if_pos hlt]
    exact getElem_flatMap_littleEndian program hi k
  rw [wordAt, funext hlane, joinLanes_lane]

/-- **Hex files.** What the compiler writes is read as the little-endian bytes of its words, and uploaded to a word boundary
these are the words again; what a dump writes is read as its bytes. -/
theorem hex_round_trip (wide : Char → Option (Fin 10)) (crlf : Bool) :
    (∀ (program : List Word) (depth : ℕ), program.length ≤ depth → ∃ text, saveHex program depth = .ok text ∧
      parseHexFile wide (textMode crlf text) = .ok (program.flatMap littleEndian) ∧
      ∀ (b : Board) (t : Target) (a : ℕ), program ≠ [] → a % 4 = 0 → a + 4 * program.length ≤ 2 ^ 32 →
        (uploadTo t (program.flatMap littleEndian) a).Meets (fun ok b' => ok = true ∧
          ∀ m : WordMem, byteAt m = b'.mem t →
            ∀ i (hi : i < program.length), m (wordIndex (BitVec.ofNat 32 (a + 4 * i))) = program[i]) b) ∧
    ∀ (data : List Byte) (startAddr bytesPerLine : ℤ), 0 < bytesPerLine →
      ∃ text, writeHexFile data startAddr bytesPerLine = .ok text ∧
        parseHexFile wide (textMode crlf text) = .ok data := by
  refine ⟨fun program depth h => ?_, fun data startAddr bytesPerLine h => parse_write wide crlf data startAddr h⟩
  obtain ⟨text, htext, hparse⟩ := parse_saveHex wide crlf h
  refine ⟨text, htext, hparse, fun b t a hne halign ha => ?_⟩
  have hlen := length_flatMap_littleEndian program
  have hbytes : program.flatMap littleEndian ≠ [] := fun he => hne (by
    have hzero : 4 * program.length = 0 := by rw [← hlen, he, List.length_nil]
    exact List.eq_nil_of_length_eq_zero (by omega))
  rw [uploadTo_eq]
  refine meets_upload hbytes (by omega) ⟨rfl, fun m hm i hi => ?_⟩
  have hboundary : laneIndex (BitVec.ofNat 32 (a + 4 * i)) = 0 := by
    apply BitVec.eq_of_toNat_eq
    have hmod : (a + 4 * i) % 2 ^ 32 % 4 = 0 := by omega
    simpa [laneIndex] using hmod
  rw [← wordAt_byteAt m hboundary, hm]
  exact word_write _ t ha hi

/-- one word at address 8, and a dump of three bytes in lines of two -/
theorem hex_round_trip_word :
    (∃ text, saveHex [0x1234ABCD#32] 8192 = .ok text ∧
      parseHexFile (fun _ => none) (textMode true text) = .ok [0xCD, 0xAB, 0x34, 0x12] ∧
      (uploadTo .prog [0xCD, 0xAB, 0x34, 0x12] 8).Meets (fun ok b' => ok = true ∧
        ∀ m : WordMem, byteAt m = b'.mem .prog → m (wordIndex (BitVec.ofNat 32 8)) = 0x1234ABCD#32)
        ⟨false, fun _ _ => 0, fun _ => [], 0⟩) ∧
    ∃ text, writeHexFile [0x00, 0x0A, 0xFF] (-4) 2 = .ok text ∧
      parseHexFile (fun _ => none) (textMode true text) = .ok [0x00, 0x0A, 0xFF] := by
  obtain ⟨hprogram, hdump⟩ := hex_round_trip (fun _ => none) true
  obtain ⟨text, htext, hparse, hupload⟩ := hprogram [0x1234ABCD#32] 8192 (by decide)
  refine ⟨⟨text, htext, hparse, ?_⟩, hdump _ _ _ (by decide)⟩
  exact (hupload _ .prog 8 (List.cons_ne_nil _ _) (by decide) (by decide)).mono
    fun ok b' h => ⟨h.1, fun m hm => h.2 m hm 0 (by decide)⟩

end FpgaLearning.Compiler
