/-
What the machine does with the items of a listing.

- `Moved p n m s s'`: the machine has come to word `p` with `n` words on the stack. It has not touched the frame pointer,
  the first `m` words of the stack and the RAM above the stack.
- One rule for each group of items: an expression, a jump, a branch, the ways to store.
-/
import FpgaLearning.Compiler.Layout
import FpgaLearning.Compiler.Meaning

namespace FpgaLearning.Compiler

open FpgaLearning.Memory FpgaLearning.Stack FpgaLearning.Stack.Arch FpgaLearning.Traced

/-! ## States -/

/-- the limits of a run: 200 words of stack, frames in the RAM -/
structure Safe (s : Arch) : Prop where
  sp : s.sp.toNat ≤ 200
  fp : s.fp.toNat < 2 ^ 15

/-- word `p` is next, with `n` words on the stack -/
structure At (p n : ℕ) (s : Arch) : Prop where
  pc : s.pc = BitVec.ofNat 32 p
  sp : s.sp = BitVec.ofNat 32 n
  room : n ≤ 200

structure Moved (p n m : ℕ) (s s' : Arch) : Prop where
  pos : At p n s'
  fp : s'.fp = s.fp
  words : ∀ k < 2 ^ 15, k < m ∨ 200 ≤ k → s'.word k = s.word k

variable {z : DivByZero} {rom : Word → Word} {addr : Ident → Option ℕ} {decl : Ident → Option (ℕ × Scope)} {e : Ast}
  {ws : List Opcode} {is : List Item} {l : Label} {p p' n n' m m' k a : ℕ} {w op : Word} {s s' s'' : Arch}

theorem Moved.trans (h : Moved p n m s s') (h' : Moved p' n' m s' s'') : Moved p' n' m s s'' where
  pos := h'.pos
  fp := h'.fp.trans h.fp
  words k hk hm := (h'.words k hk hm).trans (h.words k hk hm)

theorem Moved.mono (hm : m' ≤ m) (h : Moved p n m s s') : Moved p n m' s s' where
  pos := h.pos
  fp := h.fp
  words k hk hkm := h.words k hk (by omega)

/-- one more word on the stack of a safe run -/
theorem At.push (hs : Safe s') (hn : n ≤ 200) (hpc : s'.pc = BitVec.ofNat 32 p) (hsp : s'.sp = BitVec.ofNat 32 (n + 1)) :
    At p (n + 1) s' := by
  refine ⟨hpc, hsp, ?_⟩
  have hle := hs.sp
  rw [hsp, BitVec.toNat_ofNat, Nat.mod_eq_of_lt (by omega)] at hle
  exact hle

theorem word_put_ne {mem : RamWords} (hmem : s'.mem = put mem n w) (hn : n < 2 ^ 15) (hk : k < 2 ^ 15) (hne : k ≠ n) :
    s'.word k = mem (BitVec.ofNat 15 k) := by
  rw [word, hmem, put, Function.update_of_ne]
  intro heq
  have hnat := congrArg BitVec.toNat heq
  rw [BitVec.toNat_ofNat, BitVec.toNat_ofNat, Nat.mod_eq_of_lt hn, Nat.mod_eq_of_lt hk] at hnat
  exact hne hnat

/-- a push -/
theorem Moved.push (hat : At p n s) (hs : Safe s') (hpc : s'.pc = s.pc + 1) (hsp : s'.sp = BitVec.ofNat 32 (n + 1))
    (hfp : s'.fp = s.fp) (hmem : s'.mem = put s.mem n w) : Moved (p + 1) (n + 1) n s s' ∧ s'.word n = w := by
  have hpos : At (p + 1) (n + 1) s' := .push hs hat.room (by rw [hpc, hat.pc, ofNat_add_one]) hsp
  have hroom := hpos.room
  exact ⟨⟨hpos, hfp, fun k hk hkn => word_put_ne hmem (by omega) hk (by omega)⟩, word_put hmem⟩

/-- the word that is next -/
theorem At.fetch (hat : At p n s) (hlaid : Laid rom addr p (.word op :: is)) : rom s.pc = op := hat.pc ▸ hlaid.1

/-- registers change, the RAM does not -/
theorem Moved.of_mem (hpc : s'.pc = BitVec.ofNat 32 p) (hsp : s'.sp = BitVec.ofNat 32 n) (hn : n ≤ 200) (hfp : s'.fp = s.fp)
    (hmem : s'.mem = s.mem) : Moved p n m s s' := ⟨⟨hpc, hsp, hn⟩, hfp, fun k _ _ => by rw [word, word, hmem]⟩

/-! ## Expressions -/

/-- the address is above the stack -/
def Above (a : Word) : Prop := Outside 0 200 a

theorem Above.outside {d : ℕ} {a : Word} (h : Above a) (hd : n + d ≤ 200) : Outside n d a := h.mono (Nat.zero_le n) (by omega)

theorem above_ofNat (hk : k < 2 ^ 15) (h : 200 ≤ k) : Above (BitVec.ofNat 32 k) := outside_ofNat hk (.inr (by omega))

/-- a run that stays within its limits has room for the expressions in it -/
theorem Compiles.fits (h : Compiles decl e ws) (hrom : Holds rom s.pc ws) (hsp : s.sp = BitVec.ofNat 32 n) (hn : n ≤ 200)
    (hvars : ∀ x ∈ e.idents, ∀ d, decl x = some d → Above (address s d.1 d.2)) (hs : (machine z rom).Always Safe s) :
    n + e.depth ≤ 200 := by
  induction h generalizing s n with
  | number hk hw =>
    have hdec : decode (rom s.pc) = _ := hrom.1 ▸ Assembler.decode_lconst hw
    exact (At.push (hs.last (runs_const hdec hsp (by omega))) hn rfl rfl).room
  | global hx hw hw' =>
    have hdec : decode (rom s.pc) = _ := hrom.1 ▸ Assembler.decode_lconst hw
    exact (At.push (hs.last (runs_const hdec hsp (by omega))) hn rfl rfl).room
  | stack hx hw =>
    have hdec : decode (rom s.pc) = _ := hrom.1 ▸ decode_lfpmem hw
    exact (At.push (hs.last (runs_fpmem hdec hsp (by omega))) hn rfl rfl).room
  | unary he hw ih => exact ih (holds_append.1 hrom).1 hsp hn hvars hs
  | @binary o l r ws ws' op hl hr hw ihl ihr =>
    obtain ⟨hws, hws'⟩ := holds_append.1 (holds_append.1 hrom).1
    have hvl : ∀ x ∈ l.idents, ∀ d, decl x = some d → Above (address s d.1 d.2) := fun x hx d hd =>
      hvars x (List.mem_append_left _ hx) d hd
    have hfl := ihl hws hsp hn hvl hs
    obtain ⟨a, ha⟩ := hl.exists_result z s
    obtain ⟨t, hrun, hp⟩ := hl.run hws hsp (by omega) (fun x hx d hd => (hvl x hx d hd).outside hfl) ha
    have hpos := l.depth_pos
    have hfr := ihr (n := n + 1) (hp.pc ▸ hws') hp.sp (by omega)
      (fun x hx d hd => by rw [address_eq hp.fp]; exact hvars x (List.mem_append_right _ hx) d hd) (hs.after hrun)
    rw [Ast.depth]
    omega

/-- the words of an expression push its value -/
theorem Compiles.moves {read' : Ident → Option Word} (h : Compiles decl e ws) (hlaid : Laid rom addr p (ws.map .word))
    (hat : At p n s) (hvars : ∀ x ∈ e.idents, ∀ d, decl x = some d → Above (address s d.1 d.2))
    (hread : ∀ x ∈ e.idents, read decl s x = read' x) (hs : (machine z rom).Always Safe s) :
    ∃ w s', e.result z read' = some w ∧ (machine z rom).Runs ws.length s [] s' ∧ Moved (p + ws.length) (n + 1) n s s' ∧
      s'.word n = w := by
  have hrom : Holds rom s.pc ws := hat.pc ▸ holds_of_laid hlaid
  have hfits := h.fits hrom hat.sp hat.room hvars hs
  obtain ⟨w, hw⟩ := h.exists_result z s
  obtain ⟨s', hrun, hp⟩ := h.run hrom hat.sp (by omega) (fun x hx d hd => (hvars x hx d hd).outside hfits) hw
  refine ⟨w, s', ?_, hrun, ⟨?_, hp.fp, fun k hk hkn => ?_⟩, hp.top⟩
  · rw [← hw]
    exact (Ast.eval_congr hread).symm
  · have hpos := e.depth_pos
    exact ⟨by rw [hp.pc, hat.pc, ← BitVec.ofNat_add], hp.sp, by omega⟩
  · rw [← load_ofNat hk, ← load_ofNat hk]
    exact hp.frame _ (outside_ofNat hk (by omega))

/-! ## Jumps -/

theorem decode_ref (h : Fits a) (hrom : rom s.pc = BitVec.ofNat 32 a) :
    decode (rom s.pc) = ⟨BitVec.ofNat 32 a, .imm, .imm, .stack, .a⟩ := by
  have hlconst : Assembler.lconst (BitVec.ofNat 32 a) = .ok (BitVec.ofNat 32 a) := by
    rw [Fits] at h
    exact if_neg (by omega)
  rw [hrom]
  exact Assembler.decode_lconst hlconst

/-- a reference pushes the address of its label -/
theorem moves_ref (hlaid : Laid rom addr p (.ref l :: is)) (hat : At p n s) (hs : (machine z rom).Always Safe s) :
    ∃ a s', addr l.name = some a ∧ (machine z rom).Runs 1 s [] s' ∧ Moved (p + 1) (n + 1) n s s' ∧
      s'.word n = BitVec.ofNat 32 a := by
  obtain ⟨⟨a, ha, hfits, hrom⟩, -⟩ := hlaid
  have hroom := hat.room
  have hrun := runs_const (z := z) (decode_ref hfits (hat.pc ▸ hrom)) hat.sp (by omega)
  obtain ⟨hmoved, htop⟩ := Moved.push hat (hs.last hrun) rfl rfl rfl rfl
  exact ⟨a, _, ha, hrun, hmoved, htop⟩

/-- `ref l; ajmp` -/
theorem moves_jump (hlaid : Laid rom addr p [.ref l, .word op]) (hop : Assembler.ajmp = .ok op) (hat : At p n s)
    (hs : (machine z rom).Always Safe s) :
    ∃ a s', addr l.name = some a ∧ (machine z rom).Runs 2 s [] s' ∧ Moved a n n s s' ∧
      s'.ppc = BitVec.ofNat 32 (p + 2) := by
  obtain ⟨a, s₁, ha, hrun₁, hmoved, htop⟩ := moves_ref hlaid hat hs
  have hroom := hmoved.pos.room
  have hdec : decode (rom s₁.pc) = _ := hmoved.pos.fetch hlaid.2 ▸ Assembler.decode_op hop
  have hrun₂ := runs_ajmp (z := z) hdec hmoved.pos.sp (by omega)
  refine ⟨a, _, ha, hrun₁.trans hrun₂, hmoved.trans (.of_mem htop rfl hat.room rfl rfl), ?_⟩
  rw [hmoved.pos.pc, ofNat_add_one]

/-- `ref l; cjmpz`, after a condition -/
theorem moves_branch (hlaid : Laid rom addr p [.ref l, .word op]) (hop : Assembler.cjmpz = .ok op) (hat : At p (n + 1) s)
    (hs : (machine z rom).Always Safe s) :
    ∃ a s', addr l.name = some a ∧ (machine z rom).Runs 2 s [] s' ∧
      Moved (if s.word n = 0 then a else p + 2) n n s s' := by
  obtain ⟨a, s₁, ha, hrun₁, hmoved, htop⟩ := moves_ref hlaid hat hs
  have hroom := hmoved.pos.room
  have hdec : decode (rom s₁.pc) = _ := hmoved.pos.fetch hlaid.2 ▸ Assembler.decode_op hop
  have hrun₂ := runs_cjmpz (z := z) hdec hmoved.pos.sp (by omega)
  have hcond : s₁.word n = s.word n := hmoved.words n (by omega) (.inl (Nat.lt_succ_self n))
  rw [hcond, htop] at hrun₂
  refine ⟨a, _, ha, hrun₁.trans hrun₂, (hmoved.mono (Nat.le_succ n)).trans ?_⟩
  have hroom' := hat.room
  by_cases h0 : s.word n = 0
  · rw [if_pos h0]
    simp only [h0, beq_self_eq_true, jump, if_true]
    exact .of_mem rfl rfl (by omega) rfl rfl
  · rw [if_neg h0]
    simp only [beq_eq_false_iff_ne.2 h0, jump, Bool.false_eq_true, if_false]
    exact .of_mem (by rw [hmoved.pos.pc, ofNat_add_one]) rfl (by omega) rfl rfl

/-! ## Stores -/

/-- the word on top of the stack has gone to word `k` of the RAM, above the stack -/
structure Stored (p n k : ℕ) (s s' : Arch) : Prop where
  pos : At p n s'
  fp : s'.fp = s.fp
  word : s'.word k = s.word n
  words : ∀ j < 2 ^ 15, j ≠ k → j < n ∨ 200 ≤ j → s'.word j = s.word j

/-- `stfpmem` -/
theorem moves_stfpmem {slot : ℕ} (hlaid : Laid rom addr p [.word op])
    (hop : Assembler.stfpmem (CodeGenerator.fpDelta slot) = .ok op) (hat : At p (n + 1) s)
    (hk : address s slot .stack = BitVec.ofNat 32 k) (hk' : k < 2 ^ 15) :
    ∃ s', (machine z rom).Runs 1 s [] s' ∧ Stored (p + 1) n k s s' := by
  have hroom := hat.room
  have hdec : decode (rom s.pc) = _ := hat.fetch hlaid ▸ Assembler.decode_op hop
  have hrun := runs_stfpmem (z := z) hdec hat.sp (by omega)
  rw [fp_add_fpDelta, hk, store_ofNat hk', printed, if_neg (ofNat_ne_outAddr hk')] at hrun
  refine ⟨_, hrun, ⟨by rw [hat.pc, ofNat_add_one], rfl, by omega⟩, rfl, word_put rfl, fun j hj hne _ => ?_⟩
  exact word_put_ne rfl hk' hj hne

/-- `lconst v; stmem`: the address is on the stack, above the word -/
theorem moves_address {op' : Opcode} {v : Word} (hlaid : Laid rom addr p [.word op, .word op'])
    (hop : Assembler.lconst v = .ok op) (hop' : Assembler.stmem = .ok op') (hat : At p (n + 1) s)
    (hs : (machine z rom).Always Safe s) :
    ∃ s₁, (machine z rom).Runs 2 s (printed (some (v, s.word n)))
        (({ s₁ with pc := s₁.pc + 1, sp := BitVec.ofNat 32 n } : Arch).store v (s.word n)) ∧
      Moved (p + 1) (n + 2) (n + 1) s s₁ := by
  have hroom := hat.room
  have hdec : decode (rom s.pc) = _ := hat.fetch hlaid ▸ Assembler.decode_lconst hop
  have hrun₁ := runs_const (z := z) hdec hat.sp (by omega)
  obtain ⟨hmoved, htop⟩ := Moved.push hat (hs.last hrun₁) rfl rfl rfl rfl
  have hdec' : decode (rom (_ : Arch).pc) = _ := hmoved.pos.fetch hlaid.2 ▸ Assembler.decode_op hop'
  have hroom' := hmoved.pos.room
  have hrun₂ := runs_stmem (z := z) hdec' hmoved.pos.sp (by omega)
  rw [htop, hmoved.words n (by omega) (.inl (Nat.lt_succ_self n))] at hrun₂
  exact ⟨_, hrun₁.trans hrun₂, hmoved⟩

/-- to a word of the RAM -/
theorem moves_stmem {op' : Opcode} (hlaid : Laid rom addr p [.word op, .word op'])
    (hop : Assembler.lconst (BitVec.ofNat 32 k) = .ok op) (hop' : Assembler.stmem = .ok op') (hat : At p (n + 1) s)
    (hk' : k < 2 ^ 15) (hs : (machine z rom).Always Safe s) :
    ∃ s', (machine z rom).Runs 2 s [] s' ∧ Stored (p + 2) n k s s' := by
  obtain ⟨s₁, hrun, hmoved⟩ := moves_address hlaid hop hop' hat hs
  have hroom := hat.room
  rw [store_ofNat hk', printed, if_neg (ofNat_ne_outAddr hk')] at hrun
  refine ⟨_, hrun, ⟨by rw [hmoved.pos.pc, ofNat_add_one], rfl, by omega⟩, hmoved.fp, word_put rfl, fun j hj hne hjn => ?_⟩
  exact (word_put_ne rfl hk' hj hne).trans (hmoved.words j hj (by omega))

/-- to the output -/
theorem moves_print {op' : Opcode} (hlaid : Laid rom addr p [.word op, .word op'])
    (hop : Assembler.lconst (BitVec.ofNat 32 (2 ^ 30)) = .ok op) (hop' : Assembler.stmem = .ok op') (hat : At p (n + 1) s)
    (hs : (machine z rom).Always Safe s) :
    ∃ s', (machine z rom).Runs 2 s [s.word n] s' ∧ Moved (p + 2) n n s s' := by
  obtain ⟨s₁, hrun, hmoved⟩ := moves_address hlaid hop hop' hat hs
  have hroom := hat.room
  have hbit : (BitVec.ofNat 32 (2 ^ 30)).getLsbD 30 = true := by decide
  have hout : BitVec.ofNat 32 (2 ^ 30) = outAddr := by decide
  rw [store, if_pos hbit, printed, if_pos hout] at hrun
  refine ⟨_, hrun, (hmoved.mono (Nat.le_succ n)).trans (.of_mem ?_ rfl (by omega) rfl rfl)⟩
  rw [hmoved.pos.pc, ofNat_add_one]

end FpgaLearning.Compiler
