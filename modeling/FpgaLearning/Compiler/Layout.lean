/-
Where the parts of a listing stand, and what a statement leaves of the allocator.

- `Laid rom addr p is`: the items `is` stand in the ROM from word `p` on. An accepted program is laid from word 0 on.
- `Grown`: a statement keeps the blocks around it, never takes slots away and keeps the allocator of a function a
  partition of few enough slots. `Pass.inBlock_ok`: after a block the variables are those from before it.
-/
import FpgaLearning.Compiler.Resolution

namespace FpgaLearning.Compiler

open FpgaLearning.Memory FpgaLearning.Stack

/-! ## Items in the ROM -/

/-- the items stand in the ROM from word `p` on; `addr` says where the labels are -/
def Laid (rom : Word → Word) (addr : Ident → Option ℕ) : ℕ → List Item → Prop
  | _, [] => True
  | p, .word w :: is => rom (BitVec.ofNat 32 p) = w ∧ Laid rom addr (p + 1) is
  | p, .ref l :: is =>
    (∃ a, addr l.name = some a ∧ Fits a ∧ rom (BitVec.ofNat 32 p) = BitVec.ofNat 32 a) ∧ Laid rom addr (p + 1) is
  | p, .label l :: is => addr l.name = some p ∧ Laid rom addr p is

variable {rom : Word → Word} {addr : Ident → Option ℕ} {p : ℕ} {is js : List Item} {ws : List Opcode}

@[simp] theorem size_nil : size [] = 0 := rfl

@[simp] theorem size_word (w : Opcode) (is : List Item) : size (.word w :: is) = size is + 1 := rfl

@[simp] theorem size_ref (l : Label) (is : List Item) : size (.ref l :: is) = size is + 1 := rfl

@[simp] theorem size_label (l : Label) (is : List Item) : size (.label l :: is) = size is := rfl

@[simp] theorem size_words (ws : List Opcode) : size (ws.map .word) = ws.length := by
  induction ws with
  | nil => rfl
  | cons w ws ih => rw [List.map_cons, size_word, ih, List.length_cons]

theorem laid_append : Laid rom addr p (is ++ js) ↔ Laid rom addr p is ∧ Laid rom addr (p + size is) js := by
  induction is generalizing p with
  | nil => simp [Laid]
  | cons i is ih =>
    have hassoc : p + 1 + size is = p + (size is + 1) := by omega
    cases i with
    | word w => rw [List.cons_append, Laid, Laid, ih, and_assoc, size_word, hassoc]
    | ref l => rw [List.cons_append, Laid, Laid, ih, and_assoc, size_ref, hassoc]
    | label l => rw [List.cons_append, Laid, Laid, ih, and_assoc, size_label]

theorem holds_of_laid (h : Laid rom addr p (ws.map .word)) : Holds rom (BitVec.ofNat 32 p) ws := by
  induction ws generalizing p with
  | nil => trivial
  | cons w ws ih => exact ⟨h.1, by rw [Arch.ofNat_add_one]; exact ih h.2⟩

/-- the words of an accepted program, from word 0 on -/
theorem laid_link (hd : Distinct is) (hr : Resolved is)
    (hrom : ∀ n w, (link is)[n]? = some w → rom (BitVec.ofNat 32 n) = w) : Laid rom (addressOf · is) 0 is := by
  suffices h : ∀ js before, is = before ++ js → Laid rom (addressOf · is) (size before) js from h is [] rfl
  intro js
  induction js with
  | nil => exact fun _ _ => trivial
  | cons i js ih =>
    intro before his
    have hrest := ih (before ++ [i]) (by rw [his, List.append_assoc]; rfl)
    have hword : ∀ hi : i.isWord = true, rom (BitVec.ofNat 32 (size before)) = i.resolve (addressOf · is) := by
      intro hi
      apply hrom
      rw [link, List.getElem?_map, his, cells_append, size, List.getElem?_append_right le_rfl, Nat.sub_self, ← his]
      simp [cells, List.filter_cons_of_pos hi]
    cases i with
    | word w => exact ⟨hword rfl, by simpa using hrest⟩
    | ref l =>
      obtain ⟨a, ha, hfits⟩ := hr l (mem_refs.2 (his ▸ List.mem_append_right _ List.mem_cons_self))
      refine ⟨⟨a, ha, hfits, ?_⟩, by simpa using hrest⟩
      rw [hword rfl, Item.resolve, ha, Option.getD_some]
    | label l =>
      refine ⟨?_, by simpa using hrest⟩
      subst his
      exact addressOf_label hd

/-! ## The allocator of a function -/

open VariableAllocator in
structure LocalAllocator (a : VariableAllocator) : Prop where
  scope : a.scope = .stack
  base : a.baseOffset = 0
  partition : a.Partition
  few : a.firstFree ≤ 2 ^ 21 + 1

/-- what a statement leaves of the context -/
structure Grown (c c' : Context) : Prop where
  below : c'.below = c.below
  outer : c'.allocator.outer = c.allocator.outer
  mono : c.allocator.firstFree ≤ c'.allocator.firstFree
  allocator : LocalAllocator c.allocator → LocalAllocator c'.allocator

theorem Grown.refl (c : Context) : Grown c c := ⟨rfl, rfl, le_rfl, id⟩

theorem Grown.trans {c c' c'' : Context} (h : Grown c c') (h' : Grown c' c'') : Grown c c'' :=
  ⟨h'.below.trans h.below, h'.outer.trans h.outer, h.mono.trans h'.mono, h'.allocator ∘ h.allocator⟩

namespace Pass

variable {p q : Pass} {ps : List Pass} {c c' : Context} {H : HashOrder (Ident × ℕ)}

/-- the context stays as it is -/
def Quiet (p : Pass) : Prop := ∀ c is c', p c = (is, .ok c') → c' = c

def Grows (p : Pass) : Prop := ∀ c is c', p c = (is, .ok c') → Grown c c'

theorem Quiet.grows (h : Quiet p) : Grows p := fun c is c' hc => h c is c' hc ▸ .refl c

theorem quiet_item (i : Item) : Quiet (item i) := fun _ _ _ h => (Except.ok.inj (Prod.mk.inj h).2).symm

theorem quiet_push (w : Except String Opcode) : Quiet (push w) := by
  cases w with
  | error e => exact fun _ _ _ h => nomatch (Prod.mk.inj h).2
  | ok w => exact quiet_item _

theorem push_ok {w : Except String Opcode} (h : push w c = (is, .ok c')) : ∃ op, w = .ok op ∧ is = [.word op] ∧ c' = c := by
  cases w with
  | error e => cases (Prod.mk.inj h).2
  | ok op => exact ⟨op, rfl, (Prod.mk.inj h).1.symm, (Except.ok.inj (Prod.mk.inj h).2).symm⟩

theorem item_ok {i : Item} (h : seq (item i :: ps) c = (is, .ok c')) : ∃ js, seq ps c = (js, .ok c') ∧ is = i :: js := by
  obtain ⟨is₁, c₁, js, h₁, h₂, rfl⟩ := seq_cons_ok_iff.1 h
  obtain ⟨rfl, hc⟩ := Prod.mk.inj h₁
  obtain rfl := Except.ok.inj hc
  exact ⟨js, h₂, rfl⟩

theorem cons_push_ok {w : Except String Opcode} (h : seq (push w :: ps) c = (is, .ok c')) :
    ∃ op js, w = .ok op ∧ seq ps c = (js, .ok c') ∧ is = .word op :: js := by
  obtain ⟨is₁, c₁, js, h₁, h₂, rfl⟩ := seq_cons_ok_iff.1 h
  obtain ⟨op, hw, rfl, rfl⟩ := push_ok h₁
  exact ⟨op, js, hw, h₂, rfl⟩

/-- a reference and the word that jumps there -/
theorem jump_ok {l : Label} {w : Except String Opcode} (h : seq (item (.ref l) :: push w :: ps) c = (is, .ok c')) :
    ∃ op js, w = .ok op ∧ seq ps c = (js, .ok c') ∧ is = [.ref l, .word op] ++ js := by
  obtain ⟨js, h₁, rfl⟩ := item_ok h
  obtain ⟨op, js, hw, h₂, rfl⟩ := cons_push_ok h₁
  exact ⟨op, js, hw, h₂, rfl⟩

theorem nil_ok (h : seq [] c = (is, .ok c')) : is = [] ∧ c' = c :=
  ⟨(Prod.mk.inj h).1.symm, (Except.ok.inj (Prod.mk.inj h).2).symm⟩

/-- the last part of a sequence -/
theorem last_ok (h : seq [p] c = (is, .ok c')) : p c = (is, .ok c') := by
  obtain ⟨is₁, c₁, is₂, h₁, h₂, rfl⟩ := seq_cons_ok_iff.1 h
  obtain ⟨rfl, rfl⟩ := nil_ok h₂
  rw [h₁, List.append_nil]

theorem quiet_nil : Quiet (seq []) := fun _ _ _ h => (Except.ok.inj (Prod.mk.inj h).2).symm

theorem Quiet.cons (h : Quiet p) (h' : Quiet (seq ps)) : Quiet (seq (p :: ps)) := by
  intro c is c' hc
  obtain ⟨is₁, c₁, is₂, h₁, h₂, -⟩ := seq_cons_ok_iff.1 hc
  rw [h' _ _ _ h₂, h _ _ _ h₁]

theorem expr_ok {t : Expr} (h : expr t c = (is, .ok c')) :
    c' = c ∧ ∃ ws, Compiles c.getDeclaration t.ast ws ∧ is = ws.map .word := by
  rw [expr] at h
  cases hv : MyVisitor.visitExpr t (c.visitor .new) with
  | error e =>
    rw [hv] at h
    cases (Prod.mk.inj h).2
  | ok v =>
    obtain ⟨ws, hws, rfl⟩ := (MyVisitor.visitExpr_iff t).1 hv
    rw [hv] at h
    obtain ⟨rfl, hc⟩ := Prod.mk.inj h
    exact ⟨(Except.ok.inj hc).symm, ws, hws, rfl⟩

theorem cons_expr_ok {t : Expr} (h : seq (expr t :: ps) c = (is, .ok c')) :
    ∃ js js', expr t c = (js, .ok c) ∧ seq ps c = (js', .ok c') ∧ is = js ++ js' := by
  obtain ⟨js, c₁, js', h₁, h₂, rfl⟩ := seq_cons_ok_iff.1 h
  obtain ⟨rfl, -⟩ := expr_ok h₁
  exact ⟨js, js', h₁, h₂, rfl⟩

theorem quiet_expr (t : Expr) : Quiet (expr t) := fun _ _ _ h => (expr_ok h).1

theorem quiet_save (addr : ℕ) (scope : Scope) : Quiet (save addr scope) := by
  cases scope with
  | global => exact (quiet_push _).cons ((quiet_push _).cons quiet_nil)
  | stack => exact quiet_push _

theorem assign_ok {x : Ident} {e : Expr} (h : assign x e c = (is, .ok c')) :
    ∃ addr scope, c.getDeclaration x = some (addr, scope) ∧ seq [expr e, save addr scope] c = (is, .ok c') := by
  rw [assign] at h
  cases hd : c.getDeclaration x with
  | none =>
    rw [hd] at h
    cases (Prod.mk.inj h).2
  | some d =>
    rw [hd] at h
    exact ⟨d.1, d.2, rfl, h⟩

theorem varDecl_ok {x : Ident} {e : Expr} (h : varDecl x e c = (is, .ok c')) :
    ∃ addr a, c.allocator.alloc x = .ok (addr, a) ∧ c' = { c with allocator := a } ∧
      seq [expr e, save addr a.scope] { c with allocator := a } = (is, .ok { c with allocator := a }) := by
  rw [varDecl, alloc] at h
  cases ha : c.allocator.alloc x with
  | error e =>
    rw [ha] at h
    cases (Prod.mk.inj h).2
  | ok r =>
    rw [ha] at h
    obtain ⟨addr, a⟩ := r
    obtain ⟨is₁, c₁, is₂, h₁, h₂, rfl⟩ := seq_cons_ok_iff.1 h
    obtain rfl := quiet_expr e _ _ _ h₁
    have hsave : seq [save addr a.scope] { c with allocator := a } = (is₂, .ok c') := h₂
    obtain rfl := (quiet_save addr a.scope).cons quiet_nil _ _ _ hsave
    exact ⟨addr, a, rfl, rfl, seq_cons_ok_iff.2 ⟨is₁, _, is₂, h₁, hsave, rfl⟩⟩

theorem fpDelta_le {slot : ℕ} {w : Opcode} (hslot : slot ≤ 2 ^ 21 + 1)
    (hw : Assembler.stfpmem (CodeGenerator.fpDelta slot) = .ok w) : slot ≤ 2 ^ 21 := by
  unfold Assembler.stfpmem Assembler.op at hw
  split_ifs at hw with hrange
  push Not at hrange
  have hint : (BitVec.ofNat 32 slot).toInt = slot := by
    rw [BitVec.toInt_eq_toNat_of_lt] <;> rw [BitVec.toNat_ofNat] <;> omega
  have hmin := hrange.2
  rw [CodeGenerator.fpDelta, hint, Assembler.min22] at hmin
  omega

/-- a variable of a function -/
theorem varDecl_local_ok {x : Ident} {e : Expr} (hl : LocalAllocator c.allocator) (h : varDecl x e c = (is, .ok c')) :
    ∃ slot a ws w, c.allocator.alloc x = .ok (slot, a) ∧ c' = { c with allocator := a } ∧
      Compiles c'.getDeclaration e.ast ws ∧ Assembler.stfpmem (CodeGenerator.fpDelta slot) = .ok w ∧
      is = ws.map .word ++ [.word w] := by
  obtain ⟨addr, a, ha, rfl, hseq⟩ := varDecl_ok h
  have hscope : a.scope = .stack := by
    obtain ⟨slot, -, -, ⟨rest, -, rfl⟩ | ⟨-, -, rfl⟩⟩ := VariableAllocator.alloc_cases ha
    · exact hl.scope
    · exact hl.scope
  obtain ⟨is₁, c₁, is₂, h₁, h₂, rfl⟩ := seq_cons_ok_iff.1 hseq
  obtain ⟨rfl, ws, hws, rfl⟩ := expr_ok h₁
  have h₂ := last_ok h₂
  rw [hscope] at h₂
  obtain ⟨w, hw, rfl, -⟩ := push_ok h₂
  exact ⟨addr, a, ws, w, ha, rfl, hws, hw, rfl⟩

theorem grows_varDecl (x : Ident) (e : Expr) : Grows (varDecl x e) := by
  intro c is c' h
  obtain ⟨addr, a, ha, rfl, -⟩ := varDecl_ok h
  obtain ⟨slot, rfl, -, hcases⟩ := VariableAllocator.alloc_cases ha
  refine ⟨rfl, ?_, ?_, fun hl => ?_⟩
  · obtain ⟨rest, -, rfl⟩ | ⟨-, -, rfl⟩ := hcases
    · rfl
    · rfl
  · obtain ⟨rest, -, rfl⟩ | ⟨-, -, rfl⟩ := hcases
    · exact le_rfl
    · exact Nat.le_succ _
  · have hpartition := hl.partition.alloc ha
    obtain ⟨slot', a', ws, w, ha', -, -, hw, -⟩ := varDecl_local_ok hl h
    obtain ⟨hslot, rfl⟩ := Prod.mk.inj (Except.ok.inj (ha.symm.trans ha'))
    obtain ⟨rest, -, rfl⟩ | ⟨-, rfl, rfl⟩ := hcases
    · exact ⟨hl.scope, hl.base, hpartition, hl.few⟩
    · rw [hl.base, Nat.zero_add] at hslot
      rw [← hslot] at hw
      exact ⟨hl.scope, hl.base, hpartition, Nat.succ_le_succ (fpDelta_le hl.few hw)⟩

/-! ### Blocks -/

/-- what a block does: its variables are gone at the end -/
theorem inBlock_ok (h : inBlock H p c = (is, .ok c')) :
    ∃ c₁ a, p { c with allocator := c.allocator.startBlock } = (is, .ok c₁) ∧
      c₁.allocator.endBlock H = .ok a ∧ c' = { c₁ with allocator := a } := by
  have hseq : andThen p (endBlock H) { c with allocator := c.allocator.startBlock } = (is, .ok c') := h
  obtain ⟨is₁, c₁, is₂, h₁, h₂, rfl⟩ := andThen_ok_iff.1 hseq
  rw [endBlock] at h₂
  cases ha : c₁.allocator.endBlock H with
  | error e =>
    rw [ha] at h₂
    cases (Prod.mk.inj h₂).2
  | ok a =>
    rw [ha] at h₂
    obtain ⟨rfl, hc⟩ := Prod.mk.inj h₂
    exact ⟨c₁, a, by rw [h₁, List.append_nil], ha, (Except.ok.inj hc).symm⟩

/-- **Blocks.** The variables after a block are those from before it. -/
theorem grown_inBlock (hp : Grows p) (h : inBlock H p c = (is, .ok c')) :
    ∃ c₁, p { c with allocator := c.allocator.startBlock } = (is, .ok c₁) ∧
      Grown { c with allocator := c.allocator.startBlock } c₁ ∧ Grown c c' ∧ c'.allocator.block = c.allocator.block ∧
      c'.allocator.firstFree = c₁.allocator.firstFree := by
  obtain ⟨c₁, a, h₁, ha, rfl⟩ := inBlock_ok h
  have hgrown := hp _ _ _ h₁
  have houter : c₁.allocator.outer = c.allocator.block :: c.allocator.outer := hgrown.outer
  have hend := ha
  obtain ⟨b, rest, hb, rfl⟩ := VariableAllocator.endBlock_cases ha
  obtain ⟨rfl, rfl⟩ := List.cons.inj (houter.symm.trans hb)
  refine ⟨c₁, h₁, hgrown, ⟨hgrown.below, rfl, hgrown.mono, fun hl => ?_⟩, rfl, rfl⟩
  obtain ⟨hscope, hbase, hpartition, hfew⟩ := hgrown.allocator ⟨hl.scope, hl.base, hl.partition.startBlock, hl.few⟩
  exact ⟨hscope, hbase, hpartition.endBlock hend, hfew⟩

theorem grows_inBlock (hp : Grows p) : Grows (inBlock H p) := by
  intro _ _ _ h
  obtain ⟨c₁, -, -, hgrown, -, -⟩ := grown_inBlock hp h
  exact hgrown

/-- the innermost block stays as it is -/
def Steady (p : Pass) : Prop := ∀ c is c', p c = (is, .ok c') → c'.allocator.block = c.allocator.block

theorem Quiet.steady (h : Quiet p) : Steady p := fun c is c' hc => by rw [h c is c' hc]

theorem Steady.cons (h : Steady p) (h' : Steady (seq ps)) : Steady (seq (p :: ps)) := by
  intro c is c' hc
  obtain ⟨is₁, c₁, is₂, h₁, h₂, -⟩ := seq_cons_ok_iff.1 hc
  exact (h' _ _ _ h₂).trans (h _ _ _ h₁)

theorem steady_inBlock (hp : Grows p) : Steady (inBlock H p) := by
  intro _ _ _ h
  obtain ⟨c₁, -, -, -, hblock, -⟩ := grown_inBlock hp h
  exact hblock

theorem steady_fresh {p : Label → Pass} (h : ∀ l, Steady (p l)) : Steady (fresh p) :=
  fun c _ _ hc => h (.generated c.counter) { c with counter := c.counter + 1 } _ _ hc

/-! ### Statements -/

theorem grows_andThen (h : Grows p) (h' : Grows q) : Grows (andThen p q) := by
  intro c is c' hc
  obtain ⟨is₁, c₁, is₂, h₁, h₂, -⟩ := andThen_ok_iff.1 hc
  exact (h _ _ _ h₁).trans (h' _ _ _ h₂)

theorem grows_nil : Grows (seq []) := quiet_nil.grows

theorem Grows.cons (h : Grows p) (h' : Grows (seq ps)) : Grows (seq (p :: ps)) := grows_andThen h h'

theorem grows_fresh {p : Label → Pass} (h : ∀ l, Grows (p l)) : Grows (fresh p) := by
  intro c is c' hc
  obtain ⟨hbelow, houter, hmono, hlocal⟩ := h _ _ _ _ hc
  exact ⟨hbelow, houter, hmono, hlocal⟩

theorem quiet_assign (x : Ident) (e : Expr) : Quiet (assign x e) := by
  intro c is c' h
  obtain ⟨addr, scope, -, h⟩ := assign_ok h
  exact ((quiet_expr e).cons ((quiet_save addr scope).cons quiet_nil)) _ _ _ h

theorem quiet_print (e : Expr) : Quiet (print e) := (quiet_expr e).cons ((quiet_save _ _).cons quiet_nil)

theorem quiet_call (f : Ident) : Quiet (call f) := (quiet_item _).cons ((quiet_push _).cons quiet_nil)

theorem grows_elseStmt {l : Label} {elsePart : Option Pass} (h : ∀ p ∈ elsePart, Grows p) :
    Grows (elseStmt H l elsePart) := by
  cases elsePart with
  | none => exact (quiet_item _).grows
  | some p =>
    exact grows_fresh fun l' => (quiet_item _).grows.cons ((quiet_push _).grows.cons ((quiet_item _).grows.cons
      ((grows_inBlock (h p rfl)).cons ((quiet_item _).grows.cons grows_nil))))

theorem grows_ifBody {cond : Expr} {l : Label} {elsePart : Option Pass} (h : Grows p) (h' : ∀ p ∈ elsePart, Grows p) :
    Grows (seq [expr cond, item (.ref l), push Assembler.cjmpz, inBlock H p, elseStmt H l elsePart]) :=
  (quiet_expr _).grows.cons ((quiet_item _).grows.cons ((quiet_push _).grows.cons ((grows_inBlock h).cons
    ((grows_elseStmt h').cons grows_nil))))

theorem steady_elseStmt {l : Label} {elsePart : Option Pass} (h : ∀ p ∈ elsePart, Grows p) :
    Steady (elseStmt H l elsePart) := by
  cases elsePart with
  | none => exact (quiet_item _).steady
  | some p =>
    exact steady_fresh fun l' => (quiet_item _).steady.cons ((quiet_push _).steady.cons ((quiet_item _).steady.cons
      ((steady_inBlock (h p rfl)).cons ((quiet_item _).steady.cons quiet_nil.steady))))

theorem steady_ifBody {cond : Expr} {l : Label} {elsePart : Option Pass} (h : Grows p) (h' : ∀ p ∈ elsePart, Grows p) :
    Steady (seq [expr cond, item (.ref l), push Assembler.cjmpz, inBlock H p, elseStmt H l elsePart]) :=
  (quiet_expr _).steady.cons ((quiet_item _).steady.cons ((quiet_push _).steady.cons ((steady_inBlock h).cons
    ((steady_elseStmt h').cons quiet_nil.steady))))

theorem grows_loop {loop : Label} (h : Grows p) : Grows (fresh fun loopEnd => seq [item (.ref loopEnd),
    push Assembler.cjmpz, inBlock H p, item (.ref loop), push Assembler.ajmp, item (.label loopEnd)]) :=
  grows_fresh fun _ => (quiet_item _).grows.cons ((quiet_push _).grows.cons ((grows_inBlock h).cons
    ((quiet_item _).grows.cons ((quiet_push _).grows.cons ((quiet_item _).grows.cons grows_nil)))))

theorem grows_whileBody {cond : Expr} {loop : Label} (h : Grows p) : Grows (seq [item (.label loop), expr cond,
    fresh fun loopEnd => seq [item (.ref loopEnd), push Assembler.cjmpz, inBlock H p, item (.ref loop),
      push Assembler.ajmp, item (.label loopEnd)]]) :=
  (quiet_item _).grows.cons ((quiet_expr _).grows.cons ((grows_loop h).cons grows_nil))

mutual

theorem grows_stmt (H : HashOrder (Ident × ℕ)) : ∀ s, Grows (stmt H s)
  | .ifStmt cond thenStmt => by
    rw [stmt]
    exact grows_inBlock (grows_fresh fun l => grows_ifBody (grows_stmt H thenStmt) fun p hp => nomatch hp)
  | .ifElseStmt cond thenStmt elseStmt => by
    rw [stmt]
    refine grows_inBlock (grows_fresh fun l => grows_ifBody (grows_stmt H thenStmt) fun p hp => ?_)
    exact Option.some.inj hp ▸ grows_stmt H elseStmt
  | .whileStmt cond body => by
    rw [stmt]
    exact grows_inBlock (grows_fresh fun l => grows_whileBody (grows_stmt H body))
  | .varDeclStmt x e => by
    rw [stmt]
    exact grows_varDecl x e
  | .assignStmt x e => by
    rw [stmt]
    exact (quiet_assign x e).grows
  | .printStmt e => by
    rw [stmt]
    exact (quiet_print e).grows
  | .callStmt f => by
    rw [stmt]
    exact (quiet_call f).grows
  | .block ss => by
    rw [stmt]
    exact grows_stmts H ss

theorem grows_stmts (H : HashOrder (Ident × ℕ)) : ∀ ss, Grows (stmts H ss)
  | .nil => by
    rw [stmts]
    exact quiet_nil.grows
  | .cons s ss => by
    rw [stmts]
    exact grows_andThen (grows_stmt H s) (grows_stmts H ss)

end

end Pass

end FpgaLearning.Compiler
