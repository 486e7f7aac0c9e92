/-
From a listing to words: labels, references and `resolveRefs`.

- `link is`: the words of a listing, with the address of its label in each reference.
- `emit_ok_iff`: the code generator takes a listing if and only if no two labels have the same name.
- `visitAll_iff`: a program is accepted if and only if its listing ends without exception, the names of its labels are
  different and every reference has a label at an address of 31 bits. The words are then `link` of the listing.
-/
import FpgaLearning.Compiler.Listing

namespace FpgaLearning.Compiler

open FpgaLearning.Memory CodeGenerator

/-! ## Parts of a listing -/

namespace Item

def isWord : Item → Bool
  | .word _ => true
  | .ref _ => true
  | .label _ => false

def label? : Item → Option Label
  | .label l => some l
  | _ => none

def ref? : Item → Option Label
  | .ref l => some l
  | _ => none

/-- the word of an item, for given addresses of the labels -/
def resolve (addr : Ident → Option ℕ) : Item → Opcode
  | .word w => w
  | .ref l => BitVec.ofNat 32 ((addr l.name).getD 0)
  | .label _ => 0

end Item

/-- the items that become words -/
def cells (is : List Item) : List Item := is.filter Item.isWord

def size (is : List Item) : ℕ := (cells is).length

def labels (is : List Item) : List Label := is.filterMap Item.label?

def refs (is : List Item) : List Label := is.filterMap Item.ref?

/-- the address of the first label with this name -/
def addressOf (x : Ident) : List Item → Option ℕ
  | [] => none
  | .label l :: is => if l.name = x then some 0 else addressOf x is
  | _ :: is => (addressOf x is).map (1 + ·)

/-- the words of a listing -/
def link (is : List Item) : List Opcode := (cells is).map (Item.resolve (addressOf · is))

/-- `lconst` takes the address, a `uint32_t` in the source -/
def Fits (a : ℕ) : Prop := (BitVec.ofNat 32 a).toNat < 2 ^ 31

/-- every reference has a label, at an address that `lconst` takes -/
def Resolved (is : List Item) : Prop := ∀ l ∈ refs is, ∃ a, addressOf l.name is = some a ∧ Fits a

/-- no two labels have the same name -/
def Distinct (is : List Item) : Prop := ((labels is).map Label.name).Nodup

variable {is js : List Item} {x : Ident} {l : Label} {n k : ℕ}

@[simp] theorem cells_nil : cells [] = [] := rfl

@[simp] theorem cells_word (w : Opcode) (is : List Item) : cells (.word w :: is) = .word w :: cells is := rfl

@[simp] theorem cells_ref (l : Label) (is : List Item) : cells (.ref l :: is) = .ref l :: cells is := rfl

@[simp] theorem cells_label (l : Label) (is : List Item) : cells (.label l :: is) = cells is := rfl

@[simp] theorem cells_append : cells (is ++ js) = cells is ++ cells js := List.filter_append ..

@[simp] theorem size_append : size (is ++ js) = size is + size js := by simp [size]

@[simp] theorem labels_append : labels (is ++ js) = labels is ++ labels js := List.filterMap_append ..

@[simp] theorem labels_label (l : Label) (is : List Item) : labels (.label l :: is) = l :: labels is := rfl

@[simp] theorem refs_append : refs (is ++ js) = refs is ++ refs js := List.filterMap_append ..

theorem addressOf_append (x : Ident) (is js : List Item) :
    addressOf x (is ++ js) = (addressOf x is).or ((addressOf x js).map (size is + ·)) := by
  induction is with
  | nil => simp [addressOf, size, cells]
  | cons i is ih =>
    cases i with
    | label l =>
      simp only [List.cons_append, addressOf]
      split_ifs with hl
      · rfl
      · exact ih
    | word w =>
      simp only [List.cons_append, addressOf, ih]
      cases addressOf x is <;> cases addressOf x js <;> simp [size]; omega
    | ref l =>
      simp only [List.cons_append, addressOf, ih]
      cases addressOf x is <;> cases addressOf x js <;> simp [size]; omega

theorem mem_labels : l ∈ labels is ↔ .label l ∈ is := by
  simp only [labels, List.mem_filterMap]
  constructor
  · rintro ⟨i, hi, hl⟩
    cases i <;> simp_all [Item.label?]
  · exact fun h => ⟨_, h, rfl⟩

theorem mem_refs : l ∈ refs is ↔ .ref l ∈ is := by
  simp only [refs, List.mem_filterMap]
  constructor
  · rintro ⟨i, hi, hl⟩
    cases i <;> simp_all [Item.ref?]
  · exact fun h => ⟨_, h, rfl⟩

theorem addressOf_eq_none_iff : addressOf x is = none ↔ ∀ l ∈ labels is, l.name ≠ x := by
  induction is with
  | nil => simp [addressOf, labels]
  | cons i is ih =>
    cases i with
    | label l => by_cases hl : l.name = x <;> simp_all [addressOf, labels, Item.label?]
    | word w => simpa [addressOf, labels, Item.label?] using ih
    | ref l => simpa [addressOf, labels, Item.label?] using ih

/-- a label that has its name alone is found where it stands -/
theorem addressOf_label (h : Distinct (is ++ .label l :: js)) : addressOf l.name (is ++ .label l :: js) = some (size is) := by
  have hnone : addressOf l.name is = none := by
    rw [addressOf_eq_none_iff]
    intro l' hl' heq
    rw [Distinct, labels_append, List.map_append, List.nodup_append] at h
    exact h.2.2 _ (List.mem_map_of_mem hl') _ (List.mem_map_of_mem (mem_labels.2 List.mem_cons_self)) heq
  rw [addressOf_append, hnone, addressOf, if_pos rfl]
  rfl

/-! ## The code generator -/

/-- the message of `declareLabel` -/
def duplicate (x : Ident) : String := "Compiler::CodeGenerator::declareLabel: label with name '" ++ x ++ "' already declared"

theorem duplicate_eq (x : Ident) :
    duplicate x = "Compiler::CodeGenerator::declareLabel: label with name '" ++ x ++ "' already declared" := rfl

/-- word `n` waits for the address of `x` -/
def Pending (refs : List (Ident × List ℕ)) (x : Ident) (n : ℕ) : Prop := ∃ poses, (x, poses) ∈ refs ∧ n ∈ poses

/-- what the code generator holds after the items `is`, when it held `g` before -/
structure Emitted (g : CodeGenerator) (is : List Item) (g' : CodeGenerator) : Prop where
  program : g'.program = g.program ++ (cells is).map (Item.resolve fun _ => none)
  lookup : ∀ x, g'.labels.lookup x = (g.labels.lookup x).or ((addressOf x is).map (g.program.length + ·))
  pending : ∀ x n, Pending g'.refs x n ↔
    Pending g.refs x n ∨ ∃ k l, n = g.program.length + k ∧ (cells is)[k]? = some (.ref l) ∧ l.name = x
  nonempty : (∀ r ∈ g.refs, r.2 ≠ []) → ∀ r ∈ g'.refs, r.2 ≠ []

variable {y : Ident} {g g' g'' : CodeGenerator}

theorem pending_cons {r : Ident × List ℕ} {refs : List (Ident × List ℕ)} :
    Pending (r :: refs) y k ↔ (r.1 = y ∧ k ∈ r.2) ∨ Pending refs y k := by
  simp only [Pending, List.mem_cons]
  constructor
  · rintro ⟨poses, rfl | h, hk⟩
    · exact .inl ⟨rfl, hk⟩
    · exact .inr ⟨poses, h, hk⟩
  · rintro (⟨rfl, hk⟩ | ⟨poses, h, hk⟩)
    · exact ⟨r.2, .inl rfl, hk⟩
    · exact ⟨poses, .inr h, hk⟩

theorem pending_addRef (refs : List (Ident × List ℕ)) :
    Pending (addRef x n refs) y k ↔ Pending refs y k ∨ (x = y ∧ k = n) := by
  induction refs with
  | nil => simp only [addRef, pending_cons, List.mem_singleton, or_comm]
  | cons r rest ih =>
    obtain ⟨l, poses⟩ := r
    rw [addRef]
    split_ifs with hl
    · subst hl
      simp only [pending_cons, List.mem_append, List.mem_singleton]
      tauto
    · simp only [pending_cons, ih, or_assoc]

theorem addRef_nonempty {refs : List (Ident × List ℕ)} (h : ∀ r ∈ refs, r.2 ≠ []) : ∀ r ∈ addRef x n refs, r.2 ≠ [] := by
  induction refs with
  | nil => simp [addRef]
  | cons r rest ih =>
    obtain ⟨l, poses⟩ := r
    rw [List.forall_mem_cons] at h
    rw [addRef]
    split_ifs with hl
    · exact List.forall_mem_cons.2 ⟨List.append_ne_nil_of_right_ne_nil _ (List.cons_ne_nil _ _), h.2⟩
    · exact List.forall_mem_cons.2 ⟨h.1, ih h.2⟩

theorem Emitted.nil (g : CodeGenerator) : Emitted g [] g where
  program := by simp [cells]
  lookup x := by simp [addressOf]
  pending x n := by simp [cells]
  nonempty h := h

theorem Emitted.append (h : Emitted g is g') (h' : Emitted g' js g'') : Emitted g (is ++ js) g'' where
  program := by rw [h'.program, h.program, cells_append, List.map_append, List.append_assoc]
  lookup x := by
    rw [h'.lookup, h.lookup, addressOf_append, h.program]
    cases g.labels.lookup x <;> cases addressOf x is <;> cases addressOf x js <;> simp [size]; omega
  pending x n := by
    have hlen : g'.program.length = g.program.length + size is := by simp [h.program, size]
    rw [h'.pending, h.pending, hlen, or_assoc]
    refine or_congr_right ⟨?_, ?_⟩
    · rintro (⟨k, l, rfl, hk, rfl⟩ | ⟨k, l, rfl, hk, rfl⟩)
      · refine ⟨k, l, rfl, ?_, rfl⟩
        rw [cells_append, List.getElem?_append_left (List.getElem?_eq_some_iff.1 hk).1, hk]
      · refine ⟨size is + k, l, by omega, ?_, rfl⟩
        rw [cells_append, size, List.getElem?_append_right (by omega), Nat.add_sub_cancel_left, hk]
    · rintro ⟨k, l, rfl, hk, rfl⟩
      rw [cells_append] at hk
      by_cases hlt : k < size is
      · exact .inl ⟨k, l, rfl, by rwa [List.getElem?_append_left hlt] at hk, rfl⟩
      · rw [List.getElem?_append_right (by rw [size] at hlt; omega)] at hk
        exact .inr ⟨k - size is, l, by omega, hk, rfl⟩
  nonempty hg := h'.nonempty (h.nonempty hg)

/-- **Step.** -/
theorem emitted_item {i : Item} (h : i.emit g = .ok g') : Emitted g [i] g' := by
  cases i with
  | word w =>
    obtain rfl := Except.ok.inj h
    exact ⟨rfl, fun x => by simp [addressOf], fun x n => by simp [List.getElem?_singleton], fun h => h⟩
  | ref l =>
    obtain rfl := Except.ok.inj h
    refine ⟨rfl, fun x => by simp [addressOf], fun x n => ?_, fun hg => addRef_nonempty hg⟩
    rw [pending_addRef]
    refine or_congr_right ⟨?_, ?_⟩
    · rintro ⟨rfl, rfl⟩
      exact ⟨0, l, rfl, rfl, rfl⟩
    · rintro ⟨k, l', rfl, hk, rfl⟩
      cases k with
      | zero =>
        obtain rfl : l = l' := by simpa [cells_ref] using hk
        exact ⟨rfl, rfl⟩
      | succ k => simp [cells_ref, cells_nil] at hk
  | label l =>
    simp only [Item.emit, declareLabel] at h
    split_ifs at h with hl
    obtain rfl := Except.ok.inj h
    have hnone : g.labels.lookup l.name = none := Option.not_isSome_iff_eq_none.1 hl
    refine ⟨by simp, fun x => ?_, fun x n => by simp, fun hg => hg⟩
    by_cases hx : l.name = x
    · subst hx
      simp [hnone, addressOf]
    · have hne : (x == l.name) = false := by simpa using Ne.symm hx
      simp [List.lookup_cons, hne, addressOf, hx]

/-- **Run.** -/
theorem emitted_of_ok (h : emit is g = .ok g') : Emitted g is g' := by
  induction is generalizing g with
  | nil =>
    obtain rfl := Except.ok.inj h
    exact .nil g
  | cons i is ih =>
    obtain ⟨g₁, h₁, h⟩ := MyVisitor.bind_ok_iff.1 (emit_cons i is g ▸ h)
    exact (emitted_item h₁).append (ih h)

/-- the code generator takes items whose labels are new and have different names -/
theorem emit_ok_iff : (∃ g', emit is g = .ok g') ↔ Distinct is ∧ ∀ l ∈ labels is, g.labels.lookup l.name = none := by
  induction is generalizing g with
  | nil => simp [Distinct, labels]
  | cons i is ih =>
    rw [emit_cons]
    cases i with
    | word w => exact ih
    | ref l => exact ih
    | label l =>
      simp only [Item.emit, declareLabel]
      split_ifs with hl
      · constructor
        · rintro ⟨_, h⟩
          cases h
        · intro h
          rw [h.2 l (mem_labels.2 List.mem_cons_self)] at hl
          cases hl
      · have hnone : g.labels.lookup l.name = none := Option.not_isSome_iff_eq_none.1 hl
        have hlookup : ∀ l' : Label, List.lookup l'.name ((l.name, g.program.length) :: g.labels) = none ↔
            l'.name ≠ l.name ∧ g.labels.lookup l'.name = none := by
          intro l'
          by_cases heq : l'.name = l.name
          · simp [heq]
          · have hne : (l'.name == l.name) = false := by simpa using heq
            simp [List.lookup_cons, hne, heq]
        refine (ih (g := { g with labels := (l.name, g.program.length) :: g.labels })).trans ?_
        simp only [hlookup, Distinct, labels_label, List.map_cons, List.nodup_cons, List.mem_map, List.forall_mem_cons,
          hnone, true_and, forall_and]
        constructor
        · rintro ⟨hd, hne, hnew⟩
          refine ⟨⟨?_, hd⟩, hnew⟩
          rintro ⟨l', hl', heq⟩
          exact hne l' hl' heq
        · rintro ⟨⟨hne, hd⟩, hnew⟩
          exact ⟨hd, fun l' hl' heq => hne ⟨l', hl', heq⟩, hnew⟩

/-- the exception of the code generator is about one of the labels -/
theorem emit_error {e : String} (h : emit is g = .error e) : ∃ l ∈ labels is, e = duplicate l.name := by
  induction is generalizing g with
  | nil => cases h
  | cons i is ih =>
    rw [emit_cons] at h
    cases i with
    | word w => exact ih h
    | ref l => exact ih h
    | label l =>
      simp only [Item.emit, declareLabel] at h
      split_ifs at h with hl
      · exact ⟨l, mem_labels.2 List.mem_cons_self, (Except.error.inj h).symm⟩
      · obtain ⟨l', hl', he⟩ := ih h
        exact ⟨l', List.mem_cons_of_mem _ hl', he⟩

/-! ## resolveRefs -/

/-- one address filled in, where it belongs -/
theorem foldl_set {w : Opcode} {program target : List Opcode} {poses : List ℕ} (hlen : program.length = target.length)
    (h : ∀ n ∈ poses, target[n]? = some w) :
    (poses.foldl (fun p n => p.set n w) program).length = target.length ∧
      ∀ n, n ∈ poses ∨ program[n]? = target[n]? → (poses.foldl (fun p n => p.set n w) program)[n]? = target[n]? := by
  induction poses generalizing program with
  | nil => exact ⟨hlen, fun n hn => by simpa using hn⟩
  | cons m poses ih =>
    rw [List.forall_mem_cons] at h
    have hlen' : (program.set m w).length = target.length := (List.length_set ..).trans hlen
    obtain ⟨hl, hget⟩ := ih hlen' h.2
    refine ⟨hl, fun n hn => hget n ?_⟩
    by_cases hnm : n = m
    · subst hnm
      have hlt : n < program.length := hlen ▸ (List.getElem?_eq_some_iff.1 h.1).1
      exact .inr ((List.getElem?_set_self hlt).trans h.1.symm)
    · rw [List.mem_cons, or_iff_right hnm] at hn
      rwa [List.getElem?_set_ne (Ne.symm hnm)]

theorem patch_iff {a : ℕ} : patch a g n = .ok g' ↔
    Fits a ∧ g' = { g with program := g.program.set n (BitVec.ofNat 32 a) } := by
  rw [patch, Assembler.lconst, Fits]
  by_cases ha : (BitVec.ofNat 32 a).toNat > 2 ^ 31 - 1
  · rw [if_pos ha]
    exact ⟨fun h => (nomatch h), fun h => by omega⟩
  · rw [if_neg ha]
    exact ⟨fun h => ⟨by omega, (Except.ok.inj h).symm⟩, fun h => congrArg Except.ok h.2.symm⟩

theorem patch_all_iff {a : ℕ} {poses : List ℕ} : poses.foldlM (patch a) g = .ok g' ↔
    (poses ≠ [] → Fits a) ∧
      g' = { g with program := poses.foldl (fun p n => p.set n (BitVec.ofNat 32 a)) g.program } := by
  induction poses generalizing g with
  | nil => simp [pure, Except.pure, eq_comm]
  | cons n poses ih =>
    rw [List.foldlM_cons, MyVisitor.bind_ok_iff]
    constructor
    · rintro ⟨g₁, h₁, h⟩
      obtain ⟨ha, rfl⟩ := patch_iff.1 h₁
      exact ⟨fun _ => ha, (ih.1 h).2⟩
    · rintro ⟨ha, rfl⟩
      have ha := ha (List.cons_ne_nil _ _)
      exact ⟨_, patch_iff.2 ⟨ha, rfl⟩, ih.2 ⟨fun _ => ha, rfl⟩⟩

theorem resolve_iff {r : Ident × List ℕ} : resolve g r = .ok g' ↔ ∃ a, g.labels.lookup r.1 = some a ∧
    (r.2 ≠ [] → Fits a) ∧ g' = { g with program := r.2.foldl (fun p n => p.set n (BitVec.ofNat 32 a)) g.program } := by
  rw [resolve]
  cases g.labels.lookup r.1 with
  | none => simp
  | some a => simp only [patch_all_iff, Option.some.injEq, exists_eq_left']

theorem resolve_all_ok_iff {rs : List (Ident × List ℕ)} : (∃ g', rs.foldlM resolve g = .ok g') ↔
    ∀ r ∈ rs, ∃ a, g.labels.lookup r.1 = some a ∧ (r.2 ≠ [] → Fits a) := by
  induction rs generalizing g with
  | nil => simp [pure, Except.pure]
  | cons r rs ih =>
    rw [List.forall_mem_cons, List.foldlM_cons]
    constructor
    · rintro ⟨g', h⟩
      obtain ⟨g₁, h₁, h⟩ := MyVisitor.bind_ok_iff.1 h
      obtain ⟨a, ha, hfits, rfl⟩ := resolve_iff.1 h₁
      exact ⟨⟨a, ha, hfits⟩, fun r' hr' => ih.1 ⟨g', h⟩ r' hr'⟩
    · rintro ⟨⟨a, ha, hfits⟩, hrs⟩
      obtain ⟨g₁, h₁, hlabels⟩ : ∃ g₁, resolve g r = .ok g₁ ∧ g₁.labels = g.labels :=
        ⟨_, resolve_iff.2 ⟨a, ha, hfits, rfl⟩, rfl⟩
      obtain ⟨g', h⟩ := ih.2 (hlabels ▸ hrs)
      exact ⟨g', MyVisitor.bind_ok_iff.2 ⟨g₁, h₁, h⟩⟩

/-- after `resolve` a place holds what it should, if it waited for an address or held it before -/
theorem resolve_all {rs : List (Ident × List ℕ)} {target : List Opcode} (h : rs.foldlM resolve g = .ok g')
    (hlen : g.program.length = target.length)
    (htarget : ∀ r ∈ rs, ∀ a, g.labels.lookup r.1 = some a → ∀ n ∈ r.2, target[n]? = some (BitVec.ofNat 32 a)) :
    g'.program.length = target.length ∧
      ∀ n, (∃ r ∈ rs, n ∈ r.2) ∨ g.program[n]? = target[n]? → g'.program[n]? = target[n]? := by
  induction rs generalizing g with
  | nil =>
    obtain rfl := Except.ok.inj h
    exact ⟨hlen, fun n hn => by simpa using hn⟩
  | cons r rs ih =>
    rw [List.foldlM_cons] at h
    rw [List.forall_mem_cons] at htarget
    obtain ⟨g₁, h₁, h⟩ := MyVisitor.bind_ok_iff.1 h
    obtain ⟨a, ha, -, rfl⟩ := resolve_iff.1 h₁
    obtain ⟨hlen₁, hset⟩ := foldl_set hlen (htarget.1 a ha)
    obtain ⟨hlen', hget⟩ := ih h hlen₁ htarget.2
    refine ⟨hlen', fun n hn => hget n ?_⟩
    rcases hn with ⟨r', hr', hn⟩ | hn
    · rcases List.mem_cons.1 hr' with rfl | hr'
      · exact .inr (hset n (.inl hn))
      · exact .inl ⟨r', hr', hn⟩
    · exact .inr (hset n (.inr hn))

/-! ## Programs -/

theorem emit_new_iff : (∃ g, emit is .new = .ok g) ↔ Distinct is := by
  rw [emit_ok_iff]
  exact and_iff_left fun l _ => rfl

variable {R : HashOrder (Ident × List ℕ)}

/-- what is pending after the items of a program -/
theorem pending_new (h : Emitted .new is g) : Pending g.refs x n ↔ ∃ l, (cells is)[n]? = some (.ref l) ∧ l.name = x := by
  rw [h.pending]
  constructor
  · rintro (⟨poses, hr, -⟩ | ⟨k, l, rfl, hl, hx⟩)
    · cases hr
    · rw [show CodeGenerator.new.program.length + k = k from Nat.zero_add k]
      exact ⟨l, hl, hx⟩
  · rintro ⟨l, hl, hx⟩
    exact .inr ⟨n, l, (Nat.zero_add n).symm, hl, hx⟩

theorem lookup_new (h : Emitted .new is g) (x : Ident) : g.labels.lookup x = addressOf x is := by
  rw [h.lookup]
  show (none.or ((addressOf x is).map (0 + ·))) = _
  simp

/-- **References.** All of them are resolved, or there is an exception. -/
theorem resolveRefs_ok_iff (h : Emitted .new is g) : (∃ g', resolveRefs R g = .ok g') ↔ Resolved is := by
  rw [resolveRefs, resolve_all_ok_iff]
  constructor
  · intro hall l hl
    obtain ⟨n, hn⟩ := List.mem_iff_getElem?.1 (List.mem_filter.2 ⟨mem_refs.1 hl, rfl⟩ : .ref l ∈ cells is)
    obtain ⟨poses, hr, hpos⟩ := (pending_new h).2 ⟨l, hn, rfl⟩
    obtain ⟨a, ha, hfits⟩ := hall _ ((R.perm _).mem_iff.2 hr)
    exact ⟨a, (lookup_new h _).symm.trans ha, hfits (List.ne_nil_of_mem hpos)⟩
  · intro hres r hr
    have hr := (R.perm _).mem_iff.1 hr
    obtain ⟨n, hn⟩ := List.exists_mem_of_ne_nil _ (h.nonempty (fun _ hr => by cases hr) r hr)
    obtain ⟨l, hl, hname⟩ := (pending_new h).1 ⟨r.2, hr, hn⟩
    obtain ⟨a, ha, hfits⟩ := hres l (mem_refs.2 (List.mem_filter.1 (List.mem_of_getElem? hl)).1)
    exact ⟨a, by rw [lookup_new h, ← hname, ha], fun _ => hfits⟩

/-- the words after `resolveRefs` -/
theorem resolveRefs_program (h : Emitted .new is g) (hr : resolveRefs R g = .ok g') : g'.program = link is := by
  have hprogram : g.program = (cells is).map (Item.resolve fun _ => none) := h.program
  have htarget : ∀ r ∈ R.walk g.refs, ∀ a, g.labels.lookup r.1 = some a → ∀ n ∈ r.2,
      (link is)[n]? = some (BitVec.ofNat 32 a) := by
    intro r hmem a ha n hn
    obtain ⟨l, hl, hname⟩ := (pending_new h).1 ⟨r.2, (R.perm _).mem_iff.1 hmem, hn⟩
    rw [lookup_new h, ← hname] at ha
    rw [link, List.getElem?_map, hl, Option.map_some, Item.resolve, ha, Option.getD_some]
  obtain ⟨hlen, hget⟩ := resolve_all hr (by rw [hprogram, link, List.length_map, List.length_map]) htarget
  refine List.ext_getElem? fun n => hget n ?_
  cases hc : (cells is)[n]? with
  | none => exact .inr (by rw [hprogram, link, List.getElem?_map, List.getElem?_map, hc]; rfl)
  | some i =>
    cases i with
    | word w => exact .inr (by rw [hprogram, link, List.getElem?_map, List.getElem?_map, hc]; rfl)
    | label l => exact absurd (List.mem_filter.1 (List.mem_of_getElem? hc)).2 Bool.false_ne_true
    | ref l =>
      obtain ⟨poses, hmem, hn⟩ := (pending_new h).2 ⟨l, hc, rfl⟩
      exact .inl ⟨_, (R.perm _).mem_iff.2 hmem, hn⟩

/-- **Acceptance.** What a program needs to be accepted, and its words. -/
theorem visitAll_iff (H : HashOrder (Ident × ℕ)) (prog : Prog) (out : List Opcode) :
    (∃ ls, MyVisitor.visitAll H R prog = .ok (out, ls)) ↔
      ∃ is c, listing H prog = (is, .ok c) ∧ Distinct is ∧ Resolved is ∧ out = link is := by
  rw [MyVisitor.visitAll, visitProg_eq]
  obtain ⟨is, r⟩ := listing H prog
  constructor
  · rintro ⟨ls, h⟩
    obtain ⟨v, h₁, h⟩ := MyVisitor.bind_ok_iff.1 h
    obtain ⟨v', h₂, h⟩ := MyVisitor.bind_ok_iff.1 h
    obtain ⟨g, hg, h₁⟩ := MyVisitor.bind_ok_iff.1 h₁
    obtain ⟨c, hc, h₁⟩ := MyVisitor.bind_ok_iff.1 h₁
    obtain rfl := Except.ok.inj h₁
    obtain ⟨g', hg', h₂⟩ := MyVisitor.bind_ok_iff.1 h₂
    obtain rfl := Except.ok.inj h₂
    have hemit := emitted_of_ok hg
    refine ⟨is, c, Prod.ext rfl hc, emit_new_iff.1 ⟨g, hg⟩, (resolveRefs_ok_iff hemit).1 ⟨g', hg'⟩, ?_⟩
    rw [← (Prod.mk.inj (Except.ok.inj h)).1]
    exact resolveRefs_program hemit hg'
  · rintro ⟨_, c, heq, hd, hres, rfl⟩
    obtain ⟨rfl, rfl⟩ := Prod.mk.inj heq
    obtain ⟨g, hg⟩ := emit_new_iff.2 hd
    have hemit := emitted_of_ok hg
    obtain ⟨g', hg'⟩ := (resolveRefs_ok_iff (R := R) hemit).2 hres
    refine ⟨g'.getLabels, ?_⟩
    rw [← resolveRefs_program hemit hg', Listing.onto, hg]
    show (MyVisitor.gen (resolveRefs R) (c.visitor g) >>= _) = _
    rw [MyVisitor.gen, Context.visitor_codeGen, hg']
    rfl

end FpgaLearning.Compiler
