/-
`VariableAllocator.cpp`: an address for each variable of the open blocks.

- An address is taken from the free list, last freed first, and from `firstFree` only when the list is empty.
- `endBlock` frees the addresses of a block in the order in which its hash map is walked, which is not specified:
  everything here is for every `HashOrder`.
- `Partition` is the invariant: free addresses and addresses of open variables make up `0 .. firstFree - 1`, each once.
-/
import Mathlib.Tactic

namespace FpgaLearning.Compiler

/-! ## Types -/

/-- `ident_t` -/
abbrev Ident := String

/-- the order in which a hash map is walked, given its entries in the order in which they came -/
structure HashOrder (α : Type) where
  walk : List α → List α
  perm : ∀ l, (walk l).Perm l

/-- the order of insertion, for examples -/
def HashOrder.insertion (α : Type) : HashOrder α := ⟨id, fun l => List.Perm.refl l⟩

inductive Scope where
  | global | stack
deriving DecidableEq, Repr

/-- the variables of a block, newest first -/
abbrev Block := List (Ident × ℕ)

/-- `mFree` with its back first; `mBlocks` is never empty, `block` is its back -/
structure VariableAllocator where
  baseOffset : ℕ
  scope : Scope
  firstFree : ℕ
  free : List ℕ
  block : Block
  outer : List Block
deriving DecidableEq, Repr

namespace VariableAllocator

open scoped List

/-- the constructor starts a block -/
def new (baseOffset : ℕ) (scope : Scope) : VariableAllocator := ⟨baseOffset, scope, 0, [], [], []⟩

def startBlock (a : VariableAllocator) : VariableAllocator := { a with block := [], outer := a.block :: a.outer }

def endBlock (H : HashOrder (Ident × ℕ)) (a : VariableAllocator) : Except String VariableAllocator :=
  match a.outer with
  | [] => .error "Compiler::VariableAllocator::endBlock: there are no blocks to close."
  | b :: rest => .ok { a with free := ((H.walk a.block).map Prod.snd).reverse ++ a.free, block := b, outer := rest }

def allocAddr (a : VariableAllocator) : ℕ × VariableAllocator :=
  match a.free with
  | addr :: rest => (addr, { a with free := rest })
  | [] => (a.firstFree, { a with firstFree := a.firstFree + 1 })

def alloc (name : Ident) (a : VariableAllocator) : Except String (ℕ × VariableAllocator) :=
  if (a.block.lookup name).isSome then .error "Compiler::VariableAllocator::alloc: variable is already declared."
  else
    let (addr, a) := a.allocAddr
    .ok (a.baseOffset + addr, { a with block := (name, addr) :: a.block })

def getAddr (name : Ident) (a : VariableAllocator) : Option ℕ :=
  ((a.block :: a.outer).findSome? (List.lookup name)).map (a.baseOffset + ·)

def getMaxAlloc (a : VariableAllocator) : ℕ := a.firstFree

/-! ## Open variables -/

variable {a a' : VariableAllocator} {H : HashOrder (Ident × ℕ)} {x y : Ident} {addr : ℕ}

/-- the variables of all open blocks, innermost first -/
def vars (a : VariableAllocator) : List (Ident × ℕ) := a.block ++ a.outer.flatten

theorem findSome_lookup (x : Ident) (bs : List Block) : bs.findSome? (List.lookup x) = bs.flatten.lookup x := by
  induction bs with
  | nil => rfl
  | cons b rest ih => rw [List.findSome?_cons, List.flatten_cons, List.lookup_append, ih]; cases b.lookup x <;> rfl

/-- the innermost declaration of a name -/
theorem getAddr_eq (x : Ident) (a : VariableAllocator) : a.getAddr x = (a.vars.lookup x).map (a.baseOffset + ·) := by
  rw [getAddr, findSome_lookup]
  rfl

@[simp] theorem startBlock_vars (a : VariableAllocator) : a.startBlock.vars = a.vars := rfl

@[simp] theorem getAddr_startBlock (a : VariableAllocator) (x : Ident) : a.startBlock.getAddr x = a.getAddr x := by
  rw [getAddr_eq, getAddr_eq]
  rfl

/-- what `alloc` does: the slot comes from the free list, or is the first free one -/
theorem alloc_cases (h : a.alloc x = .ok (addr, a')) : ∃ slot, addr = a.baseOffset + slot ∧ a.block.lookup x = none ∧
    ((∃ rest, a.free = slot :: rest ∧ a' = { a with free := rest, block := (x, slot) :: a.block }) ∨
      (a.free = [] ∧ slot = a.firstFree ∧
        a' = { a with firstFree := a.firstFree + 1, block := (x, slot) :: a.block })) := by
  unfold alloc at h
  split_ifs at h with hx
  have hnone : a.block.lookup x = none := Option.not_isSome_iff_eq_none.1 hx
  cases hfree : a.free with
  | nil =>
    simp only [allocAddr, hfree, Except.ok.injEq, Prod.mk.injEq] at h
    exact ⟨_, h.1.symm, hnone, .inr ⟨rfl, rfl, h.2.symm⟩⟩
  | cons slot rest =>
    simp only [allocAddr, hfree, Except.ok.injEq, Prod.mk.injEq] at h
    exact ⟨slot, h.1.symm, hnone, .inl ⟨rest, rfl, h.2.symm⟩⟩

/-- the new variable comes first -/
theorem vars_of_alloc (h : a.alloc x = .ok (addr, a')) :
    ∃ slot, addr = a.baseOffset + slot ∧ a'.vars = (x, slot) :: a.vars := by
  obtain ⟨slot, rfl, -, ⟨rest, -, rfl⟩ | ⟨-, -, rfl⟩⟩ := alloc_cases h
  · exact ⟨slot, rfl, rfl⟩
  · exact ⟨slot, rfl, rfl⟩

/-- what `endBlock` does -/
theorem endBlock_cases (h : a.endBlock H = .ok a') : ∃ b rest, a.outer = b :: rest ∧
    a' = { a with free := ((H.walk a.block).map Prod.snd).reverse ++ a.free, block := b, outer := rest } := by
  unfold endBlock at h
  cases hb : a.outer with
  | nil =>
    rw [hb] at h
    cases h
  | cons b rest =>
    rw [hb] at h
    exact ⟨b, rest, rfl, by simpa using h.symm⟩

/-! ## The partition -/

/-- free slots and slots of open variables make up `0 .. firstFree - 1`, each once -/
def Partition (a : VariableAllocator) : Prop := (a.free ++ a.vars.map Prod.snd).Perm (List.range a.firstFree)

theorem Partition.new (baseOffset : ℕ) (scope : Scope) : (new baseOffset scope).Partition := List.Perm.refl _

theorem Partition.startBlock (h : a.Partition) : a.startBlock.Partition := h

theorem Partition.alloc (h : a.Partition) (hx : a.alloc x = .ok (addr, a')) : a'.Partition := by
  obtain ⟨slot, -, -, ⟨rest, hfree, rfl⟩ | ⟨hfree, rfl, rfl⟩⟩ := alloc_cases hx
  · rw [Partition, hfree] at h
    exact List.perm_middle.trans h
  · rw [Partition, hfree] at h
    rw [Partition, List.range_succ, hfree]
    calc a.firstFree :: a.vars.map Prod.snd
      _ ~ a.firstFree :: List.range a.firstFree := h.cons _
      _ ~ List.range a.firstFree ++ [a.firstFree] := (List.perm_append_singleton _ _).symm

theorem Partition.endBlock (h : a.Partition) (he : a.endBlock H = .ok a') : a'.Partition := by
  obtain ⟨b, rest, hb, rfl⟩ := endBlock_cases he
  have hblock : ((H.walk a.block).map Prod.snd).reverse ~ a.block.map Prod.snd :=
    (List.reverse_perm _).trans ((H.perm _).map _)
  rw [Partition, vars, hb, List.flatten_cons, List.map_append] at h
  calc (((H.walk a.block).map Prod.snd).reverse ++ a.free) ++ (b ++ rest.flatten).map Prod.snd
    _ ~ (a.block.map Prod.snd ++ a.free) ++ (b ++ rest.flatten).map Prod.snd := (hblock.append_right _).append_right _
    _ ~ (a.free ++ a.block.map Prod.snd) ++ (b ++ rest.flatten).map Prod.snd := List.perm_append_comm.append_right _
    _ ~ List.range a.firstFree := by rwa [List.append_assoc]

theorem Partition.slot_lt (h : a.Partition) {slot : ℕ} (hx : (x, slot) ∈ a.vars) : slot < a.firstFree :=
  List.mem_range.1 (h.subset (List.mem_append_right _ (List.mem_map_of_mem hx)))

/-- two open variables never share a slot -/
theorem Partition.nodup (h : a.Partition) : (a.vars.map Prod.snd).Nodup :=
  (h.nodup_iff.2 List.nodup_range).of_append_right

end VariableAllocator

end FpgaLearning.Compiler
