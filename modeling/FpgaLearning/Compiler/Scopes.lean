/-
`VariableAllocator` over whole runs of its public calls, failing ones included.

- `allocM` and `endBlockM` are the methods statement by statement; an exception leaves the allocator as it is at that
  point. They agree with `alloc` and `endBlock`.
- `Scopes` is what the class is for: the declarations of the open blocks, innermost first, read off what the calls did.
- `slots_never_collide` is for every sequence of calls, each with its own order of the hash map.
-/
import FpgaLearning.Compiler.VariableAllocator

namespace FpgaLearning.Compiler.VariableAllocator

/-! ## Exceptions -/

/-- a method that may throw, with the allocator afterwards in both cases -/
abbrev Act (α : Type) := EStateM String VariableAllocator α

def allocAddrM : Act ℕ := do
  match (← get).free with
  | addr :: rest =>
    modify fun a => { a with free := rest }
    return addr
  | [] =>
    let addr := (← get).firstFree
    modify fun a => { a with firstFree := a.firstFree + 1 }
    return addr

def freeAddrM (addr : ℕ) : Act Unit := modify fun a => { a with free := addr :: a.free }

def allocM (name : Ident) : Act ℕ := do
  if ((← get).block.lookup name).isSome then
    throw "Compiler::VariableAllocator::alloc: variable is already declared."
  let addr ← allocAddrM
  modify fun a => { a with block := (name, addr) :: a.block }
  return (← get).baseOffset + addr

/-- `mBlocks.size() <= 1` is an empty `outer` -/
def endBlockM (H : HashOrder (Ident × ℕ)) : Act Unit := do
  if (← get).outer.isEmpty then
    throw "Compiler::VariableAllocator::endBlock: there are no blocks to close."
  (H.walk (← get).block).forM fun v => freeAddrM v.2
  modify fun a => { a with block := a.outer.headD [], outer := a.outer.tail }

variable {a a' : VariableAllocator} {H : HashOrder (Ident × ℕ)} {x : Ident}

theorem allocAddrM_run (a : VariableAllocator) : allocAddrM.run a = .ok a.allocAddr.1 a.allocAddr.2 := by
  cases h : a.free <;> simp [allocAddrM, allocAddr, h, -bind_pure_comp]

/-- an exception of `alloc` comes before any change -/
theorem allocM_run (x : Ident) (a : VariableAllocator) : (allocM x).run a =
    match a.alloc x with
    | .ok (addr, a') => .ok addr a'
    | .error e => .error e a := by
  by_cases h : (a.block.lookup x).isSome
  · simp only [allocM, alloc, h, EStateM.run_bind, EStateM.run_get, if_true]
    rfl
  · cases hfree : a.free <;> simp [allocM, alloc, h, allocAddrM_run, allocAddr, hfree, -bind_pure_comp]

theorem freeAll_run (vs : List (Ident × ℕ)) (a : VariableAllocator) :
    (forM vs fun v => freeAddrM v.2 : Act Unit).run a = .ok () { a with free := (vs.map Prod.snd).reverse ++ a.free } := by
  induction vs generalizing a with
  | nil => rfl
  | cons v vs ih =>
    rw [List.forM_cons, EStateM.run_bind, freeAddrM, EStateM.run_modify]
    simp [ih]

/-- and so does one of `endBlock` -/
theorem endBlockM_run (H : HashOrder (Ident × ℕ)) (a : VariableAllocator) : (endBlockM H).run a =
    match a.endBlock H with
    | .ok a' => .ok () a'
    | .error e => .error e a := by
  cases h : a.outer with
  | nil => simp [endBlockM, endBlock, h]
  | cons b rest => simp [endBlockM, endBlock, h, freeAll_run]

/-! ## Runs -/

/-- a call, with the order in which this `endBlock` walks the hash map of its block -/
inductive Call where
  | startBlock
  | alloc (name : Ident)
  | endBlock (H : HashOrder (Ident × ℕ))

/-- what a call did -/
inductive Event where
  | started
  | allocated (name : Ident) (addr : ℕ)
  | ended
  | failed

def call (a : VariableAllocator) : Call → Event × VariableAllocator
  | .startBlock => (.started, a.startBlock)
  | .alloc name =>
    match (allocM name).run a with
    | .ok addr a => (.allocated name addr, a)
    | .error _ a => (.failed, a)
  | .endBlock H =>
    match (endBlockM H).run a with
    | .ok _ a => (.ended, a)
    | .error _ a => (.failed, a)

def after (a : VariableAllocator) (cs : List Call) : VariableAllocator := cs.foldl (fun a c => (a.call c).2) a

def events (a : VariableAllocator) : List Call → List Event
  | [] => []
  | c :: cs => (a.call c).1 :: (a.call c).2.events cs

/-- calls that open and close blocks in pairs -/
inductive Balanced : List Call → Prop where
  | nil : Balanced []
  | alloc {cs : List Call} (name : Ident) (h : Balanced cs) : Balanced (.alloc name :: cs)
  | block {cs ds : List Call} (H : HashOrder (Ident × ℕ)) (h : Balanced cs) (h' : Balanced ds) :
      Balanced (.startBlock :: (cs ++ .endBlock H :: ds))

/-! ## Declarations -/

/-- the declarations of the open blocks with the addresses `alloc` returned, innermost first -/
abbrev Scopes := List (List (Ident × ℕ))

namespace Scopes

/-- the constructor opens one block -/
def new : Scopes := [[]]

def next (scopes : Scopes) : Event → Scopes
  | .started => [] :: scopes
  | .allocated name addr => ((name, addr) :: scopes.headD []) :: scopes.tail
  | .ended => scopes.tail
  | .failed => scopes

def after (es : List Event) : Scopes := es.foldl next new

/-- the innermost open declaration -/
def find (scopes : Scopes) (name : Ident) : Option ℕ := scopes.flatten.lookup name

end Scopes

/-! ## One call -/

theorem call_alloc_of_ok {addr : ℕ} (h : a.alloc x = .ok (addr, a')) : a.call (.alloc x) = (.allocated x addr, a') := by
  rw [call, allocM_run, h]

theorem call_alloc_of_error {e : String} (h : a.alloc x = .error e) : a.call (.alloc x) = (.failed, a) := by
  rw [call, allocM_run, h]

theorem call_endBlock_of_ok (h : a.endBlock H = .ok a') : a.call (.endBlock H) = (.ended, a') := by
  rw [call, endBlockM_run, h]

theorem call_endBlock_of_error {e : String} (h : a.endBlock H = .error e) : a.call (.endBlock H) = (.failed, a) := by
  rw [call, endBlockM_run, h]

/-- everything a call can do -/
theorem call_cases (a : VariableAllocator) (c : Call) :
    (c = .startBlock ∧ a.call c = (.started, a.startBlock)) ∨
    (∃ x addr a', c = .alloc x ∧ a.alloc x = .ok (addr, a') ∧ a.call c = (.allocated x addr, a')) ∨
    (∃ H a', c = .endBlock H ∧ a.endBlock H = .ok a' ∧ a.call c = (.ended, a')) ∨
    a.call c = (.failed, a) := by
  cases c with
  | startBlock => exact .inl ⟨rfl, rfl⟩
  | alloc x =>
    cases h : a.alloc x with
    | ok r => exact .inr (.inl ⟨x, r.1, r.2, rfl, h, call_alloc_of_ok h⟩)
    | error e => exact .inr (.inr (.inr (call_alloc_of_error h)))
  | endBlock H =>
    cases h : a.endBlock H with
    | ok a' => exact .inr (.inr (.inl ⟨H, a', rfl, h, call_endBlock_of_ok h⟩))
    | error e => exact .inr (.inr (.inr (call_endBlock_of_error h)))

/-- the declarations as the allocator has them -/
def scopes (a : VariableAllocator) : Scopes :=
  (a.block :: a.outer).map fun b => b.map fun v => (v.1, a.baseOffset + v.2)

theorem lookup_map {α β : Type} (f : α → β) (x : Ident) (vs : List (Ident × α)) :
    (vs.map fun v => (v.1, f v.2)).lookup x = (vs.lookup x).map f := by
  induction vs with
  | nil => rfl
  | cons v vs ih =>
    rw [List.map_cons, List.lookup_cons, List.lookup_cons, ih]
    cases x == v.1 <;> rfl

theorem getAddr_scopes (a : VariableAllocator) (x : Ident) : a.getAddr x = a.scopes.find x := by
  rw [getAddr_eq, Scopes.find, scopes, ← List.map_flatten, lookup_map]
  rfl

theorem alloc_scopes {addr : ℕ} (h : a.alloc x = .ok (addr, a')) : a'.scopes = a.scopes.next (.allocated x addr) := by
  obtain ⟨slot, rfl, -, ⟨rest, -, rfl⟩ | ⟨-, rfl, rfl⟩⟩ := alloc_cases h
  · rfl
  · rfl

theorem endBlock_scopes (h : a.endBlock H = .ok a') : a'.scopes = a.scopes.next .ended := by
  obtain ⟨b, rest, hb, rfl⟩ := endBlock_cases h
  simp only [scopes, Scopes.next, hb, List.map_cons, List.tail_cons]

/-- **Step.** What a call keeps, and what it declares. -/
structure Step (a : VariableAllocator) (e : Event) (a' : VariableAllocator) : Prop where
  partition : a'.Partition
  mono : a.firstFree ≤ a'.firstFree
  base : a'.baseOffset = a.baseOffset
  scopes : a'.scopes = a.scopes.next e
  slot : ∀ x addr, e = .allocated x addr → ∃ slot < a'.firstFree, addr = a.baseOffset + slot

theorem Partition.call (h : a.Partition) (c : Call) : Step a (a.call c).1 (a.call c).2 := by
  rcases call_cases a c with ⟨-, hc⟩ | ⟨x, addr, a', -, ha, hc⟩ | ⟨H, a', -, ha, hc⟩ | hc
  · rw [hc]
    exact ⟨h.startBlock, le_rfl, rfl, rfl, fun _ _ he => by cases he⟩
  · rw [hc]
    have hp := h.alloc ha
    have hs := alloc_scopes ha
    obtain ⟨slot, rfl, -, ⟨rest, -, rfl⟩ | ⟨-, rfl, rfl⟩⟩ := alloc_cases ha
    · refine ⟨hp, le_rfl, rfl, hs, ?_⟩
      rintro _ _ ⟨⟩
      exact ⟨slot, hp.slot_lt List.mem_cons_self, rfl⟩
    · refine ⟨hp, Nat.le_succ _, rfl, hs, ?_⟩
      rintro _ _ ⟨⟩
      exact ⟨_, Nat.lt_succ_self _, rfl⟩
  · rw [hc]
    have hp := h.endBlock ha
    have hs := endBlock_scopes ha
    obtain ⟨b, rest, -, rfl⟩ := endBlock_cases ha
    exact ⟨hp, le_rfl, rfl, hs, fun _ _ he => by cases he⟩
  · rw [hc]
    exact ⟨h, le_rfl, rfl, rfl, fun _ _ he => by cases he⟩

/-! ## Runs -/

theorem after_cons (a : VariableAllocator) (c : Call) (cs : List Call) : a.after (c :: cs) = (a.call c).2.after cs := rfl

theorem after_append (a : VariableAllocator) (cs ds : List Call) : a.after (cs ++ ds) = (a.after cs).after ds :=
  List.foldl_append

/-- **Run.** -/
theorem Partition.after (h : a.Partition) (cs : List Call) :
    (a.after cs).Partition ∧ a.firstFree ≤ (a.after cs).firstFree ∧ (a.after cs).baseOffset = a.baseOffset ∧
      (a.after cs).scopes = (a.events cs).foldl Scopes.next a.scopes ∧
      ∀ x addr, .allocated x addr ∈ a.events cs → ∃ slot < (a.after cs).firstFree, addr = a.baseOffset + slot := by
  induction cs generalizing a with
  | nil => exact ⟨h, le_rfl, rfl, rfl, fun _ _ he => by cases he⟩
  | cons c cs ih =>
    have hstep := h.call c
    obtain ⟨hp, hmono, hbase, hscopes, hslot⟩ := ih hstep.partition
    rw [after_cons]
    refine ⟨hp, hstep.mono.trans hmono, hbase.trans hstep.base, ?_, ?_⟩
    · rw [hscopes, hstep.scopes]
      rfl
    · intro x addr he
      rcases List.mem_cons.1 he with he | he
      · obtain ⟨slot, hlt, rfl⟩ := hstep.slot x addr he.symm
        exact ⟨slot, hlt.trans_le hmono, rfl⟩
      · obtain ⟨slot, hlt, rfl⟩ := hslot x addr he
        exact ⟨slot, hlt, by rw [hstep.base]⟩

/-- `endBlock` brings back the block below -/
theorem call_endBlock {b : VariableAllocator} (H : HashOrder (Ident × ℕ)) (ho : b.outer = a.block :: a.outer)
    (hb : b.baseOffset = a.baseOffset) : ∃ a', b.call (.endBlock H) = (.ended, a') ∧ a'.block = a.block ∧
      a'.outer = a.outer ∧ a'.baseOffset = a.baseOffset := by
  have hok : b.endBlock H = .ok { b with
      free := ((H.walk b.block).map Prod.snd).reverse ++ b.free, block := a.block, outer := a.outer } := by
    rw [endBlock, ho]
  exact ⟨_, call_endBlock_of_ok hok, rfl, rfl, hb⟩

/-- inside a block nothing touches the blocks around it -/
theorem Balanced.outer {cs : List Call} (h : Balanced cs) (a : VariableAllocator) :
    (a.after cs).outer = a.outer ∧ (a.after cs).baseOffset = a.baseOffset := by
  induction h generalizing a with
  | nil => exact ⟨rfl, rfl⟩
  | @alloc cs x h ih =>
    rw [after_cons]
    have hcall : (a.call (.alloc x)).2.outer = a.outer ∧ (a.call (.alloc x)).2.baseOffset = a.baseOffset := by
      cases ha : a.alloc x with
      | error e =>
        rw [call_alloc_of_error ha]
        exact ⟨rfl, rfl⟩
      | ok r =>
        rw [call_alloc_of_ok ha]
        obtain ⟨slot, -, -, ⟨rest, -, heq⟩ | ⟨-, -, heq⟩⟩ := alloc_cases ha
        · rw [heq]
          exact ⟨rfl, rfl⟩
        · rw [heq]
          exact ⟨rfl, rfl⟩
    exact ⟨(ih _).1.trans hcall.1, (ih _).2.trans hcall.2⟩
  | @block cs ds H h h' ih ih' =>
    rw [after_cons, after_append, after_cons]
    obtain ⟨ho, hb⟩ := ih a.startBlock
    obtain ⟨a', ha', -, ho', hb'⟩ := call_endBlock (a := a) H ho hb
    have hinner : (((a.call .startBlock).2.after cs).call (.endBlock H)).2 = a' := congrArg Prod.snd ha'
    rw [hinner]
    exact ⟨(ih' a').1.trans ho', (ih' a').2.trans hb'⟩

/-- **Blocks.** A block that is opened and closed leaves every lookup as it was. -/
theorem Balanced.restore {cs : List Call} (h : Balanced cs) (a : VariableAllocator) (H : HashOrder (Ident × ℕ)) :
    ((a.startBlock.after cs).call (.endBlock H)).1 = .ended ∧
      ∀ x, ((a.startBlock.after cs).call (.endBlock H)).2.getAddr x = a.getAddr x := by
  obtain ⟨ho, hb⟩ := h.outer a.startBlock
  obtain ⟨a', ha', hblock, houter, hbase⟩ := call_endBlock (a := a) H ho hb
  rw [ha']
  exact ⟨rfl, fun x => by rw [getAddr, getAddr, hblock, houter, hbase]⟩

/-- **Slots never collide.** For every sequence of calls, failing ones included, and every order of the hash maps. -/
theorem slots_never_collide (baseOffset : ℕ) (scope : Scope) (cs : List Call) :
    let start := new baseOffset scope
    let a := start.after cs
    let declared := Scopes.after (start.events cs)
    -- slots
    ((a.vars.map Prod.snd).Nodup ∧ (a.free ++ a.vars.map Prod.snd).Perm (List.range a.getMaxAlloc)) ∧
    -- the high-water mark
    (∀ ds, a.getMaxAlloc ≤ (a.after ds).getMaxAlloc) ∧
    (∀ x addr, .allocated x addr ∈ start.events cs → ∃ slot < a.getMaxAlloc, addr = baseOffset + slot) ∧
    -- lookups
    (∀ x, a.getAddr x = declared.find x) ∧
    (∀ ds, Balanced ds → ∀ H, ((a.startBlock.after ds).call (.endBlock H)).1 = .ended ∧
      ∀ x, ((a.startBlock.after ds).call (.endBlock H)).2.getAddr x = a.getAddr x) ∧
    -- failures, and nothing else fails
    (∀ x, ((declared.headD []).lookup x).isSome → ∃ e, (allocM x).run a = .error e a) ∧
    (declared.length ≤ 1 → ∀ H, ∃ e, (endBlockM H).run a = .error e a) ∧
    (∀ x, ((declared.headD []).lookup x).isNone → ∃ addr a', (allocM x).run a = .ok addr a') ∧
    (1 < declared.length → ∀ H, ∃ a', (endBlockM H).run a = .ok () a') := by
  intro start a declared
  obtain ⟨hp, -, hbase, hscopes, hslot⟩ := (Partition.new baseOffset scope).after cs
  have hdeclared : a.scopes = declared := hscopes
  have hblock (x : Ident) : ((declared.headD []).lookup x).isSome = (a.block.lookup x).isSome := by
    rw [← hdeclared, scopes, List.map_cons, List.headD_cons, lookup_map, Option.isSome_map]
  have hlength : declared.length = a.outer.length + 1 := by
    rw [← hdeclared, scopes, List.length_map, List.length_cons]
  refine ⟨⟨hp.nodup, hp⟩, fun ds => (hp.after ds).2.1, hslot, fun x => ?_, fun ds hds H => hds.restore a H, ?_, ?_, ?_, ?_⟩
  · rw [getAddr_scopes, hdeclared]
  · intro x hx
    rw [hblock] at hx
    exact ⟨_, by rw [allocM_run, alloc, if_pos hx]⟩
  · intro hlen H
    have hnil : a.outer = [] := List.eq_nil_of_length_eq_zero (by omega)
    exact ⟨_, by rw [endBlockM_run, endBlock, hnil]⟩
  · intro x hx
    rw [← Option.not_isSome, hblock, Bool.not_eq_true'] at hx
    exact ⟨_, _, by rw [allocM_run, alloc, if_neg (Bool.eq_false_iff.1 hx)]⟩
  · intro hlen H
    obtain ⟨b, rest, hcons⟩ := List.exists_cons_of_length_pos (l := a.outer) (by omega)
    exact ⟨_, by rw [endBlockM_run, endBlock, hcons]⟩

end FpgaLearning.Compiler.VariableAllocator
