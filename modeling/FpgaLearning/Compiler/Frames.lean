/-
Variables in the RAM.

Global variables are at 200 and up. The frame of a function is the `size` words above `base`; its variables count down
from fp, which is `base + size`. `InFrame` says that the variables of the interpreter are the words of the RAM where the
allocators put them.

- `InFrame.read_eq`: the machine and the interpreter read the same variables.
- `InFrame.declare`, `InFrame.assign`: a store to the slot of a variable is what the interpreter does to it.
-/
import FpgaLearning.Compiler.Moves
import FpgaLearning.Compiler.Interpreter
import FpgaLearning.Compiler.Scopes

namespace FpgaLearning.Compiler

open FpgaLearning.Memory FpgaLearning.Stack FpgaLearning.Stack.Arch FpgaLearning.Traced

open VariableAllocator (lookup_map)

/-! ## Frames -/

/-- the allocator of at most 824 global variables -/
structure GlobalAllocator (ga : VariableAllocator) : Prop where
  scope : ga.scope = .global
  base : ga.baseOffset = 200
  partition : ga.Partition
  few : ga.firstFree ≤ 824

/-- the context inside a function -/
structure InFunction (ga : VariableAllocator) (c : Context) : Prop where
  below : c.below = [ga]
  globals : GlobalAllocator ga
  allocator : LocalAllocator c.allocator

structure InFrame (ga a : VariableAllocator) (env : Env) (base size : ℕ) (s : Arch) : Prop where
  fp : s.fp = BitVec.ofNat 32 (base + size)
  low : 1024 ≤ base
  high : base + size < 2 ^ 15
  fits : a.firstFree ≤ size
  globals : env.globals = ga.vars.map fun v => (v.1, s.word (200 + v.2))
  locals : env.locals = a.vars.map fun v => (v.1, s.word (base + size - v.2))

variable {ga a a' : VariableAllocator} {c c' : Context} {env env' : Env} {base size p n m k slot addr : ℕ} {s s' : Arch}
  {x y : Ident} {w : Word} {scope : Scope}

theorem GlobalAllocator.slot_lt (hg : GlobalAllocator ga) (hx : (x, slot) ∈ ga.vars) : slot < 824 :=
  (hg.partition.slot_lt hx).trans_le hg.few

theorem LocalAllocator.slot_lt (hl : LocalAllocator a) (hf : InFrame ga a env base size s) (hx : (x, slot) ∈ a.vars) :
    slot < size := (hl.partition.slot_lt hx).trans_le hf.fits

theorem Grown.inFunction (h : Grown c c') (hc : InFunction ga c) : InFunction ga c' :=
  ⟨h.below.trans hc.below, hc.globals, h.allocator hc.allocator⟩

/-- the frame is the words above the stack -/
theorem InFrame.congr (h : InFrame ga a env base size s) (hg : GlobalAllocator ga) (hl : LocalAllocator a)
    (hfp : s'.fp = s.fp) (hwords : ∀ k < 2 ^ 15, 200 ≤ k → s'.word k = s.word k) : InFrame ga a env base size s' where
  fp := hfp.trans h.fp
  low := h.low
  high := h.high
  fits := h.fits
  globals := by
    rw [h.globals]
    refine List.map_congr_left fun v hv => ?_
    have hlt := hg.slot_lt hv
    rw [hwords _ (by omega) (by omega)]
  locals := by
    rw [h.locals]
    refine List.map_congr_left fun v hv => ?_
    have hlt := hl.slot_lt h hv
    have hlow := h.low
    have hhigh := h.high
    rw [hwords _ (by omega) (by omega)]

theorem InFrame.moved (h : InFrame ga a env base size s) (hc : InFunction ga c) (ha : a = c.allocator)
    (hm : Moved p n m s s') : InFrame ga a env base size s' :=
  h.congr hc.globals (ha ▸ hc.allocator) hm.fp fun k hk hk' => hm.words k hk (.inr hk')

/-- what counts of the allocator is its variables -/
theorem InFrame.of_vars (h : InFrame ga a env base size s) (hvars : a'.vars = a.vars) (hfits : a'.firstFree ≤ size) :
    InFrame ga a' env base size s := ⟨h.fp, h.low, h.high, hfits, h.globals, by rw [hvars]; exact h.locals⟩

/-- the end of a block: the variables are those of the blocks around it -/
theorem InFrame.leave (h : InFrame ga a env base size s) (houter : a.outer.flatten = a'.vars) (hfits : a'.firstFree ≤ size)
    (hn : n = a'.vars.length) : InFrame ga a' (env.leave n) base size s := by
  refine ⟨h.fp, h.low, h.high, hfits, h.globals, ?_⟩
  have hlocals := h.locals
  rw [VariableAllocator.vars, houter, List.map_append] at hlocals
  have hlen : env.locals.length - n = (a.block.map fun v => (v.1, s.word (base + size - v.2))).length := by
    rw [hlocals, hn, List.length_append, List.length_map, List.length_map]
    omega
  rw [Env.leave, hlen, hlocals, List.drop_left]

/-! ## Reading -/

theorem getDeclaration_eq (hc : InFunction ga c) (x : Ident) : c.getDeclaration x =
    match c.allocator.vars.lookup x with
    | some slot => some (slot, .stack)
    | none => (ga.vars.lookup x).map fun slot => (200 + slot, .global) := by
  rw [Context.getDeclaration, MyVisitor.getDeclaration]
  show (c.allocator :: c.below).findSome? _ = _
  rw [hc.below, List.findSome?_cons, List.findSome?_cons, List.findSome?_nil, VariableAllocator.getAddr_eq,
    VariableAllocator.getAddr_eq, hc.allocator.base, hc.allocator.scope, hc.globals.base, hc.globals.scope]
  cases c.allocator.vars.lookup x with
  | some slot => simp
  | none => cases ga.vars.lookup x <;> rfl

/-- the word of the RAM for a variable -/
def place (base size : ℕ) : ℕ × Scope → ℕ
  | (addr, .global) => addr
  | (addr, .stack) => base + size - addr

theorem mem_of_lookup {vs : List (Ident × ℕ)} (h : vs.lookup x = some slot) : (x, slot) ∈ vs := by
  obtain ⟨l₁, l₂, rfl, -⟩ := List.lookup_eq_some_iff.1 h
  exact List.mem_append_right _ List.mem_cons_self

/-- where a variable is: one of the function, or a global one -/
theorem getDeclaration_cases (hc : InFunction ga c) {d : ℕ × Scope} (hx : c.getDeclaration x = some d) :
    (∃ slot, c.allocator.vars.lookup x = some slot ∧ d = (slot, .stack)) ∨
      ∃ slot, c.allocator.vars.lookup x = none ∧ ga.vars.lookup x = some slot ∧ d = (200 + slot, .global) := by
  rw [getDeclaration_eq hc] at hx
  cases hl : c.allocator.vars.lookup x with
  | some slot =>
    rw [hl] at hx
    exact .inl ⟨slot, rfl, (Option.some.inj hx).symm⟩
  | none =>
    rw [hl] at hx
    obtain ⟨slot, hslot, rfl⟩ := Option.map_eq_some_iff.1 hx
    exact .inr ⟨slot, rfl, hslot, rfl⟩

/-- a slot of the frame -/
theorem InFrame.local_address (h : InFrame ga a env base size s) (hslot : slot < size) :
    Compiler.address s slot .stack = BitVec.ofNat 32 (base + size - slot) := by
  have hhigh := h.high
  rw [Compiler.address, h.fp]
  apply BitVec.eq_of_toNat_eq
  rw [BitVec.toNat_sub, BitVec.toNat_ofNat, BitVec.toNat_ofNat, BitVec.toNat_ofNat]
  omega

/-- a variable has its word above the stack -/
theorem InFrame.address (h : InFrame ga c.allocator env base size s) (hc : InFunction ga c) {d : ℕ × Scope}
    (hx : c.getDeclaration x = some d) :
    Compiler.address s d.1 d.2 = BitVec.ofNat 32 (place base size d) ∧ 200 ≤ place base size d ∧
      place base size d < 2 ^ 15 := by
  have hlow := h.low
  have hhigh := h.high
  obtain ⟨slot, hl, rfl⟩ | ⟨slot, -, hl, rfl⟩ := getDeclaration_cases hc hx
  · have hlt := hc.allocator.slot_lt h (mem_of_lookup hl)
    exact ⟨h.local_address hlt, by simp only [place]; omega, by simp only [place]; omega⟩
  · have hlt := hc.globals.slot_lt (mem_of_lookup hl)
    exact ⟨rfl, by simp only [place]; omega, by simp only [place]; omega⟩

/-- machine and interpreter read the same -/
theorem InFrame.read_eq (h : InFrame ga c.allocator env base size s) (hc : InFunction ga c) (x : Ident) :
    read c.getDeclaration s x = env.read x := by
  rw [Env.read, h.locals, h.globals, lookup_map (fun slot => s.word (base + size - slot)),
    lookup_map (fun slot => s.word (200 + slot))]
  cases hd : c.getDeclaration x with
  | none =>
    rw [read, hd]
    rw [getDeclaration_eq hc] at hd
    cases hl : c.allocator.vars.lookup x with
    | some slot => simp [hl] at hd
    | none =>
      rw [hl] at hd
      rw [Option.map_eq_none_iff.1 hd]
      rfl
  | some d =>
    obtain ⟨haddr, -, hlt⟩ := h.address hc hd
    rw [read, hd, Option.map_some, haddr, load_ofNat hlt]
    obtain ⟨slot, hl, rfl⟩ | ⟨slot, hl, hgl, rfl⟩ := getDeclaration_cases hc hd
    · rw [hl]
      rfl
    · rw [hl, hgl]
      rfl

/-! ## Writing -/

/-- the first variable of a name, where the slots are different -/
theorem assignTo_map {vs : List (Ident × ℕ)} {f g : ℕ → Word} (hnodup : (vs.map Prod.snd).Nodup)
    (hx : vs.lookup x = some slot) (hslot : g slot = w) (hother : ∀ v ∈ vs, v.2 ≠ slot → g v.2 = f v.2) :
    assignTo x w (vs.map fun v => (v.1, f v.2)) = vs.map fun v => (v.1, g v.2) := by
  induction vs with
  | nil => rfl
  | cons v vs ih =>
    obtain ⟨y, slot'⟩ := v
    rw [List.map_cons, List.nodup_cons] at hnodup
    rw [List.map_cons, List.map_cons, assignTo]
    by_cases hy : y = x
    · subst hy
      obtain rfl : slot' = slot := by simpa [List.lookup_cons] using hx
      rw [if_pos rfl, hslot]
      congr 1
      refine List.map_congr_left fun v hv => ?_
      have hne : v.2 ≠ slot' := fun heq => hnodup.1 (List.mem_map.2 ⟨v, hv, heq⟩)
      rw [hother v (List.mem_cons_of_mem _ hv) hne]
    · have hne : (x == y) = false := by simpa using Ne.symm hy
      have hx : vs.lookup x = some slot := by simpa [List.lookup_cons, hne] using hx
      rw [if_neg hy, ih hnodup.2 hx fun v hv => hother v (List.mem_cons_of_mem _ hv)]
      have hdiff : slot' ≠ slot := fun heq => hnodup.1 (List.mem_map.2 ⟨_, mem_of_lookup hx, heq.symm⟩)
      rw [hother _ List.mem_cons_self hdiff]

/-- the assignment of the interpreter is the store of the machine -/
theorem InFrame.assign (h : InFrame ga c.allocator env base size s) (hc : InFunction ga c) {d : ℕ × Scope}
    (hx : c.getDeclaration x = some d) (hst : Stored p n (place base size d) s s') :
    ∃ env', env.assign x (s.word n) = some env' ∧ InFrame ga c.allocator env' base size s' := by
  have hlow := h.low
  have hhigh := h.high
  obtain ⟨-, hplace, -⟩ := h.address hc hx
  have hfp : s'.fp = BitVec.ofNat 32 (base + size) := hst.fp.trans h.fp
  have hlookup : env.locals.lookup x = (c.allocator.vars.lookup x).map fun slot => s.word (base + size - slot) := by
    rw [h.locals, lookup_map (fun slot => s.word (base + size - slot))]
  have hlocal : ∀ v ∈ c.allocator.vars, base + size - v.2 ≠ place base size d →
      s'.word (base + size - v.2) = s.word (base + size - v.2) := by
    intro v hv hne
    have hlt := hc.allocator.slot_lt h hv
    exact hst.words _ (by omega) hne (by omega)
  have hglobal : ∀ v ∈ ga.vars, 200 + v.2 ≠ place base size d → s'.word (200 + v.2) = s.word (200 + v.2) :=
    fun v hv hne => by
      have hlt := hc.globals.slot_lt hv
      exact hst.words _ (by omega) hne (by omega)
  obtain ⟨slot, hl, rfl⟩ | ⟨slot, hl, hgl, rfl⟩ := getDeclaration_cases hc hx
  · have hslot := hc.allocator.slot_lt h (mem_of_lookup hl)
    simp only [place] at *
    refine ⟨{ env with locals := assignTo x (s.word n) env.locals }, ?_, ⟨hfp, hlow, hhigh, h.fits, ?_, ?_⟩⟩
    · rw [Env.assign, hlookup, hl]
      rfl
    · rw [h.globals]
      refine List.map_congr_left fun v hv => ?_
      have hlt := hc.globals.slot_lt hv
      rw [hglobal v hv (by omega)]
    · simp only [h.locals]
      refine assignTo_map (f := fun slot => s.word (base + size - slot))
        (g := fun slot => s'.word (base + size - slot)) hc.allocator.partition.nodup hl hst.word
        fun v hv hne => hlocal v hv ?_
      have hlt := hc.allocator.slot_lt h hv
      omega
  · have hslot := hc.globals.slot_lt (mem_of_lookup hgl)
    simp only [place] at *
    refine ⟨{ env with globals := assignTo x (s.word n) env.globals }, ?_, ⟨hfp, hlow, hhigh, h.fits, ?_, ?_⟩⟩
    · rw [Env.assign, hlookup, hl, h.globals, lookup_map (fun slot => s.word (200 + slot)), hgl]
      rfl
    · simp only [h.globals]
      exact assignTo_map (f := fun slot => s.word (200 + slot)) (g := fun slot => s'.word (200 + slot))
        hc.globals.partition.nodup hgl hst.word
        fun v hv hne => hglobal v hv (by omega)
    · rw [h.locals]
      refine List.map_congr_left fun v hv => ?_
      have hlt := hc.allocator.slot_lt h hv
      rw [hlocal v hv (by omega)]

/-- the store that follows a declaration; the frame is that of the allocator after it -/
theorem InFrame.declare (h : InFrame ga a env base size s) (hg : GlobalAllocator ga) (hl : LocalAllocator a)
    (hl' : LocalAllocator a') (ha : a.alloc x = .ok (slot, a')) (hfits : a'.firstFree ≤ size)
    (hst : Stored p n (base + size - slot) s s') : InFrame ga a' (env.declare x (s.word n)) base size s' := by
  have hlow := h.low
  have hhigh := h.high
  obtain ⟨slot', hvalue, hvars⟩ := VariableAllocator.vars_of_alloc ha
  rw [hl.base, Nat.zero_add] at hvalue
  subst hvalue
  have hslot : slot < size := (hl'.partition.slot_lt (by rw [hvars]; exact List.mem_cons_self)).trans_le hfits
  have hnodup := hl'.partition.nodup
  rw [hvars, List.map_cons, List.nodup_cons] at hnodup
  refine ⟨hst.fp.trans h.fp, hlow, hhigh, hfits, ?_, ?_⟩
  · rw [Env.declare, h.globals]
    refine List.map_congr_left fun v hv => ?_
    have hlt := hg.slot_lt hv
    rw [hst.words _ (by omega) (by omega) (by omega)]
  · rw [Env.declare, h.locals, hvars, List.map_cons, hst.word]
    refine congrArg (List.cons (x, s.word n)) ?_
    refine List.map_congr_left fun v hv => ?_
    have hlt := hl.slot_lt h hv
    have hne : v.2 ≠ slot := fun heq => hnodup.1 (List.mem_map.2 ⟨v, hv, heq⟩)
    rw [hst.words _ (by omega) (by omega) (by omega)]

end FpgaLearning.Compiler
