/-
The global variables.

Outside of functions the machine is in a frame without variables, at fp = 1024. `globals_moves`: there the words of the
declarations do what the initialisers do in the interpreter, in the order of the text.
-/
import FpgaLearning.Compiler.Calls

namespace FpgaLearning.Compiler

open FpgaLearning.Memory FpgaLearning.Stack FpgaLearning.Stack.Arch FpgaLearning.Traced

/-- the number of global variables -/
def globalCount : Prog → ℕ
  | [] => 0
  | .varDeclStmt _ _ :: rest => globalCount rest + 1
  | .funcDecl _ _ :: rest => globalCount rest

/-- the context outside of functions -/
structure InGlobals (c : Context) : Prop where
  below : c.below = []
  allocator : GlobalAllocator c.allocator

/-- a function without variables -/
def Context.start (c : Context) : Context := { c with allocator := .new 0 .stack, below := [c.allocator] }

variable {z : DivByZero} {rom : Word → Word} {addr : Ident → Option ℕ} {ga ga' : VariableAllocator} {c c' : Context}
  {is : List Item} {p slot : ℕ} {env : Env} {s s' : Arch} {x : Ident} {e : Expr}

/-! ## Declarations -/

theorem InGlobals.start (h : InGlobals c) : InFunction c.allocator c.start :=
  ⟨rfl, h.allocator, rfl, rfl, .new 0 .stack, Nat.zero_le _⟩

theorem InGlobals.getDeclaration_eq (h : InGlobals c) (x : Ident) :
    c.getDeclaration x = (c.allocator.vars.lookup x).map fun slot => (200 + slot, .global) := by
  rw [Context.getDeclaration, MyVisitor.getDeclaration]
  show (c.allocator :: c.below).findSome? _ = _
  rw [h.below, List.findSome?_cons, List.findSome?_nil, VariableAllocator.getAddr_eq, h.allocator.base, h.allocator.scope]
  cases c.allocator.vars.lookup x <;> rfl

theorem InGlobals.start_getDeclaration (h : InGlobals c) (x : Ident) : c.start.getDeclaration x = c.getDeclaration x := by
  rw [h.getDeclaration_eq, Compiler.getDeclaration_eq h.start]
  rfl

theorem GlobalAllocator.alloc {addr : ℕ} (h : GlobalAllocator ga) (hfew : ga.firstFree < 824)
    (ha : ga.alloc x = .ok (addr, ga')) : GlobalAllocator ga' ∧ ga'.firstFree ≤ ga.firstFree + 1 := by
  have hpartition := h.partition.alloc ha
  obtain ⟨slot, -, -, ⟨rest, -, rfl⟩ | ⟨-, -, rfl⟩⟩ := VariableAllocator.alloc_cases ha
  · exact ⟨⟨h.scope, h.base, hpartition, h.few⟩, Nat.le_succ _⟩
  · exact ⟨⟨h.scope, h.base, hpartition, hfew⟩, le_rfl⟩

/-- the store that follows the declaration of a global variable -/
theorem InFrame.declareGlobal {addr : ℕ} (h : InFrame ga (.new 0 .stack) env 1024 0 s) (hg : GlobalAllocator ga)
    (hg' : GlobalAllocator ga') (ha : ga.alloc x = .ok (addr, ga')) (hst : Stored p 0 addr s s') :
    InFrame ga' (.new 0 .stack) { env with globals := (x, s.word 0) :: env.globals } 1024 0 s' := by
  obtain ⟨slot, rfl, hvars⟩ := VariableAllocator.vars_of_alloc ha
  rw [hg.base] at hst
  have hnodup := hg'.partition.nodup
  rw [hvars, List.map_cons, List.nodup_cons] at hnodup
  refine ⟨hst.fp.trans h.fp, h.low, h.high, h.fits, ?_, h.locals⟩
  show (x, s.word 0) :: env.globals = _
  rw [hvars, List.map_cons, hst.word, h.globals]
  refine congrArg (List.cons (x, s.word 0)) (List.map_congr_left fun v hv => ?_)
  have hlt := hg.slot_lt hv
  have hne : v.2 ≠ slot := fun heq => hnodup.1 (List.mem_map.2 ⟨v, hv, heq⟩)
  rw [hst.words _ (by omega) (by omega) (by omega)]

theorem varDecl_moves (hc : InGlobals c) (hfew : c.allocator.firstFree < 824) (hx : x ∉ e.ast.idents)
    (hpass : Pass.varDecl x e c = (is, .ok c')) (hlaid : Laid rom addr p is) (hat : At p 0 s)
    (hf : InFrame c.allocator (.new 0 .stack) env 1024 0 s) (hs : (machine z rom).Always Safe s) :
    ∃ w s' j, e.ast.result z env.read = some w ∧ (machine z rom).Runs j s [] s' ∧ At (p + size is) 0 s' ∧
      InFrame c'.allocator (.new 0 .stack) { env with globals := (x, w) :: env.globals } 1024 0 s' ∧ InGlobals c' ∧
      c'.allocator.firstFree ≤ c.allocator.firstFree + 1 := by
  obtain ⟨addr', a, ha, rfl, hseq⟩ := Pass.varDecl_ok hpass
  obtain ⟨hg, hfree⟩ := hc.allocator.alloc hfew ha
  have hc' : InGlobals { c with allocator := a } := ⟨hc.below, hg⟩
  obtain ⟨slot, hslot, hvars⟩ := VariableAllocator.vars_of_alloc ha
  obtain ⟨_, js, he, hsave, rfl⟩ := Pass.cons_expr_ok hseq
  obtain ⟨-, ws, hws, rfl⟩ := Pass.expr_ok he
  have hws' : Compiles c.start.getDeclaration e.ast ws := hws.congr fun y hy => by
    have hne : (y == x) = false := beq_eq_false_iff_ne.2 fun heq => hx (heq ▸ hy)
    rw [hc.start_getDeclaration, hc.getDeclaration_eq, hc'.getDeclaration_eq, hvars, List.lookup_cons, hne]
  obtain ⟨hlaid₁, hlaid₂⟩ := laid_append.1 hlaid
  obtain ⟨w, s₁, hval, hrun₁, hmoved, rfl⟩ := compiles_moves hws' hlaid₁ hc.start hat hf hs
  rw [size_words] at hlaid₂
  have hlt : slot < 824 := hg.slot_lt (by rw [hvars]; exact List.mem_cons_self)
  have hsave' := Pass.last_ok hsave
  rw [hg.scope] at hsave'
  obtain ⟨s₂, j, hrun₂, hst⟩ := save_moves hsave' hlaid₂ hmoved.pos (m := addr') rfl
    (by rw [hslot, hc.allocator.base]; omega) (hs.after hrun₁)
  refine ⟨_, s₂, _, hval, hrun₁.trans hrun₂, ?_, ?_, hc', hfree⟩
  · rw [size_append, size_words, ← Nat.add_assoc]
    exact hst.pos
  · exact (hf.moved hc.start rfl hmoved).declareGlobal hc.allocator hg ha hst

/-- **Initialisers.** The words of all declarations. -/
theorem globals_moves {prog : Prog} (hself : SelfFree prog) (hc : InGlobals c)
    (hfew : c.allocator.firstFree + globalCount prog ≤ 824) (hpass : Pass.varDecls prog c = (is, .ok c'))
    (hlaid : Laid rom addr p is) (hat : At p 0 s) (hf : InFrame c.allocator (.new 0 .stack) env 1024 0 s)
    (hs : (machine z rom).Always Safe s) :
    ∃ env' s' j, initGlobals z prog env = .done env' ∧ (machine z rom).Runs j s [] s' ∧ At (p + size is) 0 s' ∧
      InFrame c'.allocator (.new 0 .stack) env' 1024 0 s' ∧ InGlobals c' := by
  induction prog generalizing c is p env s with
  | nil =>
    obtain ⟨rfl, rfl⟩ := Pass.nil_ok hpass
    exact ⟨env, s, 0, rfl, .refl _ s, hat, hf, hc⟩
  | cons d rest ih =>
    cases d with
    | varDeclStmt x e =>
      obtain ⟨is₁, c₁, is₂, h₁, h₂, rfl⟩ := Pass.andThen_ok_iff.1 hpass
      obtain ⟨hlaid₁, hlaid₂⟩ := laid_append.1 hlaid
      rw [globalCount] at hfew
      obtain ⟨w, s₁, j, hval, hrun₁, hat₁, hf₁, hc₁, hfree⟩ := varDecl_moves hc (by omega) hself.1 h₁ hlaid₁ hat hf hs
      obtain ⟨env', s₂, j', hinit, hrun₂, hat₂, hf₂, hc₂⟩ := ih hself.2 hc₁ (by omega) h₂ hlaid₂ hat₁ hf₁ (hs.after hrun₁)
      refine ⟨env', s₂, j + j', ?_, hrun₁.trans hrun₂, ?_, hf₂, hc₂⟩
      · rw [initGlobals, withValue_eq hval]
        exact hinit
      · rw [size_append, ← Nat.add_assoc]
        exact hat₂
    | funcDecl f body => exact ih hself.2 hc hfew hpass hlaid hat hf hs

end FpgaLearning.Compiler
