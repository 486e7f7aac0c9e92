/-
The visitor in two steps: a listing with symbolic labels, and the words for it.

- An `Item` is a word, a reference to a label or a label; the labels of functions are apart from the generated ones.
  `emit` hands items to the code generator, which knows labels by their names.
- A `Pass` gives the items for a part of the program, up to the first exception, and the context after them.
- `visitProg_eq`: what the visitor does with a program is what `emit` does with its `listing`.
-/
import FpgaLearning.Compiler.Expressions

namespace FpgaLearning.Compiler

open FpgaLearning.Memory CodeGenerator MyVisitor

/-! ## Items -/

inductive Label where
  | func (f : Ident)
  | generated (k : ℕ)
deriving DecidableEq, Repr

/-- what the code generator calls it -/
def Label.name : Label → Ident
  | .func f => f
  | .generated k => "L" ++ toString k

inductive Item where
  | word (w : Opcode)
  | ref (l : Label)
  | label (l : Label)
deriving DecidableEq, Repr

def Item.emit : Item → CodeGenerator → Except String CodeGenerator
  | .word w => push (.ok w)
  | .ref l => compileRef l.name
  | .label l => declareLabel l.name

def emit (is : List Item) (g : CodeGenerator) : Except String CodeGenerator := is.foldlM (fun g i => i.emit g) g

@[simp] theorem emit_nil (g : CodeGenerator) : emit [] g = .ok g := rfl

theorem emit_cons (i : Item) (is : List Item) (g : CodeGenerator) : emit (i :: is) g = i.emit g >>= emit is := by
  rw [emit, List.foldlM_cons]
  rfl

theorem emit_append (is js : List Item) (g : CodeGenerator) : emit (is ++ js) g = emit is g >>= emit js := by
  rw [emit, List.foldlM_append]
  rfl

theorem emit_singleton (i : Item) (g : CodeGenerator) : emit [i] g = i.emit g := by
  rw [emit_cons]
  cases i.emit g <;> rfl

theorem emit_word (w : Opcode) (is : List Item) (g : CodeGenerator) :
    emit (.word w :: is) g = emit is { g with program := g.program ++ [w] } := emit_cons ..

/-! ## Listings -/

/-- what the visitor remembers besides the code -/
structure Context where
  allocator : VariableAllocator
  below : List VariableAllocator
  counter : ℕ
deriving DecidableEq, Repr

namespace Context

def new : Context := ⟨.new 200 .global, [], 0⟩

def visitor (c : Context) (g : CodeGenerator) : MyVisitor := ⟨c.allocator, c.below, g, ⟨c.counter, "L"⟩⟩

/-- the allocator of a function goes, that of its caller is back -/
def leave (c : Context) : Context := { c with allocator := c.below.headD c.allocator, below := c.below.tail }

@[simp] theorem visitor_codeGen (c : Context) (g : CodeGenerator) : (c.visitor g).codeGen = g := rfl

def getDeclaration (c : Context) : Ident → Option (ℕ × Scope) := (c.visitor .new).getDeclaration

end Context

/-- the items for a part of the program, up to the first exception, and the context after them -/
abbrev Listing := List Item × Except String Context

abbrev Pass := Context → Listing

namespace Listing

def andThen (l : Listing) (p : Pass) : Listing :=
  match l.2 with
  | .error e => (l.1, .error e)
  | .ok c => (l.1 ++ (p c).1, (p c).2)

/-- the items go to the code generator -/
def onto (l : Listing) (g : CodeGenerator) : Except String MyVisitor := do
  let g ← emit l.1 g
  let c ← l.2
  .ok (c.visitor g)

variable {l : Listing} {p : Pass} {is : List Item} {c c' : Context}

theorem andThen_of_ok (h : l.2 = .ok c) : l.andThen p = (l.1 ++ (p c).1, (p c).2) := by
  rw [andThen, h]

theorem andThen_ok_iff : l.andThen p = (is, .ok c') ↔
    ∃ is₁ c is₂, l = (is₁, .ok c) ∧ p c = (is₂, .ok c') ∧ is = is₁ ++ is₂ := by
  obtain ⟨js, r⟩ := l
  cases r with
  | error e => simp [andThen]
  | ok c =>
    simp only [andThen, Prod.mk.injEq, Except.ok.injEq]
    constructor
    · rintro ⟨rfl, h⟩
      exact ⟨js, c, (p c).1, ⟨rfl, rfl⟩, Prod.ext rfl h, rfl⟩
    · rintro ⟨_, _, _, ⟨rfl, rfl⟩, h, rfl⟩
      rw [h]
      exact ⟨rfl, rfl⟩

theorem onto_andThen (l : Listing) (p : Pass) (g : CodeGenerator) :
    (l.andThen p).onto g = (emit l.1 g >>= fun g => l.2 >>= fun c => (p c).onto g) := by
  obtain ⟨js, r⟩ := l
  cases r with
  | error e => rfl
  | ok c =>
    simp only [onto, andThen, emit_append]
    cases emit js g <;> rfl

end Listing

/-! ## Passes -/

namespace Pass

def skip : Pass := fun c => ([], .ok c)

def fail (e : String) : Pass := fun _ => ([], .error e)

def andThen (p q : Pass) : Pass := fun c => (p c).andThen q

def seq (ps : List Pass) : Pass := ps.foldr andThen skip

variable {p q : Pass} {ps : List Pass} {is : List Item} {c c' : Context}

theorem andThen_ok_iff : p.andThen q c = (is, .ok c') ↔
    ∃ is₁ c₁ is₂, p c = (is₁, .ok c₁) ∧ q c₁ = (is₂, .ok c') ∧ is = is₁ ++ is₂ := Listing.andThen_ok_iff

theorem seq_cons_ok_iff : seq (p :: ps) c = (is, .ok c') ↔
    ∃ is₁ c₁ is₂, p c = (is₁, .ok c₁) ∧ seq ps c₁ = (is₂, .ok c') ∧ is = is₁ ++ is₂ := Listing.andThen_ok_iff

/-- a reference or a label -/
def item (i : Item) : Pass := fun c => ([i], .ok c)

def push : Except String Opcode → Pass
  | .ok w => item (.word w)
  | .error e => fail e

/-- a part with a label of its own -/
def fresh (p : Label → Pass) : Pass := fun c => p (.generated c.counter) { c with counter := c.counter + 1 }

/-- a part with a variable of its own -/
def alloc (x : Ident) (p : ℕ → Pass) : Pass := fun c =>
  match c.allocator.alloc x with
  | .ok (addr, a) => p addr { c with allocator := a }
  | .error e => fail e c

def endBlock (H : HashOrder (Ident × ℕ)) : Pass := fun c =>
  match c.allocator.endBlock H with
  | .ok a => skip { c with allocator := a }
  | .error e => fail e c

/-- a part in a block of its own -/
def inBlock (H : HashOrder (Ident × ℕ)) (p : Pass) : Pass := fun c =>
  ((p { c with allocator := c.allocator.startBlock }).andThen (endBlock H))

/-- the words of an expression, as the visitor appends them to nothing -/
def expr (t : Expr) : Pass := fun c =>
  match visitExpr t (c.visitor .new) with
  | .ok v => (v.codeGen.program.map .word, .ok c)
  | .error e => fail e c

def save (addr : ℕ) : Scope → Pass
  | .global => seq [push (Assembler.lconst (BitVec.ofNat 32 addr)), push Assembler.stmem]
  | .stack => push (Assembler.stfpmem (fpDelta addr))

def varDecl (x : Ident) (e : Expr) : Pass :=
  alloc x fun addr => seq [expr e, fun c => save addr c.allocator.scope c]

def assign (x : Ident) (e : Expr) : Pass := fun c =>
  match c.getDeclaration x with
  | none => fail ("MyVisitor::visitAssign_stmt: variable '" ++ x ++ "' is not declared.") c
  | some (addr, scope) => seq [expr e, save addr scope] c

def print (e : Expr) : Pass := seq [expr e, save (2 ^ 30) .global]

def call (f : Ident) : Pass := seq [item (.ref (.func f)), push Assembler.ajmp]

def elseStmt (H : HashOrder (Ident × ℕ)) (elseBegin : Label) : Option Pass → Pass
  | none => item (.label elseBegin)
  | some p => fresh fun operatorEnd => seq [item (.ref operatorEnd), push Assembler.ajmp, item (.label elseBegin),
      inBlock H p, item (.label operatorEnd)]

def ifStmt (H : HashOrder (Ident × ℕ)) (cond : Expr) (thenStmt : Pass) (elsePart : Option Pass) : Pass :=
  inBlock H (fresh fun elseBegin => seq [expr cond, item (.ref elseBegin), push Assembler.cjmpz, inBlock H thenStmt,
    elseStmt H elseBegin elsePart])

def whileStmt (H : HashOrder (Ident × ℕ)) (cond : Expr) (body : Pass) : Pass :=
  inBlock H (fresh fun loop => seq [item (.label loop), expr cond, fresh fun loopEnd => seq [item (.ref loopEnd),
    push Assembler.cjmpz, inBlock H body, item (.ref loop), push Assembler.ajmp, item (.label loopEnd)]])

mutual

def stmt (H : HashOrder (Ident × ℕ)) : Stmt → Pass
  | .ifStmt cond thenStmt => ifStmt H cond (stmt H thenStmt) none
  | .ifElseStmt cond thenStmt elseStmt => ifStmt H cond (stmt H thenStmt) (some (stmt H elseStmt))
  | .whileStmt cond body => whileStmt H cond (stmt H body)
  | .varDeclStmt x e => varDecl x e
  | .assignStmt x e => assign x e
  | .printStmt e => print e
  | .callStmt f => call f
  | .block ss => stmts H ss

def stmts (H : HashOrder (Ident × ℕ)) : Stmts → Pass
  | .nil => skip
  | .cons s ss => andThen (stmt H s) (stmts H ss)

end

/-- the frame of a function: its size is known after the body -/
def frame (body : Pass) : Pass := fun c =>
  match body { c with allocator := .new 0 .stack, below := c.allocator :: c.below } with
  | (is, .error e) => (.word 0 :: is, .error e)
  | (is, .ok c') =>
    let size : Word := BitVec.ofNat 32 c'.allocator.getMaxAlloc
    match Assembler.addfp size.toInt with
    | .error e => (.word 0 :: is, .error e)
    | .ok w =>
      Listing.andThen (.word w :: is, .ok c'.leave) (seq [push (Assembler.addfp (-size.toInt)), push Assembler.ajmp])

def funcDecl (H : HashOrder (Ident × ℕ)) (f : Ident) (body : Stmts) : Pass :=
  seq [item (.label (.func f)), push Assembler.lppc, frame (stmts H body)]

def varDecls : Prog → Pass
  | [] => skip
  | .varDeclStmt x e :: rest => andThen (varDecl x e) (varDecls rest)
  | .funcDecl _ _ :: rest => varDecls rest

def funcDecls (H : HashOrder (Ident × ℕ)) : Prog → Pass
  | [] => skip
  | .varDeclStmt _ _ :: rest => funcDecls H rest
  | .funcDecl f body :: rest => andThen (funcDecl H f body) (funcDecls H rest)

/-- what comes before the functions -/
def startUp (prog : Prog) : Pass :=
  seq [push (Assembler.lconst 1024), push Assembler.lfp, varDecls prog, item (.ref (.func "main")), push Assembler.ajmp,
    fresh fun endLoop => seq [item (.label endLoop), item (.ref endLoop), push Assembler.ajmp]]

end Pass

/-- the listing of a program -/
def listing (H : HashOrder (Ident × ℕ)) (prog : Prog) : Listing := (Pass.startUp prog).andThen (Pass.funcDecls H prog) .new

/-! ## The visitor lists -/

/-- what the part `f` of the visitor does is what `emit` does with the items of `p` -/
def Lists (f : Visit) (p : Pass) : Prop := ∀ c g, f (c.visitor g) = (p c).onto g

namespace Lists

variable {f f' : Visit} {p p' : Pass} {H : HashOrder (Ident × ℕ)}

theorem skip : Lists (fun v => .ok v) Pass.skip := fun _ _ => rfl

theorem bind (h : Lists f p) (h' : Lists f' p') : Lists (fun v => f v >>= f') (p.andThen p') := by
  intro c g
  show f (c.visitor g) >>= f' = ((p c).andThen p').onto g
  rw [h, Listing.onto_andThen, Listing.onto]
  cases emit (p c).1 g with
  | error e => rfl
  | ok g' =>
    cases (p c).2 with
    | error e => rfl
    | ok c' => exact h' c' g'

/-- the last part of a sequence -/
theorem last (h : Lists f p) : Lists f (Pass.seq [p]) := by
  intro c g
  show f (c.visitor g) = ((p c).andThen Pass.skip).onto g
  rw [h, Listing.onto_andThen, Listing.onto]
  cases emit (p c).1 g with
  | error e => rfl
  | ok g' => cases (p c).2 <;> rfl

theorem cons {ps : List Pass} (h : Lists f p) (h' : Lists f' (Pass.seq ps)) :
    Lists (fun v => f v >>= f') (Pass.seq (p :: ps)) := h.bind h'

theorem item (i : Item) : Lists (gen i.emit) (Pass.item i) := by
  intro c g
  show gen i.emit (c.visitor g) = (emit [i] g >>= fun g => .ok (c.visitor g))
  rw [emit_singleton]
  rfl

theorem push (w : Except String Opcode) : Lists (gen (CodeGenerator.push w)) (Pass.push w) := by
  cases w with
  | error e => exact fun c g => rfl
  | ok w => exact item (.word w)

theorem ref (l : Label) : Lists (gen (compileRef l.name)) (Pass.item (.ref l)) := item (.ref l)

theorem label (l : Label) : Lists (gen (declareLabel l.name)) (Pass.item (.label l)) := item (.label l)

theorem fresh {f : Ident → Visit} {p : Label → Pass} (h : ∀ l, Lists (f l.name) (p l)) :
    Lists (fun v => f v.nextLabel.1 v.nextLabel.2) (Pass.fresh p) := fun c g =>
  h (.generated c.counter) { c with counter := c.counter + 1 } g

theorem alloc {f : ℕ → Visit} {p : ℕ → Pass} {x : Ident} (h : ∀ addr, Lists (f addr) (p addr)) :
    Lists (fun v => v.alloc x >>= fun r => f r.1 r.2) (Pass.alloc x p) := by
  intro c g
  simp only [MyVisitor.alloc, Pass.alloc, Context.visitor]
  cases c.allocator.alloc x with
  | error e => rfl
  | ok r => exact h r.1 { c with allocator := r.2 } g

theorem endBlock (H : HashOrder (Ident × ℕ)) : Lists (MyVisitor.endBlock H) (Pass.endBlock H) := by
  intro c g
  simp only [MyVisitor.endBlock, Pass.endBlock, Context.visitor]
  cases c.allocator.endBlock H <;> rfl

theorem inBlock (H : HashOrder (Ident × ℕ)) (h : Lists f p) :
    Lists (fun v => f v.startBlock >>= MyVisitor.endBlock H) (Pass.inBlock H p) := fun c g =>
  h.bind (endBlock H) { c with allocator := c.allocator.startBlock } g

end Lists

/-! ### Expressions -/

theorem bind_error_iff {α β : Type} {x : Except String α} {f : α → Except String β} {m : String} :
    (x >>= f) = .error m ↔ x = .error m ∨ ∃ a, x = .ok a ∧ f a = .error m := by
  cases x <;> simp [Bind.bind, Except.bind]

theorem gen_push_error {w : Except String Opcode} {v : MyVisitor} {m : String} :
    v.gen (CodeGenerator.push w) = .error m ↔ w = .error m := by
  cases w <;> simp [gen, CodeGenerator.push, Bind.bind, Except.bind]

theorem gen_push_push_error {w w' : Except String Opcode} {v : MyVisitor} {m : String} :
    v.gen (fun g => CodeGenerator.push w g >>= CodeGenerator.push w') = .error m ↔
      w = .error m ∨ (∃ op, w = .ok op) ∧ w' = .error m := by
  cases w with
  | error e => simp [gen, CodeGenerator.push, Bind.bind, Except.bind]
  | ok op => cases w' <;> simp [gen, CodeGenerator.push, Bind.bind, Except.bind]

/-- the exceptions of an expression depend on the declarations alone -/
theorem visitAst_error {e : Ast} {v v' : MyVisitor} {m : String} (hd : v'.getDeclaration = v.getDeclaration)
    (h : visitAst e v = .error m) : visitAst e v' = .error m := by
  induction e generalizing v v' with
  | number n =>
    rw [visitAst, visitNumber] at h ⊢
    split_ifs at h ⊢ with hn
    · exact gen_push_error.2 (gen_push_error.1 h)
    · exact h
  | ident x =>
    rw [visitAst, visitIdent] at h ⊢
    rw [hd]
    cases hx : v.getDeclaration x with
    | none => simpa [hx] using h
    | some d =>
      obtain ⟨addr, scope⟩ := d
      rw [hx] at h
      cases scope with
      | global => exact gen_push_push_error.2 (gen_push_push_error.1 h)
      | stack => exact gen_push_error.2 (gen_push_error.1 h)
  | unary o e ih =>
    rcases bind_error_iff.1 h with h | ⟨v₁, h₁, h⟩
    · exact bind_error_iff.2 (.inl (ih hd h))
    · obtain ⟨ws, hws, rfl⟩ := compiles_of_visitAst h₁
      exact bind_error_iff.2 (.inr ⟨_, visitAst_of_compiles hws hd, gen_push_error.2 (gen_push_error.1 h)⟩)
  | binary o l r ihl ihr =>
    rcases bind_error_iff.1 h with h | ⟨v₁, h₁, h⟩
    · exact bind_error_iff.2 (.inl (ihl hd h))
    · obtain ⟨ws, hws, rfl⟩ := compiles_of_visitAst h₁
      refine bind_error_iff.2 (.inr ⟨_, visitAst_of_compiles hws hd, ?_⟩)
      rcases bind_error_iff.1 h with h | ⟨v₂, h₂, h⟩
      · exact bind_error_iff.2 (.inl (ihr (by simpa using hd) h))
      · obtain ⟨ws', hws', rfl⟩ := compiles_of_visitAst h₂
        exact bind_error_iff.2 (.inr ⟨_, visitAst_of_compiles hws' hd, gen_push_error.2 (gen_push_error.1 h)⟩)

theorem emit_words (ws : List Opcode) (g : CodeGenerator) :
    emit (ws.map .word) g = .ok { g with program := g.program ++ ws } := by
  induction ws generalizing g with
  | nil => simp
  | cons w ws ih => rw [List.map_cons, emit_word, ih, List.append_assoc, List.singleton_append]

theorem Pass.expr_of_compiles {t : Expr} {c : Context} {ws : List Opcode} (h : Compiles c.getDeclaration t.ast ws) :
    Pass.expr t c = (ws.map .word, .ok c) := by
  have hv : visitExpr t (c.visitor .new) = .ok ((c.visitor .new).append ws) := (visitExpr_iff t).2 ⟨ws, h, rfl⟩
  rw [expr, hv]
  rfl

theorem Lists.expr (t : Expr) : Lists (visitExpr t) (Pass.expr t) := by
  intro c g
  cases h : visitExpr t (c.visitor .new) with
  | error m =>
    rw [visitExpr_ast] at h ⊢
    rw [Pass.expr, visitExpr_ast, h]
    exact visitAst_error (v := c.visitor .new) rfl h
  | ok v =>
    obtain ⟨ws, hws, -⟩ := (visitExpr_iff t).1 h
    rw [Pass.expr_of_compiles hws, Listing.onto, emit_words]
    exact (visitExpr_iff t).2 ⟨ws, hws, rfl⟩

/-! ### Statements -/

namespace Lists

variable {f f' : Visit} {p p' : Pass} (H : HashOrder (Ident × ℕ))

theorem congr (h : Lists f p) (hf : ∀ v, f v = f' v) : Lists f' p := fun c g => (hf _).symm.trans (h c g)

/-- a block before the rest of a sequence -/
theorem block {ps : List Pass} (h : Lists f p) (h' : Lists f' (Pass.seq ps)) :
    Lists (fun v => f v.startBlock >>= fun v => v.endBlock H >>= f') (Pass.seq (Pass.inBlock H p :: ps)) :=
  ((inBlock H h).cons h').congr fun _ => bind_assoc ..

theorem save (addr : ℕ) (scope : Scope) : Lists (MyVisitor.save addr scope) (Pass.save addr scope) := by
  cases scope with
  | global =>
    refine ((push _).cons (last (push _))).congr fun v => ?_
    cases h : Assembler.lconst (BitVec.ofNat 32 addr) with
    | error e => simp [MyVisitor.save, compileSave, gen, CodeGenerator.push, h, Bind.bind, Except.bind]
    | ok w => simp [MyVisitor.save, compileSave, gen, CodeGenerator.push, h, Bind.bind, Except.bind]
  | stack => exact push _

theorem varDecl (x : Ident) (e : Expr) : Lists (visitVarDeclStmt x e) (Pass.varDecl x e) := by
  have hsave : ∀ addr, Lists (fun v => v.save addr v.allocator.scope) (fun c => Pass.save addr c.allocator.scope c) :=
    fun addr c g => save addr c.allocator.scope c g
  exact alloc fun addr => (expr e).cons (last (hsave addr))

theorem assign (x : Ident) (e : Expr) : Lists (visitAssignStmt x e) (Pass.assign x e) := by
  intro c g
  have hd : (c.visitor g).getDeclaration x = c.getDeclaration x := rfl
  rw [visitAssignStmt, Pass.assign, hd]
  cases c.getDeclaration x with
  | none => rfl
  | some d => exact ((expr e).cons (last (save d.1 d.2))) c g

theorem print (e : Expr) : Lists (visitPrintStmt e) (Pass.print e) := (expr e).cons (last (save (2 ^ 30) .global))

theorem call (x : Ident) : Lists (visitCallStmt x) (Pass.call x) := (ref (.func x)).cons (last (push _))

theorem elseStmt (l : Label) {e : Option Visit} {q : Option Pass} (h : Option.Rel Lists e q) :
    Lists (visitElse H l.name e) (Pass.elseStmt H l q) := by
  cases h with
  | none => exact label l
  | @some f p h =>
    refine fresh (f := fun x v => v.gen (compileRef x) >>= fun v => v.gen compileAJmp >>= fun v =>
      v.gen (declareLabel l.name) >>= fun v => f v.startBlock >>= fun v => v.endBlock H >>= gen (declareLabel x))
      fun l' => ?_
    exact (ref l').cons ((push _).cons ((label l).cons (block H h (last (label l')))))

theorem ifStmt (cond : Expr) {e : Option Visit} {q : Option Pass} (h : Lists f p) (h' : Option.Rel Lists e q) :
    Lists (visitIfStmt H cond f e) (Pass.ifStmt H cond p q) := by
  refine (inBlock H (fresh (f := fun x v => visitExpr cond v >>= fun v => v.gen (compileRef x) >>= fun v =>
    v.gen compileCJmpz >>= fun v => f v.startBlock >>= fun v => v.endBlock H >>= visitElse H x e)
    fun l => (expr cond).cons ((ref l).cons ((push _).cons (block H h (last (elseStmt H l h'))))))).congr fun v => ?_
  simp only [visitIfStmt, bind_assoc]

theorem whileStmt (cond : Expr) (h : Lists f p) : Lists (visitWhileStmt H cond f) (Pass.whileStmt H cond p) := by
  refine (inBlock H (fresh (f := fun x v => v.gen (declareLabel x) >>= fun v => visitExpr cond v >>= fun v =>
    v.nextLabel.2.gen (compileRef v.nextLabel.1) >>= fun v' => v'.gen compileCJmpz >>= fun v' => f v'.startBlock >>=
    fun v' => v'.endBlock H >>= fun v' => v'.gen (compileRef x) >>= fun v' => v'.gen compileAJmp >>=
    gen (declareLabel v.nextLabel.1))
    fun l => (label l).cons ((expr cond).cons (last ?_)))).congr fun v => ?_
  · exact fresh (f := fun x v' => v'.gen (compileRef x) >>= fun v' => v'.gen compileCJmpz >>= fun v' => f v'.startBlock >>=
      fun v' => v'.endBlock H >>= fun v' => v'.gen (compileRef l.name) >>= fun v' => v'.gen compileAJmp >>=
      gen (declareLabel x))
      fun l' => (ref l').cons ((push _).cons (block H h ((ref l).cons ((push _).cons (last (label l'))))))
  · simp only [visitWhileStmt, bind_assoc]

end Lists

mutual

theorem lists_stmt (H : HashOrder (Ident × ℕ)) : ∀ s, Lists (visitStmt H s) (Pass.stmt H s)
  | .ifStmt cond thenStmt => by
    rw [visitStmt, Pass.stmt]
    exact .ifStmt H cond (lists_stmt H thenStmt) .none
  | .ifElseStmt cond thenStmt elseStmt => by
    rw [visitStmt, Pass.stmt]
    exact .ifStmt H cond (lists_stmt H thenStmt) (.some (lists_stmt H elseStmt))
  | .whileStmt cond body => by
    rw [visitStmt, Pass.stmt]
    exact .whileStmt H cond (lists_stmt H body)
  | .varDeclStmt x e => by
    rw [visitStmt, Pass.stmt]
    exact .varDecl x e
  | .assignStmt x e => by
    rw [visitStmt, Pass.stmt]
    exact .assign x e
  | .printStmt e => by
    rw [visitStmt, Pass.stmt]
    exact .print e
  | .callStmt f => by
    rw [visitStmt, Pass.stmt]
    exact .call f
  | .block ss => by
    rw [visitStmt, Pass.stmt]
    exact lists_stmts H ss

theorem lists_stmts (H : HashOrder (Ident × ℕ)) : ∀ ss, Lists (visitStmts H ss) (Pass.stmts H ss)
  | .nil => by
    rw [visitStmts, Pass.stmts]
    exact .skip
  | .cons s ss => by
    rw [visitStmts, Pass.stmts]
    exact (lists_stmt H s).bind (lists_stmts H ss)

end

/-! ### Functions -/

/-- one word of what is already there is filled in -/
def CodeGenerator.fill (n : ℕ) (w : Opcode) (fpAdds : List ℕ) (g : CodeGenerator) : CodeGenerator :=
  { g with program := g.program.set n w, fpAdds := fpAdds }

variable {g g' : CodeGenerator} {is : List Item} {i : Item} {n : ℕ}

theorem emit_item_cases (h : i.emit g = .ok g') : ∃ ws labels refs, g' = ⟨g.program ++ ws, labels, refs, g.fpAdds⟩ := by
  cases i with
  | word w =>
    obtain rfl := Except.ok.inj h
    exact ⟨[w], _, _, rfl⟩
  | ref l =>
    obtain rfl := Except.ok.inj h
    exact ⟨[0], _, _, rfl⟩
  | label l =>
    simp only [Item.emit, declareLabel] at h
    split_ifs at h
    obtain rfl := Except.ok.inj h
    exact ⟨[], _, _, by rw [List.append_nil]⟩

theorem emit_item_fill (i : Item) (w : Opcode) (fpAdds : List ℕ) (hn : n < g.program.length) :
    i.emit (g.fill n w fpAdds) = (i.emit g).map (fill n w fpAdds) := by
  cases i with
  | word w' =>
    show Except.ok _ = Except.ok _
    simp [fill, List.set_append_left _ _ hn]
  | ref l =>
    show Except.ok _ = Except.ok _
    simp [fill, List.set_append_left _ _ hn]
  | label l =>
    simp only [Item.emit, declareLabel, fill, List.length_set]
    split_ifs <;> rfl

/-- the code generator does not look at the words it has -/
theorem emit_fill (is : List Item) (w : Opcode) (fpAdds : List ℕ) (hn : n < g.program.length) :
    emit is (g.fill n w fpAdds) = (emit is g).map (fill n w fpAdds) := by
  induction is generalizing g with
  | nil => rfl
  | cons i is ih =>
    rw [emit_cons, emit_cons, emit_item_fill i w fpAdds hn]
    cases h : i.emit g with
    | error e => rfl
    | ok g' =>
      obtain ⟨ws, labels, refs, rfl⟩ := emit_item_cases h
      exact ih (by rw [List.length_append]; omega)

theorem compileEpilogue_fill (size : Word) (g : CodeGenerator) (n : ℕ) (fpAdds : List ℕ) :
    compileEpilogue size (g.fill n 0 (n :: fpAdds)) = Assembler.addfp size.toInt >>= fun w =>
      CodeGenerator.push (Assembler.addfp (-size.toInt)) (g.fill n w fpAdds) >>= compileAJmp := by
  simp [compileEpilogue, fill]

theorem epilogue_onto (c : Context) (size : Word) (g : CodeGenerator) (n : ℕ) (fpAdds : List ℕ) :
    (gen (compileEpilogue size) (c.visitor (g.fill n 0 (n :: fpAdds))) >>= fun v =>
      .ok { v with allocator := v.below.headD v.allocator, below := v.below.tail }) =
    Assembler.addfp size.toInt >>= fun w =>
      (Pass.seq [Pass.push (Assembler.addfp (-size.toInt)), Pass.push Assembler.ajmp] c.leave).onto (g.fill n w fpAdds) := by
  have hlists : Lists _ (Pass.seq [Pass.push (Assembler.addfp (-size.toInt)), Pass.push Assembler.ajmp]) :=
    (Lists.push _).cons (.last (.push _))
  simp only [← hlists c.leave, gen, compileEpilogue_fill, Context.visitor_codeGen]
  cases Assembler.addfp size.toInt with
  | error e => rfl
  | ok w =>
    cases hneg : Assembler.addfp (-size.toInt) with
    | error e => rfl
    | ok w' =>
      cases hjmp : Assembler.ajmp with
      | error e => simp only [compileAJmp, hjmp]; rfl
      | ok w'' => simp only [compileAJmp, hjmp]; rfl

theorem Lists.frame {f : Visit} {p : Pass} (h : Lists f p) :
    Lists (fun v => do
      let v ← gen (fun g => .ok { g with
        program := g.program ++ [0], fpAdds := g.program.length :: g.fpAdds })
        { v with allocator := .new 0 .stack, below := v.allocator :: v.below }
      let v ← f v
      let v ← v.gen (compileEpilogue (BitVec.ofNat 32 v.allocator.getMaxAlloc))
      .ok { v with allocator := v.below.headD v.allocator, below := v.below.tail }) (Pass.frame p) := by
  intro c g
  set inner : Context := { c with allocator := .new 0 .stack, below := c.allocator :: c.below } with hinner
  set n := g.program.length with hn
  -- the program with a word for the size, and the two ways to fill it
  set gz : CodeGenerator := { g with program := g.program ++ [0] } with hgz
  have hlen : n < gz.program.length := by simp [hgz, hn]
  have hopen : ({ g with program := g.program ++ [0], fpAdds := n :: g.fpAdds } : CodeGenerator) =
      gz.fill n 0 (n :: g.fpAdds) := by simp [fill, hgz, hn]
  have hfilled : ∀ w, ({ g with program := g.program ++ [w] } : CodeGenerator) = gz.fill n w g.fpAdds := by
    intro w
    simp [fill, hgz, hn]
  have hbody : f (inner.visitor (gz.fill n 0 (n :: g.fpAdds))) = (p inner).onto (gz.fill n 0 (n :: g.fpAdds)) := h _ _
  show (f (inner.visitor { g with program := g.program ++ [0], fpAdds := n :: g.fpAdds }) >>= _) = _
  rw [hopen, hbody, Pass.frame, ← hinner]
  obtain ⟨is, r⟩ := p inner
  have hlist : ∀ w r, Listing.onto (.word w :: is, r) g = (emit is (gz.fill n w g.fpAdds) >>= fun g => r >>= fun c =>
      .ok (c.visitor g)) := fun w r => by rw [Listing.onto, emit_word, hfilled]
  rw [Listing.onto, emit_fill is 0 _ hlen]
  cases r with
  | error e =>
    rw [hlist, emit_fill is 0 _ hlen]
    cases emit is gz <;> rfl
  | ok c' =>
    cases hsize : Assembler.addfp (BitVec.ofNat 32 c'.allocator.getMaxAlloc).toInt with
    | error e =>
      simp only [hsize]
      rw [hlist, emit_fill is 0 _ hlen]
      cases emit is gz with
      | error e' => rfl
      | ok g₁ =>
        show (gen (compileEpilogue (BitVec.ofNat 32 c'.allocator.getMaxAlloc))
          (c'.visitor (g₁.fill n 0 (n :: g.fpAdds))) >>= _) = _
        rw [epilogue_onto, hsize]
        rfl
    | ok w =>
      simp only [hsize, Listing.onto_andThen, emit_word, hfilled, emit_fill is _ _ hlen]
      cases emit is gz with
      | error e' => rfl
      | ok g₁ =>
        show (gen (compileEpilogue (BitVec.ofNat 32 c'.allocator.getMaxAlloc))
          (c'.visitor (g₁.fill n 0 (n :: g.fpAdds))) >>= _) = _
        rw [epilogue_onto, hsize]
        rfl

theorem Lists.funcDecl (H : HashOrder (Ident × ℕ)) (x : Ident) (body : Stmts) :
    Lists (visitFuncDecl H x body) (Pass.funcDecl H x body) := by
  refine ((label (.func x)).cons ((push Assembler.lppc).cons (last (frame (lists_stmts H body))))).congr fun v => ?_
  rw [visitFuncDecl]
  cases h : v.gen (declareLabel x) with
  | error e => simp only [Label.name, h]; rfl
  | ok v' =>
    simp only [Label.name, h]
    cases hw : Assembler.lppc with
    | error e => simp only [gen, compilePrologue, compilePushPpc, hw]; rfl
    | ok w => simp only [gen, compilePrologue, compilePushPpc, hw]; rfl

theorem lists_varDecls : ∀ prog, Lists (visitVarDecls prog) (Pass.varDecls prog)
  | [] => .skip
  | .varDeclStmt x e :: rest => (Lists.varDecl x e).bind (lists_varDecls rest)
  | .funcDecl _ _ :: rest => lists_varDecls rest

theorem lists_funcDecls (H : HashOrder (Ident × ℕ)) : ∀ prog, Lists (visitFuncDecls H prog) (Pass.funcDecls H prog)
  | [] => .skip
  | .varDeclStmt _ _ :: rest => lists_funcDecls H rest
  | .funcDecl f body :: rest => (Lists.funcDecl H f body).bind (lists_funcDecls H rest)

/-- **The visitor lists.** What it does with a program is what `emit` does with the listing. -/
theorem visitProg_eq (H : HashOrder (Ident × ℕ)) (prog : Prog) : visitProg H prog new = (listing H prog).onto .new := by
  have hstart : Lists _ (Pass.startUp prog) := (Lists.push (Assembler.lconst 1024)).cons ((Lists.push _).cons
    ((lists_varDecls prog).cons ((Lists.ref (.func "main")).cons ((Lists.push _).cons (.last (.fresh
      (f := fun x v => v.gen (declareLabel x) >>= fun v => v.gen (compileRef x) >>= gen compileAJmp)
      fun l => (Lists.label l).cons ((Lists.ref l).cons (.last (.push _)))))))))
  have hprog := hstart.bind (lists_funcDecls H prog) .new .new
  rw [listing, ← show _ = Listing.onto _ _ from hprog, visitProg]
  simp only [bind_assoc]
  rfl

end FpgaLearning.Compiler
