/-
`MyVisitor.h`: from the parse tree to words, in one pass.

A `visit` function takes the visitor and gives the visitor afterwards, or the exception that ended the compilation. What
the source prints on the console while it goes is left out. `visitAll` compiles a program.
-/
import FpgaLearning.Compiler.CodeGenerator
import FpgaLearning.Compiler.Syntax

namespace FpgaLearning.Compiler

open FpgaLearning.Memory

/-- `mAllocators` is never empty: `allocator` is its back, `below` the others, last one first -/
structure MyVisitor where
  allocator : VariableAllocator
  below : List VariableAllocator
  codeGen : CodeGenerator
  labelGenerator : LabelGenerator
deriving DecidableEq, Repr

abbrev Visit := MyVisitor → Except String MyVisitor

namespace MyVisitor

open CodeGenerator

def new : MyVisitor := ⟨.new 200 .global, [], .new, .new⟩

def getDeclaration (v : MyVisitor) (varName : Ident) : Option (ℕ × Scope) :=
  (v.allocator :: v.below).findSome? fun a => (a.getAddr varName).map fun addr => (addr, a.scope)

/-! ## Parts of the visitor -/

/-- a call of `mCodeGen` -/
def gen (f : CodeGenerator → Except String CodeGenerator) : Visit := fun v => do
  let g ← f v.codeGen
  .ok { v with codeGen := g }

def nextLabel (v : MyVisitor) : Ident × MyVisitor :=
  (v.labelGenerator.next.1, { v with labelGenerator := v.labelGenerator.next.2 })

def startBlock (v : MyVisitor) : MyVisitor := { v with allocator := v.allocator.startBlock }

def endBlock (H : HashOrder (Ident × ℕ)) : Visit := fun v => do
  let a ← v.allocator.endBlock H
  .ok { v with allocator := a }

def alloc (x : Ident) (v : MyVisitor) : Except String (ℕ × MyVisitor) := do
  let (addr, a) ← v.allocator.alloc x
  .ok (addr, { v with allocator := a })

/-! ## Expressions -/

/-- `compileConst(stoul(text))`, with the 32-bit `unsigned long` of the platform -/
def visitNumber (n : ℕ) : Visit := fun v =>
  if n < 2 ^ 32 then v.gen (compileConst (BitVec.ofNat 32 n)) else .error "stoul argument out of range"

def visitIdent (x : Ident) : Visit := fun v =>
  match v.getDeclaration x with
  | none => .error ("MyVisitor::visitFactor: variable '" ++ x ++ "' is not declared.")
  | some (addr, .global) => v.gen (compileLoad addr)
  | some (addr, .stack) => v.gen (compileStackLoad addr)

/-- both operands, then the operation -/
def visitOperands (l r : Visit) (compile : CodeGenerator → Except String CodeGenerator) : Visit := fun v => do
  let v ← l v
  let v ← r v
  v.gen compile

mutual

def visitExpr : Expr → Visit
  | .bitwiseor e => visitBitwiseor e

/-- `compileAnd` is what the source has here -/
def visitBitwiseor : Bitwiseor → Visit
  | .bitor l r => visitOperands (visitBitwiseor l) (visitBitwisexor r) compileAnd
  | .bitwisexor e => visitBitwisexor e

/-- and here -/
def visitBitwisexor : Bitwisexor → Visit
  | .bitxor l r => visitOperands (visitBitwisexor l) (visitBitwiseand r) compileAnd
  | .bitwiseand e => visitBitwiseand e

def visitBitwiseand : Bitwiseand → Visit
  | .bitand l r => visitOperands (visitBitwiseand l) (visitEqcomparison r) compileAnd
  | .eqcomparison e => visitEqcomparison e

def visitEqcomparison : Eqcomparison → Visit
  | .equal l r => visitOperands (visitEqcomparison l) (visitComparison r) compileEq
  | .notequal l r => visitOperands (visitEqcomparison l) (visitComparison r) compileNeq
  | .comparison e => visitComparison e

def visitComparison : Comparison → Visit
  | .less l r => visitOperands (visitComparison l) (visitShift r) compileLt
  | .greater l r => visitOperands (visitComparison l) (visitShift r) compileGt
  | .lessequal l r => visitOperands (visitComparison l) (visitShift r) compileLe
  | .greaterequal l r => visitOperands (visitComparison l) (visitShift r) compileGe
  | .shift e => visitShift e

def visitShift : Shift → Visit
  | .shiftleft l r => visitOperands (visitShift l) (visitSumma r) compileShl
  | .shiftright l r => visitOperands (visitShift l) (visitSumma r) compileShr
  | .summa e => visitSumma e

def visitSumma : Summa → Visit
  | .plus l r => visitOperands (visitSumma l) (visitTerm r) compileAdd
  | .minus l r => visitOperands (visitSumma l) (visitTerm r) compileSub
  | .term e => visitTerm e

def visitTerm : Term → Visit
  | .mult l r => visitOperands (visitTerm l) (visitFactor r) compileMul
  | .div l r => visitOperands (visitTerm l) (visitFactor r) compileDiv
  | .rem l r => visitOperands (visitTerm l) (visitFactor r) compileRem
  | .factor e => visitFactor e

def visitFactor : Factor → Visit
  | .number n => visitNumber n
  | .ident x => visitIdent x
  | .minus e => fun v => do
    let v ← visitFactor e v
    v.gen compileNegate
  | .bitnot e => fun v => do
    let v ← visitFactor e v
    v.gen compileNot
  | .paren e => visitExpr e

end

/-! ## Statements -/

/-- the value on the stack goes to the variable -/
def save (addr : ℕ) : Scope → Visit
  | .global => gen (compileSave addr)
  | .stack => gen (compileStackSave addr)

def visitVarDeclStmt (x : Ident) (e : Expr) : Visit := fun v => do
  let (addr, v) ← v.alloc x
  let v ← visitExpr e v
  v.save addr v.allocator.scope

def visitAssignStmt (x : Ident) (e : Expr) : Visit := fun v =>
  match v.getDeclaration x with
  | none => .error ("MyVisitor::visitAssign_stmt: variable '" ++ x ++ "' is not declared.")
  | some (addr, scope) => do
    let v ← visitExpr e v
    v.save addr scope

def visitPrintStmt (e : Expr) : Visit := fun v => do
  let v ← visitExpr e v
  v.gen (compileSave (2 ^ 30))

def visitCallStmt (f : Ident) : Visit := fun v => do
  let v ← v.gen (compileRef f)
  v.gen compileAJmp

/-- the branch that is not taken when the condition holds -/
def visitElse (H : HashOrder (Ident × ℕ)) (elseBegin : Ident) : Option Visit → Visit
  | none => gen (declareLabel elseBegin)
  | some elseStmt => fun v => do
    let (operatorEnd, v) := v.nextLabel
    let v ← v.gen (compileRef operatorEnd)
    let v ← v.gen compileAJmp
    let v ← v.gen (declareLabel elseBegin)
    let v ← elseStmt v.startBlock
    let v ← v.endBlock H
    v.gen (declareLabel operatorEnd)

def visitIfStmt (H : HashOrder (Ident × ℕ)) (cond : Expr) (thenStmt : Visit) (elseStmt : Option Visit) : Visit := fun v => do
  let (elseBegin, v) := v.startBlock.nextLabel
  let v ← visitExpr cond v
  let v ← v.gen (compileRef elseBegin)
  let v ← v.gen compileCJmpz
  let v ← thenStmt v.startBlock
  let v ← v.endBlock H
  let v ← visitElse H elseBegin elseStmt v
  v.endBlock H

def visitWhileStmt (H : HashOrder (Ident × ℕ)) (cond : Expr) (body : Visit) : Visit := fun v => do
  let (loop, v) := v.startBlock.nextLabel
  let v ← v.gen (declareLabel loop)
  let v ← visitExpr cond v
  let (loopEnd, v) := v.nextLabel
  let v ← v.gen (compileRef loopEnd)
  let v ← v.gen compileCJmpz
  let v ← body v.startBlock
  let v ← v.endBlock H
  let v ← v.gen (compileRef loop)
  let v ← v.gen compileAJmp
  let v ← v.gen (declareLabel loopEnd)
  v.endBlock H

mutual

def visitStmt (H : HashOrder (Ident × ℕ)) : Stmt → Visit
  | .ifStmt cond thenStmt => visitIfStmt H cond (visitStmt H thenStmt) none
  | .ifElseStmt cond thenStmt elseStmt => visitIfStmt H cond (visitStmt H thenStmt) (some (visitStmt H elseStmt))
  | .whileStmt cond body => visitWhileStmt H cond (visitStmt H body)
  | .varDeclStmt x e => visitVarDeclStmt x e
  | .assignStmt x e => visitAssignStmt x e
  | .printStmt e => visitPrintStmt e
  | .callStmt f => visitCallStmt f
  | .block ss => visitStmts H ss

def visitStmts (H : HashOrder (Ident × ℕ)) : Stmts → Visit
  | .nil => fun v => .ok v
  | .cons s ss => fun v => do
    let v ← visitStmt H s v
    visitStmts H ss v

end

/-! ## Programs -/

/-- `getMaxAlloc` becomes a `uint32_t`; `below` is not empty at the end, the caller's allocator is there -/
def visitFuncDecl (H : HashOrder (Ident × ℕ)) (f : Ident) (body : Stmts) : Visit := fun v => do
  let v ← v.gen (declareLabel f)
  let v := { v with allocator := .new 0 .stack, below := v.allocator :: v.below }
  let v ← v.gen compilePrologue
  let v ← visitStmts H body v
  let v ← v.gen (compileEpilogue (BitVec.ofNat 32 v.allocator.getMaxAlloc))
  .ok { v with allocator := v.below.headD v.allocator, below := v.below.tail }

/-- the global variables among the declarations -/
def visitVarDecls : Prog → Visit
  | [] => fun v => .ok v
  | .varDeclStmt x e :: rest => fun v => do
    let v ← visitVarDeclStmt x e v
    visitVarDecls rest v
  | .funcDecl _ _ :: rest => visitVarDecls rest

/-- the functions among the declarations -/
def visitFuncDecls (H : HashOrder (Ident × ℕ)) : Prog → Visit
  | [] => fun v => .ok v
  | .varDeclStmt _ _ :: rest => visitFuncDecls H rest
  | .funcDecl f body :: rest => fun v => do
    let v ← visitFuncDecl H f body v
    visitFuncDecls H rest v

def visitProg (H : HashOrder (Ident × ℕ)) (prog : Prog) : Visit := fun v => do
  let v ← v.gen (compileConst 1024)
  let v ← v.gen compileLoadFp
  let v ← visitVarDecls prog v
  let v ← v.gen (compileRef "main")
  let v ← v.gen compileAJmp
  let (endLoop, v) := v.nextLabel
  let v ← v.gen (declareLabel endLoop)
  let v ← v.gen (compileRef endLoop)
  let v ← v.gen compileAJmp
  visitFuncDecls H prog v

/-- the words and the labels of a program; `H` and `R` are the orders of the hash maps of variables and references -/
def visitAll (H : HashOrder (Ident × ℕ)) (R : HashOrder (Ident × List ℕ)) (prog : Prog) :
    Except String (List Opcode × List (Ident × ℕ)) := do
  let v ← visitProg H prog new
  let v ← v.gen (resolveRefs R)
  .ok (v.codeGen.program, v.codeGen.getLabels)

end MyVisitor

end FpgaLearning.Compiler
