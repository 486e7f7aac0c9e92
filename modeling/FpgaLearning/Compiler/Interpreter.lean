/-
An interpreter of source programs.

- `Env`: the global variables and those of the running function, newest first. The body of `if` and `while` is a scope:
  what it declares is gone after it. A bare `{ }` is none.
- An operator means the ALU operation that the visitor emits for it.
- A call and another round of a loop take fuel. A variable or function that is not declared stops the interpretation.
-/
import FpgaLearning.Core.Simulation
import FpgaLearning.Compiler.Meaning

namespace FpgaLearning.Compiler

open FpgaLearning.Memory FpgaLearning.Stack FpgaLearning.Traced

/-! ## Variables -/

structure Env where
  globals : List (Ident × Word)
  locals : List (Ident × Word)
deriving DecidableEq, Repr

/-- the first variable of this name gets a value -/
def assignTo (x : Ident) (w : Word) : List (Ident × Word) → List (Ident × Word)
  | [] => []
  | (y, v) :: rest => if y = x then (y, w) :: rest else (y, v) :: assignTo x w rest

namespace Env

def read (env : Env) (x : Ident) : Option Word := (env.locals.lookup x).or (env.globals.lookup x)

def assign (x : Ident) (w : Word) (env : Env) : Option Env :=
  if (env.locals.lookup x).isSome then some { env with locals := assignTo x w env.locals }
  else if (env.globals.lookup x).isSome then some { env with globals := assignTo x w env.globals }
  else none

def declare (x : Ident) (w : Word) (env : Env) : Env := { env with locals := (x, w) :: env.locals }

/-- the end of a scope that began with `n` local variables -/
def leave (n : ℕ) (env : Env) : Env := { env with locals := env.locals.drop (env.locals.length - n) }

end Env

/-! ## Statements -/

/-- what is printed, and the variables afterwards -/
abbrev Exec := Run Env Word

/-- the value of an expression goes on -/
def withValue (z : DivByZero) (e : Expr) (env : Env) (f : Word → Exec) : Exec :=
  match e.ast.result z env.read with
  | some w => f w
  | none => .stop .stuck

/-- a statement in a scope of its own -/
def inScope (f : Env → Exec) (env : Env) : Exec := (f env).andThen fun env' => .done (env'.leave env.locals.length)

def functionBody : Prog → Ident → Option Stmts
  | [], _ => none
  | .varDeclStmt _ _ :: rest, f => functionBody rest f
  | .funcDecl f' body :: rest, f => if f' = f then some body else functionBody rest f

section

variable (z : DivByZero) (prog : Prog) (again : Stmt → Env → Exec)

mutual

/-- one statement; `again` is for the body of a function that is called and for the next round of a loop -/
def execStmt : Stmt → Env → Exec
  | .ifStmt cond thenStmt => fun env => withValue z cond env fun w =>
    if w = 0 then .done env else inScope (execStmt thenStmt) env
  | .ifElseStmt cond thenStmt elseStmt => fun env => withValue z cond env fun w =>
    if w = 0 then inScope (execStmt elseStmt) env else inScope (execStmt thenStmt) env
  | .whileStmt cond body => fun env => withValue z cond env fun w =>
    if w = 0 then .done env else (inScope (execStmt body) env).andThen (again (.whileStmt cond body))
  | .varDeclStmt x e => fun env => withValue z e env fun w => .done (env.declare x w)
  | .assignStmt x e => fun env => withValue z e env fun w =>
    match env.assign x w with
    | some env' => .done env'
    | none => .stop .stuck
  | .printStmt e => fun env => withValue z e env fun w => ([w], .ok env)
  | .callStmt f => fun env =>
    match functionBody prog f with
    | some body => (again (.block body) { env with locals := [] }).andThen fun env' =>
        .done { env' with locals := env.locals }
    | none => .stop .stuck
  | .block ss => execStmts ss

def execStmts : Stmts → Env → Exec
  | .nil => .done
  | .cons s ss => fun env => (execStmt s env).andThen (execStmts ss)

end

end

/-- a statement with fuel -/
def exec (z : DivByZero) (prog : Prog) : ℕ → Stmt → Env → Exec
  | 0 => fun _ _ => .stop .outOfFuel
  | n + 1 => execStmt z prog (exec z prog n)

/-! ## Programs -/

/-- the initialisers of the global variables -/
def initGlobals (z : DivByZero) : Prog → Env → Exec
  | [], env => .done env
  | .varDeclStmt x e :: rest, env => withValue z e env fun w =>
    initGlobals z rest { env with globals := (x, w) :: env.globals }
  | .funcDecl _ _ :: rest, env => initGlobals z rest env

/-- all initialisers in order, then `main` -/
def interpret (z : DivByZero) (prog : Prog) (fuel : ℕ) : Exec :=
  (initGlobals z prog ⟨[], []⟩).andThen (exec z prog fuel (.callStmt "main"))

/-! ## Initialisers -/

mutual

/-- no initialiser mentions the variable it declares -/
def Stmt.SelfFree : Stmt → Prop
  | .ifStmt _ thenStmt => thenStmt.SelfFree
  | .ifElseStmt _ thenStmt elseStmt => thenStmt.SelfFree ∧ elseStmt.SelfFree
  | .whileStmt _ body => body.SelfFree
  | .varDeclStmt x e => x ∉ e.ast.idents
  | .assignStmt _ _ => True
  | .printStmt _ => True
  | .callStmt _ => True
  | .block ss => ss.SelfFree

def Stmts.SelfFree : Stmts → Prop
  | .nil => True
  | .cons s ss => s.SelfFree ∧ ss.SelfFree

end

/-- in no function and for no global variable -/
def SelfFree : Prog → Prop
  | [] => True
  | .varDeclStmt x e :: rest => x ∉ e.ast.idents ∧ SelfFree rest
  | .funcDecl _ body :: rest => body.SelfFree ∧ SelfFree rest

end FpgaLearning.Compiler
