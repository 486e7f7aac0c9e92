/-
The parse trees of `MyLanguage.g4`, one type for each rule, and the expressions without their precedence levels.

- `NUMBER` stands for the value of its digits.
- `Ast` is what the ten levels have in common. `Expr.ast` forgets the levels and the parentheses; `Ast.expr` puts
  parentheses everywhere, so every `Ast` is the `ast` of a tree.
-/
import FpgaLearning.Compiler.VariableAllocator

namespace FpgaLearning.Compiler

/-! ## Parse trees -/

mutual

inductive Expr where
  | bitwiseor (e : Bitwiseor)

inductive Bitwiseor where
  | bitor (l : Bitwiseor) (r : Bitwisexor)
  | bitwisexor (e : Bitwisexor)

inductive Bitwisexor where
  | bitxor (l : Bitwisexor) (r : Bitwiseand)
  | bitwiseand (e : Bitwiseand)

inductive Bitwiseand where
  | bitand (l : Bitwiseand) (r : Eqcomparison)
  | eqcomparison (e : Eqcomparison)

inductive Eqcomparison where
  | equal (l : Eqcomparison) (r : Comparison)
  | notequal (l : Eqcomparison) (r : Comparison)
  | comparison (e : Comparison)

inductive Comparison where
  | less (l : Comparison) (r : Shift)
  | lessequal (l : Comparison) (r : Shift)
  | greater (l : Comparison) (r : Shift)
  | greaterequal (l : Comparison) (r : Shift)
  | shift (e : Shift)

inductive Shift where
  | shiftleft (l : Shift) (r : Summa)
  | shiftright (l : Shift) (r : Summa)
  | summa (e : Summa)

inductive Summa where
  | plus (l : Summa) (r : Term)
  | minus (l : Summa) (r : Term)
  | term (e : Term)

inductive Term where
  | mult (l : Term) (r : Factor)
  | div (l : Term) (r : Factor)
  | rem (l : Term) (r : Factor)
  | factor (e : Factor)

inductive Factor where
  | minus (e : Factor)
  | bitnot (e : Factor)
  | number (n : ℕ)
  | ident (x : Ident)
  | paren (e : Expr)

end

mutual

inductive Stmt where
  | ifStmt (cond : Expr) (thenStmt : Stmt)
  | ifElseStmt (cond : Expr) (thenStmt elseStmt : Stmt)
  | whileStmt (cond : Expr) (body : Stmt)
  | varDeclStmt (x : Ident) (e : Expr)
  | assignStmt (x : Ident) (e : Expr)
  | printStmt (e : Expr)
  | callStmt (f : Ident)
  | block (ss : Stmts)

inductive Stmts where
  | nil
  | cons (s : Stmt) (ss : Stmts)

end

inductive TopLevel where
  | funcDecl (f : Ident) (body : Stmts)
  | varDeclStmt (x : Ident) (e : Expr)

abbrev Prog := List TopLevel

/-! ## Expressions -/

inductive UnaryOp where
  | minus | bitnot
deriving DecidableEq, Repr

inductive BinaryOp where
  | bitor | bitxor | bitand | equal | notequal | less | lessequal | greater | greaterequal | shiftleft | shiftright
  | plus | minus | mult | div | rem
deriving DecidableEq, Repr

inductive Ast where
  | number (n : ℕ)
  | ident (x : Ident)
  | unary (o : UnaryOp) (e : Ast)
  | binary (o : BinaryOp) (l r : Ast)
deriving DecidableEq, Repr

mutual

def Expr.ast : Expr → Ast
  | .bitwiseor e => e.ast

def Bitwiseor.ast : Bitwiseor → Ast
  | .bitor l r => .binary .bitor l.ast r.ast
  | .bitwisexor e => e.ast

def Bitwisexor.ast : Bitwisexor → Ast
  | .bitxor l r => .binary .bitxor l.ast r.ast
  | .bitwiseand e => e.ast

def Bitwiseand.ast : Bitwiseand → Ast
  | .bitand l r => .binary .bitand l.ast r.ast
  | .eqcomparison e => e.ast

def Eqcomparison.ast : Eqcomparison → Ast
  | .equal l r => .binary .equal l.ast r.ast
  | .notequal l r => .binary .notequal l.ast r.ast
  | .comparison e => e.ast

def Comparison.ast : Comparison → Ast
  | .less l r => .binary .less l.ast r.ast
  | .lessequal l r => .binary .lessequal l.ast r.ast
  | .greater l r => .binary .greater l.ast r.ast
  | .greaterequal l r => .binary .greaterequal l.ast r.ast
  | .shift e => e.ast

def Shift.ast : Shift → Ast
  | .shiftleft l r => .binary .shiftleft l.ast r.ast
  | .shiftright l r => .binary .shiftright l.ast r.ast
  | .summa e => e.ast

def Summa.ast : Summa → Ast
  | .plus l r => .binary .plus l.ast r.ast
  | .minus l r => .binary .minus l.ast r.ast
  | .term e => e.ast

def Term.ast : Term → Ast
  | .mult l r => .binary .mult l.ast r.ast
  | .div l r => .binary .div l.ast r.ast
  | .rem l r => .binary .rem l.ast r.ast
  | .factor e => e.ast

def Factor.ast : Factor → Ast
  | .minus e => .unary .minus e.ast
  | .bitnot e => .unary .bitnot e.ast
  | .number n => .number n
  | .ident x => .ident x
  | .paren e => e.ast

end

/-- the expression itself, and the expressions it is made of -/
def Ast.subexprs : Ast → List Ast
  | .number n => [.number n]
  | .ident x => [.ident x]
  | .unary o e => .unary o e :: e.subexprs
  | .binary o l r => .binary o l r :: (l.subexprs ++ r.subexprs)

theorem Ast.mem_subexprs_self (e : Ast) : e ∈ e.subexprs := by
  cases e <;> simp [Ast.subexprs]

theorem Ast.subexprs_trans {e u w : Ast} (hu : u ∈ e.subexprs) (hw : w ∈ u.subexprs) : w ∈ e.subexprs := by
  induction e with
  | number n => rw [Ast.subexprs, List.mem_singleton] at hu; exact hu ▸ hw
  | ident x => rw [Ast.subexprs, List.mem_singleton] at hu; exact hu ▸ hw
  | unary o e ih =>
    rcases List.mem_cons.1 hu with rfl | hu
    · exact hw
    · exact List.mem_cons_of_mem _ (ih hu)
  | binary o l r ihl ihr =>
    rcases List.mem_cons.1 hu with rfl | hu
    · exact hw
    · rcases List.mem_append.1 hu with hu | hu
      · exact List.mem_cons_of_mem _ (List.mem_append_left _ (ihl hu))
      · exact List.mem_cons_of_mem _ (List.mem_append_right _ (ihr hu))

/-! ## Every expression is one of the grammar -/

instance : Coe Factor Term := ⟨.factor⟩
instance : Coe Term Summa := ⟨.term⟩
instance : Coe Summa Shift := ⟨.summa⟩
instance : Coe Shift Comparison := ⟨.shift⟩
instance : Coe Comparison Eqcomparison := ⟨.comparison⟩
instance : Coe Eqcomparison Bitwiseand := ⟨.eqcomparison⟩
instance : Coe Bitwiseand Bitwisexor := ⟨.bitwiseand⟩
instance : Coe Bitwisexor Bitwiseor := ⟨.bitwisexor⟩
instance : Coe Bitwiseor Expr := ⟨.bitwiseor⟩

/-- `l o r` between two factors -/
def BinaryOp.expr (o : BinaryOp) (l r : Factor) : Expr :=
  match o with
  | .bitor => Bitwiseor.bitor l r
  | .bitxor => Bitwisexor.bitxor l r
  | .bitand => Bitwiseand.bitand l r
  | .equal => Eqcomparison.equal l r
  | .notequal => Eqcomparison.notequal l r
  | .less => Comparison.less l r
  | .lessequal => Comparison.lessequal l r
  | .greater => Comparison.greater l r
  | .greaterequal => Comparison.greaterequal l r
  | .shiftleft => Shift.shiftleft l r
  | .shiftright => Shift.shiftright l r
  | .plus => Summa.plus l r
  | .minus => Summa.minus l r
  | .mult => Term.mult l r
  | .div => Term.div l r
  | .rem => Term.rem l r

theorem BinaryOp.ast_expr (o : BinaryOp) (l r : Factor) : (o.expr l r).ast = .binary o l.ast r.ast := by
  cases o <;> rfl

/-- the tree of an expression, with parentheses around every operand -/
def Ast.expr : Ast → Expr
  | .number n => Factor.number n
  | .ident x => Factor.ident x
  | .unary .minus e => Factor.minus (.paren e.expr)
  | .unary .bitnot e => Factor.bitnot (.paren e.expr)
  | .binary o l r => o.expr (.paren l.expr) (.paren r.expr)

@[simp] theorem Ast.ast_expr (e : Ast) : e.expr.ast = e := by
  induction e with
  | number n => rfl
  | ident x => rfl
  | unary o e ih =>
    cases o with
    | minus => exact congrArg (Ast.unary .minus) ih
    | bitnot => exact congrArg (Ast.unary .bitnot) ih
  | binary o l r ihl ihr =>
    rw [Ast.expr, BinaryOp.ast_expr, Factor.ast, Factor.ast, ihl, ihr]

end FpgaLearning.Compiler
