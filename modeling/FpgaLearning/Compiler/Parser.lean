/-
`MyLanguageParser.cpp`: the recursive-descent parser generated from `MyLanguage.g4`.

A rule that is not left recursive looks at the next token and matches what it must. A left-recursive rule reads one
operand of the next tighter level and then operators as long as the next token is one of its own; `if_stmt` takes an
`else` whenever there is one. For this grammar one token decides, and the generator documents these decisions. `prog` has
no end marker: it stops at the first token that starts no declaration and leaves the rest unread. A parser answers `none`
where the generated one reports a syntax error, after which that one repairs its input and returns a tree all the same.

- `factor_exact`, `stmt_exact`: each rule returns a tree without a report exactly when the input is its token list.
- `prog_iff`: programs.
-/
import FpgaLearning.Core.Parsing
import FpgaLearning.Compiler.Syntax

namespace FpgaLearning.Compiler

open FpgaLearning.Parsing

/-! ## Tokens -/

/-- the token types of `MyLanguageLexer`; NUMBER carries the value of its digits -/
inductive Token where
  | func | call | var | print | kwIf | kwElse | kwWhile
  | lbra | rbra | lpar | rpar
  | plus | minus | mult | div | rem
  | less | lessequal | greater | greaterequal | equal | notequal
  | bitnot | bitor | bitand | bitxor | shiftleft | shiftright
  | assign | semicolon
  | ident (x : Ident)
  | number (n : ℕ)
deriving DecidableEq, Repr

/-! ## What a tree prints as -/

mutual

def Expr.tokens : Expr → List Token
  | .bitwiseor e => e.tokens

def Bitwiseor.tokens : Bitwiseor → List Token
  | .bitor l r => l.tokens ++ .bitor :: r.tokens
  | .bitwisexor e => e.tokens

def Bitwisexor.tokens : Bitwisexor → List Token
  | .bitxor l r => l.tokens ++ .bitxor :: r.tokens
  | .bitwiseand e => e.tokens

def Bitwiseand.tokens : Bitwiseand → List Token
  | .bitand l r => l.tokens ++ .bitand :: r.tokens
  | .eqcomparison e => e.tokens

def Eqcomparison.tokens : Eqcomparison → List Token
  | .equal l r => l.tokens ++ .equal :: r.tokens
  | .notequal l r => l.tokens ++ .notequal :: r.tokens
  | .comparison e => e.tokens

def Comparison.tokens : Comparison → List Token
  | .less l r => l.tokens ++ .less :: r.tokens
  | .lessequal l r => l.tokens ++ .lessequal :: r.tokens
  | .greater l r => l.tokens ++ .greater :: r.tokens
  | .greaterequal l r => l.tokens ++ .greaterequal :: r.tokens
  | .shift e => e.tokens

def Shift.tokens : Shift → List Token
  | .shiftleft l r => l.tokens ++ .shiftleft :: r.tokens
  | .shiftright l r => l.tokens ++ .shiftright :: r.tokens
  | .summa e => e.tokens

def Summa.tokens : Summa → List Token
  | .plus l r => l.tokens ++ .plus :: r.tokens
  | .minus l r => l.tokens ++ .minus :: r.tokens
  | .term e => e.tokens

def Term.tokens : Term → List Token
  | .mult l r => l.tokens ++ .mult :: r.tokens
  | .div l r => l.tokens ++ .div :: r.tokens
  | .rem l r => l.tokens ++ .rem :: r.tokens
  | .factor e => e.tokens

def Factor.tokens : Factor → List Token
  | .minus e => .minus :: e.tokens
  | .bitnot e => .bitnot :: e.tokens
  | .number n => [.number n]
  | .ident x => [.ident x]
  | .paren e => .lpar :: (e.tokens ++ [.rpar])

end

mutual

def Stmt.tokens : Stmt → List Token
  | .ifStmt c s => .kwIf :: .lpar :: (c.tokens ++ .rpar :: s.tokens)
  | .ifElseStmt c s t => .kwIf :: .lpar :: (c.tokens ++ .rpar :: (s.tokens ++ .kwElse :: t.tokens))
  | .whileStmt c s => .kwWhile :: .lpar :: (c.tokens ++ .rpar :: s.tokens)
  | .varDeclStmt x e => .var :: .ident x :: .assign :: (e.tokens ++ [.semicolon])
  | .assignStmt x e => .ident x :: .assign :: (e.tokens ++ [.semicolon])
  | .printStmt e => .print :: .lpar :: (e.tokens ++ [.rpar, .semicolon])
  | .callStmt f => [.call, .ident f, .semicolon]
  | .block ss => .lbra :: (ss.tokens ++ [.rbra])

def Stmts.tokens : Stmts → List Token
  | .nil => []
  | .cons s ss => s.tokens ++ ss.tokens

end

def TopLevel.tokens : TopLevel → List Token
  | .funcDecl f body => .func :: .ident f :: .lbra :: (body.tokens ++ [.rbra])
  | .varDeclStmt x e => .var :: .ident x :: .assign :: (e.tokens ++ [.semicolon])

def Prog.tokens (p : Prog) : List Token := p.flatMap TopLevel.tokens

/-! ## Expressions -/

namespace MyLanguageParser

/-- `match(IDENT)` -/
def ident : List Token → Option (Ident × List Token)
  | .ident x :: ts => some (x, ts)
  | _ => none

theorem ident_iff {toks ts : List Token} {x : Ident} : ident toks = some (x, ts) ↔ toks = .ident x :: ts := by
  cases toks with
  | nil => simp [ident]
  | cons t toks => cases t <;> simp [ident]

def termLevel : Level Token Term Factor where
  leaf := .factor
  op
    | .mult => some .mult
    | .div => some .div
    | .rem => some .rem
    | _ => none

def summaLevel : Level Token Summa Term where
  leaf := .term
  op
    | .plus => some .plus
    | .minus => some .minus
    | _ => none

def shiftLevel : Level Token Shift Summa where
  leaf := .summa
  op
    | .shiftleft => some .shiftleft
    | .shiftright => some .shiftright
    | _ => none

def comparisonLevel : Level Token Comparison Shift where
  leaf := .shift
  op
    | .less => some .less
    | .lessequal => some .lessequal
    | .greater => some .greater
    | .greaterequal => some .greaterequal
    | _ => none

def eqcomparisonLevel : Level Token Eqcomparison Comparison where
  leaf := .comparison
  op
    | .equal => some .equal
    | .notequal => some .notequal
    | _ => none

def bitwiseandLevel : Level Token Bitwiseand Eqcomparison where
  leaf := .eqcomparison
  op
    | .bitand => some .bitand
    | _ => none

def bitwisexorLevel : Level Token Bitwisexor Bitwiseand where
  leaf := .bitwiseand
  op
    | .bitxor => some .bitxor
    | _ => none

def bitwiseorLevel : Level Token Bitwiseor Bitwisexor where
  leaf := .bitwisexor
  op
    | .bitor => some .bitor
    | _ => none

/-- the nine levels above a parser of factors; no loop is taken more than `n` times -/
def exprOver (factor : Parser Token Factor) (n : ℕ) : Parser Token Expr := fun toks =>
  (chain bitwiseorLevel (chain bitwisexorLevel (chain bitwiseandLevel (chain eqcomparisonLevel (chain comparisonLevel
    (chain shiftLevel (chain summaLevel (chain termLevel factor n) n) n) n) n) n) n) n toks).map
      fun r => (.bitwiseor r.1, r.2)

/-- `factor()`; the argument bounds the depth of the recursion -/
def factor : ℕ → Parser Token Factor
  | 0, _ => none
  | n + 1, .minus :: ts => (factor n ts).map fun r => (.minus r.1, r.2)
  | n + 1, .bitnot :: ts => (factor n ts).map fun r => (.bitnot r.1, r.2)
  | _ + 1, .number k :: ts => some (.number k, ts)
  | _ + 1, .ident x :: ts => some (.ident x, ts)
  | n + 1, .lpar :: ts => do
    let (e, ts) ← exprOver (factor n) n ts
    let ts ← expect .rpar ts
    return (.paren e, ts)
  | _ + 1, _ => none

/-- `expr()` -/
def expr : Parser Token Expr := fun toks => exprOver (factor toks.length) toks.length toks

/-! ### Each level prints as operands with operators between them -/

theorem termLevel_prints : termLevel.Prints Term.tokens Factor.tokens where
  leaf _ := by rw [termLevel, Term.tokens]
  node t f h a b := by cases t <;> cases h <;> rw [Term.tokens]
  shape a := by
    cases a with
    | mult l r => exact .inr ⟨.mult, _, l, r, rfl, rfl, by simp; omega⟩
    | div l r => exact .inr ⟨.div, _, l, r, rfl, rfl, by simp; omega⟩
    | rem l r => exact .inr ⟨.rem, _, l, r, rfl, rfl, by simp; omega⟩
    | factor e => exact .inl ⟨e, rfl⟩

theorem summaLevel_prints : summaLevel.Prints Summa.tokens Term.tokens where
  leaf _ := by rw [summaLevel, Summa.tokens]
  node t f h a b := by cases t <;> cases h <;> rw [Summa.tokens]
  shape a := by
    cases a with
    | plus l r => exact .inr ⟨.plus, _, l, r, rfl, rfl, by simp; omega⟩
    | minus l r => exact .inr ⟨.minus, _, l, r, rfl, rfl, by simp; omega⟩
    | term e => exact .inl ⟨e, rfl⟩

theorem shiftLevel_prints : shiftLevel.Prints Shift.tokens Summa.tokens where
  leaf _ := by rw [shiftLevel, Shift.tokens]
  node t f h a b := by cases t <;> cases h <;> rw [Shift.tokens]
  shape a := by
    cases a with
    | shiftleft l r => exact .inr ⟨.shiftleft, _, l, r, rfl, rfl, by simp; omega⟩
    | shiftright l r => exact .inr ⟨.shiftright, _, l, r, rfl, rfl, by simp; omega⟩
    | summa e => exact .inl ⟨e, rfl⟩

theorem comparisonLevel_prints : comparisonLevel.Prints Comparison.tokens Shift.tokens where
  leaf _ := by rw [comparisonLevel, Comparison.tokens]
  node t f h a b := by cases t <;> cases h <;> rw [Comparison.tokens]
  shape a := by
    cases a with
    | less l r => exact .inr ⟨.less, _, l, r, rfl, rfl, by simp; omega⟩
    | lessequal l r => exact .inr ⟨.lessequal, _, l, r, rfl, rfl, by simp; omega⟩
    | greater l r => exact .inr ⟨.greater, _, l, r, rfl, rfl, by simp; omega⟩
    | greaterequal l r => exact .inr ⟨.greaterequal, _, l, r, rfl, rfl, by simp; omega⟩
    | shift e => exact .inl ⟨e, rfl⟩

theorem eqcomparisonLevel_prints : eqcomparisonLevel.Prints Eqcomparison.tokens Comparison.tokens where
  leaf _ := by rw [eqcomparisonLevel, Eqcomparison.tokens]
  node t f h a b := by cases t <;> cases h <;> rw [Eqcomparison.tokens]
  shape a := by
    cases a with
    | equal l r => exact .inr ⟨.equal, _, l, r, rfl, rfl, by simp; omega⟩
    | notequal l r => exact .inr ⟨.notequal, _, l, r, rfl, rfl, by simp; omega⟩
    | comparison e => exact .inl ⟨e, rfl⟩

theorem bitwiseandLevel_prints : bitwiseandLevel.Prints Bitwiseand.tokens Eqcomparison.tokens where
  leaf _ := by rw [bitwiseandLevel, Bitwiseand.tokens]
  node t f h a b := by cases t <;> cases h; rw [Bitwiseand.tokens]
  shape a := by
    cases a with
    | bitand l r => exact .inr ⟨.bitand, _, l, r, rfl, rfl, by simp; omega⟩
    | eqcomparison e => exact .inl ⟨e, rfl⟩

theorem bitwisexorLevel_prints : bitwisexorLevel.Prints Bitwisexor.tokens Bitwiseand.tokens where
  leaf _ := by rw [bitwisexorLevel, Bitwisexor.tokens]
  node t f h a b := by cases t <;> cases h; rw [Bitwisexor.tokens]
  shape a := by
    cases a with
    | bitxor l r => exact .inr ⟨.bitxor, _, l, r, rfl, rfl, by simp; omega⟩
    | bitwiseand e => exact .inl ⟨e, rfl⟩

theorem bitwiseorLevel_prints : bitwiseorLevel.Prints Bitwiseor.tokens Bitwisexor.tokens where
  leaf _ := by rw [bitwiseorLevel, Bitwiseor.tokens]
  node t f h a b := by cases t <;> cases h; rw [Bitwiseor.tokens]
  shape a := by
    cases a with
    | bitor l r => exact .inr ⟨.bitor, _, l, r, rfl, rfl, by simp; omega⟩
    | bitwisexor e => exact .inl ⟨e, rfl⟩

/-! ### Expressions -/

end MyLanguageParser

/-- how loosely a binary operator binds, from the factors of a term up; 0 for every other token -/
def Token.level : Token → ℕ
  | .mult | .div | .rem => 1
  | .plus | .minus => 2
  | .shiftleft | .shiftright => 3
  | .less | .lessequal | .greater | .greaterequal => 4
  | .equal | .notequal => 5
  | .bitand => 6
  | .bitxor => 7
  | .bitor => 8
  | _ => 0

/-- an operator that a tree of level `k` would go on with -/
def Token.Binds (k : ℕ) (t : Token) : Prop := 0 < t.level ∧ t.level ≤ k

theorem Factor.tokens_ne_nil (e : Factor) : e.tokens ≠ [] := by
  cases e <;> simp [Factor.tokens]

namespace MyLanguageParser

theorem Exact.level {α β : Type} [SizeOf α] {L : Level Token α β} {ya : α → List Token} {yb : β → List Token}
    {sub : Parser Token β} {k N : ℕ} (hL : L.Prints ya yb) (hop : ∀ t, L.Op t ↔ t.level = k + 1)
    (hsub : Exact sub yb (fun _ => Clear (Token.Binds k)) N) :
    Exact (chain L sub N) ya (fun _ => Clear (Token.Binds (k + 1))) N := by
  have hchain := Exact.chain hL hsub fun t ht hb => by
    have := (hop t).1 ht
    have := hb.2
    omega
  have hset : (fun t => Token.Binds k t ∨ L.Op t) = Token.Binds (k + 1) := by
    funext t
    rw [hop t, Token.Binds, Token.Binds]
    apply propext
    omega
  rwa [hset] at hchain

theorem exprOver_exact {f : Parser Token Factor} {n : ℕ}
    (hf : Exact f Factor.tokens (fun _ => Clear (Token.Binds 0)) n) :
    Exact (exprOver f n) Expr.tokens (fun _ => Clear (Token.Binds 8)) n := by
  have hterm := Exact.level termLevel_prints (by intro t; cases t <;> simp [Level.Op, termLevel, Token.level]) hf
  have hsumma := Exact.level summaLevel_prints (by intro t; cases t <;> simp [Level.Op, summaLevel, Token.level]) hterm
  have hshift := Exact.level shiftLevel_prints (by intro t; cases t <;> simp [Level.Op, shiftLevel, Token.level]) hsumma
  have hcmp := Exact.level comparisonLevel_prints
    (by intro t; cases t <;> simp [Level.Op, comparisonLevel, Token.level]) hshift
  have heq := Exact.level eqcomparisonLevel_prints
    (by intro t; cases t <;> simp [Level.Op, eqcomparisonLevel, Token.level]) hcmp
  have hand := Exact.level bitwiseandLevel_prints
    (by intro t; cases t <;> simp [Level.Op, bitwiseandLevel, Token.level]) heq
  have hxor := Exact.level bitwisexorLevel_prints
    (by intro t; cases t <;> simp [Level.Op, bitwisexorLevel, Token.level]) hand
  have hor := Exact.level bitwiseorLevel_prints
    (by intro t; cases t <;> simp [Level.Op, bitwiseorLevel, Token.level]) hxor
  intro toks hlen e rest
  obtain ⟨b⟩ := e
  rw [exprOver, Expr.tokens, ← hor toks hlen b rest, Option.map_eq_some_iff]
  constructor
  · rintro ⟨r, hr, heq⟩
    cases heq
    exact hr
  · intro h
    exact ⟨_, h, rfl⟩

theorem factor_sound {n : ℕ} (ih : Exact (factor n) Factor.tokens (fun _ => Clear (Token.Binds 0)) n) {t : Token}
    {ts : List Token} (hlen : ts.length ≤ n) {e : Factor} {rest : List Token}
    (h : factor (n + 1) (t :: ts) = some (e, rest)) : t :: ts = e.tokens ++ rest := by
  cases t with
  | minus =>
    obtain ⟨r, hr, heq⟩ := Option.map_eq_some_iff.1 h
    cases heq
    rw [((ih ts hlen r.1 r.2).1 hr).1, Factor.tokens]
    rfl
  | bitnot =>
    obtain ⟨r, hr, heq⟩ := Option.map_eq_some_iff.1 h
    cases heq
    rw [((ih ts hlen r.1 r.2).1 hr).1, Factor.tokens]
    rfl
  | number k =>
    cases h
    rw [Factor.tokens]
    rfl
  | ident x =>
    cases h
    rw [Factor.tokens]
    rfl
  | lpar =>
    obtain ⟨r, hr, h⟩ := Option.bind_eq_some_iff.1 h
    obtain ⟨ts', hts', h⟩ := Option.bind_eq_some_iff.1 h
    cases h
    rw [((exprOver_exact ih ts hlen r.1 r.2).1 hr).1, expect_iff.1 hts', Factor.tokens]
    simp
  | _ => cases h

theorem factor_complete {n : ℕ} (ih : Exact (factor n) Factor.tokens (fun _ => Clear (Token.Binds 0)) n) (e : Factor)
    {rest : List Token} (hlen : (e.tokens ++ rest).length ≤ n + 1) :
    factor (n + 1) (e.tokens ++ rest) = some (e, rest) := by
  have hclear : ∀ ts : List Token, Clear (Token.Binds 0) ts := fun ts t _ hb => by
    have := hb.1
    have := hb.2
    omega
  cases e with
  | minus e =>
    rw [Factor.tokens, List.cons_append] at hlen ⊢
    rw [List.length_cons] at hlen
    rw [factor, (ih _ (by omega) e rest).2 ⟨rfl, hclear rest⟩]
    rfl
  | bitnot e =>
    rw [Factor.tokens, List.cons_append] at hlen ⊢
    rw [List.length_cons] at hlen
    rw [factor, (ih _ (by omega) e rest).2 ⟨rfl, hclear rest⟩]
    rfl
  | number k =>
    rw [Factor.tokens]
    rfl
  | ident x =>
    rw [Factor.tokens]
    rfl
  | paren e =>
    rw [Factor.tokens, List.cons_append, List.append_assoc] at hlen ⊢
    rw [List.length_cons] at hlen
    have he := (exprOver_exact ih _ (by omega) e ([.rpar] ++ rest)).2 ⟨rfl, clear_cons.2 fun hb => by cases hb.1⟩
    rw [factor, he]
    rfl

theorem factor_exact (n : ℕ) : Exact (factor n) Factor.tokens (fun _ => Clear (Token.Binds 0)) n := by
  induction n with
  | zero =>
    intro toks hlen e rest
    obtain rfl : toks = [] := List.eq_nil_of_length_eq_zero (by omega)
    refine iff_of_false (fun h => by cases h) fun h => Factor.tokens_ne_nil e ?_
    exact (List.append_eq_nil_iff.1 h.1.symm).1
  | succ n ih =>
    intro toks hlen e rest
    constructor
    · intro h
      cases toks with
      | nil => cases h
      | cons t ts =>
        rw [List.length_cons] at hlen
        refine ⟨factor_sound ih (by omega) h, fun t _ hb => ?_⟩
        have := hb.1
        have := hb.2
        omega
    · rintro ⟨rfl, -⟩
      exact factor_complete ih e hlen

/-- an operator that continues an expression -/
def BinaryOperator (t : Token) : Prop := Token.Binds 8 t

/-- **Expressions.** -/
theorem expr_iff {toks : List Token} {e : Expr} {rest : List Token} :
    expr toks = some (e, rest) ↔ toks = e.tokens ++ rest ∧ Clear BinaryOperator rest :=
  exprOver_exact (factor_exact toks.length) toks le_rfl e rest

end MyLanguageParser

/-! ## Statements -/

/-- the statement ends with an `if` that has no `else` -/
def Stmt.EndsOpen : Stmt → Prop
  | .ifStmt _ _ => True
  | .ifElseStmt _ _ t => t.EndsOpen
  | .whileStmt _ s => s.EndsOpen
  | .varDeclStmt _ _ | .assignStmt _ _ | .printStmt _ | .callStmt _ | .block _ => False

mutual

/-- every `else` belongs to the nearest `if` -/
def Stmt.Greedy : Stmt → Prop
  | .ifStmt _ s => s.Greedy
  | .ifElseStmt _ s t => s.Greedy ∧ ¬ s.EndsOpen ∧ t.Greedy
  | .whileStmt _ s => s.Greedy
  | .block ss => ss.Greedy
  | .varDeclStmt _ _ | .assignStmt _ _ | .printStmt _ | .callStmt _ => True

def Stmts.Greedy : Stmts → Prop
  | .nil => True
  | .cons s ss => s.Greedy ∧ ss.Greedy

end

def TopLevel.Greedy : TopLevel → Prop
  | .funcDecl _ body => body.Greedy
  | .varDeclStmt _ _ => True

/-- the statement may be followed by `rest` -/
def Stmt.Fits (s : Stmt) (rest : List Token) : Prop := s.Greedy ∧ (s.EndsOpen → Clear (fun t => t = .kwElse) rest)

def Stmts.ofList : List Stmt → Stmts
  | [] => .nil
  | s :: ss => .cons s (ofList ss)

theorem Stmts.exists_ofList (ss : Stmts) : ∃ l, Stmts.ofList l = ss := by
  induction hn : sizeOf ss using Nat.strong_induction_on generalizing ss with
  | _ n ih =>
    cases ss with
    | nil => exact ⟨[], rfl⟩
    | cons s ss =>
      obtain ⟨l, rfl⟩ := ih (sizeOf ss) (by rw [← hn]; simp) ss rfl
      exact ⟨s :: l, rfl⟩

@[simp] theorem Stmts.tokens_ofList (l : List Stmt) : (Stmts.ofList l).tokens = l.flatMap Stmt.tokens := by
  induction l with
  | nil => rw [Stmts.ofList, Stmts.tokens]; rfl
  | cons s l ih => rw [Stmts.ofList, Stmts.tokens, ih, List.flatMap_cons]

theorem Stmts.greedy_ofList (l : List Stmt) : (Stmts.ofList l).Greedy ↔ ∀ s ∈ l, s.Greedy := by
  induction l with
  | nil => simp [Stmts.ofList, Stmts.Greedy]
  | cons s l ih => simp [Stmts.ofList, Stmts.Greedy, ih]

namespace MyLanguageParser

/-- the tokens that start a statement -/
def startsStmt : Token → Bool
  | .kwIf | .kwWhile | .var | .ident _ | .print | .call | .lbra => true
  | _ => false

/-- `var_decl_stmt()` -/
def varDeclStmt : Parser Token (Ident × Expr) := fun ts => do
  let ts ← expect .var ts
  let (x, ts) ← ident ts
  let ts ← expect .assign ts
  let (e, ts) ← expr ts
  let ts ← expect .semicolon ts
  return ((x, e), ts)

/-- `assign_stmt()` -/
def assignStmt : Parser Token Stmt := fun ts => do
  let (x, ts) ← ident ts
  let ts ← expect .assign ts
  let (e, ts) ← expr ts
  let ts ← expect .semicolon ts
  return (.assignStmt x e, ts)

/-- `print_stmt()` -/
def printStmt : Parser Token Stmt := fun ts => do
  let ts ← expect .print ts
  let ts ← expect .lpar ts
  let (e, ts) ← expr ts
  let ts ← expect .rpar ts
  let ts ← expect .semicolon ts
  return (.printStmt e, ts)

/-- `call_stmt()` -/
def callStmt : Parser Token Stmt := fun ts => do
  let ts ← expect .call ts
  let (f, ts) ← ident ts
  let ts ← expect .semicolon ts
  return (.callStmt f, ts)

/-- `if_stmt()`; of the two ways to go on at an `else` the first is taken -/
def ifStmt (stmt : Parser Token Stmt) : Parser Token Stmt := fun ts => do
  let ts ← expect .kwIf ts
  let ts ← expect .lpar ts
  let (c, ts) ← expr ts
  let ts ← expect .rpar ts
  let (s, ts) ← stmt ts
  match expect .kwElse ts with
  | some ts =>
    let (t, ts) ← stmt ts
    return (.ifElseStmt c s t, ts)
  | none => return (.ifStmt c s, ts)

/-- `while_stmt()` -/
def whileStmt (stmt : Parser Token Stmt) : Parser Token Stmt := fun ts => do
  let ts ← expect .kwWhile ts
  let ts ← expect .lpar ts
  let (c, ts) ← expr ts
  let ts ← expect .rpar ts
  let (s, ts) ← stmt ts
  return (.whileStmt c s, ts)

/-- `LBRA stmts RBRA` -/
def block (stmt : Parser Token Stmt) (n : ℕ) : Parser Token Stmts := fun ts => do
  let ts ← expect .lbra ts
  let (ss, ts) ← many startsStmt stmt n ts
  let ts ← expect .rbra ts
  return (.ofList ss, ts)

/-- `stmt()`; the argument bounds the depth of the recursion -/
def stmt : ℕ → Parser Token Stmt
  | 0, _ => none
  | n + 1, toks =>
    match toks.head? with
    | some .kwIf => ifStmt (stmt n) toks
    | some .kwWhile => whileStmt (stmt n) toks
    | some .var => (varDeclStmt toks).map fun r => (.varDeclStmt r.1.1 r.1.2, r.2)
    | some (.ident _) => assignStmt toks
    | some .print => printStmt toks
    | some .call => callStmt toks
    | some .lbra => (block (stmt n) n toks).map fun r => (.block r.1, r.2)
    | _ => none

/-! ### Declarations and simple statements -/

theorem varDeclStmt_iff {toks : List Token} {x : Ident} {e : Expr} {rest : List Token} :
    varDeclStmt toks = some ((x, e), rest) ↔
      toks = .var :: .ident x :: .assign :: (e.tokens ++ .semicolon :: rest) := by
  simp only [varDeclStmt, bind, Option.bind_eq_some_iff, Prod.exists, expect_iff, ident_iff, expr_iff, pure,
    Option.some.injEq, Prod.mk.injEq]
  constructor
  · rintro ⟨_, rfl, _, _, rfl, _, rfl, _, _, ⟨rfl, -⟩, _, rfl, ⟨rfl, rfl⟩, rfl⟩
    rfl
  · rintro rfl
    exact ⟨_, rfl, _, _, rfl, _, rfl, _, _, ⟨rfl, clear_cons.2 fun hb => by cases hb.1⟩, _, rfl, ⟨rfl, rfl⟩, rfl⟩

theorem assignStmt_iff {toks : List Token} {s : Stmt} {rest : List Token} : assignStmt toks = some (s, rest) ↔
    ∃ x e, s = .assignStmt x e ∧ toks = .ident x :: .assign :: (e.tokens ++ .semicolon :: rest) := by
  simp only [assignStmt, bind, Option.bind_eq_some_iff, Prod.exists, expect_iff, ident_iff, expr_iff, pure,
    Option.some.injEq, Prod.mk.injEq]
  constructor
  · rintro ⟨x, _, rfl, _, rfl, e, _, ⟨rfl, -⟩, _, rfl, rfl, rfl⟩
    exact ⟨x, e, rfl, rfl⟩
  · rintro ⟨x, e, rfl, rfl⟩
    exact ⟨_, _, rfl, _, rfl, _, _, ⟨rfl, clear_cons.2 fun hb => by cases hb.1⟩, _, rfl, rfl, rfl⟩

theorem printStmt_iff {toks : List Token} {s : Stmt} {rest : List Token} : printStmt toks = some (s, rest) ↔
    ∃ e, s = .printStmt e ∧ toks = .print :: .lpar :: (e.tokens ++ .rpar :: .semicolon :: rest) := by
  simp only [printStmt, bind, Option.bind_eq_some_iff, Prod.exists, expect_iff, expr_iff, pure, Option.some.injEq,
    Prod.mk.injEq]
  constructor
  · rintro ⟨_, rfl, _, rfl, e, _, ⟨rfl, -⟩, _, rfl, _, rfl, rfl, rfl⟩
    exact ⟨e, rfl, rfl⟩
  · rintro ⟨e, rfl, rfl⟩
    exact ⟨_, rfl, _, rfl, _, _, ⟨rfl, clear_cons.2 fun hb => by cases hb.1⟩, _, rfl, _, rfl, rfl, rfl⟩

theorem callStmt_iff {toks : List Token} {s : Stmt} {rest : List Token} : callStmt toks = some (s, rest) ↔
    ∃ f, s = .callStmt f ∧ toks = .call :: .ident f :: .semicolon :: rest := by
  simp only [callStmt, bind, Option.bind_eq_some_iff, Prod.exists, expect_iff, ident_iff, pure, Option.some.injEq,
    Prod.mk.injEq]
  constructor
  · rintro ⟨_, rfl, f, _, rfl, _, rfl, rfl, rfl⟩
    exact ⟨f, rfl, rfl⟩
  · rintro ⟨f, rfl, rfl⟩
    exact ⟨_, rfl, _, _, rfl, _, rfl, rfl, rfl⟩

/-! ### Nested statements -/

section
variable {p : Parser Token Stmt} {toks rest : List Token}

theorem whileStmt_iff {s : Stmt} : whileStmt p toks = some (s, rest) ↔
    ∃ c b ts, s = .whileStmt c b ∧ toks = .kwWhile :: .lpar :: (c.tokens ++ .rpar :: ts) ∧ p ts = some (b, rest) := by
  simp only [whileStmt, bind, Option.bind_eq_some_iff, Prod.exists, expect_iff, expr_iff, pure, Option.some.injEq,
    Prod.mk.injEq]
  constructor
  · rintro ⟨_, rfl, _, rfl, c, _, ⟨rfl, -⟩, ts, rfl, b, _, hb, rfl, rfl⟩
    exact ⟨c, b, ts, rfl, rfl, hb⟩
  · rintro ⟨c, b, ts, rfl, rfl, hb⟩
    exact ⟨_, rfl, _, rfl, _, _, ⟨rfl, clear_cons.2 fun hb => by cases hb.1⟩, _, rfl, _, _, hb, rfl, rfl⟩

theorem expect_eq_none {t : Token} {ts : List Token} : expect t ts = none ↔ Clear (fun t' => t' = t) ts := by
  cases ts with
  | nil => simp [expect]
  | cons t' ts => simp [expect]

theorem ifStmt_iff {s : Stmt} : ifStmt p toks = some (s, rest) ↔
    ∃ c b ts ts', toks = .kwIf :: .lpar :: (c.tokens ++ .rpar :: ts) ∧ p ts = some (b, ts') ∧
      ((∃ t ts'', ts' = .kwElse :: ts'' ∧ p ts'' = some (t, rest) ∧ s = .ifElseStmt c b t) ∨
        (Clear (fun t => t = .kwElse) rest ∧ ts' = rest ∧ s = .ifStmt c b)) := by
  simp only [ifStmt, bind, Option.bind_eq_some_iff, Prod.exists, expect_iff, expr_iff]
  constructor
  · rintro ⟨_, rfl, _, rfl, c, _, ⟨rfl, -⟩, ts, rfl, b, ts', hb, h⟩
    refine ⟨c, b, ts, ts', rfl, hb, ?_⟩
    cases he : expect .kwElse ts' with
    | none =>
      rw [he] at h
      cases h
      exact .inr ⟨expect_eq_none.1 he, rfl, rfl⟩
    | some ts'' =>
      rw [he] at h
      obtain ⟨⟨t, _⟩, ht, h⟩ := Option.bind_eq_some_iff.1 h
      cases h
      exact .inl ⟨t, ts'', expect_iff.1 he, ht, rfl⟩
  · rintro ⟨c, b, ts, ts', rfl, hb, hs⟩
    refine ⟨_, rfl, _, rfl, _, _, ⟨rfl, clear_cons.2 fun hb => by cases hb.1⟩, _, rfl, _, _, hb, ?_⟩
    rcases hs with ⟨t, ts'', rfl, ht, rfl⟩ | ⟨hclear, rfl, rfl⟩
    · rw [expect_iff.2 rfl]
      exact Option.bind_eq_some_iff.2 ⟨_, ht, rfl⟩
    · rw [expect_eq_none.2 hclear]
      rfl

theorem block_iff {n : ℕ} {ss : Stmts} : block p n toks = some (ss, rest) ↔
    ∃ l ts, ss = .ofList l ∧ toks = .lbra :: ts ∧ many startsStmt p n ts = some (l, .rbra :: rest) := by
  simp only [block, bind, Option.bind_eq_some_iff, Prod.exists, expect_iff, pure, Option.some.injEq, Prod.mk.injEq]
  constructor
  · rintro ⟨ts, rfl, l, _, hl, _, rfl, rfl, rfl⟩
    exact ⟨l, ts, rfl, rfl, hl⟩
  · rintro ⟨l, ts, rfl, rfl, hl⟩
    exact ⟨ts, rfl, l, _, hl, _, rfl, rfl, rfl⟩

end

theorem starts (s : Stmt) : ∃ t ts, s.tokens = t :: ts ∧ startsStmt t = true := by
  cases s <;> rw [Stmt.tokens] <;> exact ⟨_, _, rfl, rfl⟩

/-- in a block an `if` without `else` meets no `else` -/
theorem manyFits_rbra {l : List Stmt} {rest : List Token} :
    ManyFits startsStmt Stmt.tokens Stmt.Fits l (.rbra :: rest) ↔ ∀ s ∈ l, s.Greedy := by
  induction l with
  | nil => simp [ManyFits, startsStmt]
  | cons s l ih =>
    have hnext : Clear (fun t => t = .kwElse) (l.flatMap Stmt.tokens ++ .rbra :: rest) := by
      cases l with
      | nil => simp
      | cons s' l =>
        obtain ⟨t, ts, ht, hstart⟩ := starts s'
        rw [List.flatMap_cons, ht]
        refine clear_cons.2 ?_
        rintro rfl
        cases hstart
    rw [ManyFits, ih, List.forall_mem_cons, Stmt.Fits]
    exact ⟨fun h => ⟨h.1.1, h.2⟩, fun h => ⟨⟨h.1, fun _ => hnext⟩, h.2⟩⟩

/-- a block between braces -/
theorem block_exact {p : Parser Token Stmt} {n : ℕ} (hp : Exact p Stmt.tokens Stmt.Fits n) {toks : List Token}
    (hlen : toks.length ≤ n + 1) {ss : Stmts} {rest : List Token} :
    block p n toks = some (ss, rest) ↔ toks = .lbra :: (ss.tokens ++ .rbra :: rest) ∧ ss.Greedy := by
  have hmany := Exact.many hp starts
  rw [block_iff]
  constructor
  · rintro ⟨l, ts, rfl, rfl, hl⟩
    rw [List.length_cons] at hlen
    obtain ⟨rfl, hfits⟩ := (hmany ts (by omega) l _).1 hl
    rw [Stmts.tokens_ofList, Stmts.greedy_ofList]
    exact ⟨rfl, manyFits_rbra.1 hfits⟩
  · rintro ⟨rfl, hgreedy⟩
    obtain ⟨l, rfl⟩ := ss.exists_ofList
    rw [List.length_cons] at hlen
    rw [Stmts.tokens_ofList] at hlen ⊢
    exact ⟨l, _, rfl, rfl, (hmany _ (by omega) l _).2 ⟨rfl, manyFits_rbra.2 ((Stmts.greedy_ofList l).1 hgreedy)⟩⟩

theorem stmt_sound {n : ℕ} (ih : Exact (stmt n) Stmt.tokens Stmt.Fits n) {toks : List Token}
    (hlen : toks.length ≤ n + 1) {s : Stmt} {rest : List Token} (h : stmt (n + 1) toks = some (s, rest)) :
    toks = s.tokens ++ rest ∧ s.Fits rest := by
  cases toks with
  | nil => cases h
  | cons t ts =>
    cases t with
    | kwIf =>
      obtain ⟨c, b, ts, ts', heq, hb, hs⟩ := ifStmt_iff.1 h
      cases heq
      simp only [List.length_cons, List.length_append] at hlen
      obtain ⟨rfl, hgreedy, hopen⟩ := (ih ts (by omega) b ts').1 hb
      rcases hs with ⟨t, ts'', rfl, ht, rfl⟩ | ⟨hclear, rfl, rfl⟩
      · simp only [List.length_cons, List.length_append] at hlen
        obtain ⟨rfl, hfits⟩ := (ih ts'' (by omega) t rest).1 ht
        refine ⟨by simp [Stmt.tokens], ⟨hgreedy, fun ho => ?_, hfits.1⟩, hfits.2⟩
        exact clear_cons.1 (hopen ho) rfl
      · exact ⟨by simp [Stmt.tokens], hgreedy, fun _ => hclear⟩
    | kwWhile =>
      obtain ⟨c, b, ts, rfl, heq, hb⟩ := whileStmt_iff.1 h
      cases heq
      simp only [List.length_cons, List.length_append] at hlen
      obtain ⟨rfl, hfits⟩ := (ih ts (by omega) b rest).1 hb
      exact ⟨by simp [Stmt.tokens], hfits.1, hfits.2⟩
    | var =>
      obtain ⟨⟨⟨x, e⟩, ts'⟩, hr, heq⟩ := Option.map_eq_some_iff.1 h
      cases heq
      rw [varDeclStmt_iff.1 hr]
      exact ⟨by simp [Stmt.tokens], trivial, False.elim⟩
    | ident x =>
      obtain ⟨x, e, rfl, heq⟩ := assignStmt_iff.1 h
      rw [heq]
      exact ⟨by simp [Stmt.tokens], trivial, False.elim⟩
    | print =>
      obtain ⟨e, rfl, heq⟩ := printStmt_iff.1 h
      rw [heq]
      exact ⟨by simp [Stmt.tokens], trivial, False.elim⟩
    | call =>
      obtain ⟨f, rfl, heq⟩ := callStmt_iff.1 h
      rw [heq]
      exact ⟨by simp [Stmt.tokens], trivial, False.elim⟩
    | lbra =>
      obtain ⟨⟨ss, ts'⟩, hr, heq⟩ := Option.map_eq_some_iff.1 h
      cases heq
      obtain ⟨heq, hgreedy⟩ := (block_exact ih hlen).1 hr
      rw [heq]
      exact ⟨by simp [Stmt.tokens], hgreedy, False.elim⟩
    | _ => cases h

theorem stmt_complete {n : ℕ} (ih : Exact (stmt n) Stmt.tokens Stmt.Fits n) (s : Stmt) {rest : List Token}
    (hlen : (s.tokens ++ rest).length ≤ n + 1) (hfits : s.Fits rest) :
    stmt (n + 1) (s.tokens ++ rest) = some (s, rest) := by
  cases s with
  | ifStmt c b =>
    rw [Stmt.tokens] at hlen ⊢
    simp only [List.cons_append, List.append_assoc, List.length_cons, List.length_append] at hlen ⊢
    have hclear := hfits.2 trivial
    have hb := (ih (b.tokens ++ rest) (by rw [List.length_append]; omega) b rest).2 ⟨rfl, hfits.1, fun _ => hclear⟩
    exact ifStmt_iff.2 ⟨c, b, _, _, rfl, hb, .inr ⟨hclear, rfl, rfl⟩⟩
  | ifElseStmt c b t =>
    rw [Stmt.tokens] at hlen ⊢
    simp only [List.cons_append, List.append_assoc, List.length_cons, List.length_append] at hlen ⊢
    have hb := (ih (b.tokens ++ .kwElse :: (t.tokens ++ rest)) (by simp; omega) b _).2
      ⟨rfl, hfits.1.1, fun ho => absurd ho hfits.1.2.1⟩
    have ht := (ih (t.tokens ++ rest) (by rw [List.length_append]; omega) t rest).2 ⟨rfl, hfits.1.2.2, hfits.2⟩
    exact ifStmt_iff.2 ⟨c, b, _, _, rfl, hb, .inl ⟨t, _, rfl, ht, rfl⟩⟩
  | whileStmt c b =>
    rw [Stmt.tokens] at hlen ⊢
    simp only [List.cons_append, List.append_assoc, List.length_cons, List.length_append] at hlen ⊢
    have hb := (ih (b.tokens ++ rest) (by rw [List.length_append]; omega) b rest).2 ⟨rfl, hfits⟩
    exact whileStmt_iff.2 ⟨c, b, _, rfl, rfl, hb⟩
  | varDeclStmt x e =>
    have hr : varDeclStmt (Token.var :: .ident x :: .assign :: (e.tokens ++ .semicolon :: rest)) = some ((x, e), rest) :=
      varDeclStmt_iff.2 rfl
    rw [Stmt.tokens]
    simp only [List.cons_append, List.append_assoc, List.nil_append]
    exact Option.map_eq_some_iff.2 ⟨_, hr, rfl⟩
  | assignStmt x e =>
    rw [Stmt.tokens]
    simp only [List.cons_append, List.append_assoc, List.nil_append]
    exact assignStmt_iff.2 ⟨x, e, rfl, rfl⟩
  | printStmt e =>
    rw [Stmt.tokens]
    simp only [List.cons_append, List.append_assoc, List.nil_append]
    exact printStmt_iff.2 ⟨e, rfl, rfl⟩
  | callStmt f =>
    rw [Stmt.tokens]
    exact callStmt_iff.2 ⟨f, rfl, rfl⟩
  | block ss =>
    rw [Stmt.tokens] at hlen ⊢
    simp only [List.cons_append, List.append_assoc, List.nil_append] at hlen ⊢
    have hr := (block_exact ih hlen).2 ⟨rfl, hfits.1⟩
    exact Option.map_eq_some_iff.2 ⟨_, hr, rfl⟩

/-- **Statements.** -/
theorem stmt_exact (n : ℕ) : Exact (stmt n) Stmt.tokens Stmt.Fits n := by
  induction n with
  | zero =>
    intro toks hlen s rest
    obtain rfl : toks = [] := List.eq_nil_of_length_eq_zero (by omega)
    refine iff_of_false (fun h => by cases h) fun h => ?_
    obtain ⟨t, ts, ht, -⟩ := starts s
    rw [ht] at h
    cases h.1
  | succ n ih =>
    intro toks hlen s rest
    constructor
    · exact stmt_sound ih hlen
    · rintro ⟨rfl, hfits⟩
      exact stmt_complete ih s hlen hfits

/-! ## Programs -/

/-- `func_decl()` -/
def funcDecl : Parser Token TopLevel := fun ts => do
  let ts ← expect .func ts
  let (f, ts) ← ident ts
  let (ss, ts) ← block (stmt ts.length) ts.length ts
  return (.funcDecl f ss, ts)

/-- `top_level()` -/
def topLevel : Parser Token TopLevel := fun toks =>
  match toks.head? with
  | some .func => funcDecl toks
  | some .var => (varDeclStmt toks).map fun r => (.varDeclStmt r.1.1 r.1.2, r.2)
  | _ => none

/-- the tokens that start a declaration -/
def startsTopLevel : Token → Bool
  | .func | .var => true
  | _ => false

/-- `prog()` -/
def prog : Parser Token Prog := fun toks => many startsTopLevel topLevel toks.length toks

theorem funcDecl_iff {toks : List Token} {d : TopLevel} {rest : List Token} : funcDecl toks = some (d, rest) ↔
    ∃ f ss, d = .funcDecl f ss ∧ toks = .func :: .ident f :: .lbra :: (ss.tokens ++ .rbra :: rest) ∧ ss.Greedy := by
  simp only [funcDecl, bind, Option.bind_eq_some_iff, Prod.exists, expect_iff, ident_iff, pure, Option.some.injEq,
    Prod.mk.injEq]
  constructor
  · rintro ⟨_, rfl, f, ts, rfl, ss, _, hss, rfl, rfl⟩
    obtain ⟨rfl, hgreedy⟩ := (block_exact (stmt_exact ts.length) (Nat.le_succ _)).1 hss
    exact ⟨f, ss, rfl, rfl, hgreedy⟩
  · rintro ⟨f, ss, rfl, rfl, hgreedy⟩
    exact ⟨_, rfl, f, _, rfl, ss, _, (block_exact (stmt_exact _) (Nat.le_succ _)).2 ⟨rfl, hgreedy⟩, rfl, rfl⟩

theorem topLevel_exact (n : ℕ) : Exact topLevel TopLevel.tokens (fun d _ => d.Greedy) n := by
  intro toks _ d rest
  constructor
  · intro h
    cases toks with
    | nil => cases h
    | cons t ts =>
      cases t with
      | func =>
        obtain ⟨f, ss, rfl, heq, hgreedy⟩ := funcDecl_iff.1 h
        rw [heq]
        exact ⟨by simp [TopLevel.tokens], hgreedy⟩
      | var =>
        obtain ⟨⟨⟨x, e⟩, ts'⟩, hr, heq⟩ := Option.map_eq_some_iff.1 h
        cases heq
        rw [varDeclStmt_iff.1 hr]
        exact ⟨by simp [TopLevel.tokens], trivial⟩
      | _ => cases h
  · rintro ⟨rfl, hgreedy⟩
    cases d with
    | funcDecl f ss =>
      rw [TopLevel.tokens]
      simp only [List.cons_append, List.append_assoc, List.nil_append]
      exact funcDecl_iff.2 ⟨f, ss, rfl, rfl, hgreedy⟩
    | varDeclStmt x e =>
      have hr : varDeclStmt (Token.var :: .ident x :: .assign :: (e.tokens ++ .semicolon :: rest)) =
          some ((x, e), rest) := varDeclStmt_iff.2 rfl
      rw [TopLevel.tokens]
      simp only [List.cons_append, List.append_assoc, List.nil_append]
      exact Option.map_eq_some_iff.2 ⟨_, hr, rfl⟩

/-- the tree of a text whose rest stays unread -/
structure Reads (toks : List Token) (p : Prog) (rest : List Token) : Prop where
  text : toks = Prog.tokens p ++ rest
  greedy : ∀ d ∈ p, TopLevel.Greedy d
  stop : Clear (fun t => startsTopLevel t = true) rest

theorem tokens_first (d : TopLevel) : ∃ t ts, d.tokens = t :: ts ∧ startsTopLevel t = true := by
  cases d <;> exact ⟨_, _, rfl, rfl⟩

theorem manyFits_iff (l : List TopLevel) (rest : List Token) :
    ManyFits startsTopLevel TopLevel.tokens (fun d _ => d.Greedy) l rest ↔
      (∀ d ∈ l, d.Greedy) ∧ Clear (fun t => startsTopLevel t = true) rest := by
  induction l with
  | nil => simp [ManyFits]
  | cons d l ih => rw [ManyFits, ih, List.forall_mem_cons, and_assoc]

theorem reads_of_prog {toks : List Token} {p : Prog} {rest : List Token} (h : prog toks = some (p, rest)) :
    Reads toks p rest := by
  obtain ⟨htext, hfits⟩ := (Exact.many (topLevel_exact toks.length) tokens_first toks le_rfl p rest).1 h
  obtain ⟨hgreedy, hstop⟩ := (manyFits_iff p rest).1 hfits
  exact ⟨htext, hgreedy, hstop⟩

theorem prog_of_reads {toks : List Token} {p : Prog} {rest : List Token} (h : Reads toks p rest) :
    prog toks = some (p, rest) :=
  (Exact.many (topLevel_exact toks.length) tokens_first toks le_rfl p rest).2
    ⟨h.text, (manyFits_iff p rest).2 ⟨h.greedy, h.stop⟩⟩

/-- **Programs.** The parser returns a tree and a rest exactly when the input is the tokens of the tree, with every
`else` at the nearest `if`, and a rest that starts no declaration. -/
theorem prog_iff (toks : List Token) (p : Prog) (rest : List Token) : prog toks = some (p, rest) ↔ Reads toks p rest :=
  ⟨reads_of_prog, prog_of_reads⟩

end MyLanguageParser

end FpgaLearning.Compiler
