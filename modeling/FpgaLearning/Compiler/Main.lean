/-
`AntlrTestProj.cpp`: from the text of a program to the words for the program memory, and to the circuit.

`compile` is `main` up to the files it writes: lexer, parser, visitor. `none` stands for a text with a lexical or syntax
error, which the generated parser would report and try to repair.

- `source_prints`: for every program and every way to write it down, the words make the circuit print what the interpreter
  prints.
-/
import FpgaLearning.Compiler.Lexer
import FpgaLearning.Compiler.OnProcessor

namespace FpgaLearning.Compiler

open FpgaLearning.Memory FpgaLearning.Stack FpgaLearning.Stack.Arch

def compile (H : HashOrder (Ident × ℕ)) (R : HashOrder (Ident × List ℕ)) (input : List Char) :
    Option (Except String (List Opcode × List (Ident × ℕ))) := do
  let tokens ← MyLanguageLexer.lex input
  let (tree, _) ← MyLanguageParser.prog tokens
  return MyVisitor.visitAll H R tree

variable {z : DivByZero} {H : HashOrder (Ident × ℕ)} {R : HashOrder (Ident × List ℕ)} {input : List Char}
  {tokens rest : List Token} {prog : Prog}

theorem compile_written (hwritten : Written tokens input)
    (hreads : MyLanguageParser.Reads tokens prog rest) : compile H R input = some (MyVisitor.visitAll H R prog) := by
  have hlex : MyLanguageLexer.lex input = some tokens := MyLanguageLexer.lexemes_of_written hwritten _ le_rfl
  have hparse := MyLanguageParser.prog_of_reads hreads
  simp [compile, hlex, hparse]

/-- **From the text to the circuit.** -/
theorem source_prints (hwritten : Written tokens input)
    (hreads : MyLanguageParser.Reads tokens prog rest) {out : List Opcode} {ls : List (Ident × ℕ)}
    (hcompiled : compile H R input = some (.ok (out, ls))) (hlang : WithinLanguage prog) {rom : Word → Word}
    (hrom : Loaded rom out) (rdw : Word → MemReq → Word) (mem : RamWords) (romData ramQ : Word)
    (hs : (machine z rom).Always Safe (init mem)) (E : ℕ → Cycle) (hd : ∀ n, System.DebugReads (E n)) :
    Prints z prog (System.run z rom rdw mem romData ramQ E) E := by
  rw [compile_written hwritten hreads, Option.some.injEq] at hcompiled
  exact processor_prints z H R prog out ls rom rdw mem romData ramQ E hcompiled hlang hrom hs hd

def showThreeText : String :=
  "var n = 3; // global\nfunc show { var m = n; print(m); }\nfunc main { call show; }"

theorem showThreeText_written : Written showThree.tokens showThreeText.toList := by
  have hlex : MyLanguageLexer.lex showThreeText.toList = some showThree.tokens := by decide +kernel
  exact MyLanguageLexer.written_of_lexemes _ _ _ hlex

/-- `showThree` on the circuit, enabled in every cycle and never halted -/
theorem source_prints_showThree :
    Prints ⟨fun _ => 0, fun _ => 0⟩ showThree
      (System.run ⟨fun _ => 0, fun _ => 0⟩ showThreeRom (fun w _ => w) (fun _ => 0) 0 0
        fun _ => ⟨true, false, true, ⟨false, ⟨0, 0, false, 0⟩⟩⟩)
      fun _ => ⟨true, false, true, ⟨false, ⟨0, 0, false, 0⟩⟩⟩ := by
  obtain ⟨ls, haccepted⟩ := showThree_accepted
  have hreads : MyLanguageParser.Reads showThree.tokens showThree [] := by
    refine ⟨(List.append_nil _).symm, fun d hd => ?_, Parsing.clear_nil _⟩
    simp only [showThree, List.mem_cons, List.not_mem_nil, or_false] at hd
    rcases hd with rfl | rfl | rfl <;> simp [TopLevel.Greedy, Stmts.Greedy, Stmt.Greedy]
  exact source_prints showThreeText_written hreads
    ((compile_written showThreeText_written hreads).trans (congrArg some haccepted)) showThree_withinLanguage
    showThree_loaded (fun w _ => w) (fun _ => 0) 0 0 showThree_safe _ fun _ hreq => by cases hreq

end FpgaLearning.Compiler
