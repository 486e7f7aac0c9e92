/-
Compiled programs on the stack processor.

The compiler is right about the instruction set and the circuit is right about the instruction set. Together: the words
of an accepted program in the program memory make the circuit write to its output register what the interpreter prints.

`processor_prints`: the circuit prints nothing else, prints all of it unless it is held up for ever, and nothing more when
the program has ended.
-/
import FpgaLearning.Compiler.Correctness
import FpgaLearning.Stack.Output

namespace FpgaLearning.Compiler

open FpgaLearning.Memory FpgaLearning.Stack FpgaLearning.Stack.Arch FpgaLearning.Traced

/-! ## The circuit -/

/-- what a run `S` with inputs `E` prints, next to the interpreter -/
structure Prints (z : DivByZero) (prog : Prog) (S : ℕ → System) (E : ℕ → Cycle) : Prop where
  only : ∀ n, ∃ k, System.outputs z S E n <+: (interpret z prog k).1
  all : System.KeepsGoing S E → ∀ k, ∃ n, (interpret z prog k).1 <+: System.outputs z S E n
  ended : System.KeepsGoing S E → ∀ k env, (interpret z prog k).2 = .ok env →
    ∃ m, ∀ n, m ≤ n → System.outputs z S E n = (interpret z prog k).1

theorem prefix_antisymm {l l' l'' : List Word} (h : l <+: l') (h' : l' <+: l'') (heq : l'' = l) : l' = l :=
  (heq ▸ h').eq_of_length_le h.length_le

/-- **Compiler and circuit.** Whatever the clock enable, the halts and the debug reads do, the circuit prints what the
interpreter prints. -/
theorem processor_prints (z : DivByZero) (H : HashOrder (Ident × ℕ)) (R : HashOrder (Ident × List ℕ)) (prog : Prog)
    (out : List Opcode) (ls : List (Ident × ℕ)) (rom : Word → Word) (rdw : Word → MemReq → Word) (mem : RamWords)
    (romData ramQ : Word) (E : ℕ → Cycle) (haccepted : MyVisitor.visitAll H R prog = .ok (out, ls))
    (hlang : WithinLanguage prog) (hrom : Loaded rom out) (hs : (machine z rom).Always Safe (init mem))
    (hd : ∀ n, System.DebugReads (E n)) : Prints z prog (System.run z rom rdw mem romData ramQ E) E := by
  obtain ⟨addr, p, l, op, hloop, hop, hsim⟩ := simulates_accepted haccepted hlang hrom hs
  obtain ⟨hprinted, honly⟩ := Simulates.same_output hsim fun _ _ => EndLoop.silent hloop hop
  have hle := System.trace_le_outputs z rom rdw mem romData ramQ E hd
  have hge := System.outputs_le_trace z rom rdw mem romData ramQ E hd
  refine ⟨fun n => ?_, fun hgo k => ?_, fun hgo k env henv => ?_⟩
  · obtain ⟨k, hk⟩ := honly ((System.run z rom rdw mem romData ramQ E n).rounds + 1)
    exact ⟨k, (hge n).trans hk⟩
  · obtain ⟨m, hm⟩ := hprinted k
    obtain ⟨n, hn⟩ := System.rounds_unbounded z rom rdw mem romData ramQ E hgo m
    exact ⟨n, hm ▸ ((machine z rom).trace_mono _ hn).trans (hle n)⟩
  · obtain ⟨m, s', hrun, hend⟩ := (hsim k).of_ok henv
    have hfinal : ∀ j, m ≤ j → (machine z rom).trace j (init mem) = (interpret z prog k).1 := by
      intro j hj
      obtain ⟨i, rfl⟩ := Nat.exists_eq_add_of_le hj
      rw [Machine.trace_add, hrun.state, hend.silent hloop hop, List.append_nil, hrun.trace]
    obtain ⟨n₀, hn₀⟩ := System.rounds_unbounded z rom rdw mem romData ramQ E hgo m
    refine ⟨n₀, fun n hn => ?_⟩
    have hr : m ≤ (System.run z rom rdw mem romData ramQ E n).rounds :=
      hn₀.trans (System.rounds_mono (fun _ => rfl) hn)
    have h₁ := hle n
    rw [hfinal _ hr] at h₁
    exact prefix_antisymm h₁ (hge n) (hfinal _ (Nat.le_succ_of_le hr))

end FpgaLearning.Compiler
