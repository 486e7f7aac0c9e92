/-
What the first processor is for: a stack machine whose stack is a list.

`Machine` keeps the stack as a list and the words above it as variables; a step that would reach below the bottom, above
`base` words, or into the stack by an address is undefined. The processor keeps the stack in the words of its RAM from 0 on.

- `Represents.step`: a defined step of the machine is a step of the processor;
- `Represents.run`: so is a defined run.
-/
import FpgaLearning.Calc.Refinement

namespace FpgaLearning.Calc

open FpgaLearning.Memory
open FpgaLearning.Stack (DivByZero)

/-! ## The machine -/

/-- the words of `vars` from `base` on are the variables -/
structure Machine where
  pc : Word
  stack : List Word
  vars : RamWords
  out1 : Word

namespace Machine

variable (base : ℕ)

/-- the word is the output register or a variable -/
def Free (addr : Word) : Prop := addr.getLsbD 30 = true ∨ base ≤ (addr.setWidth 8).toNat

instance (addr : Word) : Decidable (Free base addr) := inferInstanceAs (Decidable (_ ∨ _))

def load (m : Machine) (addr : Word) : Word := if addr.getLsbD 30 then m.out1 else m.vars (addr.setWidth 8)

def store (m : Machine) (addr val : Word) : Machine :=
  if addr.getLsbD 30 then { m with out1 := val } else { m with vars := Function.update m.vars (addr.setWidth 8) val }

def operand (src : OperandSource) (imm memAddr : Word) (m : Machine) : Option (Word × Machine) :=
  match src with
  | .zero => some (0, m)
  | .imm => some (imm, m)
  | .stack =>
    match m.stack with
    | [] => none
    | x :: xs => some (x, { m with stack := xs })
  | .mem => if Free base memAddr then some (m.load memAddr, m) else none

def save (dst : Destination) (a b r : Word) (m : Machine) : Option Machine :=
  match dst with
  | .none => some m
  | .stack => if m.stack.length < base then some { m with stack := r :: m.stack } else none
  | .mem => if Free base b then some (m.store b r) else none
  | .pc => some (if a.getLsbD 0 then { m with pc := b } else m)

def exec (z : DivByZero) (i : Insn) (m : Machine) : Option Machine := do
  let (b, m) ← m.operand base i.opBSrc i.imm 0
  let (a, m) ← m.operand base i.opASrc i.imm b
  m.save base i.resDst a b (ALU.result z i.aluOp a b)

def step (z : DivByZero) (rom : Word → Word) (m : Machine) : Option Machine :=
  exec base z (decode (rom m.pc)) { m with pc := m.pc + 1 }

/-- `n` steps -/
def run (z : DivByZero) (rom : Word → Word) : ℕ → Machine → Option Machine
  | 0, m => some m
  | n + 1, m => do run z rom n (← m.step base z rom)

end Machine

/-! ## The stack in the RAM -/

/-- the top of the stack is the last of its words -/
def StackAt (mem : RamWords) : List Word → Prop
  | [] => True
  | x :: xs => mem (.ofNat 8 xs.length) = x ∧ StackAt mem xs

theorem StackAt.update {mem : RamWords} {xs : List Word} {addr : BitVec 8} (h : StackAt mem xs)
    (haddr : xs.length ≤ addr.toNat) (v : Word) : StackAt (Function.update mem addr v) xs := by
  induction xs with
  | nil => trivial
  | cons x xs ih =>
    rw [List.length_cons] at haddr
    have hne : (BitVec.ofNat 8 xs.length) ≠ addr := by
      rintro rfl
      have := Nat.mod_le xs.length (2 ^ 8)
      rw [BitVec.toNat_ofNat] at haddr
      omega
    exact ⟨by rw [Function.update_of_ne hne]; exact h.1, ih h.2 (by omega)⟩

/-- the processor is in the state of the machine -/
structure Represents (base : ℕ) (m : Machine) (s : Arch) : Prop where
  pc : s.pc = m.pc
  sp : s.sp = .ofNat 32 m.stack.length
  stack : StackAt s.mem m.stack
  room : m.stack.length ≤ base
  base_le : base ≤ 256
  vars : ∀ addr, base ≤ addr.toNat → s.mem addr = m.vars addr
  out1 : s.out1 = m.out1

variable {base : ℕ} {m m' : Machine} {s : Arch} {z : DivByZero} {rom : Word → Word}

/-- the address of a word of the stack is not the output register -/
theorem stack_addr {n : ℕ} (hn : n ≤ 256) : (BitVec.ofNat 32 n).getLsbD 30 = false ∧
    (BitVec.ofNat 32 n).setWidth 8 = .ofNat 8 n := by
  constructor
  · rw [BitVec.getLsbD_ofNat, Nat.testBit_lt_two_pow (by omega), Bool.and_false]
  · refine BitVec.eq_of_toNat_eq ?_
    simp only [BitVec.toNat_setWidth, BitVec.toNat_ofNat]
    omega

namespace Represents

theorem load (h : Represents base m s) {addr : Word} (hfree : Machine.Free base addr) : s.load addr = m.load addr := by
  rw [Arch.load, Machine.load, h.out1]
  rcases hfree with hout | hvar
  · rw [if_pos hout, if_pos hout]
  · rw [h.vars _ hvar]

theorem operand (h : Represents base m s) {src : OperandSource} {imm memAddr a : Word}
    (hm : m.operand base src imm memAddr = some (a, m')) :
    (s.operand src imm memAddr).1 = a ∧ Represents base m' (s.operand src imm memAddr).2 := by
  cases src with
  | zero | imm =>
    cases hm
    exact ⟨rfl, h⟩
  | stack =>
    cases hst : m.stack with
    | nil => simp [Machine.operand, hst] at hm
    | cons x xs =>
      simp only [Machine.operand, hst, Option.some.injEq, Prod.mk.injEq] at hm
      obtain ⟨rfl, rfl⟩ := hm
      have hroom := h.room
      have hbase := h.base_le
      have hstack := h.stack
      rw [hst] at hroom hstack
      rw [List.length_cons] at hroom
      have hsp : s.sp - 1 = .ofNat 32 xs.length := by
        rw [h.sp, hst, List.length_cons, BitVec.ofNat_add]
        exact BitVec.add_sub_cancel _ _
      refine ⟨?_, ⟨h.pc, hsp, hstack.2, by simp only; omega, h.base_le, h.vars, h.out1⟩⟩
      obtain ⟨hbit, haddr⟩ := stack_addr (n := xs.length) (by omega)
      change s.load (s.sp - 1) = x
      rw [hsp, Arch.load, hbit, haddr, if_neg Bool.false_ne_true]
      exact hstack.1
  | mem =>
    simp only [Machine.operand] at hm
    split at hm
    · next hfree =>
      cases hm
      exact ⟨h.load hfree, h⟩
    · cases hm

theorem save (h : Represents base m s) {dst : Destination} {a b r : Word} (hm : m.save base dst a b r = some m') :
    Represents base m' (s.save dst a b r) := by
  cases dst with
  | none =>
    cases hm
    exact h
  | stack =>
    simp only [Machine.save] at hm
    split at hm
    · next hlt =>
      cases hm
      obtain ⟨hbit, haddr⟩ := stack_addr (n := m.stack.length) (h.room.trans h.base_le)
      have hbase := h.base_le
      have hto : (BitVec.ofNat 8 m.stack.length).toNat = m.stack.length := by
        rw [BitVec.toNat_ofNat]
        exact Nat.mod_eq_of_lt (by omega)
      simp only [Arch.save, Arch.store, h.sp, hbit, haddr, Bool.false_eq_true, if_false]
      refine ⟨h.pc, (BitVec.ofNat_add _ _).symm, ⟨Function.update_self _ _ _, h.stack.update hto.ge _⟩, hlt, h.base_le,
        fun addr ha => ?_, h.out1⟩
      have hne : addr ≠ .ofNat 8 m.stack.length := by
        rintro rfl
        omega
      exact (Function.update_of_ne hne _ _).trans (h.vars addr ha)
    · cases hm
  | mem =>
    simp only [Machine.save] at hm
    split at hm
    · next hfree =>
      cases hm
      rw [Arch.save, Arch.store, Machine.store]
      split
      · exact ⟨h.pc, h.sp, h.stack, h.room, h.base_le, h.vars, rfl⟩
      · next hbit =>
        have hvar : base ≤ (b.setWidth 8).toNat := hfree.resolve_left hbit
        refine ⟨h.pc, h.sp, h.stack.update (h.room.trans hvar) _, h.room, h.base_le, fun addr ha => ?_, h.out1⟩
        simp only [Function.update_apply, h.vars addr ha]
    · cases hm
  | pc =>
    simp only [Machine.save, Option.some.injEq] at hm
    subst hm
    rw [Arch.save]
    split
    · exact ⟨rfl, h.sp, h.stack, h.room, h.base_le, h.vars, h.out1⟩
    · exact h

theorem exec (h : Represents base m s) {i : Insn} (hm : m.exec base z i = some m') :
    Represents base m' (s.exec z i) := by
  simp only [Machine.exec, Option.bind_eq_bind, Option.bind_eq_some_iff] at hm
  obtain ⟨⟨b, m₁⟩, hb, ⟨a, m₂⟩, ha, hsave⟩ := hm
  obtain ⟨rfl, h₁⟩ := h.operand hb
  obtain ⟨rfl, h₂⟩ := h₁.operand ha
  exact h₂.save hsave

/-- **A step.** -/
theorem step (h : Represents base m s) (hm : m.step base z rom = some m') : Represents base m' (s.step z rom) := by
  have hnext : Represents base { m with pc := m.pc + 1 } { s with pc := m.pc + 1 } :=
    ⟨rfl, h.sp, h.stack, h.room, h.base_le, h.vars, h.out1⟩
  rw [Arch.step, h.pc]
  exact hnext.exec hm

/-- **A run.** As long as the machine is defined the processor does the same. -/
theorem run (h : Represents base m s) {n : ℕ} (hm : m.run base z rom n = some m') :
    Represents base m' ((Arch.step z rom)^[n] s) := by
  induction n generalizing m s with
  | zero =>
    cases hm
    exact h
  | succ n ih =>
    simp only [Machine.run, Option.bind_eq_bind, Option.bind_eq_some_iff] at hm
    obtain ⟨m₁, hstep, hrun⟩ := hm
    exact ih (h.step hstep) hrun

end Represents

/-- runs in sequence -/
theorem Machine.run_add (a b : ℕ) : m.run base z rom (a + b) = (m.run base z rom a).bind (run base z rom b) := by
  induction a generalizing m with
  | zero => rw [Nat.zero_add, run, Option.bind_some]
  | succ a ih =>
    rw [Nat.add_right_comm, run, run, Option.bind_eq_bind, Option.bind_assoc]
    exact Option.bind_congr fun _ _ => ih

/-! ## The circuit -/

/-- the machine out of reset -/
def Machine.init (mem : RamWords) : Machine := ⟨0, [], mem, 0⟩

theorem represents_init (hbase : base ≤ 256) (mem : RamWords) : Represents base (.init mem) (.init mem) :=
  ⟨rfl, rfl, trivial, Nat.zero_le _, hbase, fun _ _ => rfl, rfl⟩

/-- **The processor is a stack machine.** For every program and every memory, as long as the machine is defined the circuit
is in its state every eight cycles. -/
theorem stack_machine_runs (z : DivByZero) (rom : Word → Word) (rdw : Word → Word → Word) (mem : RamWords)
    (romData ramQ : Word) (hbase : base ≤ 256) {n : ℕ} (hrun : (Machine.init mem).run base z rom n = some m) :
    Represents base m (System.run z rom rdw mem romData ramQ (8 * n + 1)).arch := by
  rw [(run_at z rom rdw mem romData ramQ n 0 (by decide)).arch]
  exact (represents_init hbase mem).run hrun

/-- three words of zeros are three zeros on the stack -/
theorem stack_machine_runs_zeros : Represents 4 ⟨3, [0, 0, 0], fun _ => 7, 0⟩
    (System.run ⟨fun _ => 0, id⟩ (fun _ => 0) (fun _ w => w) (fun _ => 7) 0 0 (8 * 3 + 1)).arch :=
  stack_machine_runs _ _ _ _ _ _ (by decide) rfl

end FpgaLearning.Calc
