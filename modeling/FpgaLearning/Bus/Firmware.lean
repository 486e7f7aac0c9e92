/-
RV32IM programs on the board of `top.sv`.

The core is right about the instruction set and the interconnect is right about its memories. Together: from reset, a
program in the ROM that keeps to the mapped addresses is executed instruction by instruction.

- `Supported`: what one instruction must keep to. Everything in it is an address, apart from the one division that the
  multiply/divide unit gets wrong.
- `firmware_runs`: in every cycle the register writes so far are those of a number of instructions, and RAM and output
  register show the memory after at most two more; with the clock enabled every instruction is reached.
-/
import FpgaLearning.Bus.MemoryMap
import FpgaLearning.Bus.Transparency

namespace FpgaLearning.Bus

open FpgaLearning.Memory FpgaLearning.ArxCore FpgaLearning.Rv32i MemoryInterconnect
open FpgaLearning.Rv32im (Execution)

/-! ## Programs the board supports -/

/-- the instruction lies in the ROM and keeps to what the board has -/
structure Supported (i : Rv32im.Insn) (s : State) : Prop where
  pc_rom : s.pc.toNat < 0x40000
  pc_aligned : s.pc.toNat % 4 = 0
  aligned : ∀ b, i = .base b → b.Aligned s
  loads : ∀ o rd rs1 imm, i = .base (.load o rd rs1 imm) → Mapped (effAddr s rs1 imm)
  stores : ∀ o rs1 rs2 imm, i = .base (.store o rs1 rs2 imm) → Writable (effAddr s rs1 imm)
  jumps : ∀ b, i = .base b → b.rawNextPc s = b.nextPc s
  divides : ¬ NegByZero i s

/-- the machine after reset, with the ROM, the RAM and the cleared output register as its memory -/
structure Boots (rom : BitVec 16 → Word) (ram : RamWords) (s : State) : Prop where
  pc : s.pc = 0
  regs : s.regs = fun _ => 0
  mem : Represents rom (ram, 0) s.mem

/-! ## One instruction -/

variable {rom : BitVec 16 → Word} {rdw : Word → MemReq → Word} {code : Word → Word} {d : Top.Dev} {f : Word → Byte}
  {q : SeqSt Top.Dev} {s : State} {i : Rv32im.Insn}

/-- the word of an aligned ROM address -/
theorem Represents.fetch (h : Represents rom d f) {a : Word} (ha : a.toNat < 0x40000) (hal : a.toNat % 4 = 0) :
    Top.insnMem rom code a = readWord f a := by
  have hword : Top.insnMem rom code a = boardWord rom d a := by
    simp only [Top.insnMem, region_rom (a := a) (by omega), boardWord, if_pos ha, romRead]
    exact congrArg rom (wordLines_eq.2 (by rw [toNat_masked]; omega))
  have hread := LoadStoreUnit.readData_load .lw (wordsOf f) a hal
  rw [byteAt_wordsOf] at hread
  rw [hword, h.word (.inl ha)]
  exact hread

/-- the sequential machine in the state `s` of the instruction set -/
structure Matches (rom : BitVec 16 → Word) (q : SeqSt Top.Dev) (s : State) : Prop where
  pc : q.pc = s.pc
  regs : q.regs = s.regs
  mem : Represents rom q.dev s.mem

theorem write_writeResult (regs : Reg → Word) (rd : Reg) (we : Bool) (v : Word) :
    RegisterFile.write regs rd we v = Rv32im.Insn.writeResult regs (if we then some (rd, v) else none) := by
  cases we
  · simp [RegisterFile.write, Rv32im.Insn.writeResult]
  · exact write_eq regs rd v

/-- the instruction at pc, as it is issued -/
theorem Matches.insn (h : Matches rom q s) (hfetch : readWord s.mem s.pc = i.encode) (hs : Supported i s) :
    Sequential.insn (Top.insnMem rom code) q = IdOut.ofWord i.encode s.pc s.regs := by
  rw [IdOut.insn_eq_ofWord, h.pc, h.regs, h.mem.fetch hs.pc_rom hs.pc_aligned, hfetch]

/-- what the instruction commits -/
theorem Matches.result (h : Matches rom q s) (hfetch : readWord s.mem s.pc = i.encode) (hs : Supported i s) :
    (if (IdOut.ofWord i.encode s.pc s.regs).d.regWrite then
      some ((IdOut.ofWord i.encode s.pc s.regs).rd, (IdOut.ofWord i.encode s.pc s.regs).wbVal
        (Sequential.busData (Top.insnMem rom code) (Top.device rom rdw) q)) else none) = i.result s := by
  cases i with
  | base i =>
    refine IdOut.result_base s (hs.aligned i rfl) _ ?_
    rintro o rd rs1 imm rfl
    rw [Sequential.busData, h.insn hfetch hs]
    have haddr := IdOut.aluRes_load s o rd rs1 imm
    exact h.mem.load (hs.loads o rd rs1 imm rfl) (congrArg LoadStoreUnit.memAddr haddr)
      (IdOut.memReq_load_we s o rd rs1 imm)
  | mulDiv o rd rs1 rs2 =>
    rw [IdOut.ofWord_mulDiv]
    have hval := value_mulMduOp (o := o) (a := s.regs rs1) (b := s.regs rs2) hs.divides
    simp [IdOut.wbVal, IdOut.aluRes, ExecStage.ialuArg1, ExecStage.ialuArg2, Rv32im.Insn.result, hval]

/-- what the instruction leaves in memory -/
theorem Matches.memAfter (h : Matches rom q s) (hfetch : readWord s.mem s.pc = i.encode) (hs : Supported i s) :
    Represents rom (Sequential.step (Top.insnMem rom code) (Top.device rom rdw) q).dev (i.memAfter s) := by
  simp only [Sequential.step, h.insn hfetch hs]
  cases i with
  | mulDiv o rd rs1 rs2 =>
    rw [IdOut.ofWord_mulDiv]
    exact h.mem
  | base i =>
    rw [Rv32im.Insn.encode_base]
    cases i with
    | store o rs1 rs2 imm =>
      have hwe : LoadStoreUnit.writeEn (storeType o) = true := by cases o <;> rfl
      have hstore := @Represents.store _ rdw _ _ _ (LoadStoreUnit.request (storeType o) (effAddr s rs1 imm) (s.regs rs2)) h.mem
        (hs.stores o rs1 rs2 imm rfl) rfl hwe
      rw [LoadStoreUnit.byteAt_store o _ _ _ (hs.aligned _ rfl), byteAt_wordsOf] at hstore
      rw [IdOut.memReq_store, IdOut.ofWord_encode]
      exact hstore
    | load o rd rs1 imm =>
      rw [(Top.device rom rdw).read_pure _ _ (IdOut.memReq_load_we s o rd rs1 imm), ite_self]
      exact h.mem
    | _ =>
      rw [IdOut.ofWord_encode]
      exact h.mem

/-- **One instruction.** -/
theorem Matches.step (h : Matches rom q s) (hfetch : readWord s.mem s.pc = i.encode) (hs : Supported i s) :
    Sequential.commit (Top.insnMem rom code) (Top.device rom rdw) q = (i.result s).toList ∧
      Matches rom (Sequential.step (Top.insnMem rom code) (Top.device rom rdw) q) (i.step s) := by
  have hresult := @Matches.result _ rdw code _ _ _ h hfetch hs
  refine ⟨?_, ?_, ?_, h.memAfter hfetch hs⟩
  · rw [Sequential.commit, h.insn hfetch hs, ← hresult]
    split_ifs <;> rfl
  · simp only [Sequential.step, h.insn hfetch hs]
    cases i with
    | base i => rw [Rv32im.Insn.encode, IdOut.nextPc_base, hs.jumps i rfl]; rfl
    | mulDiv o rd rs1 rs2 => rw [IdOut.ofWord_mulDiv]; rfl
  · simp only [Sequential.step, h.insn hfetch hs]
    rw [write_writeResult, hresult, h.regs]
    rfl

/-- the only register of the peripherals that a supported load reads is the output register -/
theorem Supported.timerFree (hs : Supported i s) (hop : (IdOut.ofWord i.encode s.pc s.regs).d.memOp = true)
    (hwe : (IdOut.ofWord i.encode s.pc s.regs).memReq.we = false)
    (hreg : region (IdOut.ofWord i.encode s.pc s.regs).memReq.addr = some .periph) :
    masked .periph (IdOut.ofWord i.encode s.pc s.regs).memReq.addr ≠ 4 := by
  cases i with
  | mulDiv o rd rs1 rs2 =>
    rw [IdOut.ofWord_mulDiv] at hop
    cases hop
  | base i =>
    rw [Rv32im.Insn.encode_base] at hop hwe hreg ⊢
    cases i with
    | load o rd rs1 imm =>
      have haddr : (IdOut.ofWord (Insn.load o rd rs1 imm).encode s.pc s.regs).memReq.addr =
          LoadStoreUnit.memAddr (effAddr s rs1 imm) := congrArg LoadStoreUnit.memAddr (IdOut.aluRes_load s o rd rs1 imm)
      have hn := toNat_memAddr (effAddr s rs1 imm)
      rw [haddr] at hreg ⊢
      rcases hs.loads o rd rs1 imm rfl with h | ⟨h, h'⟩ | ⟨h, h'⟩
      · rw [region_rom (by omega)] at hreg
        cases hreg
      · rw [region_ram (by omega) (by omega)] at hreg
        cases hreg
      · intro h4
        have hmask := toNat_masked .periph (LoadStoreUnit.memAddr (effAddr s rs1 imm))
        rw [h4] at hmask
        change 4 = _ at hmask
        omega
    | store o rs1 rs2 imm =>
      rw [IdOut.memReq_store] at hwe
      cases o <;> cases hwe
    | _ =>
      rw [IdOut.ofWord_encode] at hop
      cases hop

/-! ## Runs -/

/-- a run of the instruction set that starts where the board starts and stays within what it supports -/
structure Firmware (rom : BitVec 16 → Word) (ram : RamWords) (X : Execution) : Prop where
  boots : Boots rom ram (X.state 0)
  supported : ∀ n, Supported (X.insn n) (X.state n)

variable {ram : RamWords} {X : Execution}

theorem Firmware.matches_state (hX : Firmware rom ram X) (n : ℕ) :
    Matches rom (Sequential.state (Top.insnMem rom code) (Top.device rom rdw) (ram, 0) n) (X.state n) := by
  induction n with
  | zero => exact ⟨hX.boots.pc.symm, hX.boots.regs.symm, hX.boots.mem⟩
  | succ n ih =>
    rw [X.stepped n]
    exact (ih.step (X.fetched n) (hX.supported n)).2

theorem Firmware.commits_eq (hX : Firmware rom ram X) (n : ℕ) :
    Sequential.commits (Top.insnMem rom code) (Top.device rom rdw) (ram, 0) n = X.results n := by
  induction n with
  | zero => rfl
  | succ n ih =>
    rw [Sequential.commits, Execution.results, ih]
    exact congrArg _ ((hX.matches_state n).step (X.fetched n) (hX.supported n)).1

/-- the fetch unit runs ahead by two words, which still lie in the region of the ROM -/
theorem Firmware.inRom (hX : Firmware rom ram X) : Top.InRom rom rdw code ram := by
  rintro a ⟨k, hk⟩
  have hpc : (Sequential.state (Top.insnMem rom code) (Top.device rom rdw) (ram, 0) k).pc = (X.state k).pc :=
    (hX.matches_state k).pc
  have hrom := (hX.supported k).pc_rom
  rw [hpc] at hk
  have h4 : (4 : Word).toNat = 4 := rfl
  apply region_rom
  rcases hk with rfl | rfl | rfl
  · omega
  · rw [BitVec.toNat_add, h4]
    omega
  · rw [BitVec.toNat_add, BitVec.toNat_add, h4]
    omega

theorem Firmware.timerFree (hX : Firmware rom ram X) : Top.TimerFree rom rdw code ram := by
  intro k
  have hinsn : Sequential.insn (Top.insnMem rom code) (Sequential.state (Top.insnMem rom code) (Top.device rom rdw)
      (ram, 0) k) = IdOut.ofWord (X.insn k).encode (X.state k).pc (X.state k).regs :=
    (hX.matches_state k).insn (X.fetched k) (hX.supported k)
  rw [Sequential.insnAt, hinsn]
  exact (hX.supported k).timerFree

/-- the state of the board in the middle of a run: `k` instructions have committed, `j` have reached the memory -/
structure Reaches (rom : BitVec 16 → Word) (X : Execution) (t : Top) (k j : ℕ) : Prop where
  order : k ≤ j ∧ j ≤ k + 2
  commits : t.commits = X.results k
  mem : Represents rom (t.fabric.ram, t.periph.out1) (X.state j).mem

variable {σ : Type*} {imem : Word → Word} {D : Device σ} {d₀ : σ} {sys : System σ} {w : Window}

/-- the data device is the one of the sequential run, at most two instructions past the committed ones -/
theorem dev_cut (h : Inv imem D d₀ sys w) :
    ∃ j, sys.ram.dev = (Sequential.state imem D d₀ j).dev ∧ w.retired ≤ j ∧ j ≤ w.retired + 2 := by
  have hwb := h.wb_le
  cases h.mem with
  | empty hw hx hown hd => exact ⟨_, hd.dev, by omega, by omega⟩
  | waiting hw hx hack hd => exact ⟨_, hd.dev, by omega, by omega⟩
  | acked hw hx hack hown hdata hd => exact ⟨_, hd.dev, by omega, by omega⟩
  | done hw hx hown hd => exact ⟨_, hd.dev, by omega, by omega⟩

/-- what a run of the board shows of the program -/
structure Executes (rom : BitVec 16 → Word) (X : Execution) (T : ℕ → Top) (clkEn : ℕ → Bool) : Prop where
  always : ∀ n, ∃ k j, Reaches rom X (T n) k j
  progress : (∀ n, clkEn n = true) → ∀ l, ∃ n, ∀ m, n ≤ m → ∃ k j, l ≤ k ∧ Reaches rom X (T m) k j

open FpgaLearning.Bus.Top in
/-- **Firmware.** From reset the board executes the program in its ROM: with the clock enabled in every cycle to any
depth, and with pauses that meet no frozen acknowledge without a slip. -/
theorem firmware_runs (rom : BitVec 16 → Word) (rdw : Word → MemReq → Word) (c : Core) (ram : RamWords)
    (romData ramData : Word) (clkEn : ℕ → Bool) (X : Execution) (hX : Firmware rom ram X)
    (hs : ∀ n, NoStaleAck (Top.run rom rdw c ram romData ramData clkEn n) (clkEn n)) :
    Executes rom X (Top.run rom rdw c ram romData ramData clkEn) clkEn := by
  set code : Word → Word := fun _ => 0
  have hfetch := @fetchStable_of_inRom _ _ code _ _ _ _ _ hX.inRom hX.timerFree hs
  have hrel := rel_run (fun n => ⟨hs n, hfetch n⟩) hX.timerFree
  have hinv := run_inv (insnMem rom code) (device rom rdw) (ram, 0) c 0 0 (grants rom rdw c ram romData ramData clkEn)
    portRun_debugReads
  set retired := fun n => (System.window (insnMem rom code) (device rom rdw) c (ram, 0) 0 0
    (grants rom rdw c ram romData ramData clkEn) n).retired
  have hreach : ∀ n, ∃ j, Reaches rom X (Top.run rom rdw c ram romData ramData clkEn n) (retired n) j := by
    intro n
    obtain ⟨j, hdev, hle, hle'⟩ := dev_cut (hinv n)
    refine ⟨j, ⟨hle, hle'⟩, ?_, ?_⟩
    · rw [← (hrel n).commits, (hinv n).commits, hX.commits_eq]
    · have hram := congrArg Port.dev (hrel n).ram
      rw [← show _ = (_, _) from hram, hdev]
      exact (hX.matches_state j).mem
  refine ⟨fun n => ⟨_, hreach n⟩, fun hen l => ?_⟩
  obtain rfl : clkEn = fun _ => true := funext hen
  obtain ⟨n, hn⟩ := @retired_unbounded _ (insnMem rom code) (device rom rdw) (ram, 0) c 0 0
    (grants rom rdw c ram romData ramData fun _ => true) (fun _ => rfl) (fair_of_enabled hfetch hX.timerFree) l
  have hmono : Monotone retired := monotone_nat_of_le_succ fun m => (hinv m).wb_le.1
  exact ⟨n, fun m hm => ⟨_, (hreach m).imp fun _ h => ⟨hn.trans (hmono hm), h⟩⟩⟩

/-! ## A program -/

/-- `lui x1, 0x40000`, then for ever `addi x2, x2, 1` and `sw x2, 0(x1)` -/
def counterInsn (pc : Word) : Rv32im.Insn :=
  .base (if pc = 0 then .lui 1 0x40000 else if pc = 4 then .opImm .addi 2 2 1 else if pc = 8 then .store .sw 1 2 0
    else .jal 0 0xFFFFC)

def counterRom (w : BitVec 16) : Word := (counterInsn (w.setWidth 32 <<< 2)).encode

structure CounterInv (s : State) : Prop where
  pc : s.pc = 0 ∨ s.pc = 4 ∨ s.pc = 8 ∨ s.pc = 12
  out : s.pc ≠ 0 → s.regs 1 = 0x40000000
  rom : ∀ a : Word, a.toNat < 0x40000 → s.mem a = boardByte counterRom (fun _ => 0, 0) a

def counterStart : State := ⟨0, fun _ => 0, boardByte counterRom (fun _ => 0, 0), rfl⟩

theorem CounterInv.fetch (h : CounterInv s) : readWord s.mem s.pc = (counterInsn s.pc).encode := by
  have hmem := h.rom
  rcases h.pc with hpc | hpc | hpc | hpc <;> rw [hpc, readWord] <;>
    rw [hmem _ (by decide), hmem _ (by decide), hmem _ (by decide), hmem _ (by decide)] <;> decide

theorem CounterInv.step (h : CounterInv s) : CounterInv ((counterInsn s.pc).step s) := by
  rcases h.pc with hpc | hpc | hpc | hpc
  · rw [hpc]
    refine ⟨.inr (.inl ?_), fun _ => rfl, h.rom⟩
    show s.pc + 4 = 4
    rw [hpc]
    rfl
  · rw [hpc]
    refine ⟨.inr (.inr (.inl ?_)), fun _ => h.out (by rw [hpc]; decide), h.rom⟩
    show s.pc + 4 = 8
    rw [hpc]
    rfl
  · have hx1 : s.regs 1 = 0x40000000 := h.out (by rw [hpc]; decide)
    rw [hpc]
    refine ⟨.inr (.inr (.inr ?_)), fun _ => hx1, fun a ha => ?_⟩
    · show s.pc + 4 = 12
      rw [hpc]
      rfl
    · have hne : ¬ (a - effAddr s 1 0).toNat < StoreOp.size .sw := by
        have heff : effAddr s 1 0 = 0x40000000 := by rw [effAddr, hx1]; rfl
        rw [heff, BitVec.toNat_sub, StoreOp.size]
        show ¬ (2 ^ 32 - 0x40000000 + a.toNat) % 2 ^ 32 < 4
        omega
      show writeBytes s.mem (effAddr s 1 0) _ _ a = _
      rw [writeBytes, if_neg hne]
      exact h.rom a ha
  · have hx1 : s.regs 1 = 0x40000000 := h.out (by rw [hpc]; decide)
    rw [hpc]
    refine ⟨.inr (.inl ?_), fun _ => hx1, h.rom⟩
    show s.pc + _ = 4
    rw [hpc]
    rfl

theorem CounterInv.supported (h : CounterInv s) : Supported (counterInsn s.pc) s := by
  have hrom : s.pc.toNat < 0x40000 ∧ s.pc.toNat % 4 = 0 := by
    rcases h.pc with hpc | hpc | hpc | hpc <;> rw [hpc] <;> decide
  by_cases h8 : s.pc = 8
  · have hx1 : effAddr s 1 0 = 0x40000000 := by
      rw [effAddr, h.out (by rw [h8]; decide)]
      rfl
    rw [h8]
    refine ⟨hrom.1, hrom.2, ?_, by rintro _ _ _ _ ⟨⟩, ?_, by rintro b ⟨⟩; rfl, id⟩
    · rintro b ⟨⟩
      show (effAddr s 1 0).toNat % 4 = 0
      rw [hx1]
      rfl
    · rintro o rs1 rs2 imm ⟨⟩
      rw [hx1]
      exact .inr ⟨by decide, by decide⟩
  · have hpc : s.pc = 0 ∨ s.pc = 4 ∨ s.pc = 12 := by
      rcases h.pc with hpc | hpc | hpc | hpc
      · exact .inl hpc
      · exact .inr (.inl hpc)
      · exact absurd hpc h8
      · exact .inr (.inr hpc)
    rcases hpc with hpc | hpc | hpc <;> rw [hpc] <;>
      exact ⟨hrom.1, hrom.2, by rintro b ⟨⟩; trivial, by rintro _ _ _ _ ⟨⟩, by rintro _ _ _ _ ⟨⟩,
        by rintro b ⟨⟩; rfl, id⟩

/-- the run of the program -/
def counter : Execution :=
  .ofInvariant CounterInv (fun s => counterInsn s.pc) counterStart ⟨.inl rfl, fun h => absurd rfl h, fun _ _ => rfl⟩
    (fun _ h => h.fetch) (fun _ h => h.step)

theorem counter_inv (n : ℕ) : CounterInv (counter.state n) := Execution.ofInvariant_inv n

theorem firmware_runs_counter :
    Executes counterRom counter (Top.run counterRom Top.writtenOnly demoCore (fun _ => 0) 0 0 fun _ => true)
      fun _ => true :=
  firmware_runs counterRom Top.writtenOnly demoCore (fun _ => 0) 0 0 (fun _ => true) counter
    ⟨⟨rfl, rfl, fun _ _ => rfl⟩, fun n => (counter_inv n).supported⟩ fun _ => Top.noStaleAck_true _

end FpgaLearning.Bus
