/-
Uploading with `uart_debug.py` and dumping again.

`upload_dump_identity` runs the host program against the debug module, clock edge by clock edge: an upload, any halts and
resumes after it, and a dump of the same region. The dump gets the bytes of the upload, the stores on the memory port are
those of the region, each once, and the core is resumed by the dump if and only if it ran before it.
-/
import FpgaLearning.Debug.Hosted

namespace FpgaLearning.Debug

open FpgaLearning.Memory FpgaLearning.Interaction DebugModule

/-! ## The host program -/

/-- `upload_firmware` or `upload_memory` -/
def uploadTo : Target → List Byte → ℕ → Tool Bool
  | .prog => uploadFirmware
  | .data => uploadMemory

/-- `dump_firmware` or `dump_memory` -/
def dumpFrom : Target → ℕ → ℕ → Tool (Option (List Byte))
  | .prog => dumpFirmware
  | .data => dumpMemory

theorem uploadTo_eq (t : Target) : uploadTo t = upload (UARTDebugger.writeTo t) := by cases t <;> rfl

theorem dumpFrom_eq (t : Target) : dumpFrom t = dump (UARTDebugger.readFrom t) := by cases t <;> rfl

/-- halts (`false`) and resumes (`true`) -/
def coreCommands : List Bool → Tool Unit
  | [] => return ()
  | run :: rest => do
    let _ ← if run then UARTDebugger.resume else UARTDebugger.halt
    coreCommands rest

namespace Tool

/-- one run of the script, with a new debugger -/
def invoke {α : Type} (m : Tool α) : Dialogue (List Byte) (List Byte) (Except Failure α) :=
  (m UARTDebugger.init).bind fun r => .done (r.map Prod.fst)

theorem Meets.invoke {α : Type} {m : Tool α} {Q : α → Board → Prop} {b : Board} (h : m.Meets Q b) :
    m.invoke.wp Board.responder (fun r b' => ∃ a, r = .ok a ∧ Q a b') b := by
  refine Dialogue.wp_bind _ _ (Dialogue.wp_mono _ ?_ (h UARTDebugger.init (by decide)))
  rintro _ b' ⟨a, d', rfl, -, hQ⟩
  exact ⟨a, rfl, hQ⟩

end Tool

/-- halts and resumes change nothing in memory -/
theorem meets_coreCommands (l : List Bool) {b b₀ : Board} (h : ∃ halted resumes, b = { b₀ with halted, resumes }) :
    (coreCommands l).Meets (fun _ b' => ∃ halted resumes, b' = { b₀ with halted, resumes }) b := by
  induction l generalizing b with
  | nil => exact .pure h
  | cons run rest ih =>
    obtain ⟨halted, resumes, rfl⟩ := h
    cases run with
    | true => exact .bind (UARTDebugger.meets_resume (ih ⟨_, _, rfl⟩))
    | false => exact .bind (UARTDebugger.meets_halt (ih ⟨_, _, rfl⟩))

section Session

variable (t : Target) (d : List Byte) (s : ℕ) (l : List Bool)

/-- the part of the session that dumps -/
def dumping (uploaded : Except Failure Bool) :
    Dialogue (List Byte) (List Byte) (Except Failure Bool × Except Failure (Option (List Byte))) :=
  (dumpFrom t s d.length).invoke.bind fun dumped => .done (uploaded, dumped)

/-- and the part after the upload -/
def uploadedThen (uploaded : Except Failure Bool) :
    Dialogue (List Byte) (List Byte) (Except Failure Bool × Except Failure (Option (List Byte))) :=
  (coreCommands l).invoke.bind fun _ => dumping t d s uploaded

/-- upload, then halts and resumes, then dump; what the upload and the dump return -/
def session : Dialogue (List Byte) (List Byte) (Except Failure Bool × Except Failure (Option (List Byte))) :=
  (uploadTo t d s).invoke.bind fun uploaded => uploadedThen t d s l uploaded

variable {t d s l} {T : ℕ} {dm : DebugModule.St} {mem : Target → WordMem} {bus : Target → Word} {e : ℕ → Cycle}

/-- **Upload, then dump.** The upload has returned in cycle `n₁`, the dump begins in cycle `n₂` and has returned in cycle
`n₃`. -/
theorem upload_dump_identity (hd : d ≠ []) (hs : s + d.length ≤ 2 ^ 32)
    (hserved : System.Served (System.hosted (session t d s l) T dm mem bus e) e)
    (hcore : System.CoreObeys (session t d s l) T dm mem bus e) :
    let x := session t d s l
    let run := System.hosted x T dm mem bus e
    ∃ n₁ n₂ n₃, n₁ ≤ n₂ ∧ n₂ ≤ n₃ ∧
      System.position x (run n₁) = uploadedThen t d s l (.ok true) ∧
      System.position x (run n₂) = dumping t d s (.ok true) ∧
      System.position x (run n₃) = .done (.ok true, .ok (some d)) ∧
      (∀ y ∈ (run n₃).done, y.request.payload.length ≤ 255) ∧
      (∀ t', (run n₁).stores t' =
        if t' = t then d.mapIdx fun i v => storeByte (BitVec.ofNat 32 s + BitVec.ofNat 32 i) v else []) ∧
      (run n₃).stores = (run n₁).stores ∧
      (e n₃).isHalted = (e n₂).isHalted ∧
      (run n₃).resumes = (run n₂).resumes + (!(e n₂).isHalted).toNat := by
  intro x run
  have hhalted : ∀ n, (run n).dm.curState = .waitInput → (System.board (e 0).isHalted (run n)).halted = (e n).isHalted :=
    fun n hn => System.board_halted (System.hosted_inv hcore n) hn
  set b₀ := System.board (e 0).isHalted (run 0) with hb₀
  set b₁ := { b₀ with halted := true }.write t (BitVec.ofNat 32 s) d with hb₁
  -- the upload
  obtain ⟨n₁, -, _, hpos₁, hwait₁, _, rfl, rfl, hboard₁⟩ :=
    System.hosted_run hserved hcore (n := 0) (uploadTo t d s).invoke (uploadedThen t d s l)
      (Q := fun r b => ∃ a, r = .ok a ∧ a = true ∧ b = b₁) (Dialogue.after_nil _) rfl
      (Tool.Meets.invoke (by rw [uploadTo_eq]; exact meets_upload hd hs ⟨rfl, rfl⟩))
  -- the commands to the core
  have hsame : ∃ halted resumes, System.board (e 0).isHalted (run n₁) = { b₁ with halted, resumes } :=
    ⟨b₁.halted, b₁.resumes, hboard₁⟩
  obtain ⟨n₂, h12, _, hpos₂, hwait₂, _, -, halted, resumes, hboard₂⟩ :=
    System.hosted_run hserved hcore (coreCommands l).invoke (fun _ => dumping t d s (.ok true)) hpos₁ hwait₁
      (Tool.Meets.invoke (meets_coreCommands l hsame))
  -- the dump
  set b₂ := System.board (e 0).isHalted (run n₂) with hb₂
  have hbytes : b₂.bytes t (BitVec.ofNat 32 s) d.length = d := by
    rw [hboard₂]
    exact Board.bytes_write (b := { b₀ with halted := true }) (by omega)
  obtain ⟨n₃, h23, _, hpos₃, hwait₃, _, rfl, rfl, hboard₃⟩ :=
    System.hosted_run hserved hcore (dumpFrom t s d.length).invoke (fun dumped => .done (.ok true, dumped)) hpos₂ hwait₂
      (Q := fun r b => ∃ a, r = .ok a ∧ a = some d ∧ b = { b₂ with resumes := b₂.resumes + (!b₂.halted).toNat })
      (Tool.Meets.invoke (by rw [dumpFrom_eq]; exact meets_dump hs ⟨by rw [hbytes], rfl⟩))
  have hstores₁ : (run n₁).stores = b₁.stores := congrArg Board.stores hboard₁
  have hstores₂ : b₂.stores = b₁.stores := by rw [hboard₂]
  have hstores₃ : (run n₃).stores = b₂.stores := congrArg Board.stores hboard₃
  refine ⟨n₁, n₂, n₃, h12, h23, hpos₁, hpos₂, hpos₃, fun y _ => y.request.length_le, fun t' => ?_, ?_, ?_, ?_⟩
  · rw [hstores₁]
    rfl
  · rw [hstores₃, hstores₂, hstores₁]
  · rw [← hhalted n₃ hwait₃, ← hhalted n₂ hwait₂]
    have hsame := congrArg Board.halted hboard₃
    exact hsame
  · rw [← hhalted n₂ hwait₂]
    have hcount := congrArg Board.resumes hboard₃
    exact hcount

end Session

/-! ## Surroundings that oblige -/

section Obliging

variable {α : Type} (x : Dialogue (List Byte) (List Byte) α) (T : ℕ) (dm : DebugModule.St) (mem : Target → WordMem)
  (bus : Target → Word)

/-- no delay anywhere; `h` is `is_halted` -/
def obligingCycle (h : Bool) : Cycle := ⟨true, 0#8, false, true, h, fun _ => true, fun _ => 0#32⟩

/-- the closed loop with a core that halts and resumes at once; it starts running -/
def obliging : ℕ → System × Bool
  | 0 => (System.initHosted x dm mem bus, false)
  | n + 1 =>
    let (s, h) := obliging n
    (System.nextHosted x s (obligingCycle h) T, if haltReq s.dm then true else if resumeReq s.dm then false else h)

def obligingEnv (n : ℕ) : Cycle := obligingCycle (obliging x T dm mem bus n).2

theorem hosted_obliging (n : ℕ) :
    System.hosted x T dm mem bus (obligingEnv x T dm mem bus) n = (obliging x T dm mem bus n).1 := by
  induction n with
  | zero => rfl
  | succ n ih =>
    show System.nextHosted x (System.hosted x T dm mem bus (obligingEnv x T dm mem bus) n) _ T = _
    rw [ih]
    rfl

theorem isHalted_obliging (n : ℕ) : (obligingEnv x T dm mem bus (n + 1)).isHalted =
    if haltReq (obliging x T dm mem bus n).1.dm then true
    else if resumeReq (obliging x T dm mem bus n).1.dm then false
    else (obligingEnv x T dm mem bus n).isHalted := rfl

theorem coreObeys_obliging : System.CoreObeys x T dm mem bus (obligingEnv x T dm mem bus) := by
  intro n
  rw [hosted_obliging]
  constructor
  · intro h1 h2
    rw [isHalted_obliging, h1] at h2
    split_ifs at h2 with hh
    exact hh
  · intro h1 h2
    rw [isHalted_obliging, h1] at h2
    split_ifs at h2 with _ hr
    exact hr

theorem served_obliging : System.Served (System.hosted x T dm mem bus (obligingEnv x T dm mem bus))
    (obligingEnv x T dm mem bus) where
  host n := ⟨n, le_rfl, rfl⟩
  sender n := ⟨n, le_rfl, rfl⟩
  memory _ n _ := ⟨n, le_rfl, rfl⟩
  halt n hn := by
    rw [hosted_obliging] at hn
    exact ⟨n + 1, Nat.le_succ n, by rw [isHalted_obliging, if_pos hn]⟩
  resume n hn := by
    rw [hosted_obliging] at hn
    have hno : haltReq (obliging x T dm mem bus n).1.dm = false := by
      cases hs : (obliging x T dm mem bus n).1.dm.curState <;> simp_all [haltReq, resumeReq]
    exact ⟨n + 1, Nat.le_succ n, by rw [isHalted_obliging, hno, hn]; rfl⟩

end Obliging

/-- two bytes of data memory across a word boundary; the core runs before the dump -/
theorem upload_dump_demo : ∃ n, System.position (session .data [0xAB#8, 0xCD#8] 3 [true])
    (System.hosted (session .data [0xAB#8, 0xCD#8] 3 [true]) 16 System.zeroed (fun _ _ => 0#32) (fun _ => 0#32)
      (obligingEnv (session .data [0xAB#8, 0xCD#8] 3 [true]) 16 System.zeroed (fun _ _ => 0#32) fun _ => 0#32) n) =
    .done (.ok true, .ok (some [0xAB#8, 0xCD#8])) := by
  obtain ⟨_, _, n, -, -, -, -, h, -⟩ := upload_dump_identity (t := .data) (d := [0xAB#8, 0xCD#8]) (s := 3) (l := [true])
    (List.cons_ne_nil _ _) (by decide) (served_obliging _ 16 System.zeroed (fun _ _ => 0#32) fun _ => 0#32)
    (coreObeys_obliging _ 16 System.zeroed (fun _ _ => 0#32) fun _ => 0#32)
  exact ⟨n, h⟩

end FpgaLearning.Debug
