/-
`UartMemInit.sv`: a memory that is written and read over a serial line, in its two versions.

A command is a byte, an address and, if bit 0 of the byte is clear, a word; a read is answered with the word at the
address. The versions differ in the address: four bytes in `Calc2`, one in `UartTest`. Bytes of a word go most significant
first. The loader stands at a one-cycle synchronous memory, whose output is arbitrary while it is written.

`LoaderSession` adds what an observer of the line sees. `commands` is the meaning of the bytes taken so far, `memAfter` and
`replies` what they ask for.
-/
import FpgaLearning.Core.Clocked

namespace FpgaLearning.Loader

abbrev Word := BitVec 32

abbrev Byte := BitVec 8

/-! ## The circuit -/

/-- the version in `Calc2` and the one in `UartTest` -/
inductive Version where
  | calc2 | uartTest
deriving DecidableEq, Repr

namespace Version

/-- bytes of an address -/
def addrBytes : Version → ℕ
  | .calc2 => 4
  | .uartTest => 1

abbrev addrWidth (v : Version) : ℕ := 8 * v.addrBytes

end Version

/-- `state_t` -/
inductive State where
  | cmd | addr | data | exec | memRead | memWrite
deriving DecidableEq, Repr

structure St (v : Version) where
  state : State
  dataCnt : BitVec 2
  cmd : Byte
  memAddr : BitVec v.addrWidth
  memWriteData : Word
  memWe : Bool
  toUartData : Byte
  toUartValid : Bool

namespace UartMemInit

variable {v : Version}

def reset (_ : St v) : St v := ⟨.cmd, 0, 0, 0, 0, false, 0, false⟩

structure In where
  fromUartData : Byte
  fromUartValid : Bool
  toUartReady : Bool
  memReadData : Word
deriving DecidableEq, Repr

def fromUartReady (s : St v) : Bool :=
  match s.state with
  | .cmd | .addr | .data => true
  | _ => false

/-- where a command goes on after its address -/
def afterAddr (cmd : Byte) : State := if cmd.getLsbD 0 then .exec else .data

/-- an address byte -/
def takeAddr : (v : Version) → St v → Byte → St v
  | .calc2, s, b =>
    { s with
      memAddr := s.memAddr.extractLsb' 0 24 ++ b
      dataCnt := if s.dataCnt = 3 then 0 else s.dataCnt + 1
      state := if s.dataCnt = 3 then afterAddr s.cmd else s.state }
  | .uartTest, s, b => { s with memAddr := b, state := afterAddr s.cmd }

/-- the byte of a word that is sent when the counter stands at `cnt` -/
def byteOf (w : Word) (cnt : BitVec 2) : Byte :=
  if cnt = 0 then w.extractLsb' 24 8
  else if cnt = 1 then w.extractLsb' 16 8
  else if cnt = 2 then w.extractLsb' 8 8
  else w.extractLsb' 0 8

def next (s : St v) (i : In) : St v :=
  -- both strobes last one cycle
  let s0 := { s with memWe := false, toUartValid := false }
  match s.state with
  | .cmd => if i.fromUartValid then { s0 with state := .addr, cmd := i.fromUartData } else s0
  | .addr => if i.fromUartValid then takeAddr v s0 i.fromUartData else s0
  | .data =>
    if i.fromUartValid then
      { s0 with
        memWriteData := s.memWriteData.extractLsb' 0 24 ++ i.fromUartData
        dataCnt := if s.dataCnt = 3 then 0 else s.dataCnt + 1
        state := if s.dataCnt = 3 then .exec else .data }
    else s0
  | .exec => { s0 with state := if s.cmd.getLsbD 0 then .memRead else .memWrite }
  | .memRead =>
    if i.toUartReady then
      { s0 with
        toUartValid := true
        toUartData := byteOf i.memReadData s.dataCnt
        dataCnt := if s.dataCnt = 3 then 0 else s.dataCnt + 1
        state := if s.dataCnt = 3 then .cmd else .memRead }
    else s0
  | .memWrite => { s0 with memWe := true, state := .cmd }

end UartMemInit

/-! ## Commands -/

/-- a number in big-endian bytes -/
def bigEndian (l : List Byte) : ℕ := l.foldl (fun n b => 256 * n + b.toNat) 0

/-- the bytes of a word, most significant first -/
def wordBytes (w : Word) : List Byte :=
  [w.extractLsb' 24 8, w.extractLsb' 16 8, w.extractLsb' 8 8, w.extractLsb' 0 8]

inductive Command (v : Version) where
  | write (addr : BitVec v.addrWidth) (data : Word)
  | read (addr : BitVec v.addrWidth)
deriving DecidableEq, Repr

/-- the complete commands in a sequence of bytes: the address, and after an even byte the word -/
def commands (v : Version) : List Byte → List (Command v)
  | [] => []
  | op :: rest =>
    if op.getLsbD 0 then
      if rest.length < v.addrBytes then []
      else .read (BitVec.ofNat _ (bigEndian (rest.take v.addrBytes))) :: commands v (rest.drop v.addrBytes)
    else
      if rest.length < v.addrBytes + 4 then []
      else .write (BitVec.ofNat _ (bigEndian (rest.take v.addrBytes)))
          (BitVec.ofNat _ (bigEndian ((rest.drop v.addrBytes).take 4))) :: commands v (rest.drop (v.addrBytes + 4))
termination_by l => l.length
decreasing_by all_goals simp

abbrev Mem (v : Version) := BitVec v.addrWidth → Word

variable {v : Version}

/-- one command on the memory -/
def Command.run (m : Mem v) : Command v → Mem v
  | .write a d => Function.update m a d
  | .read _ => m

/-- what a command is answered with -/
def Command.reply (m : Mem v) : Command v → List Byte
  | .write _ _ => []
  | .read a => wordBytes (m a)

/-- the memory after a sequence of commands -/
def memAfter (m : Mem v) (l : List (Command v)) : Mem v := l.foldl Command.run m

/-- the answers of a sequence of commands -/
def replies (m : Mem v) : List (Command v) → List Byte
  | [] => []
  | c :: l => c.reply m ++ replies (c.run m) l

/-! ## The loader at its memory -/

/-- what the line, the receiver and the memory do in one cycle -/
structure LoaderIn where
  fromUartData : Byte
  fromUartValid : Bool
  toUartReady : Bool
  /-- what the memory puts out for a cycle in which it is written -/
  bus : Word

/-- the loader and its memory, with the bytes taken and those handed over, oldest first -/
structure LoaderSession (v : Version) where
  unit : St v
  mem : Mem v
  readData : Word
  accepted : List Byte
  transferred : List Byte
  /-- ghost: the bytes put on the output, whether taken or not -/
  shown : List Byte

namespace LoaderSession

open UartMemInit

def accepts (s : LoaderSession v) (i : LoaderIn) : Bool := fromUartReady s.unit && i.fromUartValid

def transfers (s : LoaderSession v) (i : LoaderIn) : Bool := s.unit.toUartValid && i.toUartReady

def step (s : LoaderSession v) (i : LoaderIn) : LoaderSession v where
  unit := next s.unit ⟨i.fromUartData, i.fromUartValid, i.toUartReady, s.readData⟩
  mem := if s.unit.memWe then Function.update s.mem s.unit.memAddr s.unit.memWriteData else s.mem
  readData := if s.unit.memWe then i.bus else s.mem s.unit.memAddr
  accepted := if s.accepts i then s.accepted ++ [i.fromUartData] else s.accepted
  transferred := if s.transfers i then s.transferred ++ [s.unit.toUartData] else s.transferred
  shown := if s.unit.toUartValid then s.shown ++ [s.unit.toUartData] else s.shown

/-- out of reset -/
def start (x : St v) (m : Mem v) (r : Word) : LoaderSession v := ⟨reset x, m, r, [], [], []⟩

def after (x : St v) (m : Mem v) (r : Word) (inp : ℕ → LoaderIn) (n : ℕ) : LoaderSession v :=
  Clocked.run step inp (start x m r) n

end LoaderSession

end FpgaLearning.Loader
