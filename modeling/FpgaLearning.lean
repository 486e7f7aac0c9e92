import FpgaLearning.ArxCore.Alignment
import FpgaLearning.ArxCore.Conformance
import FpgaLearning.ArxCore.Core
import FpgaLearning.ArxCore.Decoder
import FpgaLearning.ArxCore.Divider
import FpgaLearning.ArxCore.Effects
import FpgaLearning.ArxCore.Encoding
import FpgaLearning.ArxCore.ExecStream
import FpgaLearning.ArxCore.FetchStream
import FpgaLearning.ArxCore.Halt
import FpgaLearning.ArxCore.Invariant
import FpgaLearning.ArxCore.Mdu
import FpgaLearning.ArxCore.MemStream
import FpgaLearning.ArxCore.Progress
import FpgaLearning.ArxCore.Refinement
import FpgaLearning.ArxCore.Reset
import FpgaLearning.ArxCore.Scoreboard
import FpgaLearning.ArxCore.Sequential
import FpgaLearning.ArxCore.StageLemmas
import FpgaLearning.ArxCore.Stages
import FpgaLearning.ArxCore.Units
import FpgaLearning.Bus.Delivery
import FpgaLearning.Bus.Firmware
import FpgaLearning.Bus.Interconnect
import FpgaLearning.Bus.MemoryMap
import FpgaLearning.Bus.Pause
import FpgaLearning.Bus.Top
import FpgaLearning.Bus.Transparency
import FpgaLearning.Calc.Assembly
import FpgaLearning.Calc.Isa
import FpgaLearning.Calc.Processor
import FpgaLearning.Calc.Refinement
import FpgaLearning.Calc.StackMachine
import FpgaLearning.Calc.UartRamLoader
import FpgaLearning.Compiler.Assembler
import FpgaLearning.Compiler.Calls
import FpgaLearning.Compiler.CodeGenerator
import FpgaLearning.Compiler.Correctness
import FpgaLearning.Compiler.Disassembly
import FpgaLearning.Compiler.Expressions
import FpgaLearning.Compiler.Frames
import FpgaLearning.Compiler.Globals
import FpgaLearning.Compiler.HexExport
import FpgaLearning.Compiler.Interpreter
import FpgaLearning.Compiler.Layout
import FpgaLearning.Compiler.Lexer
import FpgaLearning.Compiler.Linking
import FpgaLearning.Compiler.Listing
import FpgaLearning.Compiler.Machine
import FpgaLearning.Compiler.Main
import FpgaLearning.Compiler.Meaning
import FpgaLearning.Compiler.Moves
import FpgaLearning.Compiler.OnProcessor
import FpgaLearning.Compiler.Parser
import FpgaLearning.Compiler.Resolution
import FpgaLearning.Compiler.Scopes
import FpgaLearning.Compiler.Statements
import FpgaLearning.Compiler.Syntax
import FpgaLearning.Compiler.VariableAllocator
import FpgaLearning.Compiler.Visitor
import FpgaLearning.Core.Clocked
import FpgaLearning.Core.Interaction
import FpgaLearning.Core.Memory
import FpgaLearning.Core.Parsing
import FpgaLearning.Core.PyText
import FpgaLearning.Core.RestoringDivision
import FpgaLearning.Core.Rv32i
import FpgaLearning.Core.Rv32im
import FpgaLearning.Core.Rv32m
import FpgaLearning.Core.SerialLine
import FpgaLearning.Core.Simulation
import FpgaLearning.Core.Traced
import FpgaLearning.Debug.Agreement
import FpgaLearning.Debug.Board
import FpgaLearning.Debug.BusAccess
import FpgaLearning.Debug.BusPauses
import FpgaLearning.Debug.Commands
import FpgaLearning.Debug.Copying
import FpgaLearning.Debug.CoreState
import FpgaLearning.Debug.ErrorPackets
import FpgaLearning.Debug.Execution
import FpgaLearning.Debug.Framing
import FpgaLearning.Debug.HexFile
import FpgaLearning.Debug.Host
import FpgaLearning.Debug.Hosted
import FpgaLearning.Debug.Invariant
import FpgaLearning.Debug.Link
import FpgaLearning.Debug.Liveness
import FpgaLearning.Debug.Module
import FpgaLearning.Debug.Protocol
import FpgaLearning.Debug.Recovery
import FpgaLearning.Debug.SerialLink
import FpgaLearning.Debug.SerialPort
import FpgaLearning.Debug.Session
import FpgaLearning.Debug.System
import FpgaLearning.Debug.Throttle
import FpgaLearning.Debug.Tool
import FpgaLearning.Debug.Transactions
import FpgaLearning.Debug.UnitLemmas
import FpgaLearning.Debug.Units
import FpgaLearning.Debug.Upload
import FpgaLearning.Labs.Clock
import FpgaLearning.Labs.TrafficLight
import FpgaLearning.Loader.Replies
import FpgaLearning.Loader.SerialMemory
import FpgaLearning.Loader.UartMemInit
import FpgaLearning.Stack.Isa
import FpgaLearning.Stack.Output
import FpgaLearning.Stack.Processor
import FpgaLearning.Stack.Refinement
import FpgaLearning.Stack.Rounds
import FpgaLearning.Uart.Counters
import FpgaLearning.Uart.Deserializer
import FpgaLearning.Uart.Fifo
import FpgaLearning.Uart.Rs232
import FpgaLearning.Uart.Serializer
