import WasmCore.Main
import WasmCore.Machine.Basic
import WasmCore.Machine.Flat
import WasmCore.Module
import WasmCore.Memory
import WasmCore.Binary.Body
import WasmCore.Instruction.Listing
import WasmCore.Operator.Eval
import WasmCore.Value
import WasmCore.Decimal.Shortest
import WasmCore.Float.Arithmetic
import WasmCore.Float.Integral
import WasmCore.Float.Order
import WasmCore.Proofs.StackCells
import WasmCore.Proofs.StackCapacity
import WasmCore.Proofs.Exec
import WasmCore.Proofs.Primitives
import WasmCore.Proofs.Effects
import WasmCore.Proofs.Entry
import WasmCore.Proofs.Steps
import WasmCore.Proofs.Resolve
import WasmCore.Proofs.Typing.Rules
import WasmCore.Proofs.Typing.Value
import WasmCore.Proofs.Typing.Instruction
import WasmCore.Proofs.Typing.Control
import WasmCore.Proofs.Typing.Run
import WasmCore.Proofs.Typing.Soundness
import WasmCore.Proofs.Typing.Dangling
import WasmCore.Proofs.Typing.Embedded
import WasmCore.Proofs.Typing.FailedCalls
import WasmCore.Proofs.Typing.Activations
import WasmCore.Proofs.Typing.StaticTypes
import WasmCore.Proofs.Typing.CanonicalCells
import WasmCore.Proofs.Structured.Evaluator
import WasmCore.Proofs.Structured.Simulation
import WasmCore.Proofs.Structured.Agreement
import WasmCore.Proofs.Structured.CallPaths
import WasmCore.Proofs.Structured.IndirectCalls
import WasmCore.Proofs.Structured.ControlStack
import WasmCore.Proofs.Structured.Scoping
import WasmCore.Proofs.Structured.FlatStack
import WasmCore.Proofs.Structured.CallerEntries
import WasmCore.Proofs.Structured.FlatScoping
import WasmCore.Proofs.Structured.StackRewriting
import WasmCore.Proofs.Isolation.Instruction
import WasmCore.Proofs.Isolation.Run
import WasmCore.Proofs.Isolation.Invocation
import WasmCore.Proofs.Isolation.AnyCode
import WasmCore.Proofs.Isolation.InvokedStack
import WasmCore.Proofs.Isolation.Callers
import WasmCore.Proofs.Embedding.Requests
import WasmCore.Proofs.Embedding.SizeLimits
import WasmCore.Proofs.Embedding.CallDepth
import WasmCore.Proofs.Embedding.Operations
import WasmCore.Proofs.Embedding.CallLimit
import WasmCore.Proofs.Embedding.StackRoom
import WasmCore.Proofs.Embedding.CallLevel
import WasmCore.Proofs.Embedding.Building
import WasmCore.Proofs.Boundary.ArgumentCells
import WasmCore.Proofs.Boundary.Forwarding
import WasmCore.Proofs.Termination.LoopFree
import WasmCore.Proofs.Termination.Requests
import WasmCore.Proofs.Format.Grammar
import WasmCore.Proofs.Format.Reads
import WasmCore.Proofs.Format.Instruction
import WasmCore.Proofs.Format.Body
import WasmCore.Proofs.Format.Encoder
import WasmCore.Proofs.Format.Integers
import WasmCore.Proofs.Format.Window
import WasmCore.Proofs.Format.CodeEntry
import WasmCore.Proofs.Format.Errors
import WasmCore.Proofs.Format.Levels
import WasmCore.Proofs.Format.History
import WasmCore.Proofs.Format.Consecutive
import WasmCore.Proofs.Format.Scan
import WasmCore.Proofs.Format.Extent
import WasmCore.Proofs.Trapping.Effects
import WasmCore.Proofs.Trapping.Requests
import WasmCore.Proofs.Trapping.Sites
import WasmCore.Proofs.Memory.ByteMap
import WasmCore.Proofs.Memory.StoreLoad
import WasmCore.Proofs.Memory.Image
import WasmCore.Proofs.Operator.Integers
import WasmCore.Proofs.Operator.Truncation
import WasmCore.Proofs.Float.Nearest
import WasmCore.Proofs.Listing.Unambiguous
import WasmCore.Proofs.Decimal.PrintedValues
