/-
What the commands print.

Before `run` looks at the file it checks the type names, then the number of arguments, then each argument. A failure is
reported on the error output; if something lies behind it (a trap behind a failed run, the system's message behind an
unreadable file), that is named as its cause.
-/
import WasmCore.CommandLine.Arguments
import WasmCore.Instruction.Listing
import WasmCore.Machine.Basic
import WasmCore.Text.Quoted

namespace WasmCore.CommandLine

/-- exit status and output of a command -/
structure Report where
  status : Nat
  output : String
  errors : String
deriving DecidableEq

/-- why a command failed -/
structure Failure where
  message : String
  cause : Option String
deriving DecidableEq

namespace Failure

def plain (message : String) : Failure :=
  ⟨message, none⟩

def ofDecode (e : DecodeError) : Failure :=
  plain e.message

def ofExec (e : ExecError) : Failure :=
  ⟨e.message, some e.trap.message⟩

def text (f : Failure) : String :=
  let cause :=
    match f.cause with
    | none => ""
    | some c => s!"\nCaused by:\n    {c}\n"
  s!"Error: {f.message}\n" ++ cause

end Failure

/-- the contents of a file, or the system's reason why they cannot be read -/
abbrev Contents := Except String (List UInt8)

def typeOfName (name : String) : Except Failure ValType :=
  match ValType.ofName? name with
  | some t => .ok t
  | none => .error (.plain s!"unknown value type {Quoted.text name}")

def argument (t : ValType) (text : String) : Except Failure Val :=
  match Val.parse? t text with
  | some v => .ok v
  | none => .error (.plain s!"cannot parse {Quoted.text text} as {t.name}")

/-- the body in the file, with its locals -/
def decode (input : Input) (contents : Contents) : Except Failure CodeEntry := do
  let bytes ← contents.mapError fun reason => ⟨s!"cannot read {input.file}", some reason⟩
  if input.entry then (decodeCodeEntry bytes).mapError .ofDecode
  else (decodeBody bytes).mapError .ofDecode |>.map fun body => ⟨[], body⟩

def disassemble (input : Input) (contents : Contents) : Except Failure String := do
  let entry ← decode input contents
  let locals := if entry.locals.isEmpty then "" else s!"(local {FuncType.names entry.locals})\n"
  return locals ++ Instr.listing entry.body

/-- one line for every result -/
def resultLines (vs : List Val) : String :=
  if vs.isEmpty then "(no results)\n" else String.join (vs.map fun v => v.text ++ "\n")

/-- the module whose only function is the body in the file -/
def moduleOf (type : FuncType) (entry : CodeEntry) (pages : Nat) : Module :=
  let (index, m) := { Module.empty with pages }.addFunction (.guest "main" type entry.locals entry.body)
  m.addExport "main" index

/-- runs the body; answers nothing if it takes more than `fuel` steps -/
def execute (fuel : Nat) (input : Input) (options : RunOptions) (contents : Contents) :
    Except Failure (Option (Except Failure String)) := do
  let type : FuncType := ⟨← options.params.mapM typeOfName, ← options.results.mapM typeOfName⟩
  if options.args.length ≠ type.params.length then
    throw (.plain s!"expected {type.params.length} arguments for {type.text}, got {options.args.length}")
  let args ← (type.params.zip options.args).mapM fun (t, text) => argument t text
  let entry ← decode input contents
  let limits := { Limits.default with maxMemoryPages := options.maxPages }
  let machine ← (Machine.instantiate (moduleOf type entry options.pages) limits).mapError
    fun t => .plain t.message
  return (machine.invoke fuel "main" args).map fun (result, _) =>
    (result.mapError .ofExec).map resultLines

namespace Report

def ofResult : Except Failure String → Report
  | .ok output => ⟨0, output, ""⟩
  | .error f => ⟨1, "", f.text⟩

def usage : String :=
  "usage: disasm <file> [--entry]\n" ++
    "       run <file> [--entry] [--params <types>] [--results <types>] [--pages <n>] [--max-pages <n>] [args...]\n"

/-- the answer to a command line that is none -/
def refusal : Report :=
  ⟨2, "", usage⟩

/-- the answer to a request for the version -/
def version : Report :=
  ⟨0, "lumenc 0.1.0\n", ""⟩

/-- the report on a command, whose file has the given contents; nothing if `fuel` steps do not suffice -/
def ofCommand (fuel : Nat) (contents : Contents) : Command → Option Report
  | .disasm input => some (ofResult (disassemble input contents))
  | .run input options =>
    match execute fuel input options contents with
    | .error f => some (ofResult (.error f))
    | .ok none => none
    | .ok (some result) => some (ofResult result)

end Report

end WasmCore.CommandLine
