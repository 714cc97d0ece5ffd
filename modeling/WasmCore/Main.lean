/-
The program: reads the file that the command line names, and prints the report.
-/
import WasmCore.CommandLine.Report

namespace WasmCore.CommandLine

/-- steps after which a run is given up; more than any computer takes -/
def patience : Nat := 1000000000000000000

/-- texts of the errors that opening a file meets, by their numbers -/
def systemText? : Nat → Option String
  | 2 => some "No such file or directory"
  | 13 => some "Permission denied"
  | 20 => some "Not a directory"
  | 21 => some "Is a directory"
  | 36 => some "File name too long"
  | _ => none

/-- the number of an error, which may come with a minus sign -/
def errorNumber? : IO.Error → Option Nat
  | .noFileOrDirectory _ code _ | .permissionDenied _ code _ | .inappropriateType _ code _
  | .invalidArgument _ code _ => some (min code.toNat (UInt32.size - code.toNat))
  | _ => none

/-- the system's reason for an error -/
def reason (e : IO.Error) : String :=
  let known := do
    let n ← errorNumber? e
    let text ← systemText? n
    return s!"{text} (os error {n})"
  known.getD (toString e)

def contentsOf (file : String) : IO Contents := do
  try
    return .ok (← IO.FS.readBinFile file).toList
  catch e =>
    return .error (reason e)

def reportOn (args : List String) : IO Report := do
  match Request.ofArguments? args with
  | none => return .refusal
  | some .version => return .version
  | some (.command command) =>
    let contents ← contentsOf command.input.file
    return (Report.ofCommand patience contents command).getD ⟨1, "", "Error: out of steps\n"⟩

end WasmCore.CommandLine

open WasmCore.CommandLine in
/-- prints the report on a command line and exits with its status -/
def main (args : List String) : IO UInt32 := do
  let report ← reportOn args
  IO.print report.output
  IO.eprint report.errors
  return UInt32.ofNat report.status
