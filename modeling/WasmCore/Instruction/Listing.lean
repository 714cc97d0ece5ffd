/-
The text of a body: one instruction a line, nested bodies indented by two blanks and closed by `end`. The second body of an
`if` stands after a line `else`, which is left out together with an empty body.
-/
import WasmCore.Instruction.Basic

namespace WasmCore

/-- what follows the name of a block instruction -/
def BlockType.suffix : BlockType → String
  | empty => ""
  | value t => " (result " ++ t.name ++ ")"

def MemArg.suffix (m : MemArg) : String :=
  s!" align={m.align} offset={m.offset}"

namespace Instr

/-- the first line of the instruction -/
def headline : Instr → String
  | unreachable => "unreachable"
  | nop => "nop"
  | ret => "return"
  | drop => "drop"
  | select => "select"
  | const v => v.type.name ++ ".const " ++ v.numberText
  | unary op => op.name
  | binary op => op.name
  | load op m => op.name ++ m.suffix
  | store op m => op.name ++ m.suffix
  | memorySize => "memory.size"
  | memoryGrow => "memory.grow"
  | localGet i => s!"local.get {i}"
  | localSet i => s!"local.set {i}"
  | localTee i => s!"local.tee {i}"
  | globalGet i => s!"global.get {i}"
  | globalSet i => s!"global.set {i}"
  | call i => s!"call {i}"
  | callIndirect typeIndex tableIndex => s!"call_indirect type={typeIndex} table={tableIndex}"
  | block t _ => "block" ++ t.suffix
  | loop t _ => "loop" ++ t.suffix
  | ite t _ _ => "if" ++ t.suffix
  | br d => s!"br {d}"
  | brIf d => s!"br_if {d}"
  | brTable targets fallback => String.join ("br_table" :: (targets ++ [fallback]).map fun d => s!" {d}")

/-- one level deeper -/
def indent (line : String) : String :=
  "  " ++ line

mutual

/-- the lines of the instruction -/
def lines (i : Instr) : List String :=
  match i with
  | block _ body => i.headline :: ((linesOf body).map indent ++ ["end"])
  | loop _ body => i.headline :: ((linesOf body).map indent ++ ["end"])
  | ite _ body otherwise =>
    let second := if otherwise.isEmpty then [] else "else" :: (linesOf otherwise).map indent
    i.headline :: ((linesOf body).map indent ++ second ++ ["end"])
  | _ => [i.headline]

/-- the lines of a body -/
def linesOf : List Instr → List String
  | [] => []
  | i :: rest => lines i ++ linesOf rest

end

/-- the text of a body, every line ended -/
def listing (body : List Instr) : String :=
  String.join ((linesOf body).map (· ++ "\n"))

end Instr

end WasmCore
