/-
Quoted text in messages: between double quotes, with an escape for whatever would not show as it is.
-/
import WasmCore.Text.Numeral
import WasmCore.Text.Printable

namespace WasmCore.Quoted

/-- the number of a character between braces -/
def numbered (c : Char) : String :=
  "\\u\x7b" ++ Numeral.hex 1 c.toNat ++ "\x7d"

/-- a character within quotes -/
def escape (c : Char) : String :=
  if c == '"' || c == '\\' then String.ofList ['\\', c]
  else if c == '\n' then "\\n"
  else if c == '\r' then "\\r"
  else if c == '\t' then "\\t"
  else if c.toNat == 0 then "\\0"
  else if Printable.isHidden c then numbered c
  else c.toString

def text (s : String) : String :=
  "\"" ++ String.join (s.toList.map escape) ++ "\""

end WasmCore.Quoted
