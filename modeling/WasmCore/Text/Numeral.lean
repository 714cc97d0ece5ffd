/-
Numerals in decimal and hexadecimal notation.

A numeral is one or more ASCII digits; an integer may have one sign before it. Nothing else is accepted: no blanks, no
digit separators, no other scripts.
-/
namespace WasmCore.Numeral

/-- the number that a row of digits stands for -/
def value (digits : List Char) : Nat :=
  digits.foldl (fun n c => 10 * n + (c.toNat - '0'.toNat)) 0

def natural? (cs : List Char) : Option Nat :=
  if cs.isEmpty || !cs.all Char.isDigit then none else some (value cs)

/-- a natural number that may have a plus sign before it -/
def unsigned? (cs : List Char) : Option Nat :=
  match cs with
  | '+' :: rest => natural? rest
  | _ => natural? cs

/-- takes one sign off: whether it was a minus, and what follows -/
def splitSign (cs : List Char) : Bool × List Char :=
  match cs with
  | '-' :: rest => (true, rest)
  | '+' :: rest => (false, rest)
  | _ => (false, cs)

def integer? (cs : List Char) : Option Int :=
  let (negative, digits) := splitSign cs
  (natural? digits).map fun n => if negative then -(n : Int) else n

/-- fills up with zeros on the left to `width` characters -/
def zeroPadded (width : Nat) (digits : List Char) : List Char :=
  List.replicate (width - digits.length) '0' ++ digits

/-- lower-case hexadecimal digits, at least `width` of them -/
def hex (width n : Nat) : String :=
  String.ofList (zeroPadded width (Nat.toDigits 16 n))

/-- hexadecimal digits after the customary mark -/
def hexMarked (width n : Nat) : String :=
  "0x" ++ hex width n

/-- a byte as it stands in messages -/
def hexByte (b : UInt8) : String :=
  hexMarked 2 b.toNat

end WasmCore.Numeral
