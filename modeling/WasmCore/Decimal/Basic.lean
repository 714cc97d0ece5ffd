/-
Decimal numbers and their text.

A `Decimal` is an exact number with a finite decimal expansion. It is written positionally, never with an exponent, and
read with an optional exponent. `Decimal.toFloat` is the one way from decimal text to a floating-point number.
-/
import WasmCore.Float.Rounding
import WasmCore.Text.Numeral

namespace WasmCore

/-- ten to a power -/
def powTen (n : Nat) : Nat :=
  Nat.pow 10 n

/-- numerator and denominator of `n * 10 ^ k` -/
def decimalRatio (n : Nat) (k : Int) : Nat × Nat :=
  (n * powTen k.toNat, powTen (-k).toNat)

/-- plus or minus `digits * 10 ^ exponent` -/
structure Decimal where
  negative : Bool
  digits : Nat
  exponent : Int
deriving DecidableEq, Repr

namespace Decimal

/-! ## Value -/

/-- beyond ten to this power every number is infinite, below its inverse every number is zero, in both widths -/
def horizon : Int := 400

/-- the nearest floating-point number -/
def toFloat (w : Width) (d : Decimal) : FloatBits w :=
  if d.digits = 0 then .zero w d.negative
  else if horizon < d.exponent then .infinity w d.negative
  else if d.exponent + d.digits.log2 + 1 < -horizon then .zero w d.negative
  else
    let (num, den) := decimalRatio d.digits d.exponent
    .ofRatio w d.negative num den

/-! ## Writing -/

/-- digits after the point, without the zeros at their end -/
def fractionText (places n : Nat) : List Char :=
  ((Numeral.zeroPadded places (Nat.toDigits 10 n)).reverse.dropWhile (· == '0')).reverse

/-- positional notation, with a point only before a fraction -/
def text (d : Decimal) : String :=
  let (num, den) := decimalRatio d.digits d.exponent
  let fraction := fractionText (-d.exponent).toNat (num % den)
  (if d.negative then "-" else "") ++ toString (num / den) ++
    if fraction.isEmpty then "" else "." ++ String.ofList fraction

/-! ## Reading -/

/-- an exponent mark with its integer, or nothing -/
def exponent? (cs : List Char) : Option Int :=
  match cs with
  | [] => some 0
  | c :: rest => if c == 'e' || c == 'E' then Numeral.integer? rest else none

/-- digits with an optional point among them and an optional exponent after them -/
def unsigned? (cs : List Char) : Option Decimal :=
  let whole := cs.takeWhile Char.isDigit
  let afterWhole := cs.dropWhile Char.isDigit
  let (fraction, rest) : List Char × List Char :=
    match afterWhole with
    | '.' :: more => (more.takeWhile Char.isDigit, more.dropWhile Char.isDigit)
    | _ => ([], afterWhole)
  if whole.isEmpty && fraction.isEmpty then none
  else (exponent? rest).map fun e => ⟨false, Numeral.value (whole ++ fraction), e - fraction.length⟩

end Decimal

end WasmCore
