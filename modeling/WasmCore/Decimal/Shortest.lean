/-
The text of a floating-point number.

A finite number is written with the fewest digits that read back to it; of two such decimals the nearer one, and of two
equally near ones the larger. "Reads back" is tested with the reader itself, so what is written always reads back. An
infinity is `inf`; a NaN is `NaN` without a sign, although the reader accepts one.
-/
import WasmCore.Decimal.Basic

namespace WasmCore

/-- `10 ^ k ≤ num / den` -/
def powTenLe (k : Int) (num den : Nat) : Bool :=
  den * powTen k.toNat ≤ num * powTen (-k).toNat

/-- the exponent of the leading decimal digit of `num / den`, for positive operands -/
def floorLogTen (num den : Nat) : Int :=
  let estimate := (floorLogTwo num den * 30103).fdiv 100000
  if powTenLe (estimate + 1) num den then estimate + 1 else estimate

namespace FloatBits

variable {w : Width}

/-- `m * 2 ^ e` with all its digits -/
def exactDecimal (s : Bool) (m : Nat) (e : Int) : Decimal :=
  let (num, den) := dyadicRatio m e
  ⟨s, num * powTen (-e).toNat / den, min e 0⟩

/-- the two decimals next to `num / den` that are multiples of `10 ^ place`, the nearer one first -/
def neighbours (s : Bool) (num den : Nat) (place : Int) : List Decimal :=
  let num := num * powTen (-place).toNat
  let den := den * powTen place.toNat
  let lower : Decimal := ⟨s, num / den, place⟩
  let upper : Decimal := ⟨s, num / den + 1, place⟩
  if den ≤ 2 * (num % den) then [upper, lower] else [lower, upper]

/-- as many digits as any number of either width needs -/
def enoughDigits : Nat := 17

/-- the shortest decimal that reads back to `x`, which is plus or minus `m * 2 ^ e` -/
def shortest (x : FloatBits w) (s : Bool) (m : Nat) (e : Int) : Decimal :=
  let (num, den) := dyadicRatio m e
  let leading := floorLogTen num den
  let found := (List.range enoughDigits).findSome? fun (n : Nat) =>
    (neighbours s num den (leading - n)).find? fun d => d.toFloat w == x
  found.getD (exactDecimal s m e)

/-- the number in decimal notation -/
def text (x : FloatBits w) : String :=
  match x.datum with
  | .nan => "NaN"
  | .infinite s => if s then "-inf" else "inf"
  | .finite s m e => if m = 0 then if s then "-0" else "0" else (shortest x s m e).text

/-- whether the text is one of the names, upper and lower case alike -/
def isNamed (cs : List Char) (names : List String) : Bool :=
  names.contains (String.ofList (cs.map Char.toLower))

/-- the number nearest to the one the text denotes; the names of infinity and NaN take a sign too -/
def parse? (w : Width) (text : String) : Option (FloatBits w) :=
  let (s, cs) := Numeral.splitSign text.toList
  if isNamed cs ["inf", "infinity"] then some (infinity w s)
  else if isNamed cs ["nan"] then some (canonicalNaN w s)
  else (Decimal.unsigned? cs).map fun d => { d with negative := s }.toFloat w

end FloatBits

end WasmCore
