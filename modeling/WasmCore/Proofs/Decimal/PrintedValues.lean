/-
Printed values.

A value is printed as its type and its number, and the number is read back as the value, bit for bit, unless it is a NaN
(`Decimal.ReadBack`). For integers more is said here: a text is read as an integer exactly if it is a row of decimal digits
for that integer, with a sign before it or without (`Numeral.Denotes`), so all that is refused is what denotes no integer, or
one that the type does not have.
-/
import Mathlib.Algebra.BigOperators.Fin
import WasmCore.Proofs.Decimal.ReadBack
import WasmCore.Proofs.Operator.Words

namespace WasmCore

/-! ## Rows of digits -/

namespace Numeral

/-- each digit counts ten times as much as the one after it -/
def digitSum (digits : List Char) : Nat :=
  ∑ i : Fin digits.length, (digits[i].toNat - '0'.toNat) * 10 ^ (digits.length - 1 - i)

/-- one or more ASCII digits -/
structure Digits (digits : List Char) : Prop where
  nonempty : digits ≠ []
  each : ∀ c ∈ digits, c.isDigit

/-- the text is a numeral for the integer -/
inductive Denotes : List Char → Int → Prop
  | plain {digits : List Char} (h : Digits digits) : Denotes digits (digitSum digits)
  | plus {digits : List Char} (h : Digits digits) : Denotes ('+' :: digits) (digitSum digits)
  | minus {digits : List Char} (h : Digits digits) : Denotes ('-' :: digits) (-(digitSum digits : Int))

theorem value_eq_digitSum (digits : List Char) : value digits = digitSum digits := by
  induction digits with
  | nil => rfl
  | cons c cs ih =>
    have hcons : value (c :: cs) = (c.toNat - '0'.toNat) * 10 ^ cs.length + value cs := by
      rw [← List.singleton_append, value_append]
      simp [value]
    have hrest (i : Fin cs.length) : cs.length - (i + 1) = cs.length - 1 - i := by omega
    rw [hcons, ih, digitSum, digitSum]
    simp only [List.length_cons, Fin.sum_univ_succ, Fin.val_zero, Fin.val_succ, Fin.getElem_fin, List.getElem_cons_zero,
      List.getElem_cons_succ, Nat.add_sub_cancel, Nat.sub_zero, hrest]

theorem digits_iff {cs : List Char} : Digits cs ↔ (cs.isEmpty || !cs.all Char.isDigit) = false := by
  rw [Bool.or_eq_false_iff, Bool.not_eq_false', List.isEmpty_eq_false_iff, List.all_eq_true]
  exact ⟨fun h => ⟨h.nonempty, h.each⟩, fun h => ⟨h.1, h.2⟩⟩

theorem natural?_eq_some_iff {cs : List Char} {n : Nat} : natural? cs = some n ↔ Digits cs ∧ digitSum cs = n := by
  rw [natural?, digits_iff, value_eq_digitSum]
  cases cs.isEmpty || !cs.all Char.isDigit <;> simp

/-- a sign is no digit -/
theorem splitSign_digits {cs : List Char} (h : Digits cs) : splitSign cs = (false, cs) := by
  have hsign := splitSign_of_digits h.each [] h.nonempty
  rwa [List.append_nil] at hsign

theorem integer?_eq (cs : List Char) : integer? cs =
    (natural? (splitSign cs).2).map fun (n : Nat) => if (splitSign cs).1 then -(n : Int) else (n : Int) := by
  unfold integer?
  obtain ⟨negative, digits⟩ := splitSign cs
  dsimp only
  cases natural? digits <;> rfl

/-- **Integers are read from their numerals**, and from nothing else -/
theorem integer?_eq_some_iff {cs : List Char} {k : Int} : integer? cs = some k ↔ Denotes cs k := by
  constructor
  · intro h
    rw [integer?_eq, Option.map_eq_some_iff] at h
    obtain ⟨n, hn, rfl⟩ := h
    obtain ⟨hdigits, rfl⟩ := natural?_eq_some_iff.1 hn
    -- the digits are what follows the sign, if there is one
    revert hdigits
    unfold splitSign
    split
    · exact .minus
    · exact .plus
    · exact .plain
  · intro h
    rw [integer?_eq]
    cases h with
    | plain h => simp only [splitSign_digits h, natural?_eq_some_iff.2 ⟨h, rfl⟩]; rfl
    | plus h => simp only [splitSign, natural?_eq_some_iff.2 ⟨h, rfl⟩]; rfl
    | minus h => simp only [splitSign, natural?_eq_some_iff.2 ⟨h, rfl⟩]; rfl

end Numeral

/-! ## Values -/

namespace Val

open Numeral (Denotes)

variable {w : Width} {text : String}

theorem inRange_signed_iff {k : Int} :
    Signedness.signed.inRange w k = true ↔ -2 ^ (w.bits - 1) ≤ k ∧ k < 2 ^ (w.bits - 1) := by
  rw [Signedness.inRange_iff]
  cases w <;> simp only [Signedness.lowest, Signedness.highest, Width.highBit, Width.bits] <;> omega

theorem ofInt?_eq_some_iff {k : Int} {b : BitVec w.bits} : ofInt? w k = some ⟨.int w, b⟩ ↔ b.toInt = k := by
  constructor
  · intro h
    unfold ofInt? at h
    split at h
    · rename_i hrange
      cases h
      exact Signedness.read_ofInt hrange
    · cases h
  · rintro rfl
    exact ofInt?_toInt b

/-- an integer is read exactly from the numerals for it -/
theorem parse?_int_iff {b : BitVec w.bits} : parse? (.int w) text = some ⟨.int w, b⟩ ↔ Denotes text.toList b.toInt := by
  simp only [parse?, Option.bind_eq_some_iff, ofInt?_eq_some_iff, Numeral.integer?_eq_some_iff]
  exact ⟨fun ⟨k, hk, hb⟩ => hb ▸ hk, fun h => ⟨_, h, rfl⟩⟩

/-- what denotes no integer of the range is refused, and nothing else -/
theorem parse?_int_eq_none_iff :
    parse? (.int w) text = none ↔ ∀ k, Denotes text.toList k → k < -2 ^ (w.bits - 1) ∨ 2 ^ (w.bits - 1) ≤ k := by
  simp only [parse?, Option.bind_eq_none_iff, Numeral.integer?_eq_some_iff, ofInt?]
  refine forall₂_congr fun k _ => ?_
  rw [ite_eq_right_iff, inRange_signed_iff]
  simp only [reduceCtorEq, imp_false]
  omega

/-- what is read has the type that was asked for -/
theorem type_of_parse? {t : ValType} {v : Val} (h : parse? t text = some v) : v.type = t := by
  cases t with
  | int w =>
    obtain ⟨k, -, hk⟩ := Option.bind_eq_some_iff.1 h
    unfold ofInt? at hk
    split at hk
    · cases hk
      rfl
    · cases hk
  | float w =>
    obtain ⟨b, -, rfl⟩ := Option.map_eq_some_iff.1 h
    rfl

/-- **Printed values parse back.** Every value but a NaN is printed as its type, a colon and a text from which the same bits
are read, as a value of that type: both zeros, the infinities, the subnormal numbers and the extremes of the integers among
them. An integer is read from a text exactly if the text is a numeral for it; so a text is refused exactly if it is a numeral
for no integer, or for one out of the range of the type. -/
theorem printed_values :
    (∀ v : Val, v.isNaN = false →
      v.text = v.type.name ++ ":" ++ v.numberText ∧ parse? v.type v.numberText = some v) ∧
    (∀ t text v, parse? t text = some v → v.type = t) ∧
    (∀ (w : Width) (text : String) (b : BitVec w.bits),
      parse? (.int w) text = some ⟨.int w, b⟩ ↔ Denotes text.toList b.toInt) ∧
    ∀ (w : Width) (text : String), parse? (.int w) text = none ↔
      ∀ k, Denotes text.toList k → k < -2 ^ (w.bits - 1) ∨ 2 ^ (w.bits - 1) ≤ k :=
  ⟨fun v hv => ⟨rfl, parse?_numberText v hv⟩, fun _ _ _ => type_of_parse?, fun _ _ _ => parse?_int_iff,
    fun _ _ => parse?_int_eq_none_iff⟩

/-- Negative zero and the least number of 64 bits are printed and read back, and so are the least subnormal number and
infinity; the integer below the least one is a numeral and refused. -/
theorem printed_values_extremes :
    ((f32 0x80000000).text = "f32:-0" ∧ parse? .f32 "-0" = some (f32 0x80000000)) ∧
    ((i64 (BitVec.intMin 64)).text = "i64:-9223372036854775808" ∧
      parse? .i64 "-9223372036854775808" = some (i64 (BitVec.intMin 64))) ∧
    parse? .f64 (f64 1).numberText = some (f64 1) ∧ parse? .f32 "inf" = some (f32 0x7F800000) ∧
    parse? .i64 "-9223372036854775809" = none := by
  obtain ⟨hback, -, -, hnone⟩ := printed_values
  refine ⟨⟨by decide, (hback (f32 0x80000000) (by decide)).2⟩, ⟨by decide, (hback (i64 (BitVec.intMin 64)) rfl).2⟩,
    (hback (f64 1) (by decide)).2, (hback (f32 0x7F800000) (by decide)).2, ?_⟩
  refine (hnone .w64 _).2 fun k hk => .inl ?_
  have hread : Numeral.integer? "-9223372036854775809".toList = some (-9223372036854775809) := by decide
  rw [Numeral.integer?_eq_some_iff.2 hk] at hread
  cases hread
  decide

end Val

end WasmCore
