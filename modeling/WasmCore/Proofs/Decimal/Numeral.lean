/-
Numerals are read back.

A row of digits stands for a number; the digits that a number is written with stand for that number, and zeros that fill
it up or are cut off its fraction leave its value. `natural?` and `integer?` read what `toString` writes.
-/
import WasmCore.Decimal.Basic
import Mathlib.Data.List.DropRight
import Mathlib.Tactic.Ring

namespace WasmCore

namespace Numeral

/-! ## Rows of digits -/

theorem value_append (a b : List Char) : value (a ++ b) = value a * 10 ^ b.length + value b := by
  have h : value (a ++ b) = Nat.ofDigitChars 10 b (value a) := Nat.ofDigitChars_append 0
  rw [h, Nat.ofDigitChars_eq_ofDigitChars_zero, Nat.mul_comm]
  rfl

theorem value_toDigits (n : Nat) : value (Nat.toDigits 10 n) = n :=
  Nat.ofDigitChars_ten_toDigits

theorem value_replicate_zero (n : Nat) : value (List.replicate n '0') = 0 :=
  Nat.ofDigitChars_replicate_zero

theorem value_zeroPadded (places : Nat) (digits : List Char) : value (zeroPadded places digits) = value digits := by
  rw [zeroPadded, value_append, value_replicate_zero, Nat.zero_mul, Nat.zero_add]

theorem isDigit_toDigits (n : Nat) : ∀ c ∈ Nat.toDigits 10 n, c.isDigit :=
  fun _ hc => Nat.isDigit_of_mem_toDigits (by decide) (by decide) hc

theorem isDigit_zeroPadded {places : Nat} {digits : List Char} (h : ∀ c ∈ digits, c.isDigit) :
    ∀ c ∈ zeroPadded places digits, c.isDigit := by
  intro c hc
  rcases List.mem_append.1 hc with hc | hc
  · rw [List.eq_of_mem_replicate hc]
    rfl
  · exact h c hc

/-! ## Numbers -/

theorem toList_toString (n : Nat) : (toString n).toList = Nat.toDigits 10 n :=
  Nat.toList_repr

theorem natural?_toDigits (n : Nat) : natural? (Nat.toDigits 10 n) = some n := by
  have hempty : (Nat.toDigits 10 n).isEmpty = false := List.isEmpty_eq_false_iff.2 Nat.toDigits_ne_nil
  have hall : (Nat.toDigits 10 n).all Char.isDigit = true := List.all_eq_true.2 (isDigit_toDigits n)
  rw [natural?, hempty, hall, value_toDigits]
  rfl

/-- a digit is not a sign -/
theorem splitSign_of_digits {cs : List Char} (h : ∀ c ∈ cs, c.isDigit) (rest : List Char) (hne : cs ≠ []) :
    splitSign (cs ++ rest) = (false, cs ++ rest) := by
  obtain ⟨c, cs, rfl⟩ := List.exists_cons_of_ne_nil hne
  have hc : c.isDigit := h c List.mem_cons_self
  rw [List.cons_append, splitSign]
  · rintro more heq
    obtain ⟨rfl, -⟩ := List.cons.inj heq
    cases hc
  · rintro more heq
    obtain ⟨rfl, -⟩ := List.cons.inj heq
    cases hc

theorem integer?_toDigits (n : Nat) : integer? (Nat.toDigits 10 n) = some (n : Int) := by
  have hsign := splitSign_of_digits (isDigit_toDigits n) [] Nat.toDigits_ne_nil
  rw [List.append_nil] at hsign
  simp only [integer?, hsign, natural?_toDigits]
  rfl

theorem integer?_minus_toDigits (n : Nat) : integer? ('-' :: Nat.toDigits 10 n) = some (-(n : Int)) := by
  simp only [integer?, splitSign, natural?_toDigits]
  rfl

theorem integer?_toString (z : Int) : integer? (toString z).toList = some z := by
  have hminus : "-".toList = ['-'] := rfl
  rw [Int.toString_eq_repr, Int.repr_eq_if]
  split
  next h =>
    rw [Nat.toList_repr, integer?_toDigits, Int.toNat_of_nonneg h]
  next h =>
    rw [String.toList_append, Nat.toList_repr, hminus, List.singleton_append, integer?_minus_toDigits,
      Int.toNat_of_nonneg (by omega), Int.neg_neg]

/-! ## Fractions -/

/-- zeros cut off the end are made up for by the power of ten -/
theorem value_rdropWhile_zero (cs : List Char) :
    value (cs.rdropWhile (· == '0')) * 10 ^ cs.length = value cs * 10 ^ (cs.rdropWhile (· == '0')).length := by
  induction cs using List.reverseRecOn with
  | nil => rfl
  | append_singleton cs c ih =>
    rw [List.rdropWhile_concat]
    split
    next hc =>
      rw [eq_of_beq hc, value_append, List.length_append, List.length_singleton, Nat.pow_succ, ← Nat.mul_assoc, ih]
      simp only [value, List.foldl_cons, List.foldl_nil, Char.reduceToNat, Nat.sub_self]
      ring
    · rfl

end Numeral

namespace Decimal

open Numeral

theorem fractionText_eq (places n : Nat) :
    fractionText places n = (zeroPadded places (Nat.toDigits 10 n)).rdropWhile (· == '0') :=
  rfl

theorem isDigit_fractionText (places n : Nat) : ∀ c ∈ fractionText places n, c.isDigit := by
  intro c hc
  exact isDigit_zeroPadded (isDigit_toDigits n) c ((List.rdropWhile_prefix _ _).subset hc)

/-- the digits after the point stand for the fraction -/
theorem value_fractionText {places n : Nat} (h : n < 10 ^ places) :
    value (fractionText places n) * 10 ^ places = n * 10 ^ (fractionText places n).length := by
  rcases Nat.eq_zero_or_pos places with rfl | hplaces
  · obtain rfl : n = 0 := by omega
    rfl
  have hlength : (zeroPadded places (Nat.toDigits 10 n)).length = places := by
    have : (Nat.toDigits 10 n).length ≤ places := (Nat.length_toDigits_le_iff (by decide) hplaces).2 h
    rw [zeroPadded, List.length_append, List.length_replicate]
    omega
  have hcut := value_rdropWhile_zero (zeroPadded places (Nat.toDigits 10 n))
  rwa [hlength, value_zeroPadded, value_toDigits, ← fractionText_eq] at hcut

end Decimal

end WasmCore
