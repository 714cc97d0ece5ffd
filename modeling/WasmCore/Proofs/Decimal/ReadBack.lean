/-
What is written is read back.

`Decimal.toFloat` rounds the rational number that a decimal stands for, its cut-offs included (`toFloat_eq`), so decimals
of one value and sign are one floating-point number. The text of a decimal is read as a decimal of that value, and
`shortest` writes a decimal that rounds to the number it was made from. Together: every value but a NaN is read back
from its text, bit for bit (`Val.parse?_numberText`).
-/
import WasmCore.Proofs.Decimal.Numeral
import WasmCore.Proofs.Float.Rounding
import WasmCore.Value
import Mathlib.Data.Nat.Cast.Field

namespace WasmCore

open Numeral

/-! ## The value of a decimal -/

theorem ten_zpow_eq_div (e : Int) : (10 : ℚ) ^ e = (powTen e.toNat : Nat) / (powTen (-e).toNat : Nat) :=
  zpow_eq_div 10 e

theorem powTen_pos (n : Nat) : 0 < powTen n :=
  Nat.pow_pos (by decide)

theorem decimalRatio_eq (n : Nat) (k : Int) : ((decimalRatio n k).1 : ℚ) / (decimalRatio n k).2 = n * 10 ^ k := by
  rw [ten_zpow_eq_div, decimalRatio, Nat.cast_mul, mul_div_assoc]

namespace Decimal

variable {w : Width}

/-- the number without its sign -/
def value (d : Decimal) : ℚ :=
  d.digits * 10 ^ d.exponent

/-- the horizon lies beyond the range of the wider format, in both directions -/
theorem two_pow_lt_horizon : (2 : ℚ) ^ 1075 < 10 ^ 400 := by
  have h : 2 ^ 1075 < 10 ^ 400 := by decide +kernel
  exact_mod_cast h

/-- what is cut off as too large is infinite -/
theorem huge_of_horizon_lt {d : Decimal} (hd : d.digits ≠ 0) (h : horizon < d.exponent) :
    2 ^ (1024 : Int) ≤ d.value := by
  have hdigits : (1 : ℚ) ≤ d.digits := by exact_mod_cast Nat.one_le_iff_ne_zero.2 hd
  calc (2 : ℚ) ^ (1024 : Int) ≤ 2 ^ (1075 : Int) := zpow_le_zpow_right₀ (by norm_num) (by decide)
    _ ≤ 10 ^ (400 : Int) := by exact_mod_cast two_pow_lt_horizon.le
    _ ≤ 10 ^ d.exponent := zpow_le_zpow_right₀ (by norm_num) h.le
    _ ≤ d.digits * 10 ^ d.exponent := le_mul_of_one_le_left (by positivity) hdigits

/-- what is cut off as too small is nearest to zero -/
theorem tiny_of_lt_horizon {d : Decimal} (h : d.exponent + d.digits.log2 + 1 < -horizon) :
    d.value < 2 ^ (-1075 : Int) := by
  have hdigits : (d.digits : ℚ) < 10 ^ (d.digits.log2 + 1) := by
    refine lt_of_lt_of_le (by exact_mod_cast Nat.lt_log2_self) (pow_le_pow_left₀ two_pos.le ?_ _)
    norm_num
  have hten : (0 : ℚ) < 10 ^ d.exponent := by positivity
  calc d.value < 10 ^ (d.digits.log2 + 1) * 10 ^ d.exponent := mul_lt_mul_of_pos_right hdigits hten
    _ = 10 ^ (d.exponent + d.digits.log2 + 1) := by
      rw [← zpow_natCast, ← zpow_add₀ (by norm_num), add_comm, Nat.cast_succ, add_assoc]
    _ ≤ 10 ^ (-400 : Int) := zpow_le_zpow_right₀ (by norm_num) h.le
    _ < 2 ^ (-1075 : Int) := by
      rw [zpow_neg, zpow_neg]
      exact inv_strictAnti₀ (by positivity) (by exact_mod_cast two_pow_lt_horizon)

/-- **A decimal is rounded by its value.** The cut-offs only spare the reader large powers. -/
theorem toFloat_eq (d : Decimal) : d.toFloat w = .ofRational w d.negative d.value := by
  have hnonneg : 0 ≤ d.value := by rw [value]; positivity
  rw [toFloat]
  split
  next h =>
    rw [FloatBits.ofRational, value, h, Nat.cast_zero, zero_mul, FloatBits.magnitudeNear, if_pos rfl]
    rfl
  next hd =>
  split
  next h => rw [FloatBits.ofRational, FloatBits.magnitudeNear_huge (huge_of_horizon_lt hd h)]; rfl
  split
  next h => rw [FloatBits.ofRational, FloatBits.magnitudeNear_tiny hnonneg (tiny_of_lt_horizon h)]; rfl
  next =>
    have hvalue : ((decimalRatio d.digits d.exponent).1 / (decimalRatio d.digits d.exponent).2 : ℚ) = d.value :=
      decimalRatio_eq d.digits d.exponent
    exact hvalue ▸ FloatBits.ofRatio_eq d.negative (powTen_pos _)

/-! ## The text of a decimal -/

/-- digits with or without a point and more digits -/
def positional (whole fraction : List Char) : List Char :=
  whole ++ if fraction.isEmpty then [] else '.' :: fraction

theorem unsigned?_positional {whole fraction : List Char} (hne : whole ≠ []) (hwhole : ∀ c ∈ whole, c.isDigit)
    (hfraction : ∀ c ∈ fraction, c.isDigit) :
    unsigned? (positional whole fraction) =
      some ⟨false, Numeral.value (whole ++ fraction), -(fraction.length : Int)⟩ := by
  have hempty : whole.isEmpty = false := List.isEmpty_eq_false_iff.2 hne
  cases fraction with
  | nil =>
    have htake : whole.takeWhile Char.isDigit = whole := List.takeWhile_eq_self_iff.2 hwhole
    have hdrop : whole.dropWhile Char.isDigit = [] := List.dropWhile_eq_nil_iff.2 hwhole
    simp [unsigned?, positional, htake, hdrop, hempty, exponent?]
  | cons c cs =>
    have htake : (whole ++ '.' :: c :: cs).takeWhile Char.isDigit = whole := by
      rw [List.takeWhile_append_of_pos hwhole, List.takeWhile_cons_of_neg (by decide), List.append_nil]
    have hdrop : (whole ++ '.' :: c :: cs).dropWhile Char.isDigit = '.' :: c :: cs := by
      rw [List.dropWhile_append_of_pos hwhole, List.dropWhile_cons_of_neg (by decide)]
    have htake' : (c :: cs).takeWhile Char.isDigit = c :: cs := List.takeWhile_eq_self_iff.2 hfraction
    have hdrop' : (c :: cs).dropWhile Char.isDigit = [] := List.dropWhile_eq_nil_iff.2 hfraction
    simp only [unsigned?, positional, List.isEmpty_cons, Bool.false_eq_true, if_false, htake, hdrop, htake', hdrop',
      hempty, Bool.false_and, exponent?, Option.map_some, zero_sub]

/-- the digits on both sides of the point stand for the whole and its fraction -/
theorem value_positional {q r places : Nat} {fraction : List Char}
    (h : Numeral.value fraction * 10 ^ places = r * 10 ^ fraction.length) :
    (Numeral.value (Nat.toDigits 10 q ++ fraction) : ℚ) * 10 ^ (-(fraction.length : Int)) = q + r / 10 ^ places := by
  have hfraction : (Numeral.value fraction : ℚ) / 10 ^ fraction.length = r / 10 ^ places := by
    rw [div_eq_div_iff (by positivity) (by positivity)]
    exact_mod_cast h
  rw [value_append, value_toDigits, Nat.cast_add, Nat.cast_mul, Nat.cast_pow, Nat.cast_ofNat, zpow_neg, zpow_natCast,
    ← div_eq_mul_inv, add_div, hfraction, mul_div_cancel_right₀ _ (by positivity)]

/-- the digits of the text, in two parts, with the number that they stand for -/
theorem text_parts (d : Decimal) : ∃ whole fraction : List Char, whole ≠ [] ∧ (∀ c ∈ whole, c.isDigit) ∧
    (∀ c ∈ fraction, c.isDigit) ∧ d.text.toList = (if d.negative then ['-'] else []) ++ positional whole fraction ∧
    (Numeral.value (whole ++ fraction) : ℚ) * 10 ^ (-(fraction.length : Int)) = d.value := by
  obtain ⟨num, den, hratio⟩ : ∃ num den, decimalRatio d.digits d.exponent = (num, den) := ⟨_, _, rfl⟩
  have hden : den = 10 ^ (-d.exponent).toNat := (congrArg Prod.snd hratio).symm
  have hpos : 0 < den := hden ▸ Nat.pow_pos (by decide)
  refine ⟨Nat.toDigits 10 (num / den), fractionText (-d.exponent).toNat (num % den), Nat.toDigits_ne_nil,
    isDigit_toDigits _, isDigit_fractionText _ _, ?_, ?_⟩
  · have hminus : "-".toList = ['-'] := rfl
    have hpoint (cs : List Char) : ("." ++ String.ofList cs).toList = '.' :: cs := by
      rw [String.toList_append, String.toList_ofList (l := cs)]
      rfl
    simp only [text, hratio]
    rw [positional, String.toList_append, String.toList_append, toList_toString, List.append_assoc,
      apply_ite String.toList, hminus, apply_ite String.toList, hpoint, String.toList_empty]
  · have hlt : num % den < 10 ^ (-d.exponent).toNat := hden ▸ Nat.mod_lt num hpos
    have hnum : (num : ℚ) = (num / den : Nat) * den + (num % den : Nat) := by
      exact_mod_cast (Nat.div_add_mod' num den).symm
    have hvalue : d.value = num / den := by
      have := decimalRatio_eq d.digits d.exponent
      rw [hratio] at this
      exact this.symm
    have hden₀ : (den : ℚ) ≠ 0 := by exact_mod_cast hpos.ne'
    have hten : ((10 : ℚ) ^ (-d.exponent).toNat) = den := by rw [hden, Nat.cast_pow, Nat.cast_ofNat]
    rw [value_positional (value_fractionText hlt), hvalue, hten, eq_div_iff hden₀, add_mul, div_mul_cancel₀ _ hden₀, hnum]

end Decimal

/-! ## Reading the text -/

namespace FloatBits

variable {w : Width}

theorem toLower_of_isDigit {c : Char} (h : c.isDigit = true) : c.toLower = c := by
  have h' : c.val ≤ '9'.val := by
    simp only [Char.isDigit, Bool.and_eq_true, decide_eq_true_iff] at h
    exact h.2
  have hletter : ¬ (c.val ≥ 'A'.val ∧ c.val ≤ 'Z'.val) :=
    fun hA => absurd (UInt32.le_trans hA.1 h') (by decide)
  exact dif_neg hletter

/-- a text that starts with a digit is none of the names -/
theorem isNamed_of_digits {cs : List Char} (h : ∀ c ∈ cs, c.isDigit) (rest : List Char) (hne : cs ≠ []) {names : List String}
    (hnames : ∀ name ∈ names, name.toList.head?.all (!·.isDigit)) : isNamed (cs ++ rest) names = false := by
  obtain ⟨c, cs, rfl⟩ := List.exists_cons_of_ne_nil hne
  have hc : c.isDigit = true := h c List.mem_cons_self
  refine Bool.eq_false_iff.2 fun hmem => ?_
  have hname := hnames _ (List.contains_iff_mem.1 hmem)
  simp [toLower_of_isDigit hc, hc] at hname

end FloatBits

/-- the text of a decimal is read as its number -/
theorem Decimal.parse?_text (w : Width) (d : Decimal) : FloatBits.parse? w d.text = some (d.toFloat w) := by
  obtain ⟨whole, fraction, hne, hdigits, hfraction, htext, hvalue⟩ := d.text_parts
  have hsign : splitSign d.text.toList = (d.negative, positional whole fraction) := by
    rw [htext]
    cases d.negative with
    | true => rfl
    | false => exact splitSign_of_digits hdigits _ hne
  have hinf : FloatBits.isNamed (positional whole fraction) ["inf", "infinity"] = false :=
    FloatBits.isNamed_of_digits hdigits _ hne (by decide)
  have hnan : FloatBits.isNamed (positional whole fraction) ["nan"] = false :=
    FloatBits.isNamed_of_digits hdigits _ hne (by decide)
  simp only [FloatBits.parse?, hsign, hinf, hnan, Bool.false_eq_true, if_false,
    unsigned?_positional hne hdigits hfraction, Option.map_some, toFloat_eq, Decimal.value, hvalue]

/-! ## The shortest text -/

namespace FloatBits

/-- all digits of a number stand for that number -/
theorem exactDecimal_value (s : Bool) (m : Nat) (e : Int) : (exactDecimal s m e).value = m * 2 ^ e := by
  obtain ⟨num, den, hratio⟩ : ∃ num den, dyadicRatio m e = (num, den) := ⟨_, _, rfl⟩
  have hvalue := dyadicRatio_eq m e
  have hden : den = 1 <<< (-e).toNat := (congrArg Prod.snd hratio).symm
  -- ten to a power is a multiple of two to the same power, so the division is exact
  have hdvd : den ∣ powTen (-e).toNat := by
    rw [hden, Nat.shiftLeft_eq, Nat.one_mul]
    exact pow_dvd_pow_of_dvd (by decide) _
  have hpos : 0 < den := Nat.pos_of_dvd_of_pos hdvd (powTen_pos _)
  have hexponent : min e 0 = -((-e).toNat : Int) := by omega
  have hten : (powTen (-e).toNat : ℚ) = 10 ^ (-e).toNat := Nat.cast_pow 10 _
  simp only [hratio] at hvalue
  simp only [exactDecimal, hratio, Decimal.value]
  rw [Nat.cast_div (dvd_mul_of_dvd_right hdvd num) (by exact_mod_cast hpos.ne'), Nat.cast_mul, hten, hexponent, zpow_neg,
    zpow_natCast, mul_div_right_comm, mul_inv_cancel_right₀ (by positivity), hvalue]

/-- what is written with the fewest digits is read as the number -/
theorem shortest_toFloat {x : FloatBits w} {s : Bool} {m : Nat} {e : Int} (hx : x.datum = .finite s m e) :
    (shortest x s m e).toFloat w = x := by
  simp only [shortest]
  cases hfound : (List.range enoughDigits).findSome? fun (n : Nat) => (neighbours s (dyadicRatio m e).1 (dyadicRatio m e).2
      (floorLogTen (dyadicRatio m e).1 (dyadicRatio m e).2 - n)).find? fun (d : Decimal) => d.toFloat w == x with
  | some d =>
    obtain ⟨n, -, hn⟩ := List.exists_of_findSome?_eq_some hfound
    exact eq_of_beq (List.find?_some (p := fun (d : Decimal) => d.toFloat w == x) hn)
  | none =>
    rw [Option.getD_none, Decimal.toFloat_eq, exactDecimal_value]
    exact ofRational_datum hx

/-- **Floating-point numbers are read back.** -/
theorem parse?_text (x : FloatBits w) (hx : x.isNaN = false) : parse? w x.text = some x := by
  rw [text]
  split
  next h => rw [isNaN_of_datum h] at hx; cases hx
  next s h =>
    rw [eq_infinity_of_datum h]
    cases s <;> rfl
  next s m e h =>
    split
    next hm =>
      have hzero : x = ofRational w s 0 := by
        rw [← ofRational_datum h, hm, Nat.cast_zero, zero_mul]
      have htext : (if s then "-0" else "0") = (⟨s, 0, 0⟩ : Decimal).text := by cases s <;> rfl
      rw [htext, Decimal.parse?_text, Decimal.toFloat_eq, Decimal.value, Nat.cast_zero, zero_mul, hzero]
    next hm => rw [Decimal.parse?_text, shortest_toFloat h]

end FloatBits

/-! ## Values -/

namespace Val

/-- the value is a NaN, whatever its payload -/
def isNaN : Val → Bool
  | ⟨.int _, _⟩ => false
  | ⟨.float _, b⟩ => FloatBits.isNaN b

theorem ofInt?_toInt {w : Width} (b : BitVec w.bits) : ofInt? w b.toInt = some ⟨.int w, b⟩ := by
  rw [ofInt?, if_pos (Signedness.inRange_toInt b), BitVec.ofInt_toInt]

/-- **Values are read back.** Every value but a NaN is read from the text of its number, bit for bit. -/
theorem parse?_numberText (v : Val) (hv : v.isNaN = false) : parse? v.type v.numberText = some v := by
  obtain ⟨t, b⟩ := v
  cases t with
  | int w => exact (congrArg (Option.bind · (ofInt? w)) (integer?_toString b.toInt)).trans (ofInt?_toInt b)
  | float w => exact congrArg (Option.map _) (FloatBits.parse?_text b hv)

end Val

end WasmCore
