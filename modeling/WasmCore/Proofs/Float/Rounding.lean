/-
Rounding depends on the number alone.

`nearestMagnitude` computes with numerator and denominator; `magnitudeNear` is the same rounding of the rational number
that these stand for. Two ratios of one number therefore round alike (`nearestMagnitude_eq`), a representable number
rounds to itself (`ofRational_value`), and what is far outside the range of either width becomes zero or infinite.
-/
import WasmCore.Float.Rounding
import Mathlib.Algebra.Order.Field.Power
import Mathlib.Algebra.Order.Floor.Semifield
import Mathlib.Data.Int.Log
import Mathlib.Data.Rat.Floor
import Mathlib.Tactic.FieldSimp
import Mathlib.Tactic.Linarith
import Mathlib.Tactic.NormNum
import Mathlib.Tactic.Positivity
import Mathlib.Tactic.Ring

namespace WasmCore

/-! ## Powers -/

/-- a power with an exponent of either sign, as the quotient of two powers -/
theorem zpow_eq_div (b : Nat) (e : Int) : (b : ℚ) ^ e = (b ^ e.toNat : Nat) / (b ^ (-e).toNat : Nat) := by
  rcases le_total 0 e with h | h
  · obtain ⟨n, rfl⟩ := Int.eq_ofNat_of_zero_le h
    simp
  · obtain ⟨n, hn⟩ := Int.eq_ofNat_of_zero_le (Int.neg_nonneg_of_nonpos h)
    obtain rfl : e = -(n : Int) := by omega
    simp

theorem two_zpow_eq_div (e : Int) : (2 : ℚ) ^ e = (2 ^ e.toNat : Nat) / (2 ^ (-e).toNat : Nat) :=
  zpow_eq_div 2 e

theorem powTwoLe_iff {e : Int} {num den : Nat} (hden : 0 < den) :
    powTwoLe e num den = true ↔ (2 : ℚ) ^ e ≤ num / den := by
  have hd : (0 : ℚ) < den := by exact_mod_cast hden
  have hp : (0 : ℚ) < (2 ^ (-e).toNat : Nat) := by positivity
  rw [two_zpow_eq_div, div_le_div_iff₀ hp hd, powTwoLe, decide_eq_true_iff, Nat.shiftLeft_eq, Nat.shiftLeft_eq,
    Nat.mul_comm den]
  exact_mod_cast Iff.rfl

theorem dyadicRatio_eq (m : Nat) (e : Int) :
    ((dyadicRatio m e).1 : ℚ) / (dyadicRatio m e).2 = m * 2 ^ e := by
  rw [two_zpow_eq_div, dyadicRatio, Nat.shiftLeft_eq, Nat.shiftLeft_eq, Nat.one_mul]
  push_cast
  ring

theorem dyadicRatio_den_pos (m : Nat) (e : Int) : 0 < (dyadicRatio m e).2 := by
  rw [dyadicRatio]
  exact Nat.pos_of_ne_zero (by simp [Nat.shiftLeft_eq])

/-! ## The leading bit -/

/-- the exponent of the leading bit is determined by the powers on either side -/
theorem log_two_eq {r : ℚ} {e : Int} (hr : 0 < r) (hlo : 2 ^ e ≤ r) (hhi : r < 2 ^ (e + 1)) : Int.log 2 r = e := by
  have h₁ := (Int.zpow_le_iff_le_log (b := 2) (by decide) hr).1 (by exact_mod_cast hlo)
  have h₂ := (Int.lt_zpow_iff_log_lt (b := 2) (by decide) hr).1 (by exact_mod_cast hhi)
  omega

theorem log_two_mul {m : Nat} (hm : 0 < m) (e : Int) : Int.log 2 (m * 2 ^ e : ℚ) = m.log2 + e := by
  have hlo : (2 : ℚ) ^ m.log2 ≤ m := by exact_mod_cast Nat.log2_self_le hm.ne'
  have hhi : (m : ℚ) < 2 ^ (m.log2 + 1) := by exact_mod_cast Nat.lt_log2_self
  have he := zpow_pos (zero_lt_two' ℚ) e
  refine log_two_eq (mul_pos (by exact_mod_cast hm) he) ?_ ?_
  · rw [zpow_add₀ two_ne_zero, zpow_natCast]
    exact mul_le_mul_of_nonneg_right hlo he.le
  · rw [add_right_comm, zpow_add₀ two_ne_zero, ← Nat.cast_succ, zpow_natCast]
    exact mul_lt_mul_of_pos_right hhi he

/-- the difference of the two logarithms is right or one too large -/
theorem between_log2 {num den : Nat} (hnum : 0 < num) (hden : 0 < den) :
    (2 : ℚ) ^ ((num.log2 : Int) - den.log2 - 1) ≤ num / den ∧ (num / den : ℚ) < 2 ^ ((num.log2 : Int) - den.log2 + 1) := by
  have hn : (2 : ℚ) ^ num.log2 ≤ num := by exact_mod_cast Nat.log2_self_le hnum.ne'
  have hn' : (num : ℚ) < 2 ^ (num.log2 + 1) := by exact_mod_cast Nat.lt_log2_self
  have hd : (2 : ℚ) ^ den.log2 ≤ den := by exact_mod_cast Nat.log2_self_le hden.ne'
  have hd' : (den : ℚ) < 2 ^ (den.log2 + 1) := by exact_mod_cast Nat.lt_log2_self
  have hd₀ : (0 : ℚ) < den := by exact_mod_cast hden
  constructor
  · rw [sub_sub, zpow_sub₀ (by norm_num), ← Nat.cast_succ, zpow_natCast, zpow_natCast]
    exact div_le_div₀ (by positivity) hn hd₀ hd'.le
  · rw [sub_add_eq_add_sub, zpow_sub₀ (by norm_num), ← Nat.cast_succ, zpow_natCast, zpow_natCast]
    exact div_lt_div₀ hn' hd (by positivity) (by positivity)

theorem floorLogTwo_eq {num den : Nat} (hnum : 0 < num) (hden : 0 < den) :
    floorLogTwo num den = Int.log 2 (num / den : ℚ) := by
  have hr : (0 : ℚ) < num / den := by positivity
  obtain ⟨hlo, hhi⟩ := between_log2 hnum hden
  rw [floorLogTwo]
  by_cases h : powTwoLe ((num.log2 : Int) - den.log2) num den = true
  · rw [if_pos h]
    exact (log_two_eq hr ((powTwoLe_iff hden).1 h) hhi).symm
  · rw [if_neg h]
    rw [powTwoLe_iff hden, not_le] at h
    exact (log_two_eq hr hlo (by rwa [sub_add_cancel])).symm

/-! ## The nearest natural number -/

/-- the natural number nearest to `r`, of two of them the even one -/
def nearestEven (r : ℚ) : Nat :=
  if 1 / 2 < r - ⌊r⌋₊ ∨ (r - ⌊r⌋₊ = 1 / 2 ∧ ⌊r⌋₊ % 2 = 1) then ⌊r⌋₊ + 1 else ⌊r⌋₊

/-- what a division with remainder leaves of the quotient -/
theorem div_sub_div (num : Nat) {den : Nat} (hden : 0 < den) : (num / den : ℚ) - (num / den : Nat) = (num % den : Nat) / den := by
  have hd : (den : ℚ) ≠ 0 := by exact_mod_cast hden.ne'
  rw [sub_eq_iff_eq_add, div_add' _ _ _ hd, div_left_inj' hd]
  exact_mod_cast (Nat.mod_add_div' num den).symm

theorem divNearestEven_eq {num den : Nat} (hden : 0 < den) : divNearestEven num den = nearestEven (num / den) := by
  have hd : (0 : ℚ) < den := by exact_mod_cast hden
  have hrest := div_sub_div num hden
  have hlt : (1 / 2 : ℚ) < (num % den : Nat) / den ↔ den < 2 * (num % den) := by
    rw [div_lt_div_iff₀ two_pos hd, one_mul, mul_comm]
    exact_mod_cast Iff.rfl
  have heq : ((num % den : Nat) / den : ℚ) = 1 / 2 ↔ 2 * (num % den) = den := by
    rw [div_eq_div_iff hd.ne' two_ne_zero, one_mul, mul_comm]
    exact_mod_cast Iff.rfl
  simp only [divNearestEven, nearestEven, Nat.floor_div_eq_div, hrest, hlt, heq]

@[simp] theorem nearestEven_natCast (n : Nat) : nearestEven n = n := by
  rw [nearestEven, Nat.floor_natCast, sub_self, if_neg]
  norm_num

theorem le_nearestEven {r : ℚ} {n : Nat} (h : n ≤ r) : n ≤ nearestEven r := by
  have : n ≤ ⌊r⌋₊ := Nat.le_floor h
  rw [nearestEven]
  split
  · exact Nat.le_succ_of_le this
  · exact this

theorem nearestEven_eq_zero {r : ℚ} (h : r < 1 / 2) : nearestEven r = 0 := by
  have hfloor : ⌊r⌋₊ = 0 := Nat.floor_eq_zero.2 (by linarith)
  rw [nearestEven, hfloor, if_neg]
  rw [Nat.cast_zero, sub_zero]
  rintro (h' | ⟨-, h'⟩)
  · linarith
  · cases h'

/-! ## The formats -/

namespace Width

theorem leadingBit_eq (w : Width) : w.leadingBit = 2 ^ w.fractionBits := by
  cases w <;> rfl

theorem leadingBit_pos (w : Width) : 0 < w.leadingBit := by
  cases w <;> decide

theorem highBit_eq (w : Width) : w.highBit = (w.topField + 1) * w.leadingBit := by
  cases w <;> rfl

theorem highBit_eq_pow (w : Width) : w.highBit = 2 ^ (w.bits - 1) := by
  cases w <;> rfl

theorem two_mul_highBit (w : Width) : 2 * w.highBit = 2 ^ w.bits := by
  cases w <;> rfl

/-- the largest finite number of either format is below two to this power -/
theorem topField_le (w : Width) : (w.topField : Int) ≤ 1025 - w.fractionBits - w.minExponent := by
  cases w <;> decide

end Width

namespace FloatBits

variable {w : Width}

/-- exponent of the last place of the number nearest to `r` -/
def placeNear (w : Width) (r : ℚ) : Int :=
  max (Int.log 2 r - w.fractionBits) w.minExponent

/-- the magnitude of the number nearest to `r`; what is too large becomes infinite -/
def magnitudeNear (w : Width) (r : ℚ) : Nat :=
  if r = 0 then 0
  else min ((placeNear w r - w.minExponent).toNat * w.leadingBit + nearestEven (r / 2 ^ placeNear w r)) w.infinity

/-- the number nearest to plus or minus `r` -/
def ofRational (w : Width) (negative : Bool) (r : ℚ) : FloatBits w :=
  ofMagnitude w negative (magnitudeNear w r)

/-- rounding depends on the number that a ratio stands for, not on its terms -/
theorem nearestMagnitude_eq (w : Width) {num den : Nat} (hden : 0 < den) :
    nearestMagnitude w num den = magnitudeNear w (num / den) := by
  rcases Nat.eq_zero_or_pos num with rfl | hnum
  · simp [nearestMagnitude, magnitudeNear]
  have hr : (num / den : ℚ) ≠ 0 := by positivity
  have hplace : lastPlace w num den = placeNear w (num / den) := by
    rw [lastPlace, floorLogTwo_eq hnum hden, placeNear]
  have hunits (e : Int) : divNearestEven (num <<< (-e).toNat) (den <<< e.toNat) = nearestEven (num / den / 2 ^ e) := by
    rw [Nat.shiftLeft_eq, Nat.shiftLeft_eq, divNearestEven_eq (by positivity), two_zpow_eq_div]
    push_cast
    rw [div_div_div_eq]
  simp only [nearestMagnitude, if_neg hnum.ne', magnitudeNear, if_neg hr, hplace, hunits]

theorem ofRatio_eq (s : Bool) {num den : Nat} (hden : 0 < den) : ofRatio w s num den = ofRational w s (num / den) := by
  rw [ofRatio, nearestMagnitude_eq w hden, ofRational]

/-! ## Out of range -/

theorem magnitudeNear_tiny {r : ℚ} (h₀ : 0 ≤ r) (h : r < 2 ^ (-1075 : Int)) : magnitudeNear w r = 0 := by
  rcases h₀.eq_or_lt with rfl | hr
  · rw [magnitudeNear, if_pos rfl]
  have hlog : Int.log 2 r < -1075 := (Int.lt_zpow_iff_log_lt (b := 2) (by decide) hr).1 (by exact_mod_cast h)
  have hmin : -1074 ≤ w.minExponent := by cases w <;> decide
  have hplace : placeNear w r = w.minExponent := max_eq_right (by omega)
  have hsmall : r / 2 ^ w.minExponent < 1 / 2 := by
    rw [div_lt_iff₀ (zpow_pos (zero_lt_two' ℚ) _)]
    calc r < 2 ^ (-1075 : Int) := h
      _ ≤ 2 ^ (-1 + w.minExponent) := zpow_le_zpow_right₀ (by norm_num) (by omega)
      _ = 1 / 2 * 2 ^ w.minExponent := by rw [zpow_add₀ two_ne_zero, zpow_neg_one, one_div]
  rw [magnitudeNear, if_neg hr.ne', hplace, sub_self, Int.toNat_zero, Nat.zero_mul, Nat.zero_add,
    nearestEven_eq_zero hsmall, Nat.zero_min]

theorem magnitudeNear_huge {r : ℚ} (h : 2 ^ (1024 : Int) ≤ r) : magnitudeNear w r = w.infinity := by
  have hr : 0 < r := lt_of_lt_of_le (zpow_pos (zero_lt_two' ℚ) _) h
  have hlog : 1024 ≤ Int.log 2 r := (Int.zpow_le_iff_le_log (b := 2) (by decide) hr).1 (by exact_mod_cast h)
  have htop := w.topField_le
  have hmin : w.minExponent + w.fractionBits ≤ 1024 := by cases w <;> decide
  have hplace : placeNear w r = Int.log 2 r - w.fractionBits := max_eq_left (by omega)
  -- the number has a leading one as many places above the last as the format stores
  have hunits : w.leadingBit ≤ nearestEven (r / 2 ^ placeNear w r) := by
    refine le_nearestEven ?_
    rw [le_div_iff₀ (zpow_pos (zero_lt_two' ℚ) _), hplace, w.leadingBit_eq, Nat.cast_pow, Nat.cast_ofNat, ← zpow_natCast,
      ← zpow_add₀ two_ne_zero, add_sub_cancel]
    exact_mod_cast Int.zpow_log_le_self (b := 2) (by decide) hr
  have hfield : w.topField ≤ (placeNear w r - w.minExponent).toNat + 1 := by omega
  rw [magnitudeNear, if_neg hr.ne', min_eq_right]
  calc w.infinity ≤ ((placeNear w r - w.minExponent).toNat + 1) * w.leadingBit := Nat.mul_le_mul_right _ hfield
    _ = (placeNear w r - w.minExponent).toNat * w.leadingBit + w.leadingBit := Nat.succ_mul _ _
    _ ≤ _ := Nat.add_le_add_left hunits _

/-! ## Representable numbers -/

theorem ofMagnitude_magnitude (x : FloatBits w) : ofMagnitude w x.negative x.magnitude = x := by
  have hlt : x.toNat < 2 * w.highBit := by
    have := x.isLt
    rwa [w.two_mul_highBit]
  apply BitVec.eq_of_toNat_eq
  rw [ofMagnitude, BitVec.toNat_ofNat, ← w.two_mul_highBit, negative, BitVec.msb_eq_decide, ← w.highBit_eq_pow,
    magnitude]
  by_cases h : w.highBit ≤ x.toNat
  · have hmod : x.toNat % w.highBit = x.toNat - w.highBit := by
      rw [Nat.mod_eq_sub_mod h, Nat.mod_eq_of_lt (by omega)]
    rw [decide_eq_true h, if_pos rfl, hmod, Nat.add_sub_cancel' h, Nat.mod_eq_of_lt hlt]
  · rw [decide_eq_false h, if_neg Bool.false_ne_true, Nat.mod_eq_of_lt (Nat.not_le.1 h), Nat.mod_eq_of_lt hlt]

/-- what is not finite has all ones in the exponent field -/
theorem isNaN_of_datum {x : FloatBits w} (hx : x.datum = .nan) : x.isNaN = true := by
  have hsplit := Nat.div_add_mod x.magnitude w.leadingBit
  unfold datum at hx
  dsimp only at hx
  split at hx
  next hfield =>
    split at hx
    next => cases hx
    next hfraction =>
      rw [hfield, Nat.mul_comm] at hsplit
      refine decide_eq_true ?_
      rw [Width.infinity]
      omega
  next => split at hx <;> cases hx

theorem eq_infinity_of_datum {x : FloatBits w} {s : Bool} (hx : x.datum = .infinite s) : x = infinity w s := by
  have hsplit := Nat.div_add_mod x.magnitude w.leadingBit
  unfold datum at hx
  dsimp only at hx
  split at hx
  next hfield =>
    split at hx
    next hfraction =>
      cases hx
      rw [hfield, hfraction, Nat.add_zero, Nat.mul_comm] at hsplit
      rw [infinity, Width.infinity, hsplit, ofMagnitude_magnitude]
    next => cases hx
  next => split at hx <;> cases hx

/-- What a finite pattern holds: `k` steps above the lowest exponent, the significand is added to `k` leading bits, and
below the lowest exponent of a normal number there is only `k = 0`. -/
structure Stored (x : FloatBits w) (m : Nat) (k : Nat) : Prop where
  magnitude : x.magnitude = k * w.leadingBit + m
  finite : x.magnitude < w.infinity
  upper : m < 2 * w.leadingBit
  lower : k = 0 ∨ w.leadingBit ≤ m

theorem datum_eq_finite {x : FloatBits w} {s : Bool} {m : Nat} {e : Int} (hx : x.datum = .finite s m e) :
    s = x.negative ∧ ∃ k : Nat, e = w.minExponent + k ∧ Stored x m k := by
  have hpos := w.leadingBit_pos
  have hsplit := Nat.div_add_mod x.magnitude w.leadingBit
  have hfraction := Nat.mod_lt x.magnitude hpos
  have htop : x.magnitude / w.leadingBit ≤ w.topField := by
    have hlt : x.magnitude < w.highBit := Nat.mod_lt _ (by cases w <;> decide)
    rw [w.highBit_eq] at hlt
    exact Nat.le_of_lt_succ (Nat.div_lt_of_lt_mul (by rwa [Nat.mul_comm]))
  unfold datum at hx
  dsimp only at hx
  split at hx
  · split at hx <;> cases hx
  next hinf =>
  have hfinite : x.magnitude < w.infinity := by
    exact Nat.lt_mul_of_div_lt (by omega) hpos
  split at hx
  next hfield =>
    cases hx
    rw [hfield, Nat.mul_zero, Nat.zero_add] at hsplit
    exact ⟨rfl, 0, (Int.add_zero _).symm, by rw [hsplit, Nat.zero_mul, Nat.zero_add], hfinite, by omega, .inl rfl⟩
  next hfield =>
    obtain ⟨k, hk⟩ := Nat.exists_eq_succ_of_ne_zero hfield
    rw [hk] at hx hsplit
    cases hx
    refine ⟨rfl, k, by omega, ?_, hfinite, by omega, .inr (Nat.le_add_right _ _)⟩
    rw [← Nat.add_assoc, ← Nat.succ_mul, Nat.mul_comm]
    exact hsplit.symm

theorem placeNear_of_stored {x : FloatBits w} {m k : Nat} (h : Stored x m k) (hm : 0 < m) :
    placeNear w (m * 2 ^ (w.minExponent + k)) = w.minExponent + k := by
  have hupper : m.log2 < w.fractionBits + 1 := by
    rw [Nat.log2_lt hm.ne', Nat.pow_succ, ← w.leadingBit_eq, Nat.mul_comm]
    exact h.upper
  rw [placeNear, log_two_mul hm]
  rcases h.lower with rfl | hlower
  · exact (max_eq_right (by omega)).trans (by simp)
  · have : w.fractionBits ≤ m.log2 := (Nat.le_log2 hm.ne').2 (w.leadingBit_eq ▸ hlower)
    rw [max_eq_left (by omega)]
    omega

/-- a number of the format rounds to itself -/
theorem magnitudeNear_datum {x : FloatBits w} {s : Bool} {m : Nat} {e : Int} (hx : x.datum = .finite s m e) :
    magnitudeNear w (m * 2 ^ e) = x.magnitude := by
  obtain ⟨-, k, rfl, h⟩ := datum_eq_finite hx
  rcases Nat.eq_zero_or_pos m with rfl | hm
  · have hk : k = 0 := h.lower.resolve_right (Nat.not_le.2 w.leadingBit_pos)
    rw [Nat.cast_zero, zero_mul, magnitudeNear, if_pos rfl, h.magnitude, hk, Nat.zero_mul]
  have hm₀ : (0 : ℚ) < m := by exact_mod_cast hm
  rw [magnitudeNear, if_neg (mul_pos hm₀ (zpow_pos (zero_lt_two' ℚ) _)).ne', placeNear_of_stored h hm,
    mul_div_cancel_right₀ _ (zpow_pos (zero_lt_two' ℚ) _).ne', nearestEven_natCast, add_sub_cancel_left, Int.toNat_natCast,
    ← h.magnitude, min_eq_left h.finite.le]

theorem ofRational_datum {x : FloatBits w} {s : Bool} {m : Nat} {e : Int} (hx : x.datum = .finite s m e) :
    ofRational w s (m * 2 ^ e) = x := by
  rw [ofRational, magnitudeNear_datum hx, (datum_eq_finite hx).1, ofMagnitude_magnitude]

end FloatBits

end WasmCore
