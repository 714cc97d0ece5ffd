/-
Exact numbers.

`x.Represents s r` says that the pattern `x` is the number `r` under the sign `s`; sign and number determine the pattern
(`Represents.unique`). A number is `Representable` if it has few enough binary digits at a place of the format. Rounding
such a number gives a pattern of it, so an operation whose exact result is representable loses nothing: this is what
sums, differences and remainders of patterns come to below, and every rounding to integers.
-/
import WasmCore.Float.Integral
import WasmCore.Proofs.Float.Rounding

namespace WasmCore

namespace Width

theorem highBit_pos (w : Width) : 0 < w.highBit := by
  cases w <;> decide

theorem infinity_lt_highBit (w : Width) : w.infinity < w.highBit := by
  cases w <;> decide

theorem infinity_pos (w : Width) : 0 < w.infinity := by
  cases w <;> decide

theorem two_le_topField (w : Width) : 2 ≤ w.topField := by
  cases w <;> decide

theorem minExponent_neg (w : Width) : w.minExponent < 0 := by
  cases w <;> decide

/-- one is far from the highest place of either format -/
theorem one_lt_maxExponent (w : Width) : 1 < w.minExponent + (w.topField - 1) := by
  cases w <;> decide

end Width

/-- a number under a sign -/
def signed (s : Bool) (r : ℚ) : ℚ :=
  if s then -r else r

@[simp] theorem signed_true (r : ℚ) : signed true r = -r := rfl

@[simp] theorem signed_false (r : ℚ) : signed false r = r := rfl

@[simp] theorem abs_signed (s : Bool) (r : ℚ) : |signed s r| = |r| := by
  cases s <;> simp

theorem signed_not (s : Bool) (r : ℚ) : signed (!s) r = -signed s r := by
  cases s <;> simp

namespace FloatBits

variable {w : Width} {x y : FloatBits w} {s t : Bool} {r q : ℚ} {m k : Nat}

/-! ## Sign and magnitude -/

theorem magnitude_lt (x : FloatBits w) : x.magnitude < w.highBit :=
  Nat.mod_lt _ w.highBit_pos

theorem toNat_ofMagnitude (s : Bool) (h : m < w.highBit) :
    (ofMagnitude w s m).toNat = if s then w.highBit + m else m := by
  rw [ofMagnitude, BitVec.toNat_ofNat, Nat.mod_eq_of_lt]
  rw [← w.two_mul_highBit]
  split <;> omega

@[simp] theorem magnitude_ofMagnitude (s : Bool) (h : m < w.highBit) : (ofMagnitude w s m).magnitude = m := by
  rw [magnitude, toNat_ofMagnitude s h]
  cases s with
  | false => exact Nat.mod_eq_of_lt h
  | true => rw [if_pos rfl, Nat.add_mod_left, Nat.mod_eq_of_lt h]

@[simp] theorem negative_ofMagnitude (s : Bool) (h : m < w.highBit) : (ofMagnitude w s m).negative = s := by
  rw [negative, BitVec.msb_eq_decide, ← w.highBit_eq_pow, toNat_ofMagnitude s h]
  cases s with
  | false => exact decide_eq_false (Nat.not_le.2 h)
  | true => exact decide_eq_true (Nat.le_add_right _ _)

theorem magnitude_abs (x : FloatBits w) : x.abs.magnitude = x.magnitude :=
  magnitude_ofMagnitude _ x.magnitude_lt

theorem magnitude_neg (x : FloatBits w) : (neg x).magnitude = x.magnitude :=
  magnitude_ofMagnitude _ x.magnitude_lt

theorem negative_neg (x : FloatBits w) : (neg x).negative = !x.negative :=
  negative_ofMagnitude _ x.magnitude_lt

/-- sign and magnitude are all there is to a pattern -/
theorem eq_of_magnitude (hs : x.negative = y.negative) (hm : x.magnitude = y.magnitude) : x = y := by
  rw [← ofMagnitude_magnitude x, ← ofMagnitude_magnitude y, hs, hm]

/-! ## What a pattern stands for -/

theorem datum_of_stored (h : Stored x m k) : x.datum = .finite x.negative m (w.minExponent + k) := by
  have hpos := w.leadingBit_pos
  have hupper := h.upper
  have hfinite := h.finite
  rw [Width.infinity] at hfinite
  unfold datum
  dsimp only
  rw [h.magnitude] at hfinite ⊢
  rcases Nat.lt_or_ge m w.leadingBit with hm | hm
  · -- no leading one, so this is the lowest place
    obtain rfl : k = 0 := h.lower.resolve_right (Nat.not_le.2 hm)
    have htop := w.two_le_topField
    rw [Nat.zero_mul, Nat.zero_add, Nat.div_eq_of_lt hm, Nat.mod_eq_of_lt hm, if_neg (by omega), if_pos rfl,
      Nat.cast_zero, Int.add_zero]
  · obtain ⟨fraction, rfl⟩ := Nat.exists_eq_add_of_le hm
    have hfraction : fraction < w.leadingBit := by omega
    have hsum : k * w.leadingBit + (w.leadingBit + fraction) = w.leadingBit * (k + 1) + fraction := by
      rw [Nat.mul_add, Nat.mul_one, Nat.mul_comm k, Nat.add_assoc]
    have hfield : k + 1 < w.topField := by
      refine Nat.lt_of_mul_lt_mul_left (a := w.leadingBit) ?_
      rw [hsum, Nat.mul_comm w.topField] at hfinite
      omega
    rw [hsum, Nat.mul_add_div hpos, Nat.div_eq_of_lt hfraction, Nat.mul_add_mod, Nat.mod_eq_of_lt hfraction,
      Nat.add_zero, if_neg (by omega), if_neg (by omega)]
    congr 1
    omega

/-- a pattern is a NaN, an infinity, or stores a finite number -/
theorem datum_cases (x : FloatBits w) :
    x.datum = .nan ∧ w.infinity < x.magnitude ∨
    x.datum = .infinite x.negative ∧ x.magnitude = w.infinity ∨
    ∃ m k : Nat, x.datum = .finite x.negative m (w.minExponent + k) ∧ Stored x m k := by
  cases hx : x.datum with
  | nan => exact .inl ⟨rfl, of_decide_eq_true (isNaN_of_datum hx)⟩
  | infinite s =>
    have heq := eq_infinity_of_datum hx
    have hneg : x.negative = s := by
      rw [heq]
      exact negative_ofMagnitude s w.infinity_lt_highBit
    have hmag : x.magnitude = w.infinity := by
      rw [heq]
      exact magnitude_ofMagnitude s w.infinity_lt_highBit
    exact .inr (.inl ⟨by rw [hneg], hmag⟩)
  | finite s m e =>
    obtain ⟨rfl, k, rfl, hstored⟩ := datum_eq_finite hx
    exact .inr (.inr ⟨m, k, rfl, hstored⟩)

theorem isNaN_iff : x.isNaN = true ↔ x.datum = .nan := by
  refine ⟨fun h => ?_, isNaN_of_datum⟩
  have hlt : w.infinity < x.magnitude := of_decide_eq_true h
  obtain ⟨hx, -⟩ | ⟨-, hmag⟩ | ⟨m, k, -, hstored⟩ := datum_cases x
  · exact hx
  · omega
  · have := hstored.finite
    omega

/-! ## Numbers of patterns -/

/-- the pattern is the number `r` under the sign `s` -/
def Represents (x : FloatBits w) (s : Bool) (r : ℚ) : Prop :=
  ∃ m e, x.datum = .finite s m e ∧ (m * 2 ^ e : ℚ) = r

namespace Represents

theorem of_datum {e : Int} (h : x.datum = .finite s m e) : x.Represents s (m * 2 ^ e) :=
  ⟨m, e, h, rfl⟩

theorem stored (h : x.Represents s r) :
    s = x.negative ∧ ∃ m k : Nat, Stored x m k ∧ r = m * 2 ^ (w.minExponent + k) := by
  obtain ⟨m, e, hx, rfl⟩ := h
  obtain ⟨hs, k, rfl, hstored⟩ := datum_eq_finite hx
  exact ⟨hs, m, k, hstored, rfl⟩

theorem of_stored (h : Stored x m k) : x.Represents x.negative (m * 2 ^ (w.minExponent + k)) :=
  of_datum (datum_of_stored h)

theorem negative (h : x.Represents s r) : x.negative = s :=
  h.stored.1.symm

theorem nonneg (h : x.Represents s r) : 0 ≤ r := by
  obtain ⟨m, e, -, rfl⟩ := h
  have := zpow_pos (zero_lt_two' ℚ) e
  positivity

theorem magnitude_lt (h : x.Represents s r) : x.magnitude < w.infinity := by
  obtain ⟨-, m, k, hstored, -⟩ := h.stored
  exact hstored.finite

theorem isNaN (h : x.Represents s r) : x.isNaN = false :=
  decide_eq_false (Nat.not_lt.2 h.magnitude_lt.le)

theorem isInfinite (h : x.Represents s r) : x.isInfinite = false := by
  rw [FloatBits.isInfinite, beq_eq_false_iff_ne]
  exact h.magnitude_lt.ne

theorem eq_ofRational (h : x.Represents s r) : x = ofRational w s r := by
  obtain ⟨m, e, hx, rfl⟩ := h
  exact (ofRational_datum hx).symm

/-- sign and number determine the pattern -/
theorem unique (hx : x.Represents s r) (hy : y.Represents s r) : x = y :=
  hx.eq_ofRational.trans hy.eq_ofRational.symm

/-- only the sign changes with the sign -/
theorem of_magnitude (hx : x.Represents s r) (hy : y.magnitude = x.magnitude) : y.Represents y.negative r := by
  obtain ⟨-, m, k, hstored, rfl⟩ := hx.stored
  exact of_stored ⟨hy.trans hstored.magnitude, hy ▸ hstored.finite, hstored.upper, hstored.lower⟩

theorem abs (hx : x.Represents s r) : x.abs.Represents false r := by
  have h := hx.of_magnitude (magnitude_abs x)
  rwa [FloatBits.abs, negative_ofMagnitude _ x.magnitude_lt] at h

theorem neg (hx : x.Represents s r) : (neg x).Represents (!s) r := by
  have h := hx.of_magnitude (magnitude_neg x)
  rwa [negative_neg, hx.negative] at h

theorem copysign (hx : x.Represents s r) (y : FloatBits w) : (copysign x y).Represents y.negative r := by
  have h := hx.of_magnitude (y := FloatBits.copysign x y) (magnitude_ofMagnitude _ x.magnitude_lt)
  rwa [FloatBits.copysign, negative_ofMagnitude _ x.magnitude_lt] at h

end Represents

/-! ## Representable numbers -/

theorem mul_two_zpow_natCast (m d : Nat) : (m * 2 ^ (d : Int) : ℚ) = (m * 2 ^ d : Nat) := by
  rw [zpow_natCast]
  push_cast
  rfl

theorem mul_two_zpow_neg (m d : Nat) : (m * 2 ^ (-(d : Int)) : ℚ) = m / (2 ^ d : Nat) := by
  rw [zpow_neg, zpow_natCast, ← div_eq_mul_inv]
  push_cast
  rfl

/-- with a place after the point, the leading digit has one place less to go up -/
theorem mul_two_zpow_lt {e : Int} (hupper : m < 2 * w.leadingBit) (he : e < 0) : (m * 2 ^ e : ℚ) < w.leadingBit := by
  have hm : (m : ℚ) < 2 * w.leadingBit := by exact_mod_cast hupper
  have hpow : (2 : ℚ) ^ e ≤ 2 ^ (-1 : Int) := zpow_le_zpow_right₀ one_le_two (by omega)
  calc (m * 2 ^ e : ℚ) < 2 * w.leadingBit * 2 ^ e := mul_lt_mul_of_pos_right hm (zpow_pos (zero_lt_two' ℚ) e)
    _ ≤ 2 * w.leadingBit * 2 ^ (-1 : Int) := mul_le_mul_of_nonneg_left hpow (by positivity)
    _ = w.leadingBit := by rw [zpow_neg_one]; ring

/-- the number has no more digits than a significand, at a place of the format -/
def Representable (w : Width) (r : ℚ) : Prop :=
  ∃ (m : Nat) (e : Int), m < 2 * w.leadingBit ∧ w.minExponent ≤ e ∧ e < w.minExponent + (w.topField - 1) ∧ r = m * 2 ^ e

theorem Represents.representable (h : x.Represents s r) : Representable w r := by
  obtain ⟨-, m, k, hstored, rfl⟩ := h.stored
  refine ⟨m, w.minExponent + k, hstored.upper, by omega, ?_, rfl⟩
  have hfinite := hstored.finite
  rw [Width.infinity, hstored.magnitude] at hfinite
  rcases hstored.lower with rfl | hlower
  · have := w.two_le_topField
    omega
  · -- the leading one counts for one more step
    have hk : (k + 1) * w.leadingBit < w.topField * w.leadingBit := by
      rw [Nat.succ_mul]
      omega
    have := Nat.lt_of_mul_lt_mul_right hk
    omega

theorem representable_natCast {n : Nat} (h : n ≤ 2 * w.leadingBit) : Representable w n := by
  have hmin := w.minExponent_neg
  have hmax := w.one_lt_maxExponent
  rcases h.lt_or_eq with hlt | rfl
  · exact ⟨n, 0, hlt, by omega, by omega, by simp⟩
  · have hpos := w.leadingBit_pos
    refine ⟨w.leadingBit, 1, by omega, by omega, hmax, ?_⟩
    push_cast
    ring

/-- a power of two beyond one -/
theorem representable_two_pow {n : Nat} (h : (n : Int) < w.minExponent + (w.topField - 1)) : Representable w (2 ^ n) := by
  have hpos := w.leadingBit_pos
  have hmin := w.minExponent_neg
  exact ⟨1, n, by omega, by omega, h, by simp⟩

/-- the last place of a representable number is not below the one it is rounded at -/
theorem placeNear_le {e : Int} (hm : 0 < m) (hupper : m < 2 * w.leadingBit) (he : w.minExponent ≤ e) :
    placeNear w (m * 2 ^ e) ≤ e := by
  have hlog : m.log2 < w.fractionBits + 1 := by
    rw [Nat.log2_lt hm.ne', Nat.pow_succ, ← w.leadingBit_eq, Nat.mul_comm]
    exact hupper
  rw [placeNear, log_two_mul hm]
  exact max_le (by omega) he

/-- A representable number lies at the place where it is rounded, with the digits of a significand. -/
theorem Representable.at_place (h : Representable w r) (hr : 0 < r) :
    ∃ n k : Nat, placeNear w r = w.minExponent + k ∧ r = n * 2 ^ placeNear w r ∧ n < 2 * w.leadingBit ∧
      (k = 0 ∨ w.leadingBit ≤ n) ∧ k + 2 ≤ w.topField := by
  obtain ⟨m, e, hupper, hmin, hmax, hme⟩ := h
  have hm : 0 < m := by
    refine Nat.pos_of_ne_zero fun h₀ => ?_
    rw [hme, h₀, Nat.cast_zero, zero_mul] at hr
    exact lt_irrefl _ hr
  have hplace : placeNear w r ≤ e := hme ▸ placeNear_le hm hupper hmin
  have hplaceMin : w.minExponent ≤ placeNear w r := le_max_right _ _
  have hplaceLog : Int.log 2 r - w.fractionBits ≤ placeNear w r := le_max_left _ _
  have hchoice : placeNear w r = Int.log 2 r - w.fractionBits ∨ placeNear w r = w.minExponent := max_choice _ _
  generalize placeNear w r = p at hplace hplaceMin hplaceLog hchoice ⊢
  obtain ⟨k, rfl⟩ := Int.le.dest hplaceMin
  obtain ⟨d, rfl⟩ := Int.le.dest hplace
  have hshift : r = (m * 2 ^ d : Nat) * 2 ^ (w.minExponent + k) := by
    rw [hme, zpow_add₀ two_ne_zero, zpow_natCast]
    push_cast
    ring
  have hn : 0 < m * 2 ^ d := Nat.mul_pos hm (Nat.two_pow_pos d)
  have hlog : Int.log 2 r = (m * 2 ^ d).log2 + (w.minExponent + k) := by
    rw [hshift, log_two_mul hn]
  refine ⟨m * 2 ^ d, k, rfl, hshift, ?_, ?_, by omega⟩
  · rw [w.leadingBit_eq, ← Nat.pow_succ', ← Nat.log2_lt hn.ne']
    omega
  · rcases hchoice with hnormal | hlowest
    · right
      rw [w.leadingBit_eq, ← Nat.le_log2 hn.ne']
      omega
    · left
      omega

theorem represents_ofMagnitude (s : Bool) (hfinite : k * w.leadingBit + m < w.infinity) (hupper : m < 2 * w.leadingBit)
    (hlower : k = 0 ∨ w.leadingBit ≤ m) :
    (ofMagnitude w s (k * w.leadingBit + m)).Represents s (m * 2 ^ (w.minExponent + k)) := by
  have hlt := hfinite.trans w.infinity_lt_highBit
  have hmagnitude := magnitude_ofMagnitude s hlt
  have h := Represents.of_stored (x := ofMagnitude w s (k * w.leadingBit + m))
    ⟨hmagnitude, by rwa [hmagnitude], hupper, hlower⟩
  rwa [negative_ofMagnitude s hlt] at h

theorem represents_zero (w : Width) (s : Bool) : (zero w s).Represents s 0 := by
  have h := represents_ofMagnitude (w := w) (m := 0) (k := 0) s (by simpa using w.infinity_pos)
    (Nat.mul_pos two_pos w.leadingBit_pos) (.inl rfl)
  simpa [zero] using h

/-- **Rounding a representable number loses nothing** -/
theorem Representable.rounds (s : Bool) (h : Representable w r) (hr : 0 ≤ r) : (ofRational w s r).Represents s r := by
  rcases hr.eq_or_lt with rfl | hpos
  · rw [ofRational, magnitudeNear, if_pos rfl]
    exact represents_zero w s
  obtain ⟨n, k, hplace, hn, hupper, hlower, htop⟩ := h.at_place hpos
  have hfinite : k * w.leadingBit + n < w.infinity := by
    calc k * w.leadingBit + n < k * w.leadingBit + 2 * w.leadingBit := Nat.add_lt_add_left hupper _
      _ = (k + 2) * w.leadingBit := (Nat.add_mul _ _ _).symm
      _ ≤ w.infinity := Nat.mul_le_mul_right _ htop
  have hunits : r / 2 ^ placeNear w r = n := (div_eq_iff (zpow_pos (zero_lt_two' ℚ) _).ne').2 hn
  have hmagnitude : magnitudeNear w r = k * w.leadingBit + n := by
    rw [magnitudeNear, if_neg hpos.ne', hunits, nearestEven_natCast, hplace, add_sub_cancel_left, Int.toNat_natCast,
      min_eq_left hfinite.le]
  have hrep := represents_ofMagnitude s hfinite hupper hlower
  rwa [← hplace, ← hn, ← hmagnitude] at hrep

end FloatBits

end WasmCore
