/-
Rounding to the nearest integer.

`nearest` sorts out what it can leave as it is and what is too small to reach an integer, and then looks at the fraction.
On every path the number `r` becomes `nearestEven r` under the same sign (`Represents.nearest`): cutting off, the difference
and the sum with one are exact below the bound from which on every number is integral, and so the test for a half and the
test for an even whole part are about the numbers themselves.
-/
import WasmCore.Proofs.Float.Arithmetic
import WasmCore.Proofs.Float.Order

namespace WasmCore

/-! ## The nearest natural number -/

section
variable {r q : ℚ}

theorem nearestEven_of_half (h : r - ⌊r⌋₊ = 1 / 2) : nearestEven r = if ⌊r⌋₊ % 2 = 0 then ⌊r⌋₊ else ⌊r⌋₊ + 1 := by
  rw [nearestEven, h]
  by_cases heven : ⌊r⌋₊ % 2 = 0
  · rw [if_pos heven, if_neg (by simp [heven])]
  · rw [if_neg heven, if_pos (.inr ⟨rfl, by omega⟩)]

/-- away from the halves it does not matter where a half would go -/
theorem nearestEven_of_ne_half (hr : 0 ≤ r) (h : r - ⌊r⌋₊ ≠ 1 / 2) : nearestEven r = ⌊r + 1 / 2⌋₊ := by
  have hlo := Nat.floor_le hr
  have hhi := Nat.lt_floor_add_one r
  symm
  rw [nearestEven]
  by_cases hup : 1 / 2 < r - ⌊r⌋₊
  · rw [if_pos (.inl hup), Nat.floor_eq_iff (by linarith)]
    push_cast
    constructor <;> linarith
  · have hlt : r - ⌊r⌋₊ < 1 / 2 := lt_of_le_of_ne (not_lt.1 hup) h
    rw [if_neg (by rintro (h' | h') <;> [exact hup h'; exact h h'.1]), Nat.floor_eq_iff (by linarith)]
    constructor <;> linarith

theorem nearestEven_le_floor_add_one (r : ℚ) : nearestEven r ≤ ⌊r⌋₊ + 1 := by
  rw [nearestEven]
  split <;> omega

theorem floor_le_nearestEven (r : ℚ) : ⌊r⌋₊ ≤ nearestEven r := by
  rw [nearestEven]
  split <;> omega

theorem nearestEven_mono (h : r ≤ q) : nearestEven r ≤ nearestEven q := by
  rcases (Nat.floor_mono h).lt_or_eq with hlt | heq
  · calc nearestEven r ≤ ⌊r⌋₊ + 1 := nearestEven_le_floor_add_one r
      _ ≤ ⌊q⌋₊ := hlt
      _ ≤ nearestEven q := floor_le_nearestEven q
  · -- the one with the larger fraction goes up if the other one does
    rw [nearestEven, nearestEven, heq]
    by_cases hup : 1 / 2 < r - ⌊q⌋₊ ∨ (r - ⌊q⌋₊ = 1 / 2 ∧ ⌊q⌋₊ % 2 = 1)
    · have hup' : 1 / 2 < q - ⌊q⌋₊ ∨ (q - ⌊q⌋₊ = 1 / 2 ∧ ⌊q⌋₊ % 2 = 1) := by
        rcases hup with hlt | ⟨hhalf, hodd⟩
        · exact .inl (by linarith)
        · rcases h.lt_or_eq with hrq | rfl
          · exact .inl (by linarith)
          · exact .inr ⟨hhalf, hodd⟩
      rw [if_pos hup, if_pos hup']
    · rw [if_neg hup]
      split <;> omega

/-- it is nearest, and on a half it is even -/
theorem abs_sub_nearestEven (hr : 0 ≤ r) :
    |r - nearestEven r| ≤ 1 / 2 ∧ (|r - nearestEven r| = 1 / 2 → nearestEven r % 2 = 0) := by
  have hlo := Nat.floor_le hr
  have hhi := Nat.lt_floor_add_one r
  rw [nearestEven]
  split
  next hup =>
    push_cast
    rcases hup with hlt | ⟨hhalf, hodd⟩
    · have habs : |r - (⌊r⌋₊ + 1)| < 1 / 2 := by
        rw [abs_lt]
        constructor <;> linarith
      exact ⟨habs.le, fun h => absurd h habs.ne⟩
    · have habs : r - (⌊r⌋₊ + 1) = -(1 / 2) := by linarith
      rw [habs]
      exact ⟨by norm_num, fun _ => by omega⟩
  next hdown =>
    have hle : r - ⌊r⌋₊ ≤ 1 / 2 := not_lt.1 fun h => hdown (.inl h)
    rw [abs_of_nonneg (by linarith)]
    exact ⟨hle, fun h => by_contra fun hodd => hdown (.inr ⟨h, by omega⟩)⟩

/-- zero is nearest up to one half -/
theorem nearestEven_eq_zero_iff (hr : 0 ≤ r) : nearestEven r = 0 ↔ r ≤ 1 / 2 := by
  constructor
  · intro h
    have hnear := (abs_sub_nearestEven hr).1
    rw [h, Nat.cast_zero, sub_zero] at hnear
    exact (le_abs_self r).trans hnear
  · intro h
    rcases h.lt_or_eq with hlt | rfl
    · exact nearestEven_eq_zero hlt
    · have hfloor : ⌊(1 / 2 : ℚ)⌋₊ = 0 := Nat.floor_eq_zero.2 (by norm_num)
      rw [nearestEven_of_half (by rw [hfloor, Nat.cast_zero, sub_zero]), hfloor]
      rfl

end

/-! ## Nearest integers -/

/-- the integer is nearest to the number, and even if there are two nearest ones -/
structure IsNearestEven (v : ℚ) (n : Int) : Prop where
  nearest : ∀ k : Int, |v - n| ≤ |v - k|
  even : ∀ k : Int, k ≠ n → |v - k| = |v - n| → Even n

/-- no integer is as near as one that is not further off than one half -/
theorem isNearestEven_of_le {v : ℚ} {n : Int} (h : |v - n| ≤ 1 / 2) (heven : |v - n| = 1 / 2 → Even n) :
    IsNearestEven v n := by
  have hfar (k : Int) (hk : k ≠ n) : 1 - |v - n| ≤ |v - k| := by
    have hone : (1 : ℚ) ≤ |(n - k : Int)| := by
      exact_mod_cast Int.one_le_abs (sub_ne_zero.2 hk.symm)
    have htriangle := abs_sub_le (n : ℚ) v k
    rw [abs_sub_comm (n : ℚ) v] at htriangle
    push_cast at hone
    linarith
  refine ⟨fun k => ?_, fun k hk heq => heven ?_⟩
  · rcases eq_or_ne k n with rfl | hk
    · exact le_rfl
    · have := hfar k hk
      linarith
  · have := hfar k hk
    linarith

theorem signed_natCast (s : Bool) (n : Nat) : signed s n = ((if s then -(n : Int) else n : Int) : ℚ) := by
  cases s <;> simp

namespace FloatBits

variable {w : Width} {x y : FloatBits w} {s t : Bool} {r q : ℚ}

/-! ## Exact steps -/

theorem represents_half (w : Width) : (half w).Represents false (1 / 2) := by
  have hpos := w.leadingBit_pos
  have hmin : w.minExponent ≤ -1 := by have := w.minExponent_neg; omega
  have hmax := w.one_lt_maxExponent
  have hrep : Representable w (1 / 2) := ⟨1, -1, by omega, hmin, by omega, by norm_num⟩
  rw [half, ofRatio_eq false two_pos]
  exact_mod_cast hrep.rounds false (by norm_num)

theorem represents_integralBound (w : Width) : (integralBound w).Represents false w.leadingBit := by
  have hrep : Representable w (Int.natAbs w.leadingBit) := representable_natCast (by simp; omega)
  have h := represents_ofInt hrep
  rwa [decide_eq_false (not_lt.2 (Int.natCast_nonneg _)), Int.natAbs_natCast] at h

theorem represents_one (w : Width) : (ofInt w 1).Represents false 1 := by
  have h := represents_ofInt (w := w) (n := 1) (representable_natCast (by have := w.leadingBit_pos; simp; omega))
  simpa using h

theorem represents_two (w : Width) : (ofInt w 2).Represents false 2 := by
  have h := represents_ofInt (w := w) (n := 2) (representable_natCast (by have := w.leadingBit_pos; simp; omega))
  simpa using h

theorem Represents.signum (hx : x.Represents s r) : x.signum.Represents s 1 := by
  rw [FloatBits.signum, hx.isNaN, if_neg Bool.false_ne_true, ← hx.negative]
  exact (represents_one w).copysign x

/-- cutting the digits before the point off leaves a number of the format -/
theorem Representable.fraction (h : Representable w r) : Representable w (r - ⌊r⌋₊) := by
  obtain ⟨m, e, hupper, hmin, hmax, rfl⟩ := h
  rcases Int.lt_or_le e 0 with he | he
  · obtain ⟨d, hd⟩ := Int.eq_ofNat_of_zero_le (Int.neg_nonneg_of_nonpos he.le)
    obtain rfl : e = -(d : Int) := by omega
    refine ⟨m % 2 ^ d, -(d : Int), (Nat.mod_le _ _).trans_lt hupper, hmin, hmax, ?_⟩
    rw [mul_two_zpow_neg, mul_two_zpow_neg, Nat.floor_div_eq_div]
    exact div_sub_div m (Nat.two_pow_pos d)
  · obtain ⟨d, rfl⟩ := Int.eq_ofNat_of_zero_le he
    rw [mul_two_zpow_natCast, Nat.floor_natCast, sub_self]
    exact_mod_cast representable_natCast (n := 0) (Nat.zero_le _)

/-- from the bound on, every number is integral -/
theorem Represents.natural (hx : x.Represents s r) (h : (w.leadingBit : ℚ) ≤ r) : ∃ n : Nat, r = n := by
  obtain ⟨m, e, hxd, rfl⟩ := hx
  obtain ⟨-, k, -, hstored⟩ := datum_eq_finite hxd
  have he : 0 ≤ e := by
    refine Int.not_lt.1 fun he => ?_
    exact (mul_two_zpow_lt hstored.upper he).not_ge h
  obtain ⟨d, rfl⟩ := Int.eq_ofNat_of_zero_le he
  exact ⟨_, mul_two_zpow_natCast m d⟩

theorem Represents.eq_zero_iff (hx : x.Represents s r) : eq x (zero w false) = true ↔ r = 0 := by
  rw [hx.eq_iff (represents_zero w false), signed_false, signed_eq_zero_iff]

/-! ## The algorithm -/

/-- what is left after twos have been taken off is zero or one -/
theorem sub_two_mul_floor (n : Nat) : (n : ℚ) - 2 * ⌊(n / 2 : ℚ)⌋₊ = (n % 2 : Nat) := by
  have hfloor : ⌊(n / 2 : ℚ)⌋₊ = n / 2 := by exact_mod_cast Nat.floor_div_eq_div (K := ℚ) n 2
  have hsplit : (n : ℚ) = (2 * (n / 2) + n % 2 : Nat) := congrArg Nat.cast (Nat.div_add_mod n 2).symm
  rw [Nat.cast_add, Nat.cast_mul, Nat.cast_ofNat] at hsplit
  rw [hfloor]
  linarith

/-- the test for an even whole part -/
theorem Represents.rem_two_eq_zero_iff {n : Nat} (hx : x.Represents s n) :
    eq (FloatBits.rem x (ofInt w 2)) (zero w false) = true ↔ n % 2 = 0 := by
  have hpos := w.leadingBit_pos
  have hrep : Representable w (n - 2 * ⌊(n / 2 : ℚ)⌋₊) := by
    rw [sub_two_mul_floor]
    exact representable_natCast (by omega)
  have h := hx.rem (represents_two w) two_pos hrep
  rw [sub_two_mul_floor] at h
  rw [h.eq_zero_iff, Nat.cast_eq_zero]

theorem Represents.nearestOfFraction (hx : x.Represents s r) (hr : r < w.leadingBit) :
    x.nearestOfFraction.Represents s (nearestEven r) := by
  have hwhole := hx.trunc
  have hlo := Nat.floor_le hx.nonneg
  have hfloor : ⌊r⌋₊ < w.leadingBit := (Nat.floor_lt hx.nonneg).2 hr
  have hfraction : (FloatBits.sub x x.trunc).abs.Represents false (r - ⌊r⌋₊) := by
    rcases hlo.lt_or_eq with hlt | heq
    · exact (hx.sub hwhole hlt hx.representable.fraction).abs
    · rw [heq] at hwhole
      rw [heq, sub_eq_zero.2 rfl]
      exact (hx.sub_self hwhole).abs
  have htie : eq (FloatBits.sub x x.trunc).abs (half w) = true ↔ r - ⌊r⌋₊ = 1 / 2 :=
    hfraction.eq_iff (represents_half w)
  rw [FloatBits.nearestOfFraction]
  dsimp only
  by_cases hhalf : r - ⌊r⌋₊ = 1 / 2
  · rw [if_pos (htie.2 hhalf), nearestEven_of_half hhalf]
    by_cases heven : ⌊r⌋₊ % 2 = 0
    · rw [if_pos (hwhole.rem_two_eq_zero_iff.2 heven), if_pos heven]
      exact hwhole
    · rw [if_neg (mt hwhole.rem_two_eq_zero_iff.1 heven), if_neg heven]
      have hsign := (hx.sub hwhole (by linarith) hx.representable.fraction).signum
      have hsum : ((⌊r⌋₊ + 1 : Nat) : ℚ) = ⌊r⌋₊ + 1 := Nat.cast_succ _
      rw [hsum]
      refine hwhole.add hsign (by positivity) ?_
      rw [← hsum]
      exact representable_natCast (by omega)
  · rw [if_neg (mt htie.1 hhalf), nearestEven_of_ne_half hx.nonneg hhalf]
    exact hx.round

theorem isNaN_of_isCanonicalNaN (h : x.isCanonicalNaN = true) : x.isNaN = true := by
  rw [isCanonicalNaN, Bool.or_eq_true, beq_iff_eq, beq_iff_eq] at h
  rcases h with rfl | rfl <;> cases w <;> decide

/-- the two tests for a number that is too small to reach one, without a sign and with one -/
theorem Represents.upToHalf_iff (hx : x.Represents s r) (hpos : 0 < r) :
    (lt (zero w false) x && le x (half w)) = true ↔ s = false ∧ r ≤ 1 / 2 := by
  rw [Bool.and_eq_true, (represents_zero w false).lt_iff hx, hx.le_iff (represents_half w)]
  cases s with
  | false => simp [hpos]
  | true => simp [hpos.le]

theorem Represents.downToHalf_iff (hx : x.Represents s r) (hpos : 0 < r) :
    (lt x (zero w false) && le (FloatBits.neg (half w)) x) = true ↔ s = true ∧ r ≤ 1 / 2 := by
  rw [Bool.and_eq_true, hx.lt_iff (represents_zero w false), (represents_half w).neg.le_iff hx]
  cases s with
  | false => simp [hpos.le]
  | true => simp [hpos]

/-- **What `nearest` answers, as a number** -/
theorem Represents.nearest (hx : x.Represents s r) : x.nearest.Represents s (nearestEven r) := by
  have hcanonical : x.isCanonicalNaN = false := by
    cases h : x.isCanonicalNaN with
    | false => rfl
    | true => exact absurd (isNaN_of_isCanonicalNaN h) (by rw [hx.isNaN]; decide)
  have hnonneg := hx.nonneg
  rw [FloatBits.nearest, hcanonical, hx.isNaN, hx.isInfinite, Bool.false_or, Bool.false_or, Bool.false_or]
  by_cases hzero : r = 0
  · rw [if_pos (hx.eq_zero_iff.2 hzero)]
    subst hzero
    have h := nearestEven_natCast 0
    rw [Nat.cast_zero] at h
    rw [h, Nat.cast_zero]
    exact hx
  rw [if_neg (mt hx.eq_zero_iff.1 hzero)]
  by_cases hbound : (w.leadingBit : ℚ) ≤ r
  · rw [if_pos (((represents_integralBound w).le_iff hx.abs).2 hbound)]
    obtain ⟨n, rfl⟩ := hx.natural hbound
    rw [nearestEven_natCast]
    exact hx
  rw [if_neg (mt ((represents_integralBound w).le_iff hx.abs).1 hbound)]
  have hpos : 0 < r := lt_of_le_of_ne hnonneg (Ne.symm hzero)
  by_cases hhalf : r ≤ 1 / 2
  · rw [(nearestEven_eq_zero_iff hnonneg).2 hhalf, Nat.cast_zero]
    cases s with
    | false =>
      rw [if_pos ((hx.upToHalf_iff hpos).2 ⟨rfl, hhalf⟩)]
      exact represents_zero w false
    | true =>
      rw [if_neg (by rw [hx.upToHalf_iff hpos]; simp), if_pos ((hx.downToHalf_iff hpos).2 ⟨rfl, hhalf⟩)]
      exact represents_zero w true
  · have hrounded := hx.nearestOfFraction (not_le.1 hbound)
    have hne : nearestEven r ≠ 0 := mt (nearestEven_eq_zero_iff hnonneg).1 hhalf
    rw [if_neg fun h => hhalf ((hx.upToHalf_iff hpos).1 h).2, if_neg fun h => hhalf ((hx.downToHalf_iff hpos).1 h).2]
    dsimp only
    rw [if_neg (mt hrounded.eq_zero_iff.1 (Nat.cast_ne_zero.2 hne))]
    exact hrounded

/-! ## Consequences for patterns -/

/-- under a sign, what `nearestEven` answers is the nearest integer -/
theorem isNearestEven_signed (s : Bool) (hr : 0 ≤ r) :
    IsNearestEven (signed s r) (if s then -(nearestEven r : Int) else nearestEven r) := by
  obtain ⟨hnear, hhalf⟩ := abs_sub_nearestEven hr
  have hdist : |signed s r - ((if s then -(nearestEven r : Int) else nearestEven r : Int) : ℚ)| = |r - nearestEven r| := by
    cases s with
    | false => simp
    | true =>
      rw [signed_true, if_pos rfl, Int.cast_neg, Int.cast_natCast, ← abs_neg]
      congr 1
      ring
  apply isNearestEven_of_le
  · rw [hdist]
    exact hnear
  · rw [hdist]
    intro h
    have heven : Even (nearestEven r : Int) := by
      exact_mod_cast Nat.even_iff.2 (hhalf h)
    cases s with
    | false => exact heven
    | true => exact heven.neg

/-- NaNs and infinities are above the patterns of numbers -/
theorem nearest_of_infinity_le (h : w.infinity ≤ x.magnitude) : x.nearest = x := by
  have htest : (x.isCanonicalNaN || x.isNaN || x.isInfinite || eq x (zero w false)) = true := by
    rcases h.lt_or_eq with hlt | heq
    · rw [show x.isNaN = true from decide_eq_true hlt, Bool.or_true, Bool.true_or, Bool.true_or]
    · rw [show x.isInfinite = true from beq_iff_eq.2 heq.symm, Bool.or_true, Bool.true_or]
  rw [nearest, if_pos htest]

theorem infinity_le_or_represents (x : FloatBits w) : w.infinity ≤ x.magnitude ∨ ∃ r, x.Represents x.negative r := by
  obtain ⟨-, hmag⟩ | ⟨-, hmag⟩ | ⟨m, k, -, hstored⟩ := datum_cases x
  · exact .inl hmag.le
  · exact .inl hmag.ge
  · exact .inr ⟨_, .of_stored hstored⟩

theorem nearest_nearest (x : FloatBits w) : x.nearest.nearest = x.nearest := by
  rcases infinity_le_or_represents x with h | ⟨r, hx⟩
  · rw [nearest_of_infinity_le h, nearest_of_infinity_le h]
  · have h := hx.nearest.nearest
    rw [nearestEven_natCast] at h
    exact h.unique hx.nearest

theorem nearest_neg (x : FloatBits w) : (neg x).nearest = neg x.nearest := by
  rcases infinity_le_or_represents x with h | ⟨r, hx⟩
  · have h' : w.infinity ≤ (neg x).magnitude := by rwa [magnitude_neg]
    rw [nearest_of_infinity_le h, nearest_of_infinity_le h']
  · exact hx.neg.nearest.unique hx.nearest.neg

theorem signed_nearestEven_mono (hr : 0 ≤ r) (hq : 0 ≤ q) (h : signed s r ≤ signed t q) :
    signed s (nearestEven r) ≤ signed t (nearestEven q) := by
  have hnr : (0 : ℚ) ≤ nearestEven r := Nat.cast_nonneg _
  have hnq : (0 : ℚ) ≤ nearestEven q := Nat.cast_nonneg _
  cases s with
  | false =>
    cases t with
    | false =>
      rw [signed_false, signed_false] at h ⊢
      exact_mod_cast nearestEven_mono h
    | true =>
      rw [signed_false, signed_true] at h
      have hr₀ : nearestEven r = 0 := (nearestEven_eq_zero_iff hr).2 (by linarith)
      have hq₀ : nearestEven q = 0 := (nearestEven_eq_zero_iff hq).2 (by linarith)
      rw [hr₀, hq₀]
      simp
  | true =>
    cases t with
    | false =>
      rw [signed_true, signed_false]
      linarith
    | true =>
      rw [signed_true, signed_true, neg_le_neg_iff] at h ⊢
      exact_mod_cast nearestEven_mono h

theorem nearest_mono (hx : x.isNaN = false) (hy : y.isNaN = false) (h : x.value ≤ y.value) :
    x.nearest.value ≤ y.nearest.value := by
  obtain ⟨hxd, hxm⟩ | ⟨r, hxr⟩ := infinite_or_represents hx
  · rw [nearest_of_infinity_le hxm.ge]
    obtain ⟨hyd, hym⟩ | ⟨q, hyr⟩ := infinite_or_represents hy
    · rwa [nearest_of_infinity_le hym.ge]
    · -- nothing but the negative infinity is below a number
      rw [value_of_infinite hxd] at h ⊢
      generalize x.negative = s at h ⊢
      cases s with
      | true => exact bot_le
      | false =>
        rw [if_neg Bool.false_ne_true, top_le_iff, hyr.value] at h
        exact absurd h (by simp)
  · obtain ⟨hyd, hym⟩ | ⟨q, hyr⟩ := infinite_or_represents hy
    · rw [nearest_of_infinity_le hym.ge]
      rw [value_of_infinite hyd] at h ⊢
      generalize y.negative = s at h ⊢
      cases s with
      | true =>
        rw [if_pos rfl, le_bot_iff, hxr.value] at h
        exact absurd h (by simp)
      | false => exact le_top
    · rw [hxr.value, hyr.value, WithBot.coe_le_coe, WithTop.coe_le_coe] at h
      rw [hxr.nearest.value, hyr.nearest.value, WithBot.coe_le_coe, WithTop.coe_le_coe]
      exact signed_nearestEven_mono hxr.nonneg hyr.nonneg h

/-- sign and value determine the pattern of a number -/
theorem Represents.eq_iff_value (hx : x.Represents s r) (z : FloatBits w) :
    z = x ↔ z.datum ≠ .nan ∧ z.negative = s ∧ z.value = ((signed s r : ℚ) : WithTop ℚ) := by
  constructor
  · rintro rfl
    have hnan : z.datum ≠ .nan := by
      rw [ne_eq, ← isNaN_iff, hx.isNaN]
      exact Bool.false_ne_true
    exact ⟨hnan, hx.negative, hx.value⟩
  · rintro ⟨hnan, hs, hv⟩
    rw [ne_eq, ← isNaN_iff, Bool.not_eq_true] at hnan
    obtain ⟨hzd, -⟩ | ⟨q, hz⟩ := infinite_or_represents hnan
    · rw [value_of_infinite hzd] at hv
      generalize z.negative = s' at hv
      cases s' <;> simp at hv
    · rw [hs] at hz
      rw [hz.value, WithBot.coe_inj, WithTop.coe_inj] at hv
      have hq : q = r := by
        cases s with
        | false => exact hv
        | true => exact neg_injective hv
      exact (hq ▸ hz).unique hx

/-- **`nearest` rounds a half to the even neighbour, on every pattern.** NaNs and infinities stay as they are, bit for
bit. A finite number becomes the one pattern with its sign whose value is the nearest integer, the even one of two; up to
one half this is the zero of its sign, and integers and all numbers from `2 ^ 23` or `2 ^ 52` on stay as they are. So to
round twice is to round once, a change of sign may come before or after, and the order is kept. -/
theorem nearest_half_to_even (x y : FloatBits w) :
    (x.datum = .nan ∨ (∃ s, x.datum = .infinite s) → x.nearest = x) ∧
    (∀ s m e, x.datum = .finite s m e →
      (∃ n : Int, IsNearestEven (signed s (m * 2 ^ e)) n ∧ ∀ z : FloatBits w,
        z = x.nearest ↔ z.datum ≠ .nan ∧ z.negative = s ∧ z.value = ((n : ℚ) : WithTop ℚ)) ∧
      (|signed s (m * 2 ^ e)| ≤ 1 / 2 → x.nearest = zero w s) ∧
      ((∃ n : Int, signed s (m * 2 ^ e) = n) → x.nearest = x) ∧
      ((2 : ℚ) ^ w.fractionBits ≤ |signed s (m * 2 ^ e)| → x.nearest = x)) ∧
    x.nearest.nearest = x.nearest ∧
    (neg x).nearest = neg x.nearest ∧
    (x.datum ≠ .nan → y.datum ≠ .nan → x.value ≤ y.value → x.nearest.value ≤ y.nearest.value) ∧
    (Width.w32.fractionBits = 23 ∧ Width.w64.fractionBits = 52) := by
  refine ⟨?special, ?finite, nearest_nearest x, nearest_neg x, ?mono, rfl, rfl⟩
  case special =>
    intro h
    apply nearest_of_infinity_le
    obtain ⟨-, hmag⟩ | ⟨-, hmag⟩ | ⟨m, k, hd, -⟩ := datum_cases x
    · exact hmag.le
    · exact hmag.ge
    · rw [hd] at h
      simp at h
  case finite =>
    intro s m e hd
    have hx := Represents.of_datum hd
    have hnearest := hx.nearest
    have hnonneg := hx.nonneg
    generalize (m * 2 ^ e : ℚ) = r at hx hnearest hnonneg ⊢
    have hstays (n : Nat) (hn : r = n) : x.nearest = x := by
      rw [hn, nearestEven_natCast, ← hn] at hnearest
      exact hnearest.unique hx
    refine ⟨⟨_, isNearestEven_signed s hnonneg, fun z => ?_⟩, fun h => ?_, ?_, fun h => ?_⟩
    · rw [hnearest.eq_iff_value z, signed_natCast]
    · rw [abs_signed, abs_of_nonneg hnonneg] at h
      rw [(nearestEven_eq_zero_iff hnonneg).2 h, Nat.cast_zero] at hnearest
      exact hnearest.unique (represents_zero w s)
    · rintro ⟨n, hn⟩
      refine hstays n.natAbs ?_
      rw [← abs_of_nonneg hnonneg, ← abs_signed s, hn, Nat.cast_natAbs, Int.cast_abs]
    · rw [abs_signed, abs_of_nonneg hnonneg, ← Nat.cast_ofNat, ← Nat.cast_pow, ← w.leadingBit_eq] at h
      obtain ⟨n, hn⟩ := hx.natural h
      exact hstays n hn
  case mono =>
    intro hx hy
    rw [ne_eq, ← isNaN_iff, Bool.not_eq_true] at hx hy
    exact nearest_mono hx hy

/-- a NaN with a payload, a negative half, `2 ^ 23`, a half between two and three, and the order of an infinity and a number -/
theorem nearest_half_to_even_instances :
    datum (w := .w32) 0x7F800001 = .nan ∧ nearest (w := .w32) 0x7F800001 = 0x7F800001 ∧
    datum (w := .w32) 0xBF000000 = .finite true 8388608 (-24) ∧ nearest (w := .w32) 0xBF000000 = 0x80000000 ∧
    datum (w := .w32) 0x4B000000 = .finite false 8388608 0 ∧ nearest (w := .w32) 0x4B000000 = 0x4B000000 ∧
    datum (w := .w32) 0x40200000 = .finite false 10485760 (-22) ∧
    (∃ n : Int, IsNearestEven (signed false (10485760 * 2 ^ (-22 : Int))) n ∧ ∀ z : FloatBits .w32,
      z = nearest 0x40200000 ↔ z.datum ≠ .nan ∧ z.negative = false ∧ z.value = ((n : ℚ) : WithTop ℚ)) ∧
    value (w := .w32) 0xFF800000 ≤ value (w := .w32) 0x40200000 ∧
    value (nearest (w := .w32) 0xFF800000) ≤ value (nearest (w := .w32) 0x40200000) := by
  have hnan := (nearest_half_to_even (w := .w32) 0x7F800001 0).1 (.inl (by decide))
  have hhalf := ((nearest_half_to_even (w := .w32) 0xBF000000 0).2.1 true 8388608 (-24) (by decide)).2.1 (by norm_num)
  have hlarge := ((nearest_half_to_even (w := .w32) 0x4B000000 0).2.1 false 8388608 0 (by decide)).2.2.2
    (by norm_num [Width.fractionBits])
  have htie := ((nearest_half_to_even (w := .w32) 0x40200000 0).2.1 false 10485760 (-22) (by decide)).1
  have hle : value (w := .w32) 0xFF800000 ≤ value (w := .w32) 0x40200000 := bot_le
  have hmono := (nearest_half_to_even (w := .w32) 0xFF800000 0x40200000).2.2.2.2.1 (by decide) (by decide) hle
  exact ⟨by decide, hnan, by decide, hhalf, by decide, hlarge, by decide, htie, hle, hmono⟩

/-- two and a half goes down to two -/
example : nearest (w := .w32) 0x40200000 = 0x40000000 := by decide

end FloatBits

end WasmCore
