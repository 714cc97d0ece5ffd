/-
Arithmetic with exact results.

Sums, remainders and the roundings to integers compute an exact result and round it once. The rules below say what the
exact result is, as a number under a sign; where it is representable, the pattern they answer is that number.
-/
import WasmCore.Proofs.Float.Exact

namespace WasmCore.FloatBits

variable {w : Width} {x y : FloatBits w} {s t : Bool} {r q : ℚ}

/-! ## From integers and dyadic numbers -/

theorem ofDyadic_eq (w : Width) (s : Bool) (m : Nat) (e : Int) : ofDyadic w s m e = ofRational w s (m * 2 ^ e) := by
  rw [← dyadicRatio_eq m e]
  exact ofRatio_eq s (dyadicRatio_den_pos m e)

theorem represents_ofNat (s : Bool) {n : Nat} (h : n ≤ 2 * w.leadingBit) : (ofRatio w s n 1).Represents s n := by
  rw [ofRatio_eq s one_pos, Nat.cast_one, div_one]
  exact (representable_natCast h).rounds s n.cast_nonneg

theorem represents_ofInt {n : Int} (h : Representable w n.natAbs) :
    (ofInt w n).Represents (decide (n < 0)) n.natAbs := by
  rw [ofInt, ofRatio_eq _ one_pos, Nat.cast_one, div_one]
  exact h.rounds _ (Nat.cast_nonneg _)

/-! ## Sums -/

theorem shiftLeft_mul_two_zpow (m : Nat) {e place : Int} (h : place ≤ e) :
    ((m <<< (e - place).toNat : Nat) : ℚ) * 2 ^ place = m * 2 ^ e := by
  obtain ⟨d, rfl⟩ := Int.le.dest h
  rw [add_sub_cancel_left, Int.toNat_natCast, Nat.shiftLeft_eq, zpow_add₀ two_ne_zero, zpow_natCast]
  push_cast
  ring

theorem signedUnits_mul_two_zpow (s : Bool) (m : Nat) {e place : Int} (h : place ≤ e) :
    (signedUnits s m e place : ℚ) * 2 ^ place = signed s (m * 2 ^ e) := by
  rw [← shiftLeft_mul_two_zpow m h, signedUnits]
  cases s with
  | false => rw [if_neg Bool.false_ne_true, signed_false, Int.cast_natCast]
  | true => rw [if_pos rfl, signed_true, Int.cast_neg, Int.cast_natCast, neg_mul]

/-- the exact sum is rounded once -/
theorem add_eq (hx : x.Represents s r) (hy : y.Represents t q) :
    add x y = if signed s r + signed t q = 0 then zero w (s && t)
      else ofRational w (decide (signed s r + signed t q < 0)) |signed s r + signed t q| := by
  obtain ⟨m, e, hxd, rfl⟩ := hx
  obtain ⟨n, f, hyd, rfl⟩ := hy
  simp only [add, hxd, hyd]
  rw [← signedUnits_mul_two_zpow s m (min_le_left e f), ← signedUnits_mul_two_zpow t n (min_le_right e f), ← add_mul,
    ← Int.cast_add]
  generalize signedUnits s m e (min e f) + signedUnits t n f (min e f) = sum
  have hpos := zpow_pos (zero_lt_two' ℚ) (min e f)
  by_cases hsum : sum = 0
  · rw [if_pos hsum, if_pos (by rw [hsum, Int.cast_zero, zero_mul])]
  · have hne : (sum : ℚ) * 2 ^ min e f ≠ 0 := mul_ne_zero (Int.cast_ne_zero.2 hsum) hpos.ne'
    have hneg : (sum : ℚ) * 2 ^ min e f < 0 ↔ sum < 0 := by
      rw [Rat.mul_neg_iff_of_pos_right hpos, Int.cast_lt_zero]
    rw [if_neg hsum, if_neg hne, ofDyadic_eq, abs_mul, abs_of_pos hpos, Nat.cast_natAbs, Int.cast_abs]
    simp only [hneg]

/-- under a sign, a positive number has that sign -/
theorem signed_lt_zero_iff (hr : 0 < r) : signed s r < 0 ↔ s = true := by
  cases s with
  | false => simp [hr.le]
  | true => simp [hr]

theorem signed_eq_zero_iff : signed s r = 0 ↔ r = 0 := by
  cases s <;> simp

/-- a representable sum of one sign is exact -/
theorem add_represents (hx : x.Represents s r) (hy : y.Represents t q) {v : Bool} {p : ℚ}
    (hsum : signed s r + signed t q = signed v p) (hp : 0 < p) (h : Representable w p) :
    (add x y).Represents v p := by
  have hneg : decide (signed v p < 0) = v := by
    rw [Bool.eq_iff_iff, decide_eq_true_iff]
    exact signed_lt_zero_iff hp
  rw [add_eq hx hy, hsum, if_neg (mt signed_eq_zero_iff.1 hp.ne'), abs_signed, abs_of_pos hp, hneg]
  exact h.rounds v hp.le

theorem Represents.add (hx : x.Represents s r) (hy : y.Represents s q) (hpos : 0 < r + q)
    (h : Representable w (r + q)) : (add x y).Represents s (r + q) := by
  refine add_represents hx hy ?_ hpos h
  cases s with
  | false => rfl
  | true => simp only [signed_true]; ring

theorem Represents.sub (hx : x.Represents s r) (hy : y.Represents s q) (hlt : q < r) (h : Representable w (r - q)) :
    (sub x y).Represents s (r - q) := by
  refine add_represents hx hy.neg ?_ (sub_pos.2 hlt) h
  rw [signed_not]
  cases s with
  | false => simp only [signed_false]; ring
  | true => simp only [signed_true]; ring

/-- the difference of a number from itself is the positive zero -/
theorem Represents.sub_self (hx : x.Represents s r) (hy : y.Represents s r) : (FloatBits.sub x y).Represents false 0 := by
  have hzero : signed s r + signed (!s) r = 0 := by
    rw [signed_not, add_neg_cancel]
  rw [FloatBits.sub, add_eq hx hy.neg, if_pos hzero, Bool.and_not_self]
  exact represents_zero w false

/-! ## Remainders -/

theorem Represents.rem (hx : x.Represents s r) (hy : y.Represents t q) (hq : 0 < q)
    (h : Representable w (r - q * ⌊r / q⌋₊)) : (rem x y).Represents s (r - q * ⌊r / q⌋₊) := by
  obtain ⟨m, e, hxd, rfl⟩ := hx
  obtain ⟨n, f, hyd, rfl⟩ := hy
  have hn : n ≠ 0 := by
    rintro rfl
    simp at hq
  have hpow := zpow_pos (zero_lt_two' ℚ) (min e f)
  have hrest : ((m <<< (e - min e f).toNat % n <<< (f - min e f).toNat : Nat) : ℚ) * 2 ^ min e f =
      m * 2 ^ e - n * 2 ^ f * ⌊(m * 2 ^ e / (n * 2 ^ f) : ℚ)⌋₊ := by
    rw [← shiftLeft_mul_two_zpow m (min_le_left e f), ← shiftLeft_mul_two_zpow n (min_le_right e f),
      mul_div_mul_right _ _ hpow.ne', Nat.floor_div_eq_div]
    generalize m <<< (e - min e f).toNat = a
    generalize n <<< (f - min e f).toNat = b
    have hdiv : (a : ℚ) = (b * (a / b) + a % b : Nat) := congrArg Nat.cast (Nat.div_add_mod a b).symm
    rw [Nat.cast_add, Nat.cast_mul] at hdiv
    rw [hdiv]
    ring
  simp only [FloatBits.rem, hxd, hyd, if_neg hn, ofDyadic_eq, hrest]
  refine h.rounds s ?_
  rw [← hrest]
  exact mul_nonneg (Nat.cast_nonneg _) hpow.le

/-! ## Roundings to integers -/

/-- A rounding that leaves natural numbers alone and goes to one that is not far is exact on patterns. -/
theorem Represents.toIntegral {round : Rounding} {f : ℚ → Nat}
    (hround : ∀ num den : Nat, 0 < den → round s num den = f (num / den)) (hnat : ∀ n : Nat, f n = n)
    (hnear : ∀ r : ℚ, 0 ≤ r → (f r : ℚ) ≤ r + 1) (hx : x.Represents s r) :
    (x.toIntegral round).Represents s (f r) := by
  obtain ⟨m, e, hxd, rfl⟩ := id hx
  obtain ⟨-, k, -, hstored⟩ := datum_eq_finite hxd
  by_cases he : e < 0
  · have hto : x.toIntegral round = ofRatio w s (f (m * 2 ^ e)) 1 := by
      simp only [FloatBits.toIntegral, hxd, if_pos he, hround _ _ (dyadicRatio_den_pos m e), dyadicRatio_eq]
    have hlt : (m * 2 ^ e : ℚ) < w.leadingBit := mul_two_zpow_lt hstored.upper he
    have hsmall : f (m * 2 ^ e) ≤ 2 * w.leadingBit := by
      have hle : (f (m * 2 ^ e) : ℚ) ≤ w.leadingBit + 1 := (hnear _ hx.nonneg).trans (by linarith)
      have hle' : f (m * 2 ^ e) ≤ w.leadingBit + 1 := by exact_mod_cast hle
      have hpos := w.leadingBit_pos
      omega
    rw [hto]
    exact represents_ofNat s hsmall
  · have hto : x.toIntegral round = x := by
      simp only [FloatBits.toIntegral, hxd, if_neg he]
    obtain ⟨d, rfl⟩ := Int.eq_ofNat_of_zero_le (Int.not_lt.1 he)
    rw [hto, mul_two_zpow_natCast, hnat, ← mul_two_zpow_natCast]
    exact hx

theorem Represents.trunc (hx : x.Represents s r) : x.trunc.Represents s ⌊r⌋₊ := by
  refine hx.toIntegral ?_ Nat.floor_natCast ?_
  · intro num den _
    exact (Nat.floor_div_eq_div num den).symm
  · intro r hr
    exact (Nat.floor_le hr).trans (le_add_of_nonneg_right zero_le_one)

/-- a half goes away from zero -/
theorem Represents.round (hx : x.Represents s r) : x.round.Represents s ⌊r + 1 / 2⌋₊ := by
  refine hx.toIntegral (f := fun r => ⌊r + 1 / 2⌋₊) ?_ ?_ ?_
  · intro num den hden
    have hd : (den : ℚ) ≠ 0 := by exact_mod_cast hden.ne'
    have hsum : (num / den + 1 / 2 : ℚ) = (2 * num + den : Nat) / (2 * den : Nat) := by
      push_cast
      field_simp
    rw [hsum, Nat.floor_div_eq_div]
    rfl
  · intro n
    rw [add_comm, Nat.floor_add_natCast (by norm_num), Nat.floor_eq_zero.2 (by norm_num), Nat.zero_add]
  · intro r hr
    exact (Nat.floor_le (by linarith)).trans (by linarith)

end WasmCore.FloatBits
