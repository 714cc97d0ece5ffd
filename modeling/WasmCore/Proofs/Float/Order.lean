/-
The order of floating-point numbers.

The comparisons compare signed magnitudes. This is the order of the exact values (`value_le_iff`), between infinities that
are beyond all numbers. `minimum` and `maximum` know one more thing, which is that the negative zero is below the positive
one: in that order (`NotAbove`), which is linear on the patterns that are not NaNs, they are the meet and the join.
-/
import Mathlib.Algebra.Order.Monoid.Unbundled.WithTop
import Mathlib.Order.WithBot
import WasmCore.Proofs.Float.Exact

namespace WasmCore

/-- the exact value, where infinities are beyond all numbers; a NaN has none, and what stands here for it is never compared -/
def Datum.value : Datum → WithBot (WithTop ℚ)
  | .nan => 0
  | .infinite s => if s then ⊥ else ⊤
  | .finite s m e => ((signed s (m * 2 ^ e) : ℚ) : WithTop ℚ)

namespace FloatBits

variable {w : Width} {x y : FloatBits w} {s t : Bool} {r q : ℚ} {m n k j : Nat}

/-- the exact value that the pattern stands for -/
def value (x : FloatBits w) : WithBot (WithTop ℚ) :=
  x.datum.value

theorem Represents.value (h : x.Represents s r) : x.value = ((signed s r : ℚ) : WithTop ℚ) := by
  obtain ⟨m, e, hx, rfl⟩ := h
  rw [FloatBits.value, hx, Datum.value]

theorem value_of_infinite (h : x.datum = .infinite s) : x.value = if s then ⊥ else ⊤ := by
  rw [value, h, Datum.value]

/-! ## Magnitudes -/

/-- more steps up are more, in the magnitude and in the number -/
theorem Stored.lt_of_lt (hx : Stored x m k) (hy : Stored y n j) (h : k < j) :
    x.magnitude < y.magnitude ∧ (m * 2 ^ (w.minExponent + k) : ℚ) < n * 2 ^ (w.minExponent + j) := by
  have hn : w.leadingBit ≤ n := hy.lower.resolve_left (by omega)
  have hm := hx.upper
  constructor
  · have hstep : (k + 1) * w.leadingBit ≤ j * w.leadingBit := Nat.mul_le_mul_right _ h
    rw [Nat.succ_mul] at hstep
    rw [hx.magnitude, hy.magnitude]
    omega
  · have hpow := zpow_pos (zero_lt_two' ℚ) (w.minExponent + k)
    calc (m * 2 ^ (w.minExponent + k) : ℚ) < (2 * w.leadingBit : Nat) * 2 ^ (w.minExponent + k) :=
          mul_lt_mul_of_pos_right (by exact_mod_cast hm) hpow
      _ = w.leadingBit * 2 ^ (w.minExponent + k + 1) := by
          rw [zpow_add_one₀ two_ne_zero]
          push_cast
          ring
      _ ≤ w.leadingBit * 2 ^ (w.minExponent + j) :=
          mul_le_mul_of_nonneg_left (zpow_le_zpow_right₀ one_le_two (by omega)) (Nat.cast_nonneg _)
      _ ≤ n * 2 ^ (w.minExponent + j) := mul_le_mul_of_nonneg_right (by exact_mod_cast hn) (zpow_pos (zero_lt_two' ℚ) _).le

theorem Represents.magnitude_le_iff (hx : x.Represents s r) (hy : y.Represents t q) :
    x.magnitude ≤ y.magnitude ↔ r ≤ q := by
  obtain ⟨-, m, k, hxs, rfl⟩ := hx.stored
  obtain ⟨-, n, j, hys, rfl⟩ := hy.stored
  rcases Nat.lt_trichotomy k j with h | rfl | h
  · have hlt := hxs.lt_of_lt hys h
    exact iff_of_true hlt.1.le hlt.2.le
  · rw [hxs.magnitude, hys.magnitude, Nat.add_le_add_iff_left, mul_le_mul_iff_left₀ (zpow_pos (zero_lt_two' ℚ) _), Nat.cast_le]
  · have hlt := hys.lt_of_lt hxs h
    exact iff_of_false hlt.1.not_ge hlt.2.not_ge

theorem Represents.magnitude_eq_zero_iff (hx : x.Represents s r) : x.magnitude = 0 ↔ r = 0 := by
  have hzero := hx.magnitude_le_iff (represents_zero w false)
  rw [zero, magnitude_ofMagnitude _ w.highBit_pos] at hzero
  rw [← Nat.le_zero, hzero]
  exact ⟨fun h => le_antisymm h hx.nonneg, le_of_eq⟩

/-- a pattern that is not a NaN is an infinity or a number -/
theorem infinite_or_represents (hx : x.isNaN = false) :
    (x.datum = .infinite x.negative ∧ x.magnitude = w.infinity) ∨ ∃ r, x.Represents x.negative r := by
  obtain ⟨-, hmag⟩ | h | ⟨m, k, -, hstored⟩ := datum_cases x
  · rw [isNaN, decide_eq_true hmag] at hx
    cases hx
  · exact .inl h
  · exact .inr ⟨_, .of_stored hstored⟩

/-! ## Comparisons -/

/-- numbers under their signs are ordered as their magnitudes under the same signs -/
theorem Represents.signed_le_iff (hx : x.Represents s r) (hy : y.Represents t q) :
    signed s r ≤ signed t q ↔ x.key ≤ y.key := by
  have hle := hx.magnitude_le_iff hy
  have hge := hy.magnitude_le_iff hx
  have hr := hx.nonneg
  have hq := hy.nonneg
  rw [key, key, hx.negative, hy.negative]
  cases s with
  | false =>
    cases t with
    | false =>
      simp only [signed_false, Bool.false_eq_true, if_false]
      rw [← hle, Nat.cast_le]
    | true =>
      -- only zero is neither below nor above zero
      have hx₀ := hx.magnitude_eq_zero_iff
      have hy₀ := hy.magnitude_eq_zero_iff
      simp only [signed_false, signed_true, Bool.false_eq_true, if_false, if_true]
      constructor
      · intro h
        have hxm := hx₀.2 (by linarith)
        have hym := hy₀.2 (by linarith)
        omega
      · intro h
        have hr₀ := hx₀.1 (by omega)
        have hq₀ := hy₀.1 (by omega)
        linarith
  | true =>
    cases t with
    | false =>
      simp only [signed_false, signed_true, Bool.false_eq_true, if_false, if_true]
      exact iff_of_true (by linarith) (by omega)
    | true =>
      simp only [signed_true, if_true, neg_le_neg_iff]
      rw [← hge, Nat.cast_le]

/-- **Signed magnitudes are ordered as the exact values** -/
theorem value_le_iff (hx : x.isNaN = false) (hy : y.isNaN = false) : x.value ≤ y.value ↔ x.key ≤ y.key := by
  have hinf := w.infinity_pos
  obtain ⟨hxd, hxm⟩ | ⟨r, hxr⟩ := infinite_or_represents hx
  · obtain ⟨hyd, hym⟩ | ⟨q, hyr⟩ := infinite_or_represents hy
    · rw [value, value, hxd, hyd, key, key, hxm, hym]
      cases x.negative <;> cases y.negative <;> simp [Datum.value]
      omega
    · have hym := hyr.magnitude_lt
      rw [hyr.value, value, hxd, key, key, hxm]
      cases x.negative <;> cases y.negative <;> simp [Datum.value] <;> omega
  · have hxm := hxr.magnitude_lt
    obtain ⟨hyd, hym⟩ | ⟨q, hyr⟩ := infinite_or_represents hy
    · rw [hxr.value, value, hyd, key, key, hym]
      cases x.negative <;> cases y.negative <;> simp [Datum.value] <;> omega
    · rw [hxr.value, hyr.value, WithBot.coe_le_coe, WithTop.coe_le_coe]
      exact hxr.signed_le_iff hyr

theorem value_eq_iff (hx : x.isNaN = false) (hy : y.isNaN = false) : x.value = y.value ↔ x.key = y.key := by
  rw [le_antisymm_iff, value_le_iff hx hy, value_le_iff hy hx, ← le_antisymm_iff]

theorem value_lt_iff (hx : x.isNaN = false) (hy : y.isNaN = false) : x.value < y.value ↔ x.key < y.key := by
  rw [lt_iff_not_ge, value_le_iff hy hx, not_le]

theorem ordered_iff : ordered x y = true ↔ x.isNaN = false ∧ y.isNaN = false := by
  simp [ordered]

/-- apart from NaNs, `le` compares exact values -/
theorem le_iff_value (hx : x.isNaN = false) (hy : y.isNaN = false) : le x y = true ↔ x.value ≤ y.value := by
  rw [le, ordered_iff.2 ⟨hx, hy⟩, Bool.true_and, decide_eq_true_iff, value_le_iff hx hy]

theorem Represents.ordered (hx : x.Represents s r) (hy : y.Represents t q) : FloatBits.ordered x y = true :=
  ordered_iff.2 ⟨hx.isNaN, hy.isNaN⟩

theorem Represents.le_iff (hx : x.Represents s r) (hy : y.Represents t q) : le x y = true ↔ signed s r ≤ signed t q := by
  rw [le, hx.ordered hy, Bool.true_and, decide_eq_true_iff, hx.signed_le_iff hy]

theorem Represents.lt_iff (hx : x.Represents s r) (hy : y.Represents t q) : lt x y = true ↔ signed s r < signed t q := by
  rw [lt, hx.ordered hy, Bool.true_and, decide_eq_true_iff, lt_iff_not_ge, ← hy.signed_le_iff hx, not_le]

theorem Represents.eq_iff (hx : x.Represents s r) (hy : y.Represents t q) : eq x y = true ↔ signed s r = signed t q := by
  rw [eq, hx.ordered hy, Bool.true_and, beq_iff_eq, le_antisymm_iff, le_antisymm_iff, hx.signed_le_iff hy,
    hy.signed_le_iff hx]

/-! ## Minimum and maximum -/

/-- The order of the exact values in which the negative zero is below the positive one. -/
def NotAbove (x y : FloatBits w) : Prop :=
  x.value < y.value ∨ (x.value = y.value ∧ (x.negative = true ∨ y.negative = false))

/-- the place in this order -/
def rank (x : FloatBits w) : Int :=
  if x.negative then -(x.magnitude : Int) - 1 else x.magnitude

theorem rank_inj (h : x.rank = y.rank) : x = y := by
  unfold rank at h
  cases hx : x.negative with
  | false =>
    cases hy : y.negative with
    | false =>
      rw [hx, hy, if_neg Bool.false_ne_true, if_neg Bool.false_ne_true] at h
      exact eq_of_magnitude (hx.trans hy.symm) (by omega)
    | true =>
      rw [hx, hy, if_neg Bool.false_ne_true, if_pos rfl] at h
      omega
  | true =>
    cases hy : y.negative with
    | false =>
      rw [hx, hy, if_neg Bool.false_ne_true, if_pos rfl] at h
      omega
    | true =>
      rw [hx, hy, if_pos rfl, if_pos rfl] at h
      exact eq_of_magnitude (hx.trans hy.symm) (by omega)

theorem notAbove_iff (hx : x.isNaN = false) (hy : y.isNaN = false) : x.NotAbove y ↔ x.rank ≤ y.rank := by
  rw [NotAbove, value_lt_iff hx hy, value_eq_iff hx hy]
  unfold rank key
  cases x.negative <;> cases y.negative <;> simp <;> omega

theorem rank_le_of_key_lt (h : x.key < y.key) : x.rank ≤ y.rank := by
  unfold key at h
  unfold rank
  split <;> split <;> simp_all <;> omega

/-- only the two zeros have one place among the comparisons and two in this order -/
theorem rank_le_of_key_le (hz : (x.isZero && y.isZero) = false) (h : x.key ≤ y.key) : x.rank ≤ y.rank := by
  unfold key at h
  unfold rank
  simp only [isZero, Bool.and_eq_false_iff, beq_eq_false_iff_ne] at hz
  split <;> split <;> simp_all <;> omega

theorem rank_of_isZero (h : x.isZero = true) : x.rank = if x.negative then -1 else 0 := by
  rw [rank, show x.magnitude = 0 from beq_iff_eq.1 h]
  rfl

theorem lt_iff_key (ho : ordered x y = true) : lt x y = true ↔ x.key < y.key := by
  rw [lt, ho, Bool.true_and, decide_eq_true_iff]

theorem ordered_comm (x y : FloatBits w) : ordered x y = ordered y x :=
  Bool.and_comm _ _

/-- the minimum is the lower one of the two places -/
theorem rank_minimum (ho : ordered x y = true) : (minimum x y).rank = min x.rank y.rank := by
  rw [minimum, ho, if_neg (by decide)]
  cases hz : x.isZero && y.isZero with
  | true =>
    rw [Bool.and_eq_true] at hz
    rw [if_pos rfl, apply_ite rank, rank_of_isZero hz.1, rank_of_isZero hz.2]
    cases x.negative <;> cases y.negative <;> rfl
  | false =>
    rw [if_neg Bool.false_ne_true]
    by_cases hlt : lt x y = true
    · rw [if_pos hlt, min_eq_left (rank_le_of_key_lt ((lt_iff_key ho).1 hlt))]
    · rw [if_neg hlt, min_eq_right]
      rw [lt_iff_key ho, not_lt] at hlt
      exact rank_le_of_key_le (Bool.and_comm _ _ ▸ hz) hlt

/-- the maximum is the upper one of the two places -/
theorem rank_maximum (ho : ordered x y = true) : (maximum x y).rank = max x.rank y.rank := by
  rw [maximum, ho, if_neg (by decide)]
  cases hz : x.isZero && y.isZero with
  | true =>
    rw [Bool.and_eq_true] at hz
    rw [if_pos rfl, apply_ite rank, rank_of_isZero hz.1, rank_of_isZero hz.2]
    cases x.negative <;> cases y.negative <;> rfl
  | false =>
    have ho' : ordered y x = true := ordered_comm x y ▸ ho
    rw [if_neg Bool.false_ne_true]
    by_cases hlt : lt y x = true
    · rw [if_pos hlt, max_eq_left (rank_le_of_key_lt ((lt_iff_key ho').1 hlt))]
    · rw [if_neg hlt, max_eq_right]
      rw [lt_iff_key ho', not_lt] at hlt
      exact rank_le_of_key_le hz hlt

theorem isNaN_nan (w : Width) : (nan w).isNaN = true := by
  cases w <;> decide

/-- An operation that answers the NaN to a NaN, and else one of its operands, which it picks by their places. -/
structure Picks (op : FloatBits w → FloatBits w → FloatBits w) (f : Int → Int → Int) : Prop where
  unordered : ∀ {x y}, ordered x y = false → op x y = nan w
  rank : ∀ {x y}, ordered x y = true → (op x y).rank = f x.rank y.rank
  choice : ∀ a b, f a b = a ∨ f a b = b

theorem minimum_picks : Picks (minimum (w := w)) min where
  unordered ho := by rw [minimum, ho]; rfl
  rank := rank_minimum
  choice := min_choice

theorem maximum_picks : Picks (maximum (w := w)) max where
  unordered ho := by rw [maximum, ho]; rfl
  rank := rank_maximum
  choice := max_choice

namespace Picks

variable {op : FloatBits w → FloatBits w → FloatBits w} {f : Int → Int → Int} (hop : Picks op f)
include hop

theorem eq_or (ho : FloatBits.ordered x y = true) : op x y = x ∨ op x y = y := by
  rcases hop.choice x.rank y.rank with h | h
  · exact .inl (rank_inj ((hop.rank ho).trans h))
  · exact .inr (rank_inj ((hop.rank ho).trans h))

/-- a NaN answers to a NaN only -/
theorem isNaN (x y : FloatBits w) : (op x y).isNaN = !FloatBits.ordered x y := by
  cases ho : FloatBits.ordered x y with
  | true =>
    obtain ⟨hx, hy⟩ := ordered_iff.1 ho
    rcases hop.eq_or ho with h | h
    · rw [h, hx]
      rfl
    · rw [h, hy]
      rfl
  | false =>
    rw [hop.unordered ho, isNaN_nan]
    rfl

theorem comm (hf : ∀ a b, f a b = f b a) (x y : FloatBits w) : op x y = op y x := by
  cases ho : FloatBits.ordered x y with
  | true =>
    apply rank_inj
    rw [hop.rank ho, hop.rank (ordered_comm x y ▸ ho), hf]
  | false => rw [hop.unordered ho, hop.unordered (ordered_comm x y ▸ ho)]

theorem assoc (hf : ∀ a b c, f (f a b) c = f a (f b c)) (x y z : FloatBits w) : op (op x y) z = op x (op y z) := by
  have hleft : FloatBits.ordered (op x y) z = (FloatBits.ordered x y && !z.isNaN) := by
    rw [FloatBits.ordered, hop.isNaN, Bool.not_not]
  have hright : FloatBits.ordered x (op y z) = (FloatBits.ordered x y && !z.isNaN) := by
    rw [FloatBits.ordered, hop.isNaN, Bool.not_not, FloatBits.ordered, FloatBits.ordered, Bool.and_assoc]
  cases ho : FloatBits.ordered x y && !z.isNaN with
  | true =>
    have hxy : FloatBits.ordered x y = true := (Bool.and_eq_true _ _ ▸ ho).1
    have hyz : FloatBits.ordered y z = true := by
      rw [FloatBits.ordered, Bool.and_eq_true, Bool.and_eq_true] at ho
      rw [FloatBits.ordered, Bool.and_eq_true]
      exact ⟨ho.1.2, ho.2⟩
    apply rank_inj
    rw [hop.rank (hleft.trans ho), hop.rank hxy, hop.rank (hright.trans ho), hop.rank hyz, hf]
  | false => rw [hop.unordered (hleft.trans ho), hop.unordered (hright.trans ho)]

end Picks

/-- **Minimum and maximum are a lattice on the patterns.** They are commutative and associative on all bit patterns. If one
operand is a NaN, they answer the positive canonical NaN. If none is, they answer one of the operands bit for bit, and it is
not above, or not below, either of them in the order of the exact values with the negative zero below the positive one; of
one operand taken twice they answer that operand, and each absorbs the other. -/
theorem minimum_maximum_lattice (a b c : FloatBits w) :
    (minimum a b = minimum b a ∧ maximum a b = maximum b a) ∧
    (minimum (minimum a b) c = minimum a (minimum b c) ∧ maximum (maximum a b) c = maximum a (maximum b c)) ∧
    (a.datum = .nan ∨ b.datum = .nan →
      minimum a b = canonicalNaN w false ∧ maximum a b = canonicalNaN w false) ∧
    (a.datum ≠ .nan → b.datum ≠ .nan →
      (minimum a b = a ∨ minimum a b = b) ∧ (maximum a b = a ∨ maximum a b = b) ∧
      ((minimum a b).NotAbove a ∧ (minimum a b).NotAbove b) ∧ (a.NotAbove (maximum a b) ∧ b.NotAbove (maximum a b)) ∧
      (minimum a a = a ∧ maximum a a = a) ∧
      (minimum a (maximum a b) = a ∧ maximum a (minimum a b) = a)) ∧
    (canonicalNaN .w32 false = 0x7FC00000 ∧ canonicalNaN .w64 false = 0x7FF8000000000000) := by
  have hmin : Picks (minimum (w := w)) min := minimum_picks
  have hmax : Picks (maximum (w := w)) max := maximum_picks
  refine ⟨⟨hmin.comm min_comm a b, hmax.comm max_comm a b⟩, ⟨hmin.assoc min_assoc a b c, hmax.assoc max_assoc a b c⟩,
    ?nan, ?numbers, rfl, rfl⟩
  case nan =>
    intro h
    have ho : ordered a b = false := by
      rw [← isNaN_iff, ← isNaN_iff] at h
      rw [ordered, ← Bool.not_or, Bool.not_eq_false', Bool.or_eq_true]
      exact h
    exact ⟨hmin.unordered ho, hmax.unordered ho⟩
  case numbers =>
    intro ha hb
    rw [ne_eq, ← isNaN_iff, Bool.not_eq_true] at ha hb
    have ho := ordered_iff.2 ⟨ha, hb⟩
    have haa := ordered_iff.2 ⟨ha, ha⟩
    have hminNaN : (minimum a b).isNaN = false := by rw [hmin.isNaN, ho]; rfl
    have hmaxNaN : (maximum a b).isNaN = false := by rw [hmax.isNaN, ho]; rfl
    refine ⟨hmin.eq_or ho, hmax.eq_or ho, ⟨?_, ?_⟩, ⟨?_, ?_⟩, ⟨?_, ?_⟩, ?_, ?_⟩
    · rw [notAbove_iff hminNaN ha, rank_minimum ho]
      exact min_le_left _ _
    · rw [notAbove_iff hminNaN hb, rank_minimum ho]
      exact min_le_right _ _
    · rw [notAbove_iff ha hmaxNaN, rank_maximum ho]
      exact le_max_left _ _
    · rw [notAbove_iff hb hmaxNaN, rank_maximum ho]
      exact le_max_right _ _
    · exact (hmin.eq_or haa).elim id id
    · exact (hmax.eq_or haa).elim id id
    · apply rank_inj
      rw [rank_minimum (ordered_iff.2 ⟨ha, hmaxNaN⟩), rank_maximum ho, min_eq_left (le_max_left _ _)]
    · apply rank_inj
      rw [rank_maximum (ordered_iff.2 ⟨ha, hminNaN⟩), rank_minimum ho, max_eq_left (min_le_left _ _)]

/-- a negative and a positive zero, and a NaN with a payload -/
theorem minimum_maximum_lattice_zeros :
    datum (w := .w32) 0x80000000 ≠ .nan ∧ datum (w := .w32) 0 ≠ .nan ∧ datum (w := .w32) 0x7F800001 = .nan ∧
    minimum (w := .w32) 0x80000000 (maximum (w := .w32) 0x80000000 0) = 0x80000000 ∧
    minimum (w := .w32) 0x80000000 0x7F800001 = 0x7FC00000 := by
  have hzeros := (minimum_maximum_lattice (w := .w32) 0x80000000 0 0).2.2.2.1 (by decide) (by decide)
  have hnan := (minimum_maximum_lattice (w := .w32) 0x80000000 0x7F800001 0).2.2.1 (.inr (by decide))
  exact ⟨by decide, by decide, by decide, hzeros.2.2.2.2.2.1, hnan.1⟩

end FloatBits

end WasmCore
