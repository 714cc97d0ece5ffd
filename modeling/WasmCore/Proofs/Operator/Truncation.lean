/-
Truncation into the range of an integer.

`truncateTo` compares a number with two limits of its target and cuts the fraction off only between them. That is the same
as cutting it off first and clamping the integer then (`Represents.truncateTo`): the lower limit is the smallest integer of
the target, and the upper one is not below the largest, which a format with fewer digits need not have as a number. The
narrow format gets there through the wide one, which has all its numbers (`Represents.widen`).
-/
import WasmCore.Proofs.Exec
import WasmCore.Proofs.Float.Arithmetic
import WasmCore.Proofs.Float.Order
import WasmCore.Proofs.Operator.Words

namespace WasmCore

/-! ## The integer part -/

/-- the integer that is left of a number without its fraction -/
def truncated (v : ℚ) : Int :=
  if v < 0 then ⌈v⌉ else ⌊v⌋

section
variable {r u v : ℚ} {n : Int} {s : Bool}

theorem truncated_signed (s : Bool) (hr : 0 ≤ r) : truncated (signed s r) = if s then -(⌊r⌋₊ : Int) else ⌊r⌋₊ := by
  have hfloor : (⌊r⌋₊ : Int) = ⌊r⌋ := Int.natCast_floor_eq_floor hr
  rw [truncated]
  cases s with
  | false => rw [signed_false, if_neg (not_lt.2 hr), hfloor, if_neg Bool.false_ne_true]
  | true =>
    rw [signed_true, if_pos rfl, hfloor, Int.ceil_neg]
    split
    · rfl
    · have hzero : r = 0 := by linarith
      simp [hzero]

theorem truncated_intCast (n : Int) : truncated n = n := by
  rw [truncated, Int.ceil_intCast, Int.floor_intCast, ite_self]

theorem truncated_mono (h : u ≤ v) : truncated u ≤ truncated v := by
  rw [truncated, truncated]
  split
  next hu =>
    split
    next => exact Int.ceil_mono h
    next hv =>
      have hceil : ⌈u⌉ ≤ 0 := Int.ceil_le.2 (by exact_mod_cast hu.le)
      have hfloor : 0 ≤ ⌊v⌋ := Int.floor_nonneg.2 (not_lt.1 hv)
      exact hceil.trans hfloor
  next hu => rw [if_neg (not_lt.2 ((not_lt.1 hu).trans h))]; exact Int.floor_mono h

end

namespace FloatBits

variable {w : Width} {x y : FloatBits w} {s t : Bool} {r : ℚ} {lo hi n : Int}

theorem clamp_of_le (hrange : lo ≤ hi) (h : n ≤ lo) : clamp lo hi n = lo := by
  rw [clamp, min_eq_right (h.trans hrange), max_eq_left h]

theorem clamp_of_ge (hrange : lo ≤ hi) (h : hi ≤ n) : clamp lo hi n = hi := by
  rw [clamp, min_eq_left h, max_eq_right hrange]

theorem Represents.toIntSaturating (hx : x.Represents s r) (lo hi : Int) :
    x.toIntSaturating lo hi = clamp lo hi (truncated (signed s r)) := by
  have hr := hx.nonneg
  obtain ⟨m, e, hxd, rfl⟩ := hx
  have hfloor : (dyadicRatio m e).1 / (dyadicRatio m e).2 = ⌊(m * 2 ^ e : ℚ)⌋₊ := by
    rw [← dyadicRatio_eq, Nat.floor_div_eq_div]
  simp only [FloatBits.toIntSaturating, hxd, truncToInt, hfloor, truncated_signed s hr]

/-! ## The wider format -/

/-- the wide format has the numbers of the narrow one -/
theorem Representable.wider (h : Representable .w32 r) : Representable .w64 r := by
  obtain ⟨m, e, hupper, hmin, hmax, hr⟩ := h
  simp only [Width.leadingBit, Width.minExponent, Width.topField] at hupper hmin hmax
  refine ⟨m, e, ?_, ?_, ?_, hr⟩ <;> simp only [Width.leadingBit, Width.minExponent, Width.topField] <;> omega

theorem Represents.widen (hx : x.Represents s r) : x.widen.Represents s r := by
  cases w with
  | w64 => exact hx
  | w32 =>
    have hr := hx.nonneg
    have hrep := hx.representable.wider
    obtain ⟨m, e, hxd, rfl⟩ := hx
    have hround : x.widen = ofRational .w64 s (m * 2 ^ e) := by
      simp only [FloatBits.widen, resize, hxd, ofDyadic_eq]
    rw [hround]
    exact hrep.rounds s hr

theorem widen_nan (hx : x.datum = .nan) : x.widen.datum = .nan := by
  cases w with
  | w64 => exact hx
  | w32 =>
    have hnan : x.widen = nan .w64 := by simp only [widen, resize, hx]
    rw [hnan]
    decide

theorem widen_infinite (hx : x.datum = .infinite s) : x.widen.datum = .infinite s := by
  cases w with
  | w64 => exact hx
  | w32 =>
    have hinfinite : x.widen = infinity .w64 s := by simp only [widen, resize, hx]
    rw [hinfinite]
    cases s <;> decide

/-! ## The limits -/

theorem signed_natAbs (n : Int) : signed (decide (n < 0)) n.natAbs = n := by
  rw [Nat.cast_natAbs, Int.cast_abs]
  by_cases h : n < 0
  · rw [decide_eq_true h, signed_true, abs_of_neg (by exact_mod_cast h), neg_neg]
  · rw [decide_eq_false h, signed_false, abs_of_nonneg (by exact_mod_cast not_lt.1 h)]

theorem exact_ofInt (h : Representable w n.natAbs) : ∃ s r, (ofInt w n).Represents s r ∧ signed s r = n :=
  ⟨_, _, represents_ofInt h, signed_natAbs n⟩

theorem representable_limit {k : Nat} (h : k ≤ 64) : Representable .w64 (2 ^ k : Nat) := by
  have hrep := representable_two_pow (w := .w64) (n := k) (by simp only [Width.minExponent, Width.topField]; omega)
  exact_mod_cast hrep

/-- the lower limit is the smallest integer of the target -/
theorem represents_lowerLimit (sg : Signedness) (target : Width) :
    ∃ s r, (lowerLimit sg target).Represents s r ∧ signed s r = sg.lowest target := by
  cases sg with
  | unsigned => exact exact_ofInt (representable_natCast (Nat.zero_le _))
  | signed =>
    cases target with
    | w32 => exact exact_ofInt (representable_limit (k := 31) (by decide))
    | w64 => exact exact_ofInt (representable_limit (k := 63) (by decide))

/-- the upper limit is the largest integer of the target or the one after it -/
theorem represents_upperLimit (sg : Signedness) (target : Width) :
    ∃ s r, (upperLimit sg target).Represents s r ∧ (sg.highest target : ℚ) ≤ signed s r := by
  have hlimit {n : Int} (hn : Representable .w64 n.natAbs) (h : sg.highest target ≤ n) :
      ∃ s r, (ofInt .w64 n).Represents s r ∧ (sg.highest target : ℚ) ≤ signed s r := by
    obtain ⟨s, r, hrep, hr⟩ := exact_ofInt hn
    exact ⟨s, r, hrep, hr ▸ Int.cast_le.2 h⟩
  cases sg with
  | unsigned =>
    cases target with
    | w32 => exact hlimit (representable_limit (k := 32) (by decide)) (by decide)
    | w64 => exact hlimit (representable_limit (k := 64) (by decide)) (by decide)
  | signed =>
    cases target with
    | w32 => exact hlimit (representable_natCast (by decide)) (by decide)
    | w64 => exact hlimit (representable_limit (k := 63) (by decide)) (by decide)

/-! ## Cutting off and clamping -/

/-- **Between the limits and beyond them, the answer is the clamped integer part** -/
theorem Represents.truncateTo {x : FloatBits .w64} (hx : x.Represents s r) (sg : Signedness) (target : Width) :
    x.truncateTo target sg = clamp (sg.lowest target) (sg.highest target) (truncated (signed s r)) := by
  have hrange := sg.lowest_le_highest target
  obtain ⟨_, _, hlower, hlo⟩ := represents_lowerLimit sg target
  obtain ⟨_, _, hupper, hhi⟩ := represents_upperLimit sg target
  rw [FloatBits.truncateTo, hx.isNaN, if_neg Bool.false_ne_true]
  by_cases hbelow : le x (lowerLimit sg target) = true
  · have hle := (hx.le_iff hlower).1 hbelow
    rw [hlo] at hle
    rw [if_pos hbelow, clamp_of_le hrange]
    calc truncated (signed s r) ≤ truncated (sg.lowest target) := truncated_mono hle
      _ = sg.lowest target := truncated_intCast _
  rw [if_neg hbelow]
  by_cases habove : le (upperLimit sg target) x = true
  · have hle := hhi.trans ((hupper.le_iff hx).1 habove)
    rw [if_pos habove, clamp_of_ge hrange]
    calc sg.highest target = truncated (sg.highest target) := (truncated_intCast _).symm
      _ ≤ truncated (signed s r) := truncated_mono hle
  · -- what `trunc` leaves has the same integer part
    rw [if_neg habove, hx.trunc.toIntSaturating, truncated_signed s (Nat.cast_nonneg _), Nat.floor_natCast,
      truncated_signed s hx.nonneg]

/-- an infinity is beyond both limits -/
theorem truncateTo_infinite {x : FloatBits .w64} (hx : x.datum = .infinite s) (sg : Signedness) (target : Width) :
    x.truncateTo target sg = if s then sg.lowest target else sg.highest target := by
  obtain ⟨_, _, hlower, -⟩ := represents_lowerLimit sg target
  obtain ⟨_, _, hupper, -⟩ := represents_upperLimit sg target
  have hnan : x.isNaN = false := by
    rw [← Bool.not_eq_true, isNaN_iff, hx]
    exact Datum.noConfusion
  have hlo := le_iff_value hnan hlower.isNaN
  have hhi := le_iff_value hupper.isNaN hnan
  rw [value_of_infinite hx, hlower.value] at hlo
  rw [value_of_infinite hx, hupper.value] at hhi
  rw [FloatBits.truncateTo, hnan, if_neg Bool.false_ne_true]
  cases s with
  | true => rw [if_pos (hlo.2 bot_le), if_pos rfl]
  | false =>
    have hnot : ¬ le x (lowerLimit sg target) = true := by
      rw [hlo]
      simp
    rw [if_neg hnot, if_pos (hhi.2 le_top), if_neg Bool.false_ne_true]

theorem truncateTo_nan {x : FloatBits .w64} (hx : x.datum = .nan) (sg : Signedness) (target : Width) :
    x.truncateTo target sg = 0 := by
  rw [truncateTo, isNaN_iff.2 hx, if_pos rfl]

end FloatBits

/-! ## The instructions -/

/-- the integer from `lo` to `hi` for what a pattern stands for: without a fraction and not beyond the range -/
def Datum.saturated (lo hi : Int) : Datum → Int
  | .nan => 0
  | .infinite true => lo
  | .infinite false => hi
  | .finite s m e => max lo (min hi (truncated (signed s (m * 2 ^ e))))

variable {w : Width}

theorem truncateTo_widen (sg : Signedness) (target : Width) (x : FloatBits w) :
    x.widen.truncateTo target sg = x.datum.saturated (sg.lowest target) (sg.highest target) := by
  cases hx : x.datum with
  | nan => exact FloatBits.truncateTo_nan (FloatBits.widen_nan hx) sg target
  | infinite s =>
    rw [FloatBits.truncateTo_infinite (FloatBits.widen_infinite hx)]
    cases s <;> rfl
  | finite s m e => exact (FloatBits.Represents.of_datum hx).widen.truncateTo sg target

theorem Datum.inRange_saturated (sg : Signedness) (target : Width) (d : Datum) :
    sg.inRange target (d.saturated (sg.lowest target) (sg.highest target)) = true := by
  have hrange := sg.lowest_le_highest target
  rw [Signedness.inRange_iff]
  cases d with
  | nan => cases sg <;> cases target <;> decide
  | infinite s =>
    cases s with
    | true => exact ⟨le_rfl, hrange⟩
    | false => exact ⟨hrange, le_rfl⟩
  | finite s m e => exact ⟨le_max_left _ _, max_le hrange (min_le_left _ _)⟩

/-- **Saturating truncation cuts off and clamps, on every pattern.** For both formats and all four targets: a NaN becomes
zero, an infinity the smallest or the largest integer of the target, and a number its integer part or, if that is beyond the
range of the target, the end of the range. The instructions of both families push this integer, and on every stack they do
the same. -/
theorem truncation_saturates (target : Width) (sg : Signedness) (w : Width) :
    (∀ x : FloatBits w, sg.read (truncSaturating target sg x) =
      x.datum.saturated (sg.lowest target) (sg.highest target)) ∧
    (∀ (inst : Instance) (st : State) (c : Cell) (rest : List Cell),
      (Instr.unary (.trunc target w sg)).exec inst (st.withCells (c :: rest)) =
        .ok .next (st.withResult rest (.of (truncSaturating target sg (c.low w)))) ∧
      (st.withResult rest (.of (truncSaturating target sg (c.low w)))).store.stack.cells =
        .of (truncSaturating target sg (c.low w)) :: rest) ∧
    (∀ (inst : Instance) (st : State),
      (Instr.unary (.truncSat target w sg)).exec inst st = (Instr.unary (.trunc target w sg)).exec inst st) ∧
    (Signedness.signed.lowest target = -2 ^ (target.bits - 1) ∧
      Signedness.signed.highest target = 2 ^ (target.bits - 1) - 1 ∧
      Signedness.unsigned.lowest target = 0 ∧ Signedness.unsigned.highest target = 2 ^ target.bits - 1) := by
  refine ⟨fun x => ?_, fun inst st c rest => ⟨Instr.exec_unary _ c, st.cells_withResult rest _⟩, fun inst st => rfl, ?_⟩
  · rw [truncSaturating, truncateTo_widen, Signedness.read_ofInt (x.datum.inRange_saturated sg target)]
  · cases target <;> decide

/-- the number below `2 ^ 32` has a fraction in the wide format -/
example : truncSaturating (w := .w64) .w32 .unsigned 0x41EFFFFFFFFFFFFF = 0xFFFFFFFF := by decide

end WasmCore
