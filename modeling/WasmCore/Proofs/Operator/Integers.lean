/-
What the integer instructions compute.

`IntBinOp.Computes` and `IntUnOp.Computes` say it on integers: sums and products up to multiples of two to the width, quotients
and remainders by the equation between them, shifts as products and rounded-down quotients, and bits by their positions.
`IntBinOp.Traps` lists the operands on which there is no result. For every pair of operands exactly one outcome meets these
(`IntBinOp.means_iff`), so the relations leave nothing open.
-/
import Mathlib.Algebra.BigOperators.Group.Finset.Basic
import Mathlib.Algebra.Order.Ring.Abs
import WasmCore.Proofs.Exec
import WasmCore.Proofs.Operator.Words

namespace WasmCore

theorem Width.bits_pos (w : Width) : 0 < w.bits := by
  cases w <;> decide

/-! ## Division -/

/-- quotient and remainder of `x` by `y`: the remainder is smaller than the divisor and has the sign of `x` -/
structure IsDivision (x y q r : Int) : Prop where
  sum : x = y * q + r
  small : |r| < |y|
  sign : r = 0 ∨ r.sign = x.sign

namespace IsDivision

variable {x y q r q' r' : Int}

theorem ne_zero (h : IsDivision x y q r) : y ≠ 0 := by
  rintro rfl
  have hsmall := h.small
  rw [abs_zero] at hsmall
  exact (abs_nonneg r).not_gt hsmall

/-- quotients toward zero and what they leave -/
theorem of_ne_zero (hy : y ≠ 0) : IsDivision x y (x.tdiv y) (x.tmod y) where
  sum := (Int.mul_tdiv_add_tmod x y).symm
  small := by
    rw [Int.abs_eq_natAbs, Int.abs_eq_natAbs, Int.natAbs_tmod]
    exact_mod_cast Nat.mod_lt _ (Int.natAbs_pos.2 hy)
  sign := by
    rw [Int.sign_tmod]
    split
    next hdvd => exact .inl (Int.tmod_eq_zero_of_dvd hdvd)
    next => exact .inr rfl

theorem nonneg (h : IsDivision x y q r) (hx : 0 ≤ x) : 0 ≤ r := by
  rcases h.sign with hr | hr
  · exact hr.ge
  · rwa [← Int.sign_nonneg_iff, hr, Int.sign_nonneg_iff]

theorem nonpos (h : IsDivision x y q r) (hx : x ≤ 0) : r ≤ 0 := by
  rcases h.sign with hr | hr
  · exact hr.le
  · rwa [← Int.sign_nonpos_iff, hr, Int.sign_nonpos_iff]

/-- remainders of one sign that are both smaller than the divisor differ by no multiple of it -/
theorem unique (h : IsDivision x y q r) (h' : IsDivision x y q' r') : q = q' ∧ r = r' := by
  have hsum : y * q + r = y * q' + r' := h.sum.symm.trans h'.sum
  have hdvd : |y| ∣ r - r' := by
    rw [abs_dvd]
    exact ⟨q' - q, by rw [mul_sub]; omega⟩
  obtain ⟨hlo, hhi⟩ := abs_lt.1 h.small
  obtain ⟨hlo', hhi'⟩ := abs_lt.1 h'.small
  have hsmall : |r - r'| < |y| := by
    rw [abs_lt]
    rcases le_total 0 x with hx | hx
    · have := h.nonneg hx
      have := h'.nonneg hx
      omega
    · have := h.nonpos hx
      have := h'.nonpos hx
      omega
  have hr : r = r' := sub_eq_zero.1 (Int.eq_zero_of_abs_lt_dvd hdvd hsmall)
  rw [hr, add_left_inj] at hsum
  exact ⟨mul_left_cancel₀ h.ne_zero hsum, hr⟩

end IsDivision

/-! ## Two operands -/

namespace IntBinOp

variable {w : Width}

/-- the result of an operator on two words, as integers or bit by bit -/
def Computes : IntBinOp → BitVec w.bits → BitVec w.bits → BitVec w.bits → Prop
  | add, a, b, z => ∀ s : Signedness, s.read z ≡ s.read a + s.read b [ZMOD 2 ^ w.bits]
  | sub, a, b, z => ∀ s : Signedness, s.read z ≡ s.read a - s.read b [ZMOD 2 ^ w.bits]
  | mul, a, b, z => ∀ s : Signedness, s.read z ≡ s.read a * s.read b [ZMOD 2 ^ w.bits]
  | div s, a, b, z => ∃ rest, IsDivision (s.read a) (s.read b) (s.read z) rest
  | rem s, a, b, z => ∃ quotient, IsDivision (s.read a) (s.read b) quotient (s.read z)
  | and, a, b, z => ∀ i < w.bits, z.getLsbD i = (a.getLsbD i && b.getLsbD i)
  | or, a, b, z => ∀ i < w.bits, z.getLsbD i = (a.getLsbD i || b.getLsbD i)
  | xor, a, b, z => ∀ i < w.bits, z.getLsbD i = (a.getLsbD i ^^ b.getLsbD i)
  | shl, a, b, z => ∀ s : Signedness, s.read z ≡ s.read a * 2 ^ (b.toNat % w.bits) [ZMOD 2 ^ w.bits]
  | shr s, a, b, z => s.read z = s.read a / 2 ^ (b.toNat % w.bits)
  | rotl, a, b, z => ∀ i < w.bits, z.getLsbD ((i + b.toNat) % w.bits) = a.getLsbD i
  | rotr, a, b, z => ∀ i < w.bits, z.getLsbD i = a.getLsbD ((i + b.toNat) % w.bits)

/-- why there is no result -/
inductive Traps : IntBinOp → BitVec w.bits → BitVec w.bits → Trap → Prop
  | zero {op a b s} (hop : op = div s ∨ op = rem s) (hb : b.toNat = 0) : Traps op a b .divisionByZero
  /-- the quotient is one more than the largest integer -/
  | overflow {a b} (ha : a.toInt = -2 ^ (w.bits - 1)) (hb : b.toInt = -1) : Traps (div .signed) a b .integerOverflow

/-- the outcomes of an operator -/
def Means (op : IntBinOp) (a b : BitVec w.bits) : Except Trap (BitVec w.bits) → Prop
  | .ok z => op.Computes a b z
  | .error t => op.Traps a b t

theorem shiftCount_eq (b : BitVec w.bits) : shiftCount b = b.toNat % w.bits := by
  rw [shiftCount, BitVec.toNat_setWidth]
  apply Nat.mod_mod_of_dvd
  cases w <;> decide

/-! ### Bits that move around -/

theorem getLsbD_rotateLeft (a : BitVec w.bits) {i : Nat} (hi : i < w.bits) (k : Nat) :
    (a.rotateLeft (k % w.bits)).getLsbD ((i + k) % w.bits) = a.getLsbD i := by
  have hk := Nat.mod_lt k w.bits_pos
  rw [← Nat.add_mod_mod i k]
  generalize k % w.bits = k at hk ⊢
  rw [BitVec.getLsbD_rotateLeft, Nat.mod_eq_of_lt hk]
  by_cases hsum : i + k < w.bits
  · rw [Nat.mod_eq_of_lt hsum, decide_eq_false (by omega), cond_false, decide_eq_true hsum, Bool.true_and, Nat.add_sub_cancel]
  · rw [Nat.mod_eq_sub_mod (by omega), Nat.mod_eq_of_lt (by omega), decide_eq_true (by omega), cond_true]
    congr 1
    omega

theorem getLsbD_rotateRight (a : BitVec w.bits) {i : Nat} (hi : i < w.bits) (k : Nat) :
    (a.rotateRight (k % w.bits)).getLsbD i = a.getLsbD ((i + k) % w.bits) := by
  have hk := Nat.mod_lt k w.bits_pos
  rw [← Nat.add_mod_mod i k]
  generalize k % w.bits = k at hk ⊢
  rw [BitVec.getLsbD_rotateRight, Nat.mod_eq_of_lt hk]
  by_cases hsum : i + k < w.bits
  · rw [Nat.mod_eq_of_lt hsum, decide_eq_true (by omega), cond_true, Nat.add_comm]
  · rw [Nat.mod_eq_sub_mod (by omega), Nat.mod_eq_of_lt (by omega), decide_eq_false (by omega), cond_false,
      decide_eq_true hi, Bool.true_and]
    congr 1
    omega

/-! ### What the operators answer -/

theorem read_eq_zero_iff (s : Signedness) (b : BitVec w.bits) : s.read b = 0 ↔ b = 0 := by
  have hzero : s.read (0 : BitVec w.bits) = 0 := by
    cases s <;> cases w <;> decide
  exact ⟨fun h => s.read_injective (h.trans hzero.symm), fun h => h ▸ hzero⟩

theorem toInt_intMin (w : Width) : (BitVec.intMin w.bits).toInt = -2 ^ (w.bits - 1) := by
  cases w <;> decide

theorem means_divide (s : Signedness) (a b : BitVec w.bits) : (div s).Means a b (divide s a b) := by
  unfold divide
  by_cases hb : b = 0
  · rw [if_pos hb]
    exact .zero (.inl rfl) (by rw [hb]; rfl)
  rw [if_neg hb]
  have hdivision := IsDivision.of_ne_zero (x := s.read a) (mt (read_eq_zero_iff s b).1 hb)
  cases s with
  | unsigned =>
    have hquotient : Signedness.unsigned.read (a / b) = (Signedness.unsigned.read a).tdiv (Signedness.unsigned.read b) := by
      simp only [Signedness.read, BitVec.toNat_udiv, Int.ofNat_tdiv]
    exact ⟨_, hquotient ▸ hdivision⟩
  | signed =>
    dsimp only
    by_cases hover : a = BitVec.intMin w.bits ∧ b = -1
    · rw [if_pos hover]
      obtain ⟨rfl, rfl⟩ := hover
      exact .overflow (toInt_intMin w) (by cases w <;> decide)
    · rw [if_neg hover]
      have hfits : a ≠ BitVec.intMin w.bits ∨ b ≠ -1#w.bits := by
        rw [← not_and_or]
        exact hover
      have hquotient : Signedness.signed.read (a.sdiv b) = (Signedness.signed.read a).tdiv (Signedness.signed.read b) :=
        BitVec.toInt_sdiv_of_ne_or_ne a b hfits
      exact ⟨_, hquotient ▸ hdivision⟩

theorem means_remainder (s : Signedness) (a b : BitVec w.bits) : (rem s).Means a b (remainder s a b) := by
  unfold remainder
  by_cases hb : b = 0
  · rw [if_pos hb]
    exact .zero (.inr rfl) (by rw [hb]; rfl)
  rw [if_neg hb]
  have hdivision := IsDivision.of_ne_zero (x := s.read a) (mt (read_eq_zero_iff s b).1 hb)
  cases s with
  | unsigned =>
    have hrest : Signedness.unsigned.read (a % b) = (Signedness.unsigned.read a).tmod (Signedness.unsigned.read b) := by
      simp only [Signedness.read, BitVec.toNat_umod, Int.ofNat_tmod]
    exact ⟨_, hrest ▸ hdivision⟩
  | signed =>
    have hrest : Signedness.signed.read (a.srem b) = (Signedness.signed.read a).tmod (Signedness.signed.read b) :=
      BitVec.toInt_srem a b
    exact ⟨_, hrest ▸ hdivision⟩

theorem computes_shiftRight (s : Signedness) (a b z : BitVec w.bits) (hz : eval (shr s) a b = .ok z) :
    (shr s).Computes a b z := by
  cases s with
  | signed =>
    obtain rfl := Except.ok.inj hz
    rw [Computes, Signedness.read, BitVec.toInt_sshiftRight, Int.shiftRight_eq_div_pow, shiftCount_eq]
    rfl
  | unsigned =>
    obtain rfl := Except.ok.inj hz
    rw [Computes, Signedness.read, BitVec.toNat_ushiftRight, Nat.shiftRight_eq_div_pow, shiftCount_eq]
    push_cast
    rfl

/-- the outcome is one of those that the operator may have -/
theorem means_eval (op : IntBinOp) (a b : BitVec w.bits) : op.Means a b (op.eval a b) := by
  cases op with
  | add =>
    intro s
    calc s.read (a + b) ≡ a.toInt + b.toInt [ZMOD 2 ^ w.bits] := s.read_modEq_of_bmod (BitVec.toInt_add a b)
      _ ≡ s.read a + s.read b [ZMOD 2 ^ w.bits] := (s.toInt_modEq_read a).add (s.toInt_modEq_read b)
  | sub =>
    intro s
    calc s.read (a - b) ≡ a.toInt - b.toInt [ZMOD 2 ^ w.bits] := s.read_modEq_of_bmod BitVec.toInt_sub
      _ ≡ s.read a - s.read b [ZMOD 2 ^ w.bits] := (s.toInt_modEq_read a).sub (s.toInt_modEq_read b)
  | mul =>
    intro s
    calc s.read (a * b) ≡ a.toInt * b.toInt [ZMOD 2 ^ w.bits] := s.read_modEq_of_bmod (BitVec.toInt_mul a b)
      _ ≡ s.read a * s.read b [ZMOD 2 ^ w.bits] := (s.toInt_modEq_read a).mul (s.toInt_modEq_read b)
  | div s => exact means_divide s a b
  | rem s => exact means_remainder s a b
  | and => exact fun i _ => BitVec.getLsbD_and
  | or => exact fun i _ => BitVec.getLsbD_or
  | xor => exact fun i _ => BitVec.getLsbD_xor
  | shl =>
    intro s
    have hproduct : ((a.toNat <<< shiftCount b : Nat) : Int) = a.toNat * 2 ^ (b.toNat % w.bits) := by
      rw [Nat.shiftLeft_eq, shiftCount_eq]
      push_cast
      rfl
    calc s.read (a <<< shiftCount b) ≡ (a.toNat <<< shiftCount b : Nat) [ZMOD 2 ^ w.bits] :=
          s.read_modEq_of_bmod BitVec.toInt_shiftLeft
      _ = a.toNat * 2 ^ (b.toNat % w.bits) := hproduct
      _ ≡ s.read a * 2 ^ (b.toNat % w.bits) [ZMOD 2 ^ w.bits] := (s.read_modEq a).symm.mul_right _
  | shr s =>
    cases s with
    | signed => exact computes_shiftRight .signed a b _ rfl
    | unsigned => exact computes_shiftRight .unsigned a b _ rfl
  | rotl =>
    intro i hi
    rw [shiftCount_eq]
    exact getLsbD_rotateLeft a hi b.toNat
  | rotr =>
    intro i hi
    rw [shiftCount_eq]
    exact getLsbD_rotateRight a hi b.toNat

/-! ### There is no other outcome -/

theorem Computes.unique {op : IntBinOp} {a b z z' : BitVec w.bits} (h : op.Computes a b z) (h' : op.Computes a b z') :
    z = z' := by
  have hbits {f : Nat → Bool} (hz : ∀ i < w.bits, z.getLsbD i = f i) (hz' : ∀ i < w.bits, z'.getLsbD i = f i) : z = z' :=
    BitVec.eq_of_getLsbD_eq fun i hi => (hz i hi).trans (hz' i hi).symm
  cases op with
  | add | sub | mul | shl => exact Signedness.eq_of_modEq ((h .unsigned).trans (h' .unsigned).symm)
  | div s =>
    obtain ⟨_, h⟩ := h
    obtain ⟨_, h'⟩ := h'
    exact s.read_injective (h.unique h').1
  | rem s =>
    obtain ⟨_, h⟩ := h
    obtain ⟨_, h'⟩ := h'
    exact s.read_injective (h.unique h').2
  | and | or | xor | rotr => exact hbits h h'
  | shr s => exact s.read_injective (h.trans h'.symm)
  | rotl =>
    -- every position is the one that some bit is moved to
    apply BitVec.eq_of_getLsbD_eq
    intro j hj
    have hk := Nat.mod_lt b.toNat w.bits_pos
    have hi := Nat.mod_lt (j + (w.bits - b.toNat % w.bits)) w.bits_pos
    have hj' : ((j + (w.bits - b.toNat % w.bits)) % w.bits + b.toNat) % w.bits = j := by
      rw [Nat.mod_add_mod, ← Nat.add_mod_mod, Nat.add_assoc, Nat.sub_add_cancel hk.le, Nat.add_mod_right, Nat.mod_eq_of_lt hj]
    have hz := (h _ hi).trans (h' _ hi).symm
    rwa [hj'] at hz

theorem Traps.unique {op : IntBinOp} {a b : BitVec w.bits} {t t' : Trap} (h : op.Traps a b t) (h' : op.Traps a b t') :
    t = t' := by
  have hexcl (h₀ : b.toNat = 0) (h₁ : b.toInt = -1) : False := by
    obtain rfl : b = 0 := BitVec.eq_of_toNat_eq h₀
    rw [BitVec.ofNat_eq_ofNat, BitVec.toInt_zero] at h₁
    exact absurd h₁ (by decide)
  cases h with
  | zero hop hb =>
    cases h' with
    | zero => rfl
    | overflow _ hb' => exact (hexcl hb hb').elim
  | overflow _ hb =>
    cases h' with
    | zero _ hb' => exact (hexcl hb' hb).elim
    | overflow => rfl

theorem Traps.not_computes {op : IntBinOp} {a b z : BitVec w.bits} {t : Trap} (h : op.Traps a b t) :
    ¬ op.Computes a b z := by
  intro hz
  cases h with
  | zero hop hb =>
    have hread (s : Signedness) : s.read b = 0 := (read_eq_zero_iff s b).2 (BitVec.eq_of_toNat_eq hb)
    rcases hop with rfl | rfl
    · obtain ⟨_, hz⟩ := hz
      exact hz.ne_zero (hread _)
    · obtain ⟨_, hz⟩ := hz
      exact hz.ne_zero (hread _)
  | overflow ha hb =>
    obtain ⟨_, hz⟩ := hz
    rw [Signedness.read, Signedness.read, Signedness.read, ha, hb] at hz
    have hquotient : IsDivision (-2 ^ (w.bits - 1)) (-1) (2 ^ (w.bits - 1)) 0 :=
      ⟨by rw [neg_one_mul, add_zero], by decide, .inl rfl⟩
    exact z.toInt_lt.ne (hz.unique hquotient).1

/-- **An operator has one outcome, and this is what it answers** -/
theorem means_iff {op : IntBinOp} {a b : BitVec w.bits} {o : Except Trap (BitVec w.bits)} :
    op.Means a b o ↔ o = op.eval a b := by
  constructor
  · intro h
    have heval := means_eval op a b
    cases o with
    | ok z =>
      cases hz : op.eval a b with
      | ok z' => rw [Computes.unique h (hz ▸ heval : op.Means a b (.ok z'))]
      | error t => exact absurd h (Traps.not_computes (hz ▸ heval : op.Means a b (.error t)))
    | error t =>
      cases hz : op.eval a b with
      | ok z => exact absurd (hz ▸ heval : op.Means a b (.ok z)) (Traps.not_computes h)
      | error t' => rw [Traps.unique h (hz ▸ heval : op.Means a b (.error t'))]
  · rintro rfl
    exact means_eval op a b

end IntBinOp

/-! ## One operand -/

/-- the low `k` bits read with a sign -/
structure SignExtends (k : Nat) (x : Nat) (z : Int) : Prop where
  residue : z ≡ x [ZMOD 2 ^ k]
  lower : -2 ^ (k - 1) ≤ z
  upper : z < 2 ^ (k - 1)

namespace SignExtends

variable {k n x : Nat} {z z' : Int}

theorem signExtendLow (hk : k ≤ n) (a : BitVec n) : SignExtends k a.toNat (signExtendLow k a).toInt := by
  have hlow : (WasmCore.signExtendLow k a).toInt = (a.setWidth k).toInt := BitVec.toInt_signExtend_of_le hk
  rw [hlow]
  refine ⟨?_, (a.setWidth k).le_toInt, (a.setWidth k).toInt_lt⟩
  rw [BitVec.toInt_setWidth]
  exact Signedness.bmod_modEq _ k

theorem unique (hk : 0 < k) (h : SignExtends k x z) (h' : SignExtends k x z') : z = z' := by
  have hdvd : (2 : Int) ^ k ∣ z - z' := (h'.residue.trans h.residue.symm).dvd
  have hpow : (2 : Int) ^ k = 2 * 2 ^ (k - 1) := (mul_pow_sub_one hk.ne' 2).symm
  have hsmall : |z - z'| < 2 ^ k := by
    have := h.lower
    have := h.upper
    have := h'.lower
    have := h'.upper
    rw [abs_lt]
    omega
  exact sub_eq_zero.1 (Int.eq_zero_of_abs_lt_dvd hdvd hsmall)

end SignExtends

/-- the first one among `n` digits is the one with index `k`, or there is none and `k` is `n` -/
structure FirstOne (digit : Nat → Bool) (n k : Nat) : Prop where
  le : k ≤ n
  zeros : ∀ i < k, digit i = false
  one : k < n → digit k = true

theorem FirstOne.unique {digit : Nat → Bool} {n k k' : Nat} (h : FirstOne digit n k) (h' : FirstOne digit n k') :
    k = k' := by
  -- up to the later one, all digits before it are zero
  have hle {j j' : Nat} (hj : FirstOne digit n j) (hj' : FirstOne digit n j') : j' ≤ j := by
    refine not_lt.1 fun hlt => ?_
    have hone := hj.one (hlt.trans_le hj'.le)
    rw [hj'.zeros j hlt] at hone
    exact Bool.false_ne_true hone
  exact le_antisymm (hle h' h) (hle h h')

namespace IntUnOp

variable {w : Width}

/-- the result of an operator on a word, by its binary digits -/
def Computes : IntUnOp → BitVec w.bits → BitVec w.bits → Prop
  | clz, a, z => FirstOne (fun i => a.getLsbD (w.bits - 1 - i)) w.bits z.toNat
  | ctz, a, z => FirstOne (fun i => a.getLsbD i) w.bits z.toNat
  | popcnt, a, z => z.toNat = ∑ i ∈ Finset.range w.bits, (a.getLsbD i).toNat
  | extend8, a, z => SignExtends 8 a.toNat z.toInt
  | extend16, a, z => SignExtends 16 a.toNat z.toInt

theorem toNat_natCast_self (n : Nat) : ((n : Nat) : BitVec n).toNat = n := by
  rw [BitVec.natCast_eq_ofNat, BitVec.toNat_ofNat, Nat.mod_eq_of_lt n.lt_two_pow_self]

theorem toNat_clz_le {n : Nat} (a : BitVec n) : a.clz.toNat ≤ n := by
  have h : a.clz.toNat ≤ ((n : Nat) : BitVec n).toNat := BitVec.clz_le
  rwa [toNat_natCast_self] at h

/-- the count of ones, digit by digit -/
theorem cpopNatRec_eq_sum {n : Nat} (a : BitVec n) (k : Nat) :
    a.cpopNatRec k 0 = ∑ i ∈ Finset.range k, (a.getLsbD i).toNat := by
  induction k with
  | zero => rfl
  | succ k ih => rw [BitVec.cpopNatRec_succ, BitVec.cpopNatRec_add, ih, Finset.sum_range_succ]

theorem computes_eval (op : IntUnOp) (a : BitVec w.bits) : op.Computes a (op.eval a) := by
  have hwide : 16 ≤ w.bits := by cases w <;> decide
  cases op with
  | clz =>
    have hle := toNat_clz_le a
    refine ⟨hle, fun i hi => ?_, fun hlt => ?_⟩
    · have hi' : i < a.clz.toNat := hi
      have hsmall : a.toNat < 2 ^ (w.bits - 1 - i) := by
        calc a.toNat < 2 ^ (w.bits - a.clz.toNat) := BitVec.toNat_lt_two_pow_sub_clz
          _ ≤ 2 ^ (w.bits - 1 - i) := Nat.pow_le_pow_right two_pos (by omega)
      exact Nat.testBit_lt_two_pow hsmall
    · refine BitVec.getLsbD_true_clz_of_ne_zero w.bits_pos ?_
      rw [← BitVec.clz_lt_iff_ne_zero, BitVec.lt_def, toNat_natCast_self]
      exact hlt
  | ctz =>
    refine ⟨?_, fun i hi => BitVec.getLsbD_false_of_lt_ctz hi, fun hlt => ?_⟩
    · rw [eval, BitVec.ctz_eq_reverse_clz]
      exact toNat_clz_le _
    · refine BitVec.getLsbD_true_ctz_of_ne_zero ?_
      rw [← BitVec.ctz_lt_iff_ne_zero, BitVec.lt_def, toNat_natCast_self]
      exact hlt
  | popcnt => exact (BitVec.toNat_cpop a).trans (cpopNatRec_eq_sum a w.bits)
  | extend8 => exact .signExtendLow (by omega) a
  | extend16 => exact .signExtendLow hwide a

theorem Computes.unique {op : IntUnOp} {a z z' : BitVec w.bits} (h : op.Computes a z) (h' : op.Computes a z') :
    z = z' := by
  cases op with
  | clz | ctz => exact BitVec.eq_of_toNat_eq (FirstOne.unique h h')
  | popcnt => exact BitVec.eq_of_toNat_eq (h.trans h'.symm)
  | extend8 => exact Signedness.signed.read_injective (SignExtends.unique (by decide) h h')
  | extend16 => exact Signedness.signed.read_injective (SignExtends.unique (by decide) h h')

theorem computes_iff {op : IntUnOp} {a z : BitVec w.bits} : op.Computes a z ↔ z = op.eval a :=
  ⟨fun h => h.unique (computes_eval op a), fun h => h ▸ computes_eval op a⟩

end IntUnOp

/-! ## The instructions -/

/-- what a comparison asks about two words -/
def IntRelOp.Holds {w : Width} : IntRelOp → BitVec w.bits → BitVec w.bits → Prop
  | eq, a, b => a.toNat = b.toNat
  | ne, a, b => a.toNat ≠ b.toNat
  | lt s, a, b => s.read a < s.read b
  | gt s, a, b => s.read a > s.read b
  | le s, a, b => s.read a ≤ s.read b
  | ge s, a, b => s.read a ≥ s.read b

theorem IntRelOp.eval_iff {w : Width} (op : IntRelOp) (a b : BitVec w.bits) : op.eval a b = true ↔ op.Holds a b := by
  cases op with
  | eq => rw [eval, beq_iff_eq, Holds, BitVec.toNat_inj]
  | ne => rw [eval, bne_iff_ne, Holds, ne_eq, ne_eq, BitVec.toNat_inj]
  | lt s | gt s | le s | ge s => exact decide_eq_true_iff

theorem IntBinOp.rotr_rotl {w : Width} {a b z : BitVec w.bits} (h : IntBinOp.rotl.Computes a b z) :
    IntBinOp.rotr.Computes z b a :=
  fun i hi => (h i hi).symm

theorem Cell.toNat_of {w : Width} (b : BitVec w.bits) : (Cell.of b).toNat = b.toNat :=
  BitVec.toNat_setWidth_of_le w.bits_le

theorem Cell.ofBool_cases {b : Bool} {p : Prop} (h : b = true ↔ p) : ofBool b = 1 ∧ p ∨ ofBool b = 0 ∧ ¬ p := by
  rw [← h]
  cases b with
  | true => exact .inl ⟨rfl, rfl⟩
  | false => exact .inr ⟨rfl, Bool.false_ne_true⟩

namespace Instr

/-- **The integer instructions compute what integers say**, on all cells. A result lies on top of the cells under the
operands. An operator with two operands has exactly one outcome, which is its result on integers or its trap, and the
instruction takes both operands and ends with it. A comparison
leaves one or zero. An operator with one operand leaves the one word that its binary digits make it. To rotate back by the
same count undoes a rotation, the remainder of the smallest integer by minus one is zero, and a number of 32 bits has
nothing above it in its cell. -/
theorem integer_operators_compute (inst : Instance) (st : State) (a b : Cell) (rest : List Cell) :
    (∀ c, (st.withResult rest c).store.stack.cells = c :: rest) ∧
    (∀ (w : Width) (op : IntBinOp), ∃ o : Except Trap (BitVec w.bits),
      (∀ o', op.Means (a.low w) (b.low w) o' ↔ o' = o) ∧
      (binary (.int w op)).exec inst (st.withCells (b :: a :: rest)) = match o with
        | .ok z => .ok .next (st.withResult rest (.of z))
        | .error t => .error t (st.withCells rest)) ∧
    (∀ (w : Width) (op : IntRelOp), ∃ c : Cell,
      (c = 1 ∧ op.Holds (a.low w) (b.low w) ∨ c = 0 ∧ ¬ op.Holds (a.low w) (b.low w)) ∧
      (binary (.intRel w op)).exec inst (st.withCells (b :: a :: rest)) = .ok .next (st.withResult rest c)) ∧
    (∀ (w : Width) (op : IntUnOp), ∃ z : BitVec w.bits, (∀ z', op.Computes (a.low w) z' ↔ z' = z) ∧
      (unary (.int w op)).exec inst (st.withCells (a :: rest)) = .ok .next (st.withResult rest (.of z))) ∧
    (∀ w : Width, ∃ c : Cell, (c = 1 ∧ (a.low w).toNat = 0 ∨ c = 0 ∧ (a.low w).toNat ≠ 0) ∧
      (unary (.eqz w)).exec inst (st.withCells (a :: rest)) = .ok .next (st.withResult rest c)) ∧
    (∃ c : Cell, c.toNat = a.toNat % 2 ^ 32 ∧
      (unary .wrap).exec inst (st.withCells (a :: rest)) = .ok .next (st.withResult rest c)) ∧
    (∀ s : Signedness, ∃ c : Cell, s.read c = s.read (a.low .w32) ∧
      (unary (.extend s)).exec inst (st.withCells (a :: rest)) = .ok .next (st.withResult rest c)) ∧
    (∃ c : Cell, SignExtends 32 a.toNat c.toInt ∧
      (unary .extend32).exec inst (st.withCells (a :: rest)) = .ok .next (st.withResult rest c)) ∧
    (∀ (w : Width) (x y : BitVec w.bits),
      ((IntBinOp.rotl.eval x y).bind fun z => IntBinOp.rotr.eval z y) = .ok x) ∧
    (∀ w : Width, (IntBinOp.rem .signed).eval (BitVec.intMin w.bits) (-1) = .ok 0) ∧
    (∀ (w : Width) (z : BitVec w.bits), (Cell.of z).toNat = z.toNat ∧ (Cell.of z).toNat < 2 ^ w.bits) := by
  have hpop {op : UnaryOp} : (unary op).exec inst (st.withCells (a :: rest)) = .ok .next (st.withResult rest (op.eval a)) :=
    exec_unary op a
  refine ⟨st.cells_withResult rest, fun w op => ?binary, fun w op => ?comparison, fun w op => ?unary, fun w => ?eqz, ⟨_, ?wrap, hpop⟩,
    fun s => ⟨_, ?extend, hpop⟩, ⟨_, ?extend32, hpop⟩, fun w x y => ?rotate, fun w => ?rem, fun w z => ?cell⟩
  case binary =>
    refine ⟨op.eval (a.low w) (b.low w), fun _ => IntBinOp.means_iff, ?_⟩
    rw [exec_binary, BinaryOp.eval]
    cases op.eval (a.low w) (b.low w) <;> rfl
  case comparison => exact ⟨_, Cell.ofBool_cases (op.eval_iff _ _), exec_binary _ a b⟩
  case unary => exact ⟨op.eval (a.low w), fun _ => IntUnOp.computes_iff, hpop⟩
  case eqz =>
    have hzero : (a.low w == 0) = true ↔ (a.low w).toNat = 0 := by
      rw [beq_iff_eq, ← BitVec.toNat_inj]
      rfl
    exact ⟨_, Cell.ofBool_cases hzero, hpop⟩
  case wrap => exact (Cell.toNat_of _).trans (BitVec.toNat_setWidth 32 a)
  case extend => exact Signedness.read_ofInt (Signedness.inRange_wider (s.inRange_read (w := .w32) (a.low .w32)))
  case extend32 => exact .signExtendLow (by decide) a
  case rotate =>
    have hback : IntBinOp.rotr.Means (x.rotateLeft (IntBinOp.shiftCount y)) y (.ok x) :=
      IntBinOp.rotr_rotl (IntBinOp.means_eval .rotl x y)
    exact (IntBinOp.means_iff.1 hback).symm
  case rem => cases w <;> decide
  case cell => exact ⟨Cell.toNat_of z, (Cell.toNat_of z).trans_lt z.isLt⟩

/-- the remainder has the sign of the dividend -/
example : (IntBinOp.rem .signed).eval (-7 : BitVec 32) 2 = .ok (-1) := by decide

end Instr

end WasmCore
