/-
Which encodings of integers are read.

An encoding of an integer ends with the first byte whose top bit is clear, and the other seven bits of all its bytes are its
payload, lowest first: a number without a sign, or one in two's complement of all these bits. The readers look at one group
at a time and judge the last one by its bits. What they accept comes to this: the encodings that are no longer than a number
of the width can fill and whose value is one of the width. Everything else is an error, at the end of the stream if the
stream leaves the encoding open and at the start of the integer if not.
-/
import Mathlib.Algebra.GroupWithZero.Nat
import Mathlib.Algebra.Ring.Int.Defs
import WasmCore.Proofs.Format.Encoder

namespace WasmCore

/-! ## Encodings -/

/-- all bytes but the last have their top bit set -/
structure Terminated (bs : List UInt8) : Prop where
  more : ∀ b ∈ bs.dropLast, 128 ≤ b.toNat
  last : ∃ b, bs.getLast? = some b ∧ b.toNat < 128

/-- seven bits of each byte, the lowest byte first -/
def payload (bs : List UInt8) : Nat :=
  bs.foldr (fun b n => b.toNat % 128 + 128 * n) 0

/-- what an encoding says -/
def encodedValue : Signedness → List UInt8 → Int
  | .unsigned, bs => payload bs
  | .signed, bs => (BitVec.ofNat (7 * bs.length) (payload bs)).toInt

/-- why the integer of at most `max` bytes that starts at `offset` is not read, when what is left of it is at this place:
it is cut off at the end of the stream, if there are fewer bytes and none of them is its last, or it is malformed -/
def lebFailure (offset max : Nat) (c : Cursor) : DecodeError :=
  if c.rest.length < max ∧ c.rest.all (128 ≤ ·.toNat) then .unexpectedEnd (c.position + c.rest.length)
  else .malformedLeb offset

/-- The reader answers the admissible encodings and no others, from the shortest ones to those of `max` bytes, and
fails everywhere else. -/
structure ReadsIntegers {α : Type} (r : Reader α) (s : Signedness) (w : Width) (max : Nat) (number : α → Int) :
    Prop where
  /-- the bytes that an answer takes, and what it is -/
  accepts : ∀ c c' x, r c = .ok x c' ↔
    ∃ bs, c.Consumes bs c' ∧ Terminated bs ∧ bs.length ≤ max ∧ encodedValue s bs = number x
  /-- where there is an answer -/
  answers : ∀ c, (∃ x c', r c = .ok x c') ↔
    ∃ bs, bs <+: c.rest ∧ Terminated bs ∧ bs.length ≤ max ∧
      s.lowest w ≤ encodedValue s bs ∧ encodedValue s bs ≤ s.highest w
  /-- the error where there is none -/
  refuses : ∀ c, (¬ ∃ x c', r c = .ok x c') → ∃ c', r c = .error (lebFailure c.position max c) c'
  /-- how many bytes the encodings of a number have -/
  lengths : ∀ x more, (∃ bs, bs.length = more + 1 ∧
      ∀ rest position depth, r ⟨bs ++ rest, position, depth⟩ = .ok x ⟨rest, position + (more + 1), depth⟩) ↔
    more < max ∧ GroupRange more (number x) s

namespace Terminated

variable {b : UInt8} {bs : List UInt8}

theorem ne_nil (h : Terminated bs) : bs ≠ [] := by
  rintro rfl
  obtain ⟨b, hb, -⟩ := h.last
  cases hb

theorem singleton_iff : Terminated [b] ↔ b.toNat < 128 := by
  constructor
  · intro h
    obtain ⟨b', hb', hlt⟩ := h.last
    cases hb'
    exact hlt
  · intro h
    exact ⟨fun _ hmem => (List.not_mem_nil hmem).elim, b, rfl, h⟩

theorem cons_iff (hbs : bs ≠ []) : Terminated (b :: bs) ↔ 128 ≤ b.toNat ∧ Terminated bs := by
  obtain ⟨b', bs, rfl⟩ := List.exists_cons_of_ne_nil hbs
  constructor
  · intro h
    exact ⟨h.more b List.mem_cons_self, fun x hx => h.more x (List.mem_cons_of_mem b hx), h.last⟩
  · intro h
    exact ⟨List.forall_mem_cons.2 ⟨h.1, h.2.more⟩, h.2.last⟩

/-- the last byte is one of them -/
theorem exists_last (h : Terminated bs) : ∃ b ∈ bs, b.toNat < 128 := by
  obtain ⟨b, hb, hlt⟩ := h.last
  exact ⟨b, List.mem_of_getLast? hb, hlt⟩

end Terminated

/-! ## Values -/

section

variable {s : Signedness} {b : UInt8} {bs : List UInt8}

/-- one byte more has room for 128 times as many payloads -/
theorem payloads_cons (b : UInt8) (bs : List UInt8) : 2 ^ (7 * (b :: bs).length) = 128 * 2 ^ (7 * bs.length) := by
  rw [List.length_cons, Nat.mul_succ, Nat.pow_add, Nat.mul_comm]

theorem payload_lt (bs : List UInt8) : payload bs < 2 ^ (7 * bs.length) := by
  induction bs with
  | nil => exact Nat.one_pos
  | cons b bs ih =>
    have hpayload : payload (b :: bs) = b.toNat % 128 + 128 * payload bs := rfl
    rw [hpayload, payloads_cons]
    omega

/-- two's complement: the upper half of the payloads stands for the negative numbers -/
theorem encodedValue_signed (bs : List UInt8) : encodedValue .signed bs =
    if 2 * payload bs < 2 ^ (7 * bs.length) then (payload bs : Int) else payload bs - (2 ^ (7 * bs.length) : Nat) := by
  rw [encodedValue, BitVec.toInt_eq_toNat_cond, BitVec.toNat_ofNat, Nat.mod_eq_of_lt (payload_lt bs)]

theorem encodedValue_last (hb : b.toNat < 128) : encodedValue s [b] = Reader.lastGroup s b := by
  have hpayload : payload [b] = b.toNat := by
    have hmod : payload [b] = b.toNat % 128 + 128 * 0 := rfl
    omega
  cases s with
  | unsigned => rw [encodedValue, hpayload, Reader.lastGroup]
  | signed =>
    have hpow : 2 ^ (7 * [b].length) = 128 := rfl
    rw [encodedValue_signed, hpayload, hpow, Reader.lastGroup]
    split <;> split <;> omega

theorem encodedValue_more (hb : 128 ≤ b.toNat) (hbs : bs ≠ []) :
    encodedValue s (b :: bs) = (b.toNat : Int) - 128 + 128 * encodedValue s bs := by
  have hlt := b.toNat_lt
  have hpayload : payload (b :: bs) = b.toNat - 128 + 128 * payload bs := by
    have hmod : payload (b :: bs) = b.toNat % 128 + 128 * payload bs := rfl
    omega
  cases s with
  | unsigned =>
    rw [encodedValue, encodedValue, hpayload]
    omega
  | signed =>
    have heven : 2 ^ (7 * bs.length) = 2 * 2 ^ (7 * bs.length - 1) := by
      rw [← Nat.pow_succ']
      congr 1
      have hpos := List.length_pos_iff.2 hbs
      omega
    rw [encodedValue_signed, encodedValue_signed, hpayload, payloads_cons]
    split <;> split <;> omega

end

/-! ## Groups -/

namespace Groups

variable {s : Signedness} {n : Int} {bs : List UInt8}

/-- the groups of an integer are the encoding that says it -/
theorem iff_encodedValue : Groups s n bs ↔ Terminated bs ∧ n = encodedValue s bs := by
  constructor
  · intro h
    induction h with
    | last hb => exact ⟨Terminated.singleton_iff.2 hb, (encodedValue_last hb).symm⟩
    | more hb rest ih =>
      obtain ⟨hbs, rfl⟩ := ih
      exact ⟨(Terminated.cons_iff hbs.ne_nil).2 ⟨hb, hbs⟩, (encodedValue_more hb hbs.ne_nil).symm⟩
  · rintro ⟨hbs, rfl⟩
    induction bs with
    | nil => exact (hbs.ne_nil rfl).elim
    | cons b bs ih =>
      by_cases hnil : bs = []
      · subst hnil
        have hb := Terminated.singleton_iff.1 hbs
        rw [encodedValue_last hb]
        exact .last hb
      · obtain ⟨hb, hmore⟩ := (Terminated.cons_iff hnil).1 hbs
        rw [encodedValue_more hb hnil]
        exact .more hb (ih hmore)

/-- as many groups say no more than their range -/
theorem range (h : Groups s n bs) : ∃ more, bs.length = more + 1 ∧ GroupRange more n s := by
  induction h with
  | @last b hb =>
    refine ⟨0, rfl, ?_⟩
    cases s with
    | unsigned => exact ⟨Int.natCast_nonneg _, by simp only [Reader.lastGroup]; omega⟩
    | signed => exact Reader.lastGroup_signed_range hb
  | @more b n bs hb rest ih =>
    obtain ⟨more, hlen, hrange⟩ := ih
    have hlt := b.toNat_lt
    refine ⟨more + 1, congrArg (· + 1) hlen, ?_⟩
    cases s with
    | unsigned =>
      obtain ⟨h₁, h₂⟩ := hrange
      refine ⟨by omega, ?_⟩
      rw [Nat.pow_succ]
      omega
    | signed =>
      obtain ⟨h₁, h₂⟩ := hrange
      refine ⟨?_, ?_⟩
      · rw [Nat.pow_succ]
        omega
      · rw [Nat.pow_succ]
        omega

/-- and everything in their range -/
theorem exists_of_range {more : Nat} (h : GroupRange more n s) : ∃ bs, bs.length = more + 1 ∧ Groups s n bs := by
  induction more generalizing n with
  | zero => exact ⟨_, rfl, groups_low (lastGroup_low h)⟩
  | succ more ih =>
    obtain ⟨bs, hlen, hbs⟩ := ih h.high
    exact ⟨_, congrArg (· + 1) hlen, groups_high hbs⟩

end Groups

namespace Reader

/-! ## Failures -/

theorem lebFailure_nil {offset max position depth : Nat} (h : 0 < max) :
    lebFailure offset max ⟨[], position, depth⟩ = .unexpectedEnd position :=
  if_pos ⟨h, rfl⟩

/-- after a byte that is not the last one -/
theorem lebFailure_cons {offset max position depth : Nat} {b : UInt8} {rest : List UInt8} (hb : 128 ≤ b.toNat) :
    lebFailure offset (max + 1) ⟨b :: rest, position, depth⟩ = lebFailure offset max ⟨rest, position + 1, depth⟩ := by
  have hopen : (b :: rest).length < max + 1 ∧ (b :: rest).all (128 ≤ ·.toNat) ↔
      rest.length < max ∧ rest.all (128 ≤ ·.toNat) := by
    rw [List.length_cons, Nat.succ_lt_succ_iff, List.all_cons, decide_eq_true hb, Bool.true_and]
  have hend : position + (b :: rest).length = position + 1 + rest.length := by
    rw [List.length_cons]
    omega
  simp only [lebFailure, hopen, hend]

theorem lebFailure_one {offset position depth : Nat} {b : UInt8} {rest : List UInt8} :
    lebFailure offset 1 ⟨b :: rest, position, depth⟩ = .malformedLeb offset :=
  if_neg fun h => Nat.not_lt_zero _ (Nat.lt_of_succ_lt_succ h.1)

/-- a whole encoding is not cut off -/
theorem lebFailure_of_consumes {offset max : Nat} {c c' : Cursor} {bs : List UInt8} (hc : c.Consumes bs c')
    (hbs : Terminated bs) : lebFailure offset max c = .malformedLeb offset := by
  obtain ⟨b, hmem, hlt⟩ := hbs.exists_last
  have hrest : b ∈ c.rest := by
    rw [hc.rest]
    exact List.mem_append_left _ hmem
  exact if_neg fun h => Nat.not_le.2 hlt (of_decide_eq_true (List.all_eq_true.1 h.2 b hrest))

/-- the groups at a place where there is a byte -/
theorem readGroups_cons (s : Signedness) (offset more position depth : Nat) (b : UInt8) (rest : List UInt8) :
    readGroups s offset more ⟨b :: rest, position, depth⟩ =
      (if b.toNat < 128 then pure (lastGroup s b)
        else
          match more with
          | 0 => throw (.malformedLeb offset)
          | more + 1 => readGroups s offset more >>= fun high => pure ((b.toNat : Int) - 128 + 128 * high) : Reader Int)
        ⟨rest, position + 1, depth⟩ := by
  cases more <;> rfl

theorem readGroups_error {s : Signedness} {offset more : Nat} {c c' : Cursor} {e : DecodeError}
    (h : readGroups s offset more c = .error e c') : e = lebFailure offset (more + 1) c := by
  obtain ⟨bytes, position, depth⟩ := c
  induction more generalizing bytes position with
  | zero =>
    cases bytes with
    | nil =>
      cases h
      exact (lebFailure_nil Nat.one_pos).symm
    | cons b rest =>
      rw [readGroups_cons] at h
      by_cases hb : b.toNat < 128
      · rw [if_pos hb] at h
        cases h
      · rw [if_neg hb] at h
        cases h
        exact lebFailure_one.symm
  | succ more ih =>
    cases bytes with
    | nil =>
      cases h
      exact (lebFailure_nil (Nat.succ_pos _)).symm
    | cons b rest =>
      rw [readGroups_cons] at h
      by_cases hb : b.toNat < 128
      · rw [if_pos hb] at h
        cases h
      · rw [if_neg hb] at h
        rw [lebFailure_cons (Nat.not_lt.1 hb)]
        apply ih rest (position + 1)
        cases hrest : readGroups s offset more ⟨rest, position + 1, depth⟩ with
        | ok high c₁ =>
          simp only [Bind.bind, EStateM.bind, hrest] at h
          cases h
        | error e₁ c₁ =>
          simp only [Bind.bind, EStateM.bind, hrest] at h
          exact h

theorem readLeb_error {s : Signedness} {w : Width} {c c' : Cursor} {e : DecodeError}
    (h : readLeb s w c = .error e c') : e = lebFailure c.position ((w.bits + 6) / 7) c := by
  have hmax : (w.bits + 6) / 7 - 1 + 1 = (w.bits + 6) / 7 := by cases w <;> rfl
  rw [readLeb, position_bind] at h
  simp only [Bind.bind, EStateM.bind] at h
  cases hgroups : readGroups s c.position ((w.bits + 6) / 7 - 1) c with
  | error e₁ c₁ =>
    rw [hgroups] at h
    cases h
    rw [readGroups_error hgroups, hmax]
  | ok n c₁ =>
    rw [hgroups] at h
    obtain ⟨bs, hc, hbs, -⟩ := (readGroups_reads s _ _).sound hgroups
    rw [lebFailure_of_consumes hc (Groups.iff_encodedValue.1 hbs).1]
    simp only at h
    split at h
    · cases h
    · cases h
      rfl

/-! ## The readers -/

section

variable {α : Type} {r : Reader α} {s : Signedness} {w : Width} {number : α → Int}

/-- the grammar of integers, by the value of an encoding -/
theorem encodesInt_iff {n : Int} {bs : List UInt8} (hn : s.inRange w n = true) : EncodesInt s w n bs ↔
    Terminated bs ∧ bs.length ≤ (w.bits + 6) / 7 ∧ encodedValue s bs = n := by
  constructor
  · rintro ⟨hgroups, hlen, -⟩
    obtain ⟨hbs, hvalue⟩ := Groups.iff_encodedValue.1 hgroups
    exact ⟨hbs, hlen, hvalue.symm⟩
  · rintro ⟨hbs, hlen, hvalue⟩
    exact ⟨Groups.iff_encodedValue.2 ⟨hbs, hvalue.symm⟩, hlen, hn⟩

/-- the lengths of the encodings that are read as a number -/
theorem exists_length_iff (hreads : Reads r fun x bs => EncodesInt s w (number x) bs) {x : α}
    (hx : s.inRange w (number x) = true) (more : Nat) :
    (∃ bs, bs.length = more + 1 ∧
      ∀ rest position depth, r ⟨bs ++ rest, position, depth⟩ = .ok x ⟨rest, position + (more + 1), depth⟩) ↔
    more < (w.bits + 6) / 7 ∧ GroupRange more (number x) s := by
  constructor
  · rintro ⟨bs, hlen, hread⟩
    obtain ⟨bs', hc, hbs'⟩ := hreads.sound (hread [] 0 0)
    have hbs : bs = bs' := by
      have hrest : bs ++ [] = bs' ++ [] := hc.rest
      rwa [List.append_nil, List.append_nil] at hrest
    subst hbs
    obtain ⟨more', hlen', hrange⟩ := hbs'.groups.range
    obtain rfl : more' = more := by omega
    have hmax := hbs'.length
    exact ⟨by omega, hrange⟩
  · rintro ⟨hmore, hrange⟩
    obtain ⟨bs, hlen, hbs⟩ := Groups.exists_of_range hrange
    refine ⟨bs, hlen, fun rest position depth => ?_⟩
    refine hreads.complete ⟨hbs, by omega, hx⟩ ⟨rfl, ?_, rfl⟩
    rw [← hlen]

/-- a reader that takes the groups of an integer of the width and answers it as a number of its own -/
theorem readsIntegers_of {f : Int → α} (hr : r = (do return f (← readLeb s w)))
    (hreads : Reads r fun x bs => EncodesInt s w (number x) bs)
    (hnumber : ∀ n, (∃ x, number x = n) ↔ s.inRange w n = true) :
    ReadsIntegers r s w ((w.bits + 6) / 7) number := by
  have hrange (x : α) : s.inRange w (number x) = true := (hnumber _).1 ⟨x, rfl⟩
  have haccepts (c c' : Cursor) (x : α) : r c = .ok x c' ↔
      ∃ bs, c.Consumes bs c' ∧ Terminated bs ∧ bs.length ≤ (w.bits + 6) / 7 ∧ encodedValue s bs = number x := by
    rw [hreads c x c']
    simp only [encodesInt_iff (hrange x)]
  refine ⟨haccepts, ?answers, ?refuses, fun x => exists_length_iff hreads (hrange x)⟩
  case answers =>
    intro c
    constructor
    · rintro ⟨x, c', hx⟩
      obtain ⟨bs, hc, hbs, hlen, hvalue⟩ := (haccepts c c' x).1 hx
      refine ⟨bs, ⟨c'.rest, hc.rest.symm⟩, hbs, hlen, ?_⟩
      rw [hvalue]
      exact Signedness.inRange_iff.1 (hrange x)
    · rintro ⟨bs, ⟨rest, hrest⟩, hbs, hlen, hvalue⟩
      obtain ⟨x, hx⟩ := (hnumber (encodedValue s bs)).2 (Signedness.inRange_iff.2 hvalue)
      exact ⟨x, ⟨rest, c.position + bs.length, c.depth⟩,
        (haccepts _ _ _).2 ⟨bs, ⟨hrest.symm, rfl, rfl⟩, hbs, hlen, hx.symm⟩⟩
  case refuses =>
    intro c hnone
    subst hr
    cases hleb : readLeb s w c with
    | ok n c' => exact (hnone ⟨f n, c', bind_eq_ok.2 ⟨n, c', hleb, rfl⟩⟩).elim
    | error e c' =>
      refine ⟨c', ?_⟩
      rw [← readLeb_error hleb]
      simp only [Bind.bind, EStateM.bind, hleb]

end

/-- **The readers of integers accept exactly the admissible encodings.** At every place of every stream an integer is read
if and only if the bytes there begin with an encoding of at most five bytes, or ten for 64 bits, of which all but the last
have the top bit set and whose payload is in range, without a sign or in two's complement; the answer is that value, and
these bytes are taken. Else the stream has ended too early, or the integer that starts here is malformed. An encoding of a
number may have every length in which the payload has room for it, from the shortest one on. -/
theorem integers_admissible :
    ReadsIntegers readU32 .unsigned .w32 5 (fun x => x.toNat) ∧
    ReadsIntegers (readInt .w32) .signed .w32 5 BitVec.toInt ∧
    ReadsIntegers (readInt .w64) .signed .w64 10 BitVec.toInt := by
  have hsigned (w : Width) : ReadsIntegers (readInt w) .signed w ((w.bits + 6) / 7) BitVec.toInt := by
    refine readsIntegers_of (readInt_eq w) (readInt_reads w) fun n => ?_
    constructor
    · rintro ⟨x, rfl⟩
      exact (encodeSigned_encodes x).range
    · intro hn
      exact ⟨BitVec.ofInt w.bits n, toInt_ofInt_of_inRange hn⟩
  refine ⟨?_, hsigned .w32, hsigned .w64⟩
  refine readsIntegers_of readU32_eq readU32_reads fun n => ?_
  constructor
  · rintro ⟨x, rfl⟩
    exact (encodeU32_encodes x).range
  · intro hn
    exact ⟨UInt32.ofInt n, toNat_ofInt_of_inRange hn⟩

/-- the sign is all that the tenth byte has room for -/
example :
    (readInt .w64).runOn (List.replicate 9 0xFF ++ [0x7F]) = .ok (-1) ∧
    (readInt .w64).runOn (List.replicate 9 0xFF ++ [0x7E]) = .error (.malformedLeb 0) ∧
    (readInt .w64).runOn (List.replicate 9 0xFF) = .error (.unexpectedEnd 9) :=
  ⟨rfl, rfl, rfl⟩

end Reader

end WasmCore
