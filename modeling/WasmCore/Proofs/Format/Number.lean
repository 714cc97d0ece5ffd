/-
Immediates are read by their grammar.

An integer of `n` bits is at most `n / 7` groups, rounded up, and in range; both are checked while it is read, so the
reader accepts what `EncodesInt` allows. Floating-point numbers are raw bytes, and their bits come back unchanged.
-/
import Mathlib.Algebra.Group.Nat.Defs
import WasmCore.Proofs.Format.Reads

namespace WasmCore

/-! ## Little end first -/

theorem length_toLittleEndian (k n : Nat) : (toLittleEndian k n).length = k := by
  induction k generalizing n with
  | zero => rfl
  | succ k ih => rw [toLittleEndian, List.length_cons, ih]

theorem littleEndian_toLittleEndian (k n : Nat) : littleEndian (toLittleEndian k n) = n % 256 ^ k := by
  induction k generalizing n with
  | zero => rw [Nat.pow_zero, Nat.mod_one]; rfl
  | succ k ih =>
    have h : littleEndian (toLittleEndian (k + 1) n) = n % 256 + 256 * littleEndian (toLittleEndian k (n / 256)) := by
      simp only [toLittleEndian, littleEndian, List.foldr_cons, UInt8.toNat_ofNat']
    rw [h, ih, Nat.pow_succ, Nat.mul_comm (256 ^ k) 256, Nat.mod_mul]

theorem toLittleEndian_littleEndian (bs : List UInt8) : toLittleEndian bs.length (littleEndian bs) = bs := by
  induction bs with
  | nil => rfl
  | cons b bs ih =>
    have hb := b.toNat_lt
    have h : littleEndian (b :: bs) = b.toNat + 256 * littleEndian bs := rfl
    have hlow : UInt8.ofNat (b.toNat + 256 * littleEndian bs) = b := by
      apply UInt8.toNat_inj.1
      rw [UInt8.toNat_ofNat']
      omega
    have hhigh : (b.toNat + 256 * littleEndian bs) / 256 = littleEndian bs := by omega
    rw [h, List.length_cons, toLittleEndian, hlow, hhigh, ih]

/-! ## Integers -/

namespace Groups

variable {s : Signedness} {n : Int} {bs : List UInt8}

theorem length_pos (h : Groups s n bs) : 0 < bs.length := by
  cases h <;> exact Nat.succ_pos _

/-- groups by their first one, which is the last or is followed by fewer -/
theorem length_le_iff {more : Nat} : Groups s n bs ∧ bs.length ≤ more + 1 ↔ ∃ b rest, bs = b :: rest ∧
    ((b.toNat < 128 ∧ n = Reader.lastGroup s b ∧ rest = []) ∨
      (¬ b.toNat < 128 ∧ ∃ high, n = (b.toNat : Int) - 128 + 128 * high ∧ Groups s high rest ∧ rest.length ≤ more)) := by
  constructor
  · intro hbytes
    rcases hbytes with ⟨h, hlen⟩
    cases h with
    | last hb => exact ⟨_, _, rfl, .inl ⟨hb, rfl, rfl⟩⟩
    | more hb rest => exact ⟨_, _, rfl, .inr ⟨Nat.not_lt.2 hb, _, rfl, rest, Nat.le_of_succ_le_succ hlen⟩⟩
  · intro hbytes
    rcases hbytes with ⟨b, rest, rfl, ⟨hb, rfl, rfl⟩ | ⟨hb, high, rfl, h, hlen⟩⟩
    · exact ⟨.last hb, Nat.succ_le_succ (Nat.zero_le more)⟩
    · exact ⟨.more (Nat.not_lt.1 hb) h, Nat.succ_le_succ hlen⟩

end Groups

namespace Reader

theorem readGroups_reads (s : Signedness) (offset more : Nat) :
    Reads (readGroups s offset more) fun n bs => Groups s n bs ∧ bs.length ≤ more + 1 := by
  induction more with
  | zero =>
    unfold readGroups
    refine (readByte_reads.bind fun b => .ite (fun _ => .pure _) fun _ => .throw _).congr fun n bs => ?_
    rw [Groups.length_le_iff]
    constructor
    · intro hbytes
      rcases hbytes with ⟨b, _, rest, rfl, rfl, ⟨hb, rfl, rfl⟩ | ⟨hb, h⟩⟩
      · exact ⟨b, [], rfl, .inl ⟨hb, rfl, rfl⟩⟩
      · exact h.elim
    · intro hbytes
      rcases hbytes with ⟨b, rest, rfl, ⟨hb, rfl, rfl⟩ | ⟨hb, high, rfl, h, hlen⟩⟩
      · exact ⟨b, [b], [], rfl, rfl, .inl ⟨hb, rfl, rfl⟩⟩
      · exact absurd h.length_pos (Nat.not_lt.2 hlen)
  | succ more ih =>
    unfold readGroups
    refine (readByte_reads.bind fun b => .ite (fun _ => .pure _) fun _ => ih.map _).congr fun n bs => ?_
    rw [Groups.length_le_iff]
    constructor
    · intro hbytes
      rcases hbytes with ⟨b, _, rest, rfl, rfl, h⟩
      exact ⟨b, rest, rfl, h⟩
    · intro hbytes
      rcases hbytes with ⟨b, rest, rfl, h⟩
      exact ⟨b, [b], rest, rfl, rfl, h⟩

theorem readLeb_reads (s : Signedness) (w : Width) : Reads (readLeb s w) (EncodesInt s w) := by
  have hmore : (w.bits + 6) / 7 - 1 + 1 = (w.bits + 6) / 7 := by cases w <;> rfl
  refine .position fun offset => ?_
  refine ((readGroups_reads s offset _).bind fun n => .ite (fun _ => .pure _) fun _ => .throw _).congr fun n bs => ?_
  rw [hmore]
  constructor
  · intro hbytes
    rcases hbytes with ⟨n, a, _, rfl, ⟨hg, hlen⟩, ⟨hr, rfl, rfl⟩ | ⟨-, h⟩⟩
    · rw [List.append_nil]
      exact ⟨hg, hlen, hr⟩
    · exact h.elim
  · intro hbytes
    rcases hbytes with ⟨hg, hlen, hr⟩
    exact ⟨n, bs, [], (List.append_nil bs).symm, ⟨hg, hlen⟩, .inl ⟨hr, rfl, rfl⟩⟩

theorem toNat_ofInt_of_inRange {n : Int} (h : Signedness.unsigned.inRange .w32 n = true) :
    ((UInt32.ofInt n).toNat : Int) = n := by
  have hr := Signedness.inRange_iff.1 h
  simp only [Signedness.lowest, Signedness.highest, Width.highBit] at hr
  rw [UInt32.ofInt, UInt32.toNat_ofNat']
  omega

theorem toInt_ofInt_of_inRange {w : Width} {n : Int} (h : Signedness.signed.inRange w n = true) :
    (BitVec.ofInt w.bits n).toInt = n := by
  have hr := Signedness.inRange_iff.1 h
  cases w <;>
    (simp only [Signedness.lowest, Signedness.highest, Width.highBit] at hr
     exact BitVec.toInt_ofInt_eq_self (by decide) (by simp only [Width.bits]; omega) (by simp only [Width.bits]; omega))

theorem readU32_reads : Reads readU32 EncodesU32 := by
  rw [readU32_eq]
  refine ((readLeb_reads .unsigned .w32).map UInt32.ofInt).congr fun x bs => ?_
  constructor
  · intro hbytes
    rcases hbytes with ⟨n, rfl, h⟩
    rw [EncodesU32, toNat_ofInt_of_inRange h.range]
    exact h
  · intro h
    refine ⟨_, UInt32.toNat_inj.1 ?_, h⟩
    have hx := x.toNat_lt
    rw [UInt32.ofInt, UInt32.toNat_ofNat']
    omega

theorem readInt_reads (w : Width) : Reads (readInt w) fun x bs => EncodesInt .signed w x.toInt bs := by
  rw [readInt_eq]
  refine ((readLeb_reads .signed w).map (BitVec.ofInt w.bits)).congr fun x bs => ?_
  constructor
  · intro hbytes
    rcases hbytes with ⟨n, rfl, h⟩
    rw [toInt_ofInt_of_inRange h.range]
    exact h
  · intro h
    exact ⟨_, (BitVec.ofInt_toInt).symm, h⟩

theorem readFloat_reads (w : Width) : Reads (readFloat w) fun x bs => bs = toLittleEndian w.bytes x.toNat := by
  have hbits (w : Width) : 256 ^ w.bytes = 2 ^ w.bits := by cases w <;> rfl
  refine ((readBytes_reads w.bytes).map _).congr fun x bs => ?_
  constructor
  · intro hbytes
    rcases hbytes with ⟨bs, rfl, rfl, hlen⟩
    have hlt : littleEndian bs < 2 ^ w.bits := by
      rw [← toLittleEndian_littleEndian bs, littleEndian_toLittleEndian, hlen, hbits]
      exact Nat.mod_lt _ (Nat.two_pow_pos w.bits)
    rw [BitVec.toNat_ofNat, Nat.mod_eq_of_lt hlt, ← hlen, toLittleEndian_littleEndian]
  · rintro rfl
    refine ⟨_, ?_, rfl, length_toLittleEndian _ _⟩
    rw [littleEndian_toLittleEndian, hbits, Nat.mod_eq_of_lt x.isLt, BitVec.ofNat_toNat, BitVec.setWidth_eq]

end Reader

end WasmCore
