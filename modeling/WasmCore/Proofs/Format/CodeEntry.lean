/-
Code entries are read by their format.

An entry is a size, the number of the groups of locals, the groups, a body and the end marker. `EncodesEntry` says which
byte strings denote an entry: all numbers in any admissible length, and a size that counts the bytes behind it up to the
marker, neither more nor less. The reader checks the locals as it goes, compares the header with the size and gives the
body what is left of it; in the end it accepts this format and nothing else (`answer_entry_iff`).
-/
import WasmCore.Proofs.Format.History

namespace WasmCore

/-- a number of locals of one type -/
structure LocalGroup where
  count : UInt32
  type : ValType

def LocalGroup.locals (g : LocalGroup) : List ValType :=
  List.replicate g.count.toNat g.type

/-- how many locals the groups declare -/
def LocalGroup.total (groups : List LocalGroup) : Nat :=
  (groups.map fun g => g.count.toNat).sum

inductive EncodesGroup : LocalGroup → List UInt8 → Prop
  | mk {count type bs} (h : EncodesU32 count bs) : EncodesGroup ⟨count, type⟩ (bs ++ [type.byte])

open Instr (EncodesAll nestingAll)

/-- the bytes of an entry, with the size before them and the end marker after them -/
inductive EncodesEntry : CodeEntry → List UInt8 → Prop
  | mk {size number groups body s n g b} (hsize : EncodesU32 size s) (hnumber : EncodesU32 number n)
      (number_eq : groups.length = number.toNat) (hgroups : EncodesEach EncodesGroup groups g)
      (few : LocalGroup.total groups ≤ maxLocals) (hbody : EncodesAll body b)
      (size_eq : size.toNat = (n ++ g ++ b ++ [Opcode.endMarker]).length) :
      EncodesEntry ⟨groups.flatMap LocalGroup.locals, body⟩ (s ++ (n ++ g ++ b ++ [Opcode.endMarker]))

namespace Reader

/-! ## Locals -/

theorem readValType_reads : Reads readValType fun t bs => bs = [t.byte] := by
  refine .position fun offset => ?_
  refine Reads.congr (readByte_reads.bind fun b =>
    .lookup (ValType.ofByte? b) id (fun t => ValType.ofByte?_iff) (fun t h => by rw [h]; rfl)
      fun h => ⟨_, by rw [h]⟩) fun t bs => ?_
  constructor
  · rintro ⟨b, _, _, rfl, rfl, ⟨t, rfl, rfl⟩, rfl⟩
    rfl
  · rintro rfl
    exact ⟨t.byte, [t.byte], [], rfl, rfl, ⟨t, rfl, rfl⟩, rfl⟩

/-- as many groups, with no more locals than may still be declared -/
theorem readLocals_reads {total : Nat} (htotal : total ≤ maxLocals) (number : Nat) :
    Reads (readLocals total number) fun locals bs => ∃ groups, locals = groups.flatMap LocalGroup.locals ∧
      groups.length = number ∧ EncodesEach EncodesGroup groups bs ∧ total + LocalGroup.total groups ≤ maxLocals := by
  induction number generalizing total with
  | zero =>
    refine (Reads.pure []).congr fun locals bs => ?_
    constructor
    · rintro ⟨rfl, rfl⟩
      exact ⟨[], rfl, rfl, .nil, htotal⟩
    · rintro ⟨groups, rfl, hlen, he, -⟩
      obtain rfl := List.length_eq_zero_iff.1 hlen
      cases he
      exact ⟨rfl, rfl⟩
  | succ number ih =>
    refine .position fun offset => ?_
    refine (readU32_reads.bind fun count => .check fun hle => readValType_reads.bind fun t =>
      (ih (Nat.le_of_not_lt hle)).map (List.replicate count.toNat t ++ ·)).congr fun locals bs => ?_
    constructor
    · rintro ⟨count, a, _, rfl, ha, -, t, _, c, rfl, rfl, _, rfl, groups, rfl, hlen, he, hle⟩
      refine ⟨⟨count, t⟩ :: groups, rfl, congrArg (· + 1) hlen, ?_, ?_⟩
      · rw [← List.append_assoc]
        exact .cons (.mk ha) he
      · rwa [LocalGroup.total, List.map_cons, List.sum_cons, ← Nat.add_assoc]
    · rintro ⟨groups, rfl, hlen, he, hle⟩
      cases he with
      | nil => cases hlen
      | @cons g groups a b hg he =>
        obtain @⟨count, t, a, ha⟩ := hg
        rw [LocalGroup.total, List.map_cons, List.sum_cons, ← Nat.add_assoc] at hle
        refine ⟨count, a, t.byte :: b, List.append_assoc _ _ _, ha, ?_, t, [t.byte], b, rfl, rfl, _, rfl, groups, rfl,
          Nat.succ.inj hlen, he, hle⟩
        exact Nat.not_lt.2 (Nat.le_trans (Nat.le_add_right _ _) hle)

/-! ## Entries -/

variable {c c' : Cursor} {entry : CodeEntry}

theorem readCodeEntry_sound (h : readCodeEntry c = .ok entry c') :
    ∃ bs, c.Consumes bs c' ∧ EncodesEntry entry bs ∧ nestingAll entry.body ≤ maxNesting - c.depth := by
  obtain ⟨size, c₁, hsize, h⟩ := bind_eq_ok.1 h
  obtain ⟨s, hs, hsize⟩ := readU32_reads.sound hsize
  rw [position_bind] at h
  obtain ⟨number, c₂, hnumber, h⟩ := bind_eq_ok.1 h
  obtain ⟨n, hn, hnumber⟩ := readU32_reads.sound hnumber
  obtain ⟨locals, c₃, hlocals, h⟩ := bind_eq_ok.1 h
  obtain ⟨g, hg, groups, rfl, hlen, hgroups, hfew⟩ := (readLocals_reads (Nat.zero_le _) _).sound hlocals
  rw [position_bind] at h
  have hheader : c₃.position - c₁.position = n.length + g.length := by
    rw [hg.position, hn.position]
    omega
  rw [hheader] at h
  dsimp only at h
  split at h
  · cases h
  · rename_i hsize_le
    obtain ⟨body, c₄, hbody, h⟩ := bind_eq_ok.1 h
    obtain ⟨b, hb, hsize_eq, hmarker, hcode, hle⟩ := readBody_iff.1 hbody
    obtain ⟨marker, c₅, hread, h⟩ := bind_eq_ok.1 h
    obtain ⟨m, hm, rfl⟩ := readByte_reads.sound hread
    cases h
    obtain rfl : marker = Opcode.endMarker := by
      rw [hm.rest] at hmarker
      exact Option.some.inj hmarker
    have hdepth : c₃.depth = c.depth := by rw [hg.depth, hn.depth, hs.depth]
    refine ⟨_, hs.trans (((hn.trans hg).trans hb).trans hm), .mk hsize hnumber hlen hgroups ?_ hcode ?_, ?_⟩
    · rwa [Nat.zero_add] at hfew
    · simp only [List.length_append, List.length_singleton]
      omega
    · rwa [hdepth] at hle

theorem readCodeEntry_complete {bs : List UInt8} (hc : c.Consumes bs c') (hentry : EncodesEntry entry bs)
    (hle : nestingAll entry.body ≤ maxNesting - c.depth) : readCodeEntry c = .ok entry c' := by
  obtain @⟨size, number, groups, body, s, n, g, b, hsize, hnumber, hlen, hgroups, hfew, hcode, hsize_eq⟩ := hentry
  obtain ⟨c₁, hs, hc⟩ := hc.split
  obtain ⟨c₄, hc, hm⟩ := hc.split
  obtain ⟨c₃, hc, hb⟩ := hc.split
  obtain ⟨c₂, hn, hg⟩ := hc.split
  have hdepth : c₃.depth = c.depth := by rw [hg.depth, hn.depth, hs.depth]
  have hheader : c₃.position - c₁.position = n.length + g.length := by
    rw [hg.position, hn.position]
    omega
  simp only [List.length_append, List.length_singleton] at hsize_eq
  have hlocals := (readLocals_reads (Nat.zero_le _) number.toNat).complete
    ⟨groups, rfl, hlen, hgroups, by rwa [Nat.zero_add]⟩ hg
  have hbody : readBody (size.toNat - (n.length + g.length)) c₃ = .ok body c₄ := by
    refine readBody_iff.2 ⟨b, hb, by omega, by rw [hm.rest]; rfl, hcode, ?_⟩
    rwa [hdepth]
  refine bind_eq_ok.2 ⟨size, c₁, readU32_reads.complete hsize hs, ?_⟩
  rw [position_bind]
  refine bind_eq_ok.2 ⟨number, c₂, readU32_reads.complete hnumber hn, ?_⟩
  refine bind_eq_ok.2 ⟨_, c₃, hlocals, ?_⟩
  rw [position_bind, hheader]
  dsimp only
  rw [if_neg (by omega)]
  exact bind_eq_ok.2 ⟨body, c₄, hbody, bind_eq_ok.2 ⟨_, c', readByte_reads.complete rfl hm, rfl⟩⟩

/-- an entry at any place, within the levels that are left there -/
theorem readCodeEntry_iff : readCodeEntry c = .ok entry c' ↔
    ∃ bs, c.Consumes bs c' ∧ EncodesEntry entry bs ∧ nestingAll entry.body ≤ maxNesting - c.depth :=
  ⟨readCodeEntry_sound, fun ⟨_, hc, hentry, hle⟩ => readCodeEntry_complete hc hentry hle⟩

end Reader

variable {bytes : List UInt8} {entry : CodeEntry} {p : Nat}

theorem answer_entry_eq_ok : Call.entry.answer (.start bytes) = (.ok entry, p) ↔
    ∃ bs rest, bytes = bs ++ rest ∧ p = bs.length ∧ EncodesEntry entry bs ∧ nestingAll entry.body ≤ maxNesting := by
  constructor
  · intro h
    cases hr : Reader.readCodeEntry (.start bytes) with
    | error e c =>
      simp only [Call.answer, Call.read, hr, Reader.Outcome.answer] at h
      cases h
    | ok entry' c =>
      simp only [Call.answer, Call.read, hr, Reader.Outcome.answer] at h
      cases h
      obtain ⟨bs, hc, hentry, hle⟩ := Reader.readCodeEntry_iff.1 hr
      exact ⟨bs, c.rest, hc.rest, hc.position.trans (Nat.zero_add _), hentry, hle⟩
  · rintro ⟨bs, rest, rfl, rfl, hentry, hle⟩
    have hr : Reader.readCodeEntry (.start (bs ++ rest)) = .ok entry ⟨rest, bs.length, 0⟩ :=
      Reader.readCodeEntry_iff.2 ⟨bs, ⟨rfl, (Nat.zero_add _).symm, rfl⟩, hentry, hle⟩
    simp only [Call.answer, Call.read, hr, Reader.Outcome.answer]

/-- **A code entry is accepted exactly by its format.** A fresh decoder answers the entry and stands at `p` if and only if
the first `p` bytes are an encoding of the entry and its body does not nest too deep. What lies behind these bytes is
irrelevant. -/
theorem answer_entry_iff (bytes : List UInt8) (entry : CodeEntry) (p : Nat) :
    (Call.entry.answer (.start bytes) = (.ok entry, p) ↔
      ∃ bs rest, bytes = bs ++ rest ∧ p = bs.length ∧ EncodesEntry entry bs ∧
        nestingAll entry.body ≤ maxNesting) ∧
    (Call.entry.answer (.start bytes) = (.ok entry, p) → ∀ rest,
      Call.entry.answer (.start (bytes.take p ++ rest)) = (.ok entry, p)) := by
  refine ⟨answer_entry_eq_ok, fun h rest => ?_⟩
  obtain ⟨bs, rest', rfl, rfl, hentry, hle⟩ := answer_entry_eq_ok.1 h
  rw [List.take_left]
  exact answer_entry_eq_ok.2 ⟨bs, rest, rfl, rfl, hentry, hle⟩

end WasmCore
