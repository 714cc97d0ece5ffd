/-
Bodies in the middle of a stream.

A body is read without regard to its length until its instructions have reached it, so immediates and nested bodies may be
read beyond the end of the body. Such a read never succeeds: a body is decoded at some place if and only if the bytes that
its length gives it are by themselves a body with its end marker. So nothing depends on the bytes before or behind a body
(`readBody_window`). No body with its marker begins another one, since the marker closes it wherever it stands.
-/
import WasmCore.Proofs.Format.Body

namespace WasmCore

/-- a decoder of the bytes that stands at a position, with no construct open -/
def Cursor.standing (bytes : List UInt8) (position : Nat) : Cursor :=
  ⟨bytes.drop position, position, 0⟩

/-- a decoder that has read some bytes stands behind them -/
theorem Cursor.Consumes.standing {bytes bs : List UInt8} {p : Nat} {c : Cursor}
    (h : (Cursor.standing bytes p).Consumes bs c) : c = .standing bytes (p + bs.length) := by
  have hdrop : bytes.drop p = bs ++ c.rest := h.rest
  have hrest : c.rest = bytes.drop (p + bs.length) := by
    rw [← List.drop_drop, hdrop, List.drop_left]
  rw [h.eq, hrest]
  rfl

namespace Reader

open Instr (EncodesAll nestingAll)

variable {bytes bs : List UInt8} {p : Nat}

/-- the bytes that a length gives to a body are an encoding and its end marker if these stand at the place -/
theorem window_eq_iff : (bytes.drop p).take (bs.length + 1) = bs ++ [Opcode.endMarker] ↔
    (Cursor.standing bytes p).Consumes bs (.standing bytes (p + bs.length)) ∧
      bytes[p + bs.length]? = some Opcode.endMarker := by
  rw [List.take_add_one, List.getElem?_drop]
  constructor
  · intro h
    cases hmarker : bytes[p + bs.length]? with
    | none =>
      rw [hmarker] at h
      have hlen := congrArg List.length h
      simp only [Option.toList_none, List.append_nil, List.length_take, List.length_append, List.length_singleton] at hlen
      omega
    | some b =>
      rw [hmarker] at h
      obtain ⟨htake, hb⟩ := List.append_inj' h rfl
      refine ⟨⟨?_, rfl, rfl⟩, congrArg some (List.singleton_inj.1 hb)⟩
      calc bytes.drop p = (bytes.drop p).take bs.length ++ (bytes.drop p).drop bs.length :=
            (List.take_append_drop _ _).symm
        _ = bs ++ bytes.drop (p + bs.length) := by rw [htake, List.drop_drop]
  · rintro ⟨hc, hmarker⟩
    have hdrop : bytes.drop p = bs ++ bytes.drop (p + bs.length) := hc.rest
    rw [hmarker, hdrop, List.take_left]
    rfl

/-- a body at a place is decoded as its own bytes are -/
theorem readBody_standing_iff {n : Nat} {code : List Instr} {c : Cursor} :
    readBody n (.standing bytes p) = .ok code c ↔
      decodeBody ((bytes.drop p).take n) = .ok code ∧ p + n ≤ bytes.length ∧
        bytes[p + n - 1]? = some Opcode.endMarker ∧ c = .standing bytes (p + n - 1) := by
  rw [readBody_iff, decodeBody_iff]
  constructor
  · rintro ⟨bs, hc, rfl, hmarker, hcode, hle⟩
    obtain rfl := hc.standing
    have hmarker : bytes[p + bs.length]? = some Opcode.endMarker := List.head?_drop.symm.trans hmarker
    obtain ⟨hlt, -⟩ := List.getElem?_eq_some_iff.1 hmarker
    exact ⟨⟨bs, window_eq_iff.2 ⟨hc, hmarker⟩, hcode, hle⟩, hlt, hmarker, rfl⟩
  · rintro ⟨⟨bs, hwindow, hcode, hle⟩, hn, hmarker, rfl⟩
    have hlen : n = bs.length + 1 := by
      have hlen := congrArg List.length hwindow
      rw [List.length_take, List.length_drop, List.length_append, List.length_singleton] at hlen
      omega
    subst hlen
    obtain ⟨hc, hmarker⟩ := window_eq_iff.1 hwindow
    exact ⟨bs, hc, rfl, List.head?_drop.trans hmarker, hcode, hle⟩

/-- no body with its end marker begins another one -/
theorem eq_of_decodeBody_of_begins {a b : List UInt8} {code code' : List Instr} (ha : decodeBody a = .ok code)
    (hb : decodeBody b = .ok code') (h : a <+: b) : a = b := by
  obtain ⟨bs, rfl, hcode, hle⟩ := decodeBody_iff.1 ha
  obtain ⟨bs', rfl, hcode', hle'⟩ := decodeBody_iff.1 hb
  obtain ⟨rest, hrest⟩ := h
  -- with its marker a body is a nested body, and the reader of these stops at the marker
  have hnested : NestedBody (maxNesting + 1) (code, .endMarker) (bs ++ [Opcode.endMarker]) :=
    ⟨bs, rfl, hcode, Nat.lt_succ_of_le hle⟩
  have hnested' : NestedBody (maxNesting + 1) (code', .endMarker) (bs' ++ [Opcode.endMarker]) :=
    ⟨bs', rfl, hcode', Nat.lt_succ_of_le hle'⟩
  exact ((readNested_reads (maxNesting + 1) 0).unique hnested hnested'
    (hrest.trans (List.append_nil _).symm)).2

/-- **A body is decoded as its own bytes are, and these begin no other body.** At any place of a stream a body of some
length is decoded if and only if the stream goes on for so long and just these bytes are decoded, to the same
instructions; the bytes before and behind them do not matter. The decoder then stands at the end marker. And of the byte
strings that are a body with its end marker, none is a proper prefix of another. -/
theorem readBody_window (bytes : List UInt8) :
    (∀ p n code c, readBody n (.standing bytes p) = .ok code c ↔
      p + n ≤ bytes.length ∧ decodeBody ((bytes.drop p).take n) = .ok code ∧
        c = .standing bytes (p + n - 1) ∧ c.rest.head? = some Opcode.endMarker) ∧
    (∀ code, decodeBody bytes = .ok code → ∀ other code', decodeBody other = .ok code' →
      other <+: bytes ∨ bytes <+: other → other = bytes) := by
  constructor
  · intro p n code c
    rw [readBody_standing_iff]
    constructor
    · rintro ⟨hcode, hn, hmarker, rfl⟩
      exact ⟨hn, hcode, rfl, List.head?_drop.trans hmarker⟩
    · rintro ⟨hn, hcode, rfl, hmarker⟩
      exact ⟨hcode, hn, List.head?_drop.symm.trans hmarker, rfl⟩
  · rintro code hcode other code' hother (h | h)
    · exact eq_of_decodeBody_of_begins hother hcode h
    · exact (eq_of_decodeBody_of_begins hcode hother h).symm

/-- a body of four bytes between others: the one before it is no part of it, nor are those behind its end marker -/
example : readBody 4 (.standing [0xFF, 0x02, 0x40, 0x0B, 0x0B, 0x0B, 0xFF] 1) =
    .ok [.block .empty []] (.standing [0xFF, 0x02, 0x40, 0x0B, 0x0B, 0x0B, 0xFF] 4) := rfl

end Reader

end WasmCore
