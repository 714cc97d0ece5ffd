/-
What a body holds, and the bounds of a decoder.

An instruction takes a byte at least, and a target of a `br_table` takes one more. So a body has no more instructions and
targets than it has bytes (`EncodesAll.extent_le`), which is said of the grammar, with no regard to how a body is read.

Together with what is known of any call (`Proofs.Format.Scan`), this bounds all that a decoder does by what it is given
(`calls_bounded`).
-/
import WasmCore.Proofs.Format.Encoder
import WasmCore.Proofs.Format.Scan

namespace WasmCore

/-! ## How much a body holds -/

theorem EncodesEach.length_le {xs : List UInt32} {bs : List UInt8} (h : EncodesEach EncodesU32 xs bs) :
    xs.length ≤ bs.length := by
  induction h with
  | nil => exact Nat.le_refl _
  | cons hx _ ih =>
    have hpos := hx.groups.length_pos
    rw [List.length_cons, List.length_append]
    omega

namespace Instr

/-- how many places a `br_table` leads to, the one it falls back on apart -/
def targetCount : Instr → Nat
  | brTable targets _ => targets.length
  | _ => 0

/-- the number of the instructions of a body, at all levels, and of the targets in them -/
def extent (code : List Instr) : Nat :=
  (flattenAll code).length + ((flattenAll code).map targetCount).sum

theorem extent_cons (i : Instr) (rest : List Instr) : extent (i :: rest) = extent [i] + extent rest := by
  simp only [extent, flattenAll, List.append_nil, List.length_append, List.map_append, List.sum_append]
  omega

theorem extent_block (t : BlockType) (body : List Instr) : extent [block t body] = extent body + 1 := by
  simp only [extent, flattenAll, flatten, List.append_nil, List.length_cons, List.map_cons, List.sum_cons, targetCount]
  omega

theorem extent_loop (t : BlockType) (body : List Instr) : extent [loop t body] = extent body + 1 := by
  simp only [extent, flattenAll, flatten, List.append_nil, List.length_cons, List.map_cons, List.sum_cons, targetCount]
  omega

theorem extent_ite (t : BlockType) (body otherwise : List Instr) :
    extent [ite t body otherwise] = extent body + extent otherwise + 1 := by
  simp only [extent, flattenAll, flatten, List.append_nil, List.length_cons, List.length_append, List.map_cons,
    List.map_append, List.sum_cons, List.sum_append, targetCount]
  omega

theorem extent_le_of_immediates {i : Instr} {bs : List UInt8} (h : Immediates i bs) : extent [i] ≤ bs.length + 1 := by
  cases i with
  | brTable targets fallback =>
    cases h with
    | bare h => cases h
    | number h hx => cases h
    | brTable length count_eq each last =>
      have hle := each.length_le
      have hextent : extent [brTable targets fallback] = targets.length + 1 := Nat.add_comm _ _
      simp only [hextent, List.length_append]
      omega
  | block | loop | ite => cases Reader.nesting_of_immediates h
  | _ => exact Nat.succ_le_succ (Nat.zero_le _)

mutual

theorem Encodes.extent_le : ∀ {i : Instr} {bs : List UInt8}, Encodes i bs → extent [i] ≤ bs.length
  | _, _, .plain h => extent_le_of_immediates h
  | _, _, .block h => by
    have hbody := h.extent_le
    simp only [extent_block, List.length_cons, List.length_append]
    omega
  | _, _, .loop h => by
    have hbody := h.extent_le
    simp only [extent_loop, List.length_cons, List.length_append]
    omega
  | _, _, .ite h => by
    have hbody := h.extent_le
    have hnil : extent [] = 0 := rfl
    simp only [extent_ite, hnil, List.length_cons, List.length_append]
    omega
  | _, _, .iteOtherwise h ho => by
    have hbody := h.extent_le
    have hotherwise := ho.extent_le
    simp only [extent_ite, List.length_cons, List.length_append]
    omega

theorem EncodesAll.extent_le : ∀ {code : List Instr} {bs : List UInt8}, EncodesAll code bs → extent code ≤ bs.length
  | _, _, .nil => Nat.le_refl _
  | _, _, .cons h hr => by
    rw [extent_cons, List.length_append]
    exact Nat.add_le_add h.extent_le hr.extent_le

end

end Instr

theorem extent_le_of_answer {length p : Nat} {code : List Instr} {c : Cursor}
    (h : (Call.body length).answer c = (.ok code, p)) : Instr.extent code ≤ p - c.position := by
  simp only [Call.answer, Call.read] at h
  cases hr : Reader.readBody length c with
  | error e c' =>
    rw [hr] at h
    cases h
  | ok code' c' =>
    rw [hr] at h
    cases h
    obtain ⟨bs, hbs, -, -, hcode, -⟩ := Reader.readBody_iff.1 hr
    rw [hbs.position, Nat.add_sub_cancel_left]
    exact hcode.extent_le

/-- **Every call ends, stays within its bytes and answers no more than it has read.** After any calls, whether they
succeeded or failed, the next one moves the decoder forward if at all, and not beyond the end of the stream. It comes to the
same answer at the same place if its loops are not held back by the bytes: no limit that is beyond the end of the stream is
ever reached, for the loops end in no more rounds than the call reads bytes, and one. Nor is there a byte that it looks for
in vain or a position that is less than what is taken from it. A body that is decoded holds no more instructions and targets
than it takes bytes. -/
theorem calls_bounded (bytes : List UInt8) (history : List Call) (call : Call) :
    let c := (Cursor.start bytes).afterAll history
    let c' := c.after call
    (c.position ≤ c'.position ∧ c'.position ≤ bytes.length) ∧
    (∀ limit, bytes.length < c.position + limit → ∃ rounds ≤ c'.position - c.position + 1,
      call.scan bytes limit ⟨c, 0⟩ = some ((call.answer c).1, ⟨c', rounds⟩)) ∧
    ∀ length code p, (Call.body length).answer c = (.ok code, p) → Instr.extent code ≤ p - c.position := by
  intro c c'
  have hc : (Cursor.start bytes).Passes c := (Cursor.start bytes).passes_afterAll history
  have hafter : c.Passes c' := c.passes_after call
  refine ⟨⟨hafter.position_le, Nat.le.intro (hc.trans hafter).length⟩, fun limit hlimit => ?_, ?_⟩
  · have hlength : c.position + c.rest.length = bytes.length := hc.length
    exact call.scan_answer hc (by omega)
  · intro length code p
    exact extent_le_of_answer

/-- A body of no length fails. The next call takes seven bytes for a block with a table of one target in it, and leaves the
end marker of the body; a limit of nine rounds holds nothing back. -/
theorem calls_bounded_nested :
    let bytes : List UInt8 := [0x02, 0x40, 0x0E, 0x01, 0x00, 0x00, 0x0B, 0x0B]
    let c := (Cursor.start bytes).afterAll [.body 0]
    let code : List Instr := [.block .empty [.brTable [0] 0]]
    (Call.body 8).answer c = (.ok code, 7) ∧
    (∃ rounds ≤ 8, (Call.body 8).scan bytes 9 ⟨c, 0⟩ = some (.ok code, ⟨c.after (.body 8), rounds⟩)) ∧
    Instr.extent code ≤ 7 := by
  intro bytes c code
  have hanswer : (Call.body 8).answer c = (.ok code, 7) := rfl
  obtain ⟨-, hends, hextent⟩ := calls_bounded bytes [.body 0] (.body 8)
  exact ⟨hanswer, hends 9 (by decide), hextent 8 code 7 hanswer⟩

/-- a table that announces 4294967295 targets and has none: the loop over them ends with the bytes -/
example : (Call.body 7).answer (.start [0x0E, 0xFF, 0xFF, 0xFF, 0xFF, 0x0F]) = (.error (.unexpectedEnd 6), 6) := by
  rfl

end WasmCore
