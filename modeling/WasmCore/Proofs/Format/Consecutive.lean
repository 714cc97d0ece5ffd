/-
Code entries one after another.

The entries of a code section lie behind one another, and one decoder reads all of them. Although nested bodies are read
without regard to the size that an entry declares, an entry is read by its format alone, and so at any place at which its
bytes stand, whatever lies behind them. It follows that each entry is decoded as if it stood alone (`answer_consecutive`),
and that the decoder ends up right behind the last one.
-/
import WasmCore.Proofs.Format.CodeEntry

namespace WasmCore

open Reader

variable {bytes : List UInt8} {entry : CodeEntry}

/-- an entry that takes all of its bytes by itself, further on in a stream and with more bytes behind it -/
theorem read_entry (h : Call.entry.answer (.start bytes) = (.ok entry, bytes.length)) {c : Cursor} (hdepth : c.depth = 0)
    {rest : List UInt8} (hrest : c.rest = bytes ++ rest) :
    Call.entry.read c = .ok entry ⟨rest, c.position + bytes.length, 0⟩ := by
  obtain ⟨bs, behind, hbytes, hlen, hentry, hle⟩ := answer_entry_eq_ok.1 h
  have hwhole : bs = bytes := by
    have hnil : behind = [] := by
      rw [hbytes, List.length_append] at hlen
      exact List.length_eq_zero_iff.1 (by omega)
    rw [hbytes, hnil, List.append_nil]
  subst hwhole
  have hconsumes : c.Consumes bs ⟨rest, c.position + bs.length, 0⟩ := ⟨hrest, rfl, hdepth.symm⟩
  exact readCodeEntry_iff.2 ⟨bs, hconsumes, hentry, by rw [hdepth]; exact hle⟩

/-! ## Many entries -/

/-- where a decoder stands after as many entries -/
theorem afterAll_entries {entries : List (List UInt8 × CodeEntry)}
    (h : ∀ e ∈ entries, Call.entry.answer (.start e.1) = (.ok e.2, e.1.length)) {c : Cursor} (hdepth : c.depth = 0)
    {rest : List UInt8} (hrest : c.rest = (entries.map Prod.fst).flatten ++ rest) :
    c.afterAll (List.replicate entries.length .entry) =
      ⟨rest, c.position + (entries.map fun e => e.1.length).sum, 0⟩ := by
  induction entries generalizing c with
  | nil =>
    obtain ⟨_, position, _⟩ := c
    cases hrest
    cases hdepth
    rfl
  | cons e entries ih =>
    rw [List.map_cons, List.flatten_cons, List.append_assoc] at hrest
    have hread := read_entry (h e List.mem_cons_self) hdepth hrest
    have hafter : c.after .entry = ⟨(entries.map Prod.fst).flatten ++ rest, c.position + e.1.length, 0⟩ := by
      rw [Cursor.after, hread]
    have hall := ih (fun e' he' => h e' (List.mem_cons_of_mem e he')) (c := c.after .entry) (by rw [hafter])
      (by rw [hafter])
    calc c.afterAll (List.replicate (entries.length + 1) .entry)
        = (c.after .entry).afterAll (List.replicate entries.length .entry) := rfl
      _ = ⟨rest, c.position + e.1.length + (entries.map fun e => e.1.length).sum, 0⟩ := by rw [hall, hafter]
      _ = _ := by rw [Nat.add_assoc, List.map_cons, List.sum_cons]

/-- **Entries that lie behind one another are decoded as if each stood alone.** If each of them is decoded from its own
bytes and takes all of them, a decoder of all the bytes, and of any others behind them, answers the same entries one call
after another. After each call it stands behind as many entries, and after the last one it is at the end of the stream
exactly if nothing follows. -/
theorem answer_consecutive {entries : List (List UInt8 × CodeEntry)}
    (h : ∀ e ∈ entries, Call.entry.answer (.start e.1) = (.ok e.2, e.1.length)) (rest : List UInt8) :
    let c := Cursor.start ((entries.map Prod.fst).flatten ++ rest)
    (∀ i e, entries[i]? = some e →
      Call.entry.answer (c.afterAll (List.replicate i .entry)) =
        (.ok e.2, ((entries.take (i + 1)).map fun e => e.1.length).sum)) ∧
    ((c.afterAll (List.replicate entries.length .entry)).isEmpty ↔ rest = []) := by
  intro c
  constructor
  · intro i e he
    obtain ⟨hi, hei⟩ := List.getElem?_eq_some_iff.1 he
    have hsplit : entries = entries.take i ++ e :: entries.drop (i + 1) := by
      rw [← hei, List.getElem_cons_drop, List.take_append_drop]
    have hlen : (entries.take i).length = i := List.length_take_of_le (Nat.le_of_lt hi)
    -- what the earlier entries take, the entry itself, and what is behind it
    have hrest : c.rest = ((entries.take i).map Prod.fst).flatten ++
        (e.1 ++ (((entries.drop (i + 1)).map Prod.fst).flatten ++ rest)) :=
      calc c.rest = ((entries.take i ++ e :: entries.drop (i + 1)).map Prod.fst).flatten ++ rest := by
            rw [← hsplit]
            rfl
        _ = _ := by simp only [List.map_append, List.map_cons, List.flatten_append, List.flatten_cons, List.append_assoc]
    have hbefore := afterAll_entries (fun e' he' => h e' (List.mem_of_mem_take he')) (c := c) rfl hrest
    rw [hlen] at hbefore
    have hread := read_entry (h e (List.mem_of_getElem? he)) (c := c.afterAll (List.replicate i .entry))
      (by rw [hbefore]) (by rw [hbefore])
    rw [Call.answer, hread, hbefore]
    have hstart : c.position = 0 := rfl
    have htake : entries.take (i + 1) = entries.take i ++ [e] := by rw [List.take_add_one, he]; rfl
    rw [hstart, htake, List.map_append, List.sum_append, Nat.zero_add]
    rfl
  · rw [afterAll_entries h (c := c) rfl rfl]
    exact List.isEmpty_iff

/-- an empty body, then two locals and a block, then a byte that begins no entry -/
theorem answer_consecutive_pair :
    let c := Cursor.start [0x02, 0x00, 0x0B, 0x07, 0x01, 0x02, 0x7F, 0x02, 0x40, 0x0B, 0x0B, 0xFF]
    Call.entry.answer c = (.ok ⟨[], []⟩, 3) ∧
    Call.entry.answer (c.afterAll [.entry]) = (.ok ⟨[.i32, .i32], [.block .empty []]⟩, 11) ∧
    (c.afterAll [.entry, .entry]).isEmpty = false := by
  have h : ∀ e ∈ [([0x02, 0x00, 0x0B], (⟨[], []⟩ : CodeEntry)),
      ([0x07, 0x01, 0x02, 0x7F, 0x02, 0x40, 0x0B, 0x0B], ⟨[.i32, .i32], [.block .empty []]⟩)],
      Call.entry.answer (.start e.1) = (.ok e.2, e.1.length) := by
    intro e he
    simp only [List.mem_cons, List.not_mem_nil, or_false] at he
    rcases he with rfl | rfl <;> rfl
  obtain ⟨heach, hend⟩ := answer_consecutive h [0xFF]
  refine ⟨heach 0 _ rfl, heach 1 _ rfl, ?_⟩
  exact Bool.eq_false_iff.2 fun hempty => nomatch hend.1 hempty

end WasmCore
