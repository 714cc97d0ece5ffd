/-
Bodies are read by their grammar.

A sequence is read item by item; since every item takes at least a byte, the bytes that are left at the start bound the
number of items, and the bound is never what ends a read. By induction on the levels that are left, nested bodies are
read exactly as deep as these allow (`readNested_reads`); without a bound on the levels, this also shows that no bytes
encode two bodies.
-/
import WasmCore.Proofs.Format.Instruction

namespace WasmCore.Reader

open Instr (Encodes EncodesAll nesting nestingAll)

/-! ## Items -/

/-- an instruction that nests at most `levels` deep, or the byte that ends a body -/
def ItemBytes (levels : Nat) : Item → List UInt8 → Prop
  | .instr i, bs => Encodes i bs ∧ nesting i ≤ levels
  | .terminator t, bs => bs = [t.byte]

theorem readItem_reads {nested : NestedReader} {levels : Nat}
    (hn : ∀ offset, Reads (nested offset) (NestedBody levels)) : Reads (readItem nested) (ItemBytes levels) := by
  refine .position fun offset => ?_
  refine (readByte_reads.bind fun b => .ite (fun _ => .pure _) fun _ => .ite (fun _ => .pure _) fun _ =>
    (readInstr_reads hn b offset).map Item.instr).congr fun item bs => ?_
  constructor
  · intro hbytes
    rcases hbytes with ⟨b, _, rest, rfl, rfl, ⟨rfl, rfl, rfl⟩ | ⟨-, ⟨rfl, rfl, rfl⟩ | ⟨-, i, rfl, hi⟩⟩⟩
    · rfl
    · rfl
    · exact hi
  · intro h
    cases item with
    | terminator t =>
      cases h
      refine ⟨t.byte, [t.byte], [], rfl, rfl, ?_⟩
      cases t with
      | endMarker => exact .inl ⟨rfl, rfl, rfl⟩
      | otherwise => exact .inr ⟨by decide, .inl ⟨rfl, rfl, rfl⟩⟩
    | instr i =>
      obtain ⟨rest, rfl⟩ := h.1.head
      exact ⟨i.opcode, [i.opcode], rest, rfl, rfl, .inr ⟨i.opcode_ne_terminator .endMarker,
        .inr ⟨i.opcode_ne_terminator .otherwise, i, rfl, h⟩⟩⟩

/-! ## Nested bodies -/

variable {item : Reader Item} {levels : Nat}

/-- an instruction takes a byte at least -/
theorem length_lt_of_instr {c c' : Cursor} {i : Instr} {bs : List UInt8} (hc : c.Consumes bs c') (hi : Encodes i bs) :
    c'.rest.length < c.rest.length := by
  obtain ⟨rest, rfl⟩ := hi.head
  rw [hc.rest, List.length_append, List.length_cons]
  omega

theorem readUntilTerminator_reads (hitem : Reads item (ItemBytes levels)) (fuel : List UInt8) (c : Cursor)
    (hf : c.rest.length ≤ fuel.length) : ReadsAt (readUntilTerminator item fuel) (NestedBody (levels + 1)) c := by
  induction fuel generalizing c with
  | nil =>
    rintro ⟨code, t⟩ c'
    constructor
    · intro h; cases h
    · intro hbytes
      rcases hbytes with ⟨_, hc, body, rfl, -⟩
      have := hc.rest
      rw [List.length_eq_zero_iff.1 (Nat.le_zero.1 hf)] at this
      simp at this
  | cons b fuel ih =>
    rintro ⟨code, t⟩ c''
    rw [readUntilTerminator, bind_eq_ok]
    constructor
    · intro hbytes
      rcases hbytes with ⟨x, c', hi, h⟩
      obtain ⟨a, ha, hx⟩ := hitem.sound hi
      cases x with
      | terminator t' =>
        cases h
        cases hx
        exact ⟨[t.byte], ha, [], rfl, .nil, Nat.succ_pos _⟩
      | instr i =>
        obtain ⟨⟨rest, t'⟩, c₂, hr, h⟩ := bind_eq_ok.1 h
        cases h
        have hlen := length_lt_of_instr ha hx.1
        obtain ⟨_, hb, body, rfl, hrest, hlt⟩ := (ih c' (by rw [List.length_cons] at hf; omega) _ _).1 hr
        refine ⟨_, ha.trans hb, a ++ body, (List.append_assoc _ _ _).symm, .cons hx.1 hrest, ?_⟩
        exact Nat.max_lt.2 ⟨Nat.lt_succ_of_le hx.2, hlt⟩
    · intro hbytes
      rcases hbytes with ⟨_, hc, body, rfl, hall, hlt⟩
      dsimp only at hall hlt
      cases hall with
      | nil => exact ⟨.terminator t, c'', hitem.complete rfl hc, rfl⟩
      | @cons i rest _ _ hi hrest =>
        rw [List.append_assoc] at hc
        obtain ⟨c', ha, hb⟩ := hc.split
        have hlen := length_lt_of_instr ha hi
        obtain ⟨hlt, hrestlt⟩ := Nat.max_lt.1 hlt
        have hr := (ih c' (by rw [List.length_cons] at hf; omega) (rest, t) c'').2 ⟨_, hb, _, rfl, hrest, hrestlt⟩
        exact ⟨.instr i, c', hitem.complete ⟨hi, Nat.le_of_lt_succ hlt⟩ ha, bind_eq_ok.2 ⟨(rest, t), c'', hr, rfl⟩⟩

/-- nested bodies are read exactly as deep as the levels allow -/
theorem readNested_reads (levels offset : Nat) : Reads (readNested levels offset) (NestedBody levels) := by
  induction levels generalizing offset with
  | zero =>
    refine (Reads.throw _).congr fun x bs => ⟨False.elim, ?_⟩
    rintro ⟨body, -, -, hlt⟩
    exact absurd hlt (Nat.not_lt_zero _)
  | succ levels ih =>
    rintro c x c'
    have hread := readUntilTerminator_reads (readItem_reads ih) c.rest ⟨c.rest, c.position, c.depth + 1⟩ (Nat.le_refl _)
    constructor
    · intro h
      obtain ⟨_, _, h₁, h⟩ := bind_eq_ok.1 h
      cases h₁
      obtain ⟨_, _, h₂, h⟩ := bind_eq_ok.1 h
      cases h₂
      obtain ⟨y, c₁, hr, h⟩ := bind_eq_ok.1 h
      cases h
      obtain ⟨bs, hc, hx⟩ := (hread x c₁).1 hr
      exact ⟨bs, ⟨hc.rest, hc.position, by dsimp only; rw [hc.depth]; rfl⟩, hx⟩
    · intro hbytes
      rcases hbytes with ⟨bs, hc, hx⟩
      have hr := (hread x { c' with depth := c.depth + 1 }).2 ⟨bs, ⟨hc.rest, hc.position, rfl⟩, hx⟩
      have hclose : ({ c' with depth := c.depth + 1 - 1 } : Cursor) = c' := by rw [Nat.add_sub_cancel, ← hc.depth]
      refine bind_eq_ok.2 ⟨(), _, rfl, bind_eq_ok.2 ⟨_, _, rfl, bind_eq_ok.2 ⟨x, _, hr, bind_eq_ok.2 ⟨(), _, rfl, ?_⟩⟩⟩⟩
      dsimp only
      rw [hclose]
      rfl

/-- no bytes encode two bodies, however deep these nest -/
theorem encodesAll_unique {bs : List UInt8} {code code' : List Instr} (h : EncodesAll code bs)
    (h' : EncodesAll code' bs) : code = code' := by
  have hlt := Nat.lt_succ_of_le (Nat.le_max_left (nestingAll code) (nestingAll code'))
  have hlt' := Nat.lt_succ_of_le (Nat.le_max_right (nestingAll code) (nestingAll code'))
  have hbody : NestedBody _ (code, .endMarker) (bs ++ [Opcode.endMarker]) := ⟨bs, rfl, h, hlt⟩
  have hbody' : NestedBody _ (code', .endMarker) (bs ++ [Opcode.endMarker]) := ⟨bs, rfl, h', hlt'⟩
  have heq : bs ++ [Opcode.endMarker] ++ [] = bs ++ [Opcode.endMarker] ++ [] := rfl
  exact congrArg Prod.fst ((readNested_reads _ 0).unique hbody hbody' heq).1

/-! ## Function bodies -/

theorem readUntilPosition_done {stop : Nat} {fuel : List UInt8} {c : Cursor} (h : stop ≤ c.position) :
    readUntilPosition item stop fuel c = .ok [] c := by
  cases fuel <;> exact congrFun (if_pos h) c

/-- nothing is read if and only if the position has been reached -/
theorem readEmpty_iff {c c' : Cursor} (h : c'.position ≤ c.position) {code : List Instr} :
    (EStateM.Result.ok [] c : EStateM.Result DecodeError Cursor (List Instr)) = .ok code c' ↔
      ∃ bs, c.Consumes bs c' ∧ EncodesAll code bs ∧ nestingAll code ≤ levels := by
  constructor
  · intro h
    cases h
    exact ⟨[], .refl c, .nil, Nat.zero_le _⟩
  · intro hbytes
    rcases hbytes with ⟨bs, hc, hcode, -⟩
    have := hc.position
    obtain rfl : bs = [] := List.length_eq_zero_iff.1 (by omega)
    rw [hc.eq_of_nil, hcode.eq_nil]

/-- instructions up to a position, if they end exactly there -/
theorem readUntilPosition_iff (hitem : Reads item (ItemBytes levels)) (fuel : List UInt8) {c c' : Cursor}
    (hf : c.rest.length ≤ fuel.length) {code : List Instr} :
    readUntilPosition item c'.position fuel c = .ok code c' ↔
      ∃ bs, c.Consumes bs c' ∧ EncodesAll code bs ∧ nestingAll code ≤ levels := by
  induction fuel generalizing c code with
  | nil =>
    by_cases h : c'.position ≤ c.position
    · rw [readUntilPosition_done h, readEmpty_iff h]
    · constructor
      · intro hr
        obtain ⟨_, _, h₁, hr⟩ := bind_eq_ok.1 hr
        cases h₁
        rw [if_neg h] at hr
        cases hr
      · intro hbytes
        rcases hbytes with ⟨bs, hc, -⟩
        have := hc.position
        have := congrArg List.length hc.rest
        rw [List.length_append] at this
        have : c.rest.length = 0 := Nat.le_zero.1 hf
        omega
  | cons b fuel ih =>
    by_cases h : c'.position ≤ c.position
    · rw [readUntilPosition_done h, readEmpty_iff h]
    · constructor
      · intro hr
        obtain ⟨_, _, h₁, hr⟩ := bind_eq_ok.1 hr
        cases h₁
        rw [if_neg h] at hr
        obtain ⟨x, c₁, hx, hr⟩ := bind_eq_ok.1 hr
        obtain ⟨a, ha, hbytes⟩ := hitem.sound hx
        cases x with
        | terminator t => cases hr
        | instr i =>
          obtain ⟨rest, c₂, hrest, hr⟩ := bind_eq_ok.1 hr
          cases hr
          have hlen := length_lt_of_instr ha hbytes.1
          obtain ⟨bs, hb, hall, hle⟩ := (ih (by rw [List.length_cons] at hf; omega)).1 hrest
          exact ⟨a ++ bs, ha.trans hb, .cons hbytes.1 hall, Nat.max_le.2 ⟨hbytes.2, hle⟩⟩
      · intro hbytes
        rcases hbytes with ⟨bs, hc, hall, hle⟩
        cases hall with
        | nil => rw [hc.eq_of_nil] at h; exact absurd (Nat.le_refl _) h
        | @cons i rest _ _ hi hrest =>
          obtain ⟨c₁, ha, hb⟩ := hc.split
          have hlen := length_lt_of_instr ha hi
          obtain ⟨hile, hrestle⟩ := Nat.max_le.1 hle
          have hr := (ih (by rw [List.length_cons] at hf; omega)).2 ⟨_, hb, hrest, hrestle⟩
          refine bind_eq_ok.2 ⟨_, _, rfl, ?_⟩
          rw [if_neg h]
          exact bind_eq_ok.2 ⟨.instr i, c₁, hitem.complete ⟨hi, hile⟩ ha, bind_eq_ok.2 ⟨rest, c', hr, rfl⟩⟩

/-- `readBody` with so many levels for the constructs of the body -/
def readBodyWithin (levels length : Nat) : Reader (List Instr) := do
  let start ← position
  match length with
  | 0 => throw (.missingEndMarker none start)
  | expected + 1 => do
    let stop := start + expected
    let code ← readUntilPosition (readItem (readNested levels)) stop (← get).rest
    let reached ← position
    if reached ≠ stop then throw (.lengthMismatch expected (reached - start))
    let marker ← peek?
    if marker ≠ some Opcode.endMarker then throw (.missingEndMarker marker stop)
    return code

/-- what is open when a body begins takes as many levels from it -/
theorem readBody_within (length : Nat) (c : Cursor) :
    readBody length c = readBodyWithin (maxNesting - c.depth) length c := by
  rw [readBody, readBodyWithin, position_bind, position_bind]
  cases length with
  | zero => rfl
  | succ expected =>
    dsimp only
    rw [readBodyTo, get_bind, get_bind]

/-- as long as its end is a word, a body is read as with natural numbers -/
theorem readBodyWord_eq {length : UInt64} {c : Cursor} (h : 1 ≤ length.toNat → c.position + (length.toNat - 1) < 2 ^ 64) :
    readBodyWord length c = readBody length.toNat c := by
  rw [readBodyWord, readBody, position_bind, position_bind]
  cases hlength : length.toNat with
  | zero => rfl
  | succ expected =>
    rw [hlength, Nat.add_sub_cancel] at h
    have hstop : (c.position + expected) % UInt64.size = c.position + expected :=
      Nat.mod_eq_of_lt (h (Nat.le_add_left 1 expected))
    dsimp only
    rw [hstop]

/-- an end that wraps around lies before the start, so nothing is read, and the start is not the end -/
theorem readBodyWord_wrapped {length : UInt64} {c : Cursor} (hlength : 1 ≤ length.toNat)
    (h : 2 ^ 64 ≤ c.position + (length.toNat - 1)) :
    readBodyWord length c = .error (.lengthMismatch (length.toNat - 1) 0) c := by
  obtain ⟨expected, hexpected⟩ := Nat.exists_eq_add_of_le' hlength
  have hlt := length.toNat_lt
  rw [hexpected] at h hlt
  have hstop : (c.position + expected) % UInt64.size < c.position := by
    show _ % 2 ^ 64 < _
    omega
  have hread : readUntilPosition (readItem (readNested (maxNesting - c.depth))) ((c.position + expected) % UInt64.size)
      c.rest c = .ok [] c := readUntilPosition_done (Nat.le_of_lt hstop)
  rw [readBodyWord, position_bind, hexpected]
  dsimp only
  rw [readBodyTo, get_bind, bind_of_ok hread, position_bind, if_pos (Nat.ne_of_gt hstop), throw_bind, Nat.sub_self]
  rfl

theorem readBodyWord_cases (length : UInt64) (c : Cursor) : readBodyWord length c = readBody length.toNat c ∨
    readBodyWord length c = .error (.lengthMismatch (length.toNat - 1) 0) c := by
  by_cases h : 1 ≤ length.toNat ∧ 2 ^ 64 ≤ c.position + (length.toNat - 1)
  · exact .inr (readBodyWord_wrapped h.1 h.2)
  · exact .inl (readBodyWord_eq fun hlength => Nat.lt_of_not_le fun hend => h ⟨hlength, hend⟩)

/-- a body of so many bytes, one of which is the end marker that is left -/
theorem readBodyWithin_iff {levels length : Nat} {c c' : Cursor} {code : List Instr} :
    readBodyWithin levels length c = .ok code c' ↔
      ∃ bs, c.Consumes bs c' ∧ length = bs.length + 1 ∧ c'.rest.head? = some Opcode.endMarker ∧ EncodesAll code bs ∧
        nestingAll code ≤ levels := by
  have hitem := readItem_reads (readNested_reads levels)
  cases length with
  | zero =>
    constructor
    · intro h; cases h
    · rintro ⟨bs, -, h, -⟩; cases h
  | succ expected =>
    constructor
    · intro h
      obtain ⟨_, _, h₁, h⟩ := bind_eq_ok.1 h
      cases h₁
      obtain ⟨_, _, h₂, h⟩ := bind_eq_ok.1 h
      cases h₂
      obtain ⟨code', c₁, hread, h⟩ := bind_eq_ok.1 h
      obtain ⟨_, _, h₃, h⟩ := bind_eq_ok.1 h
      cases h₃
      split at h
      · obtain ⟨_, _, h₄, -⟩ := bind_eq_ok.1 h
        cases h₄
      · rename_i hstop
        obtain ⟨_, _, h₄, h⟩ := bind_eq_ok.1 h
        cases h₄
        dsimp only at h
        split at h
        · obtain ⟨_, _, h₅, -⟩ := bind_eq_ok.1 h
          cases h₅
        · rename_i hmarker
          cases h
          have hstop := Decidable.not_not.1 hstop
          rw [← hstop] at hread
          obtain ⟨bs, hc, hcode, hle⟩ := (readUntilPosition_iff hitem _ (Nat.le_refl _)).1 hread
          have := hc.position
          exact ⟨bs, hc, by omega, Decidable.not_not.1 hmarker, hcode, hle⟩
    · intro hbytes
      rcases hbytes with ⟨bs, hc, hlen, hmarker, hcode, hle⟩
      have hread := (readUntilPosition_iff hitem c.rest (Nat.le_refl _)).2 ⟨bs, hc, hcode, hle⟩
      have hstop : c.position + expected = c'.position := by rw [hc.position]; omega
      refine bind_eq_ok.2 ⟨_, _, rfl, bind_eq_ok.2 ⟨_, _, rfl, bind_eq_ok.2 ⟨code, c', by rw [hstop]; exact hread, ?_⟩⟩⟩
      refine bind_eq_ok.2 ⟨_, _, rfl, ?_⟩
      rw [if_neg (fun h => h hstop.symm)]
      refine bind_eq_ok.2 ⟨_, _, rfl, ?_⟩
      dsimp only
      rw [if_neg (fun h => h hmarker)]
      rfl

theorem readBody_iff {length : Nat} {c c' : Cursor} {code : List Instr} : readBody length c = .ok code c' ↔
    ∃ bs, c.Consumes bs c' ∧ length = bs.length + 1 ∧ c'.rest.head? = some Opcode.endMarker ∧ EncodesAll code bs ∧
      nestingAll code ≤ maxNesting - c.depth := by
  rw [readBody_within]
  exact readBodyWithin_iff

/-- the decoder accepts the encodings of bodies that do not nest too deep, followed by one end marker -/
theorem decodeBody_iff {bytes : List UInt8} {code : List Instr} : decodeBody bytes = .ok code ↔
    ∃ bs, bytes = bs ++ [Opcode.endMarker] ∧ EncodesAll code bs ∧ nestingAll code ≤ maxNesting := by
  constructor
  · intro h
    simp only [decodeBody, runOn] at h
    cases hr : readBody bytes.length (.start bytes) with
    | error e c' => rw [hr] at h; cases h
    | ok code' c' =>
      rw [hr] at h
      cases h
      obtain ⟨bs, hc, hlen, hmarker, hcode, hle⟩ := readBody_iff.1 hr
      have hbytes : bytes = bs ++ c'.rest := hc.rest
      -- the marker is all that is left
      have hrest : c'.rest = [Opcode.endMarker] := by
        cases hc' : c'.rest with
        | nil => rw [hc'] at hmarker; cases hmarker
        | cons b rest =>
          rw [hc'] at hmarker
          cases hmarker
          rw [hbytes, hc', List.length_append, List.length_cons] at hlen
          rw [List.length_eq_zero_iff.1 (by omega : rest.length = 0)]
      exact ⟨bs, by rw [hbytes, hrest], hcode, hle⟩
  · intro hbytes
    rcases hbytes with ⟨bs, rfl, hcode, hle⟩
    have hr : readBody (bs ++ [Opcode.endMarker]).length (.start (bs ++ [Opcode.endMarker])) =
        .ok code ⟨[Opcode.endMarker], 0 + bs.length, 0⟩ :=
      readBody_iff.2 ⟨bs, ⟨rfl, rfl, rfl⟩, by rw [List.length_append]; rfl, rfl, hcode, hle⟩
    simp only [decodeBody, runOn, hr]

end WasmCore.Reader
