/-
Reading at another place.

`Follows p d m n r r'` compares a reader with itself `p` bytes further on, where `d` more constructs are open: the
outcome is the same, with every offset and the final cursor moved. Both readers are given as many levels, so the
constructs that were open before are carried along and count for nothing. The same pass over the readers shows that a
cursor only moves forward and that a successful read closes what it has opened, while a failed one may leave it open;
and that a read from position `m` on complains of no nesting before `n`.
-/
import WasmCore.Proofs.Format.Reads

namespace WasmCore

/-! ## Moving the outcome -/

/-- the same error `p` bytes further on -/
def DecodeError.shift (p : Nat) : DecodeError → DecodeError
  | unknownOpcode byte offset => unknownOpcode byte (offset + p)
  | unknownPrefixedOpcode lead sub offset => unknownPrefixedOpcode lead sub (offset + p)
  | unexpectedEnd offset => unexpectedEnd (offset + p)
  | malformedLeb offset => malformedLeb (offset + p)
  | invalidValueType byte offset => invalidValueType byte (offset + p)
  | invalidBlockType byte offset => invalidBlockType byte (offset + p)
  | unexpectedOpcode byte offset => unexpectedOpcode byte (offset + p)
  | missingEndMarker found offset => missingEndMarker found (offset + p)
  | invalidReserved byte offset => invalidReserved byte (offset + p)
  | lengthMismatch expected consumed => lengthMismatch expected consumed
  | tooManyLocals count offset => tooManyLocals count (offset + p)
  | nestingTooDeep offset => nestingTooDeep (offset + p)

theorem DecodeError.shift_zero (e : DecodeError) : e.shift 0 = e := by
  cases e <;> rfl

namespace Cursor

/-- `p` bytes further on, where `d` more constructs are open -/
def shift (p d : Nat) (c : Cursor) : Cursor :=
  ⟨c.rest, c.position + p, c.depth + d⟩

/-- within one more construct -/
def enter (c : Cursor) : Cursor :=
  { c with depth := c.depth + 1 }

def leave (c : Cursor) : Cursor :=
  { c with depth := c.depth - 1 }

theorem enter_shift (p d : Nat) (c : Cursor) : (c.shift p d).enter = c.enter.shift p d := by
  simp only [enter, shift, Nat.add_right_comm]

theorem leave_shift {c : Cursor} (p d : Nat) (h : 0 < c.depth) : (c.shift p d).leave = c.leave.shift p d := by
  simp only [leave, shift, Nat.sub_add_comm h]

/-- the cursor has moved over some bytes, and what was open still is -/
structure Passes (c c' : Cursor) : Prop where
  bytes : ∃ bs, c.rest = bs ++ c'.rest ∧ c'.position = c.position + bs.length
  depth : c.depth ≤ c'.depth

theorem Passes.refl (c : Cursor) : c.Passes c :=
  ⟨⟨[], rfl, rfl⟩, Nat.le_refl _⟩

theorem Passes.trans {c c' c'' : Cursor} (h : c.Passes c') (h' : c'.Passes c'') : c.Passes c'' := by
  obtain ⟨⟨a, ha, hpos⟩, hdepth⟩ := h
  obtain ⟨⟨b, hb, hpos'⟩, hdepth'⟩ := h'
  exact ⟨⟨a ++ b, by rw [ha, hb, List.append_assoc], by rw [hpos', hpos, List.length_append, Nat.add_assoc]⟩,
    Nat.le_trans hdepth hdepth'⟩

theorem Consumes.passes {c c' : Cursor} {bs : List UInt8} (h : c.Consumes bs c') : c.Passes c' :=
  ⟨⟨bs, h.rest, h.position⟩, Nat.le_of_eq h.depth.symm⟩

theorem Passes.position_le {c c' : Cursor} (h : c.Passes c') : c.position ≤ c'.position := by
  obtain ⟨bs, -, hpos⟩ := h.bytes
  exact Nat.le.intro hpos.symm

end Cursor

namespace Reader

/-- what a reader comes to from a cursor -/
abbrev Outcome (α : Type) := EStateM.Result DecodeError Cursor α

namespace Outcome

variable {α β : Type}

def shift (p d : Nat) : Outcome α → Outcome α
  | .ok x c => .ok x (c.shift p d)
  | .error e c => .error (e.shift p) (c.shift p d)

/-- The outcome of a read from `c` on: a success closes what it opened; a failure is not about nesting before `n`. -/
def Forward (n : Nat) (c : Cursor) : Outcome α → Prop
  | .ok _ c' => ∃ bs, c.Consumes bs c'
  | .error e c' => c.Passes c' ∧ ∀ offset, e = .nestingTooDeep offset → n ≤ offset

theorem Forward.of_consumes {n : Nat} {c c' : Cursor} {bs : List UInt8} {o : Outcome α} (h : o.Forward n c')
    (hc : c.Consumes bs c') : o.Forward n c := by
  cases o with
  | ok x c'' =>
    obtain ⟨bs', hc'⟩ := h
    exact ⟨bs ++ bs', hc.trans hc'⟩
  | error e c'' =>
    obtain ⟨hpass, he⟩ := h
    exact ⟨hc.passes.trans hpass, he⟩

/-- where the read has come to, whatever it has come to -/
def cursor : Outcome α → Cursor
  | .ok _ c => c
  | .error _ c => c

theorem Forward.passes {n : Nat} {c : Cursor} {o : Outcome α} (h : o.Forward n c) : c.Passes o.cursor := by
  cases o with
  | ok x c' =>
    obtain ⟨bs, hc⟩ := h
    exact hc.passes
  | error e c' => exact h.1

end Outcome

/-- `r'` at a place `p` bytes further on does what `r` does, from position `m` on -/
def Follows {α : Type} (p d m n : Nat) (r r' : Reader α) : Prop :=
  ∀ c : Cursor, m ≤ c.position → r' (c.shift p d) = Outcome.shift p d (r c) ∧ Outcome.Forward n c (r c)

/-! ## Rules -/

namespace Follows

variable {α β : Type} {p d m n : Nat} {r r' : Reader α}

theorem pure (x : α) : Follows p d m n (Pure.pure x) (Pure.pure x) :=
  fun c _ => ⟨rfl, [], .refl c⟩

theorem throw {e : DecodeError} (h : ∀ offset, e = .nestingTooDeep offset → n ≤ offset) :
    Follows p d m n (MonadExcept.throw e : Reader α) (MonadExcept.throw (e.shift p)) :=
  fun c _ => ⟨rfl, .refl c, h⟩

/-- what holds from a position on holds from a later one -/
theorem later {k : Nat} (h : Follows p d m n r r') (hk : m ≤ k) : Follows p d k n r r' :=
  fun c hc => h c (Nat.le_trans hk hc)

theorem loosen {k : Nat} (h : Follows p d m n r r') (hk : k ≤ n) : Follows p d m k r r' := by
  intro c hm
  obtain ⟨hshift, hforward⟩ := h c hm
  refine ⟨hshift, ?_⟩
  cases hr : r c with
  | ok x c' => rwa [hr] at hforward
  | error e c' =>
    rw [hr] at hforward
    exact ⟨hforward.1, fun offset he => Nat.le_trans hk (hforward.2 offset he)⟩

theorem bind {f f' : α → Reader β} (h : Follows p d m n r r') (hf : ∀ x, Follows p d m n (f x) (f' x)) :
    Follows p d m n (r >>= f) (r' >>= f') := by
  intro c hm
  obtain ⟨hshift, hforward⟩ := h c hm
  simp only [Bind.bind, EStateM.bind, hshift]
  cases hr : r c with
  | error e c' =>
    rw [hr] at hforward
    exact ⟨rfl, hforward⟩
  | ok x c' =>
    rw [hr] at hforward
    obtain ⟨bs, hc⟩ := hforward
    obtain ⟨hshift', hforward'⟩ := hf x c' (Nat.le_trans hm hc.passes.position_le)
    exact ⟨hshift', hforward'.of_consumes hc⟩

/-- the place may go into what is read next, and into its errors -/
theorem position {f f' : Nat → Reader α} (hf : ∀ k, m ≤ k → Follows p d k n (f k) (f' (k + p))) :
    Follows p d m n (Reader.position >>= f) (Reader.position >>= f') :=
  fun c hm => hf c.position hm c (Nat.le_refl _)

theorem ite {t : Prop} [Decidable t] {q q' : Reader α} (h : t → Follows p d m n r r') (h' : ¬ t → Follows p d m n q q') :
    Follows p d m n (if t then r else q) (if t then r' else q') := by
  by_cases ht : t
  · rw [if_pos ht, if_pos ht]; exact h ht
  · rw [if_neg ht, if_neg ht]; exact h' ht

/-- a reader that fails unless a condition holds -/
theorem check {t : Prop} [Decidable t] {e : DecodeError} {f f' : Unit → Reader α}
    (he : ∀ offset, e = .nestingTooDeep offset → n ≤ offset) (h : ¬ t → Follows p d m n (f ()) (f' ())) :
    Follows p d m n (if t then MonadExcept.throw e >>= f else f ())
      (if t then MonadExcept.throw (e.shift p) >>= f' else f' ()) := by
  by_cases ht : t
  · rw [if_pos ht, if_pos ht]; exact fun c _ => ⟨rfl, .refl c, he⟩
  · rw [if_neg ht, if_neg ht]; exact h ht

/-- what goes by the place and the bytes after it -/
theorem get {f f' : Cursor → Reader α} (hf : ∀ c, m ≤ c.position → Follows p d c.position n (f c) (f' (c.shift p d))) :
    Follows p d m n (MonadState.get >>= f) (MonadState.get >>= f') :=
  fun c hm => hf c hm c (Nat.le_refl _)

/-- what comes after a byte stands further on -/
theorem byte {f f' : UInt8 → Reader α} (hf : ∀ b, Follows p d (m + 1) n (f b) (f' b)) :
    Follows p d m n (readByte >>= f) (readByte >>= f') := by
  rintro ⟨rest, position, depth⟩ hm
  cases rest with
  | nil => exact ⟨rfl, .refl _, nofun⟩
  | cons b rest =>
    have hc : Cursor.Consumes ⟨b :: rest, position, depth⟩ [b] ⟨rest, position + 1, depth⟩ := ⟨rfl, rfl, rfl⟩
    obtain ⟨hshift, hforward⟩ := hf b ⟨rest, position + 1, depth⟩ (Nat.succ_le_succ hm)
    refine ⟨?_, hforward.of_consumes hc⟩
    rw [Cursor.shift, Nat.add_right_comm] at hshift
    exact hshift

end Follows

/-! ## Bytes and numbers -/

variable {p d m n : Nat}

theorem readByte_follows : Follows p d m n readByte readByte := by
  simpa only [bind_pure] using Follows.byte fun b => .pure b

theorem peek?_follows : Follows p d m n peek? peek? :=
  fun c _ => ⟨rfl, [], .refl c⟩

theorem readBytes_follows (k : Nat) : Follows p d m n (readBytes k) (readBytes k) := by
  intro c _
  have hshift : (c.shift p d).rest = c.rest := rfl
  by_cases hk : (c.rest.take k).length = k
  · simp only [readBytes, hshift, if_pos hk]
    refine ⟨?_, c.rest.take k, (List.take_append_drop k c.rest).symm, congrArg (c.position + ·) hk.symm, rfl⟩
    simp only [Cursor.shift, Outcome.shift, Nat.add_right_comm]
  · simp only [readBytes, hshift, if_neg hk]
    refine ⟨?_, .refl c, fun _ h => by cases h⟩
    simp only [Cursor.shift, Outcome.shift, DecodeError.shift, Nat.add_right_comm]

theorem readGroups_follows (s : Signedness) (offset more : Nat) :
    Follows p d m n (readGroups s offset more) (readGroups s (offset + p) more) := by
  induction more with
  | zero => exact readByte_follows.bind fun b => .ite (fun _ => .pure _) fun _ => .throw nofun
  | succ more ih => exact readByte_follows.bind fun b => .ite (fun _ => .pure _) fun _ => ih.bind fun _ => .pure _

theorem readLeb_follows (s : Signedness) (w : Width) : Follows p d m n (readLeb s w) (readLeb s w) :=
  .position fun offset _ => (readGroups_follows s offset _).bind fun x => .ite (fun _ => .pure x) fun _ => .throw nofun

theorem readU32_follows : Follows p d m n readU32 readU32 := by
  rw [readU32_eq]
  exact (readLeb_follows .unsigned .w32).bind fun _ => .pure _

theorem readInt_follows (w : Width) : Follows p d m n (readInt w) (readInt w) := by
  rw [readInt_eq]
  exact (readLeb_follows .signed w).bind fun _ => .pure _

theorem readFloat_follows (w : Width) : Follows p d m n (readFloat w) (readFloat w) :=
  (readBytes_follows w.bytes).bind fun _ => .pure _

theorem replicate_follows {α : Type} {item : Reader α} (h : Follows p d m n item item) (k : Nat) :
    Follows p d m n (replicate k item) (replicate k item) := by
  induction k with
  | zero => exact .pure []
  | succ k ih => exact h.bind fun _ => ih.bind fun _ => .pure _

/-! ## Immediates -/

theorem readValType_follows : Follows p d m n readValType readValType := by
  refine .position fun offset _ => readByte_follows.bind fun b => ?_
  cases ValType.ofByte? b with
  | some t => exact .pure t
  | none => exact .throw nofun

theorem readBlockType_follows : Follows p d m n readBlockType readBlockType := by
  refine .position fun offset _ => readByte_follows.bind fun b => .ite (fun _ => .pure _) fun _ => ?_
  cases ValType.ofByte? b with
  | some t => exact .pure _
  | none => exact .throw nofun

theorem readMemArg_follows : Follows p d m n readMemArg readMemArg :=
  readU32_follows.bind fun _ => readU32_follows.bind fun _ => .pure _

theorem readReserved_follows : Follows p d m n readReserved readReserved :=
  .position fun _ _ => readByte_follows.bind fun _ => .ite (fun _ => .throw nofun) fun _ => .pure ()

/-! ## Instructions -/

variable {nested nested' : NestedReader} {offset : Nat}

theorem readClosed_follows (hm : 0 < m) (h : Follows p d m n (nested offset) (nested' (offset + p))) :
    Follows p d m n (readClosed nested offset) (readClosed nested' (offset + p)) := by
  refine h.bind ?_
  rintro ⟨body, terminator⟩
  cases terminator with
  | endMarker => exact .pure body
  | otherwise =>
    refine .position fun k hk => ?_
    rw [Nat.sub_add_comm (Nat.le_trans hm hk)]
    exact .throw nofun

theorem readOtherwise_follows (hm : 0 < m) (h : Follows p d m n (nested offset) (nested' (offset + p))) (t : Terminator) :
    Follows p d m n (readOtherwise nested offset t) (readOtherwise nested' (offset + p) t) := by
  cases t with
  | endMarker => exact .pure []
  | otherwise => exact readClosed_follows hm h

theorem readPrefixed_follows : Follows p d m n (readPrefixed offset) (readPrefixed (offset + p)) := by
  refine readU32_follows.bind fun sub => ?_
  cases UnaryOp.ofOpcode? (.prefixed sub) with
  | some op => exact .pure _
  | none => exact .throw nofun

theorem readOperator_follows (b : UInt8) : Follows p d m n (readOperator b offset) (readOperator b (offset + p)) := by
  unfold readOperator
  cases LoadOp.ofByte? b with
  | some op => exact readMemArg_follows.bind fun _ => .pure _
  | none =>
    cases StoreOp.ofByte? b with
    | some op => exact readMemArg_follows.bind fun _ => .pure _
    | none =>
      cases Instr.ofByte? b with
      | some i => exact .pure i
      | none => exact .throw nofun

theorem readInstr_follows (hm : 0 < m) (h : Follows p d m n (nested offset) (nested' (offset + p))) (b : UInt8) :
    Follows p d m n (readInstr nested b offset) (readInstr nested' b (offset + p)) := by
  have number (f : UInt32 → Instr) : Follows p d m n (do return f (← readU32)) (do return f (← readU32)) :=
    readU32_follows.bind fun _ => .pure _
  unfold readInstr
  split
  · exact readBlockType_follows.bind fun _ => (readClosed_follows hm h).bind fun _ => .pure _
  · exact readBlockType_follows.bind fun _ => (readClosed_follows hm h).bind fun _ => .pure _
  · exact readBlockType_follows.bind fun _ => h.bind fun x => (readOtherwise_follows hm h x.2).bind fun _ => .pure _
  · exact number .br
  · exact number .brIf
  · exact readU32_follows.bind fun count => (replicate_follows readU32_follows _).bind fun _ => number _
  · exact number .call
  · exact readU32_follows.bind fun _ => number _
  · exact number .localGet
  · exact number .localSet
  · exact number .localTee
  · exact number .globalGet
  · exact number .globalSet
  · exact readReserved_follows.bind fun _ => .pure _
  · exact readReserved_follows.bind fun _ => .pure _
  · exact (readInt_follows _).bind fun _ => .pure _
  · exact (readInt_follows _).bind fun _ => .pure _
  · exact (readFloat_follows _).bind fun _ => .pure _
  · exact (readFloat_follows _).bind fun _ => .pure _
  · exact readPrefixed_follows
  · exact readOperator_follows b

/-- an item whose nested bodies belong to the byte it starts with -/
theorem readItem_follows (h : ∀ k, m ≤ k → Follows p d (k + 1) n (nested k) (nested' (k + p))) :
    Follows p d m n (readItem nested) (readItem nested') :=
  .position fun k hk => .byte fun b => .ite (fun _ => .pure _) fun _ => .ite (fun _ => .pure _) fun _ =>
    (readInstr_follows (Nat.succ_pos k) (h k hk) b).bind fun _ => .pure _

/-! ## Sequences -/

variable {item item' : Reader Item}

theorem readUntilTerminator_follows (h : Follows p d m n item item') (fuel : List UInt8) :
    Follows p d m n (readUntilTerminator item fuel) (readUntilTerminator item' fuel) := by
  induction fuel with
  | nil => exact .position fun _ _ => .throw nofun
  | cons b fuel ih =>
    refine h.bind fun x => ?_
    cases x with
    | terminator t => exact .pure _
    | instr i => exact ih.bind fun _ => .pure _

theorem readUntilPosition_follows (h : Follows p d m n item item') (stop : Nat) (fuel : List UInt8) :
    Follows p d m n (readUntilPosition item stop fuel) (readUntilPosition item' (stop + p) fuel) := by
  induction fuel with
  | nil =>
    refine .position fun k _ => ?_
    simp only [Nat.add_le_add_iff_right]
    exact .ite (fun _ => .pure []) fun _ => .throw nofun
  | cons b fuel ih =>
    refine .position fun k hk => ?_
    simp only [Nat.add_le_add_iff_right]
    refine .ite (fun _ => .pure []) fun _ => (h.later hk).bind fun x => ?_
    cases x with
    | terminator t => exact .throw nofun
    | instr i => exact (ih.later hk).bind fun _ => .pure _

/-- what a nested body comes to, with the construct around it left again -/
def Outcome.leave {α : Type} : Outcome α → Outcome α
  | .ok x c => .ok x c.leave
  | .error e c => .error e c

theorem readNested_succ (levels offset : Nat) (c : Cursor) : readNested (levels + 1) offset c =
    Outcome.leave (readUntilTerminator (readItem (readNested levels)) c.rest c.enter) := by
  rw [readNested]
  change EStateM.bind (readUntilTerminator (readItem (readNested levels)) c.rest) _ c.enter = _
  unfold EStateM.bind
  cases readUntilTerminator (readItem (readNested levels)) c.rest c.enter <;> rfl

/-- Nested bodies at any number of levels. Without levels left the error is about the opcode that opens the body,
otherwise about one in it. -/
theorem readNested_follows (levels : Nat) (hn : n ≤ m) (hoffset : n ≤ offset ∨ 0 < levels) :
    Follows p d m n (readNested levels offset) (readNested levels (offset + p)) := by
  induction levels generalizing m offset with
  | zero =>
    refine .throw fun o ho => ?_
    cases ho
    exact hoffset.resolve_right (Nat.lt_irrefl 0)
  | succ levels ih =>
    have hitem : Follows p d m n (readItem (readNested levels)) (readItem (readNested levels)) :=
      readItem_follows fun k hk => ih (Nat.le_succ_of_le (Nat.le_trans hn hk)) (.inl (Nat.le_trans hn hk))
    intro c hm
    obtain ⟨hshift, hforward⟩ := readUntilTerminator_follows hitem c.rest c.enter hm
    rw [readNested_succ, readNested_succ, Cursor.enter_shift]
    change Outcome.leave (readUntilTerminator _ c.rest _) = _ ∧ _
    rw [hshift]
    cases hr : readUntilTerminator (readItem (readNested levels)) c.rest c.enter with
    | error e c' =>
      rw [hr] at hforward
      obtain ⟨⟨hbytes, hdepth⟩, he⟩ := hforward
      exact ⟨rfl, ⟨hbytes, Nat.le_of_succ_le hdepth⟩, he⟩
    | ok x c' =>
      rw [hr] at hforward
      obtain ⟨bs, hrest, hposition, hdepth⟩ := hforward
      have hopen : 0 < c'.depth := by rw [hdepth]; exact Nat.succ_pos _
      refine ⟨?_, bs, hrest, hposition, ?_⟩
      · simp only [Outcome.shift, Outcome.leave, Cursor.leave_shift p d hopen]
      · simp only [Cursor.leave, hdepth, Cursor.enter, Nat.add_sub_cancel]

/-- an item of a body with so many levels -/
theorem readNestedItem_follows (levels : Nat) (hn : n ≤ m) :
    Follows p d m n (readItem (readNested levels)) (readItem (readNested levels)) :=
  readItem_follows fun _ hk =>
    readNested_follows levels (Nat.le_succ_of_le (Nat.le_trans hn hk)) (.inl (Nat.le_trans hn hk))

end Reader

end WasmCore
