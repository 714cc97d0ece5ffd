/-
Reading with fewer levels.

`Fewer n r r'` compares a reader with one that may nest deeper: from position `n` on the two come to the same, unless
the first complains of the nesting; then the second gets past the place of the complaint, and never complains of that
place or of one before it. So a complaint of the first is never an outcome of the second. `readBodyWithin` and
`readCodeEntryWithin` have the number of levels as a parameter: what is open when a body begins takes as many levels
from it.
-/
import WasmCore.Proofs.Format.Body
import WasmCore.Proofs.Format.Place

namespace WasmCore.Reader

/-! ## Fewer levels -/

section Rules

variable {α β : Type} {n : Nat} {r r' : Reader α}

/-- the outcome of a read from `n` or further on -/
def Outcome.Beyond (n : Nat) (o : Outcome α) : Prop :=
  ∃ c : Cursor, n ≤ c.position ∧ o.Forward n c

theorem Outcome.Beyond.ne_error {offset : Nat} {c : Cursor} {o : Outcome α} (h : o.Beyond (offset + 1)) :
    o ≠ .error (.nestingTooDeep offset) c := by
  rintro rfl
  obtain ⟨_, _, _, hoffset⟩ := h
  exact Nat.lt_irrefl offset (hoffset offset rfl)

theorem Outcome.Beyond.leave {o : Outcome α} (h : o.Beyond n) : (Outcome.leave o).Beyond n := by
  obtain ⟨c, hc, hforward⟩ := h
  cases o with
  | error e c' => exact ⟨c, hc, hforward⟩
  | ok x c' =>
    obtain ⟨bs, hrest, hposition, hdepth⟩ := hforward
    exact ⟨c.leave, hc, bs, hrest, hposition, by simp only [Cursor.leave, hdepth]⟩

/-- the outcome is no complaint about the nesting -/
def Outcome.Content (o : Outcome α) : Prop :=
  ∀ offset c, o ≠ .error (.nestingTooDeep offset) c

theorem Outcome.Content.leave {o : Outcome α} (h : o.Content) : (Outcome.leave o).Content := by
  cases o with
  | ok x c => exact nofun
  | error e c => exact h

/-- `r` is `r'` with fewer levels -/
structure Fewer (n : Nat) (r r' : Reader α) : Prop where
  /-- the second goes forward from wherever it starts -/
  steady : ∀ m, n ≤ m → Follows 0 0 m m r' r'
  /-- the two come to the same, or the first complains of a place that the second gets past -/
  or_beyond : ∀ c : Cursor, n ≤ c.position → (r c = r' c ∧ Outcome.Content (r' c)) ∨
    ∃ offset c', r c = .error (.nestingTooDeep offset) c' ∧ n ≤ offset + 1 ∧ Outcome.Beyond (offset + 1) (r' c)

namespace Fewer

/-- a reader that does not nest, and so complains of no place -/
theorem same (h : ∀ m k, n ≤ m → Follows 0 0 m k r r) : Fewer n r r where
  steady m hm := h m m hm
  or_beyond c hn := by
    refine .inl ⟨rfl, fun offset c' herror => ?_⟩
    have hforward := (h n (offset + 1) (Nat.le_refl n) c hn).2
    rw [herror] at hforward
    exact Nat.lt_irrefl offset (hforward.2 offset rfl)

theorem bind {f f' : α → Reader β} (h : Fewer n r r') (hf : ∀ x, Fewer n (f x) (f' x)) :
    Fewer n (r >>= f) (r' >>= f') where
  steady m hm := (h.steady m hm).bind fun x => (hf x).steady m hm
  or_beyond c hn := by
    simp only [Bind.bind, EStateM.bind]
    rcases h.or_beyond c hn with ⟨hsame, hcontent⟩ | ⟨offset, c', herror, hoffset, c₀, hc₀, hforward⟩
    · rw [hsame]
      have hforward := (h.steady n (Nat.le_refl n) c hn).2
      cases hr : r' c with
      | error e c' =>
        rw [hr] at hcontent
        refine .inl ⟨rfl, fun offset c'' herror => ?_⟩
        cases herror
        exact hcontent offset c' rfl
      | ok x c' =>
        rw [hr] at hforward
        obtain ⟨bs, hc⟩ := hforward
        exact (hf x).or_beyond c' (Nat.le_trans hn hc.passes.position_le)
    · -- the second is past the complaint already, and what follows it goes forward from there
      rw [herror]
      refine .inr ⟨offset, c', rfl, hoffset, ?_⟩
      cases hr : r' c with
      | error e c' =>
        rw [hr] at hforward
        exact ⟨c₀, hc₀, hforward⟩
      | ok x c' =>
        rw [hr] at hforward
        obtain ⟨bs, hc⟩ := hforward
        have hle := Nat.le_trans hc₀ hc.passes.position_le
        exact ⟨c', hle, ((hf x).steady _ hoffset c' hle).2⟩

theorem position {f f' : Nat → Reader α} (hf : ∀ k, n ≤ k → Fewer k (f k) (f' k)) :
    Fewer n (Reader.position >>= f) (Reader.position >>= f') where
  steady m hm := .position fun k hk => ((hf k (Nat.le_trans hm hk)).steady k (Nat.le_refl k)).loosen hk
  or_beyond c hn := by
    rcases (hf c.position hn).or_beyond c (Nat.le_refl _) with hsame | ⟨offset, c', herror, hoffset, hbeyond⟩
    · exact .inl hsame
    · exact .inr ⟨offset, c', herror, Nat.le_trans hn hoffset, hbeyond⟩

theorem get {f f' : Cursor → Reader α} (hf : ∀ c, n ≤ c.position → Fewer c.position (f c) (f' c)) :
    Fewer n (MonadState.get >>= f) (MonadState.get >>= f') where
  steady m hm := .get fun c hc => ((hf c (Nat.le_trans hm hc)).steady c.position (Nat.le_refl _)).loosen hc
  or_beyond c hn := by
    rcases (hf c hn).or_beyond c (Nat.le_refl _) with hsame | ⟨offset, c', herror, hoffset, hbeyond⟩
    · exact .inl hsame
    · exact .inr ⟨offset, c', herror, Nat.le_trans hn hoffset, hbeyond⟩

theorem byte {f f' : UInt8 → Reader α} (hf : ∀ b, Fewer (n + 1) (f b) (f' b)) :
    Fewer n (readByte >>= f) (readByte >>= f') where
  steady m hm := .byte fun b => ((hf b).steady (m + 1) (Nat.succ_le_succ hm)).loosen (Nat.le_succ m)
  or_beyond := by
    rintro ⟨rest, position, depth⟩ hn
    cases rest with
    | nil => exact .inl ⟨rfl, nofun⟩
    | cons b rest =>
      obtain hsame | ⟨offset, c', herror, hoffset, hbeyond⟩ :=
        (hf b).or_beyond ⟨rest, position + 1, depth⟩ (Nat.succ_le_succ hn)
      · exact .inl hsame
      · exact .inr ⟨offset, c', herror, Nat.le_of_succ_le hoffset, hbeyond⟩

theorem ite {t : Prop} [Decidable t] {q q' : Reader α} (h : t → Fewer n r r') (h' : ¬ t → Fewer n q q') :
    Fewer n (if t then r else q) (if t then r' else q') := by
  by_cases ht : t
  · rw [if_pos ht, if_pos ht]; exact h ht
  · rw [if_neg ht, if_neg ht]; exact h' ht

/-- a reader that fails unless a condition holds -/
theorem check {t : Prop} [Decidable t] {e : DecodeError} {f f' : Unit → Reader α}
    (he : ∀ offset, e ≠ .nestingTooDeep offset) (h : Fewer n (f ()) (f' ())) :
    Fewer n (if t then MonadExcept.throw e >>= f else f ()) (if t then MonadExcept.throw e >>= f' else f' ()) := by
  by_cases ht : t
  · rw [if_pos ht, if_pos ht]
    refine ⟨fun m _ c _ => ⟨?_, .refl c, fun offset ho => absurd ho (he offset)⟩, fun c _ => .inl ⟨rfl, ?_⟩⟩
    · change EStateM.Result.error e (c.shift 0 0) = .error (e.shift 0) (c.shift 0 0)
      rw [e.shift_zero]
    · intro offset c' herror
      cases herror
      exact he offset rfl
  · rw [if_neg ht, if_neg ht]
    exact h

end Fewer

end Rules

/-! ## Instructions and sequences -/

variable {n offset : Nat} {nested nested' : NestedReader} {item item' : Reader Item}

theorem readClosed_fewer (h : Fewer n (nested offset) (nested' offset)) :
    Fewer n (readClosed nested offset) (readClosed nested' offset) := by
  refine h.bind ?_
  rintro ⟨body, terminator⟩
  cases terminator with
  | endMarker => exact .same fun _ _ _ => .pure body
  | otherwise => exact .same fun _ _ _ => .position fun _ _ => .throw nofun

theorem readOtherwise_fewer (h : Fewer n (nested offset) (nested' offset)) (t : Terminator) :
    Fewer n (readOtherwise nested offset t) (readOtherwise nested' offset t) := by
  cases t with
  | endMarker => exact .same fun _ _ _ => .pure []
  | otherwise => exact readClosed_fewer h

/-- an instruction without bodies -/
theorem readInstr_plain {b : UInt8} (hb : b ∉ [Opcode.block, Opcode.loop, Opcode.ite]) :
    readInstr nested b offset = readInstr nested' b offset := by
  unfold readInstr
  split <;> first | rfl | exact absurd (by decide) hb

theorem readInstr_fewer (hn : 0 < n) (h : Fewer n (nested offset) (nested' offset)) (b : UInt8) :
    Fewer n (readInstr nested b offset) (readInstr nested' b offset) := by
  have type : Fewer n readBlockType readBlockType := .same fun _ _ _ => readBlockType_follows
  have closed := readClosed_fewer h
  by_cases hb : b ∈ [Opcode.block, Opcode.loop, Opcode.ite]
  · simp only [List.mem_cons, List.not_mem_nil, or_false] at hb
    rcases hb with rfl | rfl | rfl
    · exact type.bind fun _ => closed.bind fun _ => .same fun _ _ _ => .pure _
    · exact type.bind fun _ => closed.bind fun _ => .same fun _ _ _ => .pure _
    · exact type.bind fun _ => h.bind fun x => (readOtherwise_fewer h x.2).bind fun _ => .same fun _ _ _ => .pure _
  · let none : NestedReader := fun _ => pure ([], .endMarker)
    have hnested : readInstr nested b offset = readInstr none b offset := readInstr_plain hb
    have hnested' : readInstr nested' b offset = readInstr none b offset := readInstr_plain hb
    rw [hnested, hnested']
    exact .same fun m k hm => readInstr_follows (Nat.le_trans hn hm) (.pure _) b

theorem readItem_fewer (h : ∀ k, Fewer (k + 1) (nested k) (nested' k)) : Fewer n (readItem nested) (readItem nested') :=
  .position fun k _ => .byte fun b => .ite (fun _ => .same fun _ _ _ => .pure _) fun _ =>
    .ite (fun _ => .same fun _ _ _ => .pure _) fun _ =>
      (readInstr_fewer (Nat.succ_pos k) (h k) b).bind fun _ => .same fun _ _ _ => .pure _

theorem readUntilTerminator_fewer (h : Fewer n item item') (fuel : List UInt8) :
    Fewer n (readUntilTerminator item fuel) (readUntilTerminator item' fuel) := by
  induction fuel with
  | nil => exact .same fun _ _ _ => .position fun _ _ => .throw nofun
  | cons b fuel ih =>
    refine h.bind fun x => ?_
    cases x with
    | terminator t => exact .same fun _ _ _ => .pure _
    | instr i => exact ih.bind fun _ => .same fun _ _ _ => .pure _

theorem readUntilPosition_fewer (h : ∀ k, Fewer k item item') (stop : Nat) (fuel : List UInt8) :
    Fewer n (readUntilPosition item stop fuel) (readUntilPosition item' stop fuel) := by
  induction fuel generalizing n with
  | nil =>
    exact .position fun k _ => .ite (fun _ => .same fun _ _ _ => .pure []) fun _ => .same fun _ _ _ => .throw nofun
  | cons b fuel ih =>
    refine .position fun k _ => .ite (fun _ => .same fun _ _ _ => .pure []) fun _ => (h k).bind fun x => ?_
    cases x with
    | terminator t => exact .same fun _ _ _ => .throw nofun
    | instr i => exact ih.bind fun _ => .same fun _ _ _ => .pure _

/-- nested bodies with levels left, which complain of no place before them -/
theorem readNested_steady (levels m : Nat) :
    Follows 0 0 m m (readNested (levels + 1) offset) (readNested (levels + 1) offset) :=
  readNested_follows (levels + 1) (Nat.le_refl m) (.inr (Nat.succ_pos levels))

theorem readNested_fewer {levels levels' : Nat} (h : levels < levels') :
    Fewer (offset + 1) (readNested levels offset) (readNested levels' offset) := by
  induction levels generalizing levels' offset with
  | zero =>
    obtain ⟨levels', rfl⟩ := Nat.exists_eq_add_one.2 h
    refine ⟨fun m _ => readNested_steady levels' m, fun c hc => .inr ⟨offset, c, rfl, Nat.le_refl _, c, hc, ?_⟩⟩
    exact (readNested_steady levels' (offset + 1) c hc).2
  | succ levels ih =>
    obtain ⟨levels', rfl⟩ := Nat.exists_eq_add_one.2 (Nat.lt_of_le_of_lt (Nat.zero_le _) h)
    refine ⟨fun m _ => readNested_steady levels' m, fun c hc => ?_⟩
    have hitem : Fewer (offset + 1) (readItem (readNested levels)) (readItem (readNested levels')) :=
      readItem_fewer fun k => ih (Nat.lt_of_succ_lt_succ h)
    rw [readNested_succ, readNested_succ]
    rcases (readUntilTerminator_fewer hitem c.rest).or_beyond c.enter hc with hsame | ⟨o, c', herror, ho, hbeyond⟩
    · exact .inl ⟨congrArg Outcome.leave hsame.1, hsame.2.leave⟩
    · exact .inr ⟨o, c', by rw [herror]; rfl, ho, hbeyond.leave⟩

/-! ## Bodies -/

/-- `readCodeEntry` with so many levels for the constructs of the body -/
def readCodeEntryWithin (levels : Nat) : Reader CodeEntry := do
  let size ← readU32
  let start ← position
  let groups ← readU32
  let locals ← readLocals 0 groups.toNat
  let header := (← position) - start
  if size.toNat < header then throw (.lengthMismatch size.toNat header)
  let body ← readBodyWithin levels (size.toNat - header)
  let _ ← readByte
  return ⟨locals, body⟩

theorem readLocals_follows {p d m n : Nat} (total groups : Nat) :
    Follows p d m n (readLocals total groups) (readLocals total groups) := by
  induction groups generalizing total m with
  | zero => exact .pure []
  | succ groups ih =>
    exact .position fun offset _ => readU32_follows.bind fun count => .check nofun fun _ =>
      readValType_follows.bind fun _ => (ih _).bind fun _ => .pure _

theorem readBodyWithin_follows {p d m n : Nat} (hn : n ≤ m) (levels length : Nat) :
    Follows p d m n (readBodyWithin levels length) (readBodyWithin levels length) := by
  refine .position fun start hstart => ?_
  cases length with
  | zero => exact .throw nofun
  | succ expected =>
    dsimp only
    rw [Nat.add_right_comm start p expected]
    refine .get fun c hc => (readUntilPosition_follows ?_ _ _).bind fun code => ?_
    · exact readNestedItem_follows levels (Nat.le_trans hn (Nat.le_trans hstart hc))
    · refine .position fun reached _ => ?_
      simp only [ne_eq, Nat.add_right_cancel_iff, Nat.add_sub_add_right]
      refine .check nofun fun _ => ?_
      exact peek?_follows.bind fun marker => .check nofun fun _ => .pure code

theorem readBodyWithin_fewer {levels levels' : Nat} (h : levels < levels') (length : Nat) :
    Fewer n (readBodyWithin levels length) (readBodyWithin levels' length) := by
  refine .position fun start _ => ?_
  cases length with
  | zero => exact .same fun _ _ _ => .throw nofun
  | succ expected =>
    have hitem (k : Nat) : Fewer k (readItem (readNested levels)) (readItem (readNested levels')) :=
      readItem_fewer fun k => readNested_fewer h
    refine .get fun c _ => (readUntilPosition_fewer hitem _ _).bind fun code => .same fun _ _ _ => ?_
    exact .position fun reached _ => .check nofun fun _ =>
      peek?_follows.bind fun marker => .check nofun fun _ => .pure code

theorem readCodeEntryWithin_follows {p d m n : Nat} (hn : n ≤ m) (levels : Nat) :
    Follows p d m n (readCodeEntryWithin levels) (readCodeEntryWithin levels) := by
  refine readU32_follows.bind fun size => .position fun start hstart => readU32_follows.bind fun groups =>
    (readLocals_follows 0 _).bind fun locals => .position fun k hk => ?_
  simp only [Nat.add_sub_add_right]
  refine .check nofun fun _ => (readBodyWithin_follows ?_ levels _).bind fun body =>
    readByte_follows.bind fun _ => .pure _
  exact Nat.le_trans hn (Nat.le_trans hstart hk)

theorem readCodeEntryWithin_fewer {levels levels' : Nat} (h : levels < levels') :
    Fewer n (readCodeEntryWithin levels) (readCodeEntryWithin levels') := by
  have number {k : Nat} : Fewer k readU32 readU32 := .same fun _ _ _ => readU32_follows
  refine number.bind fun size => .position fun start _ => number.bind fun groups =>
    Fewer.bind (.same fun _ _ _ => readLocals_follows 0 _) fun locals => .position fun k _ => .check nofun ?_
  exact (readBodyWithin_fewer h _).bind fun body => .same fun _ _ _ => readByte_follows.bind fun _ => .pure _

/-! ## What is open takes its levels -/

theorem bind_congr_depth {α β : Type} {r : Reader α} {f f' : α → Reader β} {c : Cursor} (h : Follows 0 0 0 0 r r)
    (hf : ∀ x c', c'.depth = c.depth → f x c' = f' x c') : (r >>= f) c = (r >>= f') c := by
  have hforward := (h c (Nat.zero_le _)).2
  simp only [Bind.bind, EStateM.bind]
  cases hr : r c with
  | error e c' => rfl
  | ok x c' =>
    rw [hr] at hforward
    obtain ⟨bs, hc⟩ := hforward
    exact hf x c' hc.depth

theorem readCodeEntry_within (c : Cursor) : readCodeEntry c = readCodeEntryWithin (maxNesting - c.depth) c := by
  refine bind_congr_depth readU32_follows fun size c₁ h₁ => ?_
  rw [position_bind, position_bind]
  refine bind_congr_depth readU32_follows fun groups c₂ h₂ => ?_
  refine bind_congr_depth (readLocals_follows 0 _) fun locals c₃ h₃ => ?_
  rw [position_bind, position_bind]
  dsimp only
  by_cases ht : size.toNat < c₃.position - c₁.position
  · rw [if_pos ht, if_pos ht, throw_bind, throw_bind]
  · have hdepth : c₃.depth = c.depth := by rw [h₃, h₂, h₁]
    rw [if_neg ht, if_neg ht]
    simp only [Bind.bind, EStateM.bind, readBody_within, hdepth]

end WasmCore.Reader
