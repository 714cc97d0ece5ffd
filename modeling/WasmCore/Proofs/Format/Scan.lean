/-
Decoding that is not bounded by the bytes.

The readers recurse on the bytes and on the levels that are left, so it goes without saying that they end. A `Scan` decodes
without these. Its loops over items go on until they come to an end by themselves, or for as many rounds as a limit says
that has nothing to do with the stream; a nested body is opened as long as not too many are open; a byte is looked up by its
index, and what is subtracted may turn out to be too much. A loop that would go on beyond the limit, a byte that is not there
and a difference below zero have no outcome at all.

`Ends` says that a scan does come to something, and to what: to the outcome of the reader, in no more rounds of its loops
than it has read bytes, and one. This goes along the readers piece by piece, as their grammar does. Where a count from the
stream drives a loop, each round reads a byte at least, so the loop ends with the bytes if not before. Nested bodies are by
induction on the levels that the bound on the nesting leaves, sequences by induction on the bytes. Any limit beyond the bytes
that are left turns out to be the same as none, for it is never reached (`Call.scan_answer`).
-/
import WasmCore.Proofs.Format.Errors

namespace WasmCore

namespace Cursor.Consumes

theorem rest_le {bs : List UInt8} {c c' : Cursor} (h : c.Consumes bs c') : c'.rest.length ≤ c.rest.length := by
  rw [h.rest, List.length_append]
  exact Nat.le_add_left _ _

end Cursor.Consumes

/-- where a scan stands, and how many rounds its loops have made -/
structure Scan.State where
  cursor : Cursor
  rounds : Nat

/-- A decoder that the bytes do not bound beforehand. It has no outcome (`none`) if it goes on beyond a limit or does what
cannot be done. -/
abbrev Scan := ExceptT DecodeError (StateT Scan.State Option)

open Reader

namespace Scan

variable {α β : Type}

/-! ## Steps -/

/-- what cannot be done -/
def fault : Scan α := fun _ => none

/-- a read without loops, or with no more rounds than an integer may have groups -/
def ofReader (r : Reader α) : Scan α := fun s =>
  match r s.cursor with
  | .ok x c => some (.ok x, ⟨c, s.rounds⟩)
  | .error e c => some (.error e, ⟨c, s.rounds⟩)

/-- the read that a round of a loop begins with -/
def beginRound (r : Reader α) : Scan α := fun s => ofReader r { s with rounds := s.rounds + 1 }

/-- the difference of two positions, or of two depths -/
def minus (a b : Nat) : Scan Nat :=
  if b ≤ a then return a - b else fault

/-- the byte at an index -/
def byteAt (bytes : List UInt8) (i : Nat) : Scan UInt8 :=
  match bytes[i]? with
  | some b => return b
  | none => fault

/-- one position further on, with no look at what is there -/
def skip : Scan Unit :=
  ofReader (modify fun c => { c with rest := c.rest.tail, position := c.position + 1 })

def enter : Scan Unit :=
  ofReader (modify Cursor.enter)

def leave : Scan Unit := do
  let c ← ofReader get
  let depth ← minus c.depth 1
  ofReader (set { c with depth })

/-! ## Loops -/

def targets : Nat → Scan (List UInt32)
  | 0 => return []
  | count + 1 => do
    let target ← beginRound readU32
    return target :: (← targets count)

def locals (total : Nat) : Nat → Scan (List ValType)
  | 0 => return []
  | groups + 1 => do
    let offset ← ofReader position
    let count ← beginRound readU32
    let total := total + count.toNat
    if maxLocals < total then throw (.tooManyLocals total offset)
    else
      let t ← ofReader readValType
      return List.replicate count.toNat t ++ (← locals total groups)

/-- for an instruction that has no bodies -/
def noBodies : NestedReader := fun _ => pure ([], .endMarker)

/-- a nested body, as long as there are not too many around it; `inner` are the items in it -/
def nested (inner : Scan (List Instr × Terminator)) (offset : Nat) : Scan (List Instr × Terminator) := do
  let c ← ofReader get
  if maxNesting ≤ c.depth then throw (.nestingTooDeep offset)
  else
    enter
    let result ← inner
    leave
    return result

def closed (inner : Scan (List Instr × Terminator)) (offset : Nat) : Scan (List Instr) := do
  let (body, terminator) ← nested inner offset
  match terminator with
  | .endMarker => return body
  | .otherwise => do
    let offset ← minus (← ofReader position) 1
    throw (.unexpectedOpcode Opcode.otherwise offset)

/-- only instructions with bodies or with targets are read in loops -/
def instr (inner : Scan (List Instr × Terminator)) (b : UInt8) (offset : Nat) : Scan Instr := do
  match b with
  | 0x02 => do
    let t ← ofReader readBlockType
    return .block t (← closed inner offset)
  | 0x03 => do
    let t ← ofReader readBlockType
    return .loop t (← closed inner offset)
  | 0x04 => do
    let t ← ofReader readBlockType
    let (body, terminator) ← nested inner offset
    match terminator with
    | .endMarker => return .ite t body []
    | .otherwise => return .ite t body (← closed inner offset)
  | 0x0E => do
    let count ← ofReader readU32
    let targets ← targets count.toNat
    return .brTable targets (← ofReader readU32)
  | _ => ofReader (readInstr noBodies b offset)

def item (inner : Scan (List Instr × Terminator)) : Scan Item := do
  let offset ← ofReader position
  let b ← beginRound readByte
  if b = Opcode.endMarker then return .terminator .endMarker
  else if b = Opcode.otherwise then return .terminator .otherwise
  else return .instr (← instr inner b offset)

/-- items up to a terminator, if there is one within the limit -/
def sequence : (limit : Nat) → Scan (List Instr × Terminator)
  | 0 => fault
  | limit + 1 => do
    match ← item (sequence limit) with
    | .terminator t => return ([], t)
    | .instr i => do
      let (rest, t) ← sequence limit
      return (i :: rest, t)

/-- items up to a position, if it is come to within the limit -/
def untilPosition (bytes : List UInt8) (stop : Nat) : (limit : Nat) → Scan (List Instr)
  | 0 => fault
  | limit + 1 => do
    let offset ← ofReader position
    if stop ≤ offset then return []
    else
      match ← item (sequence limit) with
      | .terminator _ => do
        let b ← byteAt bytes offset
        throw (.unexpectedOpcode b offset)
      | .instr i => return i :: (← untilPosition bytes stop limit)

/-! ## Bodies and entries -/

def body (bytes : List UInt8) (limit length : Nat) : Scan (List Instr) := do
  let start ← ofReader position
  match length with
  | 0 => throw (.missingEndMarker none start)
  | expected + 1 => do
    let stop := start + expected
    let code ← untilPosition bytes stop limit
    let reached ← ofReader position
    if reached ≠ stop then do
      let consumed ← minus reached start
      throw (.lengthMismatch expected consumed)
    else if bytes[stop]? ≠ some Opcode.endMarker then throw (.missingEndMarker bytes[stop]? stop)
    else return code

def codeEntry (bytes : List UInt8) (limit : Nat) : Scan CodeEntry := do
  let size ← ofReader readU32
  let start ← ofReader position
  let groups ← ofReader readU32
  let locals ← locals 0 groups.toNat
  let header ← minus (← ofReader position) start
  if size.toNat < header then throw (.lengthMismatch size.toNat header)
  else
    let body ← body bytes limit (size.toNat - header)
    skip
    return ⟨locals, body⟩

/-! ## Ends -/

/-- From this place the scan comes to what the reader comes to, further on if anything. Its loops make no more rounds than
bytes are read; the round that fails, if one does, may have read none. -/
def Ends (s : Scan α) (r : Reader α) (c : Cursor) : Prop :=
  match r c with
  | .ok x c' =>
    ∃ rounds, c.position + rounds ≤ c'.position ∧ ∀ n, s ⟨c, n⟩ = some (.ok x, ⟨c', n + rounds⟩)
  | .error e c' =>
    c.position ≤ c'.position ∧
      ∃ rounds, c.position + rounds ≤ c'.position + 1 ∧ ∀ n, s ⟨c, n⟩ = some (.error e, ⟨c', n + rounds⟩)

variable {s : Scan α} {r : Reader α} {c : Cursor}

theorem bind_ok {g : α → Scan β} {x : α} {st st' : State} (h : s st = some (.ok x, st')) : (s >>= g) st = g x st' := by
  simp only [Bind.bind, ExceptT.bind, ExceptT.mk, StateT.bind, h, Option.bind, ExceptT.bindCont]

theorem bind_error {g : α → Scan β} {e : DecodeError} {st st' : State} (h : s st = some (.error e, st')) :
    (s >>= g) st = some (.error e, st') := by
  simp only [Bind.bind, ExceptT.bind, ExceptT.mk, StateT.bind, h, Option.bind, ExceptT.bindCont]
  rfl

theorem minus_eq {a b : Nat} (h : b ≤ a) : minus a b = pure (a - b) :=
  if_pos h

theorem byteAt_eq {bytes : List UInt8} {i : Nat} {b : UInt8} (h : bytes[i]? = some b) : byteAt bytes i = pure b := by
  rw [byteAt, h]

namespace Ends

theorem congr {r' : Reader α} (h : Ends s r c) (hr : r' c = r c) : Ends s r' c := by
  unfold Ends
  rw [hr]
  exact h

theorem pure (x : α) : Ends (Pure.pure x) (Pure.pure x) c :=
  ⟨0, Nat.le_refl _, fun _ => rfl⟩

theorem throw (e : DecodeError) : Ends (MonadExcept.throw e : Scan α) (MonadExcept.throw e) c :=
  ⟨Nat.le_refl _, 0, Nat.le_succ _, fun _ => rfl⟩

/-- a reader that only moves forward from some position on -/
theorem ofReader_from {m : Nat} (h : Follows 0 0 m 0 r r) (hm : m ≤ c.position) : Ends (ofReader r) r c := by
  obtain ⟨-, hforward⟩ := h c hm
  unfold Ends
  cases hr : r c with
  | ok x c' =>
    rw [hr] at hforward
    obtain ⟨bs, hbs⟩ := hforward
    refine ⟨0, hbs.passes.position_le, fun n => ?_⟩
    simp only [Scan.ofReader, hr]
    rfl
  | error e c' =>
    rw [hr] at hforward
    refine ⟨hforward.1.position_le, 0, Nat.le_succ_of_le hforward.1.position_le, fun n => ?_⟩
    simp only [Scan.ofReader, hr]
    rfl

theorem ofReader (h : Follows 0 0 0 0 r r) : Ends (ofReader r) r c :=
  ofReader_from h (Nat.zero_le _)

/-- A round is paid for by what its first read takes. -/
theorem beginRound (h : Follows 0 0 0 0 r r) (hpos : ∀ x c', r c = .ok x c' → c.position < c'.position) :
    Ends (beginRound r) r c := by
  obtain ⟨-, hforward⟩ := h c (Nat.zero_le _)
  unfold Ends
  cases hr : r c with
  | ok x c' =>
    refine ⟨1, hpos x c' hr, fun n => ?_⟩
    simp only [Scan.beginRound, Scan.ofReader, hr]
  | error e c' =>
    rw [hr] at hforward
    refine ⟨hforward.1.position_le, 1, Nat.succ_le_succ hforward.1.position_le, fun n => ?_⟩
    simp only [Scan.beginRound, Scan.ofReader, hr]

theorem bind {g : α → Scan β} {f : α → Reader β} (h : Ends s r c)
    (hf : ∀ x c', r c = .ok x c' → Ends (g x) (f x) c') : Ends (s >>= g) (r >>= f) c := by
  unfold Ends at h
  cases hr : r c with
  | error e c' =>
    rw [hr] at h
    obtain ⟨hle, rounds, hrounds, hs⟩ := h
    have hbind : (r >>= f) c = .error e c' := by simp only [Bind.bind, EStateM.bind, hr]
    unfold Ends
    rw [hbind]
    exact ⟨hle, rounds, hrounds, fun n => bind_error (hs n)⟩
  | ok x c' =>
    rw [hr] at h
    obtain ⟨rounds, hrounds, hs⟩ := h
    have hbind : (r >>= f) c = f x c' := by simp only [Bind.bind, EStateM.bind, hr]
    have hrest := hf x c' hr
    unfold Ends at hrest ⊢
    rw [hbind]
    cases hx : f x c' with
    | error e c'' =>
      rw [hx] at hrest
      obtain ⟨hle, more, hmore, hg⟩ := hrest
      refine ⟨by omega, rounds + more, by omega, fun n => ?_⟩
      rw [bind_ok (hs n), hg, Nat.add_assoc]
    | ok y c'' =>
      rw [hx] at hrest
      obtain ⟨more, hmore, hg⟩ := hrest
      refine ⟨rounds + more, by omega, fun n => ?_⟩
      rw [bind_ok (hs n), hg, Nat.add_assoc]

/-- what is read by a grammar may be used afterwards -/
theorem after {G : α → List UInt8 → Prop} {g : α → Scan β} {f : α → Reader β} (hr : Reads r G) (h : Ends s r c)
    (hf : ∀ x c' bs, c.Consumes bs c' → G x bs → Ends (g x) (f x) c') : Ends (s >>= g) (r >>= f) c := by
  refine h.bind fun x c' hx => ?_
  obtain ⟨bs, hbs, hG⟩ := hr.sound hx
  exact hf x c' bs hbs hG

theorem position {g : Nat → Scan α} {f : Nat → Reader α} (h : Ends (g c.position) (f c.position) c) :
    Ends (Scan.ofReader Reader.position >>= g) (Reader.position >>= f) c :=
  h

theorem get {g : Cursor → Scan α} (h : Ends (g c) r c) : Ends (Scan.ofReader MonadState.get >>= g) r c :=
  h

theorem reader_get {f : Cursor → Reader α} (h : Ends s (f c) c) : Ends s (MonadState.get >>= f) c :=
  h

theorem reader_peek {f : Option UInt8 → Reader α} (h : Ends s (f c.rest.head?) c) : Ends s (peek? >>= f) c :=
  h

theorem ite {p : Prop} [Decidable p] {s' : Scan α} {r' : Reader α} (h : p → Ends s r c) (h' : ¬ p → Ends s' r' c) :
    Ends (if p then s else s') (if p then r else r') c := by
  by_cases hp : p
  · rw [if_pos hp, if_pos hp]; exact h hp
  · rw [if_neg hp, if_neg hp]; exact h' hp

/-- a reader that fails if a condition holds -/
theorem check {p : Prop} [Decidable p] {s' : Scan α} {e : DecodeError} {f : Unit → Reader α}
    (h : p → Ends s (MonadExcept.throw e) c) (h' : ¬ p → Ends s' (f ()) c) :
    Ends (if p then s else s') (if p then MonadExcept.throw e >>= f else f ()) c :=
  .ite (fun hp => (h hp).congr rfl) h'

end Ends

/-! ## Loops -/

theorem readU32_position_lt {c c' : Cursor} {x : UInt32} (h : readU32 c = .ok x c') : c.position < c'.position := by
  obtain ⟨bs, hbs, hx⟩ := readU32_reads.sound h
  have hpos := hx.groups.length_pos
  rw [hbs.position]
  omega

/-- a count from the stream does not keep a loop going behind the bytes -/
theorem targets_ends (count : Nat) (c : Cursor) : Ends (targets count) (replicate count readU32) c := by
  induction count generalizing c with
  | zero => exact .pure []
  | succ count ih =>
    exact (Ends.beginRound readU32_follows fun _ _ => readU32_position_lt).bind fun _ _ _ =>
      (ih _).bind fun _ _ _ => .pure _

theorem locals_ends (total groups : Nat) (c : Cursor) : Ends (locals total groups) (readLocals total groups) c := by
  induction groups generalizing total c with
  | zero => exact .pure []
  | succ groups ih =>
    refine .position ((Ends.beginRound readU32_follows fun _ _ => readU32_position_lt).bind fun count c₁ _ => ?_)
    refine .check (fun _ => .throw _) fun _ => ?_
    exact (Ends.ofReader readValType_follows).bind fun _ _ _ => (ih _ _).bind fun _ _ _ => .pure _

/-! ## Instructions and sequences -/

/-- Nested bodies of a construct end, if their limit is beyond the bytes that are left. Their levels are what is left of the
limit on the nesting. -/
def NestedEnd (levels limit : Nat) : Prop :=
  ∀ offset c, maxNesting - c.depth = levels → c.rest.length < limit →
    Ends (nested (sequence limit) offset) (readNested levels offset) c

variable {levels limit : Nat}

theorem closed_ends (hnested : NestedEnd levels limit) (hlevels : maxNesting - c.depth = levels)
    (hlimit : c.rest.length < limit) (offset : Nat) :
    Ends (closed (sequence limit) offset) (readClosed (readNested levels) offset) c := by
  refine (hnested offset c hlevels hlimit).after (readNested_reads levels offset) fun x c' bs hbs hx => ?_
  obtain ⟨body, terminator⟩ := x
  cases terminator with
  | endMarker => exact .pure body
  | otherwise =>
    -- the terminator has been read
    have hpos : 1 ≤ c'.position := by
      obtain ⟨before, rfl, -, -⟩ := hx
      rw [hbs.position, List.length_append, List.length_singleton]
      omega
    refine .position ?_
    rw [minus_eq hpos]
    exact .throw _

/-- a block type, then what follows at the same depth -/
theorem blockType_ends {g : BlockType → Scan α} {f : BlockType → Reader α} (hlevels : maxNesting - c.depth = levels)
    (hlimit : c.rest.length < limit)
    (hf : ∀ t c', maxNesting - c'.depth = levels → c'.rest.length < limit → Ends (g t) (f t) c') :
    Ends (ofReader readBlockType >>= g) (readBlockType >>= f) c :=
  (Ends.ofReader readBlockType_follows).after readBlockType_reads fun t c' _ hbs _ =>
    hf t c' (by rw [hbs.depth, hlevels]) (Nat.lt_of_le_of_lt hbs.rest_le hlimit)

theorem instr_ends (hnested : NestedEnd levels limit) (hlevels : maxNesting - c.depth = levels)
    (hlimit : c.rest.length < limit) (hpos : 0 < c.position) (b : UInt8) (offset : Nat) :
    Ends (instr (sequence limit) b offset) (readInstr (readNested levels) b offset) c := by
  unfold instr
  split
  · exact blockType_ends hlevels hlimit fun _ _ hlevels hlimit =>
      (closed_ends hnested hlevels hlimit offset).bind fun _ _ _ => .pure _
  · exact blockType_ends hlevels hlimit fun _ _ hlevels hlimit =>
      (closed_ends hnested hlevels hlimit offset).bind fun _ _ _ => .pure _
  · refine blockType_ends hlevels hlimit fun t c₁ hlevels hlimit =>
      (hnested offset c₁ hlevels hlimit).after (readNested_reads levels offset) fun x c₂ bs hbs _ => ?_
    obtain ⟨body, terminator⟩ := x
    cases terminator with
    | endMarker => exact .pure _
    | otherwise =>
      have hclosed := closed_ends hnested (hbs.depth ▸ hlevels) (Nat.lt_of_le_of_lt hbs.rest_le hlimit) offset
      exact hclosed.bind fun _ _ _ => .pure _
  · exact (Ends.ofReader readU32_follows).bind fun count _ _ => (targets_ends _ _).bind fun _ _ _ =>
      (Ends.ofReader readU32_follows).bind fun _ _ _ => .pure _
  · rename_i hblock hloop hite _
    have hplain : readInstr (readNested levels) b offset = readInstr noBodies b offset := by
      refine readInstr_plain ?_
      simp only [List.mem_cons, List.not_mem_nil, or_false, not_or]
      exact ⟨hblock, hloop, hite⟩
    have hforward : Follows 0 0 1 0 (readInstr noBodies b offset) (readInstr noBodies b (offset + 0)) :=
      readInstr_follows Nat.one_pos (.pure _) b
    rw [hplain]
    exact .ofReader_from hforward hpos

/-- the opcode is a byte less for the bodies that follow it -/
theorem item_ends (hnested : NestedEnd levels limit) (hlevels : maxNesting - c.depth = levels)
    (hlimit : c.rest.length ≤ limit) : Ends (item (sequence limit)) (readItem (readNested levels)) c := by
  have hpos (b : UInt8) (c' : Cursor) (h : readByte c = .ok b c') : c.position < c'.position := by
    obtain ⟨bs, hbs, rfl⟩ := readByte_reads.sound h
    exact Nat.lt_of_lt_of_eq (Nat.lt_succ_self _) hbs.position.symm
  refine .position ((Ends.beginRound readByte_follows hpos).after readByte_reads fun b c' bs hbs hb => ?_)
  refine .ite (fun _ => .pure _) fun _ => .ite (fun _ => .pure _) fun _ => ?_
  subst hb
  have hread : 0 < c'.position := Nat.lt_of_lt_of_eq (Nat.succ_pos _) hbs.position.symm
  have hrest : c'.rest.length < c.rest.length := Nat.lt_of_lt_of_eq (Nat.lt_succ_self _) (congrArg List.length hbs.rest).symm
  have hinstr := instr_ends hnested (hbs.depth ▸ hlevels) (Nat.lt_of_lt_of_le hrest hlimit) hread b c.position
  exact hinstr.bind fun _ _ _ => .pure _

/-- at the end of the stream no item begins -/
theorem item_at_end {g : Item → Scan α} (hnested : NestedEnd levels limit) (hlevels : maxNesting - c.depth = levels)
    (hrest : c.rest = []) :
    Ends (item (sequence limit) >>= g) (MonadExcept.throw (.unexpectedEnd c.position) : Reader α) c := by
  have hread : readItem (readNested levels) c = .error (.unexpectedEnd c.position) c := by
    obtain ⟨rest, position, depth⟩ := c
    cases hrest
    rfl
  have hitem := item_ends hnested hlevels (by rw [hrest]; exact Nat.zero_le _)
  refine (hitem.bind (f := fun _ => MonadExcept.throw (.unexpectedEnd c.position)) fun x c' hx => ?_).congr ?_
  · rw [hread] at hx
    cases hx
  · simp only [Bind.bind, EStateM.bind, hread]
    rfl

/-- every item takes one of the bytes that are left, so no limit beyond them is ever reached -/
theorem sequence_ends (hnested : ∀ limit, NestedEnd levels limit) (fuel : List UInt8)
    (hlevels : maxNesting - c.depth = levels) (hlimit : c.rest.length < limit) (hf : c.rest.length ≤ fuel.length) :
    Ends (sequence limit) (readUntilTerminator (readItem (readNested levels)) fuel) c := by
  obtain ⟨limit, rfl⟩ := Nat.exists_eq_add_one.2 (Nat.lt_of_le_of_lt (Nat.zero_le _) hlimit)
  have hle := Nat.le_of_lt_succ hlimit
  induction fuel generalizing c limit with
  | nil =>
    exact .congr (item_at_end (hnested limit) hlevels (List.length_eq_zero_iff.1 (Nat.le_zero.1 hf))) rfl
  | cons _ fuel ih =>
    refine (item_ends (hnested limit) hlevels hle).after (readItem_reads (readNested_reads levels))
      fun x c' bs hbs hx => ?_
    cases x with
    | terminator t => exact .pure _
    | instr i =>
      have hlt := length_lt_of_instr hbs hx.1
      rw [List.length_cons] at hf
      obtain ⟨limit, rfl⟩ := Nat.exists_eq_add_one.2 (show 0 < limit by omega)
      exact (ih (hbs.depth ▸ hlevels) (by omega) limit (by omega) (by omega)).bind fun _ _ _ => .pure _

theorem leave_ok (h : 0 < c.depth) (n : Nat) : leave ⟨c, n⟩ = some (.ok (), ⟨c.leave, n⟩) := by
  change (minus c.depth 1 >>= fun depth => ofReader (set { c with depth })) ⟨c, n⟩ = _
  rw [minus_eq h]
  rfl

/-- what nested bodies may still nest is what the levels count down -/
theorem nested_end (levels limit : Nat) : NestedEnd levels limit := by
  induction levels generalizing limit with
  | zero =>
    intro offset c hlevels _
    refine .get ?_
    rw [if_pos (Nat.sub_eq_zero_iff_le.1 hlevels)]
    exact .throw _
  | succ levels ih =>
    intro offset c hlevels hlimit
    have hlevels' : maxNesting - (c.depth + 1) = levels := by omega
    have hsequence : Ends (sequence limit) (readUntilTerminator (readItem (readNested levels)) c.rest) c.enter :=
      sequence_ends ih c.rest hlevels' hlimit (Nat.le_refl _)
    refine .get ?_
    rw [if_neg (by omega)]
    unfold Ends at hsequence ⊢
    rw [readNested_succ]
    cases hr : readUntilTerminator (readItem (readNested levels)) c.rest c.enter with
    | error e c' =>
      rw [hr] at hsequence
      obtain ⟨hle, rounds, hrounds, hs⟩ := hsequence
      exact ⟨hle, rounds, hrounds, fun n => (bind_ok rfl).trans (bind_error (hs n))⟩
    | ok x c' =>
      rw [hr] at hsequence
      obtain ⟨rounds, hrounds, hs⟩ := hsequence
      have hdepth : 0 < c'.depth := by
        obtain ⟨bs, hbs, -⟩ := (readUntilTerminator_reads (readItem_reads (readNested_reads levels)) c.rest c.enter
          (Nat.le_refl _) x c').1 hr
        rw [hbs.depth]
        exact Nat.succ_pos _
      exact ⟨rounds, hrounds, fun n => (bind_ok rfl).trans ((bind_ok (hs n)).trans (bind_ok (leave_ok hdepth _)))⟩

/-! ## Bodies and entries -/

variable {bytes : List UInt8}

theorem untilPosition_ends (hc : (Cursor.start bytes).Passes c) (stop : Nat) (fuel : List UInt8)
    (hlevels : maxNesting - c.depth = levels) (hlimit : c.rest.length < limit) (hf : c.rest.length ≤ fuel.length) :
    Ends (untilPosition bytes stop limit) (readUntilPosition (readItem (readNested levels)) stop fuel) c := by
  obtain ⟨limit, rfl⟩ := Nat.exists_eq_add_one.2 (Nat.lt_of_le_of_lt (Nat.zero_le _) hlimit)
  have hle := Nat.le_of_lt_succ hlimit
  induction fuel generalizing c limit with
  | nil =>
    refine .position (.ite (fun _ => .pure []) fun _ => ?_)
    exact item_at_end (nested_end levels limit) hlevels (List.length_eq_zero_iff.1 (Nat.le_zero.1 hf))
  | cons _ fuel ih =>
    refine .position (.ite (fun _ => .pure []) fun _ => ?_)
    refine (item_ends (nested_end levels limit) hlevels hle).after (readItem_reads (readNested_reads levels))
      fun x c' bs hbs hx => ?_
    cases x with
    | terminator t =>
      subst hx
      have hbs : c.Consumes ([] ++ [t.byte]) c' := hbs
      have hbyte : byteAt bytes c.position = pure t.byte := byteAt_eq (hbs.getElem? hc)
      dsimp only
      rw [hbyte]
      exact .throw _
    | instr i =>
      have hlt := length_lt_of_instr hbs hx.1
      rw [List.length_cons] at hf
      obtain ⟨limit, rfl⟩ := Nat.exists_eq_add_one.2 (show 0 < limit by omega)
      exact (ih (hc.trans hbs.passes) (hbs.depth ▸ hlevels) (by omega) limit (by omega) (by omega)).bind
        fun _ _ _ => .pure _

theorem body_ends (hc : (Cursor.start bytes).Passes c) (hlimit : c.rest.length < limit) (length : Nat) :
    Ends (body bytes limit length) (readBody length) c := by
  refine .position ?_
  cases length with
  | zero => exact .throw _
  | succ expected =>
    have huntil := untilPosition_ends hc (c.position + expected) c.rest rfl hlimit (Nat.le_refl _)
    refine .reader_get (huntil.bind fun code c' hcode => ?_)
    have hforward := (readUntilPosition_follows (p := 0) (d := 0) (readNestedItem_follows (maxNesting - c.depth)
      (Nat.le_refl 0)) (c.position + expected) c.rest c (Nat.zero_le _)).2
    rw [hcode] at hforward
    obtain ⟨bs, hbs⟩ := hforward
    refine .position (.check (fun _ => ?_) fun hstop => .reader_peek ?_)
    · rw [minus_eq hbs.passes.position_le]
      exact .throw _
    · have hmarker : bytes[c.position + expected]? = c'.rest.head? := by
        rw [← Decidable.not_not.1 hstop, ← (hc.trans hbs.passes).drop, List.head?_drop]
      rw [hmarker]
      exact .check (fun _ => .throw _) fun _ => .pure code

theorem codeEntry_ends (hc : (Cursor.start bytes).Passes c) (hlimit : c.rest.length < limit) :
    Ends (codeEntry bytes limit) readCodeEntry c := by
  refine (Ends.ofReader readU32_follows).after readU32_reads fun size c₁ _ h₁ _ => .position ?_
  refine (Ends.ofReader readU32_follows).after readU32_reads fun groups c₂ _ h₂ _ => ?_
  refine (locals_ends 0 groups.toNat c₂).after (readLocals_reads (Nat.zero_le _) _) fun locals c₃ _ h₃ _ => .position ?_
  have hheader := h₂.trans h₃
  have hall := h₁.trans hheader
  rw [minus_eq hheader.passes.position_le]
  refine .check (fun _ => .throw _) fun _ => ?_
  refine (body_ends (hc.trans hall.passes) (Nat.lt_of_le_of_lt hall.rest_le hlimit) _).bind fun body c₄ hbody => ?_
  -- the byte that is skipped is the end marker of the body
  obtain ⟨bs, hbs, -, hmarker, -⟩ := readBody_iff.1 hbody
  obtain ⟨rest, position, depth⟩ := c₄
  cases rest with
  | nil => cases hmarker
  | cons b rest => exact ⟨0, Nat.le_succ _, fun n => rfl⟩

end Scan

namespace Call

/-- the call on a decoder of the bytes whose loops over items may go on for so many rounds -/
def scan (bytes : List UInt8) (limit : Nat) : (call : Call) → Scan call.Value
  | body length => Scan.body bytes limit length
  | entry => Scan.codeEntry bytes limit
  | call => Scan.ofReader call.read

variable {bytes : List UInt8} {limit : Nat} {c : Cursor}

/-- **Every call comes to an end**, at any place of the stream -/
theorem scan_ends (hc : (Cursor.start bytes).Passes c) (hlimit : c.rest.length < limit) (call : Call) :
    Scan.Ends (call.scan bytes limit) call.read c := by
  cases call with
  | u8 => exact .ofReader readByte_follows
  | u32 => exact .ofReader readU32_follows
  | i32 | i64 => exact .ofReader (readInt_follows _)
  | f32 | f64 => exact .ofReader (readFloat_follows _)
  | body length => exact Scan.body_ends hc hlimit length
  | entry => exact Scan.codeEntry_ends hc hlimit

theorem scan_answer (hc : (Cursor.start bytes).Passes c) (hlimit : c.rest.length < limit) (call : Call) :
    ∃ rounds ≤ (c.after call).position - c.position + 1,
      call.scan bytes limit ⟨c, 0⟩ = some ((call.answer c).1, ⟨c.after call, rounds⟩) := by
  have hends := call.scan_ends hc hlimit
  unfold Scan.Ends at hends
  simp only [Cursor.after, answer, Outcome.answer]
  cases hr : call.read c with
  | ok x c' =>
    rw [hr] at hends
    obtain ⟨rounds, hrounds, hs⟩ := hends
    have hle : rounds ≤ c'.position - c.position + 1 := by omega
    exact ⟨rounds, hle, (hs 0).trans (by rw [Nat.zero_add])⟩
  | error e c' =>
    rw [hr] at hends
    obtain ⟨-, rounds, hrounds, hs⟩ := hends
    have hle : rounds ≤ c'.position - c.position + 1 := by omega
    exact ⟨rounds, hle, (hs 0).trans (by rw [Nat.zero_add])⟩

end Call

end WasmCore
