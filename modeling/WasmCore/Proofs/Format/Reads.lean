/-
Readers and grammars.

`Reads r G` says that the reader `r` answers exactly what the grammar `G` gives a meaning to: it answers `x` if and only
if the bytes it took are an encoding of `x`, whatever follows them. The rules below take a reader apart as it is put
together, so that a reader and its grammar are compared piece by piece. How a reader fails is left open.
-/
import WasmCore.Proofs.Format.Grammar

namespace WasmCore

/-- the cursor has moved over the bytes `bs`, with the same constructs open -/
structure Cursor.Consumes (c : Cursor) (bs : List UInt8) (c' : Cursor) : Prop where
  rest : c.rest = bs ++ c'.rest
  position : c'.position = c.position + bs.length
  depth : c'.depth = c.depth

namespace Cursor.Consumes

variable {c c' c'' : Cursor} {a b : List UInt8}

theorem refl (c : Cursor) : c.Consumes [] c :=
  ⟨rfl, rfl, rfl⟩

theorem trans (h : c.Consumes a c') (h' : c'.Consumes b c'') : c.Consumes (a ++ b) c'' where
  rest := by rw [h.rest, h'.rest, List.append_assoc]
  position := by rw [h'.position, h.position, List.length_append, Nat.add_assoc]
  depth := h'.depth.trans h.depth

/-- the bytes and what is left of them determine the place -/
theorem eq (h : c.Consumes a c') : c' = ⟨c'.rest, c.position + a.length, c.depth⟩ := by
  rw [← h.position, ← h.depth]

theorem eq_of_nil (h : c.Consumes [] c') : c' = c := by
  have hrest : c.rest = c'.rest := h.rest
  rw [h.eq, ← hrest]
  rfl

/-- the place between two parts of what was read -/
theorem split (h : c.Consumes (a ++ b) c'') : ∃ c', c.Consumes a c' ∧ c'.Consumes b c'' := by
  refine ⟨⟨b ++ c''.rest, c.position + a.length, c.depth⟩, ⟨?_, rfl, rfl⟩, ⟨rfl, ?_, h.depth⟩⟩
  · rw [h.rest, List.append_assoc]
  · rw [h.position, List.length_append, Nat.add_assoc]

end Cursor.Consumes

namespace Reader

variable {α β : Type} {r : Reader α} {G H : α → List UInt8 → Prop} {c c' : Cursor}

/-- one reader after another answers if both do -/
theorem bind_eq_ok {f : α → Reader β} {y : β} {c'' : Cursor} :
    (r >>= f) c = .ok y c'' ↔ ∃ x c', r c = .ok x c' ∧ f x c' = .ok y c'' := by
  simp only [Bind.bind, EStateM.bind]
  cases r c with
  | error e c' =>
    constructor
    · intro h; cases h
    · rintro ⟨_, _, h, _⟩; cases h
  | ok x c' =>
    constructor
    · intro h; exact ⟨x, c', rfl, h⟩
    · rintro ⟨_, _, h, h'⟩; cases h; exact h'

/-- what follows a reader that has answered -/
theorem bind_of_ok {f : α → Reader β} {x : α} (h : r c = .ok x c') : (r >>= f) c = f x c' := by
  simp only [Bind.bind, EStateM.bind, h]

theorem position_bind (f : Nat → Reader β) (c : Cursor) : (position >>= f) c = f c.position c :=
  rfl

theorem get_bind (f : Cursor → Reader β) (c : Cursor) : ((get : Reader Cursor) >>= f) c = f c c :=
  rfl

theorem throw_bind (e : DecodeError) (f : α → Reader β) (c : Cursor) : ((throw e : Reader α) >>= f) c = .error e c :=
  rfl

/-- the reader answers by the grammar at this place -/
def ReadsAt (r : Reader α) (G : α → List UInt8 → Prop) (c : Cursor) : Prop :=
  ∀ x c', r c = .ok x c' ↔ ∃ bs, c.Consumes bs c' ∧ G x bs

/-- the reader answers by the grammar at any place -/
def Reads (r : Reader α) (G : α → List UInt8 → Prop) : Prop :=
  ∀ c, ReadsAt r G c

namespace Reads

theorem sound (h : Reads r G) {x : α} (hr : r c = .ok x c') : ∃ bs, c.Consumes bs c' ∧ G x bs :=
  (h c x c').1 hr

theorem complete (h : Reads r G) {x : α} {bs : List UInt8} (hx : G x bs) (hc : c.Consumes bs c') : r c = .ok x c' :=
  (h c x c').2 ⟨bs, hc, hx⟩

/-- no encoding begins another one, and none has two meanings -/
theorem unique (h : Reads r G) {x y : α} {a b a' b' : List UInt8} (hx : G x a) (hy : G y b)
    (heq : a ++ a' = b ++ b') : x = y ∧ a = b := by
  have ha : r ⟨a ++ a', 0, 0⟩ = .ok x ⟨a', 0 + a.length, 0⟩ := h.complete hx ⟨rfl, rfl, rfl⟩
  have hb : r ⟨a ++ a', 0, 0⟩ = .ok y ⟨b', 0 + b.length, 0⟩ := h.complete hy ⟨heq, rfl, rfl⟩
  rw [ha] at hb
  obtain ⟨rfl, hc⟩ := EStateM.Result.ok.inj hb
  exact ⟨rfl, List.append_inj_left' heq (congrArg (fun c => c.rest.length) hc)⟩

theorem congr (h : Reads r G) (hG : ∀ x bs, G x bs ↔ H x bs) : Reads r H := by
  intro c x c'
  rw [h c x c']
  exact exists_congr fun bs => and_congr_right fun _ => hG x bs

theorem bind {f : α → Reader β} {K : α → β → List UInt8 → Prop} (h : Reads r G) (hf : ∀ x, Reads (f x) (K x)) :
    Reads (r >>= f) fun y bs => ∃ x a b, bs = a ++ b ∧ G x a ∧ K x y b := by
  intro c y c''
  rw [bind_eq_ok]
  constructor
  · intro hbytes
    rcases hbytes with ⟨x, c', hx, hy⟩
    obtain ⟨a, ha, hG⟩ := h.sound hx
    obtain ⟨b, hb, hK⟩ := (hf x).sound hy
    exact ⟨a ++ b, ha.trans hb, x, a, b, rfl, hG, hK⟩
  · intro hbytes
    rcases hbytes with ⟨_, hc, x, a, b, rfl, hG, hK⟩
    obtain ⟨c', ha, hb⟩ := hc.split
    exact ⟨x, c', h.complete hG ha, (hf x).complete hK hb⟩

theorem pure (x : α) : Reads (Pure.pure x) fun y bs => y = x ∧ bs = [] := by
  intro c y c'
  constructor
  · intro h
    cases h
    exact ⟨[], .refl c, rfl, rfl⟩
  · intro hbytes
    rcases hbytes with ⟨bs, hc, rfl, rfl⟩
    rw [hc.eq_of_nil]
    rfl

/-- the reader's answer put into another form -/
theorem map (h : Reads r G) (f : α → β) :
    Reads (r >>= fun x => Pure.pure (f x)) fun y bs => ∃ x, y = f x ∧ G x bs := by
  refine (h.bind fun x => pure (f x)).congr fun y bs => ?_
  constructor
  · intro hbytes
    rcases hbytes with ⟨x, a, b, rfl, hG, rfl, rfl⟩
    exact ⟨x, rfl, by rwa [List.append_nil]⟩
  · intro hbytes
    rcases hbytes with ⟨x, rfl, hG⟩
    exact ⟨x, bs, [], (List.append_nil bs).symm, hG, rfl, rfl⟩

theorem throw (e : DecodeError) : Reads (throw e : Reader α) fun _ _ => False := by
  intro c x c'
  constructor
  · intro h; cases h
  · rintro ⟨_, _, h⟩; exact h.elim

/-- where it stands matters to a reader only for its errors -/
theorem position {f : Nat → Reader α} (h : ∀ n, Reads (f n) G) : Reads (position >>= f) G :=
  fun c => h c.position c

theorem ite {p : Prop} [Decidable p] {r' : Reader α} (h : p → Reads r G) (h' : ¬ p → Reads r' H) :
    Reads (if p then r else r') fun x bs => (p ∧ G x bs) ∨ (¬ p ∧ H x bs) := by
  by_cases hp : p
  · rw [if_pos hp]
    refine (h hp).congr fun x bs => ?_
    simp only [hp, true_and, not_true_eq_false, false_and, or_false]
  · rw [if_neg hp]
    refine (h' hp).congr fun x bs => ?_
    simp only [hp, false_and, not_false_eq_true, true_and, false_or]

/-- a reader that fails if a condition holds -/
theorem check {p : Prop} [Decidable p] {e : DecodeError} {f : Unit → Reader α} (h : ¬ p → Reads (f ()) G) :
    Reads (if p then MonadExcept.throw e >>= f else f ()) fun x bs => ¬ p ∧ G x bs := by
  by_cases hp : p
  · rw [if_pos hp]
    intro c x c'
    constructor
    · intro hr; cases hr
    · rintro ⟨_, -, hnp, -⟩; exact absurd hp hnp
  · rw [if_neg hp]
    exact (h hp).congr fun x bs => (and_iff_right hp).symm

/-- a reader that goes by what a table has, and reads no more -/
theorem lookup {P : β → Prop} (o : Option β) (f : β → α) (ho : ∀ x, o = some x ↔ P x)
    (hsome : ∀ x, o = some x → r = Pure.pure (f x)) (hnone : o = none → ∃ e, r = MonadExcept.throw e) :
    Reads r fun y bs => (∃ x, y = f x ∧ P x) ∧ bs = [] := by
  cases h : o with
  | some x =>
    rw [hsome x h]
    refine (Reads.pure _).congr fun y bs => and_congr_left fun _ => ?_
    constructor
    · rintro rfl; exact ⟨x, rfl, (ho x).1 h⟩
    · intro hbytes
      rcases hbytes with ⟨x', rfl, hx'⟩
      cases h.symm.trans ((ho x').2 hx')
      rfl
  | none =>
    obtain ⟨e, rfl⟩ := hnone h
    refine (Reads.throw _).congr fun y bs => ⟨False.elim, ?_⟩
    rintro ⟨⟨x, -, hx⟩, -⟩
    cases h.symm.trans ((ho x).2 hx)

end Reads

/-! ## Bytes -/

theorem readByte_reads : Reads readByte fun b bs => bs = [b] := by
  intro c b c'
  constructor
  · intro h
    simp only [readByte] at h
    split at h
    · cases h
    · rename_i hrest
      cases h
      exact ⟨[b], ⟨hrest, rfl, rfl⟩, rfl⟩
  · intro hbytes
    rcases hbytes with ⟨_, hc, rfl⟩
    rw [hc.eq]
    simp only [readByte, hc.rest]
    rfl

theorem readBytes_reads (n : Nat) : Reads (readBytes n) fun bytes bs => bytes = bs ∧ bs.length = n := by
  intro c bytes c'
  constructor
  · intro h
    simp only [readBytes] at h
    split at h
    · rename_i hn
      cases h
      exact ⟨c.rest.take n, ⟨(List.take_append_drop n c.rest).symm, by rw [hn], rfl⟩, rfl, hn⟩
    · cases h
  · intro hbytes
    rcases hbytes with ⟨bs, hc, rfl, rfl⟩
    rw [hc.eq]
    simp only [readBytes, hc.rest, List.take_left, List.drop_left, if_true]

theorem replicate_reads (h : Reads r G) (n : Nat) :
    Reads (replicate n r) fun xs bs => xs.length = n ∧ EncodesEach G xs bs := by
  induction n with
  | zero =>
    refine (Reads.pure []).congr fun xs bs => ?_
    constructor
    · rintro ⟨rfl, rfl⟩; exact ⟨rfl, .nil⟩
    · intro hbytes
      rcases hbytes with ⟨hlen, he⟩
      cases he with
      | nil => exact ⟨rfl, rfl⟩
      | cons => cases hlen
  | succ n ih =>
    refine (h.bind fun x => ih.map (x :: ·)).congr fun xs bs => ?_
    constructor
    · intro hbytes
      rcases hbytes with ⟨x, a, b, rfl, hG, xs, rfl, hlen, he⟩
      exact ⟨congrArg (· + 1) hlen, .cons hG he⟩
    · intro hbytes
      rcases hbytes with ⟨hlen, he⟩
      cases he with
      | nil => cases hlen
      | cons hG he => exact ⟨_, _, _, rfl, hG, _, rfl, Nat.succ.inj hlen, he⟩

end Reader

end WasmCore
