/-
Decoding after other calls.

A decoder is used for many calls in a row. Earlier calls leave it at some position, whatever they came to, and with the
constructs counted as open that were open when a body failed. The result: of what came before, the next call sees the
position and that count, nothing else. It answers as a fresh decoder of the bytes that are left would whose limit on the
nesting is lower by the count, with the offsets moved. So the count matters exactly where that lower limit makes it
reject a body for its nesting; such a body may well be within the limit that a fresh decoder has
(`answer_after_failed_body`).

The end of a body is a sum of words. Where the sum is none it wraps around, and the body is refused at once with the decoder
left as it is (`Call.reply_wrapped`); every other call is as on natural numbers (`Call.reply_eq`).
-/
import WasmCore.Proofs.Format.Levels

namespace WasmCore

open Reader

/-! ## Calls -/

/-- what a decoder is asked for -/
inductive Call where
  | u8
  | u32
  | i32
  | i64
  | f32
  | f64
  | body (length : Nat)
  | entry

namespace Call

def Value : Call → Type
  | u8 => UInt8
  | u32 => UInt32
  | i32 | f32 => BitVec 32
  | i64 | f64 => BitVec 64
  | body _ => List Instr
  | entry => CodeEntry

def read : (call : Call) → Reader call.Value
  | u8 => readByte
  | u32 => readU32
  | i32 => readInt .w32
  | i64 => readInt .w64
  | f32 => readFloat .w32
  | f64 => readFloat .w64
  | body length => readBody length
  | entry => readCodeEntry

/-- the call as a decoder performs it, which computes the end of a body on words -/
def perform : (call : Call) → Reader call.Value
  | body length => readBodyWord (UInt64.ofNat length)
  | call => call.read

/-- the length of a body that is asked for is a word, and so is the end that it has there -/
def Fits (c : Cursor) : Call → Prop
  | body length => length < 2 ^ 64 ∧ c.position + (length - 1) < 2 ^ 64
  | _ => True

instance (c : Cursor) : (call : Call) → Decidable (call.Fits c)
  | body _ => inferInstanceAs (Decidable (_ ∧ _))
  | u8 | u32 | i32 | i64 | f32 | f64 | entry => inferInstanceAs (Decidable True)

theorem perform_eq {call : Call} {c : Cursor} (h : call.Fits c) : call.perform c = call.read c := by
  cases call with
  | body length =>
    obtain ⟨hword, hend⟩ := h
    have hread : readBodyWord (.ofNat length) c = readBody (UInt64.ofNat length).toNat c :=
      readBodyWord_eq fun _ => by rwa [UInt64.toNat_ofNat_of_lt' hword]
    rw [UInt64.toNat_ofNat_of_lt' hword] at hread
    exact hread
  | _ => rfl

/-- the call on a decoder whose limit on the nesting is another one -/
def readWithin (levels : Nat) : (call : Call) → Reader call.Value
  | body length => readBodyWithin levels length
  | entry => readCodeEntryWithin levels
  | call => call.read

theorem read_within (call : Call) (c : Cursor) : call.read c = call.readWithin (maxNesting - c.depth) c := by
  cases call with
  | body length => exact readBody_within length c
  | entry => exact readCodeEntry_within c
  | _ => rfl

theorem readWithin_follows {p d m n : Nat} (hn : n ≤ m) (levels : Nat) (call : Call) :
    Follows p d m n (call.readWithin levels) (call.readWithin levels) := by
  cases call with
  | u8 => exact readByte_follows
  | u32 => exact readU32_follows
  | i32 | i64 => exact readInt_follows _
  | f32 | f64 => exact readFloat_follows _
  | body length => exact readBodyWithin_follows hn levels length
  | entry => exact readCodeEntryWithin_follows hn levels

theorem read_forward (call : Call) (c : Cursor) : Outcome.Forward 0 c (call.read c) := by
  rw [call.read_within]
  exact (call.readWithin_follows (p := 0) (d := 0) (Nat.zero_le _) _ c (Nat.zero_le _)).2

theorem readBodyWord_forward (length : UInt64) (c : Cursor) : Outcome.Forward 0 c (readBodyWord length c) := by
  obtain hread | hwrapped := readBodyWord_cases length c
  · rw [hread]
    exact read_forward (.body length.toNat) c
  · rw [hwrapped]
    exact ⟨.refl c, nofun⟩

theorem perform_forward (call : Call) (c : Cursor) : Outcome.Forward 0 c (call.perform c) := by
  cases call with
  | body length => exact readBodyWord_forward _ c
  | u8 => exact read_forward .u8 c
  | u32 => exact read_forward .u32 c
  | i32 => exact read_forward .i32 c
  | i64 => exact read_forward .i64 c
  | f32 => exact read_forward .f32 c
  | f64 => exact read_forward .f64 c
  | entry => exact read_forward .entry c

theorem readWithin_fewer {n levels levels' : Nat} (h : levels < levels') (call : Call) :
    Fewer n (call.readWithin levels) (call.readWithin levels') := by
  cases call with
  | u8 => exact .same fun _ _ _ => readByte_follows
  | u32 => exact .same fun _ _ _ => readU32_follows
  | i32 | i64 => exact .same fun _ _ _ => readInt_follows _
  | f32 | f64 => exact .same fun _ _ _ => readFloat_follows _
  | body length => exact readBodyWithin_fewer h length
  | entry => exact readCodeEntryWithin_fewer h

end Call

/-! ## Histories -/

namespace Cursor

/-- where a call leaves the decoder, whatever it comes to -/
def after (c : Cursor) (call : Call) : Cursor :=
  match call.read c with
  | .ok _ c' => c'
  | .error _ c' => c'

/-- where a sequence of calls leaves the decoder -/
def afterAll (c : Cursor) (history : List Call) : Cursor :=
  history.foldl after c

theorem passes_after (c : Cursor) (call : Call) : c.Passes (c.after call) := by
  have hforward := call.read_forward c
  unfold after
  cases hr : call.read c with
  | ok x c' =>
    rw [hr] at hforward
    exact hforward.passes
  | error e c' =>
    rw [hr] at hforward
    exact hforward.passes

theorem passes_afterAll (c : Cursor) (history : List Call) : c.Passes (c.afterAll history) := by
  induction history generalizing c with
  | nil => exact .refl c
  | cons call history ih => exact (c.passes_after call).trans (ih _)

/-- where a call leaves the decoder that performs it -/
def asked (c : Cursor) (call : Call) : Cursor :=
  Outcome.cursor (call.perform c)

/-- where a sequence of calls leaves the decoder that performs them -/
def askedAll (c : Cursor) (history : List Call) : Cursor :=
  history.foldl asked c

theorem passes_askedAll (c : Cursor) (history : List Call) : c.Passes (c.askedAll history) := by
  induction history generalizing c with
  | nil => exact .refl c
  | cons call history ih => exact Passes.trans (call.perform_forward c).passes (ih (c.asked call))

/-- every call of the history succeeds -/
def Succeed (c : Cursor) : List Call → Prop
  | [] => True
  | call :: history => (∃ x c', call.perform c = .ok x c') ∧ (c.asked call).Succeed history

/-- calls that succeed leave as many constructs counted as there were -/
theorem Succeed.depth {c : Cursor} {history : List Call} (h : c.Succeed history) :
    (c.askedAll history).depth = c.depth := by
  induction history generalizing c with
  | nil => rfl
  | cons call history ih =>
    obtain ⟨⟨x, c', hr⟩, hrest⟩ := h
    have hforward := call.perform_forward c
    rw [hr] at hforward
    obtain ⟨bs, hc⟩ := hforward
    have hasked : c.asked call = c' := by rw [asked, hr]; rfl
    exact (ih hrest).trans (hasked.symm ▸ hc.depth)

/-- a decoder stands at the first of the bytes that are left, with some constructs counted as open -/
theorem Passes.eq_shift {bytes : List UInt8} {c : Cursor} (h : (start bytes).Passes c) :
    c = (start (bytes.drop c.position)).shift c.position c.depth := by
  obtain ⟨bs, hrest, hposition⟩ := h.bytes
  have hdrop : bytes.drop c.position = c.rest := by
    change bytes = bs ++ c.rest at hrest
    change c.position = 0 + bs.length at hposition
    rw [hposition, Nat.zero_add, hrest, List.drop_left]
  rw [hdrop]
  simp only [start, shift, Nat.zero_add]

end Cursor

/-! ## Answers -/

namespace Reader

variable {α : Type}

/-- what the caller gets to know: the result and the final position -/
def Outcome.answer : Outcome α → Except DecodeError α × Nat
  | .ok x c => (.ok x, c.position)
  | .error e c => (.error e, c.position)

/-- the answer with its offsets and its position moved -/
def shiftAnswer (p : Nat) : Except DecodeError α × Nat → Except DecodeError α × Nat
  | (.ok x, position) => (.ok x, position + p)
  | (.error e, position) => (.error (e.shift p), position + p)

theorem Outcome.answer_shift (p d : Nat) (o : Outcome α) : (Outcome.shift p d o).answer = shiftAnswer p o.answer := by
  cases o <;> rfl

theorem Outcome.Content.answer {o : Outcome α} (h : o.Content) (offset : Nat) :
    o.answer.1 ≠ .error (.nestingTooDeep offset) := by
  cases o with
  | ok x c => exact nofun
  | error e c =>
    intro he
    cases he
    exact h offset c rfl

theorem Outcome.Beyond.answer {o : Outcome α} {offset : Nat} (h : o.Beyond (offset + 1)) :
    o.answer.1 ≠ .error (.nestingTooDeep offset) := by
  cases o with
  | ok x c => exact nofun
  | error e c =>
    intro he
    cases he
    exact h.ne_error rfl

theorem shiftAnswer_complaint {p offset : Nat} {a : Except DecodeError α × Nat} :
    (shiftAnswer p a).1 = .error (.nestingTooDeep (offset + p)) ↔ a.1 = .error (.nestingTooDeep offset) := by
  rcases a with ⟨x | e, position⟩
  · cases x <;> simp [shiftAnswer, DecodeError.shift]
  · simp [shiftAnswer]

end Reader

namespace Call

/-- the answer of a decoder at the cursor -/
def answer (call : Call) (c : Cursor) : Except DecodeError call.Value × Nat :=
  Outcome.answer (call.read c)

/-- the answer of a decoder that performs the call, with its words -/
def reply (call : Call) (c : Cursor) : Except DecodeError call.Value × Nat :=
  Outcome.answer (call.perform c)

theorem reply_eq {call : Call} {c : Cursor} (h : call.Fits c) : call.reply c = call.answer c := by
  rw [reply, perform_eq h, answer]

/-- a body whose end is no word is refused, without a look at the bytes -/
theorem reply_wrapped {length : Nat} {c : Cursor} (hlength : 1 ≤ length) (hword : length < 2 ^ 64)
    (hend : 2 ^ 64 ≤ c.position + (length - 1)) :
    (body length).reply c = (.error (.lengthMismatch (length - 1) 0), c.position) := by
  have hread : readBodyWord (.ofNat length) c = .error (.lengthMismatch ((UInt64.ofNat length).toNat - 1) 0) c :=
    readBodyWord_wrapped (by rwa [UInt64.toNat_ofNat_of_lt' hword]) (by rwa [UInt64.toNat_ofNat_of_lt' hword])
  rw [UInt64.toNat_ofNat_of_lt' hword] at hread
  exact congrArg Outcome.answer hread

/-- what fits at a place fits at the start -/
theorem Fits.start {call : Call} {c : Cursor} (h : call.Fits c) (bytes : List UInt8) : call.Fits (.start bytes) := by
  cases call with
  | body length => exact ⟨h.1, Nat.lt_of_le_of_lt (Nat.add_le_add_right (Nat.zero_le c.position) _) h.2⟩
  | _ => exact trivial

/-- the answer if the limit on the nesting is another one -/
def answerWithin (levels : Nat) (call : Call) (c : Cursor) : Except DecodeError call.Value × Nat :=
  Outcome.answer (call.readWithin levels c)

end Call

open Instr (EncodesAll nestingAll)

/-- a body is decoded as long as it keeps to the limit that the constructs counted as open leave, and is else rejected
-/
theorem answer_body {c : Cursor} {bs rest : List UInt8} {code : List Instr}
    (hrest : c.rest = bs ++ Opcode.endMarker :: rest) (hcode : EncodesAll code bs) :
    (nestingAll code ≤ maxNesting - c.depth →
      (Call.body (bs.length + 1)).answer c = (.ok code, c.position + bs.length)) ∧
    (maxNesting - c.depth < nestingAll code →
      ∃ offset, ((Call.body (bs.length + 1)).answer c).1 = .error (.nestingTooDeep offset)) := by
  have hc : c.Consumes bs ⟨Opcode.endMarker :: rest, c.position + bs.length, c.depth⟩ := ⟨hrest, rfl, rfl⟩
  refine ⟨fun hle => ?_, fun hlt => ?_⟩
  · have hread := readBody_iff.2 ⟨bs, hc, rfl, rfl, hcode, hle⟩
    rw [Call.answer, Call.read, hread]
    rfl
  · -- with as many levels as the body needs it would be decoded
    have hread := readBodyWithin_iff.2 ⟨bs, hc, rfl, rfl, hcode, Nat.le_refl _⟩
    obtain ⟨hsame, -⟩ | ⟨offset, c', herror, -, -⟩ :=
      (readBodyWithin_fewer (n := 0) hlt (bs.length + 1)).or_beyond c (Nat.zero_le _)
    · rw [hread] at hsame
      obtain ⟨bs', hc', -, -, hcode', hle⟩ := readBodyWithin_iff.1 hsame
      exact absurd hle (Nat.not_le.2 hlt)
    · refine ⟨offset, ?_⟩
      rw [Call.answer, Call.read, readBody_within, herror]
      rfl

section

variable {bytes : List UInt8} {c : Cursor}

/-- the constructs counted as open lower the limit of a fresh decoder -/
theorem answer_within (hc : (Cursor.start bytes).Passes c) (call : Call) :
    call.answer c =
      shiftAnswer c.position (call.answerWithin (maxNesting - c.depth) (.start (bytes.drop c.position))) := by
  obtain ⟨hshift, -⟩ := call.readWithin_follows (p := c.position) (d := c.depth) (Nat.le_refl 0) (maxNesting - c.depth)
    (.start (bytes.drop c.position)) (Nat.zero_le _)
  rw [← hc.eq_shift] at hshift
  rw [Call.answer, call.read_within, hshift, Outcome.answer_shift]
  rfl

theorem answer_fresh (call : Call) : call.answer (.start bytes) = call.answerWithin maxNesting (.start bytes) := by
  rw [Call.answer, call.read_within]
  rfl

/-- the lower limit shows exactly where the call fails on it -/
theorem answer_eq_fresh_iff (hc : (Cursor.start bytes).Passes c) (call : Call) :
    call.answer c = shiftAnswer c.position (call.answer (.start (bytes.drop c.position))) ↔
      c.depth = 0 ∨ ∀ offset, (call.answerWithin (maxNesting - c.depth) (.start (bytes.drop c.position))).1 ≠
        .error (.nestingTooDeep offset) := by
  rw [answer_within hc, answer_fresh]
  by_cases hdepth : c.depth = 0
  · simp only [hdepth, Nat.sub_zero, true_or]
  · have hlt : maxNesting - c.depth < maxNesting := by
      have : 0 < maxNesting := by decide
      omega
    obtain ⟨hsame, hcontent⟩ | ⟨offset, c', herror, -, hbeyond⟩ :=
      (call.readWithin_fewer (n := 0) hlt).or_beyond (.start (bytes.drop c.position)) (Nat.zero_le _)
    · have hanswer := congrArg Outcome.answer hsame
      rw [Call.answerWithin, Call.answerWithin, hanswer]
      exact iff_of_true rfl (.inr hcontent.answer)
    · have hcomplaint : (call.answerWithin (maxNesting - c.depth) (.start (bytes.drop c.position))).1 =
          .error (.nestingTooDeep offset) := by
        rw [Call.answerWithin, herror]
        rfl
      refine iff_of_false (fun heq => ?_) ?_
      · have hmoved := (shiftAnswer_complaint (p := c.position)).2 hcomplaint
        rw [heq] at hmoved
        exact hbeyond.answer (shiftAnswer_complaint.1 hmoved)
      · rintro (h | h)
        · exact hdepth h
        · exact h offset hcomplaint

/-- after calls that have all succeeded, a decoder is as good as a fresh one -/
theorem reply_after_success {history : List Call} (h : (Cursor.start bytes).Succeed history) (call : Call) :
    let c := (Cursor.start bytes).askedAll history
    call.Fits c → call.reply c = shiftAnswer c.position (call.reply (.start (bytes.drop c.position))) := by
  intro c hfits
  rw [Call.reply_eq hfits, Call.reply_eq (hfits.start _)]
  exact (answer_eq_fresh_iff ((Cursor.start bytes).passes_askedAll history) call).2 (.inl h.depth)

end

/-- **Of the calls before it, an answer depends on the position and on the constructs counted as open.** These lower the
limit on the nesting, so the answer is that of a fresh decoder of the bytes that are left if and only if nothing is
counted or the lower limit is not what the call fails on. A body is decoded as long as it keeps to the lower limit, and
is else rejected. This is of calls whose body ends at a word. A body that would not is refused as too long, where a fresh
decoder may look at the bytes. -/
theorem answer_after_history (bytes : List UInt8) (history : List Call) (call : Call) :
    let c := (Cursor.start bytes).askedAll history
    let fresh := Cursor.start (bytes.drop c.position)
    (call.Fits c →
      call.reply c = shiftAnswer c.position (call.answerWithin (maxNesting - c.depth) fresh) ∧
      (call.reply c = shiftAnswer c.position (call.reply fresh) ↔
        c.depth = 0 ∨ ∀ offset, (call.answerWithin (maxNesting - c.depth) fresh).1 ≠ .error (.nestingTooDeep offset))) ∧
    (∀ bs rest code, bytes.drop c.position = bs ++ Opcode.endMarker :: rest → EncodesAll code bs →
      (Call.body (bs.length + 1)).Fits c →
        (nestingAll code ≤ maxNesting - c.depth →
          (Call.body (bs.length + 1)).reply c = (.ok code, c.position + bs.length)) ∧
        (maxNesting - c.depth < nestingAll code →
          ∃ offset, ((Call.body (bs.length + 1)).reply c).1 = .error (.nestingTooDeep offset))) ∧
    ∀ length, 1 ≤ length → length < 2 ^ 64 → 2 ^ 64 ≤ c.position + (length - 1) →
      (Call.body length).reply c = (.error (.lengthMismatch (length - 1) 0), c.position) := by
  intro c fresh
  have hc : (Cursor.start bytes).Passes c := (Cursor.start bytes).passes_askedAll history
  refine ⟨fun hfits => ?_, fun bs rest code hrest hcode hfits => ?_, fun length => Call.reply_wrapped⟩
  · rw [Call.reply_eq hfits, Call.reply_eq (hfits.start _)]
    exact ⟨answer_within hc call, answer_eq_fresh_iff hc call⟩
  · rw [Call.reply_eq hfits]
    exact answer_body ((congrArg Cursor.rest hc.eq_shift).trans hrest) hcode

/-- a block after a byte that was read by itself -/
theorem answer_after_byte :
    (Call.body 4).reply ((Cursor.start [0x41, 0x02, 0x40, 0x0B, 0x0B]).askedAll [.u8]) =
      (.ok [.block .empty []], 4) := by
  have hcode : EncodesAll [.block .empty []] [0x02, 0x40, 0x0B] := .cons (.block .nil) .nil
  obtain ⟨-, hbody, -⟩ := answer_after_history [0x41, 0x02, 0x40, 0x0B, 0x0B] [.u8] .u8
  exact (hbody [0x02, 0x40, 0x0B] [] _ rfl hcode (by decide)).1 (by decide)

/-- A body that opens 128 blocks fails in the innermost one, and leaves all of them counted. The body after it has one
block and is rejected, while a fresh decoder has no complaint. -/
theorem answer_after_failed_body :
    let bytes := (List.replicate 128 [Opcode.block, BlockType.emptyByte]).flatten ++
      [0xD7, Opcode.block, BlockType.emptyByte, Opcode.endMarker, Opcode.endMarker]
    let c := (Cursor.start bytes).askedAll [.body 258]
    c = ⟨[Opcode.block, BlockType.emptyByte, Opcode.endMarker, Opcode.endMarker], 257, 128⟩ ∧
    (Call.body 4).reply c = (.error (.nestingTooDeep 257), 259) ∧
    (Call.body 4).reply (.start (bytes.drop 257)) = (.ok [.block .empty []], 3) := by
  intro bytes c
  have hc : c = ⟨[Opcode.block, BlockType.emptyByte, Opcode.endMarker, Opcode.endMarker], 257, 128⟩ := by decide +kernel
  refine ⟨hc, ?_, ?_⟩
  · rw [hc]
    rfl
  · rfl

end WasmCore
