/-
The words of a line.

The first line of an instruction is a row of words with single blanks between them: a keyword, which tells the instructions
apart, and one word for each immediate. No word holds a blank or ends the line, so a line can be taken apart again
(`words_of_headline_eq`).
-/
import WasmCore.Instruction.Listing
import WasmCore.Proofs.Decimal.ReadBack

namespace WasmCore

/-! ## Words -/

/-- no blank, no tab and no end of a line -/
def IsWord (s : String) : Prop :=
  ∀ c ∈ s.toList, c.isWhitespace = false

instance (s : String) : Decidable (IsWord s) :=
  List.decidableBAll _ s.toList

theorem isWord_append {s t : String} : IsWord (s ++ t) ↔ IsWord s ∧ IsWord t := by
  simp only [IsWord, String.toList_append, List.forall_mem_append]

theorem isWhitespace_of_isDigit {c : Char} (h : c.isDigit = true) : c.isWhitespace = false := by
  refine Bool.eq_false_iff.2 fun hblank => ?_
  simp only [Char.isWhitespace, Bool.or_eq_true, decide_eq_true_eq] at hblank
  rcases hblank with ((rfl | rfl) | rfl) | rfl <;> cases h

theorem isWord_toString (n : Nat) : IsWord (toString n) := by
  intro c hc
  rw [Numeral.toList_toString] at hc
  exact isWhitespace_of_isDigit (Numeral.isDigit_toDigits n c hc)

theorem isWord_toString_int (z : Int) : IsWord (toString z) := by
  rw [Int.toString_eq_repr, Int.repr_eq_if]
  split
  next => exact isWord_toString _
  next => exact isWord_append.2 ⟨by decide, isWord_toString _⟩

theorem Decimal.isWord_text (d : Decimal) : IsWord d.text := by
  obtain ⟨whole, fraction, -, hwhole, hfraction, htext, -⟩ := d.text_parts
  intro c hc
  rw [htext, positional] at hc
  simp only [List.mem_append] at hc
  rcases hc with hc | hc | hc
  · split at hc
    next => rw [List.mem_singleton.1 hc]; rfl
    next => cases hc
  · exact isWhitespace_of_isDigit (hwhole c hc)
  · split at hc
    next => cases hc
    next =>
      rcases List.mem_cons.1 hc with rfl | hc
      · rfl
      · exact isWhitespace_of_isDigit (hfraction c hc)

theorem FloatBits.isWord_text {w : Width} (x : FloatBits w) : IsWord x.text := by
  rw [text]
  split
  · decide
  · split <;> decide
  · split
    · split <;> decide
    · exact Decimal.isWord_text _

theorem Val.isWord_numberText (v : Val) : IsWord v.numberText := by
  obtain ⟨t, b⟩ := v
  cases t with
  | int w => exact isWord_toString_int _
  | float w => exact FloatBits.isWord_text b

/-- words with blanks between them are told apart -/
theorem intercalate_blank_inj {ws vs : List String} (hws : ∀ s ∈ ws, IsWord s) (hvs : ∀ s ∈ vs, IsWord s)
    (hne : ws ≠ []) (hne' : vs ≠ []) (h : " ".intercalate ws = " ".intercalate vs) : ws = vs := by
  have hsplit {us : List String} (hus : ∀ s ∈ us, IsWord s) (hne : us ≠ []) :
      (" ".intercalate us).toList.splitOn ' ' = us.map String.toList := by
    rw [String.toList_intercalate]
    refine List.splitOn_intercalate ' ' (fun cs hcs hblank => ?_) (by simpa using hne)
    obtain ⟨s, hs, rfl⟩ := List.mem_map.1 hcs
    cases hus s hs ' ' hblank
  refine List.map_injective_iff.2 (fun _ _ => String.toList_inj.1) ?_
  rw [← hsplit hws hne, h, hsplit hvs hne']

/-! ## Lines -/

def MemArg.words (m : MemArg) : List String :=
  ["align=" ++ toString m.align, "offset=" ++ toString m.offset]

def BlockType.words : BlockType → List String
  | empty => []
  | value t => ["(result", t.name ++ ")"]

/-- words written with a blank before each -/
theorem join_words (s : String) (ns : List UInt32) :
    String.join (s :: ns.map fun n => s!" {n}") = " ".intercalate (s :: ns.map toString) := by
  have hcons (t : String) (ts : List String) : String.join (t :: ts) = t ++ String.join ts := by
    simp
  induction ns generalizing s with
  | nil => simp
  | cons n ns ih =>
    have hblank : s!" {n}" = " " ++ toString n := rfl
    rw [List.map_cons, List.map_cons, String.intercalate_cons_cons, ← ih, hcons, hcons, hcons, hblank, String.append_assoc,
      String.append_assoc]

namespace Instr

/-- the word that a line starts with -/
def keyword : Instr → String
  | unreachable => "unreachable"
  | nop => "nop"
  | ret => "return"
  | drop => "drop"
  | select => "select"
  | const v => v.type.name ++ ".const"
  | unary op => op.name
  | binary op => op.name
  | load op _ => op.name
  | store op _ => op.name
  | memorySize => "memory.size"
  | memoryGrow => "memory.grow"
  | localGet _ => "local.get"
  | localSet _ => "local.set"
  | localTee _ => "local.tee"
  | globalGet _ => "global.get"
  | globalSet _ => "global.set"
  | call _ => "call"
  | callIndirect .. => "call_indirect"
  | block .. => "block"
  | loop .. => "loop"
  | ite .. => "if"
  | br _ => "br"
  | brIf _ => "br_if"
  | brTable .. => "br_table"

/-- the words after the first, which stand for the immediates -/
def arguments : Instr → List String
  | const v => [v.numberText]
  | load _ m | store _ m => m.words
  | localGet n | localSet n | localTee n | globalGet n | globalSet n | call n | br n | brIf n => [toString n]
  | callIndirect typeIndex tableIndex => ["type=" ++ toString typeIndex, "table=" ++ toString tableIndex]
  | block t _ | loop t _ | ite t _ _ => t.words
  | brTable targets fallback => (targets ++ [fallback]).map toString
  | _ => []

theorem headline_eq (i : Instr) : i.headline = " ".intercalate (i.keyword :: i.arguments) := by
  have hself (s : String) : toString s = s := rfl
  have hblock (s : String) (t : BlockType) : s ++ t.suffix = " ".intercalate (s :: t.words) := by
    cases t with
    | empty => simp [BlockType.suffix, BlockType.words]
    | value t => simp [BlockType.suffix, BlockType.words, ← String.toList_inj]
  have hmem (s : String) (m : MemArg) : s ++ m.suffix = " ".intercalate (s :: m.words) := by
    simp [MemArg.suffix, hself, MemArg.words, ← String.toList_inj]
  have hconst (t n : String) : t ++ ".const " ++ n = " ".intercalate [t ++ ".const", n] := by
    simp [← String.toList_inj]
  have hnumber (start word : String) (n : UInt32) (h : start = word ++ " ") :
      start ++ toString n = " ".intercalate [word, toString n] := by
    rw [h, String.intercalate_cons_cons, String.intercalate_singleton]
  have hindices (m n : UInt32) : "call_indirect type=" ++ toString m ++ " table=" ++ toString n =
      " ".intercalate ["call_indirect", "type=" ++ toString m, "table=" ++ toString n] := by
    simp [← String.toList_inj]
  cases i with
  | block t _ => exact hblock _ t
  | loop t _ => exact hblock _ t
  | ite t _ _ => exact hblock _ t
  | load op m => exact hmem _ m
  | store op m => exact hmem _ m
  | brTable targets fallback => exact join_words "br_table" (targets ++ [fallback])
  | const v => exact hconst _ _
  | localGet n | localSet n | localTee n | globalGet n | globalSet n | call n | br n | brIf n =>
    exact hnumber _ _ n (by simp only [hself, keyword, String.reduceAppend])
  | callIndirect m n => exact hindices m n
  | _ => exact String.intercalate_singleton.symm

end Instr

end WasmCore
