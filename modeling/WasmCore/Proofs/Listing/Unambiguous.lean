/-
Listings are unambiguous.

`scanLine` reads a listing from the top, with nothing but the margin and the first word of each line: a construct opens at
the margin it stands at, `else` and `end` must stand at the margin of the innermost construct that is open, and every
other line two blanks deeper than that. A listing is read to its end with nothing left open (`scan_linesOf`), and no two
bodies have one listing (`listing_unambiguous`).
-/
import WasmCore.Proofs.Listing.Tree

namespace WasmCore

namespace Instr

/-! ## Balanced lines -/

/-- the number of blanks that the line starts with -/
def margin (line : String) : Nat :=
  (line.toList.takeWhile (· == ' ')).length

/-- the first word after the margin -/
def firstWord (line : String) : String :=
  String.ofList ((line.toList.dropWhile (· == ' ')).takeWhile (· != ' '))

/-- What a line does to the constructs that are open, each with its margin and the word last seen of it, the innermost
first. Nothing is left where a line may not stand. -/
def scanLine (opened : List (Nat × String)) (line : String) : Option (List (Nat × String)) :=
  let word := firstWord line
  if word = "else" ∨ word = "end" then
    match opened with
    | [] => none
    | (outer, last) :: rest =>
      if margin line ≠ outer then none
      else if word = "end" then some rest
      else if last = "if" then some ((outer, word) :: rest)
      else none
  else if margin line ≠ 2 * opened.length then none
  else if word ∈ ["block", "loop", "if"] then some ((margin line, word) :: opened)
  else some opened

/-- every construct of the text is closed where it was opened -/
def Balanced (text : String) : Prop :=
  (textLines text).foldlM scanLine [] = some []

theorem margin_indent (line : String) : margin (indent line) = margin line + 2 := by
  simp [margin, indent]

theorem firstWord_indent (line : String) : firstWord (indent line) = firstWord line := by
  simp [firstWord, indent]

/-- the line as deep as so many constructs within each other -/
def atDepth (depth : Nat) : String → String :=
  indent^[depth]

theorem margin_atDepth (depth : Nat) (line : String) : margin (atDepth depth line) = 2 * depth + margin line := by
  induction depth with
  | zero => simp [atDepth]
  | succ depth ih =>
    rw [atDepth, Function.iterate_succ_apply', ← atDepth, margin_indent, ih]
    omega

theorem firstWord_atDepth (depth : Nat) (line : String) : firstWord (atDepth depth line) = firstWord line := by
  induction depth with
  | zero => rfl
  | succ depth ih => rw [atDepth, Function.iterate_succ_apply', ← atDepth, firstWord_indent, ih]

theorem headline_start (i : Instr) : margin i.headline = 0 ∧ firstWord i.headline = i.keyword := by
  have hchars : ∀ c ∈ i.keyword.toList, c ≠ ' ' := by
    rintro c hc rfl
    cases i.isWord_keyword _ hc
  obtain ⟨c, cs, hkeyword⟩ : ∃ c cs, i.keyword.toList = c :: cs := by
    refine List.exists_cons_of_ne_nil fun hnil => i.keyword_ne.1 ?_
    exact String.toList_inj.1 hnil
  obtain ⟨tail, hline, htail⟩ : ∃ tail, i.headline.toList = i.keyword.toList ++ tail ∧ ∀ c ∈ tail.head?, c = ' ' := by
    rw [headline_eq]
    cases i.arguments with
    | nil => exact ⟨[], by simp, by simp⟩
    | cons s ws => exact ⟨' ' :: (" ".intercalate (s :: ws)).toList, by simp [String.intercalate_cons_cons], by simp⟩
  have hfirst : c ≠ ' ' := hchars c (by simp [hkeyword])
  have hmargin : i.headline.toList.takeWhile (· == ' ') = [] ∧ i.headline.toList.dropWhile (· == ' ') = i.headline.toList := by
    rw [hline, hkeyword]
    simp [hfirst]
  have hword : i.headline.toList.takeWhile (· != ' ') = i.keyword.toList := by
    rw [hline, List.takeWhile_append_of_pos (by simpa using hchars)]
    cases tail with
    | nil => simp
    | cons c tail => simp [htail c rfl]
  rw [margin, firstWord, hmargin.1, hmargin.2, hword]
  exact ⟨rfl, String.ofList_toList⟩

theorem isConstruct_shape (i : Instr) : i.shape.isConstruct = i.isConstruct := by
  cases i <;> rfl

/-- the keywords of constructs -/
theorem keyword_mem_iff (i : Instr) : i.keyword ∈ ["block", "loop", "if"] ↔ i.isConstruct = true := by
  have h {j : Instr} (hj : j.isConstruct = true) (hkeyword : i.keyword = j.keyword) : i.isConstruct = true := by
    rw [← isConstruct_shape, keyword_inj hkeyword, isConstruct_shape, hj]
  constructor
  · intro hmem
    simp only [List.mem_cons, List.not_mem_nil, or_false] at hmem
    rcases hmem with hmem | hmem | hmem
    · exact h (j := block .empty []) rfl hmem
    · exact h (j := loop .empty []) rfl hmem
    · exact h (j := ite .empty [] []) rfl hmem
  · intro hi
    cases i with
    | block | loop | ite => simp [keyword]
    | _ => cases hi

variable {opened : List (Nat × String)}

theorem scanLine_headline (i : Instr) : scanLine opened (atDepth opened.length i.headline) =
    some (if i.isConstruct then (2 * opened.length, i.keyword) :: opened else opened) := by
  obtain ⟨-, helse, hend⟩ := i.keyword_ne
  simp only [scanLine, margin_atDepth, firstWord_atDepth, i.headline_start, helse, hend, keyword_mem_iff, or_self, if_false,
    Nat.add_zero, ne_eq, not_true_eq_false]
  split <;> rfl

theorem scanLine_else : scanLine ((2 * opened.length, "if") :: opened) (atDepth opened.length "else") =
    some ((2 * opened.length, "else") :: opened) := by
  have hword : firstWord "else" = "else" := by decide
  have hmargin : margin "else" = 0 := by decide
  simp [scanLine, margin_atDepth, firstWord_atDepth, hword, hmargin]

theorem scanLine_end (word : String) : scanLine ((2 * opened.length, word) :: opened) (atDepth opened.length "end") =
    some opened := by
  have hword : firstWord "end" = "end" := by decide
  have hmargin : margin "end" = 0 := by decide
  simp [scanLine, margin_atDepth, firstWord_atDepth, hword, hmargin]

theorem keyword_of_otherwise {i : Instr} (h : i.otherwise ≠ []) : i.keyword = "if" := by
  cases i with
  | ite => rfl
  | _ => exact absurd rfl h

/-- the lines of a body within a construct are the lines of the body one level deeper -/
theorem map_atDepth_indent (entry : Nat × String) (lines : List String) :
    (lines.map indent).map (atDepth opened.length) = lines.map (atDepth (entry :: opened).length) := by
  rw [List.map_map]
  rfl

/-- the lines of a body leave open what was open before them -/
theorem scan_linesOf (code : List Instr) (opened : List (Nat × String)) :
    ((linesOf code).map (atDepth opened.length)).foldlM scanLine opened = some opened := by
  induction code using body_induction generalizing opened with
  | nil => rfl
  | cons i rest ihbody ihotherwise ihrest =>
    have hbody (entry : Nat × String) :
        (((linesOf i.body).map indent).map (atDepth opened.length)).foldlM scanLine (entry :: opened) =
          some (entry :: opened) := by
      rw [map_atDepth_indent entry]
      exact ihbody _
    have hsecond : ∃ word, ((elseLines i.otherwise).map (atDepth opened.length)).foldlM scanLine
        ((2 * opened.length, i.keyword) :: opened) = some ((2 * opened.length, word) :: opened) := by
      rw [elseLines]
      split
      next => exact ⟨i.keyword, rfl⟩
      next hne =>
        refine ⟨"else", ?_⟩
        rw [keyword_of_otherwise (by simpa using hne), List.map_cons, List.foldlM_cons, scanLine_else,
          map_atDepth_indent (2 * opened.length, "else")]
        exact ihotherwise _
    obtain ⟨word, hsecond⟩ := hsecond
    rw [linesOf, lines_eq, List.map_append, List.foldlM_append, List.map_cons, List.foldlM_cons, scanLine_headline]
    cases i.isConstruct with
    | false => exact ihrest _
    | true =>
      simp only [if_true, List.map_append, List.foldlM_append, Option.bind_eq_bind, Option.bind_some, hbody, hsecond,
        List.map_cons, List.map_nil, List.foldlM_cons, List.foldlM_nil, scanLine_end, Option.pure_def]
      exact ihrest _

theorem listing_balanced (code : List Instr) : Balanced (listing code) := by
  have h := scan_linesOf code []
  rw [Balanced, textLines_listing]
  simpa [atDepth] using h

/-- **Listings are unambiguous.** Bodies without a NaN are equal when their listings are: the text tells instructions,
immediates of every kind, the signs of zeros, second bodies and the nesting apart. In every listing `else` and `end` stand
at the margin of the construct that they belong to, and none is missing. -/
theorem listing_unambiguous {a b : List Instr} (ha : NaNFree a) (hb : NaNFree b) :
    (listing a = listing b ↔ a = b) ∧ Balanced (listing a) := by
  refine ⟨⟨fun h => linesOf_inj ha hb ?_, congrArg listing⟩, listing_balanced a⟩
  rw [← textLines_listing, h, textLines_listing]

/-- two zeros within an `if` have two listings -/
theorem listing_ne_of_zero_signs :
    let code (zero : FloatBits .w64) := [ite (.value .f64) [const (.f64 zero)] [brTable [0, 1] 2]]
    NaNFree (code 0) ∧ NaNFree (code 0x8000000000000000#64) ∧ Balanced (listing (code 0)) ∧
      listing (code 0) ≠ listing (code 0x8000000000000000#64) := by
  intro code
  have ha : NaNFree (code 0) := by decide
  have hb : NaNFree (code 0x8000000000000000#64) := by decide
  obtain ⟨hiff, hbalanced⟩ := listing_unambiguous ha hb
  refine ⟨ha, hb, hbalanced, fun h => ?_⟩
  have hzeros : Val.f64 0 = Val.f64 0x8000000000000000#64 := by simpa [code] using hiff.1 h
  exact absurd hzeros (by decide)

example : listing [ite (.value .f64) [const (.f64 0x8000000000000000#64)] [brTable [0, 1] 2]] =
    "if (result f64)\n  f64.const -0\nelse\n  br_table 0 1 2\nend\n" := by
  decide +kernel

end Instr

end WasmCore
