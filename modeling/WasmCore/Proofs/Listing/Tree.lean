/-
The lines of a body tell which body it is.

An instruction takes its own line and, if it holds bodies, their lines one level deeper and a line `end`. A line that is
indented belongs to the innermost construct and one that is not to a construct around it, so the lines of a body end where
the margin returns. By induction on the number of lines, equal lines come from equal bodies (`linesOf_inj`). The lines
themselves are found again in the text, since none of them holds the end of a line (`textLines_listing`).
-/
import WasmCore.Proofs.Listing.Headline

namespace WasmCore

namespace Instr

/-! ## Bodies -/

/-- the instruction holds bodies -/
def isConstruct : Instr → Bool
  | block .. | loop .. | ite .. => true
  | _ => false

/-- the first body, if there is one -/
def body : Instr → List Instr
  | block _ code | loop _ code | ite _ code _ => code
  | _ => []

/-- the second body, if there is one -/
def otherwise : Instr → List Instr
  | ite _ _ code => code
  | _ => []

/-- puts bodies into an instruction -/
def withBodies (code second : List Instr) : Instr → Instr
  | block t _ => block t code
  | loop t _ => loop t code
  | ite t _ _ => ite t code second
  | i => i

theorem withBodies_shell (i : Instr) : i.shell.withBodies i.body i.otherwise = i := by
  cases i <;> rfl

theorem isConstruct_shell (i : Instr) : i.shell.isConstruct = i.isConstruct := by
  cases i <;> rfl

theorem body_of_not_isConstruct {i : Instr} (h : i.isConstruct = false) : i.body = [] ∧ i.otherwise = [] := by
  cases i <;> first | exact ⟨rfl, rfl⟩ | cases h

/-- induction on the bodies of the first instruction and on the rest -/
theorem body_induction {p : List Instr → Prop} (nil : p [])
    (cons : ∀ i rest, p i.body → p i.otherwise → p rest → p (i :: rest)) : ∀ code, p code
  | [] => nil
  | i :: rest => by
    have hbody : sizeOf i.body < sizeOf (i :: rest) := by
      cases i <;> simp [body] <;> omega
    have hotherwise : sizeOf i.otherwise < sizeOf (i :: rest) := by
      cases i <;> simp [otherwise] <;> omega
    exact cons i rest (body_induction nil cons i.body) (body_induction nil cons i.otherwise) (body_induction nil cons rest)
termination_by code => sizeOf code

theorem flatten_eq (i : Instr) : flatten i = i :: (flattenAll i.body ++ flattenAll i.otherwise) := by
  cases i <;> simp [flatten, flattenAll, body, otherwise]

/-- the lines between the first body and the end -/
def elseLines (second : List Instr) : List String :=
  if second.isEmpty then [] else "else" :: (linesOf second).map indent

theorem lines_eq (i : Instr) : lines i =
    i.headline :: if i.isConstruct then (linesOf i.body).map indent ++ (elseLines i.otherwise ++ ["end"]) else [] := by
  cases i <;> simp [lines, isConstruct, body, otherwise, elseLines]

/-- no constant is a NaN, at any depth -/
def NaNFree (code : List Instr) : Prop :=
  ∀ i ∈ flattenAll code, i.isNaN = false

instance (code : List Instr) : Decidable (NaNFree code) :=
  List.decidableBAll _ (flattenAll code)

theorem naNFree_cons {i : Instr} {rest : List Instr} :
    NaNFree (i :: rest) ↔ i.isNaN = false ∧ NaNFree i.body ∧ NaNFree i.otherwise ∧ NaNFree rest := by
  simp only [NaNFree, flattenAll, flatten_eq, List.cons_append, List.forall_mem_cons, List.forall_mem_append, and_assoc]

/-! ## Margins -/

/-- the line starts with a blank -/
def Indented (line : String) : Prop :=
  line.toList.head? = some ' '

instance (line : String) : Decidable (Indented line) :=
  inferInstanceAs (Decidable (line.toList.head? = some ' '))

theorem indented_indent (line : String) : Indented (indent line) := by
  simp [Indented, indent]

theorem indent_inj {line line' : String} (h : indent line = indent line') : line = line' :=
  String.append_right_inj "  " |>.1 h

/-- indented lines end at the first line that is not -/
theorem map_indent_append_inj {a b r r' : List String} {x y : String} (hx : ¬ Indented x) (hy : ¬ Indented y)
    (h : a.map indent ++ x :: r = b.map indent ++ y :: r') : a = b ∧ x :: r = y :: r' := by
  induction a generalizing b with
  | nil =>
    cases b with
    | nil => exact ⟨rfl, h⟩
    | cons line b => exact absurd (List.cons.inj h).1 fun heq => hx (heq ▸ indented_indent line)
  | cons line a ih =>
    cases b with
    | nil => exact absurd (List.cons.inj h).1 fun heq => hy (heq ▸ indented_indent line)
    | cons line' b =>
      obtain ⟨hline, h⟩ := List.cons.inj h
      obtain ⟨rfl, hr⟩ := ih h
      exact ⟨by rw [indent_inj hline], hr⟩

/-! ## Lines determine the body -/

/-- what follows the lines of the first body is not indented -/
theorem elseLines_append_end (second : List Instr) (r : List String) :
    ∃ line r', elseLines second ++ "end" :: r = line :: r' ∧ ¬ Indented line := by
  rw [elseLines]
  split
  · exact ⟨_, _, rfl, by decide⟩
  · exact ⟨_, _, rfl, by decide⟩

theorem elseLines_inj {second second' : List Instr} {r r' : List String}
    (h : elseLines second ++ "end" :: r = elseLines second' ++ "end" :: r') : linesOf second = linesOf second' ∧ r = r' := by
  cases second with
  | nil =>
    cases second' with
    | nil => exact ⟨rfl, (List.cons.inj h).2⟩
    | cons j rest' => exact absurd (List.cons.inj h).1 (by decide)
  | cons i rest =>
    cases second' with
    | nil => exact absurd (List.cons.inj h).1 (by decide)
    | cons j rest' =>
      obtain ⟨hlines, hend⟩ := map_indent_append_inj (by decide) (by decide) (List.cons.inj h).2
      exact ⟨hlines, (List.cons.inj hend).2⟩

/-- the lines within a construct are told from those after it -/
theorem innerLines_inj {first first' second second' : List Instr} {r r' : List String}
    (h : (linesOf first).map indent ++ (elseLines second ++ "end" :: r) =
      (linesOf first').map indent ++ (elseLines second' ++ "end" :: r')) :
    linesOf first = linesOf first' ∧ linesOf second = linesOf second' ∧ r = r' := by
  obtain ⟨x, t, hx, hx'⟩ := elseLines_append_end second r
  obtain ⟨y, t', hy, hy'⟩ := elseLines_append_end second' r'
  rw [hx, hy] at h
  obtain ⟨hfirst, hrest⟩ := map_indent_append_inj hx' hy' h
  rw [← hx, ← hy] at hrest
  exact ⟨hfirst, elseLines_inj hrest⟩

theorem linesOf_ne_nil (i : Instr) (rest : List Instr) : linesOf (i :: rest) ≠ [] := by
  rw [linesOf, lines_eq]
  exact List.cons_ne_nil _ _

/-- **Equal lines come from equal bodies.** -/
theorem linesOf_inj {a b : List Instr} (ha : NaNFree a) (hb : NaNFree b) (h : linesOf a = linesOf b) : a = b := by
  induction a using body_induction generalizing b with
  | nil =>
    cases b with
    | nil => rfl
    | cons j rest' => exact absurd h.symm (linesOf_ne_nil j rest')
  | cons i rest ihbody ihotherwise ihrest =>
    cases b with
    | nil => exact absurd h (linesOf_ne_nil i rest)
    | cons j rest' =>
      obtain ⟨hi, hbody, hotherwise, hrest⟩ := naNFree_cons.1 ha
      obtain ⟨hj, hbody', hotherwise', hrest'⟩ := naNFree_cons.1 hb
      rw [linesOf, linesOf, lines_eq, lines_eq, List.cons_append, List.cons_append] at h
      obtain ⟨hline, h⟩ := List.cons.inj h
      have hshell := headline_inj hi hj hline
      have hconstruct : i.isConstruct = j.isConstruct := by
        rw [← isConstruct_shell, hshell, isConstruct_shell]
      have hbodies : i.body = j.body ∧ i.otherwise = j.otherwise ∧ rest = rest' := by
        cases hi' : i.isConstruct with
        | true =>
          rw [← hconstruct, hi', if_pos rfl, if_pos rfl] at h
          simp only [List.append_assoc, List.singleton_append] at h
          obtain ⟨hfirst, hsecond, hr⟩ := innerLines_inj h
          exact ⟨ihbody hbody hbody' hfirst, ihotherwise hotherwise hotherwise' hsecond, ihrest hrest hrest' hr⟩
        | false =>
          rw [← hconstruct, hi'] at h
          obtain ⟨hi₁, hi₂⟩ := body_of_not_isConstruct hi'
          obtain ⟨hj₁, hj₂⟩ := body_of_not_isConstruct (hconstruct ▸ hi')
          exact ⟨hi₁.trans hj₁.symm, hi₂.trans hj₂.symm, ihrest hrest hrest' h⟩
      obtain ⟨hfirst, hsecond, rfl⟩ := hbodies
      rw [← withBodies_shell i, hshell, hfirst, hsecond, withBodies_shell]

/-! ## The text -/

/-- the line ends nowhere before its end -/
def IsLine (line : String) : Prop :=
  ∀ c ∈ line.toList, c ≠ '\n'

instance (line : String) : Decidable (IsLine line) :=
  List.decidableBAll _ line.toList

theorem isLine_append {s t : String} : IsLine (s ++ t) ↔ IsLine s ∧ IsLine t := by
  simp only [IsLine, String.toList_append, List.forall_mem_append]

theorem isLine_of_isWord {s : String} (h : IsWord s) : IsLine s := by
  rintro c hc rfl
  cases h _ hc

theorem isLine_intercalate {ws : List String} (h : ∀ s ∈ ws, IsWord s) : IsLine (" ".intercalate ws) := by
  induction ws with
  | nil => exact fun c hc => nomatch hc
  | cons s ws ih =>
    obtain ⟨hs, hws⟩ := List.forall_mem_cons.1 h
    cases ws with
    | nil => simpa using isLine_of_isWord hs
    | cons t ws =>
      rw [String.intercalate_cons_cons]
      exact isLine_append.2 ⟨isLine_append.2 ⟨isLine_of_isWord hs, by decide⟩, ih hws⟩

theorem isLine_headline (i : Instr) : IsLine i.headline := by
  rw [headline_eq]
  exact isLine_intercalate (List.forall_mem_cons.2 ⟨i.isWord_keyword, i.isWord_arguments⟩)

theorem isLine_map_indent {lines : List String} (h : ∀ line ∈ lines, IsLine line) :
    ∀ line ∈ lines.map indent, IsLine line := by
  rw [List.forall_mem_map]
  exact fun line hline => isLine_append.2 ⟨by decide, h line hline⟩

theorem isLine_linesOf (code : List Instr) : ∀ line ∈ linesOf code, IsLine line := by
  induction code using body_induction with
  | nil => exact fun line hline => nomatch hline
  | cons i rest ihbody ihotherwise ihrest =>
    have helse : ∀ line ∈ elseLines i.otherwise, IsLine line := by
      rw [elseLines]
      split
      · exact fun line hline => nomatch hline
      · exact List.forall_mem_cons.2 ⟨by decide, isLine_map_indent ihotherwise⟩
    have hinner : ∀ line ∈ (linesOf i.body).map indent ++ (elseLines i.otherwise ++ ["end"]), IsLine line :=
      List.forall_mem_append.2 ⟨isLine_map_indent ihbody,
        List.forall_mem_append.2 ⟨helse, List.forall_mem_singleton.2 (by decide)⟩⟩
    rw [linesOf, lines_eq, List.forall_mem_append, List.forall_mem_cons]
    refine ⟨⟨isLine_headline i, ?_⟩, ihrest⟩
    split
    · exact hinner
    · exact fun line hline => nomatch hline

/-- the lines of a text, every one of which is ended -/
def textLines (text : String) : List String :=
  (text.toList.splitOn '\n').dropLast.map String.ofList

theorem textLines_join {lines : List String} (h : ∀ line ∈ lines, IsLine line) :
    textLines (String.join (lines.map (· ++ "\n"))) = lines := by
  -- what is left after the last end of a line is empty
  have htext : (String.join (lines.map (· ++ "\n"))).toList = ['\n'].intercalate (lines.map String.toList ++ [[]]) := by
    clear h
    induction lines with
    | nil => rfl
    | cons line lines ih =>
      rw [List.map_cons, List.map_cons, List.cons_append, List.intercalate_cons_of_ne_nil (by simp), ← ih]
      simp
  have hlines : ∀ cs ∈ lines.map String.toList ++ [[]], '\n' ∉ cs := by
    rw [List.forall_mem_append, List.forall_mem_map]
    exact ⟨fun line hline hmem => h line hline _ hmem rfl, by simp⟩
  rw [textLines, htext, List.splitOn_intercalate '\n' hlines (by simp), List.dropLast_concat, List.map_map]
  simp

theorem textLines_listing (code : List Instr) : textLines (listing code) = linesOf code :=
  textLines_join (isLine_linesOf code)

end Instr

end WasmCore
