/-
Lexical scoping.

The constructs that are open in a function are those that enclose its next instruction in the text of its body, whatever the
code is and however the run has come there (`Config.reaches_scoped`): each of the sequences around it goes on right after the
construct that was entered from it. The body is that of a function which the caller has just called, or the outermost sequence
(`Config.runs_of_scopes`).
-/
import Mathlib.Data.List.Forall2
import WasmCore.Proofs.Structured.ControlStack

namespace WasmCore

variable {inst : Instance}

/-! ## Places in a body -/

/-- the first or the second body of a construct -/
def Instr.inner : Instr → Bool → Option (List Instr)
  | block _ body, false => some body
  | loop _ body, false => some body
  | ite _ body _, false => some body
  | ite _ _ otherwise, true => some otherwise
  | _, _ => none

/-- Where a path leads from the start of a body: to a sequence, with these constructs around it, the innermost first. A turn
of the path is the index of a construct in its sequence, and which of its bodies is meant; the last turn comes first. -/
def enclosing (code : List Instr) : List (Nat × Bool) → Option (List Instr × List Instr)
  | [] => some ([], code)
  | (n, second) :: path => do
    let (around, sequence) ← enclosing code path
    let i ← sequence[n]?
    return (i :: around, ← i.inner second)

theorem Instr.Opens.inner {i : Instr} {second : Bool} {b : OpenBlock} (h : i.Opens second b) :
    i.inner second = some b.body.code := by
  cases h <;> rfl

theorem Instr.Opens.withRest {i : Instr} {second : Bool} {b : OpenBlock} (h : i.Opens second b) (rest : List Instr) :
    i.Opens second { b with body := { b.body with rest } } := by
  cases h <;> constructor

/-! ## The constructs of a function -/

/-- The function runs the sequence to which the path leads, and its open constructs are those around it; each sequence around
goes on after the turn that the path takes there. -/
inductive Scoped (code : List Instr) : (path : List (Nat × Bool)) → Control → Prop
  | body {rest : List Instr} (suffix : rest <:+ code) : Scoped code [] ⟨[], ⟨code, rest⟩⟩
  | construct {path : List (Nat × Bool)} {blocks : List OpenBlock} {q : Sequence} {i : Instr} {n : Nat} {second : Bool}
      {b : OpenBlock} (outer : Scoped code path ⟨blocks, q⟩) (turn : (Control.mk blocks q).innermost.code[n]? = some i)
      (after : (Control.mk blocks q).innermost.rest = (Control.mk blocks q).innermost.code.drop (n + 1))
      (opens : i.Opens second b) (suffix : b.body.rest <:+ b.body.code) : Scoped code ((n, second) :: path) ⟨b :: blocks, q⟩

namespace Scoped

variable {code : List Instr} {path : List (Nat × Bool)} {k k' : Control} {i : Instr}

theorem suffix_innermost (h : Scoped code path k) : k.innermost.rest <:+ k.innermost.code := by
  cases h with
  | body suffix => exact suffix
  | construct _ _ _ _ suffix => exact suffix

/-- the open constructs are those around the place, one by one -/
theorem enclosed (h : Scoped code path k) : ∃ around, enclosing code path = some (around, k.innermost.code) ∧
    List.Forall₂ (fun i b => ∃ second, i.Opens second b) around k.blocks := by
  induction h with
  | body => exact ⟨[], rfl, .nil⟩
  | @construct path blocks q i n second b _ turn _ opens _ ih =>
    obtain ⟨around, hpath, hopen⟩ := ih
    refine ⟨i :: around, ?_, .cons ⟨second, opens⟩ hopen⟩
    simp only [enclosing, hpath, bind, Option.bind, turn, opens.inner]
    rfl

/-- taking the next instruction stays at the place, and goes past it there -/
theorem next (h : Scoped code path k) (hk : k.next? = some (i, k')) :
    Scoped code path k' ∧ ∃ n, k'.innermost.code[n]? = some i ∧ k'.innermost.rest = k'.innermost.code.drop (n + 1) := by
  obtain ⟨rest, hrest, rfl⟩ := Control.next?_eq_some hk
  obtain ⟨done, hdone⟩ := h.suffix_innermost
  rw [hrest] at hdone
  have hsuffix : rest <:+ k.innermost.code := ⟨done ++ [i], by rw [← hdone, List.append_assoc]; rfl⟩
  refine ⟨?_, done.length, ?_, ?_⟩
  · cases h with
    | body => exact .body hsuffix
    | construct outer turn after opens _ => exact .construct outer turn after (opens.withRest rest) hsuffix
  · simp [Control.innermost_withRest, ← hdone]
  · simp [Control.innermost_withRest, ← hdone]

/-- entering the construct that was taken -/
theorem enter (h : Scoped code path k) {n : Nat} (turn : k.innermost.code[n]? = some i)
    (after : k.innermost.rest = k.innermost.code.drop (n + 1)) {second : Bool} {label : Label} {body : List Instr}
    (opens : i.Opens second ⟨label, .start body⟩) : Scoped code ((n, second) :: path) (k.enter label body) :=
  .construct h turn after opens List.suffix_rfl

/-- leaving constructs -/
theorem drop (h : Scoped code path k) (d : Nat) : Scoped code (path.drop d) { k with blocks := k.blocks.drop d } := by
  induction h generalizing d with
  | body suffix =>
    simp only [List.drop_nil]
    exact .body suffix
  | construct outer turn after opens suffix ih =>
    cases d with
    | zero => exact .construct outer turn after opens suffix
    | succ d => exact ih d

/-- starting the innermost construct again -/
theorem restart {b : OpenBlock} {blocks : List OpenBlock} {q : Sequence} (h : Scoped code path ⟨b :: blocks, q⟩) :
    Scoped code path ⟨{ b with body := .start b.body.code } :: blocks, q⟩ := by
  cases h with
  | construct outer turn after opens _ =>
    exact .construct outer turn after (opens.withRest b.body.code) List.suffix_rfl

end Scoped

/-! ## Runs -/

/-- The active function runs `body`, and so on for those that wait: each of them has just called the next one. The outermost
sequence is `code`. -/
inductive Scopes (inst : Instance) (code : List Instr) : (body : List Instr) → Control → List Caller → Prop
  | outermost {path : List (Nat × Bool)} {k : Control} (place : Scoped code path k) : Scopes inst code code k []
  | called {body body' : List Instr} {path : List (Nat × Bool)} {k : Control} {f : Function} {i : Instr} {n : Nat}
      {caller : Caller} {callers : List Caller} (place : Scoped body path k) (body_eq : f.body = .code body)
      (calls : i.MayCall inst f) (turn : caller.control.innermost.code[n]? = some i)
      (after : caller.control.innermost.rest = caller.control.innermost.code.drop (n + 1))
      (outer : Scopes inst code body' caller.control callers) : Scopes inst code body k (caller :: callers)

namespace Scopes

variable {code body : List Instr} {k k' : Control} {callers : List Caller}

theorem place (h : Scopes inst code body k callers) : ∃ path, Scoped body path k := by
  cases h with
  | outermost place => exact ⟨_, place⟩
  | called place => exact ⟨_, place⟩

/-- whatever happens within the active function -/
theorem within (h : Scopes inst code body k callers) {path : List (Nat × Bool)} (hk : Scoped body path k') :
    Scopes inst code body k' callers := by
  cases h with
  | outermost => exact .outermost hk
  | called _ body_eq calls turn after outer => exact .called hk body_eq calls turn after outer

end Scopes

namespace Config

variable {c d : Config} {code : List Instr}

theorem Advances.scopes (h : c.Advances inst d) {body : List Instr} (hc : Scopes inst code body c.control c.callers) :
    ∃ body', Scopes inst code body' d.control d.callers := by
  obtain ⟨path, hscoped⟩ := hc.place
  cases h with
  | passed next => exact ⟨body, hc.within (hscoped.next next).1⟩
  | opened next opens =>
    obtain ⟨hnext, n, turn, after⟩ := hscoped.next next
    exact ⟨body, hc.within (hnext.enter turn after opens)⟩
  | closed open_eq =>
    have hdrop := hscoped.drop 1
    rw [open_eq] at hdrop
    exact ⟨body, hc.within hdrop⟩
  | @branched i control s depth target outer next drop =>
    have hdrop := (hscoped.next next).1.drop depth
    rw [drop] at hdrop
    cases hrestarts : target.label.restarts with
    | true => exact ⟨body, hc.within hdrop.restart⟩
    | false => exact ⟨body, hc.within (hdrop.drop 1)⟩
  | @entered i control s f body' caller next calls body_eq control_eq =>
    obtain ⟨hnext, n, turn, after⟩ := hscoped.next next
    subst control_eq
    exact ⟨body', .called (.body List.suffix_rfl) body_eq calls turn after (hc.within hnext)⟩
  | left waiting =>
    rw [waiting] at hc
    cases hc with
    | called _ _ _ _ _ outer => exact ⟨_, outer⟩

/-- **The open constructs are those around the next instruction**, wherever a run comes to -/
theorem reaches_scoped {s : State} (h : (start s code).Reaches inst c) :
    ∃ body, Scopes inst code body c.control c.callers := by
  induction h with
  | refl => exact ⟨code, .outermost (.body List.suffix_rfl)⟩
  | tail _ hstep ih =>
    obtain ⟨body, hscopes⟩ := ih
    exact (step_advances hstep).scopes hscopes

/-- `body` is what the active function runs: the outermost sequence, or the body of a function that its caller has just
called -/
inductive Runs (inst : Instance) (code : List Instr) (c : Config) : List Instr → Prop
  | outermost (callers_eq : c.callers = []) : Runs inst code c code
  | called {body : List Instr} {f : Function} {i : Instr} {n : Nat} {caller : Caller} {callers : List Caller}
      (waiting : c.callers = caller :: callers) (body_eq : f.body = .code body) (calls : i.MayCall inst f)
      (turn : caller.control.innermost.code[n]? = some i)
      (after : caller.control.innermost.rest = caller.control.innermost.code.drop (n + 1)) : Runs inst code c body

theorem runs_of_scopes {body : List Instr} (h : Scopes inst code body c.control c.callers) : c.Runs inst code body := by
  generalize hcallers : c.callers = callers at h
  cases h with
  | outermost => exact .outermost hcallers
  | called _ body_eq calls turn after _ => exact .called hcallers body_eq calls turn after

end Config

end WasmCore
