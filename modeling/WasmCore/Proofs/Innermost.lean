/-
The innermost sequence.

The instruction that a function executes next is that of its innermost sequence: the body of the construct that was
opened last, or its own body if no construct is open. Taking it changes the rest of this sequence and nothing else.
-/
import WasmCore.Machine.Control

namespace WasmCore.Control

/-- the innermost sequence with another rest -/
def withRest (k : Control) (rest : List Instr) : Control :=
  match k.blocks with
  | [] => { k with body.rest := rest }
  | b :: blocks => { k with blocks := { b with body.rest := rest } :: blocks }

variable {k k' : Control} {i : Instr} {rest : List Instr}

theorem innermost_withRest (k : Control) (rest : List Instr) :
    (k.withRest rest).innermost = { k.innermost with rest } := by
  obtain ⟨blocks, body⟩ := k
  cases blocks <;> rfl

theorem length_withRest (k : Control) (rest : List Instr) : (k.withRest rest).blocks.length = k.blocks.length := by
  obtain ⟨blocks, body⟩ := k
  cases blocks <;> rfl

theorem withRest_rest (k : Control) : k.withRest k.innermost.rest = k := by
  obtain ⟨blocks, body⟩ := k
  cases blocks <;> rfl

theorem next?_nil (h : k.innermost.rest = []) : k.next? = none := by
  obtain ⟨blocks, body⟩ := k
  cases blocks <;> (simp only [innermost] at h; simp only [next?, h])

theorem next?_cons (h : k.innermost.rest = i :: rest) : k.next? = some (i, k.withRest rest) := by
  obtain ⟨blocks, body⟩ := k
  cases blocks <;> (simp only [innermost] at h; simp only [next?, h, withRest])

theorem next?_eq_none (h : k.next? = none) : k.innermost.rest = [] := by
  cases hrest : k.innermost.rest with
  | nil => rfl
  | cons i rest =>
    rw [next?_cons hrest] at h
    cases h

theorem next?_eq_some (h : k.next? = some (i, k')) : ∃ rest, k.innermost.rest = i :: rest ∧ k' = k.withRest rest := by
  cases hrest : k.innermost.rest with
  | nil =>
    rw [next?_nil hrest] at h
    cases h
  | cons j rest =>
    rw [next?_cons hrest] at h
    cases h
    exact ⟨rest, rfl, rfl⟩

end WasmCore.Control
