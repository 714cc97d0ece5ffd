/-
Tables: function references for indirect calls. A slot may be empty.
-/
import WasmCore.Trap

namespace WasmCore

structure Table where
  elements : Array (Option UInt32)
  /-- most slots the table may grow to, if it has a limit -/
  max : Option UInt32

namespace Table

/-- a table of empty slots -/
def new (size : UInt32) (max : Option UInt32) : Table :=
  ⟨Array.replicate size.toNat none, max⟩

/-- a table without a limit -/
def ofElements (elements : List (Option UInt32)) : Table :=
  ⟨elements.toArray, none⟩

def size (t : Table) : Nat :=
  t.elements.size

/-- what is in a slot -/
def get (t : Table) (i : UInt32) : Except Trap (Option UInt32) :=
  match t.elements[i.toNat]? with
  | some slot => .ok slot
  | none => .error (.undefinedElement i)

def set (t : Table) (i : UInt32) (slot : Option UInt32) : Except Trap Table :=
  if i.toNat < t.size then .ok { t with elements := t.elements.setIfInBounds i.toNat slot }
  else .error (.undefinedElement i)

/-- most slots that this table may have -/
def limit (t : Table) : Nat :=
  match t.max with
  | some n => n.toNat
  | none => UInt32.size - 1

/-- adds empty slots, and answers how many slots there were -/
def grow (t : Table) (delta : UInt32) : Except Trap (Nat × Table) :=
  if t.size + delta.toNat ≤ t.limit then
    .ok (t.size, { t with elements := t.elements ++ Array.replicate delta.toNat none })
  else .error .outOfMemory

end Table

end WasmCore
