/-
What a slot of a table refers to.

`Instance.resolve` looks at the table, the slot, what is in it, the function and its signature, one after another.
`Instance.Refers` is that all of them are as they should be, and `Instance.Refuses` names the first that is not; the slot
resolves to a function in the one case (`resolve_ok_iff`) and to a trap in the other (`resolve_error_iff`), and there is no
third (`resolve_total`). Tables may hold anything, also indices of functions that do not exist.
-/
import WasmCore.Machine.State

namespace WasmCore.Instance

variable {inst : Instance} {tableIndex slot : UInt32} {declared : FuncType}

/-- the slot holds the index `i` of a function that has the declared signature -/
structure Refers (inst : Instance) (tableIndex slot : UInt32) (declared : FuncType) (i : UInt32) : Prop where
  entry : ∃ table, inst.tables[tableIndex.toNat]? = some table ∧ table.elements[slot.toNat]? = some (some i)
  function : ∃ f, inst.functions[i.toNat]? = some f ∧ f.type = declared

/-- the first thing that is wrong with the slot -/
inductive Refuses (inst : Instance) (tableIndex slot : UInt32) (declared : FuncType) : Trap → Prop
  | table (missing : inst.tables[tableIndex.toNat]? = none) :
      Refuses inst tableIndex slot declared (.undefinedTable tableIndex)
  | slot {table : Table} (table_eq : inst.tables[tableIndex.toNat]? = some table)
      (missing : table.elements[slot.toNat]? = none) : Refuses inst tableIndex slot declared (.undefinedElement slot)
  | entry {table : Table} (table_eq : inst.tables[tableIndex.toNat]? = some table)
      (missing : table.elements[slot.toNat]? = some none) :
      Refuses inst tableIndex slot declared (.uninitializedElement slot)
  | function {table : Table} {i : UInt32} (table_eq : inst.tables[tableIndex.toNat]? = some table)
      (entry_eq : table.elements[slot.toNat]? = some (some i)) (missing : inst.functions[i.toNat]? = none) :
      Refuses inst tableIndex slot declared (.undefinedFunction i)
  | signature {table : Table} {i : UInt32} {f : Function} (table_eq : inst.tables[tableIndex.toNat]? = some table)
      (entry_eq : table.elements[slot.toNat]? = some (some i)) (function_eq : inst.functions[i.toNat]? = some f)
      (differs : f.type ≠ declared) : Refuses inst tableIndex slot declared .indirectCallTypeMismatch

theorem function_ok_iff {i : UInt32} {f : Function} : inst.function i = .ok f ↔ inst.functions[i.toNat]? = some f := by
  unfold function
  cases inst.functions[i.toNat]? <;> simp

/-- what is made of the entry, once the slot is found -/
theorem resolve_entry {table : Table} {entry : Option UInt32} (htable : inst.tables[tableIndex.toNat]? = some table)
    (hentry : table.elements[slot.toNat]? = some entry) (declared : FuncType) :
    inst.resolve tableIndex slot declared =
      match entry with
      | none => .error (.uninitializedElement slot)
      | some i =>
        match inst.functions[i.toNat]? with
        | none => .error (.undefinedFunction i)
        | some f => if f.type = declared then .ok i else .error .indirectCallTypeMismatch := by
  simp only [Instance.resolve, Instance.table, htable, bind, Except.bind, Table.get, hentry]
  cases entry with
  | none => rfl
  | some i =>
    simp only [Instance.function]
    cases inst.functions[i.toNat]? <;> rfl

theorem Refers.resolve {i : UInt32} (h : inst.Refers tableIndex slot declared i) :
    inst.resolve tableIndex slot declared = .ok i := by
  obtain ⟨table, htable, hentry⟩ := h.entry
  obtain ⟨f, hf, hty⟩ := h.function
  simp only [resolve_entry htable hentry, hf, if_pos hty]

theorem Refuses.resolve {t : Trap} (h : inst.Refuses tableIndex slot declared t) :
    inst.resolve tableIndex slot declared = .error t := by
  cases h with
  | table htable => simp only [Instance.resolve, Instance.table, htable, bind, Except.bind]
  | slot htable hslot => simp only [Instance.resolve, Instance.table, htable, bind, Except.bind, Table.get, hslot]
  | entry htable hentry => rw [resolve_entry htable hentry]
  | function htable hentry hf => simp only [resolve_entry htable hentry, hf]
  | signature htable hentry hf hty => simp only [resolve_entry htable hentry, hf, if_neg hty]

/-- a slot refers to a function, or something is wrong with it -/
theorem resolve_total (inst : Instance) (tableIndex slot : UInt32) (declared : FuncType) :
    (∃ i, inst.Refers tableIndex slot declared i) ∨ ∃ t, inst.Refuses tableIndex slot declared t := by
  cases htable : inst.tables[tableIndex.toNat]? with
  | none => exact .inr ⟨_, .table htable⟩
  | some table =>
    cases hentry : table.elements[slot.toNat]? with
    | none => exact .inr ⟨_, .slot htable hentry⟩
    | some entry =>
      cases entry with
      | none => exact .inr ⟨_, .entry htable hentry⟩
      | some i =>
        cases hf : inst.functions[i.toNat]? with
        | none => exact .inr ⟨_, .function htable hentry hf⟩
        | some f =>
          by_cases hty : f.type = declared
          · exact .inl ⟨i, ⟨table, htable, hentry⟩, f, hf, hty⟩
          · exact .inr ⟨_, .signature htable hentry hf hty⟩

/-- **A slot resolves to a function exactly if it refers to it** -/
theorem resolve_ok_iff {i : UInt32} :
    inst.resolve tableIndex slot declared = .ok i ↔ inst.Refers tableIndex slot declared i := by
  constructor
  · intro h
    rcases inst.resolve_total tableIndex slot declared with ⟨j, href⟩ | ⟨t, href⟩
    · rw [href.resolve] at h
      cases h
      exact href
    · rw [href.resolve] at h
      cases h
  · exact Refers.resolve

/-- **A slot resolves to a trap exactly if this is the first thing that is wrong with it** -/
theorem resolve_error_iff {t : Trap} :
    inst.resolve tableIndex slot declared = .error t ↔ inst.Refuses tableIndex slot declared t := by
  constructor
  · intro h
    rcases inst.resolve_total tableIndex slot declared with ⟨i, href⟩ | ⟨u, href⟩
    · rw [href.resolve] at h
      cases h
    · rw [href.resolve] at h
      cases h
      exact href
  · exact Refuses.resolve

end WasmCore.Instance
