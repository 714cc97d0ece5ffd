/-
Tables that refer to nothing.

A module may come with indices of missing functions in its tables, and an embedding program may put them there later. A call
through such a slot traps, as one through an empty slot does, only with another trap. So a run goes the same way on the
instance without these references (`Config.run_tidy`): it passes through the same states and ends in the same one. Whatever
type soundness says of states therefore holds without its assumption about tables.
-/
import WasmCore.Proofs.Resolve
import WasmCore.Proofs.Typing.Run

namespace WasmCore

/-- the table without its references beyond so many functions -/
def Table.tidy (functions : Nat) (t : Table) : Table :=
  { t with elements := t.elements.map (Option.filter (·.toNat < functions)) }

/-- the instance without references to functions that do not exist -/
def Instance.tidy (inst : Instance) : Instance :=
  { inst with tables := inst.tables.map (.tidy inst.functions.size) }

namespace Instance

variable {inst : Instance} {tableIndex slot : UInt32} {declared : FuncType}

theorem refers_tidy {i : UInt32} :
    inst.tidy.Refers tableIndex slot declared i ↔ inst.Refers tableIndex slot declared i := by
  constructor
  · rintro ⟨⟨table, htable, hentry⟩, hf⟩
    obtain ⟨table, htable', rfl⟩ := Option.map_eq_some_iff.1 (Array.getElem?_map ▸ htable)
    obtain ⟨entry, hentry', hsome⟩ := Option.map_eq_some_iff.1 (Array.getElem?_map ▸ hentry)
    obtain ⟨rfl, -⟩ := Option.filter_eq_some_iff.1 hsome
    exact ⟨⟨table, htable', hentry'⟩, hf⟩
  · rintro ⟨⟨table, htable, hentry⟩, f, hf, hty⟩
    have hlt : i.toNat < inst.functions.size := (Array.getElem?_eq_some_iff.1 hf).1
    refine ⟨⟨table.tidy inst.functions.size, ?_, ?_⟩, f, hf, hty⟩
    · simp only [tidy, Array.getElem?_map, htable, Option.map_some]
    · simp only [Table.tidy, Array.getElem?_map, hentry, Option.map_some, Option.filter, hlt, decide_true, if_true]

/-- without its dangling references the instance resolves the same slots, each to the same function -/
theorem resolve_tidy (inst : Instance) (tableIndex slot : UInt32) (declared : FuncType) :
    (∃ i, inst.resolve tableIndex slot declared = .ok i ∧ inst.tidy.resolve tableIndex slot declared = .ok i) ∨
    ∃ t u, inst.resolve tableIndex slot declared = .error t ∧ inst.tidy.resolve tableIndex slot declared = .error u := by
  rcases inst.resolve_total tableIndex slot declared with ⟨i, href⟩ | ⟨t, href⟩
  · exact .inl ⟨i, href.resolve, (refers_tidy.2 href).resolve⟩
  · rcases inst.tidy.resolve_total tableIndex slot declared with ⟨i, href'⟩ | ⟨u, href'⟩
    · exact .inl ⟨i, (refers_tidy.1 href').resolve, href'.resolve⟩
    · exact .inr ⟨t, u, href.resolve, href'.resolve⟩

theorem fits_tidy {S : Scope} (types : inst.types = S.types) (signatures : inst.functions.map Function.type = S.functions)
    (tables : inst.tables.size = S.tables) (valid : ∀ f ∈ inst.functions, f.Valid S) : inst.tidy.Fits S where
  types := types
  signatures := signatures
  tables := by rw [tidy, Array.size_map, tables]
  valid := valid
  elements := by
    intro t ht i hi
    obtain ⟨table, -, rfl⟩ := Array.mem_map.1 ht
    obtain ⟨entry, -, hentry⟩ := Array.mem_map.1 hi
    exact of_decide_eq_true (Option.filter_eq_some_iff.1 hentry).2

end Instance

/-! ## Runs -/

/-- an instruction does the same, or traps in the same state -/
theorem Instr.exec_tidy (inst : Instance) (i : Instr) (s : State) :
    i.exec inst.tidy s = i.exec inst s ∨
    ∃ t u s', i.exec inst s = .error t s' ∧ i.exec inst.tidy s = .error u s' := by
  cases i with
  | callIndirect typeIndex tableIndex =>
    simp only [exec, bind, EStateM.bind]
    cases Exec.pop s with
    | error t s => exact .inl rfl
    | ok slot s =>
      dsimp only
      have htype : inst.tidy.type typeIndex = inst.type typeIndex := rfl
      rw [htype]
      cases inst.type typeIndex with
      | error t => exact .inl rfl
      | ok declared =>
        rcases inst.resolve_tidy tableIndex slot.index declared with ⟨i, h, h'⟩ | ⟨t, u, h, h'⟩
        · left
          simp only [ofExcept, pure, EStateM.pure, h, h']
        · right
          simp only [ofExcept, pure, EStateM.pure, h, h']
          exact ⟨t, u, s, rfl, rfl⟩
  | _ => exact .inl rfl

/-- the same outcome, or failures in the same state -/
def Outcome.Tidy (o p : Outcome) : Prop :=
  p = o ∨ ∃ e e' s, o = ⟨.error e, s⟩ ∧ p = ⟨.error e', s⟩

namespace Config

variable {inst : Instance}

/-- a step does the same, or fails in the same state -/
theorem step_tidy (inst : Instance) (c : Config) :
    c.step inst.tidy = c.step inst ∨
    ∃ e e' s, c.step inst = .ended ⟨.error e, s⟩ ∧ c.step inst.tidy = .ended ⟨.error e', s⟩ := by
  unfold step
  cases c.control.next? with
  | none => exact .inl rfl
  | some next =>
    obtain ⟨i, control⟩ := next
    dsimp only
    rcases i.exec_tidy inst c.state with h | ⟨t, u, s, h, h'⟩
    · left
      rw [h]
      cases i.exec inst c.state with
      | error t s => rfl
      | ok flow s => cases flow <;> rfl
    · right
      rw [h, h']
      exact ⟨_, _, _, rfl, rfl⟩

/-- **A run goes the same way without dangling references**, and ends in the same state -/
theorem run_tidy (fuel : Nat) (c : Config) {o : Outcome} (h : run inst fuel c = some o) :
    ∃ p, run inst.tidy fuel c = some p ∧ o.Tidy p := by
  induction fuel generalizing c with
  | zero => cases h
  | succ fuel ih =>
    unfold run at h ⊢
    rcases step_tidy inst c with hs | ⟨e, e', s, hs, hs'⟩
    · rw [hs]
      cases hstep : c.step inst with
      | running c' =>
        rw [hstep] at h
        exact ih c' h
      | ended o' =>
        rw [hstep] at h
        cases h
        exact ⟨o, rfl, .inl rfl⟩
    · rw [hs] at h
      cases h
      exact ⟨_, by rw [hs'], .inr ⟨e, e', s, rfl, rfl⟩⟩

end Config

end WasmCore
