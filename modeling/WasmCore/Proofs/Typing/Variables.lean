/-
Variables hold numbers of their types.

A variable is a type and a cell of 64 bits, and nothing in the two says that they fit. Whatever is written to a variable is cut
to its type, so one that was `Clean` stays so: across every write, on entering a function, and from there, by steps, throughout
every run of any code (`Config.reaches_cleanFrames`, `Store.Evolves.clean`). A global that was not clean when it was declared is
so only until it is written to (`Store.Evolves.keptGlobal`).

Frames can only be come by through operations that keep them clean (`Frame.Made`), and so are globals (`Global.Made`) unless
someone declares the type of one anew. -/
import WasmCore.Proofs.Steps
import WasmCore.Proofs.Typing.Value

namespace WasmCore

variable {inst : Instance}

/-! ## One variable -/

/-- the cell of the variable is a number of its type -/
def Variable.Clean (v : Variable) : Prop :=
  v.cell.Holds v.type

/-- the cell of the global is a number of its type -/
def Global.Clean (g : Global) : Prop :=
  g.cell.Holds g.type

namespace Variable

theorem clean_write (v : Variable) (c : Cell) : (v.write c).Clean :=
  Cell.holds_mask v.type c

theorem clean_argument (t : ValType) (c : Cell) : (argument t c).Clean :=
  Cell.holds_mask t c

theorem clean_zero (t : ValType) : (zero t).Clean :=
  Cell.holds_of_lt (c := 0) (Nat.zero_le _) (by decide)

end Variable

namespace Global

theorem clean_new (init : Val) (isMutable : Bool) : (new init isMutable).Clean :=
  Cell.holds_toCell init

theorem clean_write (g : Global) (c : Cell) : (g.write c).Clean :=
  Cell.holds_mask g.type c

/-- the globals that the operations on globals give -/
inductive Made : Global → Prop
  | new (init : Val) (isMutable : Bool) : Made (.new init isMutable)
  | write {g : Global} (h : Made g) (c : Cell) : Made (g.write c)
  | setMutable {g : Global} (h : Made g) (isMutable : Bool) : Made { g with isMutable }

theorem Made.clean {g : Global} (h : g.Made) : g.Clean := by
  induction h with
  | new init isMutable => exact clean_new init isMutable
  | write _ c => exact clean_write _ c
  | setMutable _ _ ih => exact ih

/-- A type that is written over another one leaves the cell as it is; so it may not fit. -/
example : ¬ Global.Clean { new (.i64 (-1)) true with type := .i32 } := by
  show ¬ Cell.Holds .i32 _
  rw [Cell.holds_i32_iff]
  decide

end Global

/-! ## Frames -/

/-- the cells of all variables are numbers of their types -/
def Frame.Clean (f : Frame) : Prop :=
  ∀ v ∈ f.vars, v.Clean

namespace Frame

variable {f f' : Frame}

theorem clean_empty : empty.Clean := nofun

theorem Clean.write (h : f.Clean) (i : UInt32) (c : Cell) : (f.write i c).Clean := by
  intro v hv
  obtain ⟨n, hn⟩ := Array.getElem?_of_mem hv
  rw [Frame.write, Array.getElem?_modify] at hn
  split at hn
  · obtain ⟨w, -, rfl⟩ := Option.map_eq_some_iff.1 hn
    exact w.clean_write c
  · exact h v (Array.mem_of_getElem? hn)

theorem Clean.set (h : f.Clean) {i : UInt32} {c : Cell} (hs : f.set i c = .ok f') : f'.Clean := by
  unfold Frame.set at hs
  split at hs
  · cases hs
    exact h.write i c
  · cases hs

/-- whatever the arguments are, a function starts with clean locals -/
theorem clean_enter {stack rest : OperandStack} {params locals : List ValType}
    (h : enter stack params locals = .ok (f, rest)) : f.Clean := by
  unfold enter at h
  cases hp : stack.popMany params.length with
  | error t =>
    rw [hp] at h
    cases h
  | ok popped =>
    rw [hp] at h
    cases h
    intro v hv
    rcases List.mem_append.1 (Array.mem_toList_iff.2 hv) with hv | hv
    · obtain ⟨n, hn⟩ := List.getElem?_of_mem hv
      obtain ⟨t, c, -, -, rfl⟩ := List.getElem?_zipWith_eq_some.1 hn
      exact Variable.clean_argument t c
    · obtain ⟨t, -, rfl⟩ := List.mem_map.1 hv
      exact Variable.clean_zero t

end Frame

theorem State.Evolves.clean {s t : State} (h : s.Evolves t) (hs : s.frame.Clean) : t.frame.Clean := by
  induction h with
  | refl => exact hs
  | tail _ hc ih =>
    cases hc with
    | store => exact ih
    | setLocal => exact ih.write _ _

/-! ## Globals -/

/-- the global with this index is the declared one, and has its cell or one that was written to it -/
def Store.KeptGlobal (s : Store) (n : Nat) (declared : Global) : Prop :=
  ∃ g, s.globals[n]? = some g ∧ g.type = declared.type ∧ (g.cell = declared.cell ∨ g.Clean)

/-- the global with this index has the type, and is clean -/
def Store.CleanGlobal (s : Store) (n : Nat) (t : ValType) : Prop :=
  ∃ g, s.globals[n]? = some g ∧ g.type = t ∧ g.Clean

/-- the globals of a scope are there with their types, and clean -/
def Store.CleanGlobals (S : Scope) (s : Store) : Prop :=
  ∀ (n : Nat) (t : ValType) (m : Bool), S.globals[n]? = some (t, m) → s.CleanGlobal n t

namespace Store

variable {s t : Store} {n : Nat} {declared : Global} {type : ValType}

theorem KeptGlobal.write (h : s.KeptGlobal n declared) (i : UInt32) (c : Cell) : (s.writeGlobal i c).KeptGlobal n declared := by
  obtain ⟨g, hg, htype, hkept⟩ := h
  by_cases hi : i.toNat = n
  · refine ⟨g.write c, ?_, htype, .inr (g.clean_write c)⟩
    rw [writeGlobal, Array.getElem?_modify, if_pos hi, hg, Option.map_some]
  · refine ⟨g, ?_, htype, hkept⟩
    rw [writeGlobal, Array.getElem?_modify, if_neg hi, hg]

/-- **Whatever the code is, a run keeps the cell of a global or writes a clean one** -/
theorem Evolves.keptGlobal (h : s.Evolves t) (hs : s.KeptGlobal n declared) : t.KeptGlobal n declared := by
  induction h with
  | refl => exact hs
  | tail _ hc ih =>
    cases hc with
    | stack | depth | write | grow =>
      -- by the globals alone, since comparing the stores would compute memories
      obtain ⟨g, hg, hkept⟩ := ih
      exact ⟨g, hg, hkept⟩
    | setGlobal => exact ih.write _ _

/-- a global that was declared clean is clean -/
theorem KeptGlobal.clean (h : s.KeptGlobal n declared) (hclean : declared.Clean) : s.CleanGlobal n declared.type := by
  obtain ⟨g, hg, htype, hcell | hg'⟩ := h
  · refine ⟨g, hg, htype, ?_⟩
    rw [Global.Clean, hcell, htype]
    exact hclean
  · exact ⟨g, hg, htype, hg'⟩

theorem Evolves.clean (h : s.Evolves t) (hs : s.CleanGlobal n type) : t.CleanGlobal n type := by
  obtain ⟨g, hg, rfl, hclean⟩ := hs
  exact (h.keptGlobal ⟨g, hg, rfl, .inl rfl⟩).clean hclean

theorem Evolves.cleanGlobals {S : Scope} (h : s.Evolves t) (hs : s.CleanGlobals S) : t.CleanGlobals S :=
  fun n type m hn => h.clean (hs n type m hn)

end Store

/-! ## Runs -/

namespace Config

variable {S : Scope} {c c' : Config}

/-- the locals of all active functions are clean -/
structure CleanFrames (c : Config) : Prop where
  frame : c.state.frame.Clean
  callers : ∀ caller ∈ c.callers, caller.frame.Clean

/-- all variables are clean -/
structure Clean (S : Scope) (c : Config) : Prop where
  frames : c.CleanFrames
  globals : c.state.store.CleanGlobals S

theorem CleanFrames.outermost (h : c.CleanFrames) : c.outermostFrame.Clean := by
  unfold outermostFrame
  cases hlast : c.callers.getLast? with
  | none => exact h.frame
  | some caller => exact h.callers caller (List.mem_of_getLast? hlast)

/-- **Whatever the code is, a step keeps locals clean** -/
theorem step_cleanFrames (c : Config) (h : c.CleanFrames) :
    (c.step inst).Holds CleanFrames (·.state.frame.Clean) := by
  have hsteps := @step_cases inst c
  generalize c.step inst = p at hsteps ⊢
  cases hsteps with
  | within changes => exact ⟨changes.clean h.frame, h.callers⟩
  | entered changes _ enter waits =>
    exact ⟨Frame.clean_enter enter, List.forall_mem_cons.2 ⟨waits ▸ changes.clean h.frame, h.callers⟩⟩
  | left _ waiting =>
    obtain ⟨hcaller, hcallers⟩ := List.forall_mem_cons.1 (waiting ▸ h.callers)
    exact ⟨hcaller, hcallers⟩
  | @failed s control _ _ changes =>
    exact CleanFrames.outermost (c := ⟨s, control, c.callers⟩) ⟨changes.clean h.frame, h.callers⟩
  | @short s caller callers _ _ _ _ waiting =>
    obtain ⟨hcaller, hcallers⟩ := List.forall_mem_cons.1 (waiting ▸ h.callers)
    exact CleanFrames.outermost (c := ⟨⟨_, caller.frame⟩, caller.control, callers⟩) ⟨hcaller, hcallers⟩
  | ended changes _ => exact changes.clean h.frame

theorem reaches_cleanFrames (h : c.CleanFrames) (hr : c.Reaches inst c') : c'.CleanFrames :=
  reaches_holds step_cleanFrames h hr

/-- the frame that a run of any code gives back -/
theorem run_cleanFrame (h : c.CleanFrames) {fuel : Nat} {o : Outcome} (hr : run inst fuel c = some o) :
    o.state.frame.Clean :=
  run_holds step_cleanFrames h hr

theorem start_cleanFrames {state : State} (h : state.frame.Clean) (code : List Instr) : (start state code).CleanFrames :=
  ⟨h, nofun⟩

theorem reaches_clean (h : c.Clean S) (hr : c.Reaches inst c') : c'.Clean S :=
  ⟨reaches_cleanFrames h.frames hr, (reaches_evolves hr).cleanGlobals h.globals⟩

end Config

end WasmCore
