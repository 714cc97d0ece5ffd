/-
Canonical cells.

A number of 32 bits is kept in a cell whose high half is clear (`Cell.Canonical`), though nothing in the cell says what it
holds. `Machine.canonical_cells` says where that can be relied on, however a machine is used:
- in globals and in the locals of active functions always, also in code that is not valid, since whatever is written to them is
  cut to the type that they are declared with;
- on the operand stack in an invocation of valid code, for the cells that validation calls `i32` or `f32`, from the arguments
  through every step to the results. Which cells these are depends only on where the functions stand in their bodies.

The variables that an embedding program supplies are those that it can get: frames that were entered, written to or given back by
a run (`Frame.Made`), and globals that were made from a value or written to (`Global.Made`).
-/
import WasmCore.Proofs.Embedding.CallDepth
import WasmCore.Proofs.Typing.Embedded
import WasmCore.Proofs.Typing.Soundness
import WasmCore.Proofs.Typing.StaticTypes

namespace WasmCore

/-! ## Cells -/

/-- The cell is as a value of the type is written: the high half of one of 32 bits is clear, and writing what the cell is
read as gives the same cell. -/
structure Cell.Canonical (t : ValType) (c : Cell) : Prop where
  high : t.width = .w32 → c >>> 32 = 0
  rewritten : (Val.ofCell t c).toCell = c

/-- the cells are so, one by one -/
abbrev CanonicalCells (ts : List ValType) (cs : List Cell) : Prop :=
  List.Forall₂ Cell.Canonical ts cs

theorem Cell.Holds.canonical {t : ValType} {c : Cell} (h : c.Holds t) : c.Canonical t where
  high := by
    intro hw
    have hlt : c.toNat < 2 ^ 32 := Cell.holds_i32_iff.1 (h.cast hw)
    apply BitVec.eq_of_toNat_eq
    rw [BitVec.toNat_ushiftRight, Nat.shiftRight_eq_div_pow, Nat.div_eq_of_lt hlt]
    rfl
  rewritten := h

theorem Cells.canonical {cs : List Cell} {ts : List ValType} (h : Cells cs ts True) : CanonicalCells ts cs :=
  (List.Forall₂.imp (fun _ _ hc => (hc trivial).canonical) h).flip

/-! ## Variables -/

/-- the locals of a frame are those that the types declare, and their cells are canonical -/
structure Frame.Canonical (ts : List ValType) (f : Frame) : Prop where
  size : f.size = ts.length
  cells : ∀ (n : Nat) (t : ValType), ts[n]? = some t → ∃ v : Variable, f.vars[n]? = some v ∧ v.cell.Canonical t

theorem Frame.Clean.canonical {f : Frame} (h : f.Clean) : f.Canonical f.types where
  size := by simp [types, Frame.size]
  cells := by
    intro n t hn
    rw [types, List.getElem?_map, Array.getElem?_toList, Option.map_eq_some_iff] at hn
    obtain ⟨v, hv, rfl⟩ := hn
    exact ⟨v, hv, (h v (Array.mem_of_getElem? hv)).canonical⟩

/-- the frames that an embedding program can get -/
inductive Frame.Made : Frame → Prop
  | empty : Made .empty
  | enter {stack rest : OperandStack} {params locals : List ValType} {f : Frame}
      (h : Frame.enter stack params locals = .ok (f, rest)) : Made f
  | set {f f' : Frame} {i : UInt32} {c : Cell} (h : Made f) (write : f.set i c = .ok f') : Made f'
  /-- a frame that a sequence was run with -/
  | executed {m m' : Machine} {fuel : Nat} {code : List Instr} {f f' : Frame} {result : Except ExecError Unit} (h : Made f)
      (run : m.execute fuel code f = some (result, f', m')) : Made f'

/-- a run of any code gives back a clean frame for a clean one, of the same types -/
theorem Frame.Clean.executed {f f' : Frame} (h : f.Clean) {m m' : Machine} {fuel : Nat} {code : List Instr}
    {result : Except ExecError Unit} (hrun : m.execute fuel code f = some (result, f', m')) :
    f'.Clean ∧ f'.types = f.types := by
  simp only [Machine.execute, Option.map_eq_some_iff] at hrun
  obtain ⟨o, hrun, heq⟩ := hrun
  cases heq
  exact ⟨Config.run_cleanFrame (Config.start_cleanFrames h code) hrun, Config.run_types (Config.start_activations code) hrun⟩

theorem Frame.Made.clean {f : Frame} (h : f.Made) : f.Clean := by
  induction h with
  | empty => exact clean_empty
  | enter h => exact clean_enter h
  | set _ write ih => exact ih.set write
  | executed _ run ih => exact (ih.executed run).1

/-- in a run of valid code the cells are of these types -/
theorem Config.Typed.cells {S : Scope} {base : List Cell} {final : List ValType} {c : Config}
    (h : c.Typed S base final True) :
    ∃ ts top, c.StaticTypes S ts ∧ c.state.store.stack.cells = top ++ base ∧ CanonicalCells ts top := by
  obtain ⟨P, n, labels, ts, below, under, scope, hopen, hwaiting, hstate⟩ := h
  obtain ⟨top, hstack, hcells⟩ := hstate.stack
  exact ⟨_, top, ⟨P, n, labels, ts, below, under, _, _, scope, hstate.locals, hopen, hwaiting, rfl⟩, hstack, hcells.canonical⟩

/-- a function starts with clean variables, if the globals are -/
theorem Function.enter_clean {inst : Instance} {f : Function} {s store : Store} {frame : Frame}
    (henter : f.enter inst s = .ok (frame, store)) {S : Scope} (hs : s.CleanGlobals S) (code : List Instr) :
    Config.Clean S (.start ⟨store, frame⟩ code) := by
  obtain ⟨-, stack, hstack, rfl⟩ := Function.enter_ok henter
  exact ⟨Config.start_cleanFrames (Frame.clean_enter hstack) code, hs⟩

namespace Machine

variable {mod : Module} {m m' entry : Machine} {request : Request} {entered fuel : Nat} {c : Config}

/-- a request changes the globals only as instructions do -/
theorem Visits.evolves (hvisits : m.Visits request entered c) :
    ∃ s : Store, s.globals = m.store.globals ∧ s.Evolves c.state.store := by
  cases hvisits with
  | sequence reaches => exact ⟨m.store, rfl, Config.reaches_evolves reaches⟩
  | @body _ entry _ _ _ _ store _ enters function code_eq enter reaches =>
    obtain ⟨-, stack, -, rfl⟩ := Function.enter_ok enter
    have hentry : entry.store.globals = m.store.globals := by cases enters <;> rfl
    exact ⟨{ entry.store with stack, depth := entry.store.depth + 1 }, hentry, Config.reaches_evolves reaches⟩

/-- an invocation has its arguments on top of what was on the stack -/
theorem Enters.arguments {name : String} {args : List Val} {i : UInt32} {f : Function}
    (h : m.Enters (.invoke name args) entry i) (hf : m.inst.function i = .ok f) :
    ∃ stack top, entry = m.withStack stack ∧ stack.cells = top ++ m.stack.cells ∧ Cells top f.type.ins True := by
  cases h with
  | invoke _ function types =>
    cases hf.symm.trans function
    refine ⟨_, _, rfl, OperandStack.cells_pushAll _ _, ?_⟩
    rw [FuncType.ins, ← types]
    exact List.rel_reverse (Cells.map_toCell args)

/-- An invocation of valid code runs well typed, over what was on the stack before its arguments. -/
theorem Visits.typed (hv : mod.ValidBodies) (h : m.From mod) (hglobals : m.store.CleanGlobals mod.scope) {name : String}
    {args : List Val} (hvisits : m.Visits (.invoke name args) entered c) :
    ∃ final, c.Typed mod.scope m.stack.cells final True := by
  cases hvisits with
  | @body _ entry _ f code frame store _ enters function code_eq enter reaches =>
    obtain ⟨stack, top, rfl, hstack, hargs⟩ := enters.arguments function
    have hstart : Config.Typed mod.scope store.stack.cells f.type.outs (.start ⟨store, frame⟩ code) True :=
      h.start_typed hv function code_eq (h.withStack stack).globals enter
    have hclean := Function.enter_clean enter hglobals code
    rw [Function.enter_under enter (hargs.length_eq.trans f.type.length_ins) hstack] at hstart
    exact ⟨_, h.reaches_typed hv hstart (fun _ => hclean) reaches⟩

/-- whatever is done with a machine, a global has its cell or one that was written to it -/
theorem Later.keptGlobal (hl : m.Later m') {n : Nat} {declared : Global} (h : m.store.KeptGlobal n declared) :
    m'.store.KeptGlobal n declared := by
  induction hl with
  | refl => exact h
  | tail _ hu ih =>
    cases hu with
    | request hp => exact (perform_evolves hp).store.keptGlobal ih
    | setStack | writeMemory | growMemory | setTable => exact ih
    | setGlobal hg =>
      rw [setGlobal_eq hg]
      exact ih.write _ _

end Machine

end WasmCore
