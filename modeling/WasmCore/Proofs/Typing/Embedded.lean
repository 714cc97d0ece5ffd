/-
Valid code on a machine in use.

An embedding program may call functions on a stack that holds anything, and may have replaced globals and tables before. What
it cannot change are the functions, the signatures, the number of tables and the types of globals (`Machine.From`,
`From.later`). That is enough for the shape of the stack: the body of a valid function never takes a cell from under its
arguments, and when it comes to its end its results are on top (`From.run_keeps`).
-/
import WasmCore.Proofs.Embedding.Requests
import WasmCore.Proofs.Typing.Dangling

namespace WasmCore

/-- the bodies are well typed; exports and tables may refer to functions that do not exist -/
def Module.ValidBodies (mod : Module) : Prop :=
  ∀ f ∈ mod.functions, f.Valid mod.scope

theorem Store.kinds_writeGlobal (s : Store) (i : UInt32) (c : Cell) :
    (s.writeGlobal i c).globals.map Global.kind = s.globals.map Global.kind :=
  State.Typed.map_modify s.globals i.toNat (f := fun g => g.write c) (g := Global.kind) fun _ => rfl

theorem Store.Evolves.kinds {s t : Store} (h : s.Evolves t) : t.globals.map Global.kind = s.globals.map Global.kind := by
  induction h with
  | refl => rfl
  | tail _ hc ih =>
    cases hc with
    | stack | depth | write | grow => exact ih
    | setGlobal => exact (kinds_writeGlobal _ _ _).trans ih

namespace Machine

/-- a machine of the module, whatever it holds -/
structure From (mod : Module) (m : Machine) : Prop where
  types : m.inst.types = mod.types
  functions : m.inst.functions = mod.functions
  tables : m.inst.tables.size = mod.tables.size
  globals : m.store.globals.map Global.kind = mod.scope.globals

variable {mod : Module} {m m' : Machine}

theorem instantiate_from {limits : Limits} (h : instantiate mod limits = .ok m) : m.From mod := by
  simp only [instantiate, bind, Except.bind] at h
  split at h
  · cases h
  · cases h
    exact ⟨rfl, rfl, rfl, rfl⟩

namespace From

theorem withStack (h : m.From mod) (stack : OperandStack) : (m.withStack stack).From mod :=
  ⟨h.types, h.functions, h.tables, h.globals⟩

theorem evolves (h : m.From mod) (he : m.Evolves m') : m'.From mod := by
  obtain ⟨hinst, -, hstore⟩ := he
  exact ⟨hinst ▸ h.types, hinst ▸ h.functions, hinst ▸ h.tables, hstore.kinds.trans h.globals⟩

theorem use (h : m.From mod) (hu : m.Use m') : m'.From mod := by
  cases hu with
  | request hp => exact h.evolves (perform_evolves hp)
  | setStack stack => exact h.withStack stack
  | writeMemory | growMemory => exact ⟨h.types, h.functions, h.tables, h.globals⟩
  | setGlobal hg =>
    rw [setGlobal_eq hg]
    exact ⟨h.types, h.functions, h.tables, (m.store.kinds_writeGlobal _ _).trans h.globals⟩
  | setTable t => exact ⟨h.types, h.functions, Array.size_setIfInBounds.trans h.tables, h.globals⟩

/-- any use of the machine leaves it one of its module -/
theorem later (h : m.From mod) (hl : m.Later m') : m'.From mod := by
  induction hl with
  | refl => exact h
  | tail _ hu ih => exact ih.use hu

theorem mem_of_function (h : m.From mod) {i : UInt32} {f : Function} (hf : m.inst.function i = .ok f) :
    f ∈ mod.functions := by
  rw [← h.functions]
  exact Array.mem_of_getElem? (Instance.function_ok_iff.1 hf)

/-- on the instance without dangling references the code is valid -/
theorem fits (hv : mod.ValidBodies) (h : m.From mod) : m.inst.tidy.Fits mod.scope := by
  refine Instance.fits_tidy h.types ?_ h.tables ?_
  · rw [h.functions]
    rfl
  · rw [h.functions]
    exact hv

/-- the body of a valid function starts well typed over the cells that its arguments were taken off -/
theorem start_typed {traced : Prop} (hv : mod.ValidBodies) (h : m.From mod) {i : UInt32} {f : Function}
    (hf : m.inst.function i = .ok f) {code : List Instr} (hbody : f.body = .code code) {s : Store}
    (hglobals : s.globals.map Global.kind = mod.scope.globals) {frame : Frame} {store : Store}
    (henter : f.enter m.inst s = .ok (frame, store)) :
    Config.Typed mod.scope store.stack.cells f.type.outs (.start ⟨store, frame⟩ code) traced := by
  have hvalid := (hv f (h.mem_of_function hf)).code code hbody
  obtain ⟨-, stack, hstack, rfl⟩ := Function.enter_ok henter
  exact ⟨f.place mod.scope, stack.cells.length, _, [], [], [], rfl, .start hvalid, .outermost, ⟨[], rfl, .nil⟩,
    Frame.types_enter hstack, hglobals⟩

/-- what a run comes through stays well typed, if it is traced from clean variables on -/
theorem reaches_typed {traced : Prop} (hv : mod.ValidBodies) (h : m.From mod) {base : List Cell} {final : List ValType}
    {c c' : Config} (hc : c.Typed mod.scope base final traced)
    (hclean : traced → c.Clean mod.scope) (hr : c.Reaches m.inst c') :
    c'.Typed mod.scope base final traced := by
  induction hr with
  | refl => exact hc
  | @tail d c' hreach hs ih =>
    have hsharp (ht : traced) : d.state.Clean mod.scope :=
      have hd := Config.reaches_clean (hclean ht) hreach
      ⟨hd.frames.frame, hd.globals⟩
    rcases Config.step_tidy m.inst d with htidy | ⟨e, e', s, hends, -⟩
    · have hstep := Config.step_typed (h.fits hv) ih hsharp
      rw [htidy, hs] at hstep
      exact hstep
    · rw [hends] at hs
      cases hs

/-- a run that succeeds leaves its results on top -/
theorem run_returns {traced : Prop} (hv : mod.ValidBodies) (h : m.From mod) {base : List Cell} {final : List ValType}
    {c : Config} (hc : c.Typed mod.scope base final traced) (hclean : traced → c.Clean mod.scope) {fuel : Nat} {o : Outcome}
    (hrun : Config.run m.inst fuel c = some o) :
    base <:+ o.state.store.stack.cells ∧
      (o.result = .ok () → ∃ P extra, P.scope = mod.scope ∧ o.state.Typed P base (final ++ extra) traced) := by
  obtain ⟨p, hrun', htidy⟩ := Config.run_tidy fuel c hrun
  have hp := Config.run_typed (h.fits hv) hc hclean hrun'
  unfold Outcome.Typed at hp
  rcases htidy with rfl | ⟨e, e', s, rfl, rfl⟩
  · cases hresult : p.result with
    | error e =>
      rw [hresult] at hp
      exact ⟨hp.stack, nofun⟩
    | ok _ =>
      simp only [hresult] at hp
      obtain ⟨P, extra, hP, hs⟩ := hp
      obtain ⟨top, htop, -⟩ := hs.stack
      exact ⟨⟨top, htop.symm⟩, fun _ => ⟨P, extra, hP, hs⟩⟩
  · exact ⟨hp.stack, nofun⟩

/-- **The body of a valid function keeps what is under its arguments**, and leaves its results if it comes to its end -/
theorem run_keeps (hv : mod.ValidBodies) (h : m.From mod) {i : UInt32} {f : Function} (hf : m.inst.function i = .ok f)
    {code : List Instr} (hbody : f.body = .code code) {frame : Frame} {store : Store}
    (henter : f.enter m.inst m.store = .ok (frame, store)) {fuel : Nat} {o : Outcome}
    (hrun : Config.run m.inst fuel (.start ⟨store, frame⟩ code) = some o) :
    store.stack.cells <:+ o.state.store.stack.cells ∧
      (o.result = .ok () → store.stack.height + f.type.results.length ≤ o.state.store.stack.height) := by
  obtain ⟨hsuffix, hreturns⟩ := h.run_returns hv (h.start_typed hv hf hbody h.globals henter) False.elim hrun
  refine ⟨hsuffix, fun hok => ?_⟩
  obtain ⟨P, extra, -, hs⟩ := hreturns hok
  rw [hs.height_eq, List.length_append, FuncType.length_outs, store.stack.height_eq]
  omega

end From

end Machine

end WasmCore
