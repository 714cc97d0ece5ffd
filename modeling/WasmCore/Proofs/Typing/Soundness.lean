/-
Type soundness: an invocation of a valid module answers values of the declared types, or one of the expected traps.

`Config.run_typed` covers the run of one body. Here it is carried to the calls by which an embedding program starts a
run, and to any sequence of them: whatever an invocation does, the machine remains one of the same module, with the same
types of globals and the same operand stack (`Machine.Of`), so the next invocation starts from where validation left it.
-/
import WasmCore.Machine.Basic
import WasmCore.Proofs.Typing.Run

namespace WasmCore

/-- a valid module gives an instance on which its code can run -/
theorem Module.Valid.fits {mod : Module} (h : mod.Valid) {inst : Instance} (types : inst.types = mod.types)
    (functions : inst.functions = mod.functions) (tables : inst.tables = mod.tables) : inst.Fits mod.scope where
  types := types
  signatures := by rw [functions]; rfl
  tables := by rw [tables]; rfl
  valid := by rw [functions]; exact h.functions
  elements := by rw [functions, tables]; exact h.tables

namespace Machine

/-! ## Machines of a module -/

/-- a machine of the module, whose operand stack holds `base`; only the contents of memory and globals vary -/
structure Of (mod : Module) (base : List Cell) (m : Machine) : Prop where
  types : m.inst.types = mod.types
  functions : m.inst.functions = mod.functions
  tables : m.inst.tables = mod.tables
  exports : m.exports = mod.exports
  globals : m.store.globals.map Global.kind = mod.scope.globals
  stack : m.stack.cells = base

/-- the machines of a module under the given limits, after any invocations that finished -/
inductive Reached (mod : Module) (limits : Limits) : Machine → Prop
  | instantiated {m} (h : instantiate mod limits = .ok m) : Reached mod limits m
  | invoked {m m' fuel name args result} (h : Reached mod limits m)
      (call : m.invoke fuel name args = some (result, m')) : Reached mod limits m'

theorem instantiate_of {mod : Module} {limits : Limits} {m : Machine} (h : instantiate mod limits = .ok m) :
    m.Of mod [] := by
  simp only [instantiate, bind, Except.bind] at h
  split at h
  · cases h
  · cases h
    exact ⟨rfl, rfl, rfl, rfl, rfl, rfl⟩

section Calls

variable {mod : Module} {m m' : Machine} {base cells : List Cell} {fuel : Nat}

/-- whoever changes only the stack keeps the rest of the machine -/
theorem Of.withStack (h : m.Of mod base) {stack : OperandStack} (hs : stack.cells = cells) :
    (m.withStack stack).Of mod cells :=
  ⟨h.types, h.functions, h.tables, h.exports, h.globals, hs⟩

/-- Calling the function, a host function fails with this trap of its own: that function itself, or one that is called while
its body is run. -/
inductive Raises (m : Machine) (i : UInt32) (t : Trap) : Prop
  | host {f : Function} {h : HostFunc} (function : m.inst.function i = .ok f) (body_eq : f.body = .host h)
      (raises : h.Raises m.stack t) : Raises m i t
  | within {f : Function} {code : List Instr} {frame : Frame} {store : Store} (function : m.inst.function i = .ok f)
      (body_eq : f.body = .code code) (enter : f.enter m.inst m.store = .ok (frame, store))
      (raises : Config.RaisesLater m.inst (.start ⟨store, frame⟩ code) t) : Raises m i t

/-- a call over `base` that has answered leaves what it promised there: results, or more than it found and a reason -/
def Answered (mod : Module) (raised : Trap → Prop) (base : List Cell) (outs : List ValType) :
    Except ExecError Unit → Machine → Prop
  | .ok (), m => ∃ top, m.Of mod (top ++ base) ∧ Cells top outs
  | .error e, m => e.trap.Expected raised ∧ ∃ top, m.Of mod (top ++ base)

/-- a guest function, started with its arguments on the stack -/
theorem callGuest_typed (hv : mod.Valid) {args : List Cell} (hm : m.Of mod (args ++ base)) {i : UInt32} {f : Function}
    (hf : m.inst.function i = .ok f) (hmem : f ∈ mod.functions) {code : List Instr} (hbody : f.body = .code code)
    (hargs : Cells args f.type.ins) {result : Except ExecError Unit} (h : m.callGuest fuel f code = some (result, m')) :
    Answered mod (m.Raises i) base f.type.outs result m' := by
  have hvalid := (hv.functions f hmem).code code hbody
  have hlen : args.length = f.type.params.length := by
    rw [hargs.length_eq, FuncType.length_ins]
  rw [callGuest_eq] at h
  by_cases hd : m.inst.maxCallDepth ≤ m.store.depth
  · rw [f.enter_full hd] at h
    cases h
    exact ⟨.callStackExhausted, args, hm⟩
  · obtain ⟨frame, stack, hframe, hstack, htypes⟩ := Frame.enter_typed f.locals hm.stack hlen
    have henter : f.enter m.inst m.store = .ok (frame, { m.store with stack, depth := m.store.depth + 1 }) := by
      have hframe : Frame.enter m.store.stack f.type.params f.locals = .ok (frame, stack) := hframe
      rw [Function.enter, if_neg hd, hframe]
      rfl
    rw [henter] at h
    obtain ⟨o, hrun, hreturned⟩ := Option.map_eq_some_iff.1 h
    have hstart : Config.Typed mod.scope base f.type.outs (.start
        ⟨{ m.store with stack, depth := m.store.depth + 1 }, frame⟩ code) :=
      ⟨f.place mod.scope, base.length, _, [], [], [], rfl, .start hvalid, .outermost,
        ⟨[], hstack, .nil⟩, htypes, hm.globals⟩
    have hfits : m.inst.Fits mod.scope := hv.fits hm.types hm.functions hm.tables
    have ho : o.Typed (m.Raises i) mod.scope base f.type.outs :=
      (Config.run_typed hfits hstart False.elim hrun).mono fun _ => .within hf hbody henter
    obtain ⟨answer, state⟩ := o
    cases answer with
    | error e =>
      cases hreturned
      obtain ⟨hexp, ⟨top, htop⟩, hglobals⟩ := ho
      exact ⟨hexp, top, hm.types, hm.functions, hm.tables, hm.exports, hglobals, htop.symm⟩
    | ok _ =>
      obtain ⟨P, extra, hP, hs⟩ := ho
      obtain ⟨cut, hu, hs'⟩ := State.Typed.unwind _ extra [] (by rw [List.append_nil]; exact hs)
      have hh : base.length + ([] : List ValType).length = stack.height := by rw [stack.height_eq, hstack]; rfl
      rw [hh, FuncType.length_outs] at hu
      simp only [returned, Machine.stack, hu] at hreturned
      cases hreturned
      obtain ⟨top, hcells, htop⟩ := hs'.stack
      rw [List.append_nil] at htop
      exact ⟨top, ⟨hm.types, hm.functions, hm.tables, hm.exports, by rw [← hP]; exact hs'.globals, hcells⟩, htop⟩

/-- any function, started with its arguments on the stack -/
theorem callFunction_typed (hv : mod.Valid) {args : List Cell} (hm : m.Of mod (args ++ base)) {i : UInt32} {f : Function}
    (hf : m.inst.function i = .ok f) (hmem : f ∈ mod.functions) (hargs : Cells args f.type.ins)
    {result : Except ExecError Unit} (h : m.callFunction fuel i = some (result, m')) :
    Answered mod (m.Raises i) base f.type.outs result m' := by
  simp only [callFunction, hf] at h
  cases hbody : f.body with
  | code code =>
    simp only [hbody] at h
    exact callGuest_typed hv hm hf hmem hbody hargs h
  | host host =>
    have hcall := (hv.functions f hmem).host_typed hbody hm.stack hargs fun _ => Raises.host hf hbody
    simp only [hbody] at h
    generalize host.call m.stack = called at hcall h
    obtain ⟨answer, stack⟩ := called
    cases answer with
    | ok _ =>
      cases h
      obtain ⟨top, hstack, htop⟩ := hcall
      exact ⟨top, hm.withStack hstack, htop⟩
    | error t =>
      cases h
      obtain ⟨hstack, hexpected⟩ := hcall
      exact ⟨hexpected, [], hm.withStack hstack⟩

/-- what a call answers, with the declared results `ts`: values of these types, or an expected trap -/
def Sound (raised : Trap → Prop) (ts : List ValType) : Except ExecError (List Val) → Prop
  | .ok vs => vs.map Val.type = ts
  | .error e => e.trap.Expected raised

theorem popValues_typed {ts : List ValType} {top : List Cell} (hm : m.Of mod (top ++ base)) (ht : Cells top ts.reverse) :
    ∃ vs m', m.popValues ts = .ok (vs, m') ∧ vs.map Val.type = ts ∧ m'.Of mod base := by
  have hlen : top.length = ts.length := by rw [ht.length_eq, List.length_reverse]
  obtain ⟨stack, hp, hstack⟩ := OperandStack.popMany_append hm.stack
  rw [hlen] at hp
  refine ⟨_, _, by rw [popValues, hp]; rfl, ?_, hm.withStack hstack⟩
  exact Val.types_ofCells ts top.reverse (by rw [List.length_reverse, hlen])

/-- a call by index, which takes its arguments off the stack in any case, and its results if it succeeds -/
theorem call_typed (hv : mod.Valid) {args : List Cell} (hm : m.Of mod (args ++ base)) {i : UInt32} {f : Function}
    (hf : m.inst.function i = .ok f) (hmem : f ∈ mod.functions) (hargs : Cells args f.type.ins)
    {result : Except ExecError (List Val)} (h : m.call fuel i = some (result, m')) :
    Sound (m.Raises i) f.type.results result ∧ ∃ top, m'.Of mod (top ++ base) ∧ (result.isOk → top = []) := by
  simp only [call, hf, Option.bind_eq_some_iff] at h
  obtain ⟨⟨answer, m₁⟩, hcall, h⟩ := h
  have ha := callFunction_typed hv hm hf hmem hargs hcall
  cases answer with
  | error e =>
    cases h
    obtain ⟨hexp, top, hm'⟩ := ha
    exact ⟨hexp, top, hm', fun h => by cases h⟩
  | ok _ =>
    obtain ⟨top, hm', htop⟩ := ha
    obtain ⟨vs, m₂, hp, hty, hm₂⟩ := popValues_typed hm' htop
    simp only [hp] at h
    cases h
    exact ⟨hty, [], hm₂, fun _ => rfl⟩

/-- the machine that a function is called on by an invocation, with its arguments on the stack -/
def withArguments (m : Machine) (args : List Val) : Machine :=
  m.withStack (m.stack.pushAll (args.map Val.toCell))

/-- An invocation leaves a machine of the module with the stack that it found. If it was one of a function of the module
with arguments of the declared types, then its answer is sound. -/
theorem invoke_typed (hv : mod.Valid) (hm : m.Of mod base) {name : String} {args : List Val}
    {result : Except ExecError (List Val)} (h : m.invoke fuel name args = some (result, m')) :
    m'.Of mod base ∧ ∀ index f, mod.findExport name = some index → mod.functions[index.toNat]? = some f →
      args.map Val.type = f.type.params → Sound ((m.withArguments args).Raises index) f.type.results result := by
  have hexport : m.findExport name = mod.findExport name := by
    rw [findExport, hm.exports]; rfl
  simp only [invoke, hexport] at h
  cases hname : mod.findExport name with
  | none =>
    simp only [hname] at h
    cases h
    exact ⟨hm, fun _ _ hi => by cases hi⟩
  | some index =>
    simp only [hname] at h
    cases hf : mod.functions[index.toNat]? with
    | none =>
      have hfun : m.inst.function index = .error (.undefinedFunction index) := by
        simp only [Instance.function, hm.functions, hf]
      simp only [hfun] at h
      cases h
      exact ⟨hm, fun i f hi hf' => by cases hi; rw [hf] at hf'; cases hf'⟩
    | some f =>
      have hfun : m.inst.function index = .ok f := by simp only [Instance.function, hm.functions, hf]
      simp only [hfun] at h
      split at h
      · rename_i hargs
        cases h
        exact ⟨hm, fun i g hi hg ht => by cases hi; rw [hf] at hg; cases hg; exact absurd ht hargs⟩
      · rename_i hargs
        rw [Option.bind_eq_some_iff] at h
        obtain ⟨⟨answer, m₁⟩, hcall, h⟩ := h
        have hty : args.map Val.type = f.type.params := Decidable.not_not.1 hargs
        have hcells : Cells (args.map Val.toCell).reverse f.type.ins := by
          rw [FuncType.ins, ← hty]
          exact List.rel_reverse (Cells.map_toCell args)
        have hpushed : (m.withArguments args).Of mod ((args.map Val.toCell).reverse ++ base) :=
          hm.withStack (by rw [OperandStack.cells_pushAll, hm.stack])
        obtain ⟨hsound, top, hm₁, htop⟩ := call_typed hv hpushed hfun (Array.mem_of_getElem? hf) hcells hcall
        have hheight : m.stack.height = base.length := by rw [m.stack.height_eq, hm.stack]
        cases answer with
        | ok vs =>
          cases h
          rw [htop rfl] at hm₁
          exact ⟨hm₁, fun i g hi hg _ => by cases hi; rw [hf] at hg; cases hg; exact hsound⟩
        | error e =>
          cases h
          refine ⟨hm₁.withStack ?_, fun i g hi hg _ => by cases hi; rw [hf] at hg; cases hg; exact hsound⟩
          rw [hheight]
          exact OperandStack.cells_truncate hm₁.stack

/-- invocations keep the machine one of its module, with an empty stack -/
theorem Reached.of (hv : mod.Valid) {limits : Limits} (h : Reached mod limits m) : m.Of mod [] := by
  induction h with
  | instantiated h => exact instantiate_of h
  | invoked _ call ih => exact (invoke_typed hv ih call).1

end Calls

/-- **Type soundness.** However a machine of a valid module was used before, each of its exports is a function, and an
invocation of it with arguments of the declared types that finishes answers values of exactly the declared result types,
or one of the expected traps: one of the list, or one that a host function has raised itself, which the invocation called.
In either case it leaves the operand stack as it was. The host functions of a valid module stand under their own signatures. -/
theorem invoke_sound {mod : Module} (hv : mod.Valid) {limits : Limits} {m : Machine} (hr : Reached mod limits m)
    {name : String} {index : UInt32} (hexport : mod.findExport name = some index) :
    ∃ f, mod.functions[index.toNat]? = some f ∧ ∀ args, args.map Val.type = f.type.params →
      ∀ fuel result after, m.invoke fuel name args = some (result, after) →
        Sound ((m.withArguments args).Raises index) f.type.results result ∧ after.stack.cells = m.stack.cells := by
  obtain ⟨e, hfind, rfl⟩ := Option.map_eq_some_iff.1 hexport
  have hlt := hv.exports e (Array.mem_of_find?_eq_some hfind)
  refine ⟨mod.functions[e.2.toNat], Array.getElem?_eq_getElem hlt, fun args hargs fuel result after h => ?_⟩
  obtain ⟨hm, hsound⟩ := invoke_typed hv (hr.of hv) h
  exact ⟨hsound _ _ hexport (Array.getElem?_eq_getElem hlt) hargs, by rw [hm.stack, (hr.of hv).stack]⟩

/-- a host function under a signature that is not its own, valid code that calls it, and a host function that always fails -/
def disguised : Module :=
  { Module.empty with
    pages := 0
    functions := #[⟨"h", ⟨[], [.i32]⟩, [], .host ⟨⟨[], []⟩, fun _ => .ok .unit⟩⟩,
      .guest "g" ⟨[], [.i32]⟩ [] [.call 0],
      .ofHost "e" ⟨⟨[], []⟩, fun _ => .error (.hostError "no")⟩]
    exports := #[("h", 0), ("g", 1), ("e", 2)] }

theorem disguised_validCode : ∀ f ∈ disguised.functions, f.ValidCode disguised.scope := by
  intro f hf code hcode
  have hcall : disguised.scope.functions[(0 : UInt32).toNat]? = some ⟨[], [.i32]⟩ := by
    simp [Module.scope, disguised]
  rcases List.mem_cons.1 (Array.mem_toList_iff.2 hf) with rfl | hf
  · cases hcode
  · rcases List.mem_pair.1 hf with rfl | rfl
    · cases hcode
      exact .over [] (.call hcall) .nil
    · cases hcode

/-- its machine with the given cells on the stack -/
def disguisedWith (cells : List Cell) : Machine :=
  ⟨⟨#[], disguised.functions, #[], 2⟩, disguised.exports, ⟨(OperandStack.empty 4).withCells cells, .new 0 none, #[], 0⟩⟩

/-- **Valid code alone is not enough.** All code is valid and every index in use exists; a host function under another signature
lets the cells run out, in its own invocation and in that of the code that calls it. A host function may also fail with a trap
that is not on the list. -/
theorem invoke_unsound :
    (∀ f ∈ disguised.functions, f.ValidCode disguised.scope) ∧
    (∀ e ∈ disguised.exports, e.2.toNat < disguised.functions.size) ∧ disguised.tables = #[] ∧
    instantiate disguised ⟨none, 4, 2⟩ = .ok (disguisedWith []) ∧
    (disguisedWith []).invoke 3 "h" [] = some (.error (.unlocated (.stackUnderflow 1 0)), disguisedWith []) ∧
    (disguisedWith []).invoke 3 "g" [] = some (.error (.unlocated (.stackUnderflow 1 0)), disguisedWith []) ∧
    (disguisedWith []).invoke 3 "e" [] = some (.error (.unlocated (.hostError "no")), disguisedWith []) ∧
    ¬ Trap.ExpectedOfInstr (.stackUnderflow 1 0) ∧ ¬ Trap.ExpectedOfInstr (.hostError "no") :=
  ⟨disguised_validCode, by decide, rfl, rfl, rfl, rfl, rfl, fun h => by cases h with | host h => exact h,
    fun h => by cases h with | host h => exact h⟩

/-- `1 + … + n` for an argument `n`, which a global remembers -/
def summing : Module :=
  let sum := Function.guest "sum" ⟨[.i32], [.i32]⟩ [.i32]
    [.block .empty
      [.localGet 0, .unary (.eqz .w32), .brIf 0,
        .loop .empty
          [.localGet 0, .localGet 1, .binary (.int .w32 .add), .localSet 1,
            .localGet 0, .const (.i32 1), .binary (.int .w32 .sub), .localTee 0, .brIf 0]],
      .localGet 1, .globalSet 0, .globalGet 0, .ret]
  { Module.empty with pages := 0, functions := #[sum], exports := #[("sum", 0)], globals := #[.new (.i32 0) true] }

open Instr in
theorem summing_valid : summing.Valid where
  functions := by
    intro f hf
    obtain rfl := List.mem_singleton.1 (Array.mem_toList_iff.2 hf)
    have hglobal : summing.scope.globals[(0 : UInt32).toNat]? = some (.i32, true) := by
      simp [Module.scope, summing, Global.kind, Global.new, Val.i32]
    refine Function.valid_guest <| .over [] (.block ?_) <| .over [] (.localGet rfl) <| .over [] (.globalSet hglobal) <|
      .over [] (.globalGet hglobal) <| .over [] (@Typed.ret _ [] [.i32]) .nil
    refine .over [] (.localGet rfl) <| .over [] .unary <| .over [] (@Typed.brIf _ 0 [] rfl) <| .over [] (.loop ?_) .nil
    exact .over [] (.localGet rfl) <| .over [.i32] (.localGet rfl) <| .over [] .binary <| .over [] (.localSet rfl) <|
      .over [] (.localGet rfl) <| .over [.i32] .const <| .over [] .binary <| .over [] (.localTee rfl) <|
      .over [] (@Typed.brIf _ 0 [] rfl) .nil
  exports := by decide
  tables := by intro t ht; cases Array.not_mem_empty _ ht

/-- the sum up to 4 after the sum up to 3, both on one machine -/
theorem invoke_sound_summing : ∃ m first second : Machine, instantiate summing .default = .ok m ∧
    m.invoke 80 "sum" [.i32 3] = some (.ok [.i32 6], first) ∧
    first.invoke 80 "sum" [.i32 4] = some (.ok [.i32 10], second) ∧
    Sound ((first.withArguments [.i32 4]).Raises 0) [.i32] (.ok [.i32 10]) ∧ second.stack.cells = first.stack.cells := by
  have hrun : ((instantiate summing .default).toOption.bind fun m => (m.invoke 80 "sum" [.i32 3]).bind fun first =>
      (first.2.invoke 80 "sum" [.i32 4]).map fun second => (first.1, second.1)) =
        some (.ok [.i32 6], .ok [.i32 10]) := by
    decide
  simp only [Option.bind_eq_some_iff, Option.map_eq_some_iff] at hrun
  obtain ⟨m, hm, ⟨r, first⟩, hfirst, ⟨r', second⟩, hsecond, heq⟩ := hrun
  cases heq
  have hm : instantiate summing .default = .ok m := by
    revert hm
    cases instantiate summing .default with
    | error t => intro hm; cases hm
    | ok m => intro hm; cases hm; rfl
  have hexport : summing.findExport "sum" = some 0 := by decide
  obtain ⟨f, hf, h⟩ := invoke_sound summing_valid (.invoked (.instantiated hm) hfirst) hexport
  cases hf
  exact ⟨m, first, second, hm, hfirst, hsecond, h [.i32 4] rfl 80 _ _ hsecond⟩

end Machine

end WasmCore
