/-
Well-typed configurations.

The cells of a run lie in layers over the cells `base` that were there before it: the waiting functions from the
outermost one on, within each function its open constructs from the outermost one on, and on top what the innermost
sequence has computed so far. `Control.Typed` is the invariant for the layers of one function, `Waiting` for the
functions below it: the rest of every sequence is well typed over its own layer, and every recorded height is that of
the layers underneath. A branch to a label then finds exactly that label's layers under the cells it carries.

What the rest of a sequence needs of its layer may leave the types open, as in code that only drops a cell. An invariant that
is `traced` says as well what was left there by the part that has been run, and that the cells are numbers of these types.
-/
import WasmCore.Proofs.Entry
import WasmCore.Proofs.Innermost
import WasmCore.Proofs.Typing.Instruction

namespace WasmCore

open Instr (BodyTyped)

/-! ## Sequences under way -/

/-- the part of the sequence that has been run turns no cells into cells of the types `ts` -/
def Sequence.Passed (P : Place) (q : Sequence) (ts : List ValType) : Prop :=
  ∃ done, q.code = done ++ q.rest ∧ BodyTyped P done [] ts

namespace Sequence

variable {P : Place}

theorem passed_start (code : List Instr) : (start code).Passed P [] :=
  ⟨[], rfl, .nil⟩

theorem Passed.next {q : Sequence} {i : Instr} {rest : List Instr} {ins mid under : List ValType}
    (h : q.Passed P (ins ++ under)) (hrest : q.rest = i :: rest) (hi : i.Typed P ins mid) :
    Sequence.Passed P { q with rest } (mid ++ under) := by
  obtain ⟨done, hcode, hdone⟩ := h
  exact ⟨done ++ [i], by rw [hcode, hrest, List.append_assoc]; rfl, hdone.concat hi⟩

end Sequence

/-! ## The open constructs of a function -/

/-- the place in the same function at which the labels are others -/
def Place.withLabels (P : Place) (labels : List (List ValType)) : Place :=
  { P with labels }

/-- The constructs `blocks` are open in the function body `q`, whose cells begin at height `n`. The innermost sequence
has cells of the types `ts`; those of the sequences around it have the types `below`. If this is `traced`, then these are
the types that validation finds after what each sequence has run. -/
inductive OpenTyped (traced : Prop) (P : Place) (n : Nat) :
    List OpenBlock → Sequence → (labels : List (List ValType)) → (ts below : List ValType) → Prop
  | body {q ts} (rest : BodyTyped (P.withLabels [P.results]) q.rest ts P.results)
      (passed : traced → q.Passed (P.withLabels [P.results]) ts) : OpenTyped traced P n [] q [P.results] ts []
  | block {b blocks q labels ts outs seg below carried} (outer : OpenTyped traced P n blocks q labels (outs ++ seg) below)
      (rest : BodyTyped (P.withLabels (carried :: labels)) b.body.rest ts outs)
      (passed : traced → b.body.Passed (P.withLabels (carried :: labels)) ts)
      (height : b.label.height = n + (seg ++ below).length) (arity : b.label.arity = outs.length)
      (carries : carried = if b.label.restarts then [] else outs)
      (restart : b.label.restarts → BodyTyped (P.withLabels (carried :: labels)) b.body.code [] outs) :
      OpenTyped traced P n (b :: blocks) q (carried :: labels) ts (seg ++ below)

namespace OpenTyped

variable {traced : Prop} {P : Place} {n : Nat} {blocks : List OpenBlock} {q : Sequence} {labels : List (List ValType)}
  {ts below carried : List ValType}

/-- a function at the start of its body -/
theorem start {body : List Instr} (h : BodyTyped (P.withLabels [P.results]) body [] P.results) :
    OpenTyped traced P n [] (.start body) [P.results] [] [] :=
  .body h fun _ => Sequence.passed_start body

/-- there is a label for each open construct, and one for the function -/
theorem length_labels (h : OpenTyped traced P n blocks q labels ts below) : labels.length = blocks.length + 1 := by
  induction h with
  | body => rfl
  | block _ _ _ _ _ _ _ ih => rw [List.length_cons, List.length_cons, ih]

/-- the next instruction of a function is typed over the innermost layer, and so is what follows it -/
theorem next {k k' : Control} {i : Instr} (h : OpenTyped traced P n k.blocks k.body labels ts below)
    (hk : k.next? = some (i, k')) : ∃ ins mid under, ts = ins ++ under ∧ i.Typed (P.withLabels labels) ins mid ∧
      OpenTyped traced P n k'.blocks k'.body labels (mid ++ under) below := by
  obtain ⟨code, hrest, rfl⟩ := Control.next?_eq_some hk
  obtain ⟨blocks, q⟩ := k
  dsimp only at h
  cases h with
  | body rest passed =>
    have hrest : q.rest = i :: code := hrest
    rw [hrest] at rest
    obtain ⟨_, _, _, rfl, hi, hcode⟩ := rest.uncons
    exact ⟨_, _, _, rfl, hi, .body hcode fun ht => (passed ht).next hrest hi⟩
  | @block b blocks q labels ts outs seg below carried outer rest passed height arity carries restart =>
    have hrest : b.body.rest = i :: code := hrest
    rw [hrest] at rest
    obtain ⟨_, _, _, rfl, hi, hcode⟩ := rest.uncons
    exact ⟨_, _, _, rfl, hi, .block (b := { b with body.rest := code }) outer hcode
      (fun ht => (passed ht).next hrest hi) height arity carries restart⟩

/-- leaving constructs without a trace keeps the layers of the others -/
theorem drop (h : OpenTyped traced P n blocks q labels ts below) {d : Nat} (hd : d ≤ blocks.length) :
    ∃ ts' mid low, below = mid ++ low ∧ OpenTyped traced P n (blocks.drop d) q (labels.drop d) ts' low := by
  induction h generalizing d with
  | body rest passed =>
    cases Nat.le_zero.1 hd
    exact ⟨_, [], _, rfl, .body rest passed⟩
  | @block b blocks q labels ts outs seg below carried outer rest passed height arity carries restart ih =>
    cases d with
    | zero => exact ⟨_, [], _, rfl, .block outer rest passed height arity carries restart⟩
    | succ d =>
      obtain ⟨ts', mid, low, hlow, h'⟩ := ih (Nat.le_of_succ_le_succ hd)
      exact ⟨ts', seg ++ mid, low, by rw [hlow, List.append_assoc], h'⟩

/-- The label of the innermost construct is at the height of the layers around it. A branch to it that cuts the stack
down to these, under the cells that it carries, goes on as a well-typed function. -/
theorem branch {b : OpenBlock} (h : OpenTyped traced P n (b :: blocks) q (carried :: labels) ts below) :
    b.label.height = n + below.length ∧ b.label.branchArity = carried.length ∧
      ∃ labels' ts' below', ts' ++ below' = carried ++ below ∧
        OpenTyped traced P n (if b.label.restarts then { b with body := .start b.body.code } :: blocks else blocks) q
          labels' ts' below' := by
  cases h with
  | @block _ _ _ labels _ outs seg below _ outer rest passed height arity carries restart =>
    cases hr : b.label.restarts with
    | true =>
      have hc : carried = [] := by rw [carries, hr]; rfl
      refine ⟨height, by simp [Label.branchArity, hr, hc], carried :: labels, [], seg ++ below, by rw [hc], ?_⟩
      exact .block (b := { b with body := .start b.body.code }) outer (restart hr)
        (fun _ => Sequence.passed_start b.body.code) height arity carries restart
    | false =>
      have hc : carried = outs := by rw [carries, hr]; rfl
      refine ⟨height, by rw [Label.branchArity, hr, hc]; exact arity, _, _, _, ?_, outer⟩
      rw [hc, List.append_assoc]

end OpenTyped

/-! ## The waiting functions -/

/-- The functions `callers` wait for one that returns `results` and has its cells above height `n`. Their own cells, of
the types `under`, begin at height `bottom`; the outermost of all returns `final`. -/
inductive Waiting (traced : Prop) (S : Scope) (bottom : Nat) (final : List ValType) :
    (results : List ValType) → List Caller → (n : Nat) → (under : List ValType) → Prop
  | outermost : Waiting traced S bottom final final [] bottom []
  | call {P labels results caller callers n ts below under} (scope : P.scope = S) (locals : caller.frame.types = P.locals)
      (control : OpenTyped traced P n caller.control.blocks caller.control.body labels (results ++ ts) below)
      (height : caller.height = n + (ts ++ below).length) (arity : caller.arity = results.length)
      (outer : Waiting traced S bottom final P.results callers n under) :
      Waiting traced S bottom final results (caller :: callers) caller.height (ts ++ (below ++ under))

theorem Waiting.height_eq {traced : Prop} {S : Scope} {bottom n : Nat} {final results under : List ValType}
    {callers : List Caller} (h : Waiting traced S bottom final results callers n under) : n = bottom + under.length := by
  induction h with
  | outermost => rfl
  | call scope locals control height arity outer ih =>
    simp only [height, List.length_append] at ih ⊢
    omega

/-! ## Configurations -/

/-- the invariant of a run over the cells `base` whose outermost function returns `final`, `traced` only where asked for -/
def Config.Typed (S : Scope) (base : List Cell) (final : List ValType) (c : Config) (traced : Prop := False) : Prop :=
  ∃ P n labels ts below under, P.scope = S ∧ OpenTyped traced P n c.control.blocks c.control.body labels ts below ∧
    Waiting traced S base.length final P.results c.callers n under ∧ c.state.Typed P base (ts ++ (below ++ under)) traced

/-- a run that returns leaves the results on top, one that traps leaves the cells it started over -/
def Outcome.Typed (raised : Trap → Prop) (S : Scope) (base : List Cell) (final : List ValType) (o : Outcome)
    (traced : Prop := False) : Prop :=
  match o.result with
  | .ok () => ∃ P extra, P.scope = S ∧ o.state.Typed P base (final ++ extra) traced
  | .error e => o.state.Trapped raised S base e.trap

/-- what the host may fail with is allowed more often -/
theorem Outcome.Typed.mono {raised raised' : Trap → Prop} {S : Scope} {base : List Cell} {final : List ValType} {o : Outcome}
    {traced : Prop} (h : o.Typed raised S base final traced) (himp : ∀ t, raised t → raised' t) :
    o.Typed raised' S base final traced := by
  unfold Outcome.Typed at h ⊢
  cases hresult : o.result with
  | ok _ => simpa only [hresult] using h
  | error e =>
    simp only [hresult] at h
    exact h.mono himp

def Progress.Typed (raised : Trap → Prop) (S : Scope) (base : List Cell) (final : List ValType) (p : Progress)
    (traced : Prop := False) : Prop :=
  match p with
  | .running c => c.Typed S base final traced
  | .ended o => o.Typed raised S base final traced

/-! ## Calls -/

/-- calling a host function takes its arguments and leaves its results, or fails as it says -/
theorem HostFunc.call_typed (h : HostFunc) (sharp : Prop) {stack : OperandStack} {top rest : List Cell}
    (hs : stack.cells = top ++ rest) (hlen : top.length = h.type.params.length) :
    match h.call stack with
    | (.ok (), stack) => ∃ top, stack.cells = top ++ rest ∧ Cells top h.type.outs sharp
    | (.error t, left) => left.cells = rest ∧ (t = .hostSignatureMismatch ∨ h.Raises stack t) := by
  obtain ⟨stack', hp, hcells⟩ := OperandStack.popMany_append hs
  rw [hlen] at hp
  simp only [call, hp]
  generalize hargs : List.zipWith Val.ofCell h.type.params top.reverse = args
  simp only [invoke, bind, Except.bind]
  cases hrun : h.run args with
  | error t => exact ⟨hcells, .inr ⟨top.reverse, stack', hp, hargs ▸ hrun⟩⟩
  | ok r =>
    by_cases hty : r.values.map Val.type = h.type.results
    · simp only [if_pos hty]
      refine ⟨(r.values.map Val.toCell).reverse, ?_, ?_⟩
      · rw [← hcells]; exact OperandStack.cells_pushAll _ _
      · rw [FuncType.outs, ← hty]
        exact List.rel_reverse (Cells.map_toCell r.values)
    · simp only [if_neg hty]
      exact ⟨hcells, .inl rfl⟩

/-- a call of a valid host function, in which nothing but an expected trap can go wrong -/
theorem Function.Valid.host_typed {sharp : Prop} {raised : Trap → Prop} {S : Scope} {f : Function} {h : HostFunc}
    (hv : f.Valid S) (hbody : f.body = .host h) {stack : OperandStack} {args rest : List Cell}
    (hs : stack.cells = args ++ rest) (hargs : Cells args f.type.ins sharp) (hraised : ∀ t, h.Raises stack t → raised t) :
    match h.call stack with
    | (.ok (), stack) => ∃ top, stack.cells = top ++ rest ∧ Cells top f.type.outs sharp
    | (.error t, stack) => stack.cells = rest ∧ t.Expected raised := by
  have hown := hv.host h hbody
  have hlen : args.length = h.type.params.length := by
    rw [hown, hargs.length_eq, FuncType.length_ins]
  have hcall := h.call_typed sharp hs hlen
  generalize h.call stack = called at hcall ⊢
  obtain ⟨result, stack⟩ := called
  cases result with
  | ok _ =>
    obtain ⟨top, hstack, htop⟩ := hcall
    rw [hown] at htop
    exact ⟨top, hstack, htop⟩
  | error t =>
    obtain ⟨hstack, hfail⟩ := hcall
    refine ⟨hstack, ?_⟩
    rcases hfail with rfl | hraises
    · exact .hostSignatureMismatch
    · exact .host (hraised t hraises)

/-- cells read as values of the given types have these types -/
theorem Val.types_ofCells (ts : List ValType) (cs : List Cell) (h : cs.length = ts.length) :
    (List.zipWith Val.ofCell ts cs).map Val.type = ts := by
  induction ts generalizing cs with
  | nil => rfl
  | cons t ts ih =>
    cases cs with
    | nil => cases h
    | cons c cs => exact congrArg (t :: ·) (ih cs (Nat.succ.inj h))

/-- a function starts with its arguments in its first locals and off the stack -/
theorem Frame.enter_typed {stack : OperandStack} {top rest : List Cell} {params : List ValType} (locals : List ValType)
    (hs : stack.cells = top ++ rest) (hlen : top.length = params.length) :
    ∃ frame stack', Frame.enter stack params locals = .ok (frame, stack') ∧ stack'.cells = rest ∧
      frame.types = params ++ locals := by
  obtain ⟨stack', hp, hcells⟩ := OperandStack.popMany_append hs
  rw [hlen] at hp
  refine ⟨_, stack', by rw [enter, hp]; rfl, hcells, ?_⟩
  have hparams : (List.zipWith Variable.argument params top.reverse).map Variable.type = params := by
    rw [Variable.arguments_eq, List.map_map]
    exact Val.types_ofCells params top.reverse (by rw [List.length_reverse, hlen])
  simp only [types, List.map_append, List.map_map, hparams]
  exact congrArg (params ++ ·) (List.map_id' locals)

/-- whatever is on the stack, a function that starts has locals of the declared types -/
theorem Frame.types_enter {stack rest : OperandStack} {params locals : List ValType} {frame : Frame}
    (h : Frame.enter stack params locals = .ok (frame, rest)) : frame.types = params ++ locals := by
  obtain ⟨args, hargs, hcells⟩ := Frame.enter_cells h
  obtain ⟨frame', rest', h', -, hframe⟩ := Frame.enter_typed locals hcells hargs
  rw [h] at h'
  cases h'
  exact hframe

namespace State.Typed

variable {sharp : Prop} {P : Place} {base : List Cell} {s : State}

/-- cutting the stack down to the lower layers keeps the upper ones that are asked for -/
theorem unwind (keep drop low : List ValType) (h : s.Typed P base (keep ++ (drop ++ low)) sharp) :
    ∃ stack, s.store.stack.unwind (base.length + low.length) keep.length = .ok stack ∧
      State.Typed P base (keep ++ low) { s with store.stack := stack } sharp := by
  obtain ⟨top, hs, ht⟩ := h.stack
  obtain ⟨ktop, top', rfl, hk, ht⟩ : ∃ a b, top = a ++ b ∧ Cells a keep sharp ∧ Cells b (drop ++ low) sharp :=
    ⟨_, _, (List.take_append_drop keep.length top).symm, List.forall₂_take_append _ _ _ ht,
      List.forall₂_drop_append _ _ _ ht⟩
  obtain ⟨dtop, ltop, rfl, hd, hl⟩ : ∃ a b, top' = a ++ b ∧ Cells a drop sharp ∧ Cells b low sharp :=
    ⟨_, _, (List.take_append_drop drop.length top').symm, List.forall₂_take_append _ _ _ ht,
      List.forall₂_drop_append _ _ _ ht⟩
  obtain ⟨stack, hu, hcells⟩ := OperandStack.unwind_append (s := s.store.stack) ktop dtop (ltop ++ base)
    (by rw [hs]; simp only [List.append_assoc])
  refine ⟨stack, ?_, ⟨ktop ++ ltop, ?_, ?_⟩, h.locals, h.globals⟩
  · rw [← hk.length_eq, ← hl.length_eq, Nat.add_comm, ← List.length_append]; exact hu
  · rw [List.append_assoc]; exact hcells
  · exact List.rel_append hk hl

end State.Typed

end WasmCore
