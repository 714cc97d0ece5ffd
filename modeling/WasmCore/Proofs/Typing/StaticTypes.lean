/-
Static types.

Validation gives types to the operands of a function wherever it may stand in its body. In a run there are more operands, those
of the open constructs around the innermost one and of the functions that wait; together they are `Config.StaticTypes`. They
are determined by where these functions stand (`Config.StaticTypes.unique`): every sequence has come there by instructions that
go on, and the types after such an instruction follow from those before it. Only behind a branch, a return or a trap, where
no run comes to, are types a matter of choice.
-/
import WasmCore.Proofs.Typing.Activations

namespace WasmCore

open Instr (BodyTyped)

/-! ## Within a sequence -/

/-- The types of the cells after an instruction that goes on follow from those before it, whatever its labels carry. -/
theorem Instr.Typed.unique {P Q : Place} (scope : Q.scope = P.scope) (locals : Q.locals = P.locals) {i : Instr}
    (hi : i.GoesOn) {ins mid ins' mid' under under' : List ValType} (h : i.Typed P ins mid) (h' : i.Typed Q ins' mid')
    (heq : ins' ++ under' = ins ++ under) : mid' ++ under' = mid ++ under := by
  cases h with
  | unreachable | ret | br | brTable => cases hi
  | nop | const | memorySize | localTee | unary | binary | load | memoryGrow | block | loop | ite =>
    cases h'
    simpa using heq
  | drop | localSet | globalSet | store =>
    cases h'
    exact (List.append_inj heq rfl).2
  | select =>
    cases h'
    exact (List.cons.inj (List.cons.inj heq).2).2
  | localGet hx =>
    cases h' with
    | localGet hx' =>
      rw [locals, hx] at hx'
      cases hx'
      exact congrArg _ heq
  | globalGet hx =>
    cases h' with
    | globalGet hx' =>
      rw [scope, hx] at hx'
      cases hx'
      exact congrArg _ heq
  | call hx =>
    cases h' with
    | call hx' =>
      rw [scope, hx] at hx'
      cases hx'
      rw [List.append_cancel_left heq]
  | callIndirect hx =>
    cases h' with
    | callIndirect hx' =>
      rw [scope, hx] at hx'
      cases hx'
      rw [List.append_cancel_left heq]
  | brIf =>
    cases h' with
    | brIf => exact (List.cons.inj heq).2

/-- so what instructions that go on make of cells of given types is determined -/
theorem Instr.BodyTyped.unique {P Q : Place} (scope : Q.scope = P.scope) (locals : Q.locals = P.locals) {code : List Instr}
    (hcode : ∀ i ∈ code, i.GoesOn) {ts outs outs' : List ValType} (h : BodyTyped P code ts outs)
    (h' : BodyTyped Q code ts outs') : outs' = outs := by
  induction code generalizing ts with
  | nil =>
    cases h
    cases h'
    rfl
  | cons i rest ih =>
    obtain ⟨hi, hrest⟩ := List.forall_mem_cons.1 hcode
    obtain ⟨ins, mid, under, rfl, htyped, hfollows⟩ := h.uncons
    obtain ⟨ins', mid', under', heq, htyped', hfollows'⟩ := h'.uncons
    rw [htyped.unique scope locals hi htyped' heq.symm] at hfollows'
    exact ih hrest hfollows hfollows'

/-- the types that a sequence has left are determined, which stands where it is for having run such instructions -/
theorem Sequence.Underway.types_unique {P Q : Place} {q : Sequence} (hq : q.Underway) {ts ts' : List ValType}
    (h : q.Passed P ts) (h' : q.Passed Q ts') (scope : Q.scope = P.scope) (locals : Q.locals = P.locals) : ts' = ts := by
  obtain ⟨done, hcode, hdone⟩ := hq
  obtain ⟨code, hcode₁, hcode₁'⟩ := h
  obtain ⟨code', hcode₂, hcode₂'⟩ := h'
  obtain rfl := List.append_cancel_right (hcode.symm.trans hcode₁)
  obtain rfl := List.append_cancel_right (hcode.symm.trans hcode₂)
  exact hcode₁'.unique scope locals hdone hcode₂'

/-! ## Within a run -/

/-- the types within a function -/
theorem OpenTyped.unique {P Q : Place} (scope : Q.scope = P.scope) (locals : Q.locals = P.locals) {n n' : Nat}
    {blocks : List OpenBlock} {q : Sequence} (hu : Control.Underway ⟨blocks, q⟩)
    {labels labels' : List (List ValType)} {ts ts' below below' : List ValType}
    (h : OpenTyped True P n blocks q labels ts below) (h' : OpenTyped True Q n' blocks q labels' ts' below') :
    ts' = ts ∧ below' = below := by
  induction h generalizing labels' ts' below' with
  | body _ passed =>
    cases h' with
    | body _ passed' => exact ⟨hu.body.types_unique (passed trivial) (passed' trivial) scope locals, rfl⟩
  | @block b blocks q labels ts outs seg below carried _ _ passed _ arity _ _ ih =>
    cases h' with
    | @block _ _ _ labels' ts' outs' seg' below' carried' outer' _ passed' _ arity' _ _ =>
      obtain ⟨hb, hblocks⟩ := List.forall_mem_cons.1 hu.blocks
      obtain ⟨heq, rfl⟩ := ih ⟨hblocks, hu.body⟩ outer'
      obtain ⟨-, rfl⟩ := List.append_inj heq (arity'.symm.trans arity)
      exact ⟨hb.types_unique (passed trivial) (passed' trivial) scope locals, rfl⟩

/-- the types of the waiting functions -/
theorem Waiting.unique {S : Scope} {bottom bottom' n n' : Nat} {final final' results results' under under' : List ValType}
    {callers : List Caller} (hu : ∀ caller ∈ callers, caller.control.Underway)
    (h : Waiting True S bottom final results callers n under)
    (h' : Waiting True S bottom' final' results' callers n' under') : under' = under := by
  induction h generalizing results' n' under' with
  | outermost =>
    cases h'
    rfl
  | @call P labels results caller callers n ts below under scope locals control _ arity _ ih =>
    cases h' with
    | @call Q labels' _ _ _ n' ts' below' under' scope' locals' control' _ arity' outer' =>
      obtain ⟨hcaller, hcallers⟩ := List.forall_mem_cons.1 hu
      obtain rfl := ih hcallers outer'
      obtain ⟨heq, rfl⟩ := control.unique (scope'.trans scope.symm) (locals'.symm.trans locals) hcaller control'
      obtain ⟨-, rfl⟩ := List.append_inj heq (arity'.symm.trans arity)
      rfl

/-- Validation gives the cells of the active function and of those that wait for it the types `ts`, the top one first. -/
def Config.StaticTypes (S : Scope) (c : Config) (ts : List ValType) : Prop :=
  ∃ P n labels top below under bottom final, P.scope = S ∧ c.state.frame.types = P.locals ∧
    OpenTyped True P n c.control.blocks c.control.body labels top below ∧
    Waiting True S bottom final P.results c.callers n under ∧ ts = top ++ (below ++ under)

theorem Config.StaticTypes.unique {S : Scope} {c : Config} (hu : ∀ a ∈ c.active, a.2.Underway) {ts ts' : List ValType}
    (h : c.StaticTypes S ts) (h' : c.StaticTypes S ts') : ts' = ts := by
  obtain ⟨P, n, labels, top, below, under, bottom, final, scope, locals, hopen, hwaiting, rfl⟩ := h
  obtain ⟨Q, n', labels', top', below', under', bottom', final', scope', locals', hopen', hwaiting', rfl⟩ := h'
  obtain ⟨hactive, hcallers⟩ := List.forall_mem_cons.1 hu
  obtain ⟨rfl, rfl⟩ := hopen.unique (scope'.trans scope.symm) (locals'.symm.trans locals) hactive hopen'
  rw [hwaiting.unique (fun caller hcaller => hcallers _ (List.mem_map_of_mem hcaller)) hwaiting']

end WasmCore
