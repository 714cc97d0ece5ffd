/-
Runs of valid code stay well typed.

One lemma for each way in which control goes on (leaving a function, branching, calling), from them `Config.step_typed`
for any step, and by induction `Config.run_typed` for any run: it keeps the invariant of `Typing.Control`, so it never
finds the stack too short, a label or an index missing, and ends with the declared results or with an expected trap.
-/
import WasmCore.Proofs.Typing.Control

namespace WasmCore.Config

variable {traced : Prop} {S : Scope} {inst : Instance} {raised : Trap → Prop} {base : List Cell}
  {final : List ValType}

theorem fail_typed {c : Config} {e : ExecError} (h : c.state.Trapped raised S base e.trap) :
    (c.fail e).Typed raised S base final traced :=
  ⟨h.expected, h.stack, h.globals⟩

/-- leaving a function with its results on top -/
theorem leave_typed {c : Config} {P : Place} {n : Nat} {under : List ValType} (site : Option Site)
    (extra : List ValType) (hP : P.scope = S) (hw : Waiting traced S base.length final P.results c.callers n under)
    (hs : c.state.Typed P base (P.results ++ (extra ++ under)) traced) : (c.leave site).Typed raised S base final traced := by
  obtain ⟨state, control, callers⟩ := c
  dsimp only at hw hs
  generalize hresults : P.results = results at hw hs
  cases hw with
  | outermost => exact ⟨P, _, hP, hs⟩
  | @call P' labels _ caller callers n ts below under scope locals ctrl height arity outer =>
    obtain ⟨stack, hu, hs'⟩ := hs.unwind _ _ _
    have hh : caller.height = base.length + (ts ++ (below ++ under)).length := by
      have := outer.height_eq
      simp only [height, List.length_append] at this ⊢
      omega
    rw [← hh, ← arity] at hu
    simp only [leave, hu]
    refine ⟨P', n, labels, results ++ ts, below, under, scope, ctrl, outer, ?_, locals, ?_⟩
    · rw [List.append_assoc]; exact hs'.stack
    · rw [scope, ← hP]; exact hs'.globals

/-- branching to a label whose cells are on top -/
theorem branch_typed {c : Config} {P : Place} {n : Nat} {labels : List (List ValType)}
    {ts below carried under : List ValType} {d : UInt32} (site : Site) (extra : List ValType) (hP : P.scope = S)
    (hc : OpenTyped traced P n c.control.blocks c.control.body labels ts below)
    (hw : Waiting traced S base.length final P.results c.callers n under) (hd : labels[d.toNat]? = some carried)
    (hs : c.state.Typed P base (carried ++ (extra ++ (below ++ under))) traced) :
    (c.branch d site).Typed raised S base final traced := by
  obtain ⟨hlt, hget⟩ := List.getElem?_eq_some_iff.1 hd
  rw [hc.length_labels] at hlt
  obtain ⟨ts', mid, low, hlow, hopen⟩ := hc.drop (Nat.le_of_lt_succ hlt)
  have hlab : labels.drop d.toNat = carried :: labels.drop (d.toNat + 1) := by
    rw [← hget]; exact List.drop_eq_getElem_cons _
  rw [hlab] at hopen
  generalize labels.drop (d.toNat + 1) = outerLabels at hopen
  have hn := hw.height_eq
  simp only [branch]
  cases hdrop : c.control.blocks.drop d.toNat with
  | nil =>
    -- the function's own label: all open constructs are left
    rw [hdrop] at hopen
    cases hopen
    have hall : d.toNat = c.control.blocks.length := by
      have := List.drop_eq_nil_iff.1 hdrop
      omega
    rw [if_pos hall]
    exact leave_typed _ (extra ++ below) hP hw (by rw [List.append_assoc]; exact hs)
  | cons target outer =>
    rw [hdrop] at hopen
    obtain ⟨hheight, harity, labels', ts'', below', heq, hopen'⟩ := hopen.branch
    rw [hlow, List.append_assoc mid, ← List.append_assoc extra] at hs
    obtain ⟨stack, hu, hs'⟩ := hs.unwind _ _ _
    have hh : base.length + (low ++ under).length = target.label.height := by
      rw [hheight, hn, List.length_append]; omega
    rw [hh, ← harity] at hu
    simp only [hu]
    refine ⟨P, n, labels', ts'', below', under, hP, hopen', hw, ?_⟩
    rw [← List.append_assoc, heq, List.append_assoc]; exact hs'

/-- the innermost sequence has run to its end -/
theorem finishSequence_typed {c : Config} (h : c.Typed S base final traced) (hnext : c.control.next? = none) :
    c.finishSequence.Typed raised S base final traced := by
  obtain ⟨P, n, labels, ts, below, under, hP, hc, hw, hs⟩ := h
  have hend := Control.next?_eq_none hnext
  obtain ⟨state, ⟨blocks, q⟩, callers⟩ := c
  dsimp only at hc hw hs
  cases hc with
  | body rest passed =>
    have hend : q.rest = [] := hend
    rw [hend] at rest
    cases rest
    exact leave_typed none [] hP hw hs
  | @block b blocks _ _ _ outs seg below _ outer rest passed height arity carries restart =>
    have hend : b.body.rest = [] := hend
    rw [hend] at rest
    cases rest
    refine ⟨P, n, _, _, below, under, hP, outer, hw, ?_⟩
    simpa only [List.append_assoc] using hs

/-- calling a function whose arguments are on top -/
theorem call_typed (hi : inst.Fits S) {c : Config} {P : Place} {n : Nat} {labels : List (List ValType)}
    {ts below under : List ValType} {i : UInt32} {t : FuncType} (site : Site) (hP : P.scope = S)
    (hc : OpenTyped traced P n c.control.blocks c.control.body labels (t.outs ++ ts) below)
    (hw : Waiting traced S base.length final P.results c.callers n under) (ht : S.functions[i.toNat]? = some t)
    (hs : c.state.Typed P base (t.ins ++ (ts ++ (below ++ under))) traced)
    (hraised : ∀ f h, inst.function i = .ok f → f.body = .host h → ∀ t, h.Raises c.state.store.stack t → raised t) :
    (c.call inst i site).Typed raised S base final traced := by
  subst hP
  obtain ⟨f, hf, hfi, rfl⟩ := hi.function_eq ht
  have hvalid := hi.valid f hf
  obtain ⟨top, hcells, htop⟩ := hs.stack
  obtain ⟨args, rest, rfl, hargs, hrest⟩ : ∃ a b, top = a ++ b ∧ Cells a f.type.ins traced ∧
      Cells b (ts ++ (below ++ under)) traced :=
    ⟨_, _, (List.take_append_drop f.type.ins.length top).symm, List.forall₂_take_append _ _ _ htop,
      List.forall₂_drop_append _ _ _ htop⟩
  rw [List.append_assoc] at hcells
  have hlen : args.length = f.type.params.length := by
    rw [hargs.length_eq, FuncType.length_ins]
  simp only [call, hfi]
  cases hbody : f.body with
  | host h =>
    have hcall := hvalid.host_typed hbody hcells hargs (hraised f h hfi hbody)
    dsimp only
    generalize h.call c.state.store.stack = called at hcall ⊢
    obtain ⟨result, stack⟩ := called
    cases result with
    | ok _ =>
      obtain ⟨top, hstack, htop⟩ := hcall
      refine ⟨P, n, labels, _, below, under, rfl, hc, hw, ⟨top ++ rest, ?_, ?_⟩, hs.locals, hs.globals⟩
      · rw [List.append_assoc]; exact hstack
      · rw [List.append_assoc]; exact List.rel_append htop hrest
    | error t =>
      obtain ⟨hstack, hexpected⟩ := hcall
      exact fail_typed ⟨hexpected, ⟨rest, hstack.symm⟩, hs.globals⟩
  | code body =>
    dsimp only
    split
    · exact fail_typed (hs.trapped .callStackExhausted)
    · obtain ⟨frame, stack, henter, hstack, hframe⟩ := Frame.enter_typed f.locals hcells hlen
      simp only [henter]
      have hn := hw.height_eq
      have hheight : stack.height = n + (ts ++ below).length := by
        have hr := hrest.length_eq
        rw [stack.height_eq, hstack]
        simp only [List.length_append] at hr ⊢
        omega
      refine ⟨f.place P.scope, stack.height, [f.type.outs], [], [], ts ++ (below ++ under), rfl, .start (hvalid.code body hbody), ?_, ?_⟩
      · exact .call rfl hs.locals hc hheight (by simp [Function.place, FuncType.outs]) hw
      · exact ⟨⟨rest, hstack, hrest⟩, hframe, hs.globals⟩

/-- going on as the instruction asks, which left cells of the types `mid`, unless it asks for a call -/
theorem follow_typed {c : Config} {P : Place} {n : Nat} {labels : List (List ValType)}
    {mid ts below under : List ValType} {flow : Flow} (site : Site) (hP : P.scope = S)
    (hc : OpenTyped traced P n c.control.blocks c.control.body labels (mid ++ ts) below)
    (hw : Waiting traced S base.length final P.results c.callers n under)
    (hf : flow.Typed traced (P.withLabels labels) base mid (ts ++ (below ++ under)) c.state) (hcall : ∀ i, flow ≠ .call i) :
    (follow inst c site flow).Typed raised S base final traced := by
  cases flow with
  | next => exact ⟨P, n, labels, mid ++ ts, below, under, hP, hc, hw, by
      rw [List.append_assoc]; exact hf.place_congr rfl rfl⟩
  | enter label body =>
    obtain ⟨hheight, harity, hs, hbody⟩ := hf
    have hn := hw.height_eq
    refine ⟨P, n, _, [], ts ++ below, under, hP,
      .block hc hbody (fun _ => Sequence.passed_start body) ?_ harity rfl fun hr => ?_, hw, ?_⟩
    · simp only [hheight, List.length_append]; omega
    · exact hbody
    · rw [List.nil_append, List.append_assoc]; exact hs.place_congr rfl rfl
  | branch d =>
    obtain ⟨carried, extra, hd, hs⟩ := hf
    refine branch_typed site (extra ++ ts) hP hc hw hd ?_
    rw [List.append_assoc extra]; exact hs.place_congr rfl rfl
  | ret =>
    obtain ⟨extra, hs⟩ := hf
    refine leave_typed (some site) (extra ++ (ts ++ below)) hP hw ?_
    simp only [List.append_assoc]; exact hs.place_congr rfl rfl
  | call i => exact absurd rfl (hcall i)

/-- **One step of valid code stays well typed**, or ends in the declared results or an expected trap -/
theorem step_typed (hi : inst.Fits S) {c : Config} (h : c.Typed S base final traced) (hclean : traced → c.state.Clean S) :
    (c.step inst).Typed (c.Raises inst) S base final traced := by
  unfold step
  cases hnext : c.control.next? with
  | none => exact finishSequence_typed h hnext
  | some next =>
    obtain ⟨i, control⟩ := next
    obtain ⟨P, n, labels, ts, below, under, rfl, hc, hw, hs⟩ := h
    obtain ⟨ins, mid, seg, rfl, hti, hc'⟩ := hc.next hnext
    rw [List.append_assoc] at hs
    have hends := Instr.exec_typed (P := P.withLabels labels) hi hti (hs.place_congr rfl rfl) hclean
    simp only [Exec.Ends] at hends
    dsimp only
    cases hexec : i.exec inst c.state with
    | error t state =>
      rw [hexec] at hends
      exact fail_typed (hends.mono fun _ => False.elim)
    | ok flow state =>
      rw [hexec] at hends
      cases flow with
      | call i =>
        obtain ⟨t, ht, rfl, hs⟩ := hends
        exact call_typed hi _ rfl hc' hw ht (hs.place_congr rfl rfl) fun f h hf hbody t hraises =>
          ⟨_, _, _, f, h, .mk hnext hexec, hf, hbody, hraises⟩
      | next | enter | branch | ret => exact follow_typed _ rfl hc' hw hends fun _ hflow => by cases hflow

/-- a host function that is called somewhere in the run from here on has failed with this trap of its own -/
def RaisesLater (inst : Instance) (c : Config) (t : Trap) : Prop :=
  ∃ d, c.Reaches inst d ∧ d.Raises inst t

/-- **A run of valid code stays well typed**, and if it ends, then in the declared results or an expected trap. It is traced
from clean variables on. -/
theorem run_typed (hi : inst.Fits S) {fuel : Nat} {c : Config} {o : Outcome} (h : c.Typed S base final traced)
    (hclean : traced → c.Clean S) (hr : run inst fuel c = some o) :
    o.Typed (c.RaisesLater inst) S base final traced := by
  induction fuel generalizing c with
  | zero => cases hr
  | succ fuel ih =>
    have hstep := step_typed hi h fun ht => ⟨(hclean ht).frames.frame, (hclean ht).globals⟩
    simp only [run] at hr
    cases hs : c.step inst with
    | running c' =>
      rw [hs] at hstep hr
      have hrest := ih hstep (fun ht => reaches_clean (hclean ht) (.single hs)) hr
      refine hrest.mono fun t hlater => ?_
      obtain ⟨d, hreach, hraises⟩ := hlater
      exact ⟨d, .head hs hreach, hraises⟩
    | ended o' =>
      rw [hs] at hstep hr
      cases hr
      exact Outcome.Typed.mono hstep fun t hraises => ⟨c, .refl, hraises⟩

end WasmCore.Config
