/-
One well-typed instruction.

`State.Typed P base ts` says that the stack holds cells of the types `ts` over the cells `base`, and that locals and
globals have the types that validation gave them. Started in such a state, an instruction of type `ins` to `outs` takes
the cells for `ins`, and either traps in one of the expected ways or hands over to control with what its flow needs
(`Flow.Typed`). If this is `sharp`, the cells are also numbers of their types, which they stay if those of the variables are.
-/
import WasmCore.Proofs.Exec
import WasmCore.Proofs.Typing.Variables

namespace WasmCore

/-- the types of the locals -/
def Frame.types (f : Frame) : List ValType :=
  f.vars.toList.map Variable.type

/-- the stack is `ts` over `base`, and the variables are of their types -/
structure State.Typed (P : Place) (base : List Cell) (ts : List ValType) (s : State) (sharp : Prop := False) : Prop where
  stack : ∃ top, s.store.stack.cells = top ++ base ∧ Cells top ts sharp
  locals : s.frame.types = P.locals
  globals : s.store.globals.map Global.kind = P.scope.globals

/-- a trap of valid code, which leaves the cells of `base` on the stack and the globals of their types -/
structure State.Trapped (raised : Trap → Prop) (S : Scope) (base : List Cell) (t : Trap) (s : State) : Prop where
  expected : t.Expected raised
  stack : base <:+ s.store.stack.cells
  globals : s.store.globals.map Global.kind = S.globals

/-- what control is handed, when the instruction leaves `outs` and the cells under it have the types `under` -/
def Flow.Typed (sharp : Prop) (P : Place) (base : List Cell) (outs under : List ValType) : Flow → State → Prop
  | .next, s => s.Typed P base (outs ++ under) sharp
  | .enter label body, s =>
    label.height = base.length + under.length ∧ label.arity = outs.length ∧ s.Typed P base under sharp ∧
      Instr.BodyTyped (P.inside (if label.restarts then [] else outs)) body [] outs
  | .branch d, s => ∃ ts extra, P.labels[d.toNat]? = some ts ∧ s.Typed P base (ts ++ (extra ++ under)) sharp
  | .ret, s => ∃ extra, s.Typed P base (P.results ++ (extra ++ under)) sharp
  | .call i, s => ∃ f, P.scope.functions[i.toNat]? = some f ∧ outs = f.outs ∧ s.Typed P base (f.ins ++ under) sharp

/-- the variables that an instruction can read hold numbers of their types -/
structure State.Clean (S : Scope) (s : State) : Prop where
  frame : s.frame.Clean
  globals : s.store.CleanGlobals S

theorem State.Trapped.mono {raised raised' : Trap → Prop} {S : Scope} {base : List Cell} {t : Trap} {s : State}
    (h : s.Trapped raised S base t) (himp : ∀ t, raised t → raised' t) : s.Trapped raised' S base t :=
  ⟨h.expected.mono himp, h.stack, h.globals⟩

namespace State.Typed

variable {sharp : Prop} {P : Place} {base : List Cell} {ts : List ValType} {t : ValType} {s : State}

theorem height_eq (h : s.Typed P base ts sharp) : s.store.stack.height = base.length + ts.length := by
  obtain ⟨top, hs, ht⟩ := h.stack
  rw [s.store.stack.height_eq, hs, List.length_append, ht.length_eq]
  omega

theorem trapped {raised : Trap → Prop} (h : s.Typed P base ts sharp) {t : Trap} (ht : t.Expected raised) :
    s.Trapped raised P.scope base t := by
  obtain ⟨top, hs, -⟩ := h.stack
  exact ⟨ht, ⟨top, hs.symm⟩, h.globals⟩

/-- labels do not matter to the state -/
theorem place_congr {P' : Place} (h : s.Typed P base ts sharp) (hl : P'.locals = P.locals) (hs : P'.scope = P.scope) :
    s.Typed P' base ts sharp :=
  ⟨h.stack, by rw [hl]; exact h.locals, by rw [hs]; exact h.globals⟩

/-! ## Rules for the stack -/

variable {Q : Unit → State → Prop} {E : Trap → State → Prop}

theorem push (h : s.Typed P base ts sharp) {c : Cell} (hc : sharp → c.Holds t) (hQ : ∀ s, s.Typed P base (t :: ts) sharp → Q () s) :
    Exec.Ends (Exec.push c) s Q E := by
  obtain ⟨top, hs, ht⟩ := h.stack
  refine hQ _ ⟨⟨c :: top, ?_, .cons hc ht⟩, h.locals, h.globals⟩
  show c :: s.store.stack.cells = _
  rw [hs, List.cons_append]

theorem pop {Q : Cell → State → Prop} (h : s.Typed P base (t :: ts) sharp)
    (hQ : ∀ c s, (sharp → c.Holds t) → s.Typed P base ts sharp → Q c s) : Exec.Ends Exec.pop s Q E := by
  obtain ⟨top, hs, ht⟩ := h.stack
  cases ht with
  | cons hc ht =>
    rename_i c top
    obtain ⟨stack, hp, hcells⟩ := OperandStack.pop_cons hs
    refine Exec.ends_bind.2 (Exec.ends_get.2 (Exec.ends_bind.2 (Exec.ends_ofExcept (fun r hr => ?_) fun t ht => ?_)))
    · rw [hp] at hr
      cases hr
      exact hQ c _ hc ⟨⟨top, hcells, ht⟩, h.locals, h.globals⟩
    · rw [hp] at ht; cases ht

theorem peek {Q : Cell → State → Prop} (h : s.Typed P base (t :: ts) sharp) (hQ : ∀ c, (sharp → c.Holds t) → Q c s) :
    Exec.Ends Exec.peek s Q E := by
  obtain ⟨top, hs, ht⟩ := h.stack
  cases ht with
  | cons hc ht =>
    rename_i c top
    refine Exec.ends_bind.2 (Exec.ends_get.2 (Exec.ends_ofExcept (fun a ha => ?_) fun t ht => ?_))
    · rw [OperandStack.peek_cons hs] at ha; cases ha; exact hQ c hc
    · rw [OperandStack.peek_cons hs] at ht; cases ht

/-! ## Rules for variables -/

/-- changing an element does not change what is left of it under `g` -/
theorem map_modify {α β : Type} (xs : Array α) (i : Nat) {f : α → α} {g : α → β} (h : ∀ x, g (f x) = g x) :
    (xs.modify i f).map g = xs.map g := by
  apply Array.ext_getElem?
  intro j
  rw [Array.getElem?_map, Array.getElem?_map, Array.getElem?_modify]
  split
  · rw [Option.map_map, show g ∘ f = g from funext h]
  · rfl

theorem types_write (f : Frame) (i : UInt32) (c : Cell) : (f.write i c).types = f.types := by
  have h := map_modify f.vars i.toNat (f := fun v => v.write c) (g := Variable.type) fun _ => rfl
  simpa [Frame.types, Frame.write] using congrArg Array.toList h

theorem readLocal {Q : Cell → State → Prop} (h : s.Typed P base ts sharp) (hclean : sharp → s.frame.Clean) {i : UInt32}
    (hi : P.locals[i.toNat]? = some t) (hQ : ∀ c, (sharp → c.Holds t) → Q c s) : Exec.Ends (Exec.readLocal i) s Q E := by
  obtain ⟨v, hv, rfl⟩ : ∃ v, s.frame.vars[i.toNat]? = some v ∧ v.type = t := by
    rw [← h.locals, Frame.types, List.getElem?_map, Array.getElem?_toList, Option.map_eq_some_iff] at hi
    exact hi
  have hg : s.frame.get i = .ok v.cell := by simp only [Frame.get, Frame.variableAt, hv]; rfl
  refine Exec.ends_bind.2 (Exec.ends_get.2 (Exec.ends_ofExcept (fun a ha => ?_) fun t ht => ?_))
  · rw [hg] at ha; cases ha; exact hQ _ fun hs => hclean hs v (Array.mem_of_getElem? hv)
  · rw [hg] at ht; cases ht

theorem writeLocal (h : s.Typed P base ts sharp) {i : UInt32} (hi : P.locals[i.toNat]? = some t) (c : Cell)
    (hQ : ∀ s, s.Typed P base ts sharp → Q () s) : Exec.Ends (Exec.writeLocal i c) s Q E := by
  have hlt : i.toNat < s.frame.size := by
    have := (List.getElem?_eq_some_iff.1 hi).1
    rw [← h.locals, Frame.types, List.length_map] at this
    exact this
  refine Exec.ends_bind.2 (Exec.ends_get.2 ?_)
  rw [if_pos hlt]
  exact hQ _ ⟨h.stack, (types_write s.frame i c).trans h.locals, h.globals⟩

theorem global_eq (h : s.Typed P base ts sharp) {i : UInt32} {m : Bool} (hi : P.scope.globals[i.toNat]? = some (t, m)) :
    ∃ g, s.store.global i = .ok g ∧ g.type = t ∧ g.isMutable = m := by
  rw [← h.globals, Array.getElem?_map, Option.map_eq_some_iff] at hi
  obtain ⟨g, hg, hk⟩ := hi
  cases hk
  exact ⟨g, by simp only [Store.global, hg], rfl, rfl⟩

theorem readGlobal {Q : Cell → State → Prop} (h : s.Typed P base ts sharp) {i : UInt32} {m : Bool}
    (hclean : sharp → s.store.CleanGlobal i.toNat t) (hi : P.scope.globals[i.toNat]? = some (t, m)) (hQ : ∀ c, (sharp → c.Holds t) → Q c s) :
    Exec.Ends (Exec.readGlobal i) s Q E := by
  obtain ⟨g, hg, rfl, -⟩ := h.global_eq hi
  refine Exec.ends_bind.2 (Exec.ends_get.2 (Exec.ends_bind.2 (Exec.ends_ofExcept (fun a ha => ?_) fun t ht => ?_)))
  · rw [hg] at ha
    cases ha
    refine hQ _ fun hs => ?_
    obtain ⟨g', hg', -, hclean⟩ := hclean hs
    simp only [Store.global, hg'] at hg
    cases hg
    exact hclean
  · rw [hg] at ht; cases ht

theorem writeGlobal (h : s.Typed P base ts sharp) {i : UInt32} (hi : P.scope.globals[i.toNat]? = some (t, true)) (c : Cell)
    (hQ : ∀ s, s.Typed P base ts sharp → Q () s) : Exec.Ends (Exec.writeGlobal i c) s Q E := by
  obtain ⟨g, hg, -, hm⟩ := h.global_eq hi
  have hmut : s.store.mutableGlobal i = .ok g := by
    simp only [Store.mutableGlobal, hg, bind, Except.bind, hm]; rfl
  refine Exec.ends_bind.2 (Exec.ends_get.2 (Exec.ends_bind.2 (Exec.ends_ofExcept (fun a _ => ?_) fun t ht => ?_)))
  · refine hQ _ ⟨h.stack, h.locals, Eq.trans ?_ h.globals⟩
    exact map_modify s.store.globals i.toNat (f := fun g => g.write c) (g := Global.kind) fun _ => rfl
  · rw [hmut] at ht; cases ht

/-! ## Rules for memory -/

/-- typing does not depend on what the memory holds -/
theorem withMemory (h : s.Typed P base ts sharp) (m : Memory) : State.Typed P base ts { s with store.memory := m } sharp :=
  ⟨h.stack, h.locals, h.globals⟩

theorem readMemory {Q : Nat → State → Prop} (address length : Nat) (hQ : ∀ n, n < 2 ^ (8 * length) → Q n s)
    (hE : ∀ size, E (.memoryOutOfBounds address length size) s) :
    Exec.Ends (Exec.readMemory address length) s Q E := by
  refine Exec.ends_bind.2 (Exec.ends_get.2 (Exec.ends_ofExcept (fun n hn => ?_) fun t ht => ?_))
  · exact hQ n (Memory.read_lt hn)
  · rw [Memory.error_read ht]; exact hE _

theorem writeMemory (h : s.Typed P base ts sharp) (address length n : Nat) (hQ : ∀ s, s.Typed P base ts sharp → Q () s)
    (hE : ∀ size, E (.memoryOutOfBounds address length size) s) :
    Exec.Ends (Exec.writeMemory address length n) s Q E := by
  refine Exec.ends_bind.2 (Exec.ends_get.2 (Exec.ends_bind.2 (Exec.ends_ofExcept (fun _ _ => ?_) fun t ht => ?_)))
  · exact hQ _ (h.withMemory _)
  · simp only [Memory.check] at ht
    split at ht
    · cases ht
    · cases ht; exact hE _

theorem growMemory {Q : Option Nat → State → Prop} (h : s.Typed P base ts sharp) (delta : Nat)
    (hQ : ∀ r s, s.Typed P base ts sharp → Q r s) : Exec.Ends (Exec.growMemory delta) s Q E := by
  rw [Exec.growMemory, Exec.ends_bind, Exec.ends_get]
  by_cases hgrow : s.store.memory.canGrow delta
  · rw [if_pos hgrow, Exec.ends_bind, Exec.ends_modify, Exec.ends_pure]
    exact hQ _ _ (h.withMemory _)
  · rw [if_neg hgrow, Exec.ends_pure]
    exact hQ _ _ h

end State.Typed

/-! ## Instructions -/

/-- tables, functions and signatures of the instance are those of the scope, and the code is valid -/
structure Instance.Fits (S : Scope) (inst : Instance) : Prop where
  types : inst.types = S.types
  signatures : inst.functions.map Function.type = S.functions
  tables : inst.tables.size = S.tables
  valid : ∀ f ∈ inst.functions, f.Valid S
  elements : ∀ t ∈ inst.tables, ∀ i, some i ∈ t.elements → i.toNat < inst.functions.size

namespace Instance.Fits

variable {S : Scope} {inst : Instance}

theorem function_eq (h : inst.Fits S) {i : UInt32} {t : FuncType} (hi : S.functions[i.toNat]? = some t) :
    ∃ f ∈ inst.functions, inst.function i = .ok f ∧ f.type = t := by
  rw [← h.signatures, Array.getElem?_map, Option.map_eq_some_iff] at hi
  obtain ⟨f, hf, ht⟩ := hi
  exact ⟨f, Array.mem_of_getElem? hf, by simp only [Instance.function, hf], ht⟩

theorem signature_eq (h : inst.Fits S) {i : UInt32} {f : Function} (hf : inst.function i = .ok f) :
    S.functions[i.toNat]? = some f.type := by
  simp only [Instance.function] at hf
  split at hf
  · rename_i g hg
    cases hf
    rw [← h.signatures, Array.getElem?_map, hg, Option.map_some]
  · cases hf

/-- a slot of a table holds a function of the declared signature, or the call fails as expected -/
theorem resolve (h : inst.Fits S) {tableIndex : UInt32} (slot : UInt32) (declared : FuncType)
    (ht : tableIndex.toNat < S.tables) :
    match inst.resolve tableIndex slot declared with
    | .ok i => S.functions[i.toNat]? = some declared
    | .error t => t.ExpectedOfInstr := by
  have hlt : tableIndex.toNat < inst.tables.size := by rw [h.tables]; exact ht
  have htab : inst.table tableIndex = .ok inst.tables[tableIndex.toNat] := by
    simp only [Instance.table, Array.getElem?_eq_getElem hlt]
  have hmem := Array.getElem_mem hlt
  simp only [Instance.resolve, htab, bind, Except.bind]
  simp only [Table.get]
  cases hslot : inst.tables[tableIndex.toNat].elements[slot.toNat]? with
  | none => exact .undefinedElement slot
  | some content =>
    cases content with
    | none => exact .uninitializedElement slot
    | some i =>
      have hi := h.elements _ hmem i (Array.mem_of_getElem? hslot)
      have hf : inst.function i = .ok inst.functions[i.toNat] := by
        simp only [Instance.function, Array.getElem?_eq_getElem hi]
      simp only [hf]
      split
      · rename_i r hr
        split at hr
        · rename_i hty
          cases hr
          rw [h.signature_eq hf, hty]
        · cases hr
      · rename_i t hr
        split at hr
        · cases hr
        · cases hr; exact .indirectCallTypeMismatch

end Instance.Fits

open Exec in
/-- **A well-typed instruction hands over what its flow needs, or traps as expected.** It calls no function itself. -/
theorem Instr.exec_typed {sharp : Prop} {P : Place} {inst : Instance} (hi : inst.Fits P.scope) {i : Instr}
    {ins outs : List ValType} (ht : i.Typed P ins outs) {base : List Cell} {under : List ValType} {s : State}
    (h : s.Typed P base (ins ++ under) sharp) (hclean : sharp → s.Clean P.scope) :
    Ends (i.exec inst) s (Flow.Typed sharp P base outs under) (State.Trapped (fun _ => False) P.scope base) := by
  cases ht with
  | unreachable => exact h.trapped .unreachable
  | nop => exact h
  | ret => exact ⟨_, by rwa [List.append_assoc] at h⟩
  | drop => exact ends_bind.2 (h.pop fun _ _ _ h => h)
  | select =>
    refine ends_bind.2 (h.pop fun c s _ h => ends_bind.2 (h.pop fun b s hb h => ends_bind.2 (h.pop fun a s ha h => ?_)))
    refine ends_bind.2 (h.push ?_ fun s h => h)
    split
    · exact ha
    · exact hb
  | const => exact ends_bind.2 (h.push (fun _ => Cell.holds_toCell _) fun s h => h)
  | unary => exact ends_bind.2 (h.pop fun a s ha h => ends_bind.2 (h.push (fun hs => UnaryOp.holds_eval _ (ha hs)) fun s h => h))
  | @binary _ op =>
    refine ends_bind.2 (h.pop fun b s _ h => ends_bind.2 (h.pop fun a s _ h => ?_))
    have hev := op.holds_eval a b
    refine ends_bind.2 (ends_ofExcept (fun c hc => ?_) fun t ht => ?_)
    · rw [hc] at hev
      exact ends_bind.2 (h.push (fun _ => hev) fun s h => h)
    · rw [ht] at hev
      rcases hev with rfl | rfl
      · exact h.trapped .divisionByZero
      · exact h.trapped .integerOverflow
  | load =>
    refine ends_bind.2 (h.pop fun a s _ h => ends_bind.2 (State.Typed.readMemory _ _ (fun n hn => ?_) fun size => ?_))
    · exact ends_bind.2 (h.push (fun _ => LoadOp.holds_extend _ hn) fun s h => h)
    · exact h.trapped (.memoryOutOfBounds ..)
  | store =>
    refine ends_bind.2 (h.pop fun v s _ h => ends_bind.2 (h.pop fun a s _ h => ?_))
    refine ends_bind.2 (h.writeMemory _ _ _ (fun s h => h) fun size => ?_)
    exact h.trapped (.memoryOutOfBounds ..)
  | memorySize =>
    refine ends_bind.2 (ends_bind.2 (ends_get.2 (ends_pure.2 ?_)))
    exact ends_bind.2 (h.push (fun _ => Cell.holds_of (t := .i32) _) fun s h => h)
  | memoryGrow =>
    refine ends_bind.2 (h.pop fun delta s _ h => ends_bind.2 (h.growMemory _ fun r s h => ?_))
    cases r with
    | none => exact ends_bind.2 (h.push (fun _ => Cell.holds_of (t := .i32) _) fun s h => h)
    | some before => exact ends_bind.2 (h.push (fun _ => Cell.holds_of (t := .i32) _) fun s h => h)
  | localGet hx =>
    exact ends_bind.2 (h.readLocal (fun hs => (hclean hs).frame) hx fun c hc => ends_bind.2 (h.push hc fun s h => h))
  | localSet hx => exact ends_bind.2 (h.pop fun c s _ h => ends_bind.2 (h.writeLocal hx c fun s h => h))
  | localTee hx => exact ends_bind.2 (h.peek fun c _ => ends_bind.2 (h.writeLocal hx c fun s h => h))
  | globalGet hx =>
    exact ends_bind.2 (h.readGlobal (fun hs => (hclean hs).globals _ _ _ hx) hx fun c hc =>
      ends_bind.2 (h.push hc fun s h => h))
  | globalSet hx => exact ends_bind.2 (h.pop fun c s _ h => ends_bind.2 (h.writeGlobal hx c fun s h => h))
  | call hx => exact ⟨_, hx, rfl, h⟩
  | @callIndirect _ typeIndex tableIndex f hx htab =>
    refine ends_bind.2 (h.pop fun slot s _ h => ?_)
    have htype : inst.type typeIndex = .ok f := by simp only [Instance.type, hi.types, hx]
    have hres := hi.resolve slot.index f htab
    refine ends_bind.2 (ends_ofExcept (fun d hd => ?_) fun t ht => ?_)
    · rw [htype] at hd
      cases hd
      refine ends_bind.2 (ends_ofExcept (fun i hr => ?_) fun t hr => ?_)
      · rw [hr] at hres
        exact ⟨f, hres, rfl, h⟩
      · rw [hr] at hres
        exact h.trapped hres
    · rw [htype] at ht; cases ht
  | @block _ type body hb =>
    exact ends_bind.2 (ends_get.2 ⟨h.height_eq, type.length_types.symm, h, hb⟩)
  | @loop _ type body hb =>
    exact ends_bind.2 (ends_get.2 ⟨h.height_eq, type.length_types.symm, h, hb⟩)
  | @ite _ type body otherwise hb ho =>
    refine ends_bind.2 (h.pop fun c s _ h => ?_)
    split
    · exact ends_bind.2 (ends_get.2 ⟨h.height_eq, type.length_types.symm, h, hb⟩)
    · exact ends_bind.2 (ends_get.2 ⟨h.height_eq, type.length_types.symm, h, ho⟩)
  | br hl => exact ⟨_, _, hl, by rwa [List.append_assoc] at h⟩
  | brIf hl =>
    refine ends_bind.2 (h.pop fun c s _ h => ?_)
    split
    · exact ⟨_, [], hl, h⟩
    · exact h
  | @brTable _ targets fallback ts rest _ hl =>
    refine ends_bind.2 (h.pop fun i s _ h => ⟨ts, rest, hl _ ?_, by rwa [← List.append_assoc]⟩)
    cases hx : targets[i.index.toNat]? with
    | none => exact List.mem_append_right _ (List.mem_singleton.2 rfl)
    | some d => exact List.mem_append_left _ (List.mem_of_getElem? hx)

end WasmCore
