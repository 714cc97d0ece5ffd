/-
What a function sees of its arguments.

Nothing checks the cells that an embedding program or ill-typed code leaves as arguments. An argument of 32 bits may have
anything in its high half, and so may the number of a slot. Two stacks are `Alike` if they differ in such halves only.

There are two ways into a function: a host function is given values of its types, and a guest function finds them in its
locals. Both go through `OperandStack.popMany`, which leaves the same stack under arguments that are alike, and the same
values are read from them (`popMany_alike`). From there on the two runs are one run, so nothing has to be followed through
a body. A call that is refused takes nothing off the stack, and this is where the halves are still seen.
-/
import WasmCore.Proofs.Structured.IndirectCalls

namespace WasmCore

/-! ## Stacks that are alike -/

/-- the same cells, but for the high halves of the top ones where they are of a type of 32 bits -/
inductive SameArguments : List ValType → List Cell → List Cell → Prop
  | under (cells : List Cell) : SameArguments [] cells cells
  | few (ts : List ValType) : SameArguments ts [] []
  | argument {t : ValType} {ts : List ValType} {c c' : Cell} {cs cs' : List Cell} (low : c.low .w32 = c'.low .w32)
      (high : t.width = .w64 → c = c') (rest : SameArguments ts cs cs') : SameArguments (t :: ts) (c :: cs) (c' :: cs')

/-- the same stack, but for the high halves of arguments of 32 bits; the types are in the order of the parameters -/
structure OperandStack.Alike (params : List ValType) (s s' : OperandStack) : Prop where
  cells : SameArguments params.reverse s.cells s'.cells
  capacity : s.capacity = s'.capacity

namespace SameArguments

variable {ts : List ValType} {cs cs' : List Cell}

theorem length_eq (h : SameArguments ts cs cs') : cs.length = cs'.length := by
  induction h with
  | under | few => rfl
  | argument low high rest ih => rw [List.length_cons, List.length_cons, ih]

/-- such a half is not part of the value -/
theorem ofCell_eq {t : ValType} {c c' : Cell} (low : c.low .w32 = c'.low .w32) (high : t.width = .w64 → c = c') :
    Val.ofCell t c = Val.ofCell t c' := by
  have hbits : c.low t.width = c'.low t.width := by
    cases hw : t.width with
    | w32 => exact low
    | w64 => rw [high hw]
  rw [Val.ofCell, Val.ofCell, hbits]

/-- so the same values are read, and the same cells are left -/
theorem values_eq (h : SameArguments ts cs cs') (henough : ts.length ≤ cs.length) :
    List.zipWith Val.ofCell ts (cs.take ts.length) = List.zipWith Val.ofCell ts (cs'.take ts.length) ∧
    cs.drop ts.length = cs'.drop ts.length := by
  induction h with
  | under | few => exact ⟨rfl, rfl⟩
  | argument low high rest ih =>
    obtain ⟨hvalues, hdrop⟩ := ih (Nat.le_of_succ_le_succ henough)
    simp only [List.length_cons, List.take_succ_cons, List.drop_succ_cons, List.zipWith_cons_cons]
    exact ⟨by rw [ofCell_eq low high, hvalues], hdrop⟩

end SameArguments

namespace OperandStack

variable {ts : List ValType} {s s' : OperandStack}

theorem Alike.height_eq (h : s.Alike ts s') : s.height = s'.height := by
  rw [OperandStack.height_eq, OperandStack.height_eq, h.cells.length_eq]

/-- the same values are read from arguments that are alike, and the same stack is left -/
theorem popMany_alike (h : s.Alike ts s') (henough : ts.length ≤ s.height) :
    ∃ cs cs' rest, s.popMany ts.length = .ok (cs, rest) ∧ s'.popMany ts.length = .ok (cs', rest) ∧
      List.zipWith Val.ofCell ts cs = List.zipWith Val.ofCell ts cs' := by
  have hreversed : ts.reverse.length ≤ s.cells.length := by rwa [List.length_reverse, ← s.height_eq]
  obtain ⟨hvalues, hdrop⟩ := h.cells.values_eq hreversed
  rw [List.length_reverse] at hvalues hdrop
  have hrest : s.truncate (s.height - ts.length) = s'.truncate (s'.height - ts.length) := by
    refine eq_of_cells ?_ h.capacity
    have hcut : s.height - (s.height - ts.length) = ts.length := Nat.sub_sub_self henough
    show s.cells.drop _ = s'.cells.drop _
    rw [← h.height_eq, hcut, hdrop]
  refine ⟨_, (s'.cells.take ts.length).reverse, _, popMany_eq henough, ?_, ?_⟩
  · rw [popMany_eq (by rwa [← h.height_eq]), ← hrest]
  · -- the cells were compared from the top down, which is from the last parameter to the first
    have hlen : ts.reverse.length = (s.cells.take ts.length).length := by
      rw [List.length_take, List.length_reverse, ← s.height_eq, Nat.min_eq_left henough]
    have hlen' : ts.reverse.length = (s'.cells.take ts.length).length := by
      rw [List.length_take, List.length_reverse, ← s'.height_eq, ← h.height_eq, Nat.min_eq_left henough]
    have hreverse := congrArg List.reverse hvalues
    rwa [List.reverse_zipWith hlen, List.reverse_zipWith hlen', List.reverse_reverse] at hreverse

/-- the number of a slot is an argument of 32 bits on top of the others -/
theorem pop_alike (h : s.Alike (ts ++ [.i32]) s') :
    (s.pop = .error (.stackUnderflow 1 0) ∧ s'.pop = .error (.stackUnderflow 1 0)) ∨
    ∃ c c' t t', s.pop = .ok (c, t) ∧ s'.pop = .ok (c', t') ∧ c.index = c'.index ∧ t.Alike ts t' := by
  obtain ⟨cells, height, capacity, hheight⟩ := s
  obtain ⟨cells', height', capacity', hheight'⟩ := s'
  obtain ⟨hcells, hcapacity⟩ := h
  rw [List.reverse_append, List.reverse_singleton, List.singleton_append] at hcells
  cases hcells with
  | few => exact .inl ⟨rfl, rfl⟩
  | argument low high rest => exact .inr ⟨_, _, _, _, rfl, rfl, congrArg UInt32.ofBitVec low, rest, hcapacity⟩

end OperandStack

/-! ## Functions -/

namespace Function

/-- the types of the arguments that the function takes off the stack; a host function goes by its own signature -/
def takes (f : Function) : List ValType :=
  match f.body with
  | .host h => h.type.params
  | .code _ => f.type.params

/-- a call gets as far as the function: its arguments are there, and one more guest function may be active -/
structure Entered (inst : Instance) (f : Function) (s : Store) : Prop where
  arguments : f.takes.length ≤ s.stack.height
  room : f.isHost = false → s.depth < inst.maxCallDepth

variable {inst : Instance} {f : Function} {store : Store} {s s' : OperandStack} {code : List Instr} {h : HostFunc}

theorem takes_code (hbody : f.body = .code code) : f.takes = f.type.params := by
  rw [takes, hbody]

theorem takes_host (hbody : f.body = .host h) : f.takes = h.type.params := by
  rw [takes, hbody]

theorem entered_code (hbody : f.body = .code code) :
    f.Entered inst store ↔ f.type.params.length ≤ store.stack.height ∧ store.depth < inst.maxCallDepth := by
  have hguest : f.isHost = false := by rw [isHost, hbody]
  rw [← takes_code hbody]
  exact ⟨fun h => ⟨h.arguments, h.room hguest⟩, fun h => ⟨h.1, fun _ => h.2⟩⟩

theorem entered_host (hbody : f.body = .host h) : f.Entered inst store ↔ h.type.params.length ≤ store.stack.height := by
  have hhost : f.isHost = true := by rw [isHost, hbody]
  rw [← takes_host hbody]
  refine ⟨Entered.arguments, fun harguments => ⟨harguments, fun hguest => ?_⟩⟩
  rw [hhost] at hguest
  cases hguest

/-- it starts exactly if a call gets as far as that -/
theorem enter_ok_iff (hbody : f.body = .code code) : (∃ entered, f.enter inst store = .ok entered) ↔ f.Entered inst store := by
  rw [entered_code hbody]
  constructor
  · rintro ⟨⟨frame, entered⟩, henter⟩
    obtain ⟨hroom, rest, hframe, -⟩ := enter_ok henter
    obtain ⟨args, hlen, hcells⟩ := Frame.enter_cells hframe
    refine ⟨?_, hroom⟩
    rw [store.stack.height_eq, hcells, List.length_append, hlen]
    exact Nat.le_add_right _ _
  · rintro ⟨henough, hroom⟩
    obtain ⟨cs, rest, hpop⟩ := OperandStack.popMany_of_le henough
    rw [enter, if_neg (Nat.not_le.2 hroom), Frame.enter, hpop]
    exact ⟨_, rfl⟩

/-- a guest function starts from the same frame over the same store, or is refused for the same reason -/
theorem enter_same (hbody : f.body = .code code) (halike : s.Alike f.takes s') :
    f.enter inst { store with stack := s } = f.enter inst { store with stack := s' } := by
  rw [takes_code hbody] at halike
  have hframe : Frame.enter s f.type.params f.locals = Frame.enter s' f.type.params f.locals := by
    unfold Frame.enter
    rcases Nat.lt_or_ge s.height f.type.params.length with hfew | henough
    · rw [OperandStack.popMany_short hfew, OperandStack.popMany_short (by rwa [← halike.height_eq]), halike.height_eq]
    · obtain ⟨cs, cs', rest, hpop, hpop', hvalues⟩ := OperandStack.popMany_alike halike henough
      rw [hpop, hpop']
      simp only [Except.map, Variable.arguments_eq, hvalues]
  simp only [enter, hframe]

theorem enter_entered (hbody : f.body = .code code) (halike : s.Alike f.takes s')
    (hentered : f.Entered inst { store with stack := s }) :
    ∃ entered, f.enter inst { store with stack := s } = .ok entered ∧
      f.enter inst { store with stack := s' } = .ok entered := by
  obtain ⟨entered, henter⟩ := (enter_ok_iff hbody).2 hentered
  exact ⟨entered, henter, (enter_same hbody halike).symm.trans henter⟩

theorem enter_unentered (hbody : f.body = .code code) (halike : s.Alike f.takes s')
    (hrefused : ¬ f.Entered inst { store with stack := s }) :
    ∃ t, f.enter inst { store with stack := s } = .error t ∧ f.enter inst { store with stack := s' } = .error t := by
  cases henter : f.enter inst { store with stack := s } with
  | ok entered => exact absurd ((enter_ok_iff hbody).1 ⟨entered, henter⟩) hrefused
  | error t => exact ⟨t, rfl, (enter_same hbody halike).symm.trans henter⟩

/-- a host function is given the same values over the same stack -/
theorem call_entered (hbody : f.body = .host h) (halike : s.Alike f.takes s')
    (hentered : f.Entered inst { store with stack := s }) : h.call s = h.call s' := by
  rw [takes_host hbody] at halike
  obtain ⟨cs, cs', rest, hpop, hpop', hvalues⟩ := OperandStack.popMany_alike halike ((entered_host hbody).1 hentered)
  simp only [HostFunc.call, hpop, hpop', hvalues]

theorem call_unentered (hbody : f.body = .host h) (halike : s.Alike f.takes s')
    (hrefused : ¬ f.Entered inst { store with stack := s }) :
    ∃ t, h.call s = (.error t, s) ∧ h.call s' = (.error t, s') := by
  rw [takes_host hbody] at halike
  have hfew : s.height < h.type.params.length := Nat.not_le.1 fun henough => hrefused ((entered_host hbody).2 henough)
  refine ⟨.stackUnderflow h.type.params.length s.height, h.call_short hfew, ?_⟩
  rw [halike.height_eq] at hfew ⊢
  exact h.call_short hfew

end Function

namespace Machine

variable {m : Machine} {i : UInt32} {f : Function} {s s' : OperandStack}

/-- a function that is entered runs the same from stacks that are alike -/
theorem callFunction_entered (fuel : Nat) (hf : m.inst.function i = .ok f) (halike : s.Alike f.takes s')
    (hentered : f.Entered m.inst { m.store with stack := s }) :
    (m.withStack s).callFunction fuel i = (m.withStack s').callFunction fuel i := by
  have hinst (t : OperandStack) : (m.withStack t).inst.function i = .ok f := hf
  simp only [callFunction, hinst]
  cases hbody : f.body with
  | host h =>
    have hcall : h.call s = h.call s' := Function.call_entered hbody halike hentered
    simp only [stack, withStack, hcall]
  | code code =>
    obtain ⟨entered, henter, henter'⟩ := Function.enter_entered hbody halike hentered
    simp only [callGuest_eq, withStack, henter, henter']
    rfl

/-- one that is not entered is refused for the same reason, and nothing is taken off the stack -/
theorem callFunction_unentered (fuel : Nat) (hf : m.inst.function i = .ok f) (halike : s.Alike f.takes s')
    (hrefused : ¬ f.Entered m.inst { m.store with stack := s }) :
    ∃ t, (m.withStack s).callFunction fuel i = (m.withStack s).failed t ∧
      (m.withStack s').callFunction fuel i = (m.withStack s').failed t := by
  have hinst (t : OperandStack) : (m.withStack t).inst.function i = .ok f := hf
  simp only [callFunction, hinst]
  cases hbody : f.body with
  | host h =>
    obtain ⟨t, hcall, hcall'⟩ := Function.call_unentered hbody halike hrefused
    simp only [stack, withStack, hcall, hcall']
    exact ⟨t, rfl, rfl⟩
  | code code =>
    obtain ⟨t, henter, henter'⟩ := Function.enter_unentered hbody halike hrefused
    simp only [callGuest_eq, withStack, henter, henter']
    exact ⟨t, rfl, rfl⟩

end Machine

/-! ## Calls -/

/-- the function exists, and a call of it gets as far as that -/
def Instance.Admits (inst : Instance) (i : UInt32) (store : Store) : Prop :=
  ∃ f, inst.function i = .ok f ∧ f.Entered inst store

/-- the slot number on top of the stack is found to be that of a function, and a call of it gets as far as that -/
def Instance.AdmitsSlot (inst : Instance) (find : UInt32 → Except Trap UInt32) (store : Store) : Prop :=
  ∃ slot rest i, store.stack.pop = .ok (slot, rest) ∧ find slot.index = .ok i ∧
    inst.Admits i { store with stack := rest }

/-- Two calls are one if their function is entered. Otherwise they fail for the same reason, each over a stack of its own;
`fails u e` is the failure `e` over the stack `u`. -/
structure Unobserved {α ε : Type} (entered : Prop) (fails : OperandStack → ε → α) (answer answer' : α) : Prop where
  same : entered → answer = answer'
  refused : ¬ entered → ∃ e u u', answer = fails u e ∧ answer' = fails u' e

/-- What holds of calls holds of calls through a table: the slot number is an argument too, and the function that it leads
to finds the others under it. -/
theorem Unobserved.indirect {α ε : Type} {inst : Instance} {store : Store} {find : UInt32 → Except Trap UInt32}
    {fails : OperandStack → ε → α} {ts : List ValType} {s s' : OperandStack} (answer : OperandStack → α)
    (called : OperandStack → UInt32 → α) (trap : Trap → ε)
    (hempty : ∀ t e, t.pop = .error e → answer t = fails t (trap e))
    (hslot : ∀ t slot rest, t.pop = .ok (slot, rest) → answer t =
      match find slot.index with
      | .error e => fails rest (trap e)
      | .ok i => called rest i)
    (hcalled : ∀ i u u', (∀ f, inst.function i = .ok f → u.Alike f.takes u') →
      Unobserved (inst.Admits i { store with stack := u }) fails (called u i) (called u' i))
    (halike : s.Alike (ts ++ [.i32]) s')
    (hts : ∀ slot rest i f, s.pop = .ok (slot, rest) → find slot.index = .ok i → inst.function i = .ok f → f.takes = ts) :
    Unobserved (inst.AdmitsSlot find { store with stack := s }) fails (answer s) (answer s') := by
  rcases OperandStack.pop_alike halike with ⟨hpop, hpop'⟩ | ⟨slot, slot', rest, rest', hpop, hpop', hindex, hrest⟩
  · refine ⟨?_, fun _ => ⟨_, s, s', hempty s _ hpop, hempty s' _ hpop'⟩⟩
    rintro ⟨slot, rest, i, hok, -⟩
    rw [hpop] at hok
    cases hok
  · rw [hslot s slot rest hpop, hslot s' slot' rest' hpop', ← hindex]
    cases hfind : find slot.index with
    | error e =>
      refine ⟨?_, fun _ => ⟨_, rest, rest', rfl, rfl⟩⟩
      rintro ⟨slot, rest, i, hok, hi, -⟩
      rw [hpop] at hok
      cases hok
      rw [hfind] at hi
      cases hi
    | ok i =>
      have hcall := hcalled i rest rest' fun f hf => by rwa [hts slot rest i f hpop hfind hf]
      refine ⟨?_, fun hrefused => hcall.refused fun hadmits => hrefused ⟨slot, rest, i, hpop, hfind, hadmits⟩⟩
      rintro ⟨slot, rest, j, hok, hj, hadmits⟩
      rw [hpop] at hok
      cases hok
      rw [hfind] at hj
      cases hj
      exact hcall.same hadmits

namespace Machine

variable {m : Machine} {fuel : Nat} {i : UInt32} {s s' : OperandStack}

theorem call_unobserved (hargs : ∀ f, m.inst.function i = .ok f → s.Alike f.takes s') :
    Unobserved (m.inst.Admits i { m.store with stack := s }) (fun u t => (m.withStack u).failed t)
      ((m.withStack s).call fuel i) ((m.withStack s').call fuel i) := by
  have hinst (t : OperandStack) : (m.withStack t).inst.function i = m.inst.function i := rfl
  constructor
  · rintro ⟨f, hf, hentered⟩
    simp only [call, hinst, hf, callFunction_entered fuel hf (hargs f hf) hentered]
  · intro hrefused
    cases hf : m.inst.function i with
    | error t =>
      refine ⟨t, s, s', ?_, ?_⟩ <;> simp only [call, hinst, hf]
    | ok f =>
      have hnot : ¬ f.Entered m.inst { m.store with stack := s } := fun h => hrefused ⟨f, hf, h⟩
      obtain ⟨t, ht, ht'⟩ := callFunction_unentered fuel hf (hargs f hf) hnot
      refine ⟨t, s, s', ?_, ?_⟩
      · simp only [call, hinst, hf, ht]
        rfl
      · simp only [call, hinst, hf, ht']
        rfl

theorem callIndirect_unobserved {ts : List ValType} {tableIndex : UInt32} {declared : FuncType}
    (halike : s.Alike (ts ++ [.i32]) s')
    (hts : ∀ slot rest i f, s.pop = .ok (slot, rest) → m.inst.resolve tableIndex slot.index declared = .ok i →
      m.inst.function i = .ok f → f.takes = ts) :
    Unobserved (m.inst.AdmitsSlot (m.inst.resolve tableIndex · declared) { m.store with stack := s })
      (fun u t => (m.withStack u).failed t) ((m.withStack s).callIndirect fuel tableIndex declared)
      ((m.withStack s').callIndirect fuel tableIndex declared) := by
  have hstack (t : OperandStack) : (m.withStack t).stack = t := rfl
  have hinst (t : OperandStack) : (m.withStack t).inst = m.inst := rfl
  have htwice (t u : OperandStack) : (m.withStack t).withStack u = m.withStack u := rfl
  refine .indirect (fun t => (m.withStack t).callIndirect fuel tableIndex declared)
    (fun u i => (m.withStack u).call fuel i) id ?_ ?_ (fun i u u' => call_unobserved) halike hts
  · intro t e ht
    simp only [callIndirect, hstack, ht, id]
  · intro t slot rest ht
    simp only [callIndirect, hstack, ht, htwice, hinst]
    cases m.inst.resolve tableIndex slot.index declared <;> rfl

end Machine

/-! ## Calls within a run -/

namespace Config

variable {inst : Instance} {c : Config} {control : Control} {i : UInt32} {s s' : OperandStack}

def withStack (c : Config) (stack : OperandStack) : Config :=
  { c with state.store.stack := stack }

theorem call_unobserved (hargs : ∀ f, inst.function i = .ok f → s.Alike f.takes s') (control : Control) (site : Site) :
    Unobserved (inst.Admits i { c.state.store with stack := s }) (fun u e => (c.withStack u).fail e)
      ((c.popped control s).call inst i site) ((c.popped control s').call inst i site) := by
  constructor
  · rintro ⟨f, hf, hentered⟩
    cases hbody : f.body with
    | host h =>
      have hcall : h.call s = h.call s' := Function.call_entered hbody (hargs f hf) hentered
      simp only [call_host hf hbody, popped, hcall]
    | code body =>
      obtain ⟨entered, henter, henter'⟩ := Function.enter_entered hbody (hargs f hf) hentered
      simp only [call_code hf hbody, popped, henter, henter']
  · intro hrefused
    cases hf : inst.function i with
    | error t => exact ⟨.located t site, s, s', call_missing hf site, call_missing hf site⟩
    | ok f =>
      have hnot : ¬ f.Entered inst { c.state.store with stack := s } := fun h => hrefused ⟨f, hf, h⟩
      cases hbody : f.body with
      | host h =>
        obtain ⟨t, hcall, hcall'⟩ := Function.call_unentered hbody (hargs f hf) hnot
        simp only [call_host hf hbody, popped, hcall, hcall']
        exact ⟨.located t site, s, s', rfl, rfl⟩
      | code body =>
        obtain ⟨t, henter, henter'⟩ := Function.enter_unentered hbody (hargs f hf) hnot
        simp only [call_code hf hbody, popped, henter, henter']
        exact ⟨.located t site, s, s', rfl, rfl⟩

theorem step_call_unobserved (hnext : c.control.next? = some (.call i, control))
    (hargs : ∀ f, inst.function i = .ok f → s.Alike f.takes s') :
    Unobserved (inst.Admits i { c.state.store with stack := s }) (fun u e => (c.withStack u).fail e)
      ((c.withStack s).step inst) ((c.withStack s').step inst) := by
  have hstep (t : OperandStack) :
      (c.withStack t).step inst = (c.popped control t).call inst i ⟨0x10, control.innermost.index⟩ := by
    simp only [step, withStack, hnext]
    rfl
  rw [hstep, hstep]
  exact call_unobserved hargs control _

theorem step_indirect_unobserved {ts : List ValType} {typeIndex tableIndex : UInt32}
    (hnext : c.control.next? = some (.callIndirect typeIndex tableIndex, control)) (halike : s.Alike (ts ++ [.i32]) s')
    (hts : ∀ slot rest i f, s.pop = .ok (slot, rest) → inst.target typeIndex tableIndex slot.index = .ok i →
      inst.function i = .ok f → f.takes = ts) :
    Unobserved (inst.AdmitsSlot (inst.target typeIndex tableIndex) { c.state.store with stack := s })
      (fun u e => (c.withStack u).fail e) ((c.withStack s).step inst) ((c.withStack s').step inst) := by
  let site : Site := ⟨0x11, control.innermost.index⟩
  refine .indirect (fun t => (c.withStack t).step inst) (fun u i => (c.popped control u).call inst i site)
    (.located · site) ?_ ?_ (fun i u u' h => call_unobserved h control site) halike hts
  · intro t e ht
    simp only [step, withStack, hnext, Task.exec_callIndirect, indirectTarget, bind, EStateM.bind, Exec.pop_eq, ht]
    rfl
  · intro t slot rest ht
    have hstep : (c.withStack t).step inst = _ := step_indirect hnext ht
    rw [hstep]
    rfl

end Config

/-! ## All calls -/

/-- **The high half of an argument of 32 bits cannot be observed.** Over two stacks that differ in such halves only, calls
of a function answer the same and leave the same machine, the stack included, if they get as far as the function; otherwise
they fail for the same reason, and nothing but their stacks is different. So do calls through a table, where the high half
of the slot number may be another one too. All this also holds of the instructions, and of any function, whatever its body
is and however it ends. -/
theorem high_halves_unobservable :
    (∀ (m : Machine) (fuel : Nat) (i : UInt32) (s s' : OperandStack),
      (∀ f, m.inst.function i = .ok f → s.Alike f.takes s') →
      Unobserved (m.inst.Admits i { m.store with stack := s }) (fun u t => (m.withStack u).failed t)
        ((m.withStack s).call fuel i) ((m.withStack s').call fuel i)) ∧
    (∀ (m : Machine) (fuel : Nat) (tableIndex : UInt32) (declared : FuncType) (ts : List ValType) (s s' : OperandStack),
      s.Alike (ts ++ [.i32]) s' →
      (∀ slot rest i f, s.pop = .ok (slot, rest) → m.inst.resolve tableIndex slot.index declared = .ok i →
        m.inst.function i = .ok f → f.takes = ts) →
      Unobserved (m.inst.AdmitsSlot (m.inst.resolve tableIndex · declared) { m.store with stack := s })
        (fun u t => (m.withStack u).failed t) ((m.withStack s).callIndirect fuel tableIndex declared)
        ((m.withStack s').callIndirect fuel tableIndex declared)) ∧
    (∀ (inst : Instance) (c : Config) (control : Control) (i : UInt32) (s s' : OperandStack),
      c.control.next? = some (.call i, control) → (∀ f, inst.function i = .ok f → s.Alike f.takes s') →
      Unobserved (inst.Admits i { c.state.store with stack := s }) (fun u e => (c.withStack u).fail e)
        ((c.withStack s).step inst) ((c.withStack s').step inst)) ∧
    (∀ (inst : Instance) (c : Config) (control : Control) (typeIndex tableIndex : UInt32) (ts : List ValType)
      (s s' : OperandStack),
      c.control.next? = some (.callIndirect typeIndex tableIndex, control) → s.Alike (ts ++ [.i32]) s' →
      (∀ slot rest i f, s.pop = .ok (slot, rest) → inst.target typeIndex tableIndex slot.index = .ok i →
        inst.function i = .ok f → f.takes = ts) →
      Unobserved (inst.AdmitsSlot (inst.target typeIndex tableIndex) { c.state.store with stack := s })
        (fun u e => (c.withStack u).fail e) ((c.withStack s).step inst) ((c.withStack s').step inst)) :=
  ⟨fun _ _ _ _ _ => Machine.call_unobserved, fun _ _ _ _ _ _ _ => Machine.callIndirect_unobserved,
    fun _ _ _ _ _ _ => Config.step_call_unobserved, fun _ _ _ _ _ _ _ _ => Config.step_indirect_unobserved⟩

/-- A function answers its first argument and is called directly and through a table, with bits above the argument and above
the slot number. -/
theorem high_halves_unobservable_first :
    let f : Function := .guest "first" ⟨[.i32, .i64], [.i32]⟩ [] [.localGet 0]
    let m : Machine := ⟨⟨#[], #[f], #[⟨#[some 0], none⟩], 1⟩, #[], ⟨.empty 1, .new 0 none, #[], 0⟩⟩
    let stack (cells : List Cell) : OperandStack := (OperandStack.empty 1).pushAll cells
    (∃ m', (m.withStack (stack [9, 0xAAAA000000000005, 7])).call 3 0 = some (.ok [.i32 5], m') ∧
      (m.withStack (stack [9, 5, 7])).call 3 0 = some (.ok [.i32 5], m')) ∧
    ∃ m', (m.withStack (stack [9, 0xAAAA000000000005, 7, 0xFFFF000000000000])).callIndirect 3 0 f.type =
        some (.ok [.i32 5], m') ∧
      (m.withStack (stack [9, 5, 7, 0])).callIndirect 3 0 f.type = some (.ok [.i32 5], m') := by
  intro f m stack
  obtain ⟨calls, indirect, -⟩ := high_halves_unobservable
  have harguments : SameArguments [.i64, .i32] [7, 0xAAAA000000000005, 9] [7, 5, 9] :=
    .argument rfl (fun _ => rfl) (.argument rfl nofun (.under _))
  have hcall := calls m 3 0 (stack [9, 0xAAAA000000000005, 7]) (stack [9, 5, 7])
    (by rintro g ⟨⟩; exact ⟨harguments, rfl⟩)
  have hindirect := indirect m 3 0 f.type f.type.params (stack [9, 0xAAAA000000000005, 7, 0xFFFF000000000000])
    (stack [9, 5, 7, 0]) ⟨.argument rfl nofun harguments, rfl⟩ (by rintro slot rest i g ⟨⟩ ⟨⟩ ⟨⟩; rfl)
  have hentered : ∀ store : Store, store.depth = 0 → 2 ≤ store.stack.height → f.Entered m.inst store := by
    intro store hdepth hheight
    exact ⟨hheight, fun _ => by rw [hdepth]; decide⟩
  refine ⟨⟨_, rfl, ?_⟩, _, rfl, ?_⟩
  · rw [← hcall.same ⟨f, rfl, hentered _ rfl (by decide)⟩]
    rfl
  · rw [← hindirect.same ⟨_, _, 0, rfl, rfl, f, rfl, hentered _ rfl (by decide)⟩]
    rfl

end WasmCore
