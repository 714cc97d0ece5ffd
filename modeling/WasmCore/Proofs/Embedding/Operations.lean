/-
What operations leave alone.

An `Operation` is a request, or a change of a global or of the stack by the embedding program; `Machine.Operates` is any
number of them, each of which may succeed or fail. What instructions can do to a store (`Store.Evolves`) is carried over to
all of them (`Operates.kept`): they change nothing but the stack, bytes of the memory, its size, which never gets smaller,
and the values of mutable globals. `Machine.operations_keep` puts this together, with what a single write of a global comes
to.
-/
import WasmCore.Proofs.Embedding.SizeLimits

namespace WasmCore

/-! ## Operations -/

/-- what an embedding program asks of a machine, apart from its own work on the memory and the tables -/
inductive Operation where
  | request (request : Request)
  | setGlobal (index : UInt32) (value : Val)
  | push (c : Cell)
  | pop
  | dropKeep (drop keep : Nat)

namespace Machine

/-- what the machine answers within so many steps; a cell taken off the stack is answered as a number of 64 bits -/
def operate (fuel : Nat) (m : Machine) : Operation → Bounded (List Val)
  | .request request => m.perform fuel request
  | .setGlobal i v =>
    match m.setGlobal i v with
    | .error t => m.failed t
    | .ok m => some (.ok [], m)
  | .push c => some (.ok [], m.withStack (m.stack.push c))
  | .pop =>
    match m.stack.pop with
    | .error t => m.failed t
    | .ok (c, stack) => some (.ok [.i64 c], m.withStack stack)
  | .dropKeep drop keep =>
    match m.stack.dropKeep drop keep with
    | .error t => m.failed t
    | .ok stack => some (.ok [], m.withStack stack)

/-- the answers to operations one after another, each within so many steps -/
def operateAll (fuel : Nat) (m : Machine) : List Operation → Option (List (Except ExecError (List Val)) × Machine)
  | [] => some ([], m)
  | operation :: operations =>
    (m.operate fuel operation).bind fun (answer, m) =>
      (m.operateAll fuel operations).map fun (answers, m) => (answer :: answers, m)

/-- the machine after any operations, however many steps each of them takes -/
abbrev Operates : Machine → Machine → Prop :=
  Relation.ReflTransGen fun m m' => ∃ fuel operation result, m.operate fuel operation = some (result, m')

end Machine

/-! ## What is kept -/

/-- the same type and the same mutability; an immutable global is the same altogether -/
structure Global.Kept (g g' : Global) : Prop where
  type : g'.type = g.type
  isMutable : g'.isMutable = g.isMutable
  value : g.isMutable = false → g' = g

theorem Global.Kept.refl (g : Global) : g.Kept g :=
  ⟨rfl, rfl, fun _ => rfl⟩

theorem Global.Kept.trans {g g' g'' : Global} (h : g.Kept g') (h' : g'.Kept g'') : g.Kept g'' where
  type := h'.type.trans h.type
  isMutable := h'.isMutable.trans h.isMutable
  value := fun hg => (h'.value (h.isMutable.trans hg)).trans (h.value hg)

/-- as many globals, each of them kept, and a memory of whole pages that has not become smaller -/
structure Store.Kept (s t : Store) : Prop where
  count : t.globals.size = s.globals.size
  globals : ∀ (i : Nat) (g : Global), s.globals[i]? = some g → ∃ g', t.globals[i]? = some g' ∧ g.Kept g'
  memory : s.memory.Whole → t.memory.Whole ∧ s.memory.size ≤ t.memory.size

namespace Store

variable {s t u : Store}

theorem Kept.refl (s : Store) : s.Kept s :=
  ⟨rfl, fun _ g hg => ⟨g, hg, .refl g⟩, fun hw => ⟨hw, Nat.le_refl _⟩⟩

theorem Kept.trans (h : s.Kept t) (h' : t.Kept u) : s.Kept u where
  count := h'.count.trans h.count
  globals := by
    intro i g hg
    obtain ⟨g', hg', hkept⟩ := h.globals i g hg
    obtain ⟨g'', hg'', hkept'⟩ := h'.globals i g' hg'
    exact ⟨g'', hg'', hkept.trans hkept'⟩
  memory := by
    intro hw
    obtain ⟨hw', hle⟩ := h.memory hw
    obtain ⟨hw'', hle'⟩ := h'.memory hw'
    exact ⟨hw'', Nat.le_trans hle hle'⟩

theorem mutableGlobal_ok_iff {i : UInt32} {g : Global} :
    s.mutableGlobal i = .ok g ↔ s.globals[i.toNat]? = some g ∧ g.isMutable = true := by
  unfold mutableGlobal Store.global
  cases hg : s.globals[i.toNat]? with
  | none => exact ⟨nofun, fun h => nomatch h.1⟩
  | some g' =>
    cases hmutable : g'.isMutable with
    | false =>
      simp only [bind, Except.bind, hmutable]
      refine ⟨nofun, ?_⟩
      rintro ⟨heq, hg'⟩
      cases heq
      exact nomatch hmutable.symm.trans hg'
    | true =>
      simp only [bind, Except.bind, hmutable]
      constructor
      · intro h
        cases h
        exact ⟨rfl, hmutable⟩
      · rintro ⟨heq, -⟩
        cases heq
        rfl

/-- a write of a global that is mutable, as instructions and the embedding program have checked before -/
theorem writeGlobal_kept {i : UInt32} {g : Global} (h : s.mutableGlobal i = .ok g) (c : Cell) :
    s.Kept (s.writeGlobal i c) where
  count := Array.size_modify
  globals := by
    intro j g' hg'
    obtain ⟨hg, hmutable⟩ := mutableGlobal_ok_iff.1 h
    by_cases hj : i.toNat = j
    · subst hj
      obtain rfl : g = g' := Option.some.inj (hg.symm.trans hg')
      refine ⟨g.write c, ?_, rfl, rfl, fun himmutable => ?_⟩
      · rw [writeGlobal, Array.getElem?_modify, if_pos rfl, hg, Option.map_some]
      · rw [hmutable] at himmutable
        cases himmutable
    · refine ⟨g', ?_, .refl g'⟩
      rw [writeGlobal, Array.getElem?_modify, if_neg hj, hg']
  memory := (Kept.refl s).memory

theorem Change.kept (h : s.Change t) : s.Kept t := by
  -- the size of the memory is known for all changes at once, from the limits on sizes
  have hmemory : s.memory.Whole → t.memory.Whole ∧ s.memory.size ≤ t.memory.size := by
    intro hw
    obtain ⟨hw', hpages⟩ := (Evolves.memory (.single h)).pages hw
    refine ⟨hw', ?_⟩
    rw [hw, hw']
    exact Nat.mul_le_mul_right _ (by omega)
  cases h with
  | stack | depth | write | grow => exact ⟨rfl, (Kept.refl s).globals, hmemory⟩
  | setGlobal h => exact writeGlobal_kept h _

theorem Evolves.kept (h : s.Evolves t) : s.Kept t := by
  induction h with
  | refl => exact .refl s
  | tail _ hc ih => exact ih.trans hc.kept

end Store

/-! ## Machines -/

namespace Machine

variable {m m' m'' : Machine} {fuel : Nat}

/-- the instance and the exports, and what is kept of the store -/
structure Kept (m m' : Machine) : Prop where
  inst : m'.inst = m.inst
  exports : m'.exports = m.exports
  store : m.store.Kept m'.store

theorem Kept.refl (m : Machine) : m.Kept m :=
  ⟨rfl, rfl, .refl m.store⟩

theorem Kept.trans (h : m.Kept m') (h' : m'.Kept m'') : m.Kept m'' :=
  ⟨h'.inst.trans h.inst, h'.exports.trans h.exports, h.store.trans h'.store⟩

theorem Evolves.kept (h : m.Evolves m') : m.Kept m' :=
  ⟨h.inst, h.exports, h.store.kept⟩

theorem withStack_kept (m : Machine) (stack : OperandStack) : m.Kept (m.withStack stack) :=
  (m.withStack_evolves stack).kept

/-- a value written to a global that is there, is mutable and has the type of the value; all else stays as it is -/
theorem setGlobal_ok_iff {i : UInt32} {v : Val} :
    m.setGlobal i v = .ok m' ↔ ∃ g, m.store.globals[i.toNat]? = some g ∧ g.isMutable = true ∧ g.type = v.type ∧
      m' = { m with store.globals := m.store.globals.setIfInBounds i.toNat (.new v true) } := by
  have hwrite {g : Global} (hg : m.store.globals[i.toNat]? = some g) (hmutable : g.isMutable = true)
      (htype : g.type = v.type) :
      m.store.writeGlobal i v.toCell =
        { m.store with globals := m.store.globals.setIfInBounds i.toNat (.new v true) } := by
    have hglobal : g.write v.toCell = .new v true := by
      rw [Global.write, htype, Val.mask_toCell, hmutable]
      rfl
    have hglobals : m.store.globals.modify i.toNat (fun g => g.write v.toCell) =
        m.store.globals.setIfInBounds i.toNat (.new v true) := by
      apply Array.ext_getElem?
      intro j
      rw [Array.getElem?_modify, Array.getElem?_setIfInBounds]
      by_cases hj : i.toNat = j
      · subst hj
        rw [if_pos rfl, if_pos rfl, hg, Option.map_some, hglobal, if_pos (Array.getElem?_eq_some_iff.1 hg).1]
      · rw [if_neg hj, if_neg hj]
    rw [Store.writeGlobal, hglobals]
  constructor
  · intro h
    have heq := setGlobal_eq h
    unfold setGlobal at h
    cases hg : m.store.mutableGlobal i with
    | error t =>
      rw [hg] at h
      cases h
    | ok g =>
      simp only [hg, bind, Except.bind] at h
      obtain ⟨hglobal, hmutable⟩ := Store.mutableGlobal_ok_iff.1 hg
      by_cases htype : g.type = v.type
      · exact ⟨g, hglobal, hmutable, htype, by rw [heq, hwrite hglobal hmutable htype]⟩
      · rw [if_pos htype] at h
        cases h
  · rintro ⟨g, hg, hmutable, htype, rfl⟩
    unfold setGlobal
    simp only [Store.mutableGlobal_ok_iff.2 ⟨hg, hmutable⟩, bind, Except.bind, htype, ne_eq, not_true_eq_false, if_false,
      hwrite hg hmutable htype]
    rfl

/-- a write either succeeds as it may, or fails and leaves the machine as it is -/
theorem operate_setGlobal {i : UInt32} {v : Val} {result : Except ExecError (List Val)}
    (h : m.operate fuel (.setGlobal i v) = some (result, m')) :
    (m.setGlobal i v = .ok m' ∧ result = .ok []) ∨
      ∃ t, m.setGlobal i v = .error t ∧ result = .error (.unlocated t) ∧ m' = m := by
  unfold operate at h
  cases hset : m.setGlobal i v with
  | error t =>
    simp only [hset] at h
    cases h
    exact .inr ⟨t, rfl, rfl, rfl⟩
  | ok m₁ =>
    simp only [hset] at h
    cases h
    exact .inl ⟨rfl, rfl⟩

theorem operate_kept {operation : Operation} {result : Except ExecError (List Val)}
    (h : m.operate fuel operation = some (result, m')) : m.Kept m' := by
  cases operation with
  | request request => exact (perform_evolves h).kept
  | setGlobal i v =>
    rcases operate_setGlobal h with ⟨hset, -⟩ | ⟨-, -, -, rfl⟩
    · obtain ⟨g, hg, hmutable, -, -⟩ := setGlobal_ok_iff.1 hset
      rw [setGlobal_eq hset]
      exact ⟨rfl, rfl, Store.writeGlobal_kept (Store.mutableGlobal_ok_iff.2 ⟨hg, hmutable⟩) _⟩
    · exact .refl _
  | push c =>
    cases h
    exact m.withStack_kept _
  | pop =>
    unfold operate at h
    cases hpop : m.stack.pop with
    | error t =>
      simp only [hpop] at h
      cases h
      exact .refl m
    | ok popped =>
      simp only [hpop] at h
      cases h
      exact m.withStack_kept _
  | dropKeep drop keep =>
    unfold operate at h
    cases hcut : m.stack.dropKeep drop keep with
    | error t =>
      simp only [hcut] at h
      cases h
      exact .refl m
    | ok stack =>
      simp only [hcut] at h
      cases h
      exact m.withStack_kept stack

theorem Operates.kept (h : m.Operates m') : m.Kept m' := by
  induction h with
  | refl => exact .refl m
  | tail _ hop ih =>
    obtain ⟨fuel, operation, result, hop⟩ := hop
    exact ih.trans (operate_kept hop)

/-- **Operations leave alone all that the module has fixed.** For any module and any operations, of which each may succeed or
fail, the instance (signatures, functions, tables and the limit) and the exports stay the same, and so do the number of
globals, their types and mutabilities, and the immutable ones altogether. A machine starts with whole pages of memory, and
keeps whole pages, never fewer. A write by the embedding program puts the value into the one global and does nothing else, if
that global is there, is mutable and has the type; otherwise it fails and does nothing at all. -/
theorem operations_keep (h : m.Operates m') :
    (m'.inst = m.inst ∧ m'.exports = m.exports) ∧
    (m'.store.globals.size = m.store.globals.size ∧
      ∀ (i : Nat) (g : Global), m.store.globals[i]? = some g → ∃ g', m'.store.globals[i]? = some g' ∧
        g'.type = g.type ∧ g'.isMutable = g.isMutable ∧ (g.isMutable = false → g' = g)) ∧
    ((∀ mod limits, instantiate mod limits = .ok m → m.memory.Whole) ∧
      (m.memory.Whole → m'.memory.Whole ∧ m.memory.size ≤ m'.memory.size)) ∧
    ∀ fuel i v result m'', m'.operate fuel (.setGlobal i v) = some (result, m'') →
      (∃ g, m'.store.globals[i.toNat]? = some g ∧ g.isMutable = true ∧ g.type = v.type ∧ result = .ok [] ∧
        m'' = { m' with store.globals := m'.store.globals.setIfInBounds i.toNat (.new v true) }) ∨
      ((∀ g, m'.store.globals[i.toNat]? = some g → g.isMutable = true → g.type ≠ v.type) ∧
        (∃ t, result = .error (.unlocated t)) ∧ m'' = m') := by
  obtain ⟨hinst, hexports, hcount, hglobals, hmemory⟩ := h.kept
  refine ⟨⟨hinst, hexports⟩, ⟨hcount, ?_⟩, ⟨fun _ _ hm => (instantiate_memory hm).1, hmemory⟩, ?_⟩
  · intro i g hg
    obtain ⟨g', hg', htype, hmutable, hvalue⟩ := hglobals i g hg
    exact ⟨g', hg', htype, hmutable, hvalue⟩
  · intro fuel i v result m'' hop
    rcases operate_setGlobal hop with ⟨hset, hresult⟩ | ⟨t, hset, hresult, rfl⟩
    · obtain ⟨g, hg, hmutable, htype, hm''⟩ := setGlobal_ok_iff.1 hset
      exact .inl ⟨g, hg, hmutable, htype, hresult, hm''⟩
    · refine .inr ⟨?_, ⟨t, hresult⟩, rfl⟩
      intro g hg hmutable htype
      rw [setGlobal_ok_iff.2 ⟨g, hg, hmutable, htype, rfl⟩] at hset
      cases hset

/-- A sequence writes the mutable global, then traps on the other one; then the embedding program writes each of them, the
second without success. -/
theorem operations_keep_immutable : ∃ m m' : Machine,
    instantiate { Module.empty with pages := 0, globals := #[.new (.i32 5) false, .new (.i32 7) true] } ⟨none, 1, 1⟩ = .ok m ∧
      m.Operates m' ∧ m'.store.globals[1]? = some (.new (.i32 3) true) ∧ m'.store.globals[0]? = some (.new (.i32 5) false) ∧
      m'.inst = m.inst := by
  obtain ⟨m, hm, hfirst⟩ : ∃ m : Machine,
      instantiate { Module.empty with pages := 0, globals := #[.new (.i32 5) false, .new (.i32 7) true] } ⟨none, 1, 1⟩ = .ok m ∧
        m = ⟨⟨#[], #[], #[], 1⟩, #[], ⟨.empty 1, .new 0 none, #[.new (.i32 5) false, .new (.i32 7) true], 0⟩⟩ := ⟨_, rfl, rfl⟩
  have hrun : m.operate 4 (.request (.execute
      [.const (.i32 9), .globalSet 1, .const (.i32 8), .globalSet 0] .empty)) =
      some (.error (.located (.immutableGlobal 0) ⟨0x24, 3⟩),
        { m with store.globals := #[.new (.i32 5) false, .new (.i32 9) true] }) := by
    rw [hfirst]
    rfl
  have hset : operate 0 { m with store.globals := #[.new (.i32 5) false, .new (.i32 9) true] } (.setGlobal 1 (.i32 3)) =
      some (.ok [], { m with store.globals := #[.new (.i32 5) false, .new (.i32 3) true] }) := by
    rw [hfirst]
    rfl
  have hrefused : operate 0 { m with store.globals := #[.new (.i32 5) false, .new (.i32 3) true] } (.setGlobal 0 (.i32 3)) =
      some (.error (.unlocated (.immutableGlobal 0)), { m with store.globals := #[.new (.i32 5) false, .new (.i32 3) true] }) := by
    rw [hfirst]
    rfl
  have hops : m.Operates { m with store.globals := #[.new (.i32 5) false, .new (.i32 3) true] } :=
    ((Relation.ReflTransGen.single ⟨_, _, _, hrun⟩).tail ⟨_, _, _, hset⟩).tail ⟨_, _, _, hrefused⟩
  obtain ⟨⟨hinst, -⟩, ⟨-, hglobals⟩, -, -⟩ := operations_keep hops
  obtain ⟨g, hg, -, -, hkept⟩ := hglobals 0 (.new (.i32 5) false) (by rw [hfirst]; rfl)
  exact ⟨m, _, hm, hops, rfl, by rw [hg, hkept rfl], hinst⟩

end Machine

end WasmCore
