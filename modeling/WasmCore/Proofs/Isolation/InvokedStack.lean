/-
The operand stack across an invocation.

`Machine.invoke` pushes the arguments and, if the call fails, cuts the stack down to its old height. Whether this restores
the stack depends on what the code does to cells that are not its own, and nothing checks that before it runs. What holds for
any code is `Machine.invoke_stack`: an invocation that succeeds leaves the height as it was, one that fails leaves no more
cells than there were, and whatever the invocation can do without, it leaves alone. So only code that would run out of cells
on an empty stack can change what was there, and valid code never does. That such code gets at the cells below is shown by
`Machine.invoke_takes_cells`.
-/
import WasmCore.Proofs.Isolation.AnyCode
import WasmCore.Proofs.Typing.FailedCalls

namespace WasmCore.Machine

variable {m m' : Machine} {fuel : Nat} {name : String} {args : List Val} {result : Except ExecError (List Val)}

/-- if the name is that of a host function, this stands under its own signature -/
def OwnSignature (m : Machine) (name : String) : Prop :=
  ∀ i f host, m.findExport name = some i → m.inst.function i = .ok f → f.body = .host host → host.type = f.type

/-! ## Heights -/

/-- a call that succeeds has taken as many cells as the function has parameters -/
theorem call_height {i : UInt32} {f : Function} {vs : List Val} (hf : m.inst.function i = .ok f)
    (h : m.call fuel i = some (.ok vs, m')) (hhost : ∀ host, f.body = .host host → host.type = f.type) :
    m.stack.height = m'.stack.height + f.type.params.length := by
  unfold call at h
  simp only [hf, Option.bind_eq_some_iff] at h
  obtain ⟨⟨answer, m₁⟩, hcall, h⟩ := h
  cases answer with
  | error e => cases h
  | ok _ =>
    obtain ⟨n, hbefore, hafter⟩ := callFunction_heights hf hcall hhost
    simp only [popValues] at h
    cases hp : m₁.stack.popMany f.type.results.length with
    | error t =>
      rw [hp] at h
      cases h
    | ok popped =>
      obtain ⟨cs, stack⟩ := popped
      rw [hp] at h
      cases h
      obtain ⟨hlen, hcells⟩ := OperandStack.popMany_ok hp
      rw [m₁.stack.height_eq, hcells, List.length_append, List.length_reverse, hlen, ← stack.height_eq] at hafter
      show m.stack.height = stack.height + _
      omega

theorem invoke_ok_height {vs : List Val} (h : m.invoke fuel name args = some (.ok vs, m')) (hown : m.OwnSignature name) :
    m'.stack.height = m.stack.height := by
  rcases invoke_cases h with ⟨t, hresult, -⟩ | ⟨i, f, m₁, hname, hf, hargs, hcall, hleft⟩
  · cases hresult
  · rcases hleft with ⟨_, -, rfl⟩ | ⟨e, hresult, -⟩
    · have hheight : (m.stack.pushAll (args.map Val.toCell)).height = m'.stack.height + f.type.params.length :=
        call_height (m := m.withStack _) hf hcall fun host hbody => hown i f host hname hf hbody
      rw [OperandStack.height_pushAll, ← hargs, List.length_map, List.length_map] at hheight
      exact (Nat.add_right_cancel hheight).symm
    · cases hresult

theorem invoke_error_height {e : ExecError} (h : m.invoke fuel name args = some (.error e, m')) :
    m'.stack.height ≤ m.stack.height := by
  rcases invoke_cases h with ⟨t, -, rfl⟩ | ⟨i, f, m₁, -, -, -, -, hleft⟩
  · exact Nat.le_refl _
  · rcases hleft with ⟨vs, hresult, -⟩ | ⟨_, -, rfl⟩
    · cases hresult
    · show (m₁.stack.truncate m.stack.height).height ≤ m.stack.height
      rw [OperandStack.height_truncate]
      exact Nat.min_le_right _ _

/-! ## Cells -/

/-- the cells `base` are left alone, if the same invocation does not run out of cells without them -/
theorem invoke_over_cells (h : m.invoke fuel name args = some (result, m')) {s : OperandStack} {base : List Cell}
    (hbase : m.stack.cells = s.cells ++ base) :
    ShortOfCells ((m.withStack s).invoke fuel name args) ∨
    ∃ m₁, (m.withStack s).invoke fuel name args = some (result, m₁) ∧ m'.stack.cells = m₁.stack.cells ++ base := by
  have hover : (m.withStack s).Over base m := ⟨rfl, rfl, hbase, rfl, rfl, rfl⟩
  rcases invoke_alike hover fuel name args with hrel | hshort
  · right
    rw [h] at hrel
    generalize (m.withStack s).invoke fuel name args = p at hrel
    cases hrel with
    | @some a _ hab =>
      obtain ⟨_, m₁⟩ := a
      obtain ⟨rfl, hstack⟩ := hab
      exact ⟨m₁, rfl, hstack.store.stack⟩
  · exact .inl hshort

/-- all of them are, if it does not run out of cells on an empty stack -/
theorem invoke_same_cells (h : m.invoke fuel name args = some (result, m'))
    (henough : ¬ ShortOfCells ((m.withStack (.empty 1)).invoke fuel name args))
    (hown : (∃ vs, result = .ok vs) → m.OwnSignature name) : m'.stack.cells = m.stack.cells := by
  have hbase : m.stack.cells = (OperandStack.empty 1).cells ++ m.stack.cells := rfl
  rcases invoke_over_cells h hbase with hshort | ⟨m₁, hbare, hcells⟩
  · exact absurd hshort henough
  · have hempty : m₁.stack.height = 0 := by
      cases result with
      | ok vs => exact invoke_ok_height hbare (hown ⟨vs, rfl⟩)
      | error e => exact Nat.le_zero.1 (invoke_error_height hbare)
    rw [m₁.stack.height_eq] at hempty
    rw [hcells, List.length_eq_zero_iff.1 hempty, List.nil_append]

theorem CallFails.length_le {i : UInt32} {f : Function} {e : ExecError} {taken left : List Cell}
    (h : m.CallFails fuel i e m' taken left) (hf : m.inst.function i = .ok f) :
    taken.length ≤ f.type.params.length := by
  cases h with
  | refused => exact Nat.zero_le _
  | host function _ length | trapped function _ length =>
    rw [hf] at function
    cases function
    exact Nat.le_of_eq length

/-- in particular if the module has valid bodies -/
theorem From.invoke_same_cells {mod : Module} (hv : mod.ValidBodies) (hm : m.From mod)
    (h : m.invoke fuel name args = some (result, m')) : m'.stack.cells = m.stack.cells := by
  rcases invoke_cases h with ⟨t, -, rfl⟩ | ⟨i, f, m₁, -, hf, hargs, hcall, hleft⟩
  · rfl
  · have hends := (hm.withStack _).call_ends hv hcall
    have hpushed : (m.withStack (m.stack.pushAll (args.map Val.toCell))).stack.cells =
        (args.map Val.toCell).reverse ++ m.stack.cells := m.stack.cells_pushAll _
    have hlen : ((args.map Val.toCell).reverse).length = f.type.params.length := by
      rw [← hargs, List.length_reverse, List.length_map, List.length_map]
    rcases hleft with ⟨vs, rfl, rfl⟩ | ⟨e, rfl, rfl⟩
    · obtain ⟨g, taken, hg, htaken, hcells⟩ := hends
      have hgf : g = f := Except.ok.inj (hg.symm.trans hf)
      rw [hpushed] at hcells
      exact (List.append_inj_right hcells (by rw [hlen, htaken, hgf])).symm
    · obtain ⟨taken, left, base, hfails, hbefore, hafter, -⟩ := hends
      -- the call has taken arguments only, so the old cells are the lowest ones of what it left
      rw [hpushed] at hbefore
      have hle : taken.length ≤ f.type.params.length := hfails.length_le hf
      have hlens := congrArg List.length hbefore
      rw [List.length_append, List.length_append, hlen] at hlens
      obtain ⟨rest, hrest⟩ : m.stack.cells <:+ base :=
        List.suffix_of_suffix_length_le (List.suffix_append _ _) (hbefore ▸ List.suffix_append taken base) (by omega)
      have hcells : m₁.stack.cells = (left ++ rest) ++ m.stack.cells := by
        rw [hafter, ← hrest, List.append_assoc]
      show (m₁.stack.truncate m.stack.height).cells = _
      rw [m.stack.height_eq]
      exact OperandStack.cells_truncate hcells

/-- **What an invocation leaves on the stack**, for any code. It leaves the height as it was if it succeeds, and no more
cells than there were if it fails. It leaves alone every cell that it can do without, and all of them if it can do
without any or the bodies of the module are valid. -/
theorem invoke_stack (h : m.invoke fuel name args = some (result, m')) :
    ((∃ vs, result = .ok vs) → m.OwnSignature name → m'.stack.height = m.stack.height) ∧
    ((∃ e, result = .error e) → m'.stack.height ≤ m.stack.height) ∧
    (∀ s base, m.stack.cells = OperandStack.cells s ++ base →
      ShortOfCells ((m.withStack s).invoke fuel name args) ∨
      ∃ m₁, (m.withStack s).invoke fuel name args = some (result, m₁) ∧ m'.stack.cells = m₁.stack.cells ++ base) ∧
    (¬ ShortOfCells ((m.withStack (.empty 1)).invoke fuel name args) →
      ((∃ vs, result = .ok vs) → m.OwnSignature name) → m'.stack.cells = m.stack.cells) ∧
    ∀ (mod : Module) limits m₀, mod.ValidBodies → instantiate mod limits = .ok m₀ → m₀.Later m →
      m'.stack.cells = m.stack.cells := by
  refine ⟨?_, ?_, fun s base => invoke_over_cells h, invoke_same_cells h, ?_⟩
  · rintro ⟨vs, rfl⟩
    exact invoke_ok_height h
  · rintro ⟨e, rfl⟩
    exact invoke_error_height h
  · intro mod limits m₀ hv hm₀ hl
    exact ((instantiate_from hm₀).later hl).invoke_same_cells hv h

/-- A failure within a function that was called by the one invoked: the invocation does not run out of cells on an empty
stack, so the cell that was there before is still there. -/
theorem invoke_stack_leaking :
    ∃ m', (leakingWith [7]).invoke 10 "g" [.i32 5] = some (.error (.located .unreachable ⟨0x00, 1⟩), m') ∧
      ¬ ShortOfCells (((leakingWith [7]).withStack (.empty 1)).invoke 10 "g" [.i32 5]) ∧
      m'.stack.cells = (leakingWith [7]).stack.cells := by
  have hinvoke : (leakingWith [7]).invoke 10 "g" [.i32 5] =
      some (.error (.located .unreachable ⟨0x00, 1⟩), leakingWith [7]) := rfl
  have hbare : ¬ ShortOfCells (((leakingWith [7]).withStack (.empty 1)).invoke 10 "g" [.i32 5]) := by
    rintro ⟨needed, depth, site, m, h⟩
    cases h
  obtain ⟨-, -, -, hsame, -⟩ := invoke_stack hinvoke
  exact ⟨_, hinvoke, hbare, hsame hbare fun ⟨vs, hvs⟩ => by cases hvs⟩

/-- functions that reach below their own cells, and a host function under a signature that is not its own -/
def taking : Module :=
  { Module.empty with
    pages := 0
    functions := #[.guest "f" ⟨[], []⟩ [] [.drop, .unreachable],
      .guest "g" ⟨[], []⟩ [] [.drop, .const (.i32 9), .unreachable],
      ⟨"h", ⟨[], [.i32]⟩, [], .host ⟨⟨[], []⟩, fun _ => .ok .unit⟩⟩]
    exports := #[("f", 0), ("g", 1), ("h", 2)] }

def takingWith (cells : List Cell) : Machine :=
  ⟨⟨#[], taking.functions, #[], 2⟩, taking.exports, ⟨(OperandStack.empty 4).withCells cells, .new 0 none, #[], 0⟩⟩

/-- **Code that has not been validated gets at the cells below.** An invocation that fails has taken a cell, or put another
in its place; one that succeeds under a wrong signature has taken one, too. -/
theorem invoke_takes_cells :
    instantiate taking ⟨none, 4, 2⟩ = .ok (takingWith []) ∧
    (takingWith [5]).invoke 5 "f" [] = some (.error (.located .unreachable ⟨0x00, 1⟩), takingWith []) ∧
    (takingWith [5]).invoke 5 "g" [] = some (.error (.located .unreachable ⟨0x00, 2⟩), takingWith [9]) ∧
    (takingWith [5]).invoke 5 "h" [] = some (.ok [.i32 5], takingWith []) ∧
    (takingWith []).stack.height ≠ (takingWith [5]).stack.height ∧
    (takingWith [9]).stack.cells ≠ (takingWith [5]).stack.cells :=
  ⟨rfl, rfl, rfl, rfl, by decide, by decide⟩

end WasmCore.Machine
