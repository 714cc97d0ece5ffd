/-
Validation: which bodies are well typed.

An instruction is typed by the cells that it takes off the stack and the cells that it leaves, `ins` and `outs`, the top
one first. A sequence is typed one instruction after another, each over cells that it does not touch. A branch to a loop
carries nothing, a branch to a `block` or `if` carries its results, and a branch to the outermost label carries the
results of the function, as `return` does. Whatever never goes on to the next instruction (`unreachable`, `br`,
`br_table`, `return`) may leave cells of any types, and may find any cells below those it carries.

`Function.Valid` and `Module.Valid` are what a validated module promises whose host functions are what it takes them for. The
alignment hint of a memory access is not restricted, since it has no effect; every module has a memory.
-/
import WasmCore.Module

namespace WasmCore

/-! ## Surroundings -/

/-- what the code of a module may refer to -/
structure Scope where
  types : Array FuncType
  /-- signatures of the functions -/
  functions : Array FuncType
  /-- number of tables -/
  tables : Nat
  /-- types of the globals, and whether they may be written -/
  globals : Array (ValType × Bool)

/-- what no run changes of a global -/
def Global.kind (g : Global) : ValType × Bool :=
  (g.type, g.isMutable)

def Module.scope (m : Module) : Scope where
  types := m.types
  functions := m.functions.map Function.type
  tables := m.tables.size
  globals := m.globals.map Global.kind

/-- what an instruction may refer to, and where it can branch to -/
structure Place where
  scope : Scope
  locals : List ValType
  /-- what a branch to each label carries, the innermost label first -/
  labels : List (List ValType)
  /-- what the function returns -/
  results : List ValType

/-- inside one more construct, a branch to which carries `ts` -/
def Place.inside (P : Place) (ts : List ValType) : Place :=
  { P with labels := ts :: P.labels }

/-- the types of what a `block`, `loop` or `if` leaves behind -/
def BlockType.types : BlockType → List ValType
  | empty => []
  | value t => [t]

theorem BlockType.length_types (t : BlockType) : t.types.length = t.arity := by
  cases t <;> rfl

namespace FuncType

/-- types of the arguments on the stack, the last one on top -/
def ins (t : FuncType) : List ValType :=
  t.params.reverse

/-- types of the results on the stack, the last one on top -/
def outs (t : FuncType) : List ValType :=
  t.results.reverse

theorem length_ins (t : FuncType) : t.ins.length = t.params.length :=
  List.length_reverse

theorem length_outs (t : FuncType) : t.outs.length = t.results.length :=
  List.length_reverse

end FuncType

/-! ## Instructions -/

mutual

/-- the instruction takes cells of the types `ins` off the stack and leaves cells of the types `outs` -/
inductive Instr.Typed : Place → Instr → (ins outs : List ValType) → Prop
  | unreachable {P ins outs} : Typed P .unreachable ins outs
  | nop {P} : Typed P .nop [] []
  | ret {P ins outs} : Typed P .ret (P.results ++ ins) outs
  | drop {P t} : Typed P .drop [t] []
  | select {P t} : Typed P .select [.i32, t, t] [t]
  | const {P v} : Typed P (.const v) [] [v.type]
  | unary {P op} : Typed P (.unary op) [op.operand] [op.result]
  | binary {P op} : Typed P (.binary op) [op.operand, op.operand] [op.result]
  | load {P op arg} : Typed P (.load op arg) [.i32] [op.result]
  | store {P op arg} : Typed P (.store op arg) [op.operand, .i32] []
  | memorySize {P} : Typed P .memorySize [] [.i32]
  | memoryGrow {P} : Typed P .memoryGrow [.i32] [.i32]
  | localGet {P i t} (h : P.locals[i.toNat]? = some t) : Typed P (.localGet i) [] [t]
  | localSet {P i t} (h : P.locals[i.toNat]? = some t) : Typed P (.localSet i) [t] []
  | localTee {P i t} (h : P.locals[i.toNat]? = some t) : Typed P (.localTee i) [t] [t]
  | globalGet {P i t m} (h : P.scope.globals[i.toNat]? = some (t, m)) : Typed P (.globalGet i) [] [t]
  | globalSet {P i t} (h : P.scope.globals[i.toNat]? = some (t, true)) : Typed P (.globalSet i) [t] []
  | call {P i f} (h : P.scope.functions[i.toNat]? = some f) : Typed P (.call i) f.ins f.outs
  | callIndirect {P typeIndex tableIndex f} (h : P.scope.types[typeIndex.toNat]? = some f)
      (ht : tableIndex.toNat < P.scope.tables) :
      Typed P (.callIndirect typeIndex tableIndex) (.i32 :: f.ins) f.outs
  | block {P t body} (h : BodyTyped (P.inside t.types) body [] t.types) : Typed P (.block t body) [] t.types
  | loop {P t body} (h : BodyTyped (P.inside []) body [] t.types) : Typed P (.loop t body) [] t.types
  | ite {P t body otherwise} (h : BodyTyped (P.inside t.types) body [] t.types)
      (ho : BodyTyped (P.inside t.types) otherwise [] t.types) : Typed P (.ite t body otherwise) [.i32] t.types
  | br {P d ts ins outs} (h : P.labels[d.toNat]? = some ts) : Typed P (.br d) (ts ++ ins) outs
  | brIf {P d ts} (h : P.labels[d.toNat]? = some ts) : Typed P (.brIf d) (.i32 :: ts) ts
  | brTable {P targets fallback ts ins outs} (h : ∀ d ∈ targets ++ [fallback], P.labels[d.toNat]? = some ts) :
      Typed P (.brTable targets fallback) (.i32 :: (ts ++ ins)) outs

/-- the sequence turns cells of the types `ins`, which are all there are, into cells of the types `outs` -/
inductive Instr.BodyTyped : Place → List Instr → (ins outs : List ValType) → Prop
  | nil {P ts} : BodyTyped P [] ts ts
  | cons {P i rest ins mid under outs} (h : Instr.Typed P i ins mid) (hr : BodyTyped P rest (mid ++ under) outs) :
      BodyTyped P (i :: rest) (ins ++ under) outs

end

/-- an instruction in front of a sequence, over the cells `under` that it does not touch -/
theorem Instr.BodyTyped.over {P : Place} {i : Instr} {rest : List Instr} {ins mid ts outs : List ValType}
    (under : List ValType) (h : i.Typed P ins mid) (hr : BodyTyped P rest (mid ++ under) outs)
    (hts : ts = ins ++ under := by rfl) : BodyTyped P (i :: rest) ts outs := by
  rw [hts]; exact .cons h hr

/-- the first instruction of a sequence, over the cells that it does not touch -/
theorem Instr.BodyTyped.uncons {P : Place} {i : Instr} {rest : List Instr} {ts outs : List ValType}
    (h : BodyTyped P (i :: rest) ts outs) :
    ∃ ins mid under, ts = ins ++ under ∧ i.Typed P ins mid ∧ BodyTyped P rest (mid ++ under) outs := by
  cases h with
  | cons hi hr => exact ⟨_, _, _, rfl, hi, hr⟩

/-- an instruction after a sequence -/
theorem Instr.BodyTyped.concat {P : Place} {code : List Instr} {i : Instr} {ts ins mid under : List ValType}
    (h : BodyTyped P code ts (ins ++ under)) (hi : i.Typed P ins mid) : BodyTyped P (code ++ [i]) ts (mid ++ under) := by
  induction code generalizing ts with
  | nil =>
    cases h
    exact .cons hi .nil
  | cons j code ih =>
    obtain ⟨_, _, _, rfl, hj, hrest⟩ := h.uncons
    exact .cons hj (ih hrest)

/-! ## Functions and modules -/

/-- where the body of a function stands -/
def Function.place (S : Scope) (f : Function) : Place :=
  ⟨S, f.type.params ++ f.locals, [f.type.outs], f.type.outs⟩

/-- the code of the function, if it has some, has the signature of the function -/
def Function.ValidCode (S : Scope) (f : Function) : Prop :=
  ∀ code, f.body = .code code → Instr.BodyTyped (f.place S) code [] f.type.outs

/-- the host function in it, if there is one, has been given its own signature, as `Module.addHost` does -/
def Function.OwnSignature (f : Function) : Prop :=
  ∀ h, f.body = .host h → h.type = f.type

/-- The body has the signature of the function. Validation looks at code; that a host function stands under its own signature
is a condition by itself, and without it nothing that is said here of valid code would hold. -/
structure Function.Valid (S : Scope) (f : Function) : Prop where
  code : f.ValidCode S
  host : f.OwnSignature

theorem Function.valid_guest {S : Scope} {name : String} {type : FuncType} {locals : List ValType} {body : List Instr}
    (h : Instr.BodyTyped ((guest name type locals body).place S) body [] type.outs) :
    (guest name type locals body).Valid S where
  code := by
    rintro _ ⟨⟩
    exact h
  host := nofun

/-- the bodies are well typed, host functions stand under their own signatures, and exports and tables refer to functions that
exist -/
structure Module.Valid (m : Module) : Prop where
  functions : ∀ f ∈ m.functions, f.Valid m.scope
  exports : ∀ e ∈ m.exports, e.2.toNat < m.functions.size
  tables : ∀ t ∈ m.tables, ∀ i, some i ∈ t.elements → i.toNat < m.functions.size

/-! ## Traps -/

/-- How a run of valid code can fail: by its numbers, its memory accesses, its tables, its depth, or in the host. Apart from
`hostSignatureMismatch`, the traps of the host are those that functions which were called have `raised` themselves. -/
inductive Trap.Expected (raised : Trap → Prop) : Trap → Prop
  | divisionByZero : Expected raised .divisionByZero
  | integerOverflow : Expected raised .integerOverflow
  | memoryOutOfBounds (address length size : Nat) : Expected raised (.memoryOutOfBounds address length size)
  | unreachable : Expected raised .unreachable
  | callStackExhausted : Expected raised .callStackExhausted
  | undefinedElement (index : UInt32) : Expected raised (.undefinedElement index)
  | uninitializedElement (index : UInt32) : Expected raised (.uninitializedElement index)
  | indirectCallTypeMismatch : Expected raised .indirectCallTypeMismatch
  | hostSignatureMismatch : Expected raised .hostSignatureMismatch
  | host {t : Trap} (h : raised t) : Expected raised t

/-- the traps of valid code that calls no function -/
abbrev Trap.ExpectedOfInstr : Trap → Prop :=
  Trap.Expected fun _ => False

theorem Trap.Expected.mono {raised raised' : Trap → Prop} {t : Trap} (h : t.Expected raised)
    (himp : ∀ t, raised t → raised' t) : t.Expected raised' := by
  cases h with
  | divisionByZero => exact .divisionByZero
  | integerOverflow => exact .integerOverflow
  | memoryOutOfBounds address length size => exact .memoryOutOfBounds address length size
  | unreachable => exact .unreachable
  | callStackExhausted => exact .callStackExhausted
  | undefinedElement index => exact .undefinedElement index
  | uninitializedElement index => exact .uninitializedElement index
  | indirectCallTypeMismatch => exact .indirectCallTypeMismatch
  | hostSignatureMismatch => exact .hostSignatureMismatch
  | host h => exact .host (himp _ h)

end WasmCore
