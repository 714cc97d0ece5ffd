/-
Building a module.

Whoever puts a module together makes calls on an empty one, each of which adds something and answers its index, or fails. What
was added stays where it is: a call puts at most one thing at the end of one of the module's lists (`Module.add_added`), so
any number of calls only add to the ends (`Module.addAll_extends`), and what is at a position once is there for good. A
signature that is there already is not added again, hence no two are equal (`Module.nodup_types`). An export is found by the
first call that has made one of its name (`Module.findExport_eq_some_iff`), also on a machine.

An index is a position as a word of 32 bits. Up to 2 ^ 32 entries of a kind the two are the same
(`Module.HoldsAt.toNat_ofNat`), and there are no more entries than calls (`Module.atMost_addAll`).
-/
import WasmCore.Proofs.Memory.Image

namespace WasmCore

namespace Module

/-! ## Calls -/

/-- a call on a module that is being put together -/
inductive Addition where
  | type (t : FuncType)
  | function (f : Function)
  | host (name : String) (h : HostFunc)
  | codeEntry (name : String) (type : FuncType) (bytes : List UInt8)
  | table (t : Table)
  | global (init : Val) (isMutable : Bool)
  | exportAs (name : String) (index : UInt32)

/-- what a call answers, which is no index for an export, and the module after it -/
def add (m : Module) : Addition → Except DecodeError (Option UInt32) × Module
  | .type t => (.ok (m.addType t).1, (m.addType t).2)
  | .function f => (.ok (m.addFunction f).1, (m.addFunction f).2)
  | .host name h => (.ok (m.addHost name h).1, (m.addHost name h).2)
  | .codeEntry name type bytes =>
    match m.addCodeEntry name type bytes with
    | .ok (i, m) => (.ok i, m)
    | .error e => (.error e, m)
  | .table t => (.ok (m.addTable t).1, (m.addTable t).2)
  | .global init isMutable => (.ok (m.addGlobal init isMutable).1, (m.addGlobal init isMutable).2)
  | .exportAs name index => (.ok none, m.addExport name index)

/-- the module after calls one after another -/
def addAll (m : Module) (additions : List Addition) : Module :=
  additions.foldl (fun m a => (m.add a).2) m

/-- what the call adds is at this position of its list -/
def HoldsAt (m : Module) (p : Nat) : Addition → Prop
  | .type t => m.types[p]? = some t
  | .function f => m.functions[p]? = some f
  | .host name h => m.functions[p]? = some (.ofHost name h)
  | .codeEntry name type bytes =>
    ∃ e, decodeCodeEntry bytes = .ok e ∧ m.functions[p]? = some (.guest name type e.locals e.body)
  | .table t => m.tables[p]? = some t
  | .global init isMutable => m.globals[p]? = some (.new init isMutable)
  | .exportAs name index => m.exports[p]? = some (name, index)

/-- at most so many signatures, functions, tables and globals, of each; up to 2 ^ 32 there is an index for every one -/
structure AtMost (m : Module) (n : Nat) : Prop where
  types : m.types.size ≤ n
  functions : m.functions.size ≤ n
  tables : m.tables.size ≤ n
  globals : m.globals.size ≤ n

/-- each list of the one module is the beginning of that of the other, and they have the same memory -/
structure Extends (m m' : Module) : Prop where
  types : m.types.toList <+: m'.types.toList
  functions : m.functions.toList <+: m'.functions.toList
  tables : m.tables.toList <+: m'.tables.toList
  globals : m.globals.toList <+: m'.globals.toList
  exports : m.exports.toList <+: m'.exports.toList
  data : m'.data = m.data
  pages : m'.pages = m.pages
  maxPages : m'.maxPages = m.maxPages

variable {m m' m'' : Module} {a : Addition}

theorem add_codeEntry_ok {name : String} {type : FuncType} {bytes : List UInt8} {e : CodeEntry}
    (h : decodeCodeEntry bytes = .ok e) :
    m.add (.codeEntry name type bytes) = m.add (.function (.guest name type e.locals e.body)) := by
  simp only [add, addCodeEntry, h, Except.map]

theorem add_codeEntry_error {name : String} {type : FuncType} {bytes : List UInt8} {e : DecodeError}
    (h : decodeCodeEntry bytes = .error e) : m.add (.codeEntry name type bytes) = (.error e, m) := by
  simp only [add, addCodeEntry, h, Except.map]

/-- what a call can do to a module: nothing, or put one thing at the end of one of its lists -/
inductive Added (m : Module) : Module → Prop
  | nothing : m.Added m
  | type {t : FuncType} (new : t ∉ m.types.toList) : m.Added { m with types := m.types.push t }
  | function {f : Function} : m.Added (m.addFunction f).2
  | table {t : Table} : m.Added (m.addTable t).2
  | global {init : Val} {isMutable : Bool} : m.Added (m.addGlobal init isMutable).2
  | exported {name : String} {index : UInt32} : m.Added (m.addExport name index)

theorem addType_added (m : Module) (t : FuncType) : m.Added (m.addType t).2 := by
  unfold addType
  cases hidx : m.types.idxOf? t with
  | some p => exact .nothing
  | none => exact .type fun hmem => Array.idxOf?_eq_none_iff.1 hidx (Array.mem_toList_iff.1 hmem)

theorem add_added (m : Module) (a : Addition) : m.Added (m.add a).2 := by
  cases a with
  | type t => exact m.addType_added t
  | function | host => exact .function
  | codeEntry name type bytes =>
    cases hdecode : decodeCodeEntry bytes with
    | ok e =>
      rw [add_codeEntry_ok hdecode]
      exact .function
    | error e =>
      rw [add_codeEntry_error hdecode]
      exact .nothing
  | table => exact .table
  | global => exact .global
  | exportAs => exact .exported

/-! ## What is there stays there -/

theorem Extends.refl (m : Module) : m.Extends m :=
  ⟨List.prefix_rfl, List.prefix_rfl, List.prefix_rfl, List.prefix_rfl, List.prefix_rfl, rfl, rfl, rfl⟩

theorem Extends.trans (h : m.Extends m') (h' : m'.Extends m'') : m.Extends m'' :=
  ⟨h.types.trans h'.types, h.functions.trans h'.functions, h.tables.trans h'.tables, h.globals.trans h'.globals,
    h.exports.trans h'.exports, h'.data.trans h.data, h'.pages.trans h.pages, h'.maxPages.trans h.maxPages⟩

theorem Added.extends (h : m.Added m') : m.Extends m' := by
  cases h with
  | nothing => exact .refl m
  | type => exact { Extends.refl m with types := by simp }
  | function => exact { Extends.refl m with functions := by simp [addFunction] }
  | table => exact { Extends.refl m with tables := by simp [addTable] }
  | global => exact { Extends.refl m with globals := by simp [addGlobal] }
  | exported => exact { Extends.refl m with exports := by simp [addExport] }

/-- a call only adds to the ends of the lists -/
theorem add_extends (m : Module) (a : Addition) : m.Extends (m.add a).2 :=
  (m.add_added a).extends

theorem addAll_extends (m : Module) (additions : List Addition) : m.Extends (m.addAll additions) := by
  induction additions generalizing m with
  | nil => exact .refl m
  | cons a additions ih => exact (m.add_extends a).trans (ih (m.add a).2)

theorem getElem?_of_prefix {α : Type} {xs ys : Array α} (h : xs.toList <+: ys.toList) {p : Nat} {x : α}
    (hx : xs[p]? = some x) : ys[p]? = some x := by
  obtain ⟨rest, hrest⟩ := h
  rw [← Array.getElem?_toList] at hx ⊢
  rw [← hrest, List.getElem?_append_left (List.getElem?_eq_some_iff.1 hx).1, hx]

theorem HoldsAt.extends {p : Nat} (h : m.HoldsAt p a) (hm : m.Extends m') : m'.HoldsAt p a := by
  cases a with
  | type => exact getElem?_of_prefix hm.types h
  | function | host => exact getElem?_of_prefix hm.functions h
  | codeEntry =>
    obtain ⟨e, he, h⟩ := h
    exact ⟨e, he, getElem?_of_prefix hm.functions h⟩
  | table => exact getElem?_of_prefix hm.tables h
  | global => exact getElem?_of_prefix hm.globals h
  | exportAs => exact getElem?_of_prefix hm.exports h

/-! ## Indices -/

theorem lt_of_getElem? {α : Type} {xs : Array α} {p : Nat} {x : α} (h : xs[p]? = some x) : p < xs.size :=
  (Array.getElem?_eq_some_iff.1 h).1

/-- an index is as good as the position -/
theorem HoldsAt.toNat_ofNat {p : Nat} (h : m.HoldsAt p a) (hm : m.AtMost (2 ^ 32))
    (ha : ∀ name index, a ≠ .exportAs name index) : (UInt32.ofNat p).toNat = p := by
  refine UInt32.toNat_ofNat_of_lt' ?_
  cases a with
  | type => exact Nat.lt_of_lt_of_le (lt_of_getElem? h) hm.types
  | function | host => exact Nat.lt_of_lt_of_le (lt_of_getElem? h) hm.functions
  | codeEntry =>
    obtain ⟨e, -, h⟩ := h
    exact Nat.lt_of_lt_of_le (lt_of_getElem? h) hm.functions
  | table => exact Nat.lt_of_lt_of_le (lt_of_getElem? h) hm.tables
  | global => exact Nat.lt_of_lt_of_le (lt_of_getElem? h) hm.globals
  | exportAs name index => exact absurd rfl (ha name index)

theorem addType_holdsAt (m : Module) (t : FuncType) :
    ∃ p, (m.addType t).1 = UInt32.ofNat p ∧ (m.addType t).2.HoldsAt p (.type t) := by
  unfold addType
  cases hidx : m.types.idxOf? t with
  | some p =>
    have hlist : m.types.toList.idxOf? t = some p := (List.idxOf?_toArray t m.types.toList).symm.trans hidx
    obtain ⟨hlt, hget, -⟩ := List.idxOf?_eq_some_iff.1 hlist
    exact ⟨p, rfl, Array.getElem?_eq_some_iff.2 ⟨hlt, hget⟩⟩
  | none => exact ⟨m.types.size, rfl, Array.getElem?_push_size⟩

theorem addFunction_holdsAt (m : Module) (f : Function) :
    ∃ p, (m.addFunction f).1 = UInt32.ofNat p ∧ (m.addFunction f).2.functions[p]? = some f :=
  ⟨m.functions.size, rfl, Array.getElem?_push_size⟩

/-- the index that a call answers is the position of what it adds -/
theorem add_holdsAt {i : UInt32} (h : (m.add a).1 = .ok (some i)) :
    (∀ name index, a ≠ .exportAs name index) ∧ ∃ p, i = UInt32.ofNat p ∧ (m.add a).2.HoldsAt p a := by
  cases a with
  | type t =>
    cases h
    exact ⟨nofun, m.addType_holdsAt t⟩
  | function f =>
    cases h
    exact ⟨nofun, m.addFunction_holdsAt f⟩
  | host name host =>
    cases h
    exact ⟨nofun, m.addFunction_holdsAt _⟩
  | codeEntry name type bytes =>
    refine ⟨nofun, ?_⟩
    cases hdecode : decodeCodeEntry bytes with
    | error e =>
      rw [add_codeEntry_error hdecode] at h
      cases h
    | ok e =>
      rw [add_codeEntry_ok hdecode] at h ⊢
      cases h
      obtain ⟨p, hp, hholds⟩ := m.addFunction_holdsAt (.guest name type e.locals e.body)
      exact ⟨p, hp, e, hdecode, hholds⟩
  | table t =>
    cases h
    exact ⟨nofun, _, rfl, Array.getElem?_push_size⟩
  | global init isMutable =>
    cases h
    exact ⟨nofun, _, rfl, Array.getElem?_push_size⟩
  | exportAs name index => cases h

/-! ## Sizes -/

theorem AtMost.mono {n n' : Nat} (h : m.AtMost n) (hn : n ≤ n') : m.AtMost n' :=
  ⟨h.types.trans hn, h.functions.trans hn, h.tables.trans hn, h.globals.trans hn⟩

/-- a call adds one entry at most -/
theorem Added.atMost {n : Nat} (h : m.Added m') (hm : m.AtMost n) : m'.AtMost (n + 1) := by
  have hmore := hm.mono (Nat.le_succ n)
  cases h with
  | nothing => exact hmore
  | type => exact { hmore with types := by simpa using hm.types }
  | function => exact { hmore with functions := by simpa [addFunction] using hm.functions }
  | table => exact { hmore with tables := by simpa [addTable] using hm.tables }
  | global => exact { hmore with globals := by simpa [addGlobal] using hm.globals }
  | exported => exact { hmore with }

theorem atMost_addAll {n : Nat} (h : m.AtMost n) (additions : List Addition) :
    (m.addAll additions).AtMost (n + additions.length) := by
  induction additions generalizing m n with
  | nil => exact h
  | cons a additions ih =>
    rw [List.length_cons, Nat.add_comm additions.length, ← Nat.add_assoc]
    exact ih ((m.add_added a).atMost h)

theorem atMost_empty : empty.AtMost 0 :=
  ⟨Nat.le_refl 0, Nat.le_refl 0, Nat.le_refl 0, Nat.le_refl 0⟩

/-! ## Signatures -/

theorem Added.nodup (h : m.Added m') (hm : m.types.toList.Nodup) : m'.types.toList.Nodup := by
  cases h with
  | type new =>
    rw [Array.toList_push, ← List.concat_eq_append]
    exact hm.concat new
  | nothing | function | table | global | exported => exact hm

/-- no two signatures are equal -/
theorem nodup_types (h : m.types.toList.Nodup) (additions : List Addition) :
    (m.addAll additions).types.toList.Nodup := by
  induction additions generalizing m with
  | nil => exact h
  | cons a additions ih => exact ih ((m.add_added a).nodup h)

/-! ## Failures -/

/-- only a code entry can fail, and exactly if it cannot be decoded -/
theorem add_error_iff {e : DecodeError} : (m.add a).1 = .error e ↔
    ∃ name type bytes, a = .codeEntry name type bytes ∧ decodeCodeEntry bytes = .error e := by
  constructor
  · intro h
    cases a with
    | codeEntry name type bytes =>
      cases hdecode : decodeCodeEntry bytes with
      | error e' =>
        rw [add_codeEntry_error hdecode] at h
        cases h
        exact ⟨name, type, bytes, rfl, hdecode⟩
      | ok entry =>
        rw [add_codeEntry_ok hdecode] at h
        cases h
    | type | function | host | table | global | exportAs => cases h
  · rintro ⟨name, type, bytes, rfl, hdecode⟩
    rw [add_codeEntry_error hdecode]

theorem add_error {e : DecodeError} (h : (m.add a).1 = .error e) : (m.add a).2 = m := by
  obtain ⟨name, type, bytes, rfl, hdecode⟩ := add_error_iff.1 h
  rw [add_codeEntry_error hdecode]

/-! ## Exports -/

namespace Addition

/-- the function that the call exports under a name -/
def exportOf? (name : String) : Addition → Option UInt32
  | exportAs name' i => if name' == name then some i else none
  | _ => none

theorem exportOf?_eq_some_iff {a : Addition} {name : String} {i : UInt32} :
    a.exportOf? name = some i ↔ a = .exportAs name i := by
  cases a <;> simp [exportOf?]

theorem exportOf?_eq_none_iff {a : Addition} {name : String} : a.exportOf? name = none ↔ ∀ i, a ≠ .exportAs name i := by
  simp only [← exportOf?_eq_some_iff, ← Option.not_isSome_iff_eq_none, Option.isSome_iff_exists, not_exists, ne_eq]

end Addition

/-- what was exported before is found before -/
theorem findExport_add (m : Module) (a : Addition) (name : String) :
    (m.add a).2.findExport name = (m.findExport name).or (a.exportOf? name) := by
  cases a with
  | type t =>
    simp only [add, addType]
    cases m.types.idxOf? t <;> exact Option.or_none.symm
  | codeEntry name type bytes =>
    cases hdecode : decodeCodeEntry bytes with
    | ok e =>
      rw [add_codeEntry_ok hdecode]
      exact Option.or_none.symm
    | error e =>
      rw [add_codeEntry_error hdecode]
      exact Option.or_none.symm
  | exportAs name' i =>
    simp only [add, addExport, findExport, WasmCore.findExport, Array.find?_push, Option.map_or, Addition.exportOf?,
      apply_ite (Option.map Prod.snd), Option.map_some, Option.map_none]
  | function | host | table | global => exact Option.or_none.symm

theorem findExport_addAll (m : Module) (additions : List Addition) (name : String) :
    (m.addAll additions).findExport name = (m.findExport name).or (additions.findSome? (·.exportOf? name)) := by
  induction additions generalizing m with
  | nil => exact Option.or_none.symm
  | cons a additions ih =>
    have hstep : m.addAll (a :: additions) = (m.add a).2.addAll additions := rfl
    rw [hstep, ih, findExport_add, Option.or_assoc, List.findSome?_cons]
    cases a.exportOf? name <;> rfl

/-- an export is found by the first call that has made one of its name -/
theorem findExport_eq_some_iff {additions : List Addition} {name : String} {i : UInt32} :
    (empty.addAll additions).findExport name = some i ↔
      ∃ before after, additions = before ++ .exportAs name i :: after ∧ ∀ j, .exportAs name j ∉ before := by
  have hfind : (empty.addAll additions).findExport name = additions.findSome? (·.exportOf? name) :=
    findExport_addAll empty additions name
  rw [hfind, List.findSome?_eq_some_iff]
  simp only [Addition.exportOf?_eq_some_iff, Addition.exportOf?_eq_none_iff]
  constructor
  · rintro ⟨before, _, after, hadditions, rfl, hbefore⟩
    exact ⟨before, after, hadditions, fun j hj => hbefore _ hj j rfl⟩
  · rintro ⟨before, after, hadditions, hbefore⟩
    exact ⟨before, _, after, hadditions, rfl, fun a ha j heq => hbefore j (heq ▸ ha)⟩

theorem findExport_eq_none_iff {additions : List Addition} {name : String} :
    (empty.addAll additions).findExport name = none ↔ ∀ i, .exportAs name i ∉ additions := by
  have hfind : (empty.addAll additions).findExport name = additions.findSome? (·.exportOf? name) :=
    findExport_addAll empty additions name
  rw [hfind, List.findSome?_eq_none_iff]
  simp only [Addition.exportOf?_eq_none_iff]
  exact ⟨fun h i hi => h _ hi i rfl, fun h a ha i heq => h i (heq ▸ ha)⟩

/-- without data, there is a machine, and it has the exports of its module -/
theorem instantiate_addAll (additions : List Addition) (limits : Limits) :
    ∃ machine, Machine.instantiate (empty.addAll additions) limits = .ok machine ∧
      machine.exports = (empty.addAll additions).exports := by
  rw [Machine.instantiate_eq, (addAll_extends empty additions).data]
  exact ⟨_, rfl, rfl⟩

/-! ## Any calls -/

/-- the module comes through what each of the calls leaves -/
theorem addAll_split (before : List Addition) (a : Addition) (after : List Addition) :
    m.addAll (before ++ a :: after) = ((m.addAll before).add a).2.addAll after := by
  rw [addAll, List.foldl_append]
  rfl

theorem add_extends_addAll (before : List Addition) (a : Addition) (after : List Addition) :
    ((m.addAll before).add a).2.Extends (m.addAll (before ++ a :: after)) := by
  rw [addAll_split]
  exact addAll_extends _ after

/-- signatures are equal exactly if they are at one position -/
theorem holdsAt_type_inj (hnodup : m.types.toList.Nodup) {p q : Nat} {s t : FuncType} (hs : m.HoldsAt p (.type s))
    (ht : m.HoldsAt q (.type t)) : p = q ↔ s = t := by
  rw [HoldsAt, ← Array.getElem?_toList] at hs ht
  rw [← List.getElem?_inj (List.getElem?_eq_some_iff.1 hs).1 hnodup, hs, ht, Option.some.injEq]

/-- **Building a module.** For any calls on an empty module, one after another: no two of its signatures are equal. What a
call has added is at its position from then on, in the lists that only grow; the index that the call answers is this position,
as a word of 32 bits, and so the position itself as long as there are indices for all entries. A call fails exactly if it is
given a code entry that cannot be decoded, and then the module is as before. Two calls that add signatures answer the same
index exactly if the signatures are equal. An export is found by the first call that has made one of its name, and not at all
if there was none; a machine can be instantiated from the module, with any limits, and finds the same. -/
theorem building (additions : List Addition) :
    (empty.addAll additions).types.toList.Nodup ∧
    (∀ before a after, additions = before ++ a :: after →
      ((empty.addAll before).add a).2.Extends (empty.addAll additions) ∧
      (∀ i, ((empty.addAll before).add a).1 = .ok (some i) →
        ∃ p, i = UInt32.ofNat p ∧ ((empty.addAll before).add a).2.HoldsAt p a ∧ (empty.addAll additions).HoldsAt p a ∧
          ((empty.addAll additions).AtMost (2 ^ 32) → i.toNat = p)) ∧
      ∀ e, (((empty.addAll before).add a).1 = .error e ↔
          ∃ name type bytes, a = .codeEntry name type bytes ∧ decodeCodeEntry bytes = .error e) ∧
        (((empty.addAll before).add a).1 = .error e → ((empty.addAll before).add a).2 = empty.addAll before)) ∧
    (∀ before s between t after, additions = before ++ .type s :: between ++ .type t :: after →
      let i := ((empty.addAll before).addType s).1
      let j := ((empty.addAll (before ++ .type s :: between)).addType t).1
      (s = t → i = j) ∧ ((empty.addAll additions).AtMost (2 ^ 32) → i = j → s = t)) ∧
    (∀ name i, (empty.addAll additions).findExport name = some i ↔
      ∃ before after, additions = before ++ .exportAs name i :: after ∧ ∀ j, .exportAs name j ∉ before) ∧
    (∀ name, (empty.addAll additions).findExport name = none ↔ ∀ i, .exportAs name i ∉ additions) ∧
    ∀ limits, ∃ machine, Machine.instantiate (empty.addAll additions) limits = .ok machine ∧
      ∀ name, machine.findExport name = (empty.addAll additions).findExport name := by
  have hnodup : (empty.addAll additions).types.toList.Nodup := nodup_types List.nodup_nil additions
  refine ⟨hnodup, ?_, ?_, fun _ _ => findExport_eq_some_iff, fun _ => findExport_eq_none_iff, ?_⟩
  · rintro before a after rfl
    have hextends : ((empty.addAll before).add a).2.Extends (empty.addAll (before ++ a :: after)) :=
      add_extends_addAll before a after
    refine ⟨hextends, fun i hi => ?_, fun e => ⟨add_error_iff, add_error⟩⟩
    obtain ⟨hexport, p, rfl, hholds⟩ := add_holdsAt hi
    have hlater := hholds.extends hextends
    exact ⟨p, rfl, hholds, hlater, fun hmost => hlater.toNat_ofNat hmost hexport⟩
  · rintro before s between t after rfl i j
    have hfirst : ((empty.addAll before).add (.type s)).2.Extends
        (empty.addAll (before ++ .type s :: between ++ .type t :: after)) := by
      rw [List.append_assoc]
      exact add_extends_addAll before _ _
    have hsecond : ((empty.addAll (before ++ .type s :: between)).add (.type t)).2.Extends
        (empty.addAll (before ++ .type s :: between ++ .type t :: after)) := add_extends_addAll _ _ after
    obtain ⟨p, hp, hs⟩ := (empty.addAll before).addType_holdsAt s
    obtain ⟨q, hq, ht⟩ := (empty.addAll (before ++ .type s :: between)).addType_holdsAt t
    have hs' := hs.extends hfirst
    have ht' := ht.extends hsecond
    have hinj := holdsAt_type_inj hnodup hs' ht'
    have hi : i = UInt32.ofNat p := hp
    have hj : j = UInt32.ofNat q := hq
    rw [hi, hj]
    refine ⟨fun heq => congrArg UInt32.ofNat (hinj.2 heq), fun hmost heq => hinj.1 ?_⟩
    rw [← hs'.toNat_ofNat hmost nofun, heq, ht'.toNat_ofNat hmost nofun]
  · intro limits
    obtain ⟨machine, hmachine, hexports⟩ := instantiate_addAll additions limits
    refine ⟨machine, hmachine, fun name => ?_⟩
    rw [Machine.findExport, hexports]
    rfl

/-- a code entry that holds an `i32`, a signature that comes twice with another in between, a code entry without an end, and
two exports of one name -/
def shared : List Addition :=
  [.host "clock" ⟨⟨[], [.i32]⟩, fun _ => .ok (.single ⟨.i32, 7⟩)⟩,
    .codeEntry "seven" ⟨[], [.i32]⟩ [0x04, 0x00, 0x41, 0x07, 0x0B],
    .type ⟨[.i32], [.i32]⟩, .type ⟨[.i64], [.i32]⟩, .type ⟨[.i32], [.i32]⟩,
    .codeEntry "open" ⟨[], []⟩ [0x03, 0x00, 0x41, 0x07],
    .table (.new 2 none), .global ⟨.i64, 1⟩ true, .exportAs "main" 1, .exportAs "main" 0]

/-- The signature has the same index both times, and the one in between another. The function stays at 1, the failure leaves
the module, and the first export counts. -/
theorem building_shared :
    ((empty.addAll (shared.take 2)).addType ⟨[.i32], [.i32]⟩).1 =
      ((empty.addAll (shared.take 4)).addType ⟨[.i32], [.i32]⟩).1 ∧
    ((empty.addAll (shared.take 2)).addType ⟨[.i32], [.i32]⟩).1 ≠
      ((empty.addAll (shared.take 3)).addType ⟨[.i64], [.i32]⟩).1 ∧
    (empty.addAll shared).HoldsAt 1 shared[1] ∧
    ((empty.addAll (shared.take 5)).add shared[5]).2 = empty.addAll (shared.take 5) ∧
    ∃ machine, Machine.instantiate (empty.addAll shared) .default = .ok machine ∧
      machine.findExport "main" = some 1 ∧ machine.findExport "other" = none := by
  obtain ⟨-, hcall, htypes, hfind, hnone, hmachine⟩ := building shared
  have hmost : (empty.addAll shared).AtMost (2 ^ 32) := (atMost_addAll atMost_empty shared).mono (by decide)
  refine ⟨(htypes (shared.take 2) _ [shared[3]] _ (shared.drop 5) rfl).1 rfl, fun heq => ?_, ?_, ?_, ?_⟩
  · exact absurd ((htypes (shared.take 2) _ [] _ (shared.drop 4) rfl).2 hmost heq) (by decide)
  · obtain ⟨-, hindex, -⟩ := hcall (shared.take 1) shared[1] (shared.drop 2) rfl
    obtain ⟨p, -, -, hholds, hposition⟩ := hindex 1 (by decide)
    rwa [← hposition hmost] at hholds
  · obtain ⟨-, -, herror⟩ := hcall (shared.take 5) shared[5] (shared.drop 6) rfl
    exact (herror _).2 ((herror _).1.2 ⟨_, _, _, rfl, rfl⟩)
  · obtain ⟨machine, hok, hsame⟩ := hmachine .default
    refine ⟨machine, hok, (hsame "main").trans ?_, (hsame "other").trans ?_⟩
    · exact (hfind "main" 1).2 ⟨shared.take 8, shared.drop 9, rfl, by simp [shared]⟩
    · exact (hnone "other").2 (by simp [shared])

end Module

end WasmCore
