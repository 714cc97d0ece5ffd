/-
The line of an instruction tells which instruction it is.

All instructions have different keywords (`keyword_inj`); the enumerations are compared by the bytes of their names. Given
the keyword, the immediates are read back from the other words (`fill_arguments`). So the line determines the instruction,
apart from the bodies in it (`headline_inj`).
-/
import WasmCore.Proofs.Format.Opcode
import WasmCore.Proofs.Listing.Words

namespace WasmCore

/-! ## Names are words -/

@[simp] theorem Width.isWord_intName (w : Width) : IsWord w.intName := by
  cases w <;> decide

@[simp] theorem Width.isWord_floatName (w : Width) : IsWord w.floatName := by
  cases w <;> decide

@[simp] theorem Signedness.isWord_letter (s : Signedness) : IsWord s.letter := by
  cases s <;> decide

@[simp] theorem ValType.isWord_name (t : ValType) : IsWord t.name := by
  cases t with
  | int w => exact w.isWord_intName
  | float w => exact w.isWord_floatName

@[simp] theorem IntUnOp.isWord_name (op : IntUnOp) : IsWord op.name := by
  cases op <;> decide

@[simp] theorem FloatUnOp.isWord_name (op : FloatUnOp) : IsWord op.name := by
  cases op <;> decide

@[simp] theorem FloatBinOp.isWord_name (op : FloatBinOp) : IsWord op.name := by
  cases op <;> decide

@[simp] theorem FloatRelOp.isWord_name (op : FloatRelOp) : IsWord op.name := by
  cases op <;> decide

@[simp] theorem IntBinOp.isWord_name (op : IntBinOp) : IsWord op.name := by
  have h : ∀ op ∈ all, IsWord op.name := by decide
  exact h op op.mem_all

@[simp] theorem IntRelOp.isWord_name (op : IntRelOp) : IsWord op.name := by
  have h : ∀ op ∈ all, IsWord op.name := by decide
  exact h op op.mem_all

theorem UnaryOp.isWord_name (op : UnaryOp) : IsWord op.name := by
  cases op <;> simp [name.eq_def, isWord_append] <;> decide

theorem BinaryOp.isWord_name (op : BinaryOp) : IsWord op.name := by
  cases op <;> simp [name.eq_def, isWord_append] <;> decide

theorem LoadOp.isWord_name (op : LoadOp) : IsWord op.name := by
  cases op <;> simp [name.eq_def, isWord_append] <;> decide

theorem StoreOp.isWord_name (op : StoreOp) : IsWord op.name := by
  cases op <;> simp [name.eq_def, isWord_append] <;> decide

@[simp] theorem isWord_index (n : UInt32) : IsWord (toString n) :=
  isWord_toString n.toNat

theorem BlockType.isWord_words (t : BlockType) : ∀ s ∈ t.words, IsWord s := by
  cases t with
  | empty => exact fun s hs => nomatch hs
  | value t => simp [words, isWord_append]; decide

theorem MemArg.isWord_words (m : MemArg) : ∀ s ∈ m.words, IsWord s := by
  simp [words, isWord_append, isWord_index]; decide

namespace Instr

theorem isWord_keyword (i : Instr) : IsWord i.keyword := by
  cases i with
  | const v => exact isWord_append.2 ⟨v.type.isWord_name, by decide⟩
  | unary op => exact op.isWord_name
  | binary op => exact op.isWord_name
  | load op _ => exact op.isWord_name
  | store op _ => exact op.isWord_name
  | _ => simp only [keyword]; decide

theorem isWord_arguments (i : Instr) : ∀ s ∈ i.arguments, IsWord s := by
  cases i with
  | const v => simpa [arguments] using v.isWord_numberText
  | load _ m => exact m.isWord_words
  | store _ m => exact m.isWord_words
  | block t _ => exact t.isWord_words
  | loop t _ => exact t.isWord_words
  | ite t _ _ => exact t.isWord_words
  | callIndirect => simp [arguments, isWord_append]; decide
  | brTable targets fallback =>
    intro s hs
    obtain ⟨n, -, rfl⟩ := List.mem_map.1 hs
    exact isWord_index n
  | _ => simp [arguments]


/-! ## Keywords tell instructions apart -/

/-- the instruction without its immediates and bodies -/
def shape : Instr → Instr
  | const v => const (.zero v.type)
  | load op _ => load op ⟨0, 0⟩
  | store op _ => store op ⟨0, 0⟩
  | localGet _ => localGet 0
  | localSet _ => localSet 0
  | localTee _ => localTee 0
  | globalGet _ => globalGet 0
  | globalSet _ => globalSet 0
  | call _ => call 0
  | callIndirect .. => callIndirect 0 0
  | block .. => block .empty []
  | loop .. => loop .empty []
  | ite .. => ite .empty [] []
  | br _ => br 0
  | brIf _ => brIf 0
  | brTable .. => brTable [] 0
  | i => i

def shapes : List Instr :=
  [unreachable, nop, ret, drop, select, memorySize, memoryGrow, localGet 0, localSet 0, localTee 0, globalGet 0,
    globalSet 0, call 0, callIndirect 0 0, block .empty [], loop .empty [], ite .empty [] [], br 0, brIf 0, brTable [] 0] ++
  ValType.all.map (fun t => const (.zero t)) ++ UnaryOp.all.map unary ++ BinaryOp.all.map binary ++
  LoadOp.all.map (load · ⟨0, 0⟩) ++ StoreOp.all.map (store · ⟨0, 0⟩)

theorem shape_mem (i : Instr) : i.shape ∈ shapes := by
  cases i with
  | const v => simp [shape, shapes, ValType.mem_all]
  | unary op => simp [shape, shapes, UnaryOp.mem_all]
  | binary op => simp [shape, shapes, BinaryOp.mem_all]
  | load op _ => simp [shape, shapes, LoadOp.mem_all]
  | store op _ => simp [shape, shapes, StoreOp.mem_all]
  | _ => simp [shape, shapes]

theorem keyword_shape (i : Instr) : i.shape.keyword = i.keyword := by
  cases i <;> rfl

/-- the bytes of a text as one number, by which texts are compared fast -/
def bytesNumber (s : String) : Nat :=
  s.toByteArray.data.toList.foldl (fun n b => 256 * n + b.toNat) 0

/-- no two keywords are equal, and none is empty or stands on a line between bodies or after them -/
theorem keywords_nodup : ("" :: "else" :: "end" :: shapes.map keyword).Nodup := by
  have h : (("" :: "else" :: "end" :: shapes.map keyword).map bytesNumber).Nodup := by decide +kernel
  exact h.of_map

theorem keyword_mem (i : Instr) : i.keyword ∈ shapes.map keyword :=
  List.mem_map.2 ⟨i.shape, i.shape_mem, i.keyword_shape⟩

theorem keyword_ne (i : Instr) : i.keyword ≠ "" ∧ i.keyword ≠ "else" ∧ i.keyword ≠ "end" := by
  obtain ⟨hempty, h⟩ := List.nodup_cons.1 keywords_nodup
  obtain ⟨helse, h⟩ := List.nodup_cons.1 h
  obtain ⟨hend, -⟩ := List.nodup_cons.1 h
  have hmem := i.keyword_mem
  refine ⟨?_, ?_, ?_⟩
  · exact fun heq => hempty (heq ▸ List.mem_cons_of_mem _ (List.mem_cons_of_mem _ hmem))
  · exact fun heq => helse (heq ▸ List.mem_cons_of_mem _ hmem)
  · exact fun heq => hend (heq ▸ hmem)

theorem keyword_inj {i j : Instr} (h : i.keyword = j.keyword) : i.shape = j.shape := by
  have hnodup : (shapes.map keyword).Nodup := keywords_nodup.of_cons.of_cons.of_cons
  refine List.inj_on_of_nodup_map hnodup i.shape_mem j.shape_mem ?_
  rw [keyword_shape, keyword_shape, h]

/-! ## Immediates are read back -/

end Instr

/-- the index in a word, after the label before it -/
def index? (label word : String) : Option UInt32 :=
  (Numeral.natural? (word.toList.drop label.toList.length)).map UInt32.ofNat

theorem index?_append (label : String) (n : UInt32) : index? label (label ++ toString n) = some n := by
  have hnumber : (toString n).toList = Nat.toDigits 10 n.toNat := Numeral.toList_toString n.toNat
  rw [index?, String.toList_append, List.drop_left, hnumber, Numeral.natural?_toDigits, Option.map_some,
    UInt32.ofNat_toNat]

@[simp] theorem index?_toString (n : UInt32) : index? "" (toString n) = some n := by
  simpa using index?_append "" n

def MemArg.ofWords? : List String → Option MemArg
  | [align, offset] => (index? "align=" align).bind fun a => (index? "offset=" offset).map fun o => ⟨a, o⟩
  | _ => none

theorem MemArg.ofWords?_words (m : MemArg) : ofWords? m.words = some m := by
  simp only [words, ofWords?, index?_append, Option.bind_some, Option.map_some]

def BlockType.ofWords? : List String → Option BlockType
  | [] => some empty
  | [_, name] => (ValType.all.find? fun t => t.name ++ ")" == name).map value
  | _ => none

theorem BlockType.ofWords?_words (t : BlockType) : ofWords? t.words = some t := by
  cases t with
  | empty => rfl
  | value t =>
    have h : ∀ t ∈ ValType.all, ValType.all.find? (fun u => u.name ++ ")" == t.name ++ ")") = some t := by decide +kernel
    rw [words, ofWords?, h t t.mem_all, Option.map_some]

/-- the indices of a row, the last of which stands apart -/
def indices? (words : List String) : Option (List UInt32 × UInt32) :=
  (words.mapM (index? "")).bind fun ns => ns.getLast?.map fun n => (ns.dropLast, n)

theorem indices?_words (targets : List UInt32) (fallback : UInt32) :
    indices? ((targets ++ [fallback]).map toString) = some (targets, fallback) := by
  have hall (ns : List UInt32) : (ns.map toString).mapM (index? "") = some ns := by
    induction ns with
    | nil => rfl
    | cons n ns ih => simp [ih]
  rw [indices?, hall, Option.bind_some, List.getLast?_concat, Option.map_some, List.dropLast_concat]

namespace Instr

/-- the instruction without the instructions in its bodies -/
def shell : Instr → Instr
  | block t _ => block t []
  | loop t _ => loop t []
  | ite t _ _ => ite t [] []
  | i => i

/-- gives immediates to an instruction of the same keyword -/
def fill (i : Instr) (words : List String) : Option Instr :=
  match i with
  | const v => words.head?.bind fun number => (Val.parse? v.type number).map const
  | load op _ => (MemArg.ofWords? words).map (load op)
  | store op _ => (MemArg.ofWords? words).map (store op)
  | localGet _ => (words.head?.bind (index? "")).map localGet
  | localSet _ => (words.head?.bind (index? "")).map localSet
  | localTee _ => (words.head?.bind (index? "")).map localTee
  | globalGet _ => (words.head?.bind (index? "")).map globalGet
  | globalSet _ => (words.head?.bind (index? "")).map globalSet
  | call _ => (words.head?.bind (index? "")).map call
  | callIndirect .. =>
    match words with
    | [m, n] => (index? "type=" m).bind fun m => (index? "table=" n).map fun n => callIndirect m n
    | _ => none
  | block .. => (BlockType.ofWords? words).map fun t => block t []
  | loop .. => (BlockType.ofWords? words).map fun t => loop t []
  | ite .. => (BlockType.ofWords? words).map fun t => ite t [] []
  | br _ => (words.head?.bind (index? "")).map br
  | brIf _ => (words.head?.bind (index? "")).map brIf
  | brTable .. => (indices? words).map fun (targets, fallback) => brTable targets fallback
  | i => some i

/-- a constant that is a NaN -/
def isNaN : Instr → Bool
  | const v => v.isNaN
  | _ => false

/-- immediates are read back, those of a NaN apart -/
theorem fill_arguments {i : Instr} (hi : i.isNaN = false) : fill i.shape i.arguments = some i.shell := by
  cases i with
  | const v => exact congrArg (Option.map const) (v.parse?_numberText hi)
  | load op m => simp [shape, arguments, fill, shell, MemArg.ofWords?_words]
  | store op m => simp [shape, arguments, fill, shell, MemArg.ofWords?_words]
  | block t _ => simp [shape, arguments, fill, shell, BlockType.ofWords?_words]
  | loop t _ => simp [shape, arguments, fill, shell, BlockType.ofWords?_words]
  | ite t _ _ => simp [shape, arguments, fill, shell, BlockType.ofWords?_words]
  | callIndirect m n => simp [shape, arguments, fill, shell, index?_append]
  | brTable targets fallback => exact congrArg (Option.map _) (indices?_words targets fallback)
  | _ => simp [shape, arguments, fill, shell]

/-- **A line determines its instruction.** What the bodies hold does not stand in the line. -/
theorem headline_inj {i j : Instr} (hi : i.isNaN = false) (hj : j.isNaN = false) (h : i.headline = j.headline) :
    i.shell = j.shell := by
  rw [headline_eq, headline_eq] at h
  have hwords (k : Instr) : ∀ s ∈ k.keyword :: k.arguments, IsWord s :=
    List.forall_mem_cons.2 ⟨k.isWord_keyword, k.isWord_arguments⟩
  obtain ⟨hkeyword, harguments⟩ := List.cons.inj
    (intercalate_blank_inj (hwords i) (hwords j) (List.cons_ne_nil _ _) (List.cons_ne_nil _ _) h)
  have hread := fill_arguments hi
  rw [keyword_inj hkeyword, harguments, fill_arguments hj] at hread
  exact (Option.some.inj hread).symm

end Instr

end WasmCore
