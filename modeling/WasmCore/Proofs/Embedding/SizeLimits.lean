/-
Size limits.

A memory and a table keep to their limits by refusing to grow beyond them; what they start with is not checked.
`Machine.size_limits` says what this comes to, for every module and every use of its machines: a size that starts within
its limit stays within it, and then growing by nothing is always allowed; a size that starts beyond its limit stays
exactly as it is, and every growth is refused, even by nothing. The same holds of a table by itself.
`Machine.size_beyond_limit` is the smallest case of the second kind.
-/
import WasmCore.Proofs.Embedding.Requests
import WasmCore.Proofs.Memory.Bytes

namespace WasmCore

/-! ## Memories -/

namespace Memory

variable {m m' m'' : Memory}

theorem maxPages_withBytes (m : Memory) (bytes : ByteArray) : ({ m with bytes } : Memory).maxPages = m.maxPages :=
  rfl

/-- the size is a whole number of pages -/
def Whole (m : Memory) : Prop :=
  m.size = m.pages * pageSize

theorem whole_of_size {n : Nat} (h : m.size = n * pageSize) : m.Whole := by
  rw [Whole, pages_eq h, h]

/-- the memory has kept its size, or has got more pages within its limit -/
structure Grows (m m' : Memory) : Prop where
  maxPages : m'.maxPages = m.maxPages
  size : m'.size = m.size ∨ ∃ delta, m.pages + delta ≤ m.limit ∧ m'.size = (m.pages + delta) * pageSize

theorem Grows.refl (m : Memory) : m.Grows m :=
  ⟨rfl, .inl rfl⟩

theorem Grows.limit (h : m.Grows m') : m'.limit = m.limit := by
  unfold Memory.limit
  rw [h.maxPages]

theorem Grows.trans (h : m.Grows m') (h' : m'.Grows m'') : m.Grows m'' := by
  refine ⟨h'.maxPages.trans h.maxPages, ?_⟩
  rcases h'.size with hsize' | ⟨delta', hlimit', hsize'⟩
  · rw [hsize']
    exact h.size
  · rw [h.limit] at hlimit'
    rcases h.size with hsize | ⟨delta, -, hsize⟩
    · have hpages : m'.pages = m.pages := by
        unfold pages
        rw [hsize]
      rw [hpages] at hlimit' hsize'
      exact .inr ⟨delta', hlimit', hsize'⟩
    · rw [pages_eq hsize, Nat.add_assoc] at hlimit' hsize'
      exact .inr ⟨delta + delta', hlimit', hsize'⟩

theorem patch_grows (m : Memory) (address : Nat) (bytes : List UInt8) : m.Grows (m.patch address bytes) :=
  ⟨rfl, .inl (m.size_patch address bytes)⟩

theorem extend_grows {delta : Nat} (h : m.canGrow delta) : m.Grows (m.extend delta) := by
  -- `rfl` alone would compare the bytes first, and count the new ones one by one
  refine ⟨m.maxPages_withBytes _, ?_⟩
  rw [size_extend]
  rcases Nat.le_total m.size ((m.pages + delta) * pageSize) with hle | hle
  · exact .inr ⟨delta, by simpa [canGrow] using h, Nat.max_eq_right hle⟩
  · exact .inl (Nat.max_eq_left hle)

theorem grow_grows {delta before : Nat} (h : m.grow delta = .ok (before, m')) : m.Grows m' := by
  unfold grow at h
  by_cases hgrow : m.canGrow delta
  · rw [if_pos hgrow] at h
    cases h
    exact extend_grows hgrow
  · rw [if_neg hgrow] at h
    cases h

/-- whoever starts with whole pages keeps whole pages, as many as at the start or more within the limit -/
theorem Grows.pages (h : m.Grows m') (hw : m.Whole) :
    m'.Whole ∧ (m'.pages = m.pages ∨ m.pages ≤ m'.pages ∧ m'.pages ≤ m.limit) := by
  rcases h.size with hsize | ⟨delta, hlimit, hsize⟩
  · have hsize : m'.size = m.pages * pageSize := hsize.trans hw
    exact ⟨whole_of_size hsize, .inl (pages_eq hsize)⟩
  · refine ⟨whole_of_size hsize, .inr ?_⟩
    rw [pages_eq hsize]
    exact ⟨Nat.le_add_right _ _, hlimit⟩

/-- growing by nothing, within the limit -/
theorem grow_zero (hw : m.Whole) (h : m.pages ≤ m.limit) : m.grow 0 = .ok (m.pages, m) := by
  have hextend : m.extend 0 = m := by
    have hzero : (m.pages + 0) * pageSize - m.size = 0 := by
      rw [Nat.add_zero, ← hw, Nat.sub_self]
    rw [extend, hzero]
    rfl
  simp [grow, canGrow, h, hextend]

/-- growing beyond the limit, even by nothing -/
theorem grow_beyond (h : m.limit < m.pages) (delta : Nat) : m.grow delta = .error .outOfMemory := by
  have hgrow : ¬ m.pages + delta ≤ m.limit := by omega
  simp [grow, canGrow, hgrow]

/-- the limit decides at the start which of the two will hold for good -/
theorem Grows.bounded (h : m.Grows m') (hw : m.Whole) :
    (m.pages ≤ m.limit → m'.pages ≤ m.limit ∧ m'.grow 0 = .ok (m'.pages, m')) ∧
    (m.limit < m.pages → m'.pages = m.pages ∧ ∀ delta, m'.grow delta = .error .outOfMemory) := by
  obtain ⟨hw', hpages⟩ := h.pages hw
  constructor
  · intro hle
    have hle' : m'.pages ≤ m.limit := by omega
    exact ⟨hle', grow_zero hw' (by rw [h.limit]; exact hle')⟩
  · intro hlt
    have heq : m'.pages = m.pages := by omega
    exact ⟨heq, grow_beyond (by rw [h.limit, heq]; exact hlt)⟩

end Memory

theorem Store.Evolves.memory {s t : Store} (h : s.Evolves t) : s.memory.Grows t.memory := by
  induction h with
  | refl => exact .refl _
  | tail _ hc ih =>
    cases hc with
    | stack stack => exact ih
    | depth depth => exact ih
    | write h => exact ih.trans (Memory.patch_grows _ _ _)
    | grow h => exact ih.trans (Memory.extend_grows h)
    | setGlobal h => exact ih

/-! ## Tables -/

namespace Table

/-- one use of a table; one that fails leaves it as it is -/
inductive Use : Table → Table → Prop
  | set {t t' : Table} {i : UInt32} {slot : Option UInt32} (h : t.set i slot = .ok t') : Use t t'
  | grow {t t' : Table} {delta : UInt32} {before : Nat} (h : t.grow delta = .ok (before, t')) : Use t t'

/-- the table after any uses -/
abbrev Later : Table → Table → Prop :=
  Relation.ReflTransGen Use

variable {t t' : Table}

theorem Later.size (h : t.Later t') :
    t'.max = t.max ∧ (t'.size = t.size ∨ t.size ≤ t'.size ∧ t'.size ≤ t.limit) := by
  induction h with
  | refl => exact ⟨rfl, .inl rfl⟩
  | @tail u v _ hu ih =>
    obtain ⟨hmax, hsize⟩ := ih
    cases hu with
    | @set i slot hset =>
      unfold Table.set at hset
      split at hset
      · cases hset
        simpa [Table.size, hmax] using hsize
      · cases hset
    | @grow delta before hgrow =>
      have hlimit : u.limit = t.limit := by
        unfold limit
        rw [hmax]
      unfold Table.grow at hgrow
      split at hgrow
      · rename_i hle
        cases hgrow
        have hnew : (u.elements ++ Array.replicate delta.toNat none).size = u.size + delta.toNat := by
          simp [Table.size]
        refine ⟨hmax, .inr ?_⟩
        show t.size ≤ (u.elements ++ _).size ∧ (u.elements ++ _).size ≤ t.limit
        rw [hnew, ← hlimit]
        omega
      · cases hgrow

theorem grow_zero (h : t.size ≤ t.limit) : t.grow 0 = .ok (t.size, t) := by
  simp [grow, h]

theorem grow_beyond (h : t.limit < t.size) (delta : UInt32) : t.grow delta = .error .outOfMemory := by
  have hgrow : ¬ t.size + delta.toNat ≤ t.limit := by omega
  simp [grow, hgrow]

theorem Later.bounded (h : t.Later t') :
    (t.size ≤ t.limit → t'.size ≤ t.limit ∧ t'.grow 0 = .ok (t'.size, t')) ∧
    (t.limit < t.size → t'.size = t.size ∧ ∀ delta, t'.grow delta = .error .outOfMemory) := by
  obtain ⟨hmax, hsize⟩ := h.size
  have hlimit : t'.limit = t.limit := by
    unfold limit
    rw [hmax]
  constructor
  · intro hle
    have hle' : t'.size ≤ t.limit := by omega
    exact ⟨hle', grow_zero (by rw [hlimit]; exact hle')⟩
  · intro hlt
    have heq : t'.size = t.size := by omega
    exact ⟨heq, grow_beyond (by rw [hlimit, heq]; exact hlt)⟩

theorem size_new (size : UInt32) (max : Option UInt32) : (new size max).size = size.toNat :=
  Array.size_replicate

end Table

/-! ## Machines -/

/-- the smallest of the page limits that are given, and of the one that every memory has -/
def Module.pageLimit (mod : Module) (limits : Limits) : Nat :=
  min (mod.maxPages.getD Memory.pageLimit) (min (limits.maxMemoryPages.getD Memory.pageLimit) Memory.pageLimit)

/-- the pages that the memory starts with: their size is a word, so 2⁴⁸ pages and none are the same -/
def Module.startPages (mod : Module) : Nat :=
  mod.pages % 2 ^ 48

namespace Machine

variable {mod : Module} {limits : Limits} {m m' : Machine}

theorem limit_new (mod : Module) (limits : Limits) :
    (Memory.new mod.pages (smallerLimit mod.maxPages limits.maxMemoryPages)).limit = mod.pageLimit limits := by
  unfold Module.pageLimit Memory.new Memory.zeros Memory.limit
  cases mod.maxPages <;> cases limits.maxMemoryPages <;> simp only [smallerLimit, Option.getD] <;> omega

theorem writeSegments_size {memory memory' : Memory} {data : List (UInt32 × List UInt8)}
    (h : writeSegments memory data = .ok memory') : memory'.size = memory.size ∧ memory'.maxPages = memory.maxPages := by
  induction data generalizing memory with
  | nil =>
    cases h
    exact ⟨rfl, rfl⟩
  | cons segment data ih =>
    obtain ⟨offset, bytes⟩ := segment
    simp only [writeSegments, List.foldlM_cons, Memory.store] at h ih
    cases hcheck : memory.check offset.toNat bytes.length with
    | error t =>
      rw [hcheck] at h
      cases h
    | ok _ =>
      rw [hcheck] at h
      obtain ⟨hsize, hmax⟩ := ih h
      exact ⟨hsize.trans (memory.size_patch _ _), hmax⟩

/-- the memory of a new machine has the pages that the module asks for, less what the word of their size loses, and the
smallest limit -/
theorem instantiate_memory (h : instantiate mod limits = .ok m) :
    m.memory.Whole ∧ m.memory.pages = mod.startPages ∧ m.memory.limit = mod.pageLimit limits := by
  simp only [instantiate, bind, Except.bind] at h
  split at h
  · cases h
  · rename_i memory hmemory
    cases h
    obtain ⟨hsize, hmax⟩ := writeSegments_size hmemory
    have hsize : memory.size = mod.startPages * Memory.pageSize :=
      (hsize.trans (Memory.size_zeros _ _)).trans (Memory.startSize_eq mod.pages)
    refine ⟨Memory.whole_of_size hsize, Memory.pages_eq hsize, ?_⟩
    show memory.limit = _
    rw [← limit_new, Memory.limit, Memory.limit, hmax]

/-- whatever the embedding program does, the memory grows within its limit only -/
theorem Later.memory (h : m.Later m') : m.memory.Grows m'.memory := by
  induction h with
  | refl => exact .refl _
  | tail _ hu ih =>
    cases hu with
    | request h => exact ih.trans (perform_evolves h).store.memory
    | setStack stack => exact ih
    | writeMemory size maxPages => exact ih.trans ⟨maxPages, .inl size⟩
    | growMemory h => exact ih.trans (Memory.grow_grows h)
    | setGlobal h =>
      rw [setGlobal_eq h]
      exact ih
    | setTable t => exact ih

/-- **A size that starts within its limit stays within it, and one that starts beyond its limit stays as it is.** In the
first case growing by nothing succeeds and answers the size, after any uses of the machine or the table; in the second
every growth fails, even by nothing. A memory starts with the pages that the module asks for, if there are fewer than 2⁴⁸. -/
theorem size_limits (h : instantiate mod limits = .ok m) (hl : m.Later m') :
    (m.memory.pages = mod.startPages ∧ (mod.pages < 2 ^ 48 → mod.startPages = mod.pages)) ∧
    (mod.startPages ≤ mod.pageLimit limits →
      m'.memory.pages ≤ mod.pageLimit limits ∧ m'.memory.grow 0 = .ok (m'.memory.pages, m'.memory)) ∧
    (mod.pageLimit limits < mod.startPages →
      m'.memory.pages = mod.startPages ∧ ∀ delta, m'.memory.grow delta = .error .outOfMemory) ∧
    ∀ (size max : UInt32) (t : Table), (Table.new size (some max)).Later t →
      (size ≤ max → t.size ≤ max.toNat ∧ t.grow 0 = .ok (t.size, t)) ∧
      (max < size → t.size = size.toNat ∧ ∀ delta, t.grow delta = .error .outOfMemory) := by
  obtain ⟨hwhole, hpages, hlimit⟩ := instantiate_memory h
  have hmemory := hl.memory.bounded hwhole
  rw [hpages, hlimit] at hmemory
  refine ⟨⟨hpages, Nat.mod_eq_of_lt⟩, hmemory.1, hmemory.2, ?_⟩
  intro size max t ht
  have htable := ht.bounded
  rw [Table.size_new] at htable
  exact htable

/-- two pages of at most three, after one more has been added -/
theorem size_limits_grown : ∃ m m' : Machine,
    instantiate { Module.empty with pages := 2, maxPages := some 3 } ⟨some 5, 1, 1⟩ = .ok m ∧ m.Later m' ∧
      m'.memory.pages ≤ 3 ∧ m'.memory.grow 0 = .ok (m'.memory.pages, m'.memory) := by
  have hpages : (Memory.new 2 (some 3)).pages = 2 := Memory.pages_eq (Memory.size_zeros _ _)
  have hlimit : (Memory.new 2 (some 3)).limit = 3 := by decide
  have hgrow : (Memory.new 2 (some 3)).grow 1 = .ok (2, (Memory.new 2 (some 3)).extend 1) := by
    simp [Memory.grow, Memory.canGrow, hpages, hlimit]
  obtain ⟨m, hm, hmemory⟩ : ∃ m : Machine,
      instantiate { Module.empty with pages := 2, maxPages := some 3 } ⟨some 5, 1, 1⟩ = .ok m ∧
        m.memory = Memory.new 2 (some 3) := ⟨_, rfl, rfl⟩
  rw [← hmemory] at hgrow
  have hlater : m.Later _ := .single (.growMemory hgrow)
  exact ⟨m, _, hm, hlater, (size_limits hm hlater).2.1 (by decide)⟩

/-- A machine with two pages of at most one, and a table with two slots of at most one. Neither may grow by nothing. -/
theorem size_beyond_limit : ∃ m : Machine,
    instantiate { Module.empty with pages := 2, maxPages := some 1 } .default = .ok m ∧
      m.memory.pages = 2 ∧ m.memory.grow 0 = .error .outOfMemory ∧
      (Table.new 2 (some 1)).size = 2 ∧ (Table.new 2 (some 1)).grow 0 = .error .outOfMemory := by
  have hpages : (Memory.new 2 (some 1)).pages = 2 := Memory.pages_eq (Memory.size_zeros _ _)
  have hlimit : (Memory.new 2 (some 1)).limit = 1 := by decide
  have hgrow : (Memory.new 2 (some 1)).grow 0 = .error .outOfMemory :=
    Memory.grow_beyond (by omega) 0
  exact ⟨_, rfl, hpages, hgrow, rfl, rfl⟩

end Machine

end WasmCore
