import PetKernel.VirtualMemory.Processor

/-!
# The present entries of the page tables

`hwEntry` is a second view of the page tables of the processor: the partial map from paths to the
entries that are present there, at all four levels. In this view what the source does to the tables
is simple. The handler fills in the entries that are missing on the way to a page (`fillIn`,
`HwTablesOk.linkTable`, `hwEntry_petmemHandlePagefault`), and the walk takes out single entries
under which nothing is left (`HwTablesOk.clearPresent`).
-/

set_option autoImplicit false

namespace PetKernel.VirtualMemory

open PetKernel.Library

variable {mem : PtMem} {cr3 : Nat}

/-! ## Entries by their paths -/

/-- The present entry at the end of a path of the processor. -/
def hwEntry (mem : PtMem) (cr3 : Nat) (q : List Nat) : Option PtEntry :=
  hwTables.lookup mem (cr3ToPml4e64 cr3) q

/-- The table at the end of a path of the processor. -/
def hwTable (mem : PtMem) (cr3 : Nat) (q : List Nat) : Option Nat :=
  hwTables.tableAt mem (cr3ToPml4e64 cr3) q

/-- A path to an entry of one of the four levels. -/
def HwPath (q : List Nat) : Prop := hwTables.ValidPath q ∧ q.length ≤ 4

theorem HwPath.of_suffix {p q : List Nat} (h : HwPath q) (hs : p <:+ q) : HwPath p :=
  ⟨h.1.of_suffix hs, hs.length_le.trans h.2⟩

theorem HwPath.tail {i : Nat} {p : List Nat} (h : HwPath (i :: p)) : HwPath p :=
  h.of_suffix (List.suffix_cons i p)

theorem hwPath_pathOf (v : Nat) : HwPath (pathOf v) := ⟨hwTables_validPath_pathOf v, Nat.le_refl 4⟩

theorem hwPteOf_eq_hwEntry (mem : PtMem) (cr3 v : Nat) :
    hwPteOf mem cr3 v = hwEntry mem cr3 (pathOf v) := rfl

theorem hwTable_cons (mem : PtMem) (cr3 i : Nat) (p : List Nat) :
    hwTable mem cr3 (i :: p) = (hwEntry mem cr3 (i :: p)).map fun e => baseToPageAddr e.baseAddr :=
  Layout.tableAt_cons_eq_map_lookup _ _ _ _

theorem hwEntry_cons_eq_none {i t : Nat} {p : List Nat} (ht : hwTable mem cr3 p = some t) :
    hwEntry mem cr3 (i :: p) = none ↔ (mem (t + i * 8)).present = false :=
  Layout.lookup_cons_eq_none ht

theorem hwEntry_cons_eq_some {i : Nat} {p : List Nat} {e : PtEntry} :
    hwEntry mem cr3 (i :: p) = some e ↔
      ∃ t, hwTable mem cr3 p = some t ∧ mem (t + i * 8) = e ∧ e.present = true := by
  rw [hwEntry, Layout.lookup_eq_some, Layout.entryAt_cons_eq_some]
  constructor
  · rintro ⟨⟨t, ht, rfl⟩, hpres⟩
    exact ⟨t, ht, rfl, hpres⟩
  · rintro ⟨t, ht, rfl, hpres⟩
    exact ⟨⟨t, ht, rfl⟩, hpres⟩

/-- A table that is linked. -/
theorem exists_hwEntry_of_hwTable {i t : Nat} {p : List Nat}
    (h : hwTable mem cr3 (i :: p) = some t) :
    ∃ e, hwEntry mem cr3 (i :: p) = some e ∧ baseToPageAddr e.baseAddr = t := by
  rw [hwTable_cons] at h
  exact Option.map_eq_some_iff.1 h

/-- The table of an entry that is present. -/
theorem exists_hwTable_of_hwEntry {i : Nat} {p : List Nat} (h : hwEntry mem cr3 (i :: p) ≠ none) :
    ∃ t, hwTable mem cr3 p = some t := by
  obtain ⟨e, he⟩ := Option.ne_none_iff_exists'.1 h
  obtain ⟨t, ht, -⟩ := hwEntry_cons_eq_some.1 he
  exact ⟨t, ht⟩

/-- Tables stay where entries stay. -/
theorem hwTable_of_entries {mem' : PtMem}
    (h : ∀ q e, HwPath q → hwEntry mem cr3 q = some e → hwEntry mem' cr3 q = some e) {q : List Nat}
    (hq : HwPath q) {t : Nat} (ht : hwTable mem cr3 q = some t) : hwTable mem' cr3 q = some t := by
  cases q with
  | nil => exact ht
  | cons j q =>
      obtain ⟨e, he, rfl⟩ := exists_hwEntry_of_hwTable ht
      rw [hwTable_cons, h _ e hq he]
      rfl

/-- The indices of the processor for an index of the source. -/
def hwIndex (l i : Nat) : Nat := if l = 0 then 8 * i else i

theorem hwPath_cons (i : Nat) (p : List Nat) :
    hwPath (i :: p) = hwIndex p.length i :: hwPath p := by
  cases p with
  | nil => rfl
  | cons j p => rfl

theorem hwPath_suffix {p q : List Nat} (h : p <:+ q) : hwPath p <:+ hwPath q := by
  induction q with
  | nil => rw [List.suffix_nil.1 h]
  | cons i q ih =>
      rcases List.suffix_cons_iff.1 h with rfl | h
      · exact List.suffix_refl _
      · rw [hwPath_cons]
        exact (ih h).trans (List.suffix_cons _ _)

/-- An entry of the source lies where the processor reads it. -/
theorem slot_eq_hwIndex (l t i : Nat) : pageTables.slot l t i = t + hwIndex l i * 8 := by
  show (if l = 0 then t + i * 8 * 8 else t + i * 8) = _
  rw [hwIndex]
  split
  · omega
  · rfl

theorem hwPath_hwPath {p : List Nat} (h : pageTables.ValidPath p) (hlen : p.length ≤ 4) :
    HwPath (hwPath p) :=
  ⟨validPath_hwPath h, by rw [length_hwPath]; exact hlen⟩

theorem hwTable_hwPath (mem : PtMem) (cr3 : Nat) (p : List Nat) :
    hwTable mem cr3 (hwPath p) = pageTables.tableAt mem (cr3ToPml4e64 cr3) p :=
  tableAt_hwPath _ _ _

/-! ## Entries that are filled in -/

/-- The entry `e` at `path`, unless there is one. -/
def fillIn (m : List Nat → Option PtEntry) (path : List Nat) (e : PtEntry) :
    List Nat → Option PtEntry :=
  if m path = none then Function.update m path (some e) else m

section FillIn

variable {m : List Nat → Option PtEntry} {path q : List Nat} {e e' : PtEntry}

theorem fillIn_of_ne (hne : q ≠ path) : fillIn m path e q = m q := by
  unfold fillIn
  split
  · exact Function.update_of_ne hne _ _
  · rfl

/-- Only two entries matter. -/
theorem fillIn_congr {m' : List Nat → Option PtEntry} (hpath : m path = m' path) (hq : m q = m' q) :
    fillIn m path e q = fillIn m' path e q := by
  unfold fillIn
  rw [hpath]
  split
  · rw [Function.update_apply, Function.update_apply, hq]
  · exact hq

theorem fillIn_self (h : m path = none) : fillIn m path e path = some e := by
  unfold fillIn
  rw [if_pos h, Function.update_self]

/-- What is there stays. -/
theorem fillIn_of_some (h : m q = some e') : fillIn m path e q = some e' := by
  unfold fillIn
  split
  next hnone =>
    rw [Function.update_of_ne, h]
    rintro rfl
    rw [h] at hnone
    cases hnone
  next => exact h

theorem fillIn_ne_none (m : List Nat → Option PtEntry) (path : List Nat) (e : PtEntry) :
    fillIn m path e path ≠ none := by
  cases h : m path with
  | none =>
      rw [fillIn_self h]
      exact Option.some_ne_none e
  | some e' =>
      rw [fillIn_of_some h]
      exact Option.some_ne_none e'

theorem fillIn_ne_none_of (h : m q ≠ none) : fillIn m path e q ≠ none := by
  obtain ⟨e', he'⟩ := Option.ne_none_iff_exists'.1 h
  rw [fillIn_of_some he']
  exact Option.some_ne_none e'

/-- What is there is old or has been filled in. -/
theorem of_fillIn_eq_some (h : fillIn m path e q = some e') :
    m q = some e' ∨ (q = path ∧ m path = none ∧ e' = e) := by
  unfold fillIn at h
  split at h
  next hnone =>
    rcases eq_or_ne q path with rfl | hne
    · rw [Function.update_self] at h
      exact Or.inr ⟨rfl, hnone, (Option.some.inj h).symm⟩
    · rw [Function.update_of_ne hne] at h
      exact Or.inl h
  next => exact Or.inl h

end FillIn

/-! ## The handler -/

/-- A page that is no table of the processor, and that a base address can hold. -/
structure HwFresh (mem : PtMem) (cr3 phys : Nat) : Prop where
  aligned : 2 ^ 12 ∣ phys
  bound : phys < 2 ^ 52
  not_table : ∀ q, HwPath q → q.length < 4 → hwTable mem cr3 q ≠ some phys

section Link

variable {off i t page : Nat} {p : List Nat}

/-- One of the upper levels: the entry is filled in. -/
theorem HwTablesOk.linkTable (h : HwTablesOk mem cr3) (hp : HwPath (i :: p))
    (hpd : p.length + 1 < 4)
    (ht : hwTable mem cr3 p = some t) (hfresh : HwFresh mem cr3 (pa off page)) :
    HwTablesOk (linkTable off mem (t + i * 8) page) cr3 ∧
    ∀ q, HwPath q → hwEntry (linkTable off mem (t + i * 8) page) cr3 q =
      fillIn (hwEntry mem cr3) (i :: p) (mappedEntry (pa off page)) q := by
  unfold VirtualMemory.linkTable
  split
  next habs =>
    have hbase := baseToPageAddr_pageToBaseAddr hfresh.aligned hfresh.bound
    have hnot : ∀ q, hwTables.ValidPath q → q.length < 4 →
        hwTables.tableAt mem (cr3ToPml4e64 cr3) q ≠ some (pa off page) :=
      fun q hq hlen => hfresh.not_table q ⟨hq, Nat.le_of_lt hlen⟩ hlen
    have hkeep : ∀ a, hwTables.owner a ≠ pa off page → zeroPage mem (pa off page) a = mem a :=
      fun _ => zeroPage_of_owner_ne hfresh.aligned
    have hzero : ∀ l j, j < hwTables.fanout l →
        hwTables.present (zeroPage mem (pa off page) (hwTables.slot l (pa off page) j)) = false :=
      fun _ j hj => present_zeroPage (l := 1) (j := j) hfresh.aligned hj
    have hpres : hwTables.present (mappedEntry (pa off page)) = true := rfl
    have htree := (h.link hp.1 hpd ht habs hnot hkeep hzero hpres hbase).tree
    have hlookup := fun q (hq : HwPath q) => h.lookup_link hp.1 (Nat.lt_of_succ_lt hpd) ht habs hnot
      hkeep hzero hpres hbase hq.1 hq.2
    refine ⟨htree, fun q hq => ?_⟩
    rw [fillIn, if_pos ((hwEntry_cons_eq_none ht).2 habs), Function.update_apply]
    exact hlookup q hq
  next hpres =>
    refine ⟨h, fun q _ => ?_⟩
    rw [fillIn, if_neg]
    rwa [hwEntry_cons_eq_none ht]

variable {mem' : PtMem} {path : List Nat} {e : PtEntry}

/-- The tables after an entry has been filled in. -/
theorem hwTable_of_fillIn
    (h : ∀ q, HwPath q → hwEntry mem' cr3 q = fillIn (hwEntry mem cr3) path e q) {q : List Nat}
    (hq : HwPath q) (ht : hwTable mem' cr3 q = some t) :
    hwTable mem cr3 q = some t ∨
      (q = path ∧ hwEntry mem cr3 path = none ∧ t = baseToPageAddr e.baseAddr) := by
  cases q with
  | nil => exact Or.inl ht
  | cons j q =>
      obtain ⟨e', he', rfl⟩ := exists_hwEntry_of_hwTable ht
      rw [h _ hq] at he'
      rcases of_fillIn_eq_some he' with hold | ⟨hpath, hnone, rfl⟩
      · rw [hwTable_cons, hold]
        exact Or.inl rfl
      · exact Or.inr ⟨hpath, hnone, rfl⟩

/-- The tables that were there stay. -/
theorem hwTable_fillIn_of_some
    (h : ∀ q, HwPath q → hwEntry mem' cr3 q = fillIn (hwEntry mem cr3) path e q) {q : List Nat}
    (hq : HwPath q) (ht : hwTable mem cr3 q = some t) : hwTable mem' cr3 q = some t :=
  hwTable_of_entries (fun q _ hq he => (h q hq).trans (fillIn_of_some he)) hq ht

/-- The entry that has been filled in leads to the table at its address. -/
theorem hwTable_fillIn_self
    (h : ∀ q, HwPath q → hwEntry mem' cr3 q = fillIn (hwEntry mem cr3) (i :: p) e q)
    (hp : HwPath (i :: p)) (ht : hwTable mem cr3 p = some t) :
    hwTable mem' cr3 (i :: p) = some (baseToPageAddr (mem' (t + i * 8)).baseAddr) := by
  have hpres : hwEntry mem' cr3 (i :: p) ≠ none := by
    rw [h _ hp]
    exact fillIn_ne_none _ _ _
  obtain ⟨e', he'⟩ := Option.ne_none_iff_exists'.1 hpres
  obtain ⟨u, hu, hmem, -⟩ := hwEntry_cons_eq_some.1 he'
  obtain rfl := Option.some.inj (hu.symm.trans (hwTable_fillIn_of_some h hp.tail ht))
  rw [hwTable_cons, he', hmem]
  rfl

/-- A page that was fresh stays fresh unless it has become a table. -/
theorem HwFresh.of_fillIn {phys : Nat} (hfresh : HwFresh mem cr3 phys)
    (h : ∀ q, HwPath q → hwEntry mem' cr3 q = fillIn (hwEntry mem cr3) path e q)
    (hne : phys ≠ baseToPageAddr e.baseAddr) : HwFresh mem' cr3 phys := by
  refine ⟨hfresh.aligned, hfresh.bound, fun q hq hlen ht => ?_⟩
  rcases hwTable_of_fillIn h hq ht with hold | ⟨-, -, heq⟩
  · exact hfresh.not_table q hq hlen hold
  · exact hne heq

end Link

section Fault

variable {off faultAddr : Nat} {zeroed : ZeroedPages}

/-- The path of the processor to the page of the fault. -/
def faultPath (faultAddr : Nat) : List Nat :=
  [pte64Index faultAddr, pde64Index faultAddr, pdpe64Index faultAddr, 8 * pml4e64Index faultAddr]

theorem hwPath_faultPath (h : pml4e64Index faultAddr < 64) : HwPath (faultPath faultAddr) := by
  have hpml : 8 * pml4e64Index faultAddr < 512 := by omega
  exact ⟨⟨Nat.mod_lt _ (by decide), Nat.mod_lt _ (by decide), Nat.mod_lt _ (by decide), hpml,
    trivial⟩, Nat.le_refl 4⟩

theorem faultPath_eq_pathOf (h : pml4e64Index faultAddr = 0) :
    faultPath faultAddr = pathOf (faultAddr / 2 ^ 12) := by
  rw [pathOf_pageNumber, faultPath, h]

/-- The tables on the way to the page of the fault are filled in. -/
def fillTables (off faultAddr : Nat) (zeroed : ZeroedPages) (m : List Nat → Option PtEntry) :
    List Nat → Option PtEntry :=
  fillIn (fillIn (fillIn m
    [8 * pml4e64Index faultAddr] (mappedEntry (pa off zeroed.pdpeTablePage)))
    [pdpe64Index faultAddr, 8 * pml4e64Index faultAddr] (mappedEntry (pa off zeroed.pdeTablePage)))
    [pde64Index faultAddr, pdpe64Index faultAddr, 8 * pml4e64Index faultAddr]
    (mappedEntry (pa off zeroed.pteTablePage))

theorem pmlSlot_eq (cr3 i : Nat) : pmlSlot cr3 i = cr3ToPml4e64 cr3 + 8 * i * 8 := by
  unfold pmlSlot
  omega

/-- What the kernel promises of `get_zeroed_page`, in the terms of the processor. -/
structure ZeroedPages.HwOk (off : Nat) (mem : PtMem) (cr3 : Nat) (zeroed : ZeroedPages) : Prop where
  pdpe_fresh : HwFresh mem cr3 (pa off zeroed.pdpeTablePage)
  pde_fresh : HwFresh mem cr3 (pa off zeroed.pdeTablePage)
  pte_fresh : HwFresh mem cr3 (pa off zeroed.pteTablePage)
  pde_ne_pdpe : pa off zeroed.pdeTablePage ≠ pa off zeroed.pdpeTablePage
  pte_ne_pdpe : pa off zeroed.pteTablePage ≠ pa off zeroed.pdpeTablePage
  pte_ne_pde : pa off zeroed.pteTablePage ≠ pa off zeroed.pdeTablePage

theorem ZeroedPages.Ok.hwOk (hz : zeroed.Ok off mem cr3)
    (hno : NoHwTable mem cr3 (zeroed.IsPage off)) : zeroed.HwOk off mem cr3 where
  pdpe_fresh := ⟨hz.pdpe_fresh.aligned, hz.pdpe_fresh.bound,
    fun q hq hlen => hno _ (Or.inl rfl) q hq.1 hlen⟩
  pde_fresh := ⟨hz.pde_fresh.aligned, hz.pde_fresh.bound,
    fun q hq hlen => hno _ (Or.inr (Or.inl rfl)) q hq.1 hlen⟩
  pte_fresh := ⟨hz.pte_fresh.aligned, hz.pte_fresh.bound,
    fun q hq hlen => hno _ (Or.inr (Or.inr rfl)) q hq.1 hlen⟩
  pde_ne_pdpe := hz.pde_ne_pdpe
  pte_ne_pdpe := hz.pte_ne_pdpe
  pte_ne_pde := hz.pte_ne_pde

/-- The memories `mem₁` and `mem₂` after the first and the second level of the way down, and the
tables `t₁` and `t₂` that it has come to then. -/
structure DescendLinks (off cr3 faultAddr : Nat) (zeroed : ZeroedPages) (mem mem₁ mem₂ : PtMem)
    (t₁ t₂ : Nat) : Prop where
  tree₁ : HwTablesOk mem₁ cr3
  entries₁ : ∀ q, HwPath q → hwEntry mem₁ cr3 q = fillIn (hwEntry mem cr3)
    [8 * pml4e64Index faultAddr] (mappedEntry (pa off zeroed.pdpeTablePage)) q
  table₁ : hwTable mem₁ cr3 [8 * pml4e64Index faultAddr] = some t₁
  fresh₁ : HwFresh mem₁ cr3 (pa off zeroed.pdeTablePage)
  tree₂ : HwTablesOk mem₂ cr3
  entries₂ : ∀ q, HwPath q → hwEntry mem₂ cr3 q = fillIn (hwEntry mem₁ cr3)
    [pdpe64Index faultAddr, 8 * pml4e64Index faultAddr] (mappedEntry (pa off zeroed.pdeTablePage)) q
  table₂ : hwTable mem₂ cr3 [pdpe64Index faultAddr, 8 * pml4e64Index faultAddr] = some t₂
  fresh₂ : HwFresh mem₂ cr3 (pa off zeroed.pteTablePage)

theorem HwTablesOk.descendLinks {mem₁ mem₂ : PtMem} {t₁ t₂ : Nat} (h : HwTablesOk mem cr3)
    (hpml : pml4e64Index faultAddr < 64) (hz : zeroed.HwOk off mem cr3)
    (hmem₁ : mem₁ = VirtualMemory.linkTable off mem
      (cr3ToPml4e64 cr3 + 8 * pml4e64Index faultAddr * 8) zeroed.pdpeTablePage)
    (ht₁ : t₁ = baseToPageAddr (mem₁ (cr3ToPml4e64 cr3 + 8 * pml4e64Index faultAddr * 8)).baseAddr)
    (hmem₂ : mem₂ = VirtualMemory.linkTable off mem₁ (t₁ + pdpe64Index faultAddr * 8)
      zeroed.pdeTablePage)
    (ht₂ : t₂ = baseToPageAddr (mem₂ (t₁ + pdpe64Index faultAddr * 8)).baseAddr) :
    DescendLinks off cr3 faultAddr zeroed mem mem₁ mem₂ t₁ t₂ := by
  have hpath := (hwPath_faultPath hpml).tail
  have hbase : ∀ {page}, HwFresh mem cr3 (pa off page) →
      baseToPageAddr (mappedEntry (pa off page)).baseAddr = pa off page :=
    fun hf => baseToPageAddr_pageToBaseAddr hf.aligned hf.bound
  -- the first level
  obtain ⟨h₁, he₁⟩ := h.linkTable hpath.tail.tail (by decide) rfl hz.pdpe_fresh
  rw [← hmem₁] at h₁ he₁
  have htable₁ := hwTable_fillIn_self he₁ hpath.tail.tail rfl
  rw [← ht₁] at htable₁
  have hfresh₁ := hz.pde_fresh.of_fillIn he₁ (by rw [hbase hz.pdpe_fresh]; exact hz.pde_ne_pdpe)
  have hfresh := hz.pte_fresh.of_fillIn he₁ (by rw [hbase hz.pdpe_fresh]; exact hz.pte_ne_pdpe)
  -- the second level
  obtain ⟨h₂, he₂⟩ := h₁.linkTable hpath.tail (by simp) htable₁ hfresh₁
  rw [← hmem₂] at h₂ he₂
  have htable₂ := hwTable_fillIn_self he₂ hpath.tail htable₁
  rw [← ht₂] at htable₂
  have hfresh₂ := hfresh.of_fillIn he₂ (by rw [hbase hz.pde_fresh]; exact hz.pte_ne_pde)
  exact ⟨h₁, he₁, htable₁, hfresh₁, h₂, he₂, htable₂, hfresh₂⟩

/-- The way down fills in the tables and ends at the entry of the page. -/
theorem HwTablesOk.descend (h : HwTablesOk mem cr3) (hpml : pml4e64Index faultAddr < 64)
    (hz : zeroed.HwOk off mem cr3) :
    HwTablesOk (descend off cr3 faultAddr zeroed mem).1 cr3 ∧
    (∀ q, HwPath q → hwEntry (descend off cr3 faultAddr zeroed mem).1 cr3 q =
      fillTables off faultAddr zeroed (hwEntry mem cr3) q) ∧
    ∃ t, hwTable (descend off cr3 faultAddr zeroed mem).1 cr3 (faultPath faultAddr).tail = some t ∧
      (descend off cr3 faultAddr zeroed mem).2 = t + pte64Index faultAddr * 8 := by
  have hpath := (hwPath_faultPath hpml).tail
  have hlinks := h.descendLinks hpml hz rfl rfl rfl rfl
  obtain ⟨h₃, he₃⟩ := hlinks.tree₂.linkTable hpath (by simp) hlinks.table₂ hlinks.fresh₂
  have ht₃ := hwTable_fillIn_self he₃ hpath hlinks.table₂
  have he₁₂ : ∀ q, HwPath q → _ := fun q hq =>
    (hlinks.entries₂ q hq).trans (fillIn_congr (hlinks.entries₁ _ hpath.tail)
      (hlinks.entries₁ q hq))
  rw [VirtualMemory.descend, pmlSlot_eq]
  exact ⟨h₃, fun q hq => (he₃ q hq).trans (fillIn_congr (he₁₂ _ hpath) (he₁₂ q hq)), _, ht₃, rfl⟩

/-- Every entry of the tables on the way to the page of the fault is there afterwards. -/
theorem fillTables_ne_none (off faultAddr : Nat) (zeroed : ZeroedPages)
    (m : List Nat → Option PtEntry) {q : List Nat} (hq : q <:+ (faultPath faultAddr).tail)
    (hne : q ≠ []) : fillTables off faultAddr zeroed m q ≠ none := by
  unfold fillTables
  rcases List.suffix_cons_iff.1 hq with rfl | hq
  · exact fillIn_ne_none _ _ _
  rcases List.suffix_cons_iff.1 hq with rfl | hq
  · exact fillIn_ne_none_of (fillIn_ne_none _ _ _)
  rcases List.suffix_cons_iff.1 hq with rfl | hq
  · exact fillIn_ne_none_of (fillIn_ne_none_of (fillIn_ne_none _ _ _))
  · exact absurd (List.suffix_nil.1 hq) hne

/-- What a fault fills in lies on the way to its page. -/
theorem fillPage_of_not_suffix (off faultAddr : Nat) (zeroed : ZeroedPages) (e : PtEntry)
    (m : List Nat → Option PtEntry) {q : List Nat} (hq : ¬ q <:+ faultPath faultAddr) :
    fillIn (fillTables off faultAddr zeroed m) (faultPath faultAddr) e q = m q := by
  have hne : ∀ {path : List Nat}, path <:+ faultPath faultAddr → q ≠ path := by
    rintro path hs rfl
    exact hq hs
  unfold fillTables
  rw [fillIn_of_ne (hne (List.suffix_refl _)), fillIn_of_ne (hne ⟨[_], rfl⟩),
    fillIn_of_ne (hne ⟨[_, _], rfl⟩), fillIn_of_ne (hne ⟨[_, _, _], rfl⟩)]

/-- What is there stays. -/
theorem fillPage_of_some (off faultAddr : Nat) (zeroed : ZeroedPages) (e : PtEntry)
    {m : List Nat → Option PtEntry} {q : List Nat} {e' : PtEntry} (hq : m q = some e') :
    fillIn (fillTables off faultAddr zeroed m) (faultPath faultAddr) e q = some e' :=
  fillIn_of_some (fillIn_of_some (fillIn_of_some (fillIn_of_some hq)))

/-- What is there afterwards is old, or it lies on the way to the page of the fault and is filled
in. -/
theorem of_fillPage_eq_some {off faultAddr page : Nat} {zeroed : ZeroedPages}
    {m : List Nat → Option PtEntry} {q : List Nat} {e : PtEntry}
    (h : fillIn (fillTables off faultAddr zeroed m) (faultPath faultAddr) (mappedEntry page) q =
      some e) :
    m q = some e ∨ (q <:+ faultPath faultAddr ∧ m q = none ∧ ∃ phys, e = mappedEntry phys) := by
  have hnew : m q = none ∨ m q = some e := by
    cases hq : m q with
    | none => exact Or.inl rfl
    | some e' =>
        rw [fillPage_of_some off faultAddr zeroed _ hq] at h
        exact Or.inr h
  rcases hnew with hnone | hold
  · refine Or.inr ?_
    rcases of_fillIn_eq_some h with h | ⟨rfl, -, rfl⟩
    · rcases of_fillIn_eq_some h with h | ⟨rfl, -, rfl⟩
      · rcases of_fillIn_eq_some h with h | ⟨rfl, -, rfl⟩
        · rcases of_fillIn_eq_some h with h | ⟨rfl, -, rfl⟩
          · cases hnone.symm.trans h
          · exact ⟨⟨[_, _, _], rfl⟩, hnone, _, rfl⟩
        · exact ⟨⟨[_, _], rfl⟩, hnone, _, rfl⟩
      · exact ⟨⟨[_], rfl⟩, hnone, _, rfl⟩
    · exact ⟨List.suffix_refl _, hnone, _, rfl⟩
  · exact Or.inl hold

/-- Every entry on the way to the page of the fault is there afterwards, and the page as well. -/
theorem fillPage_ne_none (off faultAddr : Nat) (zeroed : ZeroedPages) (e : PtEntry)
    (m : List Nat → Option PtEntry) {q : List Nat} (hq : q <:+ faultPath faultAddr) (hne : q ≠ []) :
    fillIn (fillTables off faultAddr zeroed m) (faultPath faultAddr) e q ≠ none := by
  rcases List.suffix_cons_iff.1 hq with rfl | hq
  · exact fillIn_ne_none _ _ _
  · exact fillIn_ne_none_of (fillTables_ne_none off faultAddr zeroed m hq hne)

/-- An entry of the last level is written. -/
theorem HwTablesOk.mapPage (h : HwTablesOk mem cr3) {i t : Nat} {p : List Nat}
    (hp : HwPath (i :: p)) (hpd : p.length + 1 = 4) (ht : hwTable mem cr3 p = some t)
    (habs : (mem (t + i * 8)).present = false) (page : Nat) :
    HwTablesOk (Function.update mem (t + i * 8) (mappedEntry page)) cr3 ∧
    ∀ q, HwPath q → hwEntry (Function.update mem (t + i * 8) (mappedEntry page)) cr3 q =
      fillIn (hwEntry mem cr3) (i :: p) (mappedEntry page) q := by
  refine ⟨h.update_leaf hp.1 hpd ht, fun q hq => ?_⟩
  have hlookup := h.lookup_update (e := mappedEntry page) hp.1 (by omega) ht hq.1 hq.2 fun hs hne =>
    absurd (hs.eq_of_length_le (hq.2.trans (Nat.le_of_eq hpd.symm))).symm hne
  rw [fillIn, if_pos ((hwEntry_cons_eq_none ht).2 habs), Function.update_apply]
  exact hlookup

/-- What a fault does to the entries: if the address is in the map, then the tables on the way and
the page are filled in. -/
theorem hwEntry_petmemHandlePagefault {mem' : PtMem} {map : MemMap}
    {pools pools' : List BuddyMempool} {r : Int} (h : HwTablesOk mem cr3)
    (hpml : vaddrInMap faultAddr map = true → pml4e64Index faultAddr < 64)
    (hz : zeroed.HwOk off mem cr3)
    (hfault : petmemHandlePagefault off map cr3 faultAddr zeroed mem pools =
      some (r, mem', pools')) :
    HwTablesOk mem' cr3 ∧
    ((vaddrInMap faultAddr map = false ∧ mem' = mem) ∨
      (vaddrInMap faultAddr map = true ∧ ∃ page, ∀ q, HwPath q → hwEntry mem' cr3 q =
        fillIn (fillTables off faultAddr zeroed (hwEntry mem cr3)) (faultPath faultAddr)
          (mappedEntry page) q)) := by
  rw [petmemHandlePagefault] at hfault
  split at hfault
  next hout =>
    cases hfault
    exact ⟨h, Or.inl ⟨hout, rfl⟩⟩
  next hin =>
    replace hin : vaddrInMap faultAddr map = true := by simpa using hin
    have hpath := hwPath_faultPath (hpml hin)
    obtain ⟨hd, hentries, t, ht, hslot⟩ := h.descend (hpml hin) hz
    simp only [hslot] at hfault
    split at hfault
    next habs =>
      obtain ⟨⟨page, pools₁⟩, -, heq⟩ := Option.bind_eq_some_iff.1 hfault
      cases heq
      obtain ⟨hd', hpage⟩ := hd.mapPage hpath rfl ht habs page
      refine ⟨hd', Or.inr ⟨hin, page, fun q hq => (hpage q hq).trans ?_⟩⟩
      exact fillIn_congr (hentries _ hpath) (hentries q hq)
    next hpres =>
      cases hfault
      refine ⟨hd, Or.inr ⟨hin, 0, fun q hq => ?_⟩⟩
      -- the page is there, and nothing is filled in for it
      rw [fillIn, ← hentries _ hpath, if_neg]
      · exact hentries q hq
      · exact fun hnone => hpres ((hwEntry_cons_eq_none ht).1 hnone)

end Fault

/-! ## Entries that are taken out -/

section Clear

variable {i t u : Nat} {p : List Nat}

/-- An entry under which nothing is present is cleared. -/
theorem HwTablesOk.clearPresent (h : HwTablesOk mem cr3) (hp : HwPath (i :: p))
    (ht : hwTable mem cr3 p = some t)
    (hbelow : ∀ q, HwPath q → i :: p <:+ q → q ≠ i :: p → hwEntry mem cr3 q = none) :
    HwTablesOk (clearPresent mem (t + i * 8)) cr3 ∧
    ∀ q, HwPath q → hwEntry (VirtualMemory.clearPresent mem (t + i * 8)) cr3 q =
      if q = i :: p then none else hwEntry mem cr3 q :=
  ⟨h.unlink hp.1 hp.2 ht rfl, fun q hq =>
    h.lookup_remove hp.1 hp.2 ht rfl hq.1 hq.2 fun hs hne => hbelow q hq hs hne⟩

/-- Nothing is below an entry of the last level. -/
theorem hwEntry_below_page (hpd : p.length + 1 = 4) (q : List Nat) (hq : HwPath q)
    (hs : i :: p <:+ q) (hne : q ≠ i :: p) : hwEntry mem cr3 q = none :=
  absurd (hs.eq_of_length_le (hq.2.trans (Nat.le_of_eq hpd.symm))).symm hne

/-- Nothing is below an entry that leads to an empty table. -/
theorem hwEntry_below_empty (hu : hwTable mem cr3 (i :: p) = some u)
    (hempty : tableIsEmpty mem u = true) (q : List Nat) (hq : HwPath q) (hs : i :: p <:+ q)
    (hne : q ≠ i :: p) : hwEntry mem cr3 q = none := by
  have hlen : (i :: p).length < q.length :=
    Nat.lt_of_le_of_ne hs.length_le fun heq => hne (hs.eq_of_length heq).symm
  exact Layout.lookup_eq_none_of_empty hq.1 hs hlen hu fun j hj => present_of_tableIsEmpty hempty hj

/-- The tables after an entry has been cleared. -/
theorem hwTable_clear_eq_some {mem' : PtMem} (h : ∀ q, HwPath q → hwEntry mem' cr3 q =
    if q = i :: p then none else hwEntry mem cr3 q) {q : List Nat} (hq : HwPath q) :
    hwTable mem' cr3 q = some t ↔ hwTable mem cr3 q = some t ∧ q ≠ i :: p := by
  cases q with
  | nil => simp [hwTable, Layout.tableAt]
  | cons j q =>
      rw [hwTable_cons, hwTable_cons, h _ hq]
      split
      next heq => simp [heq]
      next hne => simp [hne]

end Clear

end PetKernel.VirtualMemory
