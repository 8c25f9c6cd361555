import PetKernel.VirtualMemory.PageTable

/-!
# The walk that frees the pages of a node

A model of the second half of `petmem_free_vspace` of `virtual_memory/on_demand.c`: the loop that
goes through the page tables, page by page and in larger steps where a table is missing, gives the
pages found back to the pools, and releases the tables that have become empty.

The loop counts what it has passed in `num_pages_freed`. At a missing table the count is a product
of three factors, which is too small unless the cursor stands at the start of the part that is
missing. This can only happen in the first turn (`Steady`), and the cursor is never behind the
count, so that the walk covers at least the pages asked for (`freePages_spec`). It may go on beyond
them, but all it does is to take pages out and to give each one to `petmem_free_pages` (`Unmaps`,
`walk_spec`).
-/

set_option autoImplicit false

namespace PetKernel.VirtualMemory

open PetKernel.Library

/-! ## The model -/

/-- `MAX_PDPE64_ENTRIES`, `MAX_PDE64_ENTRIES` and `MAX_PTE64_ENTRIES`. -/
def maxEntries : Nat := 512

/-- The loop that `pdpe_table_is_empty`, `pde_table_is_empty` and `pte_table_is_empty` share. -/
@[irreducible]
def tableIsEmpty (mem : PtMem) (base : Nat) : Bool :=
  (List.range maxEntries).all fun i => !(mem (base + i * 8)).present

/-- `pdpe_table_is_empty`. -/
def pdpeTableIsEmpty (mem : PtMem) (pdpe : Nat) : Bool := tableIsEmpty mem pdpe

/-- `pde_table_is_empty`. -/
def pdeTableIsEmpty (mem : PtMem) (pde : Nat) : Bool := tableIsEmpty mem pde

/-- `pte_table_is_empty`. -/
def pteTableIsEmpty (mem : PtMem) (pte : Nat) : Bool := tableIsEmpty mem pte

/-- `entry->present = 0`. -/
def clearPresent (mem : PtMem) (slot : Nat) : PtMem :=
  Function.update mem slot { mem slot with present := false }

/-- The variables of the loop. -/
structure Walk where
  mem : PtMem
  pools : List BuddyMempool
  pmlIndex : Nat
  pdpeIndex : Nat
  pdeIndex : Nat
  pteIndex : Nat
  numPagesFreed : Nat

/-- `increment_pml_index`. -/
def incrementPmlIndex (w : Walk) : Walk := { w with pmlIndex := w.pmlIndex + 1 }

/-- `increment_pdpe_index`; `free_page` only returns the table to the kernel. -/
def incrementPdpeIndex (pml : Nat) (w : Walk) : Walk :=
  let pdpeBase := baseToPageAddr (w.mem pml).baseAddr
  if w.pdpeIndex + 1 = maxEntries then
    let mem := if pdpeTableIsEmpty w.mem pdpeBase then clearPresent w.mem pml else w.mem
    incrementPmlIndex { w with pdpeIndex := 0, mem := mem }
  else { w with pdpeIndex := w.pdpeIndex + 1 }

/-- `increment_pde_index`. -/
def incrementPdeIndex (pdpe pml : Nat) (w : Walk) : Walk :=
  let pdeBase := baseToPageAddr (w.mem pdpe).baseAddr
  if w.pdeIndex + 1 = maxEntries then
    let mem := if pdeTableIsEmpty w.mem pdeBase then clearPresent w.mem pdpe else w.mem
    incrementPdpeIndex pml { w with pdeIndex := 0, mem := mem }
  else { w with pdeIndex := w.pdeIndex + 1 }

/-- `increment_pte_index`. -/
def incrementPteIndex (pde pdpe pml : Nat) (w : Walk) : Walk :=
  if w.pteIndex + 1 = maxEntries then
    let pteBase := baseToPageAddr (w.mem pde).baseAddr
    let mem := if pteTableIsEmpty w.mem pteBase then clearPresent w.mem pde else w.mem
    incrementPdeIndex pdpe pml { w with pteIndex := 0, mem := mem }
  else { w with pteIndex := w.pteIndex + 1 }

/-- One turn of the loop; `none` after a `BUG_ON`. -/
def walkStep (off cr3 : Nat) (w : Walk) : Option Walk :=
  let pml := pmlSlot cr3 w.pmlIndex
  if (w.mem pml).present = false then
    let w₁ := incrementPmlIndex { w with
      numPagesFreed := w.numPagesFreed +
        (512 - w.pdpeIndex) * (512 - w.pdeIndex) * (512 - w.pteIndex) }
    some { w₁ with pdpeIndex := 0, pdeIndex := 0, pteIndex := 0 }
  else
    let pdpe := entrySlot (w.mem pml).baseAddr w.pdpeIndex
    if (w.mem pdpe).present = false then
      let w₁ := incrementPdpeIndex pml { w with
        numPagesFreed := w.numPagesFreed + (512 - w.pdeIndex) * (512 - w.pteIndex) }
      some { w₁ with pdeIndex := 0, pteIndex := 0 }
    else
      let pde := entrySlot (w.mem pdpe).baseAddr w.pdeIndex
      if (w.mem pde).present = false then
        let w₁ := incrementPdeIndex pdpe pml { w with
          numPagesFreed := w.numPagesFreed + (512 - w.pteIndex) }
        some { w₁ with pteIndex := 0 }
      else
        let pte := entrySlot (w.mem pde).baseAddr w.pteIndex
        if (w.mem pte).present = true then
          (petmemFreePages off w.pools (baseToPageAddr (w.mem pte).baseAddr) 1).map fun pools =>
            incrementPteIndex pde pdpe pml { w with
              mem := clearPresent w.mem pte
              pools := pools
              numPagesFreed := w.numPagesFreed + 1 }
        else
          some (incrementPteIndex pde pdpe pml { w with numPagesFreed := w.numPagesFreed + 1 })

/-- The page that a turn of the loop passes to `petmem_free_pages`, if it does. -/
def turnFrame (cr3 : Nat) (w : Walk) : Option Nat :=
  let pml := pmlSlot cr3 w.pmlIndex
  if (w.mem pml).present = false then none
  else
    let pdpe := entrySlot (w.mem pml).baseAddr w.pdpeIndex
    if (w.mem pdpe).present = false then none
    else
      let pde := entrySlot (w.mem pdpe).baseAddr w.pdeIndex
      if (w.mem pde).present = false then none
      else
        let pte := entrySlot (w.mem pde).baseAddr w.pteIndex
        if (w.mem pte).present = true then some (baseToPageAddr (w.mem pte).baseAddr) else none

/-- The loop of `petmem_free_vspace`, for at most `n` turns. -/
def walk (off cr3 numPagesToFree : Nat) : Nat → Walk → Option Walk
  | 0, w => some w
  | n + 1, w =>
      if w.numPagesFreed < numPagesToFree then
        (walkStep off cr3 w).bind (walk off cr3 numPagesToFree n)
      else some w

/-- The variables of the loop before its first turn. -/
def firstWalk (vaddr : Nat) (mem : PtMem) (pools : List BuddyMempool) : Walk where
  mem := mem
  pools := pools
  pmlIndex := pml4e64Index vaddr
  pdpeIndex := pdpe64Index vaddr
  pdeIndex := pde64Index vaddr
  pteIndex := pte64Index vaddr
  numPagesFreed := 0

/-- The walk of `petmem_free_vspace`. Every turn counts at least one page, so that
`num_pages_to_free` turns are enough. -/
def freePages (off cr3 vaddr numPagesToFree : Nat) (mem : PtMem) (pools : List BuddyMempool) :
    Option Walk :=
  walk off cr3 numPagesToFree numPagesToFree (firstWalk vaddr mem pools)

/-- `petmem_free_vspace`: the map, the page tables and the pools. -/
def petmemFreeVspace (off : Nat) (map : MemMap) (cr3 vaddr : Nat) (mem : PtMem)
    (pools : List BuddyMempool) : Option (MemMap × PtMem × List BuddyMempool) :=
  let (map, numPagesToFree) := petmemFreeMap map vaddr
  (freePages off cr3 vaddr numPagesToFree mem pools).map fun w => (map, w.mem, w.pools)

/-! ## The increments -/

/-- The number of the page at the cursor. -/
def Walk.cursor (w : Walk) : Nat :=
  ((w.pmlIndex * 512 + w.pdpeIndex) * 512 + w.pdeIndex) * 512 + w.pteIndex

/-- The path of the page at the cursor. -/
def Walk.path (w : Walk) : List Nat := [w.pteIndex, w.pdeIndex, w.pdpeIndex, w.pmlIndex]

theorem Walk.pml_suffix_path (w : Walk) : [w.pmlIndex] <:+ w.path :=
  ⟨[w.pteIndex, w.pdeIndex, w.pdpeIndex], rfl⟩

theorem Walk.pdpe_suffix_path (w : Walk) : [w.pdpeIndex, w.pmlIndex] <:+ w.path :=
  ⟨[w.pteIndex, w.pdeIndex], rfl⟩

theorem Walk.pde_suffix_path (w : Walk) : [w.pdeIndex, w.pdpeIndex, w.pmlIndex] <:+ w.path :=
  ⟨[w.pteIndex], rfl⟩

/-- The indices are in range. -/
structure Walk.InRange (w : Walk) : Prop where
  pml : w.pmlIndex < 64
  pdpe : w.pdpeIndex < 512
  pde : w.pdeIndex < 512
  pte : w.pteIndex < 512

theorem tableIsEmpty_iff {mem : PtMem} {base : Nat} :
    tableIsEmpty mem base = true ↔ ∀ i < maxEntries, (mem (base + i * 8)).present = false := by
  unfold tableIsEmpty
  simp only [List.all_eq_true, List.mem_range, Bool.not_eq_true']

theorem present_of_tableIsEmpty {mem : PtMem} {base : Nat} (h : tableIsEmpty mem base = true)
    {i : Nat} (hi : i < maxEntries) : (mem (base + i * 8)).present = false :=
  tableIsEmpty_iff.1 h i hi

section Release

variable {cr3 i t u : Nat} {p : List Nat} {mem : PtMem}

/-- A table is released if it is empty. -/
theorem TablesOk.release (h : TablesOk mem cr3) (hp : pageTables.ValidPath (i :: p))
    (hpd : p.length + 1 < 4) (ht : pageTables.tableAt mem (cr3ToPml4e64 cr3) p = some t)
    (hu : pageTables.tableAt mem (cr3ToPml4e64 cr3) (i :: p) = some u) {mem' : PtMem}
    (hmem : mem' = if tableIsEmpty mem u then clearPresent mem (pageTables.slot p.length t i)
      else mem) :
    SamePages mem mem' cr3 (fun _ => False) ∧
    ∀ q, pageTables.ValidPath q → q.length < 4 → ¬ i :: p <:+ q →
      pageTables.tableAt mem' (cr3ToPml4e64 cr3) q = pageTables.tableAt mem
        (cr3ToPml4e64 cr3) q := by
  -- the entry of an empty table is cleared, which unmaps nothing; other tables stay
  by_cases hempty : tableIsEmpty mem u = true
  · rw [if_pos hempty] at hmem
    rw [hmem]
    have hslots : ∀ j, j < pageTables.fanout (i :: p).length →
        pageTables.present (mem (pageTables.slot (i :: p).length u j)) = false := by
      intro j hj
      exact present_of_tableIsEmpty hempty hj
    have hother := fun q (hq : pageTables.ValidPath q) (hqd : q.length < 4) =>
      h.tableAt_update (e := { mem (pageTables.slot p.length t i) with present := false }) hp
        (by omega) ht hq (Nat.le_of_lt hqd)
    refine ⟨⟨h.unlink hp (by omega) ht rfl, ?_, ?_⟩, hother⟩
    · intro q hq hlen
      apply h.lookup_unlink hp (by omega) ht rfl hq hlen
      intro hs
      exact Layout.lookup_eq_none_of_empty hq hs (by rw [List.length_cons, hlen]; exact hpd)
        hu hslots
    · intro q t' hq hqd ht'
      exact Or.inr (h.tableAt_of_unlink hp (by omega) ht rfl hq hqd ht')
  · rw [if_neg hempty] at hmem
    rw [hmem]
    exact ⟨SamePages.refl h, fun _ _ _ _ => rfl⟩

/-- A table is where its entry says. -/
theorem baseToPageAddr_of_tableAt {l : Nat} (hl : p.length = l)
    (ht : pageTables.tableAt mem (cr3ToPml4e64 cr3) p = some t)
    (hu : pageTables.tableAt mem (cr3ToPml4e64 cr3) (i :: p) = some u) :
    baseToPageAddr (mem (pageTables.slot l t i)).baseAddr = u := by
  subst hl
  obtain ⟨e, he, -, rfl⟩ := Layout.tableAt_cons_eq_some.1 hu
  obtain ⟨t', ht', rfl⟩ := Layout.entryAt_cons_eq_some.1 he
  obtain rfl := Option.some.inj (ht.symm.trans ht')
  rfl

end Release

/-- An increment keeps the pages, the pools and the count. -/
structure Keeps (cr3 : Nat) (w w' : Walk) : Prop where
  pages : SamePages w.mem w'.mem cr3 fun _ => False
  pools : w'.pools = w.pools
  numPagesFreed : w'.numPagesFreed = w.numPagesFreed

/-- The tables above a cursor that does not stand at the start of a table exist. -/
structure Steady (cr3 : Nat) (w : Walk) : Prop where
  pdpe : w.pdpeIndex ≠ 0 →
    ∃ t, pageTables.tableAt w.mem (cr3ToPml4e64 cr3) [w.pmlIndex] = some t
  pde : w.pdeIndex ≠ 0 →
    ∃ t, pageTables.tableAt w.mem (cr3ToPml4e64 cr3) [w.pdpeIndex, w.pmlIndex] = some t
  pte : w.pteIndex ≠ 0 →
    ∃ t, pageTables.tableAt w.mem (cr3ToPml4e64 cr3) [w.pdeIndex, w.pdpeIndex, w.pmlIndex] = some t

/-- An index that starts again carries to the level above. -/
theorem carry {n n' i i' : Nat} (hn : n' = n + 1) (hi : i + 1 = maxEntries) (hi' : i' = 0) :
    n' * 512 + i' = n * 512 + i + 1 := by
  unfold maxEntries at hi
  omega

section Increments

variable {cr3 t₁ t₂ t₃ : Nat} {w w' : Walk}

theorem incrementPdpeIndex_spec (h : TablesOk w.mem cr3) (hpml : w.pmlIndex < 64)
    (hpdpe : w.pdpeIndex < 512)
    (ht₁ : pageTables.tableAt w.mem (cr3ToPml4e64 cr3) [w.pmlIndex] = some t₁)
    (hw' : w' = incrementPdpeIndex (pmlSlot cr3 w.pmlIndex) w) :
    Keeps cr3 w w' ∧ w'.pdeIndex = w.pdeIndex ∧ w'.pteIndex = w.pteIndex ∧
    w'.pmlIndex * 512 + w'.pdpeIndex = w.pmlIndex * 512 + w.pdpeIndex + 1 ∧ w'.pdpeIndex < 512 ∧
    (w'.pdpeIndex ≠ 0 →
      ∃ t, pageTables.tableAt w'.mem (cr3ToPml4e64 cr3) [w'.pmlIndex] = some t) := by
  have hbase := baseToPageAddr_of_tableAt (p := []) rfl rfl ht₁
  -- at the end of the table the index of the level above is incremented
  by_cases hwrap : w.pdpeIndex + 1 = maxEntries
  · obtain ⟨hsame, -⟩ := h.release (p := []) ⟨hpml, trivial⟩ (by decide) rfl ht₁ rfl
    rw [← hbase] at hsame
    rw [incrementPdpeIndex, if_pos hwrap] at hw'
    unfold maxEntries at hwrap
    have hpml' : w'.pmlIndex = w.pmlIndex + 1 := by rw [hw', incrementPmlIndex]
    have hpdpe' : w'.pdpeIndex = 0 := by rw [hw', incrementPmlIndex]
    refine ⟨?_, by rw [hw', incrementPmlIndex], by rw [hw', incrementPmlIndex], ?_, ?_, ?_⟩
    · rw [hw']
      exact ⟨hsame, rfl, rfl⟩
    · omega
    · omega
    · intro hne
      exact absurd hpdpe' hne
  · rw [incrementPdpeIndex, if_neg hwrap] at hw'
    unfold maxEntries at hwrap
    subst hw'
    refine ⟨⟨SamePages.refl h, rfl, rfl⟩, rfl, rfl, ?_, ?_, fun _ => ⟨t₁, ht₁⟩⟩
    · simp only
      omega
    · simp only
      omega

theorem incrementPdeIndex_spec (h : TablesOk w.mem cr3) (hr : w.InRange)
    (ht₁ : pageTables.tableAt w.mem (cr3ToPml4e64 cr3) [w.pmlIndex] = some t₁)
    (ht₂ : pageTables.tableAt w.mem (cr3ToPml4e64 cr3) [w.pdpeIndex, w.pmlIndex] = some t₂)
    (hw' : w' = incrementPdeIndex (pageTables.slot 1 t₁ w.pdpeIndex) (pmlSlot cr3 w.pmlIndex) w) :
    Keeps cr3 w w' ∧ w'.pteIndex = w.pteIndex ∧
    (w'.pmlIndex * 512 + w'.pdpeIndex) * 512 + w'.pdeIndex =
      (w.pmlIndex * 512 + w.pdpeIndex) * 512 + w.pdeIndex + 1 ∧
    w'.pdpeIndex < 512 ∧ w'.pdeIndex < 512 ∧
    (w'.pdpeIndex ≠ 0 →
      ∃ t, pageTables.tableAt w'.mem (cr3ToPml4e64 cr3) [w'.pmlIndex] = some t) ∧
    (w'.pdeIndex ≠ 0 →
      ∃ t, pageTables.tableAt w'.mem (cr3ToPml4e64 cr3) [w'.pdpeIndex, w'.pmlIndex] = some t) := by
  have hbase : baseToPageAddr (w.mem (pageTables.slot 1 t₁ w.pdpeIndex)).baseAddr = t₂ :=
    baseToPageAddr_of_tableAt rfl ht₁ ht₂
  have hvalid : pageTables.ValidPath [w.pdpeIndex, w.pmlIndex] := ⟨hr.pdpe, hr.pml, trivial⟩
  have hlt := hr.pde
  by_cases hwrap : w.pdeIndex + 1 = maxEntries
  · -- the increment of the level above starts from the memory without the empty table
    obtain ⟨mem', hmem⟩ : ∃ mem', mem' = if pdeTableIsEmpty w.mem t₂
        then clearPresent w.mem (pageTables.slot 1 t₁ w.pdpeIndex) else w.mem := ⟨_, rfl⟩
    obtain ⟨hsame, hother⟩ := h.release hvalid (by simp) ht₁ ht₂ hmem
    have ht₁' := (hother [w.pmlIndex] hvalid.2 (by simp) (Layout.not_cons_suffix_self _ _)).trans
      ht₁
    rw [incrementPdeIndex, if_pos hwrap] at hw'
    simp only [hbase, ← hmem] at hw'
    obtain ⟨hkeeps, hpde, hpte, hsum, hpdpe, htable⟩ := incrementPdpeIndex_spec
      (w := { w with pdeIndex := 0, mem := mem' }) hsame.tables hr.pml hr.pdpe ht₁' hw'
    simp only at hpde hpte hsum
    refine ⟨⟨?_, hkeeps.pools, hkeeps.numPagesFreed⟩, hpte, carry hsum hwrap hpde, hpdpe, ?_,
      htable, ?_⟩
    · exact (hsame.trans hkeeps.pages).imp fun _ hor => hor.elim id id
    · rw [hpde]
      decide
    · intro hne
      exact absurd hpde hne
  · rw [incrementPdeIndex, if_neg hwrap] at hw'
    unfold maxEntries at hwrap
    subst hw'
    refine ⟨⟨SamePages.refl h, rfl, rfl⟩, rfl, ?_, hr.pdpe, ?_, fun _ => ⟨t₁, ht₁⟩,
      fun _ => ⟨t₂, ht₂⟩⟩
    · simp only
      omega
    · simp only
      omega

theorem incrementPteIndex_spec (h : TablesOk w.mem cr3) (hr : w.InRange)
    (ht₁ : pageTables.tableAt w.mem (cr3ToPml4e64 cr3) [w.pmlIndex] = some t₁)
    (ht₂ : pageTables.tableAt w.mem (cr3ToPml4e64 cr3) [w.pdpeIndex, w.pmlIndex] = some t₂)
    (ht₃ : pageTables.tableAt w.mem (cr3ToPml4e64 cr3)
      [w.pdeIndex, w.pdpeIndex, w.pmlIndex] = some t₃)
    (hw' : w' = incrementPteIndex (pageTables.slot 2 t₂ w.pdeIndex)
      (pageTables.slot 1 t₁ w.pdpeIndex) (pmlSlot cr3 w.pmlIndex) w) :
    Keeps cr3 w w' ∧ w'.cursor = w.cursor + 1 ∧
    w'.pdpeIndex < 512 ∧ w'.pdeIndex < 512 ∧ w'.pteIndex < 512 ∧ Steady cr3 w' := by
  have hbase : baseToPageAddr (w.mem (pageTables.slot 2 t₂ w.pdeIndex)).baseAddr = t₃ :=
    baseToPageAddr_of_tableAt rfl ht₂ ht₃
  have hvalid : pageTables.ValidPath [w.pdeIndex, w.pdpeIndex, w.pmlIndex] :=
    ⟨hr.pde, hr.pdpe, hr.pml, trivial⟩
  have hlt := hr.pte
  unfold Walk.cursor
  by_cases hwrap : w.pteIndex + 1 = maxEntries
  · obtain ⟨mem', hmem⟩ : ∃ mem', mem' = if pteTableIsEmpty w.mem t₃
        then clearPresent w.mem (pageTables.slot 2 t₂ w.pdeIndex) else w.mem := ⟨_, rfl⟩
    obtain ⟨hsame, hother⟩ := h.release hvalid (by simp) ht₂ ht₃ hmem
    -- the tables above are still there for the increments of the levels above
    have ht₂' := (hother [w.pdpeIndex, w.pmlIndex] hvalid.2 (by simp)
      (Layout.not_cons_suffix_self _ _)).trans ht₂
    have ht₁' := (hother [w.pmlIndex] hvalid.2.2 (by simp) fun hs =>
      Layout.not_cons_suffix_self _ _ (hs.trans (List.suffix_cons _ _))).trans ht₁
    rw [incrementPteIndex, if_pos hwrap] at hw'
    simp only [hbase, ← hmem] at hw'
    obtain ⟨hkeeps, hpte, hsum, hpdpe, hpde, htable₁, htable₂⟩ := incrementPdeIndex_spec
      (w := { w with pteIndex := 0, mem := mem' }) hsame.tables ⟨hr.pml, hr.pdpe, hr.pde,
        Nat.zero_lt_succ _⟩
      ht₁' ht₂' hw'
    simp only at hpte hsum
    refine ⟨⟨?_, hkeeps.pools, hkeeps.numPagesFreed⟩, carry hsum hwrap hpte, hpdpe, hpde,
      ?_, htable₁, htable₂, ?_⟩
    · exact (hsame.trans hkeeps.pages).imp fun _ hor => hor.elim id id
    · rw [hpte]
      decide
    · intro hne
      exact absurd hpte hne
  · rw [incrementPteIndex, if_neg hwrap] at hw'
    unfold maxEntries at hwrap
    subst hw'
    refine ⟨⟨SamePages.refl h, rfl, rfl⟩, ?_, hr.pdpe, hr.pde, ?_, fun _ => ⟨t₁, ht₁⟩,
      fun _ => ⟨t₂, ht₂⟩, fun _ => ⟨t₃, ht₃⟩⟩
    · simp only
      omega
    · simp only
      omega

end Increments

/-! ## The path of a page -/

theorem Walk.pml_le_cursor (w : Walk) : w.pmlIndex * 512 * 512 * 512 ≤ w.cursor := by
  unfold Walk.cursor
  omega

theorem Walk.pdpe_le_cursor (w : Walk) :
    (w.pmlIndex * 512 + w.pdpeIndex) * 512 * 512 ≤ w.cursor := by
  unfold Walk.cursor
  omega

theorem Walk.pde_le_cursor (w : Walk) :
    ((w.pmlIndex * 512 + w.pdpeIndex) * 512 + w.pdeIndex) * 512 ≤ w.cursor := by
  unfold Walk.cursor
  omega

section Path

variable {a b c d v : Nat}

theorem pathOf_cursor (ha : a < 64) (hb : b < 512) (hc : c < 512) (hd : d < 512) :
    pathOf (((a * 512 + b) * 512 + c) * 512 + d) = [d, c, b, a] := by
  simp only [pathOf, List.cons.injEq, and_true]
  omega

theorem suffix_pathOf_pml (ha : a < 64) (hle : a * 512 * 512 * 512 ≤ v)
    (hlt : v < (a + 1) * 512 * 512 * 512) :
    [a] <:+ pathOf v := by
  have hdiv : v / 2 ^ 27 % 512 = a := by omega
  exact ⟨[v % 512, v / 2 ^ 9 % 512, v / 2 ^ 18 % 512], by rw [pathOf, hdiv]; rfl⟩

theorem suffix_pathOf_pdpe (ha : a < 64) (hb : b < 512) (hle : (a * 512 + b) * 512 * 512 ≤ v)
    (hlt : v < (a * 512 + b + 1) * 512 * 512) : [b, a] <:+ pathOf v := by
  have hdiv : v / 2 ^ 27 % 512 = a ∧ v / 2 ^ 18 % 512 = b := by omega
  exact ⟨[v % 512, v / 2 ^ 9 % 512], by rw [pathOf, hdiv.1, hdiv.2]; rfl⟩

theorem suffix_pathOf_pde (ha : a < 64) (hb : b < 512) (hc : c < 512)
    (hle : ((a * 512 + b) * 512 + c) * 512 ≤ v) (hlt : v < ((a * 512 + b) * 512 + c + 1) * 512) :
    [c, b, a] <:+ pathOf v := by
  have hdiv : v / 2 ^ 27 % 512 = a ∧ v / 2 ^ 18 % 512 = b ∧ v / 2 ^ 9 % 512 = c := by omega
  exact ⟨[v % 512], by rw [pathOf, hdiv.1, hdiv.2.1, hdiv.2.2]; rfl⟩

/-- What the loop counts for a missing table of the second level is at most what it passes. -/
theorem skip_pdpe_le (hc : c < 512) (hd : d < 512) :
    (512 - c) * (512 - d) + c * 512 + d ≤ 512 * 512 := by
  obtain ⟨c', hc'⟩ : ∃ c', 512 = c + (c' + 1) := ⟨511 - c, by omega⟩
  obtain ⟨d', hd'⟩ : ∃ d', 512 = d + (d' + 1) := ⟨511 - d, by omega⟩
  have hc₁ : 512 - c = c' + 1 := by omega
  have hd₁ : 512 - d = d' + 1 := by omega
  rw [hc₁, hd₁]
  have hmul : c' * (d' + 1) ≤ c' * 512 := Nat.mul_le_mul_left _ (by omega)
  have hexp : (c' + 1) * (d' + 1) = c' * (d' + 1) + (d' + 1) := Nat.succ_mul _ _
  omega

/-- At the start of a missing table of the second level the count is exact. -/
theorem skip_pdpe_eq (n k : Nat) :
    (n + 1) * 512 * 512 + k = (n * 512 + 0) * 512 + 0 + (k + (512 - 0) * (512 - 0)) := by
  omega

/-- The count for a missing table of the third level is exact. -/
theorem skip_pde_eq (n k : Nat) (hd : d < 512) :
    (n + 1) * 512 + k = n * 512 + d + (k + (512 - d)) := by
  omega

/-- What the loop counts for a missing table of the first level is at most what it passes. -/
theorem skip_pml_le (hb : b < 512) (hc : c < 512) (hd : d < 512) :
    (512 - b) * (512 - c) * (512 - d) + (b * 512 + c) * 512 + d ≤ 512 * 512 * 512 := by
  obtain ⟨b', hb'⟩ : ∃ b', 512 = b + (b' + 1) := ⟨511 - b, by omega⟩
  have hb₁ : 512 - b = b' + 1 := by omega
  have hinner := skip_pdpe_le hc hd
  have hbound : (512 - c) * (512 - d) ≤ 512 * 512 := by omega
  have hmul : b' * ((512 - c) * (512 - d)) ≤ b' * (512 * 512) := Nat.mul_le_mul_left _ hbound
  have hexp : (b' + 1) * ((512 - c) * (512 - d)) =
      b' * ((512 - c) * (512 - d)) + (512 - c) * (512 - d) := Nat.succ_mul _ _
  rw [hb₁, Nat.mul_assoc, hexp]
  omega

end Path

/-! ## One turn of the loop -/

/-- A turn takes out the page at the cursor and frees it, or it changes no page. -/
def StepEffect (off cr3 : Nat) (w w' : Walk) : Prop :=
  (SamePages w.mem w'.mem cr3 (fun _ => False) ∧ w'.pools = w.pools) ∨
  ∃ e, pageTables.lookup w.mem (cr3ToPml4e64 cr3) w.path = some e ∧
    petmemFreePages off w.pools (baseToPageAddr e.baseAddr) 1 = some w'.pools ∧
    TablesOk w'.mem cr3 ∧
    ∀ q, pageTables.ValidPath q → q.length = 4 → pageTables.lookup w'.mem (cr3ToPml4e64 cr3) q =
      if q = w.path then none else pageTables.lookup w.mem (cr3ToPml4e64 cr3) q

/-- What holds of a turn from `w` to `w'`. -/
structure StepSpec (off cr3 : Nat) (w w' : Walk) : Prop where
  effect : StepEffect off cr3 w w'
  pdpe_lt : w'.pdpeIndex < 512
  pde_lt : w'.pdeIndex < 512
  pte_lt : w'.pteIndex < 512
  steady : Steady cr3 w'
  counts : w.numPagesFreed < w'.numPagesFreed
  covers : w.cursor + w'.numPagesFreed ≤ w'.cursor + w.numPagesFreed
  bound : w'.cursor ≤ (w.pmlIndex + 1) * 512 * 512 * 512
  count_eq : Steady cr3 w → w'.cursor + w.numPagesFreed = w.cursor + w'.numPagesFreed
  unmapped : ∀ v, w.cursor ≤ v → v < w'.cursor → pteOf w'.mem cr3 v = none

section Entries

variable {cr3 i t l : Nat} {p : List Nat} {mem : PtMem}

theorem tableAt_of_present (hl : p.length = l)
    (ht : pageTables.tableAt mem (cr3ToPml4e64 cr3) p = some t)
    (hpres : (mem (pageTables.slot l t i)).present = true) :
    pageTables.tableAt mem (cr3ToPml4e64 cr3) (i :: p) =
      some (baseToPageAddr (mem (pageTables.slot l t i)).baseAddr) := by
  subst hl
  exact Layout.tableAt_cons_eq_some.2 ⟨_, Layout.entryAt_cons_eq_some.2 ⟨t, ht, rfl⟩, hpres, rfl⟩

/-- The entry at the end of the path is absent. -/
def AbsentAt (mem : PtMem) (cr3 : Nat) (p : List Nat) : Prop :=
  ∀ e, pageTables.entryAt mem (cr3ToPml4e64 cr3) p = some e → pageTables.present e = false

theorem absentAt_cons (hl : p.length = l)
    (ht : pageTables.tableAt mem (cr3ToPml4e64 cr3) p = some t)
    (habs : (mem (pageTables.slot l t i)).present = false) : AbsentAt mem cr3 (i :: p) := by
  subst hl
  intro e he
  obtain ⟨u, hu, rfl⟩ := Layout.entryAt_cons_eq_some.1 he
  obtain rfl := Option.some.inj (ht.symm.trans hu)
  exact habs

theorem AbsentAt.pteOf_eq_none (h : AbsentAt mem cr3 (i :: p)) {v : Nat}
    (hs : i :: p <:+ pathOf v) : pteOf mem cr3 v = none :=
  Layout.lookup_eq_none_of_absent hs h

/-- No table is below an absent entry. -/
theorem AbsentAt.not_tableAt (h : AbsentAt mem cr3 (i :: p)) {q : List Nat} (hs : i :: p <:+ q) :
    ¬ ∃ t, pageTables.tableAt mem (cr3ToPml4e64 cr3) q = some t := by
  rintro ⟨t, ht⟩
  rw [Layout.tableAt_eq_none_of_absent hs h] at ht
  exact absurd ht (by simp)

end Entries

/-- What a turn of the loop can come to: the tables that it finds, its result and the page that it
passes to `petmem_free_pages`. -/
inductive TurnCase (off cr3 : Nat) (w : Walk) : Option Walk → Option Nat → Prop where
  | absentPml (habs : AbsentAt w.mem cr3 [w.pmlIndex]) :
      TurnCase off cr3 w (some { w with
        pmlIndex := w.pmlIndex + 1
        pdpeIndex := 0
        pdeIndex := 0
        pteIndex := 0
        numPagesFreed := w.numPagesFreed +
          (512 - w.pdpeIndex) * (512 - w.pdeIndex) * (512 - w.pteIndex) }) none
  | absentPdpe {t₁ : Nat}
      (ht₁ : pageTables.tableAt w.mem (cr3ToPml4e64 cr3) [w.pmlIndex] = some t₁)
      (habs : AbsentAt w.mem cr3 [w.pdpeIndex, w.pmlIndex]) :
      TurnCase off cr3 w (some { incrementPdpeIndex (pmlSlot cr3 w.pmlIndex) { w with
        numPagesFreed := w.numPagesFreed + (512 - w.pdeIndex) * (512 - w.pteIndex) } with
        pdeIndex := 0
        pteIndex := 0 }) none
  | absentPde {t₁ t₂ : Nat}
      (ht₁ : pageTables.tableAt w.mem (cr3ToPml4e64 cr3) [w.pmlIndex] = some t₁)
      (ht₂ : pageTables.tableAt w.mem (cr3ToPml4e64 cr3) [w.pdpeIndex, w.pmlIndex] = some t₂)
      (habs : AbsentAt w.mem cr3 [w.pdeIndex, w.pdpeIndex, w.pmlIndex]) :
      TurnCase off cr3 w (some { incrementPdeIndex (pageTables.slot 1 t₁ w.pdpeIndex)
        (pmlSlot cr3 w.pmlIndex) { w with
          numPagesFreed := w.numPagesFreed + (512 - w.pteIndex) } with
        pteIndex := 0 }) none
  | absentPte {t₁ t₂ t₃ : Nat}
      (ht₁ : pageTables.tableAt w.mem (cr3ToPml4e64 cr3) [w.pmlIndex] = some t₁)
      (ht₂ : pageTables.tableAt w.mem (cr3ToPml4e64 cr3) [w.pdpeIndex, w.pmlIndex] = some t₂)
      (ht₃ : pageTables.tableAt w.mem (cr3ToPml4e64 cr3) [w.pdeIndex, w.pdpeIndex, w.pmlIndex] =
        some t₃)
      (habs : AbsentAt w.mem cr3 w.path) :
      TurnCase off cr3 w (some (incrementPteIndex (pageTables.slot 2 t₂ w.pdeIndex)
        (pageTables.slot 1 t₁ w.pdpeIndex) (pmlSlot cr3 w.pmlIndex) { w with
          numPagesFreed := w.numPagesFreed + 1 })) none
  | page {t₁ t₂ t₃ : Nat} {e : PtEntry}
      (ht₁ : pageTables.tableAt w.mem (cr3ToPml4e64 cr3) [w.pmlIndex] = some t₁)
      (ht₂ : pageTables.tableAt w.mem (cr3ToPml4e64 cr3) [w.pdpeIndex, w.pmlIndex] = some t₂)
      (ht₃ : pageTables.tableAt w.mem (cr3ToPml4e64 cr3) [w.pdeIndex, w.pdpeIndex, w.pmlIndex] =
        some t₃)
      (he : pageTables.lookup w.mem (cr3ToPml4e64 cr3) w.path = some e) :
      TurnCase off cr3 w
        ((petmemFreePages off w.pools (baseToPageAddr e.baseAddr) 1).map fun pools =>
          incrementPteIndex (pageTables.slot 2 t₂ w.pdeIndex) (pageTables.slot 1 t₁ w.pdpeIndex)
            (pmlSlot cr3 w.pmlIndex) { w with
              mem := clearPresent w.mem (pageTables.slot 3 t₃ w.pteIndex)
              pools := pools
              numPagesFreed := w.numPagesFreed + 1 })
        (some (baseToPageAddr e.baseAddr))

theorem turnCase (off cr3 : Nat) (w : Walk) :
    TurnCase off cr3 w (walkStep off cr3 w) (turnFrame cr3 w) := by
  rw [walkStep, turnFrame]
  dsimp only
  split
  next habs => exact .absentPml (absentAt_cons (p := []) rfl rfl habs)
  next hpml =>
    rw [Bool.not_eq_false] at hpml
    have ht₁ := tableAt_of_present (p := []) rfl rfl hpml
    split
    next habs => exact .absentPdpe ht₁ (absentAt_cons rfl ht₁ habs)
    next hpdpe =>
      rw [Bool.not_eq_false] at hpdpe
      have ht₂ := tableAt_of_present rfl ht₁ hpdpe
      split
      next habs => exact .absentPde ht₁ ht₂ (absentAt_cons rfl ht₂ habs)
      next hpde =>
        rw [Bool.not_eq_false] at hpde
        have ht₃ := tableAt_of_present rfl ht₂ hpde
        split
        next hpte =>
          exact .page ht₁ ht₂ ht₃
            (Layout.lookup_eq_some.2 ⟨Layout.entryAt_cons_eq_some.2 ⟨_, ht₃, rfl⟩, hpte⟩)
        next hpte =>
          rw [Bool.not_eq_true] at hpte
          exact .absentPte ht₁ ht₂ ht₃ (absentAt_cons rfl ht₃ hpte)

/-- A turn frees the page at the cursor, if there is one. -/
theorem turnFrame_eq (cr3 : Nat) (w : Walk) :
    turnFrame cr3 w = (pageTables.lookup w.mem (cr3ToPml4e64 cr3) w.path).map fun e =>
      baseToPageAddr e.baseAddr := by
  have hcase := turnCase 0 cr3 w
  generalize walkStep 0 cr3 w = res at hcase
  generalize hframe : turnFrame cr3 w = frame at hcase
  cases hcase with
  | absentPml habs => rw [Layout.lookup_eq_none_of_absent w.pml_suffix_path habs, Option.map_none]
  | absentPdpe _ habs =>
      rw [Layout.lookup_eq_none_of_absent w.pdpe_suffix_path habs, Option.map_none]
  | absentPde _ _ habs =>
      rw [Layout.lookup_eq_none_of_absent w.pde_suffix_path habs, Option.map_none]
  | absentPte _ _ _ habs =>
      have hlookup : pageTables.lookup w.mem (cr3ToPml4e64 cr3) w.path = none :=
        Layout.lookup_eq_none_of_absent (List.suffix_refl _) habs
      rw [hlookup, Option.map_none]
  | page _ _ _ he => rw [he, Option.map_some]

section Step

variable {off cr3 : Nat} {w w' : Walk}

/-- The turn at a missing table of the first level. -/
theorem stepSpec_of_absent_pml (h : TablesOk w.mem cr3) (hr : w.InRange)
    (habs : AbsentAt w.mem cr3 [w.pmlIndex])
    (hw' : w' = { w with
      pmlIndex := w.pmlIndex + 1
      pdpeIndex := 0
      pdeIndex := 0
      pteIndex := 0
      numPagesFreed := w.numPagesFreed +
        (512 - w.pdpeIndex) * (512 - w.pdeIndex) * (512 - w.pteIndex) }) :
    StepSpec off cr3 w w' := by
  have hskip := skip_pml_le hr.pdpe hr.pde hr.pte
  have hcursor : w'.cursor = (w.pmlIndex + 1) * 512 * 512 * 512 := by
    simp only [hw', Walk.cursor, Nat.add_zero]
  have hfreed : w'.numPagesFreed = w.numPagesFreed +
      (512 - w.pdpeIndex) * (512 - w.pdeIndex) * (512 - w.pteIndex) := by rw [hw']
  have hmem : w'.mem = w.mem := by rw [hw']
  refine ⟨Or.inl ⟨?_, by rw [hw']⟩, ?_, ?_, ?_, ⟨?_, ?_, ?_⟩, ?_, ?_, Nat.le_of_eq hcursor, ?_, ?_⟩
  · rw [hmem]
    exact SamePages.refl h
  · simp [hw']
  · simp [hw']
  · simp [hw']
  · simp [hw']
  · simp [hw']
  · simp [hw']
  · have hpos : 0 < (512 - w.pdpeIndex) * (512 - w.pdeIndex) * (512 - w.pteIndex) :=
      Nat.mul_pos (Nat.mul_pos (Nat.sub_pos_of_lt hr.pdpe) (Nat.sub_pos_of_lt hr.pde))
        (Nat.sub_pos_of_lt hr.pte)
    omega
  · rw [hcursor, hfreed, Walk.cursor]
    omega
  · intro hsteady
    -- the cursor is at the start of the part that is missing, so the count is exact
    have hpdpe : w.pdpeIndex = 0 := by
      by_contra hne
      exact habs.not_tableAt (List.suffix_refl _) (hsteady.pdpe hne)
    have hpde : w.pdeIndex = 0 := by
      by_contra hne
      exact habs.not_tableAt (List.suffix_cons _ _) (hsteady.pde hne)
    have hpte : w.pteIndex = 0 := by
      by_contra hne
      exact habs.not_tableAt ⟨[_, _], rfl⟩ (hsteady.pte hne)
    rw [hcursor, hfreed, Walk.cursor, hpdpe, hpde, hpte]
    omega
  · intro v hle hlt
    rw [hmem]
    apply habs.pteOf_eq_none
    rw [hcursor] at hlt
    exact suffix_pathOf_pml hr.pml (w.pml_le_cursor.trans hle) hlt

/-- A page that the cursor passes within the current table of the first level. -/
theorem lt_maxPage_of_lt_bound (hr : w.InRange) {v n : Nat} (hlt : v < n)
    (hle : n ≤ (w.pmlIndex + 1) * 512 * 512 * 512) : v < maxPage := by
  have hpml := hr.pml
  unfold maxPage
  omega

/-- The turn at a missing table of the second level. -/
theorem stepSpec_of_absent_pdpe {t₁ : Nat} {w₁ : Walk} (h : TablesOk w.mem cr3) (hr : w.InRange)
    (ht₁ : pageTables.tableAt w.mem (cr3ToPml4e64 cr3) [w.pmlIndex] = some t₁)
    (habs : AbsentAt w.mem cr3 [w.pdpeIndex, w.pmlIndex])
    (hw₁ : w₁ = incrementPdpeIndex (pmlSlot cr3 w.pmlIndex) { w with
      numPagesFreed := w.numPagesFreed + (512 - w.pdeIndex) * (512 - w.pteIndex) })
    (hw' : w' = { w₁ with pdeIndex := 0, pteIndex := 0 }) :
    StepSpec off cr3 w w' := by
  obtain ⟨hkeeps, -, -, hsum, hpdpe, htable⟩ := incrementPdpeIndex_spec
    (w := { w with numPagesFreed := w.numPagesFreed + (512 - w.pdeIndex) * (512 - w.pteIndex) })
    h hr.pml hr.pdpe ht₁ hw₁
  -- the source counts less than it skips if the cursor is inside the table
  have hskip := skip_pdpe_le hr.pde hr.pte
  have hfreed : w'.numPagesFreed = w.numPagesFreed + (512 - w.pdeIndex) * (512 - w.pteIndex) := by
    rw [hw']
    exact hkeeps.numPagesFreed
  have hpages : SamePages w.mem w'.mem cr3 fun _ => False := by
    rw [hw']
    exact hkeeps.pages
  have hcursor : w'.cursor = (w.pmlIndex * 512 + w.pdpeIndex + 1) * 512 * 512 := by
    simp only [hw', Walk.cursor, Nat.add_zero, hsum]
  have hbound : w'.cursor ≤ (w.pmlIndex + 1) * 512 * 512 * 512 := by
    have hlt := hr.pdpe
    omega
  refine ⟨Or.inl ⟨hpages, ?_⟩, ?_, ?_, ?_, ⟨?_, ?_, ?_⟩, ?_, ?_, hbound, ?_, ?_⟩
  · rw [hw']
    exact hkeeps.pools
  · rw [hw']
    exact hpdpe
  · simp [hw']
  · simp [hw']
  · rw [hw']
    exact htable
  · simp [hw']
  · simp [hw']
  · have hpos : 0 < (512 - w.pdeIndex) * (512 - w.pteIndex) :=
      Nat.mul_pos (Nat.sub_pos_of_lt hr.pde) (Nat.sub_pos_of_lt hr.pte)
    omega
  · rw [hcursor, hfreed, Walk.cursor]
    omega
  · intro hsteady
    have hpde : w.pdeIndex = 0 := by
      by_contra hne
      exact habs.not_tableAt (List.suffix_refl _) (hsteady.pde hne)
    have hpte : w.pteIndex = 0 := by
      by_contra hne
      exact habs.not_tableAt (List.suffix_cons _ _) (hsteady.pte hne)
    rw [hcursor, hfreed, Walk.cursor, hpde, hpte]
    exact skip_pdpe_eq _ _
  · intro v hle hlt
    rw [hpages.pteOf_eq (lt_maxPage_of_lt_bound hr hlt hbound)]
    apply habs.pteOf_eq_none
    rw [hcursor] at hlt
    exact suffix_pathOf_pdpe hr.pml hr.pdpe (w.pdpe_le_cursor.trans hle) hlt

/-- The turn at a missing table of the third level. -/
theorem stepSpec_of_absent_pde {t₁ t₂ : Nat} {w₁ : Walk} (h : TablesOk w.mem cr3) (hr : w.InRange)
    (ht₁ : pageTables.tableAt w.mem (cr3ToPml4e64 cr3) [w.pmlIndex] = some t₁)
    (ht₂ : pageTables.tableAt w.mem (cr3ToPml4e64 cr3) [w.pdpeIndex, w.pmlIndex] = some t₂)
    (habs : AbsentAt w.mem cr3 [w.pdeIndex, w.pdpeIndex, w.pmlIndex])
    (hw₁ : w₁ = incrementPdeIndex (pageTables.slot 1 t₁ w.pdpeIndex)
      (pmlSlot cr3 w.pmlIndex) { w with
      numPagesFreed := w.numPagesFreed + (512 - w.pteIndex) })
    (hw' : w' = { w₁ with pteIndex := 0 }) : StepSpec off cr3 w w' := by
  obtain ⟨hkeeps, -, hsum, hpdpe, hpde, htable₁, htable₂⟩ := incrementPdeIndex_spec
    (w := { w with numPagesFreed := w.numPagesFreed + (512 - w.pteIndex) })
    h ⟨hr.pml, hr.pdpe, hr.pde, hr.pte⟩ ht₁ ht₂ hw₁
  have hlt := hr.pte
  have hfreed : w'.numPagesFreed = w.numPagesFreed + (512 - w.pteIndex) := by
    rw [hw']
    exact hkeeps.numPagesFreed
  have hpages : SamePages w.mem w'.mem cr3 fun _ => False := by
    rw [hw']
    exact hkeeps.pages
  have hcursor : w'.cursor = ((w.pmlIndex * 512 + w.pdpeIndex) * 512 + w.pdeIndex + 1) * 512 := by
    simp only [hw', Walk.cursor, Nat.add_zero, hsum]
  have hbound : w'.cursor ≤ (w.pmlIndex + 1) * 512 * 512 * 512 := by
    have hlt₁ := hr.pdpe
    have hlt₂ := hr.pde
    omega
  -- the count is what the cursor passes
  have hexact : w'.cursor + w.numPagesFreed = w.cursor + w'.numPagesFreed := by
    rw [hcursor, hfreed, Walk.cursor]
    exact skip_pde_eq _ _ hr.pte
  refine ⟨Or.inl ⟨hpages, ?_⟩, ?_, ?_, ?_, ⟨?_, ?_, ?_⟩, ?_, Nat.le_of_eq hexact.symm, hbound,
    fun _ => hexact, ?_⟩
  · rw [hw']
    exact hkeeps.pools
  · rw [hw']
    exact hpdpe
  · rw [hw']
    exact hpde
  · simp [hw']
  · rw [hw']
    exact htable₁
  · rw [hw']
    exact htable₂
  · simp [hw']
  · omega
  · intro v hle hlt
    rw [hpages.pteOf_eq (lt_maxPage_of_lt_bound hr hlt hbound)]
    apply habs.pteOf_eq_none
    rw [hcursor] at hlt
    exact suffix_pathOf_pde hr.pml hr.pdpe hr.pde (w.pde_le_cursor.trans hle) hlt

/-- What an increment keeps is part of the effect. -/
theorem StepEffect.keeps {w₁ : Walk} (h : StepEffect off cr3 w w₁) (hkeeps : Keeps cr3 w₁ w') :
    StepEffect off cr3 w w' := by
  rcases h with ⟨hpages, hpools⟩ | ⟨e, he, hfree, -, hlookup⟩
  · exact Or.inl ⟨(hpages.trans hkeeps.pages).imp fun _ hor => hor.elim id id,
      hkeeps.pools.trans hpools⟩
  · refine Or.inr ⟨e, he, hkeeps.pools ▸ hfree, hkeeps.pages.tables, fun q hq hlen => ?_⟩
    rw [hkeeps.pages.lookup_eq q hq hlen]
    exact hlookup q hq hlen

theorem Walk.InRange.pathOf_cursor (hr : w.InRange) : pathOf w.cursor = w.path :=
  VirtualMemory.pathOf_cursor hr.pml hr.pdpe hr.pde hr.pte

theorem Walk.InRange.validPath (hr : w.InRange) : pageTables.ValidPath w.path :=
  ⟨hr.pte, hr.pde, hr.pdpe, hr.pml, trivial⟩

theorem Walk.InRange.cursor_lt (hr : w.InRange) :
    w.cursor + 1 ≤ (w.pmlIndex + 1) * 512 * 512 * 512 := by
  have hpdpe := hr.pdpe
  have hpde := hr.pde
  have hpte := hr.pte
  unfold Walk.cursor
  omega

/-- The turn at a page, once the page is taken out and counted. -/
theorem stepSpec_of_page {t₁ t₂ t₃ : Nat} {mem : PtMem} {pools : List BuddyMempool} (hr : w.InRange)
    (h : TablesOk mem cr3)
    (ht₁ : pageTables.tableAt mem (cr3ToPml4e64 cr3) [w.pmlIndex] = some t₁)
    (ht₂ : pageTables.tableAt mem (cr3ToPml4e64 cr3) [w.pdpeIndex, w.pmlIndex] = some t₂)
    (ht₃ : pageTables.tableAt mem (cr3ToPml4e64 cr3)
      [w.pdeIndex, w.pdpeIndex, w.pmlIndex] = some t₃)
    (heffect : StepEffect off cr3 w { w with
      mem := mem
      pools := pools
      numPagesFreed := w.numPagesFreed + 1 })
    (hnone : pageTables.lookup mem (cr3ToPml4e64 cr3) w.path = none)
    (hw' : w' = incrementPteIndex (pageTables.slot 2 t₂ w.pdeIndex)
      (pageTables.slot 1 t₁ w.pdpeIndex) (pmlSlot cr3 w.pmlIndex) { w with
        mem := mem
        pools := pools
        numPagesFreed := w.numPagesFreed + 1 }) : StepSpec off cr3 w w' := by
  obtain ⟨hkeeps, hcursor, hpdpe, hpde, hpte, hsteady⟩ := incrementPteIndex_spec
    (w := { w with mem := mem, pools := pools, numPagesFreed := w.numPagesFreed + 1 })
    h ⟨hr.pml, hr.pdpe, hr.pde, hr.pte⟩ ht₁ ht₂ ht₃ hw'
  have hfreed : w'.numPagesFreed = w.numPagesFreed + 1 := hkeeps.numPagesFreed
  replace hcursor : w'.cursor = w.cursor + 1 := hcursor
  have hexact : w'.cursor + w.numPagesFreed = w.cursor + w'.numPagesFreed := by
    rw [hcursor, hfreed, Nat.add_assoc, Nat.add_comm 1]
  refine ⟨heffect.keeps hkeeps, hpdpe, hpde, hpte, hsteady, ?_, Nat.le_of_eq hexact.symm, ?_,
    fun _ => hexact, ?_⟩
  · rw [hfreed]
    exact Nat.lt_succ_self _
  · rw [hcursor]
    exact hr.cursor_lt
  · intro v hle hlt
    rw [hcursor] at hlt
    -- the only page passed is the one at the cursor
    obtain rfl : v = w.cursor := Nat.le_antisymm (Nat.le_of_lt_succ hlt) hle
    rw [pteOf, hr.pathOf_cursor]
    exact (hkeeps.pages.lookup_eq _ hr.validPath rfl).trans hnone

theorem clearPresent_leaf {t₃ : Nat} (h : TablesOk w.mem cr3) (hr : w.InRange)
    (ht₃ : pageTables.tableAt w.mem (cr3ToPml4e64 cr3) [w.pdeIndex, w.pdpeIndex, w.pmlIndex] =
      some t₃) :
    TablesOk (clearPresent w.mem (pageTables.slot 3 t₃ w.pteIndex)) cr3 ∧
    (∀ q, pageTables.ValidPath q → q.length < 4 →
      pageTables.tableAt (clearPresent w.mem (pageTables.slot 3 t₃ w.pteIndex))
      (cr3ToPml4e64 cr3) q =
        pageTables.tableAt w.mem (cr3ToPml4e64 cr3) q) ∧
    ∀ q, pageTables.ValidPath q → q.length = 4 →
      pageTables.lookup (clearPresent w.mem (pageTables.slot 3 t₃ w.pteIndex))
      (cr3ToPml4e64 cr3) q =
        if q = w.path then none else pageTables.lookup w.mem (cr3ToPml4e64 cr3) q := by
  refine ⟨h.update_leaf hr.validPath rfl ht₃, fun q hq hlen => ?_, fun q hq hlen => ?_⟩
  · exact h.tableAt_update hr.validPath (by simp) ht₃ hq (Nat.le_of_lt hlen)
      (Layout.not_cons_suffix_of_length rfl hlen)
  · exact h.lookup_update_leaf hr.validPath rfl ht₃ hq hlen

theorem walkStep_spec (h : TablesOk w.mem cr3) (hr : w.InRange)
    (hstep : walkStep off cr3 w = some w') : StepSpec off cr3 w w' := by
  have hcase := turnCase off cr3 w
  rw [hstep] at hcase
  generalize turnFrame cr3 w = frame at hcase
  generalize hres : some w' = res at hcase
  cases hcase with
  | absentPml habs => exact stepSpec_of_absent_pml h hr habs (Option.some.inj hres)
  | absentPdpe ht₁ habs => exact stepSpec_of_absent_pdpe h hr ht₁ habs rfl (Option.some.inj hres)
  | absentPde ht₁ ht₂ habs =>
      exact stepSpec_of_absent_pde h hr ht₁ ht₂ habs rfl (Option.some.inj hres)
  | absentPte ht₁ ht₂ ht₃ habs =>
      exact stepSpec_of_page hr h ht₁ ht₂ ht₃ (Or.inl ⟨SamePages.refl h, rfl⟩)
        (Layout.lookup_eq_none_of_absent (List.suffix_refl _) habs) (Option.some.inj hres)
  | page ht₁ ht₂ ht₃ he =>
      obtain ⟨pools, hfree, hw'⟩ := Option.map_eq_some_iff.1 hres.symm
      obtain ⟨hok, htables, hlookup⟩ := clearPresent_leaf h hr ht₃
      have hvalid := hr.validPath
      refine stepSpec_of_page hr hok ((htables _ hvalid.2.2.2 (by simp)).trans ht₁)
        ((htables _ hvalid.2.2 (by simp)).trans ht₂) ((htables _ hvalid.2 (by simp)).trans ht₃)
        (Or.inr ⟨_, he, hfree, hok, hlookup⟩) ?_ hw'.symm
      exact (hlookup _ hvalid rfl).trans (if_pos rfl)

end Step

/-! ## The whole walk -/

/-- The page tables and the pools before and after a turn: no page changes, or one page is taken out
and freed. -/
def Unmaps (off cr3 : Nat) (mem : PtMem) (pools : List BuddyMempool) (mem' : PtMem)
    (pools' : List BuddyMempool) : Prop :=
  (pools' = pools ∧ ∀ v < maxPage, pteOf mem' cr3 v = pteOf mem cr3 v) ∨
  ∃ v e, v < maxPage ∧ pteOf mem cr3 v = some e ∧
    petmemFreePages off pools (baseToPageAddr e.baseAddr) 1 = some pools' ∧
    ∀ u < maxPage, pteOf mem' cr3 u = if u = v then none else pteOf mem cr3 u

theorem Unmaps.none {off cr3 v : Nat} {mem mem' : PtMem} {pools pools' : List BuddyMempool}
    (h : Unmaps off cr3 mem pools mem' pools') (hv : v < maxPage) (hnone : pteOf mem cr3 v = none) :
    pteOf mem' cr3 v = none := by
  rcases h with ⟨-, heq⟩ | ⟨u, e, -, -, -, heq⟩
  · rw [heq v hv, hnone]
  · rw [heq v hv, hnone, ite_self]

section Walk

variable {off cr3 start numPagesToFree : Nat} {w w' : Walk}

theorem Walk.InRange.cursor_lt_maxPage (hr : w.InRange) : w.cursor < maxPage :=
  lt_maxPage_of_lt_bound hr (Nat.lt_succ_self _) hr.cursor_lt

theorem StepEffect.tables (h : StepEffect off cr3 w w') : TablesOk w'.mem cr3 := by
  rcases h with ⟨hpages, -⟩ | ⟨-, -, -, htables, -⟩
  · exact hpages.tables
  · exact htables

theorem StepEffect.unmaps (h : StepEffect off cr3 w w') (hr : w.InRange) :
    Unmaps off cr3 w.mem w.pools w'.mem w'.pools := by
  rcases h with ⟨hpages, hpools⟩ | ⟨e, he, hfree, -, hlookup⟩
  · exact Or.inl ⟨hpools, fun v hv => hpages.pteOf_eq hv⟩
  · refine Or.inr ⟨w.cursor, e, hr.cursor_lt_maxPage, ?_, hfree, fun u hu => ?_⟩
    · rw [pteOf, hr.pathOf_cursor]
      exact he
    · rw [pteOf, hlookup _ (validPath_pathOf hu) rfl, ← hr.pathOf_cursor]
      by_cases heq : u = w.cursor
      · rw [if_pos heq, if_pos (congrArg pathOf heq)]
      · rw [if_neg heq, if_neg fun hpath => heq (pathOf_inj hu hr.cursor_lt_maxPage hpath)]
        rfl

/-- The loop invariant: the pages from `start` to the cursor are unmapped, and the cursor is not
behind the count. It is not far ahead either, since only the first turn counts too little. -/
structure WalkInv (cr3 start : Nat) (w : Walk) : Prop where
  tables : TablesOk w.mem cr3
  pdpe_lt : w.pdpeIndex < 512
  pde_lt : w.pdeIndex < 512
  pte_lt : w.pteIndex < 512
  covers : start + w.numPagesFreed ≤ w.cursor
  unmapped : ∀ v, start ≤ v → v < w.cursor → pteOf w.mem cr3 v = none
  near : w.pmlIndex = 0 ∨ (Steady cr3 w ∧ w.cursor ≤ 512 * 512 * 512 + w.numPagesFreed)

theorem WalkInv.inRange (h : WalkInv cr3 start w) (hlt : w.numPagesFreed < 512 * 512 * 512) :
    w.InRange := by
  refine ⟨?_, h.pdpe_lt, h.pde_lt, h.pte_lt⟩
  rcases h.near with hpml | ⟨-, hle⟩
  · omega
  · have hpml := w.pml_le_cursor
    omega

theorem WalkInv.step (h : WalkInv cr3 start w) (hr : w.InRange)
    (hstep : walkStep off cr3 w = some w') : WalkInv cr3 start w' := by
  have hspec := walkStep_spec h.tables hr hstep
  have hcovers := hspec.covers
  have hbound := hspec.bound
  have hstart := h.covers
  refine ⟨hspec.effect.tables, hspec.pdpe_lt, hspec.pde_lt, hspec.pte_lt, by omega, ?_,
    Or.inr ⟨hspec.steady, ?_⟩⟩
  · intro v hle hlt
    by_cases hv : v < w.cursor
    · exact (hspec.effect.unmaps hr).none (lt_maxPage_of_lt_bound hr hlt hbound)
        (h.unmapped v hle hv)
    · exact hspec.unmapped v (Nat.le_of_not_lt hv) hlt
  · rcases h.near with hpml | ⟨hsteady, hnear⟩
    · rw [hpml] at hbound
      omega
    · have hcount := hspec.count_eq hsteady
      omega

/-- The walk takes pages out one by one until the count is reached. -/
theorem walk_spec {I : PtMem → List BuddyMempool → Prop}
    (hI : ∀ mem pools mem' pools', TablesOk mem cr3 → TablesOk mem' cr3 →
      Unmaps off cr3 mem pools mem' pools' → I mem pools → I mem' pools')
    (hfew : numPagesToFree ≤ 512 * 512 * 512) : ∀ {n : Nat} {w : Walk}, WalkInv cr3 start w →
    numPagesToFree ≤ n + w.numPagesFreed → I w.mem w.pools →
    walk off cr3 numPagesToFree n w = some w' →
    WalkInv cr3 start w' ∧ numPagesToFree ≤ w'.numPagesFreed ∧ I w'.mem w'.pools := by
  intro n
  induction n with
  | zero =>
      -- each turn counts at least one page, so that the fuel lasts
      intro w h hfuel hw hwalk
      obtain rfl := Option.some.inj hwalk
      exact ⟨h, by omega, hw⟩
  | succ n ih =>
      intro w h hfuel hw hwalk
      rw [walk] at hwalk
      split at hwalk
      next hlt =>
        obtain ⟨w₁, hstep, hrest⟩ := Option.bind_eq_some_iff.1 hwalk
        have hr := h.inRange (by omega)
        have h₁ := h.step hr hstep
        have hspec := walkStep_spec h.tables hr hstep
        have hcounts := hspec.counts
        exact ih h₁ (by omega)
          (hI _ _ _ _ h.tables h₁.tables (hspec.effect.unmaps hr) hw) hrest
      next hge =>
        obtain rfl := Option.some.inj hwalk
        exact ⟨h, Nat.le_of_not_lt hge, hw⟩

/-- The walk begins at the page of the address. -/
theorem cursor_firstWalk {vaddr : Nat} {mem : PtMem} {pools : List BuddyMempool}
    (hvaddr : vaddr < 2 ^ 39) : (firstWalk vaddr mem pools).cursor = vaddr / 2 ^ 12 := by
  show ((pml4e64Index vaddr * 512 + pdpe64Index vaddr) * 512 + pde64Index vaddr) * 512 +
    pte64Index vaddr = vaddr / 2 ^ 12
  unfold pml4e64Index pdpe64Index pde64Index pte64Index
  omega

/-- The invariant before the first turn. The region ends below 512 GiB, within the first entry
of the top table. -/
theorem walkInv_start {vaddr : Nat} {mem : PtMem} {pools : List BuddyMempool}
    (hvaddr : vaddr < 2 ^ 39) (h : TablesOk mem cr3) :
    WalkInv cr3 (vaddr / 2 ^ 12) (firstWalk vaddr mem pools) := by
  have hcursor := @cursor_firstWalk vaddr mem pools hvaddr
  have hpml : pml4e64Index vaddr = 0 := by
    unfold pml4e64Index
    omega
  refine ⟨h, Nat.mod_lt _ (by decide), Nat.mod_lt _ (by decide), Nat.mod_lt _ (by decide), ?_, ?_,
    Or.inl hpml⟩
  · exact Nat.le_of_eq hcursor.symm
  · intro v hle hlt
    exact absurd (Nat.lt_of_lt_of_le hlt (Nat.le_of_eq hcursor)) (Nat.not_lt.2 hle)

/-- The walk leaves none of the pages asked for. -/
theorem freePages_spec {I : PtMem → List BuddyMempool → Prop} {vaddr : Nat} {mem : PtMem}
    {pools : List BuddyMempool}
    (hI : ∀ mem pools mem' pools', TablesOk mem cr3 → TablesOk mem' cr3 →
      Unmaps off cr3 mem pools mem' pools' → I mem pools → I mem' pools')
    (hvaddr : vaddr < 2 ^ 39) (hfew : numPagesToFree ≤ 512 * 512 * 512) (h : TablesOk mem cr3)
    (hmem : I mem pools) (hwalk : freePages off cr3 vaddr numPagesToFree mem pools = some w') :
    TablesOk w'.mem cr3 ∧ I w'.mem w'.pools ∧
    ∀ v, vaddr / 2 ^ 12 ≤ v → v < vaddr / 2 ^ 12 + numPagesToFree → pteOf w'.mem cr3 v = none := by
  obtain ⟨hinv, hcount, hend⟩ := walk_spec hI hfew (walkInv_start hvaddr h)
    (Nat.le_refl _) hmem hwalk
  refine ⟨hinv.tables, hend, fun v hle hlt => hinv.unmapped v hle ?_⟩
  have hcovers := hinv.covers
  omega

end Walk

/-- `petmem_free_vspace` keeps an allocated node, or none of the pages of the node stays mapped. -/
theorem petmemFreeVspace_spec {off cr3 vaddr : Nat} {map map' : MemMap} {mem mem' : PtMem}
    {pools pools' : List BuddyMempool} {I : PtMem → List BuddyMempool → Prop}
    (hI : ∀ mem pools mem' pools', TablesOk mem cr3 → TablesOk mem' cr3 →
      Unmaps off cr3 mem pools mem' pools' → I mem pools → I mem' pools')
    (hmap : MapOk map) (h : TablesOk mem cr3) (hmem : I mem pools)
    (hfree : petmemFreeVspace off map cr3 vaddr mem pools = some (map', mem', pools')) :
    MapOk map' ∧ TablesOk mem' cr3 ∧ I mem' pools' ∧
    ∀ n ∈ map, n.allocated = true → n ∈ map' ∨
      ∀ v, n.start ≤ v * pageSize → v * pageSize < n.start + n.size → pteOf mem' cr3 v = none := by
  obtain ⟨w, hwalk, heq⟩ := Option.map_eq_some_iff.1 hfree
  cases heq
  replace hwalk : freePages off cr3 vaddr (petmemFreeMap map vaddr).2 mem pools = some w := hwalk
  have hstays : ∀ n ∈ map, n.allocated = true →
      (vaddrInMap vaddr map = true → n.start ≠ pageAddr vaddr) → n ∈ (petmemFreeMap map vaddr).1 :=
    fun n hn halloc hne => (mem_allocatedNodes.1
      (mem_allocatedNodes_petmemFreeMap.2 ⟨mem_allocatedNodes.2 ⟨hn, halloc⟩, hne⟩)).1
  by_cases hin : vaddrInMap vaddr map = true
  · have hvaddr : vaddr < 2 ^ 39 := Nat.lt_of_le_of_lt (hmap.vaddr_le hin) (by decide)
    obtain ⟨htables, hend, hnone⟩ := freePages_spec hI hvaddr
      ((hmap.toFree_le vaddr).trans (by decide)) h hmem hwalk
    refine ⟨hmap.petmemFreeMap vaddr, htables, hend, fun n hn halloc => ?_⟩
    by_cases hstart : n.start = pageAddr vaddr
    · right
      intro v hle hlt
      -- the walk starts at the node and is at least as long
      have hsize := hmap.size_le_of_released hn halloc hstart hin
      rw [hstart] at hle hlt
      unfold pageAddr pageSize at *
      exact hnone v (by omega) (by omega)
    · exact Or.inl (hstays n hn halloc fun _ => hstart)
  · have hzero : (petmemFreeMap map vaddr).2 = 0 := by
      rw [petmemFreeMap, if_neg hin]
    rw [hzero] at hwalk
    obtain rfl := Option.some.inj hwalk
    exact ⟨hmap.petmemFreeMap vaddr, h, hmem,
      fun n hn halloc => Or.inl (hstays n hn halloc fun hin' => absurd hin' hin)⟩

end PetKernel.VirtualMemory
