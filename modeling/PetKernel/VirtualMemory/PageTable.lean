import PetKernel.Library.RadixTable
import PetKernel.VirtualMemory.Pools

/-!
# Page tables and the page fault handler

A model of `petmem_handle_pagefault` of `virtual_memory/on_demand.c` and of what it uses of
`pgtables.h`. The memory that holds the page tables of an address space maps physical addresses to
entries. The four levels differ in one point: the root is reached through a typed pointer, to which
`pml_index * sizeof(pml4e64_t)` is added, so that its entries are 64 bytes apart, while the entries
of the other tables are 8 bytes apart.

`pageTables` is the layout of the tables in the sense of `Layout`. `pteOf` is the abstraction: the
present entry of the last level for a virtual page. `pteOf_petmemHandlePagefault` says that a fault
maps the page of the fault, unless it is mapped already, and changes no other page.
-/

set_option autoImplicit false

namespace PetKernel.VirtualMemory

open PetKernel.Library

/-! ## The model -/

/-- The fields of `pml4e64_t`, `pdpe64_t`, `pde64_t` and `pte64_t` that are used. -/
structure PtEntry where
  present : Bool
  writable : Bool
  userPage : Bool
  /-- `pdp_base_addr`, `pd_base_addr`, `pt_base_addr` or `page_base_addr`. -/
  baseAddr : Fin (2 ^ 40)
deriving DecidableEq, Repr

instance neZero_base : NeZero (2 ^ 40) := ⟨by decide⟩

/-- Page table memory, by physical address. -/
abbrev PtMem := Nat → PtEntry

/-- `PML4E64_INDEX(x)`. -/
def pml4e64Index (x : Nat) : Nat := x / 2 ^ 39 % 512

/-- `PDPE64_INDEX(x)`. -/
def pdpe64Index (x : Nat) : Nat := x / 2 ^ 30 % 512

/-- `PDE64_INDEX(x)`. -/
def pde64Index (x : Nat) : Nat := x / 2 ^ 21 % 512

/-- `PTE64_INDEX(x)`. -/
def pte64Index (x : Nat) : Nat := x / 2 ^ 12 % 512

/-- `PAGE_TO_BASE_ADDR(x)`, as it is stored in a field of 40 bits. -/
def pageToBaseAddr (x : Nat) : Fin (2 ^ 40) :=
  ⟨x / 2 ^ 12 % 2 ^ 40, Nat.mod_lt _ (Nat.two_pow_pos 40)⟩

/-- `BASE_TO_PAGE_ADDR(x)`. -/
def baseToPageAddr (x : Fin (2 ^ 40)) : Nat := x.val * 2 ^ 12

/-- `CR3_TO_PML4E64_PA(cr3)`: the bits from 12 to 51. -/
def cr3ToPml4e64 (cr3 : Nat) : Nat := cr3 / 2 ^ 12 % 2 ^ 40 * 2 ^ 12

/-- `CR3_TO_PML4E64_VA(cr3) + index * sizeof(pml4e64_t)`, a sum with a `pml4e64_t *`. -/
def pmlSlot (cr3 index : Nat) : Nat := cr3ToPml4e64 cr3 + index * 8 * 8

/-- `__va(BASE_TO_PAGE_ADDR(base)) + index * sizeof(pte64_t)`, a sum with a `void *`. -/
def entrySlot (base : Fin (2 ^ 40)) (index : Nat) : Nat := baseToPageAddr base + index * 8

/-- The effect of `get_zeroed_page`, when it returns the page at `phys`. -/
def zeroPage (mem : PtMem) (phys : Nat) : PtMem := fun a =>
  if phys ≤ a ∧ a < phys + pageSize then ⟨false, false, false, 0⟩ else mem a

/-- The entry that the handler writes for a table or a page at `phys`. -/
def mappedEntry (phys : Nat) : PtEntry := ⟨true, true, true, pageToBaseAddr phys⟩

/-- What the handler does at each of the upper levels. `page` is what `get_zeroed_page` returns, if
it is called; for a call that fails see `Bits.nextEntry`. -/
def linkTable (off : Nat) (mem : PtMem) (slot page : Nat) : PtMem :=
  if (mem slot).present = false then
    Function.update (zeroPage mem (pa off page)) slot (mappedEntry (pa off page))
  else mem

/-- What the calls of `get_zeroed_page` return. -/
structure ZeroedPages where
  pdpeTablePage : Nat
  pdeTablePage : Nat
  pteTablePage : Nat

/-- The way of the handler to the entry of the last level: the memory and the address `pte`. -/
def descend (off cr3 faultAddr : Nat) (zeroed : ZeroedPages) (mem : PtMem) : PtMem × Nat :=
  let pml := pmlSlot cr3 (pml4e64Index faultAddr)
  let mem := linkTable off mem pml zeroed.pdpeTablePage
  let pdpe := entrySlot (mem pml).baseAddr (pdpe64Index faultAddr)
  let mem := linkTable off mem pdpe zeroed.pdeTablePage
  let pde := entrySlot (mem pdpe).baseAddr (pde64Index faultAddr)
  let mem := linkTable off mem pde zeroed.pteTablePage
  (mem, entrySlot (mem pde).baseAddr (pte64Index faultAddr))

/-- `petmem_handle_pagefault`: the value returned, the page tables and the pools. -/
def petmemHandlePagefault (off : Nat) (map : MemMap) (cr3 faultAddr : Nat) (zeroed : ZeroedPages)
    (mem : PtMem) (pools : List BuddyMempool) : Option (Int × PtMem × List BuddyMempool) :=
  if vaddrInMap faultAddr map = false then some (-1, mem, pools)
  else
    let (mem, pte) := descend off cr3 faultAddr zeroed mem
    if (mem pte).present = false then do
      let (userPage, pools) ← petmemAllocPages off pools 1
      return (0, Function.update mem pte (mappedEntry userPage), pools)
    else some (0, mem, pools)

/-! ## The layout -/

/-- The four levels of page tables. -/
def pageTables : Layout PtEntry where
  present := PtEntry.present
  target e := baseToPageAddr e.baseAddr
  slot l t i := if l = 0 then t + i * 8 * 8 else t + i * 8
  fanout l := if l = 0 then 64 else 512
  IsTable t := 2 ^ 12 ∣ t
  owner a := a / 2 ^ 12 * 2 ^ 12
  isTable_target e := Nat.dvd_mul_left _ _
  owner_slot l t i ht hi := by
    obtain ⟨k, rfl⟩ := ht
    split
    next hl =>
      rw [if_pos hl] at hi
      omega
    next hl =>
      rw [if_neg hl] at hi
      omega
  slot_inj l t i j h := by
    split at h
    next => omega
    next => omega

/-- The path of a virtual page, given by its number. -/
def pathOf (v : Nat) : List Nat := [v % 512, v / 2 ^ 9 % 512, v / 2 ^ 18 % 512, v / 2 ^ 27 % 512]

/-- The present entry of the last level for a virtual page. -/
def pteOf (mem : PtMem) (cr3 v : Nat) : Option PtEntry :=
  pageTables.lookup mem (cr3ToPml4e64 cr3) (pathOf v)

/-- The page tables of an address space form a tree. -/
def TablesOk (mem : PtMem) (cr3 : Nat) : Prop := pageTables.IsTree 4 mem (cr3ToPml4e64 cr3)

/-- The virtual pages whose entries of the first level lie in one page. -/
def maxPage : Nat := 2 ^ 33

theorem validPath_pathOf {v : Nat} (hv : v < maxPage) : pageTables.ValidPath (pathOf v) := by
  have hpml : v / 2 ^ 27 % 512 < 64 := by
    unfold maxPage at hv
    omega
  exact ⟨Nat.mod_lt _ (by decide), Nat.mod_lt _ (by decide), Nat.mod_lt _ (by decide),
    hpml, trivial⟩

theorem pathOf_inj {v w : Nat} (hv : v < maxPage) (hw : w < maxPage) (h : pathOf v = pathOf w) :
    v = w := by
  unfold maxPage at hv hw
  simp only [pathOf, List.cons.injEq, and_true] at h
  omega

theorem pathOf_pageNumber (a : Nat) :
    pathOf (a / 2 ^ 12) = [pte64Index a, pde64Index a, pdpe64Index a, pml4e64Index a] := by
  simp only [pathOf, pte64Index, pde64Index, pdpe64Index, pml4e64Index, Nat.div_div_eq_div_mul,
    ← Nat.pow_add]

/-- The page of an address that the map accepts, below the end of the region. -/
theorem MapOk.page_lt_region {map : MemMap} (h : MapOk map) {vaddr : Nat}
    (hin : vaddrInMap vaddr map = true) : vaddr / 2 ^ 12 < 2 ^ 27 := by
  have hle := h.vaddr_le hin
  unfold petmemRegionEnd at hle
  omega

/-- The first index of an address in the map is zero. -/
theorem MapOk.pml4e64Index_eq_zero {map : MemMap} (h : MapOk map) {vaddr : Nat}
    (hin : vaddrInMap vaddr map = true) : pml4e64Index vaddr = 0 := by
  have hlt := h.page_lt_region hin
  unfold pml4e64Index
  omega

/-! ## The page fault handler -/

/-- A page that `get_zeroed_page` may return: it is no page table, and a base address can hold
it. -/
structure FreshPage (mem : PtMem) (cr3 phys : Nat) : Prop where
  aligned : 2 ^ 12 ∣ phys
  bound : phys < 2 ^ 52
  not_table : ∀ q, pageTables.ValidPath q → q.length < 4 →
    pageTables.tableAt mem (cr3ToPml4e64 cr3) q ≠ some phys

/-- A page that a base address can hold. -/
theorem baseToPageAddr_pageToBaseAddr {phys : Nat} (haligned : 2 ^ 12 ∣ phys)
    (hbound : phys < 2 ^ 52) : baseToPageAddr (pageToBaseAddr phys) = phys := by
  obtain ⟨k, rfl⟩ := haligned
  unfold baseToPageAddr pageToBaseAddr
  simp only
  omega

/-- The page tables `mem'` hold the same pages as `mem`, and any new table is at `phys`. -/
structure SamePages (mem mem' : PtMem) (cr3 : Nat) (new : Nat → Prop) : Prop where
  tables : TablesOk mem' cr3
  lookup_eq : ∀ q, pageTables.ValidPath q → q.length = 4 →
    pageTables.lookup mem' (cr3ToPml4e64 cr3) q = pageTables.lookup mem (cr3ToPml4e64 cr3) q
  old : ∀ q t, pageTables.ValidPath q → q.length < 4 →
    pageTables.tableAt mem' (cr3ToPml4e64 cr3) q = some t →
    new t ∨ pageTables.tableAt mem (cr3ToPml4e64 cr3) q = some t

theorem SamePages.refl {mem : PtMem} {cr3 : Nat} (h : TablesOk mem cr3) :
    SamePages mem mem cr3 fun _ => False :=
  ⟨h, fun _ _ _ => rfl, fun _ _ _ _ ht => Or.inr ht⟩

theorem SamePages.trans {mem₁ mem₂ mem₃ : PtMem} {cr3 : Nat} {new new' : Nat → Prop}
    (h : SamePages mem₁ mem₂ cr3 new) (h' : SamePages mem₂ mem₃ cr3 new') :
    SamePages mem₁ mem₃ cr3 fun t => new t ∨ new' t := by
  refine ⟨h'.tables, fun q hq hlen => (h'.lookup_eq q hq hlen).trans (h.lookup_eq q hq hlen), ?_⟩
  intro q t hq hlen ht
  rcases h'.old q t hq hlen ht with hnew | ht
  · exact Or.inl (Or.inr hnew)
  · exact (h.old q t hq hlen ht).imp Or.inl id

theorem SamePages.imp {mem mem' : PtMem} {cr3 : Nat} {new new' : Nat → Prop}
    (h : SamePages mem mem' cr3 new) (himp : ∀ t, new t → new' t) : SamePages mem mem' cr3 new' :=
  ⟨h.tables, h.lookup_eq, fun q t hq hlen ht => (h.old q t hq hlen ht).imp_left (himp t)⟩

theorem SamePages.pteOf_eq {mem mem' : PtMem} {cr3 : Nat} {new : Nat → Prop}
    (h : SamePages mem mem' cr3 new) {v : Nat} (hv : v < maxPage) :
    pteOf mem' cr3 v = pteOf mem cr3 v :=
  h.lookup_eq _ (validPath_pathOf hv) rfl

/-- A page that was fresh stays fresh unless it has become a table. -/
theorem SamePages.freshPage {mem mem' : PtMem} {cr3 phys : Nat} {new : Nat → Prop}
    (h : SamePages mem mem' cr3 new) (hfresh : FreshPage mem cr3 phys) (hnew : ¬ new phys) :
    FreshPage mem' cr3 phys := by
  refine ⟨hfresh.aligned, hfresh.bound, fun q hq hlen ht => ?_⟩
  rcases h.old q phys hq hlen ht with hbad | ht
  · exact hnew hbad
  · exact hfresh.not_table q hq hlen ht

/-- Only the page itself is zeroed. -/
theorem zeroPage_of_owner_ne {mem : PtMem} {phys a : Nat} (haligned : 2 ^ 12 ∣ phys)
    (ha : pageTables.owner a ≠ phys) : zeroPage mem phys a = mem a := by
  obtain ⟨k, hk⟩ := haligned
  refine if_neg fun hin => ha ?_
  change a / 2 ^ 12 * 2 ^ 12 = phys
  unfold pageSize at hin
  omega

/-- Nothing is present in a zeroed page. -/
theorem present_zeroPage {mem : PtMem} {phys l j : Nat} (haligned : 2 ^ 12 ∣ phys)
    (hj : j < pageTables.fanout l) :
    pageTables.present (zeroPage mem phys (pageTables.slot l phys j)) = false := by
  have howner := pageTables.owner_slot l phys j haligned hj
  have hin : phys ≤ pageTables.slot l phys j ∧ pageTables.slot l phys j < phys + pageSize := by
    generalize pageTables.slot l phys j = a at howner ⊢
    change a / 2 ^ 12 * 2 ^ 12 = phys at howner
    unfold pageSize
    omega
  unfold zeroPage
  rw [if_pos hin]
  rfl

section LinkTable

variable {off cr3 i t page : Nat} {p : List Nat} {mem : PtMem}

/-- One of the upper levels: afterwards the entry is present and no page has changed. -/
theorem TablesOk.linkTable (h : TablesOk mem cr3) (hp : pageTables.ValidPath (i :: p))
    (hpd : p.length + 1 < 4) (ht : pageTables.tableAt mem (cr3ToPml4e64 cr3) p = some t)
    (hfresh : FreshPage mem cr3 (pa off page)) :
    SamePages mem (linkTable off mem (pageTables.slot p.length t i) page) cr3 (· = pa off page) ∧
    pageTables.tableAt (linkTable off mem (pageTables.slot p.length t i) page) (cr3ToPml4e64 cr3)
        (i :: p) =
      some (baseToPageAddr
        (linkTable off mem (pageTables.slot p.length t i) page
          (pageTables.slot p.length t i)).baseAddr)
    := by
  unfold VirtualMemory.linkTable
  -- the entry is absent and a zeroed page is linked in, or the table is there already
  split
  next hold =>
    have hbase := baseToPageAddr_pageToBaseAddr hfresh.aligned hfresh.bound
    have hlink := h.link hp hpd ht hold hfresh.not_table
      (fun _ => zeroPage_of_owner_ne hfresh.aligned) (fun _ _ => present_zeroPage hfresh.aligned)
      (e := mappedEntry (pa off page)) rfl hbase
    refine ⟨⟨hlink.tree, hlink.lookup_eq, hlink.old⟩, ?_⟩
    rw [Function.update_self, hlink.table]
    exact congrArg some hbase.symm
  next hold =>
    have hpres : (mem (pageTables.slot p.length t i)).present = true := by
      simpa using hold
    refine ⟨⟨h, fun _ _ _ => rfl, fun _ _ _ _ hu => Or.inr hu⟩, ?_⟩
    exact Layout.tableAt_cons_eq_some.2
      ⟨_, Layout.entryAt_cons_eq_some.2 ⟨t, ht, rfl⟩, hpres, rfl⟩

end LinkTable

/-- What the kernel promises of `get_zeroed_page`: the pages are fresh and different. -/
structure ZeroedPages.Ok (off : Nat) (mem : PtMem) (cr3 : Nat) (zeroed : ZeroedPages) : Prop where
  pdpe_fresh : FreshPage mem cr3 (pa off zeroed.pdpeTablePage)
  pde_fresh : FreshPage mem cr3 (pa off zeroed.pdeTablePage)
  pte_fresh : FreshPage mem cr3 (pa off zeroed.pteTablePage)
  pde_ne_pdpe : pa off zeroed.pdeTablePage ≠ pa off zeroed.pdpeTablePage
  pte_ne_pdpe : pa off zeroed.pteTablePage ≠ pa off zeroed.pdpeTablePage
  pte_ne_pde : pa off zeroed.pteTablePage ≠ pa off zeroed.pdeTablePage

/-- One of the pages that `get_zeroed_page` returns, by its physical address. -/
def ZeroedPages.IsPage (off : Nat) (zeroed : ZeroedPages) (t : Nat) : Prop :=
  t = pa off zeroed.pdpeTablePage ∨ t = pa off zeroed.pdeTablePage ∨ t = pa off zeroed.pteTablePage

/-- The way down changes no page and ends at an entry of the last level. -/
theorem TablesOk.descend {off cr3 faultAddr : Nat} {zeroed : ZeroedPages} {mem : PtMem}
    (h : TablesOk mem cr3) (hv : faultAddr / 2 ^ 12 < maxPage) (hz : zeroed.Ok off mem cr3) :
    ∃ t, SamePages mem (descend off cr3 faultAddr zeroed mem).1 cr3 (zeroed.IsPage off) ∧
      pageTables.tableAt (descend off cr3 faultAddr zeroed mem).1 (cr3ToPml4e64 cr3)
        [pde64Index faultAddr, pdpe64Index faultAddr, pml4e64Index faultAddr] = some t ∧
      (descend off cr3 faultAddr zeroed mem).2 = pageTables.slot 3 t (pte64Index faultAddr) := by
  have hvalid := validPath_pathOf hv
  rw [pathOf_pageNumber] at hvalid
  -- the first level
  obtain ⟨hs₁, ht₁⟩ := h.linkTable hvalid.2.2.2 (by decide)
    rfl hz.pdpe_fresh
  -- the second level
  obtain ⟨hs₂, ht₂⟩ := hs₁.tables.linkTable hvalid.2.2
    (by simp) ht₁ (hs₁.freshPage hz.pde_fresh hz.pde_ne_pdpe)
  have hs₁₂ := hs₁.trans hs₂
  -- the third level
  obtain ⟨hs₃, ht₃⟩ := hs₂.tables.linkTable hvalid.2
    (by simp) ht₂
    (hs₁₂.freshPage hz.pte_fresh fun hbad => hbad.elim hz.pte_ne_pdpe hz.pte_ne_pde)
  exact ⟨_, (hs₁₂.trans hs₃).imp fun _ hnew => or_assoc.1 hnew, ht₃, rfl⟩

/-- A fault maps the page of the fault, unless it is mapped already, and changes no other page. -/
theorem pteOf_petmemHandlePagefault {off cr3 faultAddr : Nat} {map : MemMap} {zeroed : ZeroedPages}
    {mem mem' : PtMem} {pools pools' : List BuddyMempool} {r : Int} (h : TablesOk mem cr3)
    (hv : vaddrInMap faultAddr map = true → faultAddr / 2 ^ 12 < maxPage)
    (hz : zeroed.Ok off mem cr3)
    (hfault : petmemHandlePagefault off map cr3 faultAddr zeroed mem pools =
      some (r, mem', pools')) :
    TablesOk mem' cr3 ∧
    ((pools' = pools ∧ (∀ w < maxPage, pteOf mem' cr3 w = pteOf mem cr3 w) ∧
        pteOf mem' cr3 (faultAddr / 2 ^ 12) = pteOf mem cr3 (faultAddr / 2 ^ 12)) ∨
      ∃ page, vaddrInMap faultAddr map = true ∧ pteOf mem cr3 (faultAddr / 2 ^ 12) = none ∧
        petmemAllocPages off pools 1 = some (page, pools') ∧
        ∀ w < maxPage, pteOf mem' cr3 w =
          if w = faultAddr / 2 ^ 12 then some (mappedEntry page) else pteOf mem cr3 w) := by
  rw [petmemHandlePagefault] at hfault
  split at hfault
  · cases hfault
    exact ⟨h, Or.inl ⟨rfl, fun _ _ => rfl, rfl⟩⟩
  next hin =>
    replace hin : vaddrInMap faultAddr map = true := by simpa using hin
    replace hv := hv hin
    obtain ⟨t, hs, ht, hslot⟩ := h.descend hv hz
    have hvalid := validPath_pathOf hv
    rw [pathOf_pageNumber] at hvalid
    simp only at hfault
    rw [hslot] at hfault
    split at hfault
    next habsent =>
      -- the entry at the end of the way down is the one of the page that faulted
      obtain ⟨⟨page, pools₁⟩, halloc, heq⟩ := Option.bind_eq_some_iff.1 hfault
      cases heq
      refine ⟨hs.tables.update_leaf hvalid rfl ht, Or.inr ⟨page, hin, ?_, halloc, ?_⟩⟩
      · rw [← hs.pteOf_eq hv, pteOf, pathOf_pageNumber]
        apply Layout.lookup_eq_none_of_absent (List.suffix_refl _)
        intro e he
        obtain ⟨u, hu, rfl⟩ := Layout.entryAt_cons_eq_some.1 he
        obtain rfl := Option.some.inj (ht.symm.trans hu)
        exact habsent
      · intro w hw
        have hlookup := hs.tables.lookup_update_leaf (e := mappedEntry page) hvalid rfl ht
          (validPath_pathOf hw) rfl
        rw [pteOf]
        apply hlookup.trans
        rw [← pathOf_pageNumber]
        by_cases hwv : w = faultAddr / 2 ^ 12
        · subst hwv
          rw [if_pos rfl, if_pos rfl]
          rfl
        · rw [if_neg hwv, if_neg fun heq => hwv (pathOf_inj hw hv heq)]
          exact hs.pteOf_eq hw
    next =>
      cases hfault
      exact ⟨hs.tables, Or.inl ⟨rfl, fun w hw => hs.pteOf_eq hw, hs.pteOf_eq hv⟩⟩

/-! ## Page tables in which nothing is present -/

/-- Page table memory in which nothing is present. -/
def emptyMem : PtMem := fun _ => ⟨false, false, false, 0⟩

theorem tableAt_emptyMem {cr3 t : Nat} {q : List Nat}
    (h : pageTables.tableAt emptyMem (cr3ToPml4e64 cr3) q = some t) :
    q = [] ∧ t = cr3ToPml4e64 cr3 :=
  Layout.tableAt_of_absent (fun _ => rfl) h

theorem tablesOk_emptyMem (cr3 : Nat) : TablesOk emptyMem cr3 := by
  refine ⟨Nat.dvd_mul_left _ _, fun p q t _ _ _ _ hp hq => ?_⟩
  rw [(tableAt_emptyMem hp).1, (tableAt_emptyMem hq).1]

theorem pteOf_emptyMem (cr3 v : Nat) : pteOf emptyMem cr3 v = none := by
  cases h : pteOf emptyMem cr3 v with
  | none => rfl
  | some e =>
      obtain ⟨he, hpres⟩ := Layout.lookup_eq_some.1 h
      obtain ⟨u, -, rfl⟩ := Layout.entryAt_cons_eq_some.1 he
      exact absurd hpres Bool.false_ne_true

theorem freshPage_emptyMem {cr3 phys : Nat} (haligned : 2 ^ 12 ∣ phys) (hbound : phys < 2 ^ 52)
    (hne : phys ≠ cr3ToPml4e64 cr3) : FreshPage emptyMem cr3 phys :=
  ⟨haligned, hbound, fun _ _ _ ht => hne (tableAt_emptyMem ht).2⟩

/-- Three pages of the direct map. -/
def threePages : ZeroedPages := ⟨0xffff880000002000, 0xffff880000003000, 0xffff880000004000⟩

theorem threePages_ok : threePages.Ok 0xffff880000000000 emptyMem 0x1000 where
  pdpe_fresh := freshPage_emptyMem (by decide) (by decide) (by decide)
  pde_fresh := freshPage_emptyMem (by decide) (by decide) (by decide)
  pte_fresh := freshPage_emptyMem (by decide) (by decide) (by decide)
  pde_ne_pdpe := by decide
  pte_ne_pdpe := by decide
  pte_ne_pde := by decide

end PetKernel.VirtualMemory
