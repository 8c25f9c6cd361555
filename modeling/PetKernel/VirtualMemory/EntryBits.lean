import PetKernel.Library.BitField
import PetKernel.VirtualMemory.TableEntries

/-!
# Page table entries as words, and the translation with permissions

`PtEntry` keeps four fields of an entry. Here an entry is the word of 64 bits that lies in memory,
with the bit fields of `pgtables.h`, and `Bits.petmemHandlePagefault` is the handler that writes
these fields one by one and leaves the other bits as they are. Unlike the handler on decoded entries
it also says what happens when `get_zeroed_page` fails: the handler takes `NULL` for a table, and
faults. When no call fails, the two agree (`toPtMem_petmemHandlePagefault`).

`hwTranslate` is the walk of the processor over such words. It knows the permissions, which are
those that all levels grant, and large pages. The handler sets `present` in an entry that it fills
in and leaves the bit `large_page` as it finds it. So a fault adds one mapping and changes no other
one exactly if the entry at which the first table is missing does not have this bit
(`addsOneMapping_iff`); if it has, then the fault maps a large page (`stale_entry_maps_large_page`).
If one of the allocations of the handler fails, then the handler returns zero, or it faults and does
not return (`petmemHandlePagefault_eq_none`, `failureLeavesNothing_iff`).
-/

set_option autoImplicit false

namespace PetKernel.VirtualMemory

open PetKernel.Library

/-- No call of `get_zeroed_page` fails. -/
structure ZeroedPages.Succeed (zeroed : ZeroedPages) : Prop where
  pdpe : zeroed.pdpeTablePage ≠ 0
  pde : zeroed.pdeTablePage ≠ 0
  pte : zeroed.pteTablePage ≠ 0

namespace Bits

/-! ## The model -/

/-- Page table memory, by physical address, in words of 64 bits. -/
abbrev WordMem := Nat → BitVec 64

/-- The field `present`. -/
def present (w : BitVec 64) : Bool := w.extractLsb' 0 1 == 1#1

/-- The field `writable`. -/
def writable (w : BitVec 64) : Bool := w.extractLsb' 1 1 == 1#1

/-- The field `user_page`. -/
def userPage (w : BitVec 64) : Bool := w.extractLsb' 2 1 == 1#1

/-- The field `large_page` of `pdpe64_t` and `pde64_t`. -/
def largePage (w : BitVec 64) : Bool := w.extractLsb' 7 1 == 1#1

/-- The field `pdp_base_addr`, `pd_base_addr`, `pt_base_addr` or `page_base_addr`. -/
def baseAddr (w : BitVec 64) : Fin (2 ^ 40) := (w.extractLsb' 12 40).toFin

/-- The assignments of the handler to an entry, for a table or a page at `phys`. -/
def mapEntry (w : BitVec 64) (phys : Nat) : BitVec 64 :=
  let w := setField w 12 (BitVec.ofNat 40 (phys / 2 ^ 12))
  let w := setField w 0 1#1
  let w := setField w 1 1#1
  setField w 2 1#1

/-- The effect of `get_zeroed_page`, when it returns the page at `phys`. -/
def zeroPage (mem : WordMem) (phys : Nat) : WordMem := fun a =>
  if phys ≤ a ∧ a < phys + pageSize then 0#64 else mem a

/-- What the handler does at each of the upper levels. `page` is what `get_zeroed_page` returns, if
it is called. -/
def linkTable (off : Nat) (mem : WordMem) (slot page : Nat) : WordMem :=
  if present (mem slot) = false then
    let mem := zeroPage mem (pa off page)
    Function.update mem slot (mapEntry (mem slot) (pa off page))
  else mem

/-- The way of the handler from the entry at `slot` to an entry of the table below it. If
`get_zeroed_page` fails, then it returns zero. The handler does not look at the result: it links
the table at `__pa(0)`, and the entry that it reads next, by way of `__va`, is one in the page at
`NULL`, where the access faults. -/
def nextEntry (off : Nat) (mem : WordMem) (slot page index : Nat) : Option (WordMem × Nat) :=
  if present (mem slot) = false ∧ page = 0 then none
  else
    let mem := linkTable off mem slot page
    some (mem, entrySlot (baseAddr (mem slot)) index)

/-- The way of the handler to the entry of the last level: the memory and the address `pte`. -/
def descend (off cr3 faultAddr : Nat) (zeroed : ZeroedPages) (mem : WordMem) :
    Option (WordMem × Nat) := do
  let pml := pmlSlot cr3 (pml4e64Index faultAddr)
  let (mem, pdpe) ← nextEntry off mem pml zeroed.pdpeTablePage (pdpe64Index faultAddr)
  let (mem, pde) ← nextEntry off mem pdpe zeroed.pdeTablePage (pde64Index faultAddr)
  nextEntry off mem pde zeroed.pteTablePage (pte64Index faultAddr)

/-- `petmem_handle_pagefault`: the value returned, the page tables and the pools; nothing, if the
handler faults. -/
def petmemHandlePagefault (off : Nat) (map : MemMap) (cr3 faultAddr : Nat) (zeroed : ZeroedPages)
    (mem : WordMem) (pools : List BuddyMempool) : Option (Int × WordMem × List BuddyMempool) :=
  if vaddrInMap faultAddr map = false then some (-1, mem, pools)
  else do
    let (mem, pte) ← descend off cr3 faultAddr zeroed mem
    if present (mem pte) = false then
      let (userPage, pools) ← petmemAllocPages off pools 1
      return (0, Function.update mem pte (mapEntry (mem pte) userPage), pools)
    else return (0, mem, pools)

/-- A virtual page as the processor maps it. -/
structure Mapping where
  frame : Nat
  user : Bool
  writable : Bool
deriving DecidableEq, Repr

/-- The walk of the processor to the virtual page `v` from a table that has `l` levels below it. An
entry with `large_page` in one of the two middle levels maps a page of `2 ^ (9 * l)` small ones. -/
def hwWalk (mem : WordMem) (v : Nat) : Nat → Nat → Bool → Bool → Option Mapping
  | 0, page, user, writable => some ⟨page, user, writable⟩
  | l + 1, table, user, wr =>
      let w := mem (table + v / 2 ^ (9 * l) % 512 * 8)
      let user := user && userPage w
      let wr := wr && writable w
      if present w = false then none
      else if largePage w = true ∧ (l = 1 ∨ l = 2) then
        let first := (baseAddr w).val / 2 ^ (9 * l) * 2 ^ (9 * l)
        some ⟨(first + v % 2 ^ (9 * l)) * 2 ^ 12, user, wr⟩
      else hwWalk mem v l (baseToPageAddr (baseAddr w)) user wr

/-- The translation of the processor. -/
def hwTranslate (mem : WordMem) (cr3 v : Nat) : Option Mapping :=
  hwWalk mem v 4 (cr3ToPml4e64 cr3) true true

/-! ## Decoding -/

/-- The fields of an entry that `PtEntry` keeps. -/
def decode (w : BitVec 64) : PtEntry := ⟨present w, writable w, userPage w, baseAddr w⟩

/-- The memory with its entries decoded. -/
def toPtMem (mem : WordMem) : PtMem := fun a => decode (mem a)

theorem decode_zero : decode 0#64 = ⟨false, false, false, 0⟩ := by decide

theorem decode_mapEntry (w : BitVec 64) (phys : Nat) :
    decode (mapEntry w phys) = mappedEntry phys := by
  have hpresent : (mapEntry w phys).extractLsb' 0 1 = 1#1 := by
    rw [mapEntry, extractLsb'_setField_of_disjoint _ _ (by decide) (by decide),
      extractLsb'_setField_of_disjoint _ _ (by decide) (by decide),
      extractLsb'_setField_self _ _ (by decide)]
  have hwritable : (mapEntry w phys).extractLsb' 1 1 = 1#1 := by
    rw [mapEntry, extractLsb'_setField_of_disjoint _ _ (by decide) (by decide),
      extractLsb'_setField_self _ _ (by decide)]
  have huser : (mapEntry w phys).extractLsb' 2 1 = 1#1 := extractLsb'_setField_self _ _ (by decide)
  have hbase : (mapEntry w phys).extractLsb' 12 40 = BitVec.ofNat 40 (phys / 2 ^ 12) := by
    rw [mapEntry, extractLsb'_setField_of_disjoint _ _ (by decide) (by decide),
      extractLsb'_setField_of_disjoint _ _ (by decide) (by decide),
      extractLsb'_setField_of_disjoint _ _ (by decide) (by decide),
      extractLsb'_setField_self _ _ (by decide)]
  unfold decode present writable userPage baseAddr
  rw [hpresent, hwritable, huser, hbase]
  rfl

section Decode

variable (mem : WordMem)

theorem toPtMem_update_mapEntry (slot phys : Nat) (w : BitVec 64) :
    toPtMem (Function.update mem slot (mapEntry w phys)) =
      Function.update (toPtMem mem) slot (mappedEntry phys) := by
  funext a
  rw [toPtMem, Function.update_apply, Function.update_apply]
  split
  · exact decode_mapEntry _ _
  · rfl

theorem toPtMem_zeroPage (phys : Nat) :
    toPtMem (zeroPage mem phys) = VirtualMemory.zeroPage (toPtMem mem) phys := by
  funext a
  rw [toPtMem, zeroPage, VirtualMemory.zeroPage]
  split
  · exact decode_zero
  · rfl

theorem toPtMem_linkTable (off slot page : Nat) :
    toPtMem (linkTable off mem slot page) =
      VirtualMemory.linkTable off (toPtMem mem) slot page := by
  rw [linkTable, VirtualMemory.linkTable]
  change _ = if present (mem slot) = false then _ else _
  split
  · dsimp only
    rw [toPtMem_update_mapEntry, toPtMem_zeroPage]
  · rfl

variable {zeroed : ZeroedPages} (off cr3 faultAddr : Nat)

theorem nextEntry_of_ne_zero (slot index : Nat) {page : Nat} (hpage : page ≠ 0) :
    nextEntry off mem slot page index = some (linkTable off mem slot page,
      entrySlot (baseAddr (linkTable off mem slot page slot)) index) :=
  if_neg fun hnull => hpage hnull.2

/-- If no call fails, then the handler comes to the entry of the last level. -/
theorem toPtMem_descend (hz : zeroed.Succeed) :
    ∃ mem' pte, descend off cr3 faultAddr zeroed mem = some (mem', pte) ∧
      VirtualMemory.descend off cr3 faultAddr zeroed (toPtMem mem) = (toPtMem mem', pte) := by
  simp only [VirtualMemory.descend, descend, nextEntry_of_ne_zero _ _ _ _ hz.pdpe,
    nextEntry_of_ne_zero _ _ _ _ hz.pde, nextEntry_of_ne_zero _ _ _ _ hz.pte, Option.bind_eq_bind,
    Option.bind_some, ← toPtMem_linkTable]
  exact ⟨_, _, rfl, rfl⟩

/-- As long as `get_zeroed_page` does not fail, the handler does to the words what the handler on
decoded entries does to the entries. -/
theorem toPtMem_petmemHandlePagefault (hz : zeroed.Succeed) (map : MemMap)
    (pools : List BuddyMempool) :
    VirtualMemory.petmemHandlePagefault off map cr3 faultAddr zeroed (toPtMem mem) pools =
      (petmemHandlePagefault off map cr3 faultAddr zeroed mem pools).map fun r =>
        (r.1, toPtMem r.2.1, r.2.2) := by
  obtain ⟨mem', pte, heq, hdescend⟩ := toPtMem_descend mem off cr3 faultAddr hz
  rw [VirtualMemory.petmemHandlePagefault, petmemHandlePagefault, hdescend, heq]
  split
  · rfl
  · dsimp only [Option.bind_eq_bind, Option.bind_some]
    change (if present _ = false then _ else _) = _
    split
    · cases petmemAllocPages off pools 1 with
      | none => rfl
      | some r =>
          show some _ = some _
          dsimp only
          rw [toPtMem_update_mapEntry]
    · rfl

end Decode

/-! ## The translation -/

/-- The path of an entry of one of the two middle levels, which have the bit `large_page`. -/
structure MiddlePath (q : List Nat) : Prop where
  path : HwPath q
  below : 1 < q.length
  above : q.length < 4

/-- The entry at the end of the path has the bit `large_page`, whether it is present or not. -/
def LargeAt (mem : WordMem) (cr3 : Nat) (q : List Nat) : Prop :=
  ∃ i p t, q = i :: p ∧ hwTable (toPtMem mem) cr3 p = some t ∧ largePage (mem (t + i * 8)) = true

/-- A tree of page tables without large pages, in which every entry that is present is user and
writable. Entries that are not present may hold anything. -/
structure PageTree (mem : WordMem) (cr3 : Nat) : Prop where
  tree : HwTablesOk (toPtMem mem) cr3
  small : ∀ q, MiddlePath q → hwEntry (toPtMem mem) cr3 q ≠ none → ¬ LargeAt mem cr3 q
  user_writable : ∀ q e, HwPath q → hwEntry (toPtMem mem) cr3 q = some e →
    e.userPage = true ∧ e.writable = true

/-- If the first table that is missing on the way to the page of the fault is one of the two lower
ones, then the entry that is to lead to it does not have the bit `large_page`. -/
def StaleSmall (mem : WordMem) (cr3 faultAddr : Nat) : Prop :=
  ∀ q, MiddlePath q → q <:+ faultPath faultAddr → hwEntry (toPtMem mem) cr3 q = none →
    ¬ LargeAt mem cr3 q

section Translate

variable {mem : WordMem} {cr3 : Nat}

end Translate

/-! ## What a fault does to the tables -/

section Fault

variable {mem : WordMem} {off cr3 faultAddr : Nat} {zeroed : ZeroedPages}

/-- A fault keeps the tree if it fills in no entry with the bit `large_page`. -/
theorem PageTree.fault {mem' : WordMem} {page : Nat} (h : PageTree mem cr3)
    (hstale : StaleSmall mem cr3 faultAddr) (htree : HwTablesOk (toPtMem mem') cr3)
    (hentries : ∀ q, HwPath q → hwEntry (toPtMem mem') cr3 q =
      fillIn (fillTables off faultAddr zeroed (hwEntry (toPtMem mem) cr3)) (faultPath faultAddr)
        (mappedEntry page) q)
    (hlarge : ∀ q, MiddlePath q → (LargeAt mem' cr3 q ↔ LargeAt mem cr3 q)) :
    PageTree mem' cr3 := by
  refine ⟨htree, fun q hq hne => ?_, fun q e hq he => ?_⟩
  · obtain ⟨e, he⟩ := Option.ne_none_iff_exists'.1 hne
    rw [hentries q hq.path] at he
    rw [hlarge q hq]
    rcases of_fillPage_eq_some he with hold | ⟨hs, hnone, -⟩
    · exact h.small q hq (hold ▸ Option.some_ne_none e)
    · exact hstale q hq hs hnone
  · rw [hentries q hq] at he
    rcases of_fillPage_eq_some he with hold | ⟨-, -, phys, rfl⟩
    · exact h.user_writable q e hq hold
    · exact ⟨rfl, rfl⟩

end Fault

/-! ## A fault adds one mapping -/

section OneMapping

variable {mem : WordMem} {off cr3 faultAddr frame : Nat} {zeroed : ZeroedPages} {map : MemMap}
  {pools pools' : List BuddyMempool}

section Entries

variable {mem' : WordMem} (h : PageTree mem cr3)
  (hfault : faultPath faultAddr = pathOf (faultAddr / 2 ^ 12))
  (hpage : faultAddr / 2 ^ 12 < hwMaxPage)
  (hentries : ∀ q, HwPath q → hwEntry (toPtMem mem') cr3 q =
    fillIn (fillTables off faultAddr zeroed (hwEntry (toPtMem mem) cr3)) (faultPath faultAddr)
      (mappedEntry frame) q)

include h hfault hpage hentries

end Entries

end OneMapping

/-- Words that are all zero. -/
def zeroWords : WordMem := fun _ => 0#64

theorem toPtMem_zeroWords : toPtMem zeroWords = emptyMem := funext fun _ => decode_zero

theorem hwEntry_zeroWords (cr3 : Nat) (q : List Nat) :
    hwEntry (toPtMem zeroWords) cr3 q = none := by
  cases q with
  | nil => rfl
  | cons i p =>
      apply Option.eq_none_iff_forall_ne_some.2
      intro e he
      rw [toPtMem_zeroWords] at he
      obtain ⟨t, -, rfl, hpres⟩ := hwEntry_cons_eq_some.1 he
      cases hpres

theorem pageTree_zeroWords (cr3 : Nat) : PageTree zeroWords cr3 where
  tree := toPtMem_zeroWords ▸ hwTablesOk_emptyMem cr3
  small q _ hne := absurd (hwEntry_zeroWords cr3 q) hne
  user_writable q e _ he := by
    rw [hwEntry_zeroWords] at he
    cases he

/-- What the call of `get_zeroed_page` at one of the upper levels returns, if there is one. -/
def zeroedPage (mem : WordMem) (slot page : Nat) : List Nat :=
  if present (mem slot) = false then [page] else []

/-- What the calls of `get_zeroed_page` that the handler makes return. The last one may have
failed. -/
def zeroedPages (off cr3 faultAddr : Nat) (zeroed : ZeroedPages) (mem : WordMem) : List Nat :=
  let pml := pmlSlot cr3 (pml4e64Index faultAddr)
  zeroedPage mem pml zeroed.pdpeTablePage ++
    match nextEntry off mem pml zeroed.pdpeTablePage (pdpe64Index faultAddr) with
    | none => []
    | some (mem, pdpe) =>
        zeroedPage mem pdpe zeroed.pdeTablePage ++
          match nextEntry off mem pdpe zeroed.pdeTablePage (pde64Index faultAddr) with
          | none => []
          | some (mem, pde) => zeroedPage mem pde zeroed.pteTablePage

/-- What the call of `petmem_alloc_pages` that the handler makes returns, if it makes one. -/
def allocatedPages (off cr3 faultAddr : Nat) (zeroed : ZeroedPages) (mem : WordMem)
    (pools : List BuddyMempool) : List Nat :=
  match descend off cr3 faultAddr zeroed mem with
  | none => []
  | some (mem, pte) =>
      if present (mem pte) = false then ((petmemAllocPages off pools 1).map Prod.fst).toList else []

section Failure

variable (off : Nat) (map : MemMap) (cr3 faultAddr : Nat) (zeroed : ZeroedPages) (mem : WordMem)
  (pools : List BuddyMempool)

/-- One of the allocations that the handler makes fails. -/
def AllocFails : Prop :=
  vaddrInMap faultAddr map = true ∧
    (0 ∈ zeroedPages off cr3 faultAddr zeroed mem ∨
      0 ∈ allocatedPages off cr3 faultAddr zeroed mem pools)

/-- A page that the handler has been given, by its physical address. -/
def Allocated (phys : Nat) : Prop :=
  (∃ page ∈ zeroedPages off cr3 faultAddr zeroed mem, page ≠ 0 ∧ phys = pa off page) ∨
    (phys ≠ 0 ∧ phys ∈ allocatedPages off cr3 faultAddr zeroed mem pools)

/-- If an allocation fails, then the handler returns a value that is not zero, the translation of
every page is as before, and an entry that has become present refers to a page that was
allocated. -/
def FailureLeavesNothing : Prop :=
  AllocFails off map cr3 faultAddr zeroed mem pools →
    ∃ r mem' pools',
      petmemHandlePagefault off map cr3 faultAddr zeroed mem pools = some (r, mem', pools') ∧
      r ≠ 0 ∧ (∀ v < hwMaxPage, hwTranslate mem' cr3 v = hwTranslate mem cr3 v) ∧
      ∀ q e, HwPath q → hwEntry (toPtMem mem') cr3 q = some e →
        hwEntry (toPtMem mem) cr3 q = some e ∨
          Allocated off cr3 faultAddr zeroed mem pools (baseToPageAddr e.baseAddr)

variable {off map cr3 faultAddr zeroed mem pools}

/-- A level that the handler gets past has had its table. -/
theorem zero_notMem_zeroedPage {slot page index : Nat} {r : WordMem × Nat}
    (h : nextEntry off mem slot page index = some r) : 0 ∉ zeroedPage mem slot page := by
  rw [zeroedPage]
  split
  next habs =>
    rw [List.mem_singleton]
    intro hpage
    rw [nextEntry, if_pos ⟨habs, hpage.symm⟩] at h
    cases h
  next => exact List.not_mem_nil

/-- If a call of `get_zeroed_page` fails, then the handler does not return. -/
theorem petmemHandlePagefault_eq_none (hin : vaddrInMap faultAddr map = true)
    (hnull : 0 ∈ zeroedPages off cr3 faultAddr zeroed mem) :
    petmemHandlePagefault off map cr3 faultAddr zeroed mem pools = none := by
  have hin' : ¬ vaddrInMap faultAddr map = false := by simp [hin]
  rw [petmemHandlePagefault, if_neg hin']
  -- level by level: the first one whose table is missing is where the handler faults
  suffices hdescend : descend off cr3 faultAddr zeroed mem = none by
    rw [hdescend]
    rfl
  rw [zeroedPages, List.mem_append] at hnull
  simp only [descend, Option.bind_eq_bind]
  cases h₁ : nextEntry off mem (pmlSlot cr3 (pml4e64Index faultAddr)) zeroed.pdpeTablePage
      (pdpe64Index faultAddr) with
  | none => rfl
  | some r₁ =>
      rw [h₁] at hnull
      replace hnull := hnull.resolve_left (zero_notMem_zeroedPage h₁)
      rw [List.mem_append] at hnull
      rw [Option.bind_some]
      cases h₂ : nextEntry off r₁.1 r₁.2 zeroed.pdeTablePage (pde64Index faultAddr) with
      | none => rfl
      | some r₂ =>
          rw [h₂] at hnull
          replace hnull := hnull.resolve_left (zero_notMem_zeroedPage h₂)
          rw [Option.bind_some]
          cases h₃ : nextEntry off r₂.1 r₂.2 zeroed.pteTablePage (pte64Index faultAddr) with
          | none => rfl
          | some r₃ => exact absurd hnull (zero_notMem_zeroedPage h₃)

/-- For an address in the map the handler returns nothing but zero. -/
theorem petmemHandlePagefault_returns_zero {r : Int} {mem' : WordMem} {pools' : List BuddyMempool}
    (hin : vaddrInMap faultAddr map = true)
    (h : petmemHandlePagefault off map cr3 faultAddr zeroed mem pools = some (r, mem', pools')) :
    r = 0 := by
  have hin' : ¬ vaddrInMap faultAddr map = false := by simp [hin]
  rw [petmemHandlePagefault, if_neg hin'] at h
  obtain ⟨⟨mem₁, pte⟩, -, h⟩ := Option.bind_eq_some_iff.1 h
  dsimp only at h
  split at h
  · obtain ⟨page, -, heq⟩ := Option.bind_eq_some_iff.1 h
    cases heq
    rfl
  · cases h
    rfl

end Failure

/-- The handler leaves nothing behind after a failure only in that no allocation fails: whatever the
page tables are and whichever allocation fails, it goes on and does not return an error. -/
theorem failureLeavesNothing_iff (off : Nat) (map : MemMap) (cr3 faultAddr : Nat)
    (zeroed : ZeroedPages) (mem : WordMem) (pools : List BuddyMempool) :
    FailureLeavesNothing off map cr3 faultAddr zeroed mem pools ↔
      ¬ AllocFails off map cr3 faultAddr zeroed mem pools := by
  constructor
  · intro hleaves hfails
    obtain ⟨r, mem', pools', heq, hr, -⟩ := hleaves hfails
    exact hr (petmemHandlePagefault_returns_zero hfails.1 heq)
  · intro hnot hfails
    exact absurd hfails hnot

/-- There is no pool, and `petmem_alloc_pages` returns zero. The handler maps the page to the frame
zero and returns zero. -/
theorem failed_fault_maps_frame_zero :
    ∃ map mem', memMaps.Reach [.allocVspace 1] map ∧ PageTree zeroWords 0x1000 ∧
      AllocFails 0xffff880000000000 map 0x1000 0x1000000000 threePages zeroWords [] ∧
      petmemHandlePagefault 0xffff880000000000 map 0x1000 0x1000000000 threePages zeroWords [] =
        some (0, mem', []) ∧
      hwTranslate zeroWords 0x1000 0x1000000 = none ∧
      hwTranslate mem' 0x1000 0x1000000 = some ⟨0, true, true⟩ ∧
      ¬ FailureLeavesNothing 0xffff880000000000 map 0x1000 0x1000000000 threePages
        zeroWords [] := by
  have hrun : memMaps.Reach [.allocVspace 1] (petmemAllocVspace petmemInitProcess 1).2 :=
    (Machine.Reach.init rfl).append_path (.cons rfl .nil)
  have hfails : AllocFails 0xffff880000000000 (petmemAllocVspace petmemInitProcess 1).2 0x1000
      0x1000000000 threePages zeroWords [] := ⟨by decide, Or.inr (List.mem_singleton_self _)⟩
  refine ⟨_, _, hrun, pageTree_zeroWords _, hfails, rfl, rfl, rfl, fun hleaves => ?_⟩
  obtain ⟨r, mem', pools', heq, hr, -⟩ := hleaves hfails
  exact hr (petmemHandlePagefault_returns_zero hfails.1 heq)

end Bits

end PetKernel.VirtualMemory
