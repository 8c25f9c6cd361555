import PetKernel.Library.Ledger
import PetKernel.VirtualMemory.TableEntries
import PetKernel.VirtualMemory.Tlb

/-!
# The pages of the page tables

`petmem_handle_pagefault` takes the pages of its tables with `get_zeroed_page`, and the increments
of the walk of `petmem_free_vspace` give a table back with `free_page` once it is empty. Here these
calls are recorded, in a ledger, and each call of `free_page` together with the memory at that
moment.

`Edit` lists all that the source ever does to the page tables: a table is linked in, a page is
mapped, a page is taken out, an empty table is released. A fault and a turn of the walk are
sequences of edits with the calls that go with them (`edits_petmemHandlePagefault`,
`edits_walkStep`), and what a single edit keeps holds in all runs. This is how
`page_tables_stay_tree` is proved: the tables stay a tree of pages that are not given back, only
empty tables are given back, and none of them twice.
-/

set_option autoImplicit false

namespace PetKernel.VirtualMemory

open PetKernel.Library LedgerCall

/-! ## The calls -/

/-- A call of `get_zeroed_page` or `free_page`, by the physical address of the page. A call of
`free_page` comes with the memory at that moment. -/
abbrev PageCall := LedgerCall Nat PtMem

/-- The call of `get_zeroed_page` at one of the upper levels, if there is one. -/
def linkCalls (off : Nat) (mem : PtMem) (slot page : Nat) : List PageCall :=
  if (mem slot).present = false then [.acquire (pa off page)] else []

/-- The calls of `get_zeroed_page` on the way to the entry of the last level. -/
def descendCalls (off cr3 faultAddr : Nat) (zeroed : ZeroedPages) (mem : PtMem) : List PageCall :=
  let pml := pmlSlot cr3 (pml4e64Index faultAddr)
  let calls₁ := linkCalls off mem pml zeroed.pdpeTablePage
  let mem := linkTable off mem pml zeroed.pdpeTablePage
  let pdpe := entrySlot (mem pml).baseAddr (pdpe64Index faultAddr)
  let calls₂ := linkCalls off mem pdpe zeroed.pdeTablePage
  let mem := linkTable off mem pdpe zeroed.pdeTablePage
  let pde := entrySlot (mem pdpe).baseAddr (pde64Index faultAddr)
  let calls₃ := linkCalls off mem pde zeroed.pteTablePage
  calls₁ ++ calls₂ ++ calls₃

/-- The calls of `get_zeroed_page` in `petmem_handle_pagefault`. -/
def faultCalls (off : Nat) (map : MemMap) (cr3 faultAddr : Nat) (zeroed : ZeroedPages)
    (mem : PtMem) : List PageCall :=
  if vaddrInMap faultAddr map = false then [] else descendCalls off cr3 faultAddr zeroed mem

/-- The call of `free_page` at the end of a table, if the table is empty. The entry that leads to
the table is cleared before. -/
def releaseCalls (mem : PtMem) (slot : Nat) : List PageCall :=
  let base := baseToPageAddr (mem slot).baseAddr
  if tableIsEmpty mem base then [.release base (clearPresent mem slot)] else []

/-- The calls of `free_page` in `increment_pdpe_index`. -/
def incrementPdpeCalls (pml : Nat) (w : Walk) : List PageCall :=
  if w.pdpeIndex + 1 = maxEntries then releaseCalls w.mem pml else []

/-- The calls of `free_page` in `increment_pde_index`. -/
def incrementPdeCalls (pdpe pml : Nat) (w : Walk) : List PageCall :=
  let pdeBase := baseToPageAddr (w.mem pdpe).baseAddr
  if w.pdeIndex + 1 = maxEntries then
    let mem := if pdeTableIsEmpty w.mem pdeBase then clearPresent w.mem pdpe else w.mem
    releaseCalls w.mem pdpe ++ incrementPdpeCalls pml { w with pdeIndex := 0, mem := mem }
  else []

/-- The calls of `free_page` in `increment_pte_index`. -/
def incrementPteCalls (pde pdpe pml : Nat) (w : Walk) : List PageCall :=
  if w.pteIndex + 1 = maxEntries then
    let pteBase := baseToPageAddr (w.mem pde).baseAddr
    let mem := if pteTableIsEmpty w.mem pteBase then clearPresent w.mem pde else w.mem
    releaseCalls w.mem pde ++ incrementPdeCalls pdpe pml { w with pteIndex := 0, mem := mem }
  else []

/-- The calls of `free_page` in a turn of the loop of `petmem_free_vspace`. -/
def turnCalls (cr3 : Nat) (w : Walk) : List PageCall :=
  let pml := pmlSlot cr3 w.pmlIndex
  if (w.mem pml).present = false then []
  else
    let pdpe := entrySlot (w.mem pml).baseAddr w.pdpeIndex
    if (w.mem pdpe).present = false then incrementPdpeCalls pml w
    else
      let pde := entrySlot (w.mem pdpe).baseAddr w.pdeIndex
      if (w.mem pde).present = false then incrementPdeCalls pdpe pml w
      else
        let pte := entrySlot (w.mem pde).baseAddr w.pteIndex
        if (w.mem pte).present = true then
          incrementPteCalls pde pdpe pml { w with mem := clearPresent w.mem pte }
        else incrementPteCalls pde pdpe pml w

/-- The calls that an event makes. -/
def SpaceEvent.pageCalls (off cr3 : Nat) (s : AddressSpace) : SpaceEvent → List PageCall
  | .pageFault faultAddr zeroed => faultCalls off s.map cr3 faultAddr zeroed s.walk.mem
  | .turn => turnCalls cr3 s.walk
  | _ => []

/-- An address space and the calls so far. -/
structure TableSpace where
  space : AddressSpace
  calls : List PageCall

/-- One address space, with any page tables at the start. -/
def tableSpaces (off cr3 : Nat) : Machine TableSpace SpaceEvent where
  init s := (addressSpaces off cr3).init s.space ∧ s.calls = []
  step s e t := (addressSpaces off cr3).step s.space e t.space ∧
    t.calls = s.calls ++ e.pageCalls off cr3 s.space

/-! ## Edits -/

/-- What the source does to page tables, with the calls that go with it. -/
inductive Edit (off cr3 : Nat) (mem : PtMem) : List PageCall → PtMem → Prop where
  | link {i t page : Nat} {p : List Nat} (hp : HwPath (i :: p)) (hpd : p.length + 1 < 4)
      (ht : hwTable mem cr3 p = some t) (habs : (mem (t + i * 8)).present = false)
      (hfresh : HwFresh mem cr3 (pa off page)) :
      Edit off cr3 mem [.acquire (pa off page)] (linkTable off mem (t + i * 8) page)
  | mapPage {i t : Nat} {p : List Nat} (page : Nat) (hp : HwPath (i :: p)) (hpd : p.length + 1 = 4)
      (ht : hwTable mem cr3 p = some t) (habs : (mem (t + i * 8)).present = false) :
      Edit off cr3 mem [] (Function.update mem (t + i * 8) (mappedEntry page))
  | clear {i t : Nat} {p : List Nat} (hp : HwPath (i :: p)) (hpd : p.length + 1 = 4)
      (ht : hwTable mem cr3 p = some t) :
      Edit off cr3 mem [] (clearPresent mem (t + i * 8))
  | release {i t u : Nat} {p : List Nat} (hp : HwPath (i :: p)) (hpd : p.length + 1 < 4)
      (ht : hwTable mem cr3 p = some t) (hu : hwTable mem cr3 (i :: p) = some u)
      (hempty : tableIsEmpty mem u = true) :
      Edit off cr3 mem [.release u (clearPresent mem (t + i * 8))] (clearPresent mem (t + i * 8))

/-- Edits in turn, with all their calls. -/
inductive Edits (off cr3 : Nat) : PtMem → List PageCall → PtMem → Prop where
  | nil (mem : PtMem) : Edits off cr3 mem [] mem
  | cons {mem₁ mem₂ mem₃ : PtMem} {calls₁ calls₂ : List PageCall}
      (h : Edit off cr3 mem₁ calls₁ mem₂)
      (hs : Edits off cr3 mem₂ calls₂ mem₃) : Edits off cr3 mem₁ (calls₁ ++ calls₂) mem₃

theorem Edits.trans {off cr3 : Nat} {mem₁ mem₂ mem₃ : PtMem} {calls₁ calls₂ : List PageCall}
    (h : Edits off cr3 mem₁ calls₁ mem₂) (h' : Edits off cr3 mem₂ calls₂ mem₃) :
    Edits off cr3 mem₁ (calls₁ ++ calls₂) mem₃ := by
  induction h with
  | nil => exact h'
  | cons hedit _ ih =>
      rw [List.append_assoc]
      exact .cons hedit (ih h')

theorem Edit.edits {off cr3 : Nat} {mem mem' : PtMem} {calls : List PageCall}
    (h : Edit off cr3 mem calls mem') : Edits off cr3 mem calls mem' := by
  have hcons := Edits.cons h (.nil mem')
  rwa [List.append_nil] at hcons

/-- A property of the memory and the calls so far that every edit keeps. -/
theorem Edits.invariant {off cr3 : Nat} {I : PtMem → List PageCall → Prop}
    (hedit : ∀ {mem mem' calls log}, Edit off cr3 mem calls mem' → I mem log →
      I mem' (log ++ calls))
    {mem mem' : PtMem} {calls log : List PageCall} (h : Edits off cr3 mem calls mem')
    (hI : I mem log) : I mem' (log ++ calls) := by
  induction h generalizing log with
  | nil => rwa [List.append_nil]
  | cons hfirst _ ih =>
      rw [← List.append_assoc]
      exact ih (hedit hfirst hI)

/-! ## A fault -/

section Fault

variable {off cr3 faultAddr : Nat} {zeroed : ZeroedPages} {mem mem' : PtMem}

theorem edits_linkTable {i t page : Nat} {p : List Nat} (hp : HwPath (i :: p))
    (hpd : p.length + 1 < 4)
    (ht : hwTable mem cr3 p = some t) (hfresh : HwFresh mem cr3 (pa off page)) :
    Edits off cr3 mem (linkCalls off mem (t + i * 8) page)
    (linkTable off mem (t + i * 8) page) := by
  rw [linkCalls]
  split
  next habs => exact (Edit.link hp hpd ht habs hfresh).edits
  next hpres =>
    rw [linkTable, if_neg hpres]
    exact .nil mem

theorem edits_descend (h : HwTablesOk mem cr3) (hpml : pml4e64Index faultAddr < 64)
    (hz : zeroed.HwOk off mem cr3) :
    Edits off cr3 mem (descendCalls off cr3 faultAddr zeroed mem)
      (descend off cr3 faultAddr zeroed mem).1 := by
  have hpath := (hwPath_faultPath hpml).tail
  have hlinks := h.descendLinks hpml hz rfl rfl rfl rfl
  have h₁ := edits_linkTable hpath.tail.tail (by decide) rfl hz.pdpe_fresh
  have h₂ := edits_linkTable hpath.tail (by simp) hlinks.table₁ hlinks.fresh₁
  have h₃ := edits_linkTable hpath (by simp) hlinks.table₂ hlinks.fresh₂
  rw [descend, descendCalls, pmlSlot_eq]
  exact (h₁.trans h₂).trans h₃

/-- A fault is a sequence of edits. -/
theorem edits_petmemHandlePagefault {map : MemMap} {pools pools' : List BuddyMempool} {r : Int}
    (h : HwTablesOk mem cr3) (hpml : vaddrInMap faultAddr map = true → pml4e64Index faultAddr < 64)
    (hz : zeroed.HwOk off mem cr3)
    (hfault : petmemHandlePagefault off map cr3 faultAddr zeroed mem pools =
      some (r, mem', pools')) :
    Edits off cr3 mem (faultCalls off map cr3 faultAddr zeroed mem) mem' := by
  rw [petmemHandlePagefault] at hfault
  rw [faultCalls]
  split at hfault
  next hout =>
    cases hfault
    rw [if_pos hout]
    exact .nil mem
  next hin =>
    rw [if_neg hin]
    replace hpml := hpml (Bool.eq_true_of_not_eq_false hin)
    have hdown := edits_descend h hpml hz
    obtain ⟨-, -, t, ht, hslot⟩ := h.descend hpml hz
    simp only [hslot] at hfault
    split at hfault
    next habs =>
      obtain ⟨⟨page, pools₁⟩, -, heq⟩ := Option.bind_eq_some_iff.1 hfault
      cases heq
      have hpage := hdown.trans (Edit.mapPage page (hwPath_faultPath hpml) rfl ht habs).edits
      rwa [List.append_nil] at hpage
    next =>
      cases hfault
      exact hdown

end Fault

/-! ## A turn of the walk -/

section Turn

variable {off cr3 t₁ t₂ t₃ : Nat} {mem : PtMem} {w w' : Walk}

/-- At the end of a table the table is released if it is empty. -/
theorem edits_release (off : Nat) {i t u : Nat} {p : List Nat} (hp : pageTables.ValidPath (i :: p))
    (hpd : p.length + 1 < 4) (ht : pageTables.tableAt mem (cr3ToPml4e64 cr3) p = some t)
    (hu : pageTables.tableAt mem (cr3ToPml4e64 cr3) (i :: p) = some u) :
    Edits off cr3 mem (releaseCalls mem (pageTables.slot p.length t i))
      (if tableIsEmpty mem (baseToPageAddr (mem (pageTables.slot p.length t i)).baseAddr)
        then clearPresent mem (pageTables.slot p.length t i) else mem) := by
  have hbase := baseToPageAddr_of_tableAt rfl ht hu
  have hpath := hwPath_hwPath hp (Nat.le_of_lt hpd)
  rw [hwPath_cons] at hpath
  rw [← hwTable_hwPath] at ht hu
  rw [hwPath_cons] at hu
  rw [releaseCalls, hbase, slot_eq_hwIndex]
  split
  next hempty =>
    refine (Edit.release hpath ?_ ht hu hempty).edits
    rw [length_hwPath]
    exact hpd
  next => exact .nil mem

theorem edits_incrementPdpeIndex (off : Nat) (hpml : w.pmlIndex < 64)
    (ht₁ : pageTables.tableAt w.mem (cr3ToPml4e64 cr3) [w.pmlIndex] = some t₁) :
    Edits off cr3 w.mem (incrementPdpeCalls (pmlSlot cr3 w.pmlIndex) w)
      (incrementPdpeIndex (pmlSlot cr3 w.pmlIndex) w).mem := by
  rw [incrementPdpeCalls, incrementPdpeIndex]
  split
  · exact edits_release off (p := []) ⟨hpml, trivial⟩ (by decide) rfl ht₁
  · exact .nil _

theorem edits_incrementPdeIndex (off : Nat) (h : TablesOk w.mem cr3) (hr : w.InRange)
    (ht₁ : pageTables.tableAt w.mem (cr3ToPml4e64 cr3) [w.pmlIndex] = some t₁)
    (ht₂ : pageTables.tableAt w.mem (cr3ToPml4e64 cr3) [w.pdpeIndex, w.pmlIndex] = some t₂) :
    Edits off cr3 w.mem
      (incrementPdeCalls (pageTables.slot 1 t₁ w.pdpeIndex) (pmlSlot cr3 w.pmlIndex) w)
      (incrementPdeIndex (pageTables.slot 1 t₁ w.pdpeIndex) (pmlSlot cr3 w.pmlIndex) w).mem := by
  have hvalid : pageTables.ValidPath [w.pdpeIndex, w.pmlIndex] := ⟨hr.pdpe, hr.pml, trivial⟩
  rw [incrementPdeCalls, incrementPdeIndex]
  split
  · have hrelease := edits_release off hvalid (by simp) ht₁ ht₂
    -- the table above is still there
    obtain ⟨-, hother⟩ := h.release hvalid (by simp) ht₁ ht₂ rfl
    have ht₁' := (hother [w.pmlIndex] hvalid.2 (by simp) (Layout.not_cons_suffix_self _ _)).trans
      ht₁
    rw [← baseToPageAddr_of_tableAt rfl ht₁ ht₂] at ht₁'
    exact hrelease.trans (edits_incrementPdpeIndex off (w := { w with
      pdeIndex := 0
      mem := _ }) hr.pml ht₁')
  · exact .nil _

theorem edits_incrementPteIndex (off : Nat) (h : TablesOk w.mem cr3) (hr : w.InRange)
    (ht₁ : pageTables.tableAt w.mem (cr3ToPml4e64 cr3) [w.pmlIndex] = some t₁)
    (ht₂ : pageTables.tableAt w.mem (cr3ToPml4e64 cr3) [w.pdpeIndex, w.pmlIndex] = some t₂)
    (ht₃ : pageTables.tableAt w.mem (cr3ToPml4e64 cr3) [w.pdeIndex, w.pdpeIndex, w.pmlIndex] =
      some t₃) :
    Edits off cr3 w.mem
      (incrementPteCalls (pageTables.slot 2 t₂ w.pdeIndex) (pageTables.slot 1 t₁ w.pdpeIndex)
        (pmlSlot cr3 w.pmlIndex) w)
      (incrementPteIndex (pageTables.slot 2 t₂ w.pdeIndex) (pageTables.slot 1 t₁ w.pdpeIndex)
        (pmlSlot cr3 w.pmlIndex) w).mem := by
  have hvalid : pageTables.ValidPath [w.pdeIndex, w.pdpeIndex, w.pmlIndex] :=
    ⟨hr.pde, hr.pdpe, hr.pml, trivial⟩
  rw [incrementPteCalls, incrementPteIndex]
  split
  · have hrelease := edits_release off hvalid (by simp) ht₂ ht₃
    obtain ⟨hsame, hother⟩ := h.release hvalid (by simp) ht₂ ht₃ rfl
    have ht₂' := (hother [w.pdpeIndex, w.pmlIndex] hvalid.2 (by simp)
      (Layout.not_cons_suffix_self _ _)).trans ht₂
    have ht₁' := (hother [w.pmlIndex] hvalid.2.2 (by simp) fun hs =>
      Layout.not_cons_suffix_self _ _ (hs.trans (List.suffix_cons _ _))).trans ht₁
    have htables := hsame.tables
    rw [← baseToPageAddr_of_tableAt rfl ht₂ ht₃] at ht₁' ht₂' htables
    exact hrelease.trans (edits_incrementPdeIndex off (w := { w with
      pteIndex := 0
      mem := _ }) htables ⟨hr.pml, hr.pdpe, hr.pde, Nat.zero_lt_succ _⟩ ht₁' ht₂')
  · exact .nil _

/-- A turn of the walk is a sequence of edits. -/
theorem edits_walkStep (h : TablesOk w.mem cr3) (hr : w.InRange)
    (hstep : walkStep off cr3 w = some w') : Edits off cr3 w.mem (turnCalls cr3 w) w'.mem := by
  have hvalid := hr.validPath
  have hpath : HwPath (hwPath w.path) := hwPath_hwPath hvalid (Nat.le_refl 4)
  rw [walkStep] at hstep
  rw [turnCalls]
  dsimp only at hstep ⊢
  split at hstep
  next habs =>
    obtain rfl := Option.some.inj hstep
    rw [if_pos habs]
    exact .nil _
  next hpml =>
    rw [if_neg hpml]
    have ht₁ := tableAt_of_present (p := []) rfl rfl (Bool.eq_true_of_not_eq_false hpml)
    split at hstep
    next habs =>
      obtain rfl := Option.some.inj hstep
      rw [if_pos habs]
      exact edits_incrementPdpeIndex off (w := { w with
        numPagesFreed := w.numPagesFreed + (512 - w.pdeIndex) * (512 - w.pteIndex) }) hr.pml ht₁
    next hpdpe =>
      rw [if_neg hpdpe]
      have ht₂ := tableAt_of_present rfl ht₁ (Bool.eq_true_of_not_eq_false hpdpe)
      split at hstep
      next habs =>
        obtain rfl := Option.some.inj hstep
        rw [if_pos habs]
        exact edits_incrementPdeIndex off (w := { w with
          numPagesFreed := w.numPagesFreed + (512 - w.pteIndex) }) h
          ⟨hr.pml, hr.pdpe, hr.pde, hr.pte⟩ ht₁ ht₂
      next hpde =>
        rw [if_neg hpde]
        have ht₃ := tableAt_of_present rfl ht₂ (Bool.eq_true_of_not_eq_false hpde)
        split at hstep
        next hpte =>
          obtain ⟨pools, -, rfl⟩ := Option.map_eq_some_iff.1 hstep
          rw [if_pos hpte]
          -- the page is taken out before the increments
          obtain ⟨hok, htables, -⟩ := clearPresent_leaf h hr ht₃
          have hclear : Edit off cr3 w.mem [] _ :=
            .clear hpath rfl ((hwTable_hwPath _ _ _).trans ht₃)
          exact hclear.edits.trans (edits_incrementPteIndex off (w := { w with
            mem := clearPresent w.mem (pageTables.slot 3 _ w.pteIndex)
            pools := pools
            numPagesFreed := w.numPagesFreed + 1 }) hok ⟨hr.pml, hr.pdpe, hr.pde, hr.pte⟩
            ((htables _ hvalid.2.2.2 (by simp)).trans ht₁)
              ((htables _ hvalid.2.2 (by simp)).trans ht₂)
            ((htables _ hvalid.2 (by simp)).trans ht₃))
        next hpte =>
          obtain rfl := Option.some.inj hstep
          rw [if_neg hpte]
          exact edits_incrementPteIndex off (w := { w with
            numPagesFreed := w.numPagesFreed + 1 }) h ⟨hr.pml, hr.pdpe, hr.pde, hr.pte⟩ ht₁ ht₂ ht₃

end Turn

/-! ## The tables stay a tree -/

/-- The page tables and the calls so far. The tables form a tree of pages that are not given back,
only tables without present entries have been given back, and none of them twice. -/
structure TableLedger (cr3 : Nat) (mem : PtMem) (log : List PageCall) : Prop where
  tree : HwTablesOk mem cr3
  live : ∀ q t, HwPath q → q.length < 4 → hwTable mem cr3 q = some t → ¬ GivenBack t log
  empty : ∀ t m, .release t m ∈ log → ∀ i < 512, (m (t + i * 8)).present = false
  once : ReleasedOnce log

namespace TableLedger

variable {off cr3 : Nat} {mem mem' : PtMem} {calls log : List PageCall}

/-- A memory with no more tables. -/
theorem of_imp (h : TableLedger cr3 mem log) (htree : HwTablesOk mem' cr3)
    (hold : ∀ q t, HwPath q → q.length < 4 → hwTable mem' cr3 q = some t → hwTable mem cr3 q =
      some t) :
    TableLedger cr3 mem' (log ++ []) := by
  rw [List.append_nil]
  exact ⟨htree, fun q t hq hlen ht => h.live q t hq hlen (hold q t hq hlen ht), h.empty, h.once⟩

/-- An entry that is cleared stays cleared in an empty table. -/
theorem present_clearPresent {slot a : Nat} (h : (mem a).present = false) :
    (clearPresent mem slot a).present = false := by
  rw [clearPresent, Function.update_apply]
  split
  · rfl
  · exact h

theorem edit (hedit : Edit off cr3 mem calls mem') (h : TableLedger cr3 mem log) :
    TableLedger cr3 mem' (log ++ calls) := by
  cases hedit with
  | @link i t page p hp hpd ht habs hfresh =>
      obtain ⟨htree, hentries⟩ := h.tree.linkTable hp hpd ht hfresh
      refine ⟨htree, fun q u hq hlen hu hback => ?_, fun u m hm => ?_,
        h.once.append_singleton fun r d hc => by cases hc⟩
      · rcases givenBack_append_singleton.1 hback with ⟨d, hd⟩ | ⟨hback, hne⟩
        · cases hd
        · -- an old table, or the new one, which has just been taken
          rcases hwTable_of_fillIn hentries hq hu with hold | ⟨-, -, heq⟩
          · exact h.live q u hq hlen hold hback
          · apply hne
            rw [heq]
            exact congrArg acquire (baseToPageAddr_pageToBaseAddr hfresh.aligned hfresh.bound).symm
      · rcases List.mem_append.1 hm with hm | hm
        · exact h.empty u m hm
        · cases List.mem_singleton.1 hm
  | mapPage page hp hpd ht habs =>
      obtain ⟨htree, hentries⟩ := h.tree.mapPage hp hpd ht habs page
      refine h.of_imp htree fun q u hq hlen hu => ?_
      rcases hwTable_of_fillIn hentries hq hu with hold | ⟨rfl, -, -⟩
      · exact hold
      · exact absurd hpd (Nat.ne_of_lt hlen)
  | clear hp hpd ht =>
      obtain ⟨htree, hentries⟩ := h.tree.clearPresent hp ht (hwEntry_below_page hpd)
      exact h.of_imp htree fun q u hq _ hu => ((hwTable_clear_eq_some hentries hq).1 hu).1
  | @release i t u p hp hpd ht hu hempty =>
      obtain ⟨htree, hentries⟩ := h.tree.clearPresent hp ht (hwEntry_below_empty hu hempty)
      refine ⟨htree, fun q u' hq hlen hu' hback => ?_, fun u' m hm => ?_,
        h.once.append_singleton fun r d hc => ?_⟩
      · obtain ⟨hold, hne⟩ := (hwTable_clear_eq_some hentries hq).1 hu'
        rcases givenBack_append_singleton.1 hback with ⟨d, hd⟩ | ⟨hback, -⟩
        · -- the table that was released is not linked anywhere else
          cases hd
          exact hne (h.tree.inj q (i :: p) u hq.1 hp.1 hlen hpd hold hu)
        · exact h.live q u' hq hlen hold hback
      · rcases List.mem_append.1 hm with hm | hm
        · exact h.empty u' m hm
        · cases List.mem_singleton.1 hm
          exact fun j hj => present_clearPresent (present_of_tableIsEmpty hempty hj)
      · cases hc
        exact h.live (i :: p) u hp hpd hu

end TableLedger

/-! ## Runs -/

section Runs

variable {off cr3 : Nat} {s t : AddressSpace}

/-- What an event does to the page tables is a sequence of edits. -/
theorem SpaceEvent.edits (h : SpaceWf cr3 s) {e : SpaceEvent} (hkernel : e.KernelOk off cr3 s)
    (hrun : e.run off cr3 s = some t) :
    Edits off cr3 s.walk.mem (e.pageCalls off cr3 s) t.walk.mem := by
  cases e with
  | allocVspace numPages =>
      rw [SpaceEvent.run, Option.ite_none_right_eq_some] at hrun
      obtain rfl := Option.some.inj hrun.2
      exact .nil _
  | access page =>
      rw [SpaceEvent.run, Option.ite_none_right_eq_some] at hrun
      obtain ⟨e, -, rfl⟩ := Option.map_eq_some_iff.1 hrun.2
      exact .nil _
  | pageFault faultAddr zeroed =>
      rw [SpaceEvent.run, Option.ite_none_right_eq_some] at hrun
      obtain ⟨⟨r, mem, pools⟩, hfault, rfl⟩ := Option.map_eq_some_iff.1 hrun.2
      refine edits_petmemHandlePagefault h.tables (fun hin => ?_) (hkernel.1.hwOk hkernel.2) hfault
      rw [h.map.pml4e64Index_eq_zero hin]
      decide
  | freeVspace vaddr =>
      rw [SpaceEvent.run, Option.ite_none_right_eq_some] at hrun
      obtain rfl := Option.some.inj hrun.2
      exact .nil _
  | turn =>
      obtain ⟨n, hn, hrun⟩ := Option.bind_eq_some_iff.1 hrun
      rw [Option.ite_none_right_eq_some] at hrun
      obtain ⟨hlt, hrun⟩ := hrun
      obtain ⟨w, hstep, rfl⟩ := Option.map_eq_some_iff.1 hrun
      exact edits_walkStep h.tables.tablesOk (h.inRange hn hlt) hstep
  | freeReturn =>
      obtain ⟨n, -, hrun⟩ := Option.bind_eq_some_iff.1 hrun
      rw [Option.ite_none_left_eq_some] at hrun
      obtain rfl := Option.some.inj hrun.2
      exact .nil _

theorem spaceWf_of_reach {events : List SpaceEvent} {s : TableSpace}
    (h : (tableSpaces off cr3).Reach events s) : SpaceWf cr3 s.space := by
  apply h.invariant (I := fun s => SpaceWf cr3 s.space)
  · intro s hinit
    exact .of_init off hinit.1
  · intro s e t hs hst
    exact hs.step hst.1.1 hst.1.2

/-- A property of the memory and the calls that every edit keeps holds in all runs. -/
theorem tableSpaces_invariant {I : PtMem → List PageCall → Prop}
    (hinit : ∀ mem, HwTablesOk mem cr3 → I mem [])
    (hedit : ∀ {mem mem' calls log}, Edit off cr3 mem calls mem' → I mem log →
      I mem' (log ++ calls))
    {events : List SpaceEvent} {s : TableSpace} (h : (tableSpaces off cr3).Reach events s) :
    I s.space.walk.mem s.calls := by
  apply h.history (I := fun _ s => I s.space.walk.mem s.calls)
  · rintro s ⟨hspace, hcalls⟩
    rw [hcalls]
    exact hinit _ hspace.2.1
  · rintro _ s e t hreach hs ⟨hst, hcalls⟩
    rw [hcalls]
    exact (SpaceEvent.edits (spaceWf_of_reach hreach) hst.1 hst.2).invariant hedit hs

end Runs

theorem tableLedger_of_reach {off cr3 : Nat} {events : List SpaceEvent} {s : TableSpace}
    (h : (tableSpaces off cr3).Reach events s) : TableLedger cr3 s.space.walk.mem s.calls :=
  tableSpaces_invariant (I := TableLedger cr3)
    (fun _ htree => ⟨htree, fun _ _ _ _ _ => not_givenBack_nil,
      fun _ _ hm => absurd hm List.not_mem_nil, releasedOnce_nil⟩) TableLedger.edit h

/-- In every state of every run, also in the middle of a walk, the tables that the processor finds
form a tree of pages that are not given back; a page is given back only when none of its entries is
present, and not again before it has been taken again. -/
theorem page_tables_stay_tree {off cr3 : Nat} {events : List SpaceEvent} {s : TableSpace}
    (h : (tableSpaces off cr3).Reach events s) :
    (∀ p q t, HwPath p → HwPath q → p.length < 4 → q.length < 4 →
      hwTable s.space.walk.mem cr3 p = some t → hwTable s.space.walk.mem cr3 q = some t → p = q) ∧
    (∀ q t, HwPath q → q.length < 4 → hwTable s.space.walk.mem cr3 q = some t →
      ¬ GivenBack t s.calls) ∧
    (∀ t mem, .release t mem ∈ s.calls → ∀ i < 512, (mem (t + i * 8)).present = false) ∧
    ReleasedOnce s.calls := by
  have hledger := tableLedger_of_reach h
  exact ⟨fun p q t hp hq hpd hqd => hledger.tree.inj p q t hp.1 hq.1 hpd hqd, hledger.live,
    hledger.empty, hledger.once⟩

/-- A new address space before any call. -/
def newTableSpace : TableSpace := ⟨newSpace, []⟩

/-- The call gives a page back. -/
private def releases (page : Nat) : PageCall → Bool
  | .release t _ => t = page
  | .acquire _ => false

/-- The first fault is in the last page of a page table and takes three pages. When the page is
freed, the turn of the walk leaves the table and gives it back; the directory above it is kept. -/
theorem page_tables_stay_tree_released :
    ∃ s mem, (tableSpaces 0xffff880000000000 0x1000).Reach
      [.allocVspace 511, .allocVspace 1, .pageFault 0x10001ff000 threePages,
        .freeVspace 0x10001ff000, .turn] s ∧
      .release 0x4000 mem ∈ s.calls ∧ (∀ i < 512, (mem (0x4000 + i * 8)).present = false) ∧
      hwTable s.space.walk.mem 0x1000 [64, 0] = some 0x3000 ∧ ¬ GivenBack 0x3000 s.calls := by
  have hinit : (tableSpaces 0xffff880000000000 0x1000).init newTableSpace :=
    ⟨addressSpaces_init_newSpace 0xffff880000000000, rfl⟩
  have hfreed : ∃ s, (tableSpaces 0xffff880000000000 0x1000).Reach
      [.allocVspace 511, .allocVspace 1, .pageFault 0x10001ff000 threePages,
        .freeVspace 0x10001ff000] s ∧
      (SpaceEvent.turn.pageCalls 0xffff880000000000 0x1000 s.space).any (releases 0x4000) = true ∧
      (SpaceEvent.turn.run 0xffff880000000000 0x1000 s.space).map
        (fun t => hwTable t.walk.mem 0x1000 [64, 0]) = some (some 0x3000) := by
    refine ⟨⟨_, _⟩, (Machine.Reach.init hinit).append_path
      (.cons (t := ⟨_, []⟩) ⟨⟨trivial, rfl⟩, rfl⟩
        (.cons (t := ⟨_, []⟩) ⟨⟨trivial, rfl⟩, rfl⟩
          (.cons (t := ⟨_, _⟩) ⟨⟨⟨threePages_ok, noHwTable_threePages⟩, rfl⟩, rfl⟩
            (.cons ⟨⟨trivial, rfl⟩, rfl⟩ .nil)))), ?_, ?_⟩
    · decide +kernel
    · decide +kernel
  obtain ⟨s, hreach, hrelease, hturn⟩ := hfreed
  obtain ⟨t, hrun, htable⟩ := Option.map_eq_some_iff.1 hturn
  have hstep : (tableSpaces 0xffff880000000000 0x1000).step s .turn
      ⟨t, s.calls ++ SpaceEvent.turn.pageCalls 0xffff880000000000 0x1000 s.space⟩ :=
    ⟨⟨trivial, hrun⟩, rfl⟩
  obtain ⟨call, hcall, hpage⟩ := List.any_eq_true.1 hrelease
  cases call with
  | acquire _ => cases hpage
  | release page mem =>
      obtain rfl : page = 0x4000 := of_decide_eq_true hpage
      have hmem : LedgerCall.release 0x4000 mem ∈
          s.calls ++ SpaceEvent.turn.pageCalls 0xffff880000000000 0x1000 s.space :=
        List.mem_append_right _ hcall
      obtain ⟨-, hlive, hempty, -⟩ := page_tables_stay_tree (hreach.step hstep)
      refine ⟨_, mem, hreach.step hstep, hmem, hempty 0x4000 mem hmem, htable, ?_⟩
      exact hlive [64, 0] 0x3000 ⟨⟨by decide, by decide, trivial⟩, by decide⟩ (by decide) htable

end PetKernel.VirtualMemory
