import PetKernel.VirtualMemory.TablePages
import PetKernel.VirtualMemory.WalkEnd

/-!
# Tables that are given back

`petmem_free_vspace` looks whether a table has become empty when one of its indices starts again. A
walk that stops inside a table does not look at it, and so a table may stay linked that has no entry
left: one page that is allocated, touched and freed leaves three of them behind
(`freed_page_leaves_tables`).

A table that was taken can only be empty while the cursor of the walk stands inside of it (`Tidy`).
Where the walk stops, and which pages it takes out before, is known from the map and the tables
before the call. So a call leaves no empty table exactly if each table inside which it will stop has
a page that is mapped now and that the walk does not pass (`EndsInUse`); and then the tables of an
address space without allocations have all been given back (`tables_given_back_iff`).
-/

set_option autoImplicit false

namespace PetKernel.VirtualMemory

open PetKernel.Library LedgerCall

/-! ## Empty tables -/

/-- A table that was taken and that is linked below the root, at the end of the path `q`. -/
structure TakenAt (cr3 : Nat) (s : TableSpace) (q : List Nat) (t : Nat) : Prop where
  path : HwPath q
  below : q ≠ []
  length : q.length < 4
  table : hwTable s.space.walk.mem cr3 q = some t
  taken : Taken t s.calls

/-- Every table that was taken and is linked has an entry that is present. -/
def NoEmptyTable (cr3 : Nat) (s : TableSpace) : Prop :=
  ∀ q t, TakenAt cr3 s q t → ∃ i < 512, (s.space.walk.mem (t + i * 8)).present = true

/-- A page is mapped whose path goes through the end of `q`. -/
def MapsBelow (mem : PtMem) (cr3 : Nat) (q : List Nat) : Prop :=
  ∃ v < hwMaxPage, q <:+ pathOf v ∧ hwPteOf mem cr3 v ≠ none

/-- The path goes on from `p`, and not to the first page below `p`. -/
def Inside (p path : List Nat) : Prop := ∃ r, r ++ p = path ∧ ∃ i ∈ r, i ≠ 0

theorem Inside.suffix {p path : List Nat} (h : Inside p path) : p <:+ path := by
  obtain ⟨r, hr, -⟩ := h
  exact ⟨r, hr⟩

theorem Inside.cons {p path : List Nat} (h : Inside p path) (j : Nat) : Inside p (j :: path) := by
  obtain ⟨r, rfl, i, hi, hne⟩ := h
  exact ⟨j :: r, rfl, i, List.mem_cons_of_mem j hi, hne⟩

theorem inside_cons_of_suffix {p path : List Nat} {j : Nat} (h : p <:+ path) (hj : j ≠ 0) :
    Inside p (j :: path) := by
  obtain ⟨r, rfl⟩ := h
  exact ⟨j :: r, rfl, j, List.mem_cons_self, hj⟩

/-- Each table inside which the walk stops, if it was taken, has a page that is still mapped. -/
def StopsInUse (cr3 : Nat) (s : TableSpace) : Prop :=
  ∀ p t, Inside p s.space.walk.path → TakenAt cr3 s (hwPath p) t →
    MapsBelow s.space.walk.mem cr3 (hwPath p)

/-! ## The increments -/

/-- The table at the end of a path is there and has no entry. -/
def EmptyAt (mem : PtMem) (cr3 : Nat) (p : List Nat) : Prop :=
  ∃ t, pageTables.tableAt mem (cr3ToPml4e64 cr3) p = some t ∧ tableIsEmpty mem t = true

/-- The address of an entry on the way to the end of a path. -/
def OnWay (mem : PtMem) (cr3 : Nat) (p : List Nat) (a : Nat) : Prop :=
  ∃ j q t, j :: q <:+ p ∧ pageTables.tableAt mem (cr3ToPml4e64 cr3) q = some t ∧
    a = pageTables.slot q.length t j

section Increments

variable {off cr3 : Nat} {w w' : Walk} {mem mem' : PtMem} {i t : Nat} {p : List Nat}

/-- The entries on the way to a table are present. -/
theorem present_of_onWay {S : Nat → Prop} {u a : Nat} (hclears : Clears S mem mem')
    (hu : pageTables.tableAt mem' (cr3ToPml4e64 cr3) p = some u) (ha : OnWay mem cr3 p a) :
    (mem' a).present = true := by
  obtain ⟨j, q, t, hs, ht, rfl⟩ := ha
  obtain ⟨v, hv⟩ := Layout.tableAt_of_suffix hu hs
  obtain ⟨e, he, hpres, -⟩ := Layout.tableAt_cons_eq_some.1 hv
  obtain ⟨t', ht', rfl⟩ := Layout.entryAt_cons_eq_some.1 he
  -- the table was there before as well
  have hold := Layout.tableAt_of_present (fun _ => hclears.eq_of_present) ht'
  obtain rfl := Option.some.inj (ht.symm.trans hold)
  exact hpres

/-- A table that is looked at before the indices above are incremented does not stay empty. -/
theorem not_emptyAt_of_release {l : Nat} (hl : p.length = l)
    (ht : pageTables.tableAt mem (cr3ToPml4e64 cr3) p = some t)
    (hclears : Clears (OnWay mem cr3 p)
      (if tableIsEmpty mem (baseToPageAddr (mem (pageTables.slot l t i)).baseAddr)
        then clearPresent mem (pageTables.slot l t i) else mem) mem') :
    ¬ EmptyAt mem' cr3 (i :: p) := by
  subst hl
  rintro ⟨u, hu, hempty⟩
  have hway : OnWay mem cr3 (i :: p) (pageTables.slot p.length t i) :=
    ⟨i, p, t, List.suffix_refl _, ht, rfl⟩
  have hup : ∀ a, OnWay mem cr3 p a → OnWay mem cr3 (i :: p) a := fun a ⟨j, q, t, hs, ha⟩ =>
    ⟨j, q, t, hs.trans (List.suffix_cons i p), ha⟩
  have hall : Clears (OnWay mem cr3 (i :: p)) mem mem' :=
    (Clears.release hway).trans (hclears.mono hup)
  have hold := Layout.tableAt_of_present (fun _ => hall.eq_of_present) hu
  rw [baseToPageAddr_of_tableAt rfl ht hold] at hclears
  -- the entry that leads to the table is still present, so that the table was not empty
  have hslot := present_of_onWay hall hu hway
  have hkept : ¬ tableIsEmpty mem u = true := by
    intro hbefore
    rw [if_pos hbefore] at hclears
    rw [hclears.eq_of_present hslot, clearPresent, Function.update_self] at hslot
    cases hslot
  rw [if_neg hkept] at hclears
  -- and what is cleared after that are entries above it
  refine hkept (tableIsEmpty_iff.2 fun j hj => ?_)
  have habs := present_of_tableIsEmpty hempty hj
  rcases hclears (u + j * 8) with hsame | ⟨-, hon⟩
  · rw [← hsame]
    exact habs
  · rw [present_of_onWay hall hu (hup _ hon)] at habs
    cases habs

theorem inside_incrementPdpeIndex (hp : p <:+ [w.pmlIndex]) (hne : p ≠ [])
    (hw' : w' = incrementPdpeIndex (pmlSlot cr3 w.pmlIndex) w) (hempty : EmptyAt w'.mem cr3 p) :
    Inside p [w'.pdpeIndex, w'.pmlIndex] := by
  rw [incrementPdpeIndex] at hw'
  split at hw'
  next =>
    rw [hw'] at hempty
    rcases List.suffix_cons_iff.1 hp with rfl | hp
    · exact absurd hempty (not_emptyAt_of_release (p := []) rfl rfl Clears.refl)
    · exact absurd (List.suffix_nil.1 hp) hne
  next =>
    rw [hw']
    exact inside_cons_of_suffix hp (Nat.succ_ne_zero _)

theorem inside_incrementPdeIndex {t₁ : Nat} (hp : p <:+ [w.pdpeIndex, w.pmlIndex]) (hne : p ≠ [])
    (ht₁ : pageTables.tableAt w.mem (cr3ToPml4e64 cr3) [w.pmlIndex] = some t₁)
    (hw' : w' = incrementPdeIndex (pageTables.slot 1 t₁ w.pdpeIndex) (pmlSlot cr3 w.pmlIndex) w)
    (hempty : EmptyAt w'.mem cr3 p) : Inside p [w'.pdeIndex, w'.pdpeIndex, w'.pmlIndex] := by
  rw [incrementPdeIndex] at hw'
  split at hw'
  next =>
    rcases List.suffix_cons_iff.1 hp with rfl | hp
    · rw [hw'] at hempty
      have hpml : OnWay w.mem cr3 [w.pmlIndex] (pmlSlot cr3 w.pmlIndex) :=
        ⟨_, [], _, List.suffix_refl _, rfl, rfl⟩
      exact absurd hempty (not_emptyAt_of_release rfl ht₁ (Clears.incrementPdpeIndex _ fun _ =>
        hpml))
    · exact (inside_incrementPdpeIndex (w := { w with
        pdeIndex := 0
        mem := _ }) hp hne hw' hempty).cons _
  next =>
    rw [hw']
    exact inside_cons_of_suffix hp (Nat.succ_ne_zero _)

/-- A path that is not empty begins with the index of the first level. -/
theorem pml_suffix_of_suffix (hp : p <:+ w.path) (hne : p ≠ []) : [w.pmlIndex] <:+ p :=
  List.suffix_of_suffix_length_le w.pml_suffix_path hp (List.length_pos_of_ne_nil hne)

theorem inside_incrementPteIndex {t₁ t₂ : Nat} (hp : p <:+ [w.pdeIndex, w.pdpeIndex, w.pmlIndex])
    (hne : p ≠ []) (ht₁ : pageTables.tableAt w.mem (cr3ToPml4e64 cr3) [w.pmlIndex] = some t₁)
    (ht₂ : pageTables.tableAt w.mem (cr3ToPml4e64 cr3) [w.pdpeIndex, w.pmlIndex] = some t₂)
    (hw' : w' = incrementPteIndex (pageTables.slot 2 t₂ w.pdeIndex)
      (pageTables.slot 1 t₁ w.pdpeIndex) (pmlSlot cr3 w.pmlIndex) w)
    (hempty : EmptyAt w'.mem cr3 p) : Inside p w'.path := by
  rw [incrementPteIndex] at hw'
  split at hw'
  next =>
    have hpml : OnWay w.mem cr3 [w.pdpeIndex, w.pmlIndex] (pmlSlot cr3 w.pmlIndex) :=
      ⟨_, [], _, List.suffix_cons _ _, rfl, rfl⟩
    have hpdpe : OnWay w.mem cr3 [w.pdpeIndex, w.pmlIndex] (pageTables.slot 1 t₁ w.pdpeIndex) :=
      ⟨_, _, _, List.suffix_refl _, ht₁, rfl⟩
    rcases List.suffix_cons_iff.1 hp with rfl | hp'
    · rw [hw'] at hempty
      exact absurd hempty (not_emptyAt_of_release rfl ht₂
        (Clears.incrementPdeIndex _ (fun _ => hpdpe) fun _ _ => hpml))
    · obtain ⟨mem₁, hmem₁⟩ : ∃ mem₁, mem₁ =
          if pteTableIsEmpty w.mem (baseToPageAddr
            (w.mem (pageTables.slot 2 t₂ w.pdeIndex)).baseAddr)
            then clearPresent w.mem (pageTables.slot 2 t₂ w.pdeIndex) else w.mem := ⟨_, rfl⟩
      simp only [← hmem₁] at hw'
      have hrelease : Clears (fun _ => True) w.mem mem₁ := hmem₁ ▸ Clears.release trivial
      have hinc : Clears (fun _ => True) mem₁ w'.mem :=
        hw' ▸ Clears.incrementPdeIndex _ (fun _ => trivial) fun _ _ => trivial
      -- the table of the first level is still there
      obtain ⟨u, hu, -⟩ := id hempty
      obtain ⟨t, ht⟩ := Layout.tableAt_of_suffix hu
        (pml_suffix_of_suffix (hp.trans (List.suffix_cons _ _)) hne)
      have ht' := Layout.tableAt_of_present (fun _ => hinc.eq_of_present) ht
      have hold := Layout.tableAt_of_present (fun _ => hrelease.eq_of_present) ht'
      obtain rfl := Option.some.inj (ht₁.symm.trans hold)
      exact (inside_incrementPdeIndex (w := { w with
        pteIndex := 0
        mem := mem₁ }) hp' hne ht' hw' hempty).cons _
  next =>
    rw [hw']
    exact inside_cons_of_suffix hp (Nat.succ_ne_zero _)

/-- After a turn, a table on the way to the page that it has dealt with is only empty if the cursor
still stands inside of it. -/
theorem inside_walkStep (h : TablesOk w.mem cr3) (hr : w.InRange) (hp : p <:+ w.path) (hne : p ≠ [])
    (hlen : p.length < 4) (hstep : walkStep off cr3 w = some w') (hempty : EmptyAt w'.mem cr3 p) :
    Inside p w'.path := by
  -- the table was there before the turn
  obtain ⟨u, hu, -⟩ := id hempty
  have hold := Layout.tableAt_of_present (fun _ => (walkStep_clears hstep).eq_of_present) hu
  replace hp : p <:+ [w.pdeIndex, w.pdpeIndex, w.pmlIndex] := by
    refine (List.suffix_cons_iff.1 hp).resolve_left ?_
    rintro rfl
    exact absurd hlen (Nat.lt_irrefl 4)
  have hcase := turnCase off cr3 w
  rw [hstep] at hcase
  generalize turnFrame cr3 w = frame at hcase
  generalize hres : some w' = res at hcase
  cases hcase with
  | absentPml habs =>
      exact absurd ⟨u, hold⟩
        (habs.not_tableAt (pml_suffix_of_suffix (hp.trans (List.suffix_cons _ _)) hne))
  | absentPdpe ht₁ habs =>
      rcases List.suffix_cons_iff.1 hp with rfl | hp
      · exact absurd ⟨u, hold⟩ (habs.not_tableAt (List.suffix_cons _ _))
      rcases List.suffix_cons_iff.1 hp with rfl | hp
      · exact absurd ⟨u, hold⟩ (habs.not_tableAt (List.suffix_refl _))
      obtain rfl := Option.some.inj hres
      exact ((inside_incrementPdpeIndex (w := { w with
        numPagesFreed := w.numPagesFreed + (512 - w.pdeIndex) * (512 - w.pteIndex) })
        hp hne rfl hempty).cons 0).cons 0
  | absentPde ht₁ ht₂ habs =>
      rcases List.suffix_cons_iff.1 hp with rfl | hp
      · exact absurd ⟨u, hold⟩ (habs.not_tableAt (List.suffix_refl _))
      obtain rfl := Option.some.inj hres
      exact (inside_incrementPdeIndex (w := { w with
        numPagesFreed := w.numPagesFreed + (512 - w.pteIndex) }) hp hne ht₁ rfl hempty).cons 0
  | absentPte ht₁ ht₂ ht₃ habs =>
      exact inside_incrementPteIndex (w := { w with
        numPagesFreed := w.numPagesFreed + 1 }) hp hne ht₁ ht₂ (Option.some.inj hres) hempty
  | page ht₁ ht₂ ht₃ he =>
      obtain ⟨pools, -, hw'⟩ := Option.map_eq_some_iff.1 hres.symm
      obtain ⟨-, htables, -⟩ := clearPresent_leaf h hr ht₃
      have hvalid := hr.validPath
      exact inside_incrementPteIndex (w := { w with
        mem := clearPresent w.mem (pageTables.slot 3 _ w.pteIndex)
        pools := pools
        numPagesFreed := w.numPagesFreed + 1 }) hp hne
        ((htables _ hvalid.2.2.2 (by simp)).trans ht₁) ((htables _ hvalid.2.2 (by simp)).trans ht₂)
        hw'.symm hempty

end Increments

/-! ## A turn -/

section Turn

variable {off cr3 : Nat} {w w' : Walk} {q : List Nat} {t : Nat}

/-- A turn does not touch the tables that are not on the way to the page at the cursor. -/
theorem walkStep_eq_of_not_suffix (h : HwTablesOk w.mem cr3) (hr : w.InRange)
    (hstep : walkStep off cr3 w = some w') (hq : HwPath q) (hlen : q.length < 4)
    (ht : hwTable w.mem cr3 q = some t) (hoff : ∀ p, p <:+ w.path → hwPath p ≠ q) {i : Nat}
    (hi : i < 512) : w'.mem (t + i * 8) = w.mem (t + i * 8) := by
  rcases walkStep_clears hstep (t + i * 8) with hsame | ⟨-, j, p, u, hs, hu, heq⟩
  · exact hsame
  · -- an entry on the way lies in one of the tables on the way
    have hup : p <:+ w.path := (List.suffix_cons j p).trans hs
    have hvalid := hr.validPath.of_suffix hs
    have hdvd : 2 ^ 12 ∣ t := h.isTable ht
    have hu' : hwTable w.mem cr3 (hwPath p) = some u := (hwTable_hwPath _ _ _).trans hu
    have howner : pageTables.owner (t + i * 8) = t := owner_entry 0 t i hdvd hi
    rw [heq, pageTables.owner_slot _ _ _ (h.isTable hu') hvalid.1] at howner
    subst howner
    have hplen : p.length < 4 := Nat.lt_of_succ_le hs.length_le
    have hppath : HwPath (hwPath p) := hwPath_hwPath hvalid.2 (Nat.le_of_lt hplen)
    refine absurd (h.inj _ _ u hppath.1 hq.1 ?_ hlen hu' ht) (hoff p hup)
    rw [length_hwPath]
    exact hplen

end Turn

/-! ## The tables that were taken -/

/-- The tables that were taken are linked, and the tables below them were taken as well. -/
structure TakenTables (cr3 : Nat) (mem : PtMem) (log : List PageCall) : Prop where
  tree : HwTablesOk mem cr3
  linked : ∀ t, Taken t log → ∃ q, HwPath q ∧ q ≠ [] ∧ q.length < 4 ∧ hwTable mem cr3 q = some t
  under : ∀ j q t u, HwPath (j :: q) → q.length + 1 < 4 → hwTable mem cr3 q = some t → Taken t log →
    hwTable mem cr3 (j :: q) = some u → Taken u log

namespace TakenTables

variable {off cr3 : Nat} {mem mem' : PtMem} {calls log : List PageCall}

/-- A memory with the same tables. -/
theorem of_iff (h : TakenTables cr3 mem log) (htree : HwTablesOk mem' cr3)
    (hsame : ∀ q t, HwPath q → q.length < 4 →
      (hwTable mem' cr3 q = some t ↔ hwTable mem cr3 q = some t)) :
    TakenTables cr3 mem' (log ++ []) := by
  rw [List.append_nil]
  refine ⟨htree, fun t ht => ?_, fun j q t u hq hlen ht htaken hu => ?_⟩
  · obtain ⟨q, hq, hne, hlen, htable⟩ := h.linked t ht
    exact ⟨q, hq, hne, hlen, (hsame q t hq hlen).2 htable⟩
  · exact h.under j q t u hq hlen ((hsame q t hq.tail (Nat.lt_of_succ_lt hlen)).1 ht) htaken
      ((hsame _ u hq hlen).1 hu)

theorem edit (hedit : Edit off cr3 mem calls mem') (h : TakenTables cr3 mem log) :
    TakenTables cr3 mem' (log ++ calls) := by
  cases hedit with
  | @link i t page p hp hpd ht habs hfresh =>
      obtain ⟨htree, hentries⟩ := h.tree.linkTable hp hpd ht hfresh
      have hbase := baseToPageAddr_pageToBaseAddr hfresh.aligned hfresh.bound
      have hkeep : ∀ {u}, Taken u log → Taken u (log ++ [acquire (pa off page)]) := fun hu =>
        taken_append_singleton.2 (Or.inr ⟨hu, fun d hd => by cases hd⟩)
      refine ⟨htree, fun u hu => ?_, fun j q u v hq hlen hu htaken hv => ?_⟩
      · rcases taken_append_singleton.1 hu with hnew | ⟨hu, -⟩
        · cases hnew
          refine ⟨i :: p, hp, List.cons_ne_nil i p, hpd, ?_⟩
          rw [hwTable_cons, hentries _ hp, fillIn_self ((hwEntry_cons_eq_none ht).2 habs)]
          exact congrArg some hbase
        · obtain ⟨q, hq, hne, hlen, hold⟩ := h.linked u hu
          exact ⟨q, hq, hne, hlen, hwTable_fillIn_of_some hentries hq hold⟩
      · rcases hwTable_of_fillIn hentries hq hv with hold | ⟨-, -, rfl⟩
        · -- the table above is an old one, and it has not just been taken
          obtain ⟨u', hu'⟩ := Layout.tableAt_of_suffix hold (List.suffix_cons j q)
          obtain rfl :=
            Option.some.inj (hu.symm.trans (hwTable_fillIn_of_some hentries hq.tail hu'))
          rcases taken_append_singleton.1 htaken with hnew | ⟨htaken, -⟩
          · cases hnew
            exact absurd hu' (hfresh.not_table q hq.tail (Nat.lt_of_succ_lt hlen))
          · exact hkeep (h.under j q u v hq hlen hu' htaken hold)
        · exact taken_append_singleton.2 (Or.inl (congrArg acquire hbase.symm))
  | @mapPage i t p page hp hpd ht habs =>
      obtain ⟨htree, hentries⟩ := h.tree.mapPage hp hpd ht habs page
      refine h.of_iff htree fun q u hq hlen => ⟨fun hu => ?_, hwTable_fillIn_of_some hentries hq⟩
      rcases hwTable_of_fillIn hentries hq hu with hold | ⟨rfl, -, -⟩
      · exact hold
      · exact absurd hpd (Nat.ne_of_lt hlen)
  | @clear i t p hp hpd ht =>
      obtain ⟨htree, hentries⟩ := h.tree.clearPresent hp ht (hwEntry_below_page hpd)
      refine h.of_iff htree fun q u hq hlen => (hwTable_clear_eq_some hentries hq).trans ?_
      refine and_iff_left ?_
      rintro rfl
      exact absurd hpd (Nat.ne_of_lt hlen)
  | @release i t u p hp hpd ht hu hempty =>
      obtain ⟨htree, hentries⟩ := h.tree.clearPresent hp ht (hwEntry_below_empty hu hempty)
      refine ⟨htree, fun v hv => ?_, fun j q v v' hq hlen hv htaken hv' => ?_⟩
      · rcases taken_append_singleton.1 hv with hnew | ⟨hv, hne⟩
        · cases hnew
        · obtain ⟨q, hq, hnil, hlen, hold⟩ := h.linked v hv
          refine ⟨q, hq, hnil, hlen, (hwTable_clear_eq_some hentries hq).2 ⟨hold, ?_⟩⟩
          rintro rfl
          obtain rfl := Option.some.inj (hu.symm.trans hold)
          exact hne _ rfl
      · obtain ⟨hv, -⟩ := (hwTable_clear_eq_some hentries hq.tail).1 hv
        obtain ⟨hv', hne⟩ := (hwTable_clear_eq_some hentries hq).1 hv'
        rcases taken_append_singleton.1 htaken with hnew | ⟨htaken, -⟩
        · cases hnew
        · refine taken_append_singleton.2 (Or.inr ⟨h.under j q v v' hq hlen hv htaken hv', ?_⟩)
          rintro d ⟨rfl⟩
          exact hne (h.tree.inj _ _ u hq.1 hp.1 hlen hpd hv' hu)

end TakenTables

theorem takenTables_of_reach {off cr3 : Nat} {events : List SpaceEvent} {s : TableSpace}
    (h : (tableSpaces off cr3).Reach events s) : TakenTables cr3 s.space.walk.mem s.calls :=
  tableSpaces_invariant (I := TakenTables cr3)
    (fun _ htree => ⟨htree, fun _ ht => absurd ht not_taken_nil, fun _ _ _ _ _ _ _ ht =>
      absurd ht not_taken_nil⟩) TakenTables.edit h

/-! ## The calls of an event -/

section Calls

variable {off cr3 faultAddr : Nat} {zeroed : ZeroedPages} {mem : PtMem} {w : Walk} {c : PageCall}

theorem mem_linkCalls {slot page : Nat} (h : c ∈ linkCalls off mem slot page) :
    c = acquire (pa off page) := by
  rw [linkCalls] at h
  split at h
  · exact List.mem_singleton.1 h
  · exact absurd h List.not_mem_nil

/-- A fault only takes pages that `get_zeroed_page` returns. -/
theorem mem_faultCalls {map : MemMap} (h : c ∈ faultCalls off map cr3 faultAddr zeroed mem) :
    ∃ t, zeroed.IsPage off t ∧ c = acquire t := by
  rw [faultCalls] at h
  split at h
  · exact absurd h List.not_mem_nil
  · rcases List.mem_append.1 h with h | h
    · rcases List.mem_append.1 h with h | h
      · exact ⟨_, Or.inl rfl, mem_linkCalls h⟩
      · exact ⟨_, Or.inr (Or.inl rfl), mem_linkCalls h⟩
    · exact ⟨_, Or.inr (Or.inr rfl), mem_linkCalls h⟩

theorem mem_releaseCalls {slot : Nat} (h : c ∈ releaseCalls mem slot) : ∃ t m, c = release t m := by
  rw [releaseCalls] at h
  split at h
  · exact ⟨_, _, List.mem_singleton.1 h⟩
  · exact absurd h List.not_mem_nil

theorem mem_incrementPdpeCalls {pml : Nat} (h : c ∈ incrementPdpeCalls pml w) :
    ∃ t m, c = release t m := by
  rw [incrementPdpeCalls] at h
  split at h
  · exact mem_releaseCalls h
  · exact absurd h List.not_mem_nil

theorem mem_incrementPdeCalls {pdpe pml : Nat} (h : c ∈ incrementPdeCalls pdpe pml w) :
    ∃ t m, c = release t m := by
  rw [incrementPdeCalls] at h
  split at h
  · exact (List.mem_append.1 h).elim mem_releaseCalls mem_incrementPdpeCalls
  · exact absurd h List.not_mem_nil

theorem mem_incrementPteCalls {pde pdpe pml : Nat} (h : c ∈ incrementPteCalls pde pdpe pml w) :
    ∃ t m, c = release t m := by
  rw [incrementPteCalls] at h
  split at h
  · exact (List.mem_append.1 h).elim mem_releaseCalls mem_incrementPdeCalls
  · exact absurd h List.not_mem_nil

/-- A turn only gives pages back. -/
theorem mem_turnCalls (h : c ∈ turnCalls cr3 w) : ∃ t m, c = release t m := by
  rw [turnCalls] at h
  dsimp only at h
  split at h
  · exact absurd h List.not_mem_nil
  · split at h
    · exact mem_incrementPdpeCalls h
    · split at h
      · exact mem_incrementPdeCalls h
      · split at h
        · exact mem_incrementPteCalls h
        · exact mem_incrementPteCalls h

/-- A table that was there before a fault was not taken by it. -/
theorem taken_of_faultCalls {map : MemMap} {log : List PageCall} {t : Nat} {q : List Nat}
    (hno : NoHwTable mem cr3 (zeroed.IsPage off)) (hq : HwPath q) (hlen : q.length < 4)
    (ht : hwTable mem cr3 q = some t)
    (h : Taken t (log ++ faultCalls off map cr3 faultAddr zeroed mem)) : Taken t log := by
  refine h.of_append fun c hc hacq => ?_
  obtain ⟨u, hu, rfl⟩ := mem_faultCalls hc
  cases hacq
  exact hno t hu q hq.1 hlen ht

theorem taken_of_turnCalls {log : List PageCall} {t : Nat} (h : Taken t (log ++ turnCalls cr3 w)) :
    Taken t log := by
  refine h.of_append fun c hc hacq => ?_
  obtain ⟨u, m, rfl⟩ := mem_turnCalls hc
  cases hacq

end Calls

/-- What a fault does to an address space: nothing, or the tables on the way to the page of the
fault and the page itself are filled in. -/
theorem SpaceEvent.run_pageFault {off cr3 faultAddr : Nat} {zeroed : ZeroedPages}
    {s t : AddressSpace}
    (h : SpaceWf cr3 s) (hkernel : (SpaceEvent.pageFault faultAddr zeroed).KernelOk off cr3 s)
    (hrun : (SpaceEvent.pageFault faultAddr zeroed).run off cr3 s = some t) :
    s.toFree = none ∧ t.map = s.map ∧ (t.walk.mem = s.walk.mem ∨
      (vaddrInMap faultAddr s.map = true ∧ ∃ page, ∀ q, HwPath q → hwEntry t.walk.mem cr3 q =
        fillIn (fillTables off faultAddr zeroed (hwEntry s.walk.mem cr3)) (faultPath faultAddr)
          (mappedEntry page) q)) := by
  rw [SpaceEvent.run, Option.ite_none_right_eq_some] at hrun
  obtain ⟨hidle, hrun⟩ := hrun
  obtain ⟨⟨r, mem, pools⟩, hfault, rfl⟩ := Option.map_eq_some_iff.1 hrun
  have hpml : vaddrInMap faultAddr s.map = true → pml4e64Index faultAddr < 64 := by
    intro hin
    rw [h.map.pml4e64Index_eq_zero hin]
    decide
  obtain ⟨-, heffect⟩ := hwEntry_petmemHandlePagefault h.tables hpml
    (hkernel.1.hwOk hkernel.2) hfault
  exact ⟨hidle, rfl, heffect.imp_left And.right⟩

/-! ## Empty tables along a run -/

/-- A table that was taken is empty only while the cursor of a walk stands inside of it. -/
def Tidy (cr3 : Nat) (s : TableSpace) : Prop :=
  ∀ q t, TakenAt cr3 s q t → tableIsEmpty s.space.walk.mem t = true →
    s.space.toFree ≠ none ∧ ∃ p, Inside p s.space.walk.path ∧ hwPath p = q

section Empty

variable {mem : PtMem} {cr3 t : Nat} {q : List Nat}

/-- The entries of a table by their paths. -/
theorem tableIsEmpty_iff_hwEntry (ht : hwTable mem cr3 q = some t) :
    tableIsEmpty mem t = true ↔ ∀ j < 512, hwEntry mem cr3 (j :: q) = none := by
  rw [tableIsEmpty_iff]
  exact forall₂_congr fun j _ => (hwEntry_cons_eq_none ht).symm

/-- A table with a page below it is not empty. -/
theorem MapsBelow.not_empty (h : MapsBelow mem cr3 q) (hlen : q.length < 4)
    (ht : hwTable mem cr3 q = some t) (hne : q ≠ []) : ¬ tableIsEmpty mem t = true := by
  obtain ⟨v, -, hs, hpte⟩ := h
  intro hempty
  obtain ⟨i, p, rfl⟩ := List.exists_cons_of_ne_nil hne
  refine hpte (hwEntry_below_empty ht hempty (pathOf v) (hwPath_pathOf v) hs ?_)
  intro heq
  rw [← heq] at hlen
  exact absurd hlen (Nat.lt_irrefl 4)

/-- A fault fills in the tables that it takes, and leaves the others alone. -/
theorem empty_of_fault {off faultAddr page : Nat} {zeroed : ZeroedPages} {mem' : PtMem}
    (hpml : pml4e64Index faultAddr = 0)
    (hentries : ∀ q, HwPath q → hwEntry mem' cr3 q = fillIn (fillTables off faultAddr zeroed
      (hwEntry mem cr3)) (faultPath faultAddr) (mappedEntry page) q)
    (hq : HwPath q) (hne : q ≠ []) (hlen : q.length < 4) (ht : hwTable mem' cr3 q = some t)
    (hempty : tableIsEmpty mem' t = true) :
    hwTable mem cr3 q = some t ∧ tableIsEmpty mem t = true := by
  rw [tableIsEmpty_iff_hwEntry ht] at hempty
  have hcons : ∀ {j}, j < 512 → HwPath (j :: q) := fun hj => ⟨⟨hj, hq.1⟩, hlen⟩
  have hoff : ¬ q <:+ faultPath faultAddr := by
    intro hs
    obtain ⟨j, hj⟩ := Layout.exists_cons_suffix hs hlen
    have hpath := (hwPath_faultPath (hpml ▸ by decide)).of_suffix hj
    have hnone := hempty j hpath.1.1
    rw [hentries _ hpath] at hnone
    exact fillPage_ne_none off faultAddr zeroed _ _ hj (List.cons_ne_nil j q) hnone
  have hsame : ∀ q', HwPath q' → q <:+ q' → hwEntry mem' cr3 q' = hwEntry mem cr3 q' := by
    intro q' hq' hs
    rw [hentries q' hq']
    exact fillPage_of_not_suffix off faultAddr zeroed _ _ fun hs' => hoff (hs.trans hs')
  have hold : hwTable mem cr3 q = some t := by
    obtain ⟨i, p, rfl⟩ := List.exists_cons_of_ne_nil hne
    rw [hwTable_cons] at ht ⊢
    rwa [hsame _ hq (List.suffix_refl _)] at ht
  refine ⟨hold, (tableIsEmpty_iff_hwEntry hold).2 fun j hj => ?_⟩
  rw [← hsame _ (hcons hj) (List.suffix_cons j q)]
  exact hempty j hj

theorem noEmptyTable_iff {s : TableSpace} : NoEmptyTable cr3 s ↔
    ∀ q t, TakenAt cr3 s q t → ¬ tableIsEmpty s.space.walk.mem t = true := by
  refine forall₃_congr fun q t _ => ?_
  rw [tableIsEmpty_iff]
  simp [maxEntries]

variable {s s' : TableSpace}

theorem TakenAt.congr {u : Nat} (h : TakenAt cr3 s q u)
    (hmem : s.space.walk.mem = s'.space.walk.mem)
    (hcalls : s.calls = s'.calls) : TakenAt cr3 s' q u :=
  ⟨h.path, h.below, h.length, hmem ▸ h.table, hcalls ▸ h.taken⟩

theorem NoEmptyTable.congr (h : NoEmptyTable cr3 s) (hmem : s.space.walk.mem = s'.space.walk.mem)
    (hcalls : s.calls = s'.calls) : NoEmptyTable cr3 s' := by
  intro q u hu
  rw [← hmem]
  exact h q u (hu.congr hmem.symm hcalls.symm)

theorem NoEmptyTable.tidy (h : NoEmptyTable cr3 s) : Tidy cr3 s :=
  fun q u hu hempty => absurd hempty (noEmptyTable_iff.1 h q u hu)

end Empty

namespace Tidy

variable {off cr3 : Nat} {s t : TableSpace}

/-- Without a walk no table is empty. -/
theorem noEmptyTable (h : Tidy cr3 s) (hidle : s.space.toFree = none) : NoEmptyTable cr3 s :=
  noEmptyTable_iff.2 fun q t ht hempty => (h q t ht hempty).1 hidle

/-- What happens without a change of the tables and of the walk. -/
theorem congr (h : Tidy cr3 s) (hwalk : t.space.walk = s.space.walk) (hcalls : t.calls = s.calls)
    (hidle : t.space.toFree = s.space.toFree) : Tidy cr3 t := by
  intro q u hu hempty
  rw [hwalk] at hempty ⊢
  rw [hidle]
  exact h q u (hu.congr (congrArg Walk.mem hwalk) hcalls) hempty

theorem pageFault (h : Tidy cr3 s) (hwf : SpaceWf cr3 s.space) {faultAddr : Nat}
    {zeroed : ZeroedPages}
    (hkernel : (SpaceEvent.pageFault faultAddr zeroed).KernelOk off cr3 s.space)
    (hrun : (SpaceEvent.pageFault faultAddr zeroed).run off cr3 s.space = some t.space)
    (hcalls : t.calls = s.calls ++ (SpaceEvent.pageFault faultAddr zeroed).pageCalls off cr3
      s.space) :
    Tidy cr3 t := by
  obtain ⟨hidle, -, heffect⟩ := SpaceEvent.run_pageFault hwf hkernel hrun
  intro q u hu hempty
  -- the table was there and empty before the fault
  obtain ⟨hold, hempty⟩ : hwTable s.space.walk.mem cr3 q = some u ∧
      tableIsEmpty s.space.walk.mem u = true := by
    rcases heffect with hmem | ⟨hin, page, hentries⟩
    · exact ⟨hmem ▸ hu.table, hmem ▸ hempty⟩
    · exact empty_of_fault (hwf.map.pml4e64Index_eq_zero hin) hentries hu.path hu.below hu.length
        hu.table hempty
  have htaken := hu.taken
  rw [hcalls] at htaken
  have hbefore : TakenAt cr3 s q u := ⟨hu.path, hu.below, hu.length, hold,
    taken_of_faultCalls hkernel.2 hu.path hu.length hold htaken⟩
  exact absurd hidle (h q u hbefore hempty).1

/-- After a turn only the tables on the way of the cursor can be empty. -/
theorem turn (h : Tidy cr3 s) (hwf : SpaceWf cr3 s.space)
    (hrun : SpaceEvent.turn.run off cr3 s.space = some t.space)
    (hcalls : t.calls = s.calls ++ SpaceEvent.turn.pageCalls off cr3 s.space) : Tidy cr3 t := by
  obtain ⟨n, hn, hrun⟩ := Option.bind_eq_some_iff.1 hrun
  rw [Option.ite_none_right_eq_some] at hrun
  obtain ⟨hlt, hrun⟩ := hrun
  obtain ⟨w, hstep, hspace⟩ := Option.map_eq_some_iff.1 hrun
  have hwalk : t.space.walk = w := by rw [← hspace]
  have hbusy : t.space.toFree ≠ none := by
    rw [← hspace, hn]
    exact Option.some_ne_none n
  have hr := hwf.inRange hn hlt
  intro q u hu hempty
  have htable := hu.table
  rw [hwalk] at hempty htable ⊢
  have hold : hwTable s.space.walk.mem cr3 q = some u :=
    Layout.tableAt_of_present (fun _ => (walkStep_clears hstep).eq_of_present) htable
  refine ⟨hbusy, ?_⟩
  by_cases hway : ∃ p, p <:+ s.space.walk.path ∧ hwPath p = q
  · obtain ⟨p, hp, rfl⟩ := hway
    have hne : p ≠ [] := by
      rintro rfl
      exact hu.below rfl
    have hlen := hu.length
    rw [length_hwPath] at hlen
    refine ⟨p, inside_walkStep hwf.tables.tablesOk hr hp hne hlen hstep ⟨u, ?_, hempty⟩, rfl⟩
    exact (hwTable_hwPath _ _ _).symm.trans htable
  · -- the other tables have not changed
    have hoff : ∀ p, p <:+ s.space.walk.path → hwPath p ≠ q := fun p hp heq => hway ⟨p, hp, heq⟩
    have hbefore : tableIsEmpty s.space.walk.mem u = true := by
      refine tableIsEmpty_iff.2 fun i hi => ?_
      rw [← walkStep_eq_of_not_suffix hwf.tables hr hstep hu.path hu.length hold hoff hi]
      exact present_of_tableIsEmpty hempty hi
    have htaken := hu.taken
    rw [hcalls] at htaken
    obtain ⟨-, p, hinside, hpath⟩ := h q u ⟨hu.path, hu.below, hu.length, hold,
      taken_of_turnCalls htaken⟩ hbefore
    exact absurd hpath (hoff p hinside.suffix)

/-- A return leaves no empty table if the tables inside which the walk stops are in use. -/
theorem freeReturn (h : Tidy cr3 s) (huse : StopsInUse cr3 s) (hwalk : t.space.walk = s.space.walk)
    (hcalls : t.calls = s.calls) : NoEmptyTable cr3 t := by
  refine noEmptyTable_iff.2 fun q u hu hempty => ?_
  have hbefore : TakenAt cr3 s q u := hu.congr (congrArg Walk.mem hwalk) hcalls
  rw [hwalk] at hempty
  obtain ⟨-, p, hinside, rfl⟩ := h q u hbefore hempty
  exact (huse p u hinside hbefore).not_empty hu.length hbefore.table hu.below hempty

end Tidy

/-! ## Mapped pages along a run -/

/-- A page that the walk passes before it returns. -/
def Pending (cr3 : Nat) (s : AddressSpace) (v : Nat) : Prop :=
  v < 2 ^ 27 ∧ ∃ n start, s.toFree = some n ∧ WalkInv cr3 start s.walk ∧ start ≤ v ∧ v < start + n

/-- A page that is mapped in a table that was taken lies inside an allocated node, or the walk
passes it before it returns. -/
def TakenInNode (cr3 : Nat) (s : TableSpace) : Prop :=
  ∀ v < hwMaxPage, ∀ t, hwTable s.space.walk.mem cr3 (pathOf v).tail = some t → Taken t s.calls →
    hwPteOf s.space.walk.mem cr3 v ≠ none →
    (∃ n ∈ s.space.map, n.allocated = true ∧ n.HoldsPage v) ∨ Pending cr3 s.space v

/-- The pages of a node lie in the region. -/
theorem MapOk.holdsPage_lt {map : MemMap} (h : MapOk map) {n : MapNode} (hn : n ∈ map) {v : Nat}
    (hv : n.HoldsPage v) : v < 2 ^ 27 := by
  have hend := (h.tiles.bounds hn).2
  have hlt := hv.2
  unfold petmemRegionEnd at hend
  unfold pageSize at hlt
  omega

/-- The pages of a node that starts at the page of `vaddr`. -/
theorem range_of_released {vaddr v size n : Nat} (hle : pageAddr vaddr ≤ v * pageSize)
    (hend : (v + 1) * pageSize ≤ pageAddr vaddr + size) (hsize : size ≤ n * pageSize) :
    vaddr / 2 ^ 12 ≤ v ∧ v < vaddr / 2 ^ 12 + n := by
  unfold pageAddr pageSize at hle hend
  unfold pageSize at hsize
  omega

namespace TakenInNode

variable {off cr3 : Nat} {s t : TableSpace}

theorem pageFault (h : TakenInNode cr3 s) (hwf : SpaceWf cr3 s.space) {faultAddr : Nat}
    {zeroed : ZeroedPages} (hinside : AcceptsInside s.space.map faultAddr)
    (hkernel : (SpaceEvent.pageFault faultAddr zeroed).KernelOk off cr3 s.space)
    (hrun : (SpaceEvent.pageFault faultAddr zeroed).run off cr3 s.space = some t.space)
    (hcalls : t.calls = s.calls ++ (SpaceEvent.pageFault faultAddr zeroed).pageCalls off cr3
      s.space) :
    TakenInNode cr3 t := by
  obtain ⟨hidle, hmap, heffect⟩ := SpaceEvent.run_pageFault hwf hkernel hrun
  intro v hv u hu htaken hmapped
  rw [hcalls] at htaken
  rw [hmap]
  -- a page that was mapped before: its table was there before as well
  have hbefore : hwPteOf s.space.walk.mem cr3 v ≠ none →
      (∃ n ∈ s.space.map, n.allocated = true ∧ n.HoldsPage v) ∨ Pending cr3 t.space v := by
    intro hold
    obtain ⟨u', hu'⟩ := exists_hwTable_of_hwEntry (i := v % 512) hold
    have hpath : HwPath (pathOf v).tail := (hwPath_pathOf v).tail
    have hsame : hwTable t.space.walk.mem cr3 (pathOf v).tail = some u' := by
      rcases heffect with hmem | ⟨-, page, hentries⟩
      · exact hmem ▸ hu'
      · exact hwTable_of_entries (fun q e hq he =>
          (hentries q hq).trans (fillPage_of_some off faultAddr zeroed _ he)) hpath hu'
    obtain rfl := Option.some.inj (hu.symm.trans hsame)
    have htaken := taken_of_faultCalls hkernel.2 hpath (Nat.lt_succ_self 3) hu' htaken
    rcases h v hv u hu' htaken hold with hnode | ⟨-, n, start, hn, -⟩
    · exact Or.inl hnode
    · cases hidle.symm.trans hn
  rcases heffect with hmem | ⟨hin, page, hentries⟩
  · exact hbefore (hmem ▸ hmapped)
  · by_cases hon : pathOf v <:+ faultPath faultAddr
    · -- the page of the fault
      obtain ⟨n, hn, halloc, hle, hlt⟩ := hinside hin
      have hpage : faultAddr / 2 ^ 12 < hwMaxPage :=
        Nat.lt_of_lt_of_le (hwf.map.page_lt_region hin) (by decide)
      rw [faultPath_eq_pathOf (hwf.map.pml4e64Index_eq_zero hin)] at hon
      obtain rfl := pathOf_inj_hw hv hpage (hon.eq_of_length rfl)
      exact Or.inl ⟨n, hn, halloc, (hwf.map.aligned n hn).holdsPage hle hlt⟩
    · refine hbefore fun hnone => hmapped ?_
      rw [hwPteOf_eq_hwEntry, hentries _ (hwPath_pathOf v), fillPage_of_not_suffix _ _ _ _ _ hon]
      exact hnone

theorem turn (h : TakenInNode cr3 s) (hwf : SpaceWf cr3 s.space)
    (hrun : SpaceEvent.turn.run off cr3 s.space = some t.space)
    (hcalls : t.calls = s.calls ++ SpaceEvent.turn.pageCalls off cr3 s.space) :
    TakenInNode cr3 t := by
  obtain ⟨n, hn, hrun⟩ := Option.bind_eq_some_iff.1 hrun
  rw [Option.ite_none_right_eq_some] at hrun
  obtain ⟨hlt, hrun⟩ := hrun
  obtain ⟨w, hstep, hspace⟩ := Option.map_eq_some_iff.1 hrun
  have hr := hwf.inRange hn hlt
  obtain ⟨-, hpte⟩ := hwPteOf_walkStep hwf.tables hr hstep
  intro v hv u hu htaken hmapped
  rw [hcalls] at htaken
  rw [← hspace] at hu hmapped ⊢
  replace hu : hwTable s.space.walk.mem cr3 (pathOf v).tail = some u :=
    Layout.tableAt_of_present (fun _ => (walkStep_clears hstep).eq_of_present) hu
  replace hmapped : hwPteOf s.space.walk.mem cr3 v ≠ none := by
    intro hnone
    apply hmapped
    rw [hpte v hv, hnone, ite_self]
  rcases h v hv u hu (taken_of_turnCalls htaken) hmapped with hnode |
    ⟨hregion, n', start, hn', hinv, hrange⟩
  · exact Or.inl hnode
  · exact Or.inr ⟨hregion, n', start, hn', hinv.step hr hstep, hrange⟩

/-- The nodes that are released are those that the walk goes through. -/
theorem freeVspace (h : TakenInNode cr3 s) (hwf : SpaceWf cr3 s.space) {vaddr : Nat}
    (hrun : (SpaceEvent.freeVspace vaddr).run off cr3 s.space = some t.space)
    (hcalls : t.calls = s.calls) : TakenInNode cr3 t := by
  rw [SpaceEvent.run, Option.ite_none_right_eq_some] at hrun
  obtain ⟨hidle, hrun⟩ := hrun
  have hspace := Option.some.inj hrun
  intro v hv u hu htaken hmapped
  rw [hcalls] at htaken
  rw [← hspace] at hu hmapped ⊢
  rcases h v hv u hu htaken hmapped with ⟨n, hn, halloc, hholds⟩ | ⟨-, n, start, hn, -⟩
  · by_cases hrel : vaddrInMap vaddr s.space.map = true ∧ n.start = pageAddr vaddr
    · obtain ⟨hin, hstart⟩ := hrel
      have hvaddr : vaddr < 2 ^ 39 := Nat.lt_of_le_of_lt (hwf.map.vaddr_le hin) (by decide)
      refine Or.inr ⟨hwf.map.holdsPage_lt hn hholds, _, _, rfl, walkInv_start hvaddr
        hwf.tables.tablesOk, ?_⟩
      have hsize := hwf.map.size_le_of_released hn halloc hstart hin
      obtain ⟨hle, hend⟩ := hholds
      rw [hstart] at hle hend
      exact range_of_released hle hend hsize
    · refine Or.inl ⟨n, (mem_allocatedNodes.1 (mem_allocatedNodes_petmemFreeMap.2
        ⟨mem_allocatedNodes.2 ⟨hn, halloc⟩, fun hin hstart => hrel ⟨hin, hstart⟩⟩)).1,
          halloc, hholds⟩
  · cases hidle.symm.trans hn

/-- When the walk returns it has passed all its pages. -/
theorem freeReturn (h : TakenInNode cr3 s)
    (hrun : SpaceEvent.freeReturn.run off cr3 s.space = some t.space)
    (hcalls : t.calls = s.calls) : TakenInNode cr3 t := by
  obtain ⟨n, hn, hrun⟩ := Option.bind_eq_some_iff.1 hrun
  rw [Option.ite_none_left_eq_some] at hrun
  obtain ⟨hdone, hspace⟩ := hrun
  replace hspace := Option.some.inj hspace
  intro v hv u hu htaken hmapped
  rw [hcalls] at htaken
  rw [← hspace] at hu hmapped ⊢
  rcases h v hv u hu htaken hmapped with hnode | ⟨hregion, n', start, hn', hinv, hle, hlt⟩
  · exact Or.inl hnode
  · obtain rfl := Option.some.inj (hn.symm.trans hn')
    have hcovers := hinv.covers
    have hnone := hinv.unmapped v hle (by omega)
    rw [← hwPteOf_hwPage (Nat.lt_of_lt_of_le hregion (by decide)), hwPage_of_lt hregion] at hnone
    exact absurd hnone hmapped

end TakenInNode

/-! ## Where the walk will stop -/

/-- The condition on a call of `petmem_free_vspace`, from the map and the tables before it. If it
frees something, then each table inside which its walk will stop, if it was taken, has a page that
is mapped and that is none of the pages that the walk takes out. -/
def EndsInUse (cr3 : Nat) (s : TableSpace) (vaddr : Nat) : Prop :=
  0 < (petmemFreeMap s.space.map vaddr).2 →
  ∀ p t, Inside p (pathOf (stopPage s.space.map cr3 vaddr s.space.walk.mem)) →
    TakenAt cr3 s (hwPath p) t →
    ∃ v < hwMaxPage, hwPath p <:+ pathOf v ∧ hwPteOf s.space.walk.mem cr3 v ≠ none ∧
      ∀ u, vaddr / 2 ^ 12 ≤ u →
        u < vaddr / 2 ^ 12 + walkedPages s.space.map cr3 vaddr s.space.walk.mem → v ≠ hwPage u

/-- The same for a walk that has begun, with the pages that it still takes out. -/
def WalkEndsInUse (cr3 n : Nat) (s : TableSpace) : Prop :=
  ∀ p t, Inside p (pathOf (s.space.walk.stopPage cr3 n)) → TakenAt cr3 s (hwPath p) t →
    ∃ v < hwMaxPage, hwPath p <:+ pathOf v ∧ s.space.walk.Spares cr3 n v

/-- The indices of the cursor are those of a page. -/
structure Walk.Indexed (w : Walk) : Prop where
  pml_lt : w.pmlIndex < 512
  pdpe_lt : w.pdpeIndex < 512
  pde_lt : w.pdeIndex < 512
  pte_lt : w.pteIndex < 512

theorem Walk.Indexed.pathOf_cursor {w : Walk} (h : w.Indexed) : pathOf w.cursor = w.path := by
  obtain ⟨hpml, hpdpe, hpde, hpte⟩ := h
  simp only [pathOf, Walk.cursor, Walk.path, List.cons.injEq, and_true]
  omega

theorem indexed_firstWalk (vaddr : Nat) (mem : PtMem) (pools : List BuddyMempool) :
    (firstWalk vaddr mem pools).Indexed :=
  ⟨Nat.mod_lt _ (by decide), Nat.mod_lt _ (by decide), Nat.mod_lt _ (by decide),
    Nat.mod_lt _ (by decide)⟩

theorem StepSpec.indexed {off cr3 : Nat} {w w' : Walk} (h : StepSpec off cr3 w w')
    (hr : w.InRange) : w'.Indexed := by
  refine ⟨?_, h.pdpe_lt, h.pde_lt, h.pte_lt⟩
  have hpml := hr.pml
  have hbound := h.bound
  have hcursor := w'.pml_le_cursor
  omega

section Stops

variable {off cr3 n : Nat} {events : List SpaceEvent} {s t : TableSpace}

/-- When the walk is done, it has stopped where it was to stop. -/
theorem stopsInUse_iff (hindexed : s.space.walk.Indexed)
    (hdone : ¬ s.space.walk.numPagesFreed < n) : StopsInUse cr3 s ↔ WalkEndsInUse cr3 n s := by
  have hstop : pathOf (s.space.walk.stopPage cr3 n) = s.space.walk.path := by
    rw [Walk.stopPage, if_neg hdone, hindexed.pathOf_cursor]
  unfold StopsInUse WalkEndsInUse
  rw [hstop]
  exact forall₄_congr fun p u _ _ => exists_congr fun v => and_congr_right fun _ =>
    and_congr_right fun _ => (Walk.spares_iff_of_done hdone).symm

/-- A turn keeps the tables inside which the walk will stop, and takes none. -/
theorem takenAt_turn_iff (hreach : (tableSpaces off cr3).Reach events s)
    (hstep : (tableSpaces off cr3).step s .turn t) {w : Walk}
    (hturn : walkStep off cr3 s.space.walk = some w) (hwalk : t.space.walk = w)
    (hr : s.space.walk.InRange) {v : Nat} (hv : w.cursor ≤ v) (hlt : v < maxPage) {p : List Nat}
    (hp : p <:+ pathOf v) {u : Nat} :
    TakenAt cr3 t (hwPath p) u ↔ TakenAt cr3 s (hwPath p) u := by
  have htables := (spaceWf_of_reach hreach).tables.tablesOk
  have hledger := tableLedger_of_reach (hreach.step hstep)
  have hcalls : t.calls = s.calls ++ turnCalls cr3 s.space.walk := hstep.2
  have hsame : (hwPath p).length < 4 →
      hwTable t.space.walk.mem cr3 (hwPath p) = hwTable s.space.walk.mem cr3 (hwPath p) := by
    intro hlen
    rw [length_hwPath] at hlen
    rw [hwTable_hwPath, hwTable_hwPath, hwalk]
    exact tableAt_walkStep_ahead htables hr hturn hv hlt hp hlen
  constructor
  · rintro ⟨hpath, hbelow, hlen, htable, htaken⟩
    rw [hcalls] at htaken
    exact ⟨hpath, hbelow, hlen, hsame hlen ▸ htable, taken_of_turnCalls htaken⟩
  · rintro ⟨hpath, hbelow, hlen, htable, htaken⟩
    rw [← hsame hlen] at htable
    refine ⟨hpath, hbelow, hlen, htable, ?_⟩
    -- a table that is still linked has not been given back
    have hlive := hledger.live _ _ hpath hlen htable
    rw [hcalls] at hlive ⊢
    exact (htaken.append_or _).resolve_right hlive

theorem walkEndsInUse_turn_iff (hreach : (tableSpaces off cr3).Reach events s)
    (hbusy : s.space.toFree = some n) (hstep : (tableSpaces off cr3).step s .turn t) :
    WalkEndsInUse cr3 n t ↔ WalkEndsInUse cr3 n s := by
  have hwf := spaceWf_of_reach hreach
  obtain ⟨n', hn', hrun⟩ := Option.bind_eq_some_iff.1 hstep.1.2
  obtain rfl := Option.some.inj (hbusy.symm.trans hn')
  rw [Option.ite_none_right_eq_some] at hrun
  obtain ⟨hlt, hrun⟩ := hrun
  obtain ⟨w, hturn, hspace⟩ := Option.map_eq_some_iff.1 hrun
  have hwalk : t.space.walk = w := by rw [← hspace]
  obtain ⟨hfew, start, hinv⟩ := hwf.walk n hbusy (Nat.zero_lt_of_lt hlt)
  have hr := hwf.inRange hbusy hlt
  have hmax : s.space.walk.cursor + s.space.walk.takes cr3 n ≤ maxPage :=
    (hinv.takes_le hfew hlt).trans (by decide)
  have hstop := stopPage_walkStep hinv.tables hr hturn hlt hmax
  have hahead : w.cursor ≤ s.space.walk.stopPage cr3 n := by
    rw [← hstop]
    exact w.cursor_le_stopPage cr3 n
  unfold WalkEndsInUse
  rw [hwalk, hstop]
  refine forall₃_congr fun p u hinside => ?_
  rw [takenAt_turn_iff hreach hstep hturn hwalk hr hahead (hinv.stopPage_lt hfew hlt)
    hinside.suffix]
  exact imp_congr_right fun _ => exists_congr fun v => and_congr_right fun hv =>
    and_congr_right fun _ => spares_walkStep hwf.tables hr hturn hlt hv

end Stops

/-! ## Runs -/

/-- The condition on an event: each table inside which a call of `petmem_free_vspace` will stop is
in use, and a fault that the map accepts is at an address before the end of a node. -/
def SpaceEvent.KeepsTidy (cr3 : Nat) (s : TableSpace) : SpaceEvent → Prop
  | .freeVspace vaddr => EndsInUse cr3 s vaddr
  | .pageFault faultAddr _ => AcceptsInside s.space.map faultAddr
  | _ => True

section Runs

variable {off cr3 n : Nat} {events : List SpaceEvent} {s t : TableSpace}

theorem run_freeReturn {s t : AddressSpace} (hrun : SpaceEvent.freeReturn.run off cr3 s = some t) :
    t.walk = s.walk ∧ t.toFree = none ∧ t.map = s.map := by
  obtain ⟨n, -, hrun⟩ := Option.bind_eq_some_iff.1 hrun
  rw [Option.ite_none_left_eq_some] at hrun
  obtain rfl := Option.some.inj hrun.2
  exact ⟨rfl, rfl, rfl⟩

/-- Between two calls of `petmem_free_vspace` no walk is under way. -/
theorem run_of_idle {s t : AddressSpace} {e : SpaceEvent} (hidle : s.toFree = none)
    (hrun : e.run off cr3 s = some t) :
    (∃ vaddr, e = .freeVspace vaddr) ∨ (t.toFree = none ∧ e ≠ .freeReturn) := by
  cases e with
  | freeVspace vaddr => exact Or.inl ⟨vaddr, rfl⟩
  | allocVspace numPages =>
      rw [SpaceEvent.run, Option.ite_none_right_eq_some] at hrun
      rw [← Option.some.inj hrun.2]
      exact Or.inr ⟨hidle, SpaceEvent.noConfusion⟩
  | access page =>
      rw [SpaceEvent.run, Option.ite_none_right_eq_some] at hrun
      obtain ⟨e, -, rfl⟩ := Option.map_eq_some_iff.1 hrun.2
      exact Or.inr ⟨hidle, SpaceEvent.noConfusion⟩
  | pageFault faultAddr zeroed =>
      rw [SpaceEvent.run, Option.ite_none_right_eq_some] at hrun
      obtain ⟨r, -, rfl⟩ := Option.map_eq_some_iff.1 hrun.2
      exact Or.inr ⟨hidle, SpaceEvent.noConfusion⟩
  | turn =>
      obtain ⟨n, hn, -⟩ := Option.bind_eq_some_iff.1 hrun
      cases hidle.symm.trans hn
  | freeReturn =>
      obtain ⟨n, hn, -⟩ := Option.bind_eq_some_iff.1 hrun
      cases hidle.symm.trans hn

theorem run_freeVspace {s t : AddressSpace} {vaddr : Nat}
    (hrun : (SpaceEvent.freeVspace vaddr).run off cr3 s = some t) :
    s.toFree = none ∧ t = { s with
      map := (petmemFreeMap s.map vaddr).1
      toFree := some (petmemFreeMap s.map vaddr).2
      walk := firstWalk vaddr s.walk.mem s.walk.pools } := by
  rw [SpaceEvent.run, Option.ite_none_right_eq_some] at hrun
  exact ⟨hrun.1, (Option.some.inj hrun.2).symm⟩

theorem Tidy.step (h : Tidy cr3 s) (hwf : SpaceWf cr3 s.space) {e : SpaceEvent}
    (hreturn : e = .freeReturn → StopsInUse cr3 s) (hstep : (tableSpaces off cr3).step s e t) :
    Tidy cr3 t := by
  obtain ⟨⟨hkernel, hrun⟩, hcalls⟩ := hstep
  cases e with
  | allocVspace numPages =>
      rw [SpaceEvent.run, Option.ite_none_right_eq_some] at hrun
      have hspace := Option.some.inj hrun.2
      exact h.congr (hspace ▸ rfl) (hcalls.trans (List.append_nil _)) (hspace ▸ rfl)
  | access page =>
      rw [SpaceEvent.run, Option.ite_none_right_eq_some] at hrun
      obtain ⟨e, -, hspace⟩ := Option.map_eq_some_iff.1 hrun.2
      exact h.congr (hspace ▸ rfl) (hcalls.trans (List.append_nil _)) (hspace ▸ rfl)
  | pageFault faultAddr zeroed => exact h.pageFault hwf hkernel hrun hcalls
  | freeVspace vaddr =>
      obtain ⟨hidle, hspace⟩ := run_freeVspace hrun
      -- no table is empty when the walk begins
      exact ((h.noEmptyTable hidle).congr (hspace ▸ rfl)
        (hcalls.trans (List.append_nil _)).symm).tidy
  | turn => exact h.turn hwf hrun hcalls
  | freeReturn =>
      exact (h.freeReturn (hreturn rfl) (run_freeReturn hrun).1
        (hcalls.trans (List.append_nil _))).tidy

theorem TakenInNode.step (h : TakenInNode cr3 s) (hwf : SpaceWf cr3 s.space) {e : SpaceEvent}
    (hinside : ∀ faultAddr zeroed, e = .pageFault faultAddr zeroed →
      AcceptsInside s.space.map faultAddr)
    (hstep : (tableSpaces off cr3).step s e t) : TakenInNode cr3 t := by
  obtain ⟨⟨hkernel, hrun⟩, hcalls⟩ := hstep
  cases e with
  | allocVspace numPages =>
      rw [SpaceEvent.run, Option.ite_none_right_eq_some] at hrun
      have hspace := Option.some.inj hrun.2
      intro v hv u hu htaken hmapped
      rw [hcalls.trans (List.append_nil _)] at htaken
      rw [← hspace] at hu hmapped ⊢
      rcases h v hv u hu htaken hmapped with ⟨n, hn, halloc, hholds⟩ | hpending
      · exact Or.inl ⟨n, mem_petmemAllocVspace hn halloc numPages, halloc, hholds⟩
      · exact Or.inr hpending
  | access page =>
      rw [SpaceEvent.run, Option.ite_none_right_eq_some] at hrun
      obtain ⟨e, -, hspace⟩ := Option.map_eq_some_iff.1 hrun.2
      intro v hv u hu htaken hmapped
      rw [hcalls.trans (List.append_nil _)] at htaken
      rw [← hspace] at hu hmapped ⊢
      exact h v hv u hu htaken hmapped
  | pageFault faultAddr zeroed => exact h.pageFault hwf (hinside _ _ rfl) hkernel hrun hcalls
  | freeVspace vaddr => exact h.freeVspace hwf hrun (hcalls.trans (List.append_nil _))
  | turn => exact h.turn hwf hrun hcalls
  | freeReturn => exact h.freeReturn hrun (hcalls.trans (List.append_nil _))

/-- A path of full length is the path of a page. -/
theorem exists_pathOf {q : List Nat} (hq : HwPath q) (hlen : q.length = 4) :
    ∃ v < hwMaxPage, pathOf v = q := by
  obtain ⟨d, c, b, a, rfl⟩ : ∃ d c b a, q = [d, c, b, a] := List.length_eq_four.1 hlen
  obtain ⟨⟨hd, hc, hb, ha, -⟩, -⟩ := hq
  change d < 512 at hd
  change c < 512 at hc
  change b < 512 at hb
  change a < 512 at ha
  refine ⟨((a * 512 + b) * 512 + c) * 512 + d, ?_, ?_⟩
  · unfold hwMaxPage
    omega
  · simp only [pathOf, List.cons.injEq, and_true]
    omega

/-- Below a table that was taken there is a page, if no table is empty. -/
theorem NoEmptyTable.exists_page (h : NoEmptyTable cr3 s)
    (htables : TakenTables cr3 s.space.walk.mem s.calls) (n : Nat) :
    ∀ q t, q.length + n = 3 → TakenAt cr3 s q t → ∃ v < hwMaxPage, q <:+ pathOf v ∧
      hwPteOf s.space.walk.mem cr3 v ≠ none ∧
      ∃ u, hwTable s.space.walk.mem cr3 (pathOf v).tail = some u ∧ Taken u s.calls := by
  induction n with
  | zero =>
      -- an entry of the last level
      intro q t hlen ht
      obtain ⟨i, hi, hpres⟩ := h q t ht
      have hentry := hwEntry_cons_eq_some.2 ⟨t, ht.table, rfl, hpres⟩
      obtain ⟨v, hv, hpath⟩ := exists_pathOf (q := i :: q) ⟨⟨hi, ht.path.1⟩, ht.length⟩
        (congrArg Nat.succ hlen)
      refine ⟨v, hv, hpath ▸ List.suffix_cons i q, ?_, t, ?_, ht.taken⟩
      · rw [hwPteOf_eq_hwEntry, hpath, hentry]
        exact Option.some_ne_none _
      · rw [hpath]
        exact ht.table
  | succ n ih =>
      intro q t hlen ht
      obtain ⟨i, hi, hpres⟩ := h q t ht
      have hentry := hwEntry_cons_eq_some.2 ⟨t, ht.table, rfl, hpres⟩
      have hpath : HwPath (i :: q) := ⟨⟨hi, ht.path.1⟩, ht.length⟩
      have hlen' : q.length + 1 < 4 := by omega
      have htable := (hwTable_cons _ _ _ _).trans (congrArg (Option.map _) hentry)
      obtain ⟨v, hv, hs, hrest⟩ := ih (i :: q) _ (by rw [List.length_cons]; omega)
        ⟨hpath, List.cons_ne_nil i q, hlen', htable,
          htables.under i q t _ hpath hlen' ht.table ht.taken htable⟩
      exact ⟨v, hv, (List.suffix_cons i q).trans hs, hrest⟩

/-- A walk is under way that is to free `n` pages. -/
structure InCall (cr3 n : Nat) (s : TableSpace) : Prop where
  busy : s.space.toFree = some n
  indexed : s.space.walk.Indexed
  tidy : Tidy cr3 s
  nodes : TakenInNode cr3 s

/-- While a walk is under way it makes turns, and pages are accessed. -/
theorem step_of_busy {s t : AddressSpace} {e : SpaceEvent} (hbusy : s.toFree = some n)
    (hrun : e.run off cr3 s = some t) (hne : e ≠ .freeReturn) :
    t.toFree = some n ∧ (e = .turn ∨ ((∃ page, e = .access page) ∧ t.walk = s.walk)) := by
  have hnot : s.toFree ≠ none := hbusy ▸ Option.some_ne_none n
  cases e with
  | allocVspace numPages => exact absurd (Option.ite_none_right_eq_some.1 hrun).1 hnot
  | access page =>
      rw [SpaceEvent.run, Option.ite_none_right_eq_some] at hrun
      obtain ⟨e, -, rfl⟩ := Option.map_eq_some_iff.1 hrun.2
      exact ⟨hbusy, Or.inr ⟨⟨page, rfl⟩, rfl⟩⟩
  | pageFault faultAddr zeroed => exact absurd (Option.ite_none_right_eq_some.1 hrun).1 hnot
  | freeVspace vaddr => exact absurd (run_freeVspace hrun).1 hnot
  | turn =>
      obtain ⟨n', -, hrun⟩ := Option.bind_eq_some_iff.1 hrun
      rw [Option.ite_none_right_eq_some] at hrun
      obtain ⟨w, -, rfl⟩ := Option.map_eq_some_iff.1 hrun.2
      exact ⟨hbusy, Or.inl rfl⟩
  | freeReturn => exact absurd rfl hne

namespace InCall

/-- A step of a call does not change whether it will leave the tables in use. -/
theorem step (h : InCall cr3 n s) (hreach : (tableSpaces off cr3).Reach events s) {e : SpaceEvent}
    (hne : e ≠ .freeReturn) (hstep : (tableSpaces off cr3).step s e t) :
    InCall cr3 n t ∧ (WalkEndsInUse cr3 n t ↔ WalkEndsInUse cr3 n s) := by
  have hwf := spaceWf_of_reach hreach
  have htidy := h.tidy.step hwf (fun heq => absurd heq hne) hstep
  obtain ⟨hbusy, hevent⟩ := step_of_busy h.busy hstep.1.2 hne
  have hnodes : TakenInNode cr3 t := by
    refine h.nodes.step hwf (fun faultAddr zeroed heq => ?_) hstep
    rcases hevent with rfl | ⟨⟨page, rfl⟩, -⟩
    · cases heq
    · cases heq
  rcases hevent with rfl | ⟨⟨page, rfl⟩, hwalk⟩
  · refine ⟨⟨hbusy, ?_, htidy, hnodes⟩, walkEndsInUse_turn_iff hreach h.busy hstep⟩
    obtain ⟨n', hn', hrun⟩ := Option.bind_eq_some_iff.1 hstep.1.2
    rw [Option.ite_none_right_eq_some] at hrun
    obtain ⟨w, hturn, hspace⟩ := Option.map_eq_some_iff.1 hrun.2
    have hr := hwf.inRange hn' hrun.1
    rw [← hspace]
    exact (walkStep_spec hwf.tables.tablesOk hr hturn).indexed hr
  · have hcalls : t.calls = s.calls := hstep.2.trans (List.append_nil _)
    refine ⟨⟨hbusy, hwalk ▸ h.indexed, htidy, hnodes⟩, ?_⟩
    unfold WalkEndsInUse
    rw [hwalk]
    have hmem := congrArg Walk.mem hwalk
    exact forall₃_congr fun p u _ => imp_congr_left
      ⟨fun hu => hu.congr hmem hcalls, fun hu => hu.congr hmem.symm hcalls.symm⟩

theorem path {s₁ s₂ : TableSpace} {body : List SpaceEvent}
    (hpath : (tableSpaces off cr3).Path s₁ body s₂) (hbody : SpaceEvent.freeReturn ∉ body) :
    ∀ {events}, (tableSpaces off cr3).Reach events s₁ → InCall cr3 n s₁ →
      InCall cr3 n s₂ ∧ (WalkEndsInUse cr3 n s₂ ↔ WalkEndsInUse cr3 n s₁) := by
  induction hpath with
  | nil => exact fun _ h => ⟨h, Iff.rfl⟩
  | cons hstep _ ih =>
      intro events hreach h
      rw [List.mem_cons, not_or] at hbody
      obtain ⟨h', hiff⟩ := h.step hreach (Ne.symm hbody.1) hstep
      obtain ⟨h'', hiff'⟩ := ih hbody.2 (hreach.step hstep) h'
      exact ⟨h'', hiff'.trans hiff⟩

/-- The start of a call. The condition on the state before it says where its walk will stop. -/
theorem start (hreach : (tableSpaces off cr3).Reach events s) (htidy : Tidy cr3 s)
    (hnodes : TakenInNode cr3 s) {vaddr : Nat}
    (hstep : (tableSpaces off cr3).step s (.freeVspace vaddr) t) :
    InCall cr3 (petmemFreeMap s.space.map vaddr).2 t ∧
      (WalkEndsInUse cr3 (petmemFreeMap s.space.map vaddr).2 t ↔ EndsInUse cr3 s vaddr) := by
  have hwf := spaceWf_of_reach hreach
  obtain ⟨hidle, hspace⟩ := run_freeVspace hstep.1.2
  have hcalls : t.calls = s.calls := hstep.2.trans (List.append_nil _)
  have hwalk : t.space.walk = firstWalk vaddr s.space.walk.mem s.space.walk.pools := by rw [hspace]
  have hmem : t.space.walk.mem = s.space.walk.mem := by rw [hwalk]; rfl
  have htaken : ∀ {q u}, TakenAt cr3 t q u ↔ TakenAt cr3 s q u := fun {q u} =>
    ⟨fun hu => hu.congr hmem hcalls, fun hu => hu.congr hmem.symm hcalls.symm⟩
  refine ⟨⟨by rw [hspace], hwalk ▸ indexed_firstWalk _ _ _,
    htidy.step hwf (fun heq => by cases heq) hstep,
    hnodes.step hwf (fun _ _ heq => by cases heq) hstep⟩, ?_⟩
  unfold WalkEndsInUse EndsInUse
  rw [hwalk]
  rcases Nat.eq_zero_or_pos (petmemFreeMap s.space.map vaddr).2 with hzero | hpos
  · -- nothing is freed, and no table is empty before the call
    rw [hzero]
    refine ⟨fun _ hpos => absurd hpos (Nat.lt_irrefl 0), fun _ p u _ hu => ?_⟩
    obtain ⟨v, hv, hs, hmapped, -⟩ := (htidy.noEmptyTable hidle).exists_page
      (takenTables_of_reach hreach) (3 - (hwPath p).length) _ _
      (Nat.add_sub_of_le (Nat.le_of_lt_succ hu.length)) (htaken.1 hu)
    exact ⟨v, hv, hs, (Walk.spares_iff_of_done (Nat.not_lt_zero _)).2 hmapped⟩
  · have hvaddr : vaddr < 2 ^ 39 := by
      refine Nat.lt_of_le_of_lt (hwf.map.vaddr_le ?_) (by decide)
      by_contra hout
      rw [petmemFreeMap, if_neg hout] at hpos
      exact absurd hpos (Nat.lt_irrefl 0)
    rw [stopPage_firstWalk hvaddr hpos, forall_prop_of_true hpos]
    refine forall₃_congr fun p u _ => imp_congr htaken (exists_congr fun v => ?_)
    rw [Walk.Spares, cursor_firstWalk hvaddr]
    rfl

end InCall

/-- A guarded run is between two calls without an empty table, or in a call that will leave none. -/
theorem tidy_of_reach
    (h : ((tableSpaces off cr3).guard fun s e => e.KeepsTidy cr3 s).Reach events s) :
    (s.space.toFree = none ∧ Tidy cr3 s ∧ TakenInNode cr3 s) ∨
      ∃ n, InCall cr3 n s ∧ WalkEndsInUse cr3 n s := by
  apply h.history (I := fun _ s => (s.space.toFree = none ∧ Tidy cr3 s ∧ TakenInNode cr3 s) ∨
    ∃ n, InCall cr3 n s ∧ WalkEndsInUse cr3 n s)
  · -- nothing is taken at the start
    rintro s ⟨⟨-, -, hidle, -⟩, hcalls⟩
    refine Or.inl ⟨hidle, fun q t ht => ?_, fun v _ t _ htaken => ?_⟩
    · exact absurd (hcalls ▸ ht.taken) not_taken_nil
    · exact absurd (hcalls ▸ htaken) not_taken_nil
  · rintro events s e t hreach hs ⟨hok, hstep⟩
    replace hreach := hreach.of_guard
    have hwf := spaceWf_of_reach hreach
    rcases hs with ⟨hidle, htidy, hnodes⟩ | ⟨n, hcall, huse⟩
    · rcases run_of_idle hidle hstep.1.2 with ⟨vaddr, rfl⟩ | ⟨hidle', hne⟩
      · obtain ⟨hcall, hiff⟩ := InCall.start hreach htidy hnodes hstep
        exact Or.inr ⟨_, hcall, hiff.2 hok⟩
      · refine Or.inl ⟨hidle', htidy.step hwf (fun heq => absurd heq hne) hstep,
          hnodes.step hwf (fun _ _ heq => ?_) hstep⟩
        subst heq
        exact hok
    · by_cases hreturn : e = .freeReturn
      · subst hreturn
        obtain ⟨n', hn', hrun⟩ := Option.bind_eq_some_iff.1 hstep.1.2
        obtain rfl := Option.some.inj (hcall.busy.symm.trans hn')
        have hdone := (Option.ite_none_left_eq_some.1 hrun).1
        exact Or.inl ⟨(run_freeReturn hstep.1.2).2.1,
          hcall.tidy.step hwf (fun _ => (stopsInUse_iff hcall.indexed hdone).2 huse) hstep,
          hcall.nodes.step hwf (fun _ _ heq => by cases heq) hstep⟩
      · obtain ⟨hcall', hiff⟩ := hcall.step hreach hreturn hstep
        exact Or.inr ⟨n, hcall', hiff.2 huse⟩

/-- In a run whose calls of `petmem_free_vspace` all stop inside tables that stay in use, and whose
faults are inside nodes: the next call leaves no table that is empty if and only if it, too, stops
inside tables that stay in use, which the map and the tables before the call decide. And if no node
is allocated then, all tables have been given back. -/
theorem tables_given_back_iff {vaddr : Nat} {body : List SpaceEvent} {s₁ s₂ : TableSpace}
    (h : ((tableSpaces off cr3).guard fun s e => e.KeepsTidy cr3 s).Reach events s)
    (hstart : (tableSpaces off cr3).step s (.freeVspace vaddr) s₁)
    (hwalk : (tableSpaces off cr3).Path s₁ body s₂) (hbody : SpaceEvent.freeReturn ∉ body)
    (hreturn : (tableSpaces off cr3).step s₂ .freeReturn t) :
    (NoEmptyTable cr3 t ↔ EndsInUse cr3 s vaddr) ∧
    (NoEmptyTable cr3 t → allocatedNodes t.space.map = [] → ∀ page, ¬ Taken page t.calls) := by
  have hreach := h.of_guard
  -- the call begins between two calls, and the body of it is one walk
  obtain ⟨htidy, hnodes⟩ : Tidy cr3 s ∧ TakenInNode cr3 s := by
    rcases tidy_of_reach h with hs | ⟨n, hcall, -⟩
    · exact hs.2
    · exact ⟨hcall.tidy, hcall.nodes⟩
  obtain ⟨hcall₁, hiff₁⟩ := InCall.start hreach htidy hnodes hstart
  have hreach₁ := hreach.step hstart
  obtain ⟨hcall, hiff⟩ := InCall.path hwalk hbody hreach₁ hcall₁
  have hreach₂ := hreach₁.append_path hwalk
  have htables := takenTables_of_reach hreach₂
  have htables' := takenTables_of_reach (hreach₂.step hreturn)
  obtain ⟨⟨-, hrun⟩, hcalls⟩ := hreturn
  replace hcalls : t.calls = s₂.calls := hcalls.trans (List.append_nil _)
  obtain ⟨hsame, hidle, -⟩ := run_freeReturn hrun
  have hmem := congrArg Walk.mem hsame
  have hdone : ¬ s₂.space.walk.numPagesFreed < (petmemFreeMap s.space.map vaddr).2 := by
    obtain ⟨n', hn', hrun⟩ := Option.bind_eq_some_iff.1 hrun
    obtain rfl := Option.some.inj (hcall.busy.symm.trans hn')
    exact (Option.ite_none_left_eq_some.1 hrun).1
  rw [← hiff₁, ← hiff, ← stopsInUse_iff hcall.indexed hdone]
  refine ⟨⟨fun hno p u _ hu => ?_, fun huse => hcall.tidy.freeReturn huse hsame hcalls⟩,
    fun hno hfree page htaken => ?_⟩
  · obtain ⟨v, hv, hs, hpte, -⟩ := (hno.congr hmem hcalls).exists_page htables
      (3 - (hwPath p).length) _ _ (Nat.add_sub_of_le (Nat.le_of_lt_succ hu.length)) hu
    exact ⟨v, hv, hs, hpte⟩
  · obtain ⟨q, hq, hne, hlen, htable⟩ := htables'.linked page htaken
    obtain ⟨v, hv, -, hpte, u, hu, htaken⟩ := hno.exists_page htables' (3 - q.length) q page
      (Nat.add_sub_of_le (Nat.le_of_lt_succ hlen)) ⟨hq, hne, hlen, htable, htaken⟩
    -- the page belongs to no node and the walk is over
    rcases (hcall.nodes.freeReturn hrun hcalls) v hv u hu htaken hpte with
      ⟨n, hn, halloc, -⟩ | ⟨-, n, start, hn, -⟩
    · exact absurd (mem_allocatedNodes.2 ⟨hn, halloc⟩) (hfree ▸ List.not_mem_nil)
    · cases hidle.symm.trans hn

end Runs

theorem tableSpaces_step {off cr3 : Nat} {s : TableSpace} {e : SpaceEvent} {t : AddressSpace}
    (hkernel : e.KernelOk off cr3 s.space) (hrun : e.run off cr3 s.space = some t) :
    (tableSpaces off cr3).step s e ⟨t, s.calls ++ e.pageCalls off cr3 s.space⟩ :=
  ⟨⟨hkernel, hrun⟩, rfl⟩

theorem tableSpaces_init_newTableSpace (off : Nat) : (tableSpaces off 0x1000).init newTableSpace :=
  ⟨addressSpaces_init_newSpace off, rfl⟩

/-- Two allocations of a page, of which the second is touched. The first is freed; the walk will
stop at the page of the second, whose tables are in use. -/
theorem tables_given_back_second_page :
    ∃ s s₁ s₂ t, ((tableSpaces 0xffff880000000000 0x1000).guard fun s e =>
        e.KeepsTidy 0x1000 s).Reach
      [.allocVspace 1, .allocVspace 1, .pageFault 0x1000001000 threePages] s ∧
      (tableSpaces 0xffff880000000000 0x1000).step s (.freeVspace 0x1000000000) s₁ ∧
      (tableSpaces 0xffff880000000000 0x1000).Path s₁ [.turn] s₂ ∧
      (tableSpaces 0xffff880000000000 0x1000).step s₂ .freeReturn t ∧ NoEmptyTable 0x1000 t := by
  have hrun : ∃ s s₁ s₂ t, ((tableSpaces 0xffff880000000000 0x1000).guard fun s e =>
        e.KeepsTidy 0x1000 s).Reach
      [.allocVspace 1, .allocVspace 1, .pageFault 0x1000001000 threePages] s ∧
      (tableSpaces 0xffff880000000000 0x1000).step s (.freeVspace 0x1000000000) s₁ ∧
      (tableSpaces 0xffff880000000000 0x1000).Path s₁ [.turn] s₂ ∧
      (tableSpaces 0xffff880000000000 0x1000).step s₂ .freeReturn t ∧
      stopPage s.space.map 0x1000 0x1000000000 s.space.walk.mem = 0x1000001 ∧
      walkedPages s.space.map 0x1000 0x1000000000 s.space.walk.mem = 1 ∧
      hwPteOf s.space.walk.mem 0x1000 0x1000001 ≠ none := by
    have hinit : ((tableSpaces 0xffff880000000000 0x1000).guard fun s e =>
        e.KeepsTidy 0x1000 s).Reach [] newTableSpace := .init (tableSpaces_init_newTableSpace _)
    refine ⟨_, _, _, _, hinit.append_path
      (.cons ⟨trivial, tableSpaces_step trivial rfl⟩ (.cons ⟨trivial, tableSpaces_step trivial rfl⟩
        (.cons ⟨fun _ => ?_, tableSpaces_step ⟨threePages_ok, noHwTable_threePages⟩ rfl⟩ .nil))),
      tableSpaces_step trivial rfl, .cons (tableSpaces_step trivial rfl) .nil,
      tableSpaces_step trivial rfl, rfl, rfl, ?_⟩
    · exact ⟨_, List.mem_cons_of_mem _ List.mem_cons_self, rfl, by decide, by decide⟩
    · exact Option.some_ne_none _
  obtain ⟨s, s₁, s₂, t, hreach, hstart, hwalk, hreturn, hstop, hwalked, hmapped⟩ := hrun
  refine ⟨s, s₁, s₂, t, hreach, hstart, hwalk, hreturn,
    (tables_given_back_iff hreach hstart hwalk (by simp) hreturn).1.2 fun _ p u hinside _ => ?_⟩
  rw [hstop] at hinside
  have hpath : hwPath (pathOf 0x1000001) = pathOf 0x1000001 := rfl
  refine ⟨0x1000001, by decide, hpath ▸ hwPath_suffix hinside.suffix, hmapped, fun u hle hlt => ?_⟩
  rw [hwalked] at hlt
  have hself : hwPage 0x1000000 = 0x1000000 := rfl
  obtain rfl : u = 0x1000000 := by omega
  rw [hself]
  decide

/-- One page is allocated, touched and freed. Its tables are left behind, without entries, although
no allocation is left. -/
theorem freed_page_leaves_tables :
    ∃ s, (tableSpaces 0xffff880000000000 0x1000).init newTableSpace ∧
      (∀ v, hwPteOf newTableSpace.space.walk.mem 0x1000 v = none) ∧
      (tableSpaces 0xffff880000000000 0x1000).Path newTableSpace
        [.allocVspace 1, .pageFault 0x1000000000 threePages, .freeVspace 0x1000000000, .turn,
          .freeReturn] s ∧
      allocatedNodes s.space.map = [] ∧ hwTable s.space.walk.mem 0x1000 [0, 64, 0] = some 0x4000 ∧
      (∀ i < 512, (s.space.walk.mem (0x4000 + i * 8)).present = false) ∧ Taken 0x4000 s.calls := by
  refine ⟨_, tableSpaces_init_newTableSpace _, hwPteOf_emptyMem 0x1000,
    .cons (tableSpaces_step trivial rfl)
      (.cons (tableSpaces_step ⟨threePages_ok, noHwTable_threePages⟩ rfl)
        (.cons (tableSpaces_step trivial rfl) (.cons (tableSpaces_step trivial rfl)
          (.cons (tableSpaces_step trivial rfl) .nil)))), rfl, rfl, ?_, ?_⟩
  · decide +kernel
  · exact ⟨[acquire 0x2000, acquire 0x3000], acquire 0x4000, [], rfl, rfl,
      fun _ h => absurd h List.not_mem_nil⟩

end PetKernel.VirtualMemory
