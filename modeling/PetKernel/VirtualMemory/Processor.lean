import PetKernel.VirtualMemory.PageWalk

/-!
# The translation of the processor

The processor finds all entries of a table 8 bytes apart, at every level. The source agrees with it
except at the first level, where it takes only every eighth entry: the index `i` of the source is
the index `8 * i` of the processor (`hwPath`). So what the source calls the page `u` is the virtual
page `hwPage u`, and `hwPage u = u` as long as the first index is zero, as it is in the region.

`hwPteOf` is the translation of the processor. The pages that the source cannot name are those whose
first index is not a multiple of eight (`Foreign`). `SourceWrites` collects where the source may
write, and such writes do not reach foreign pages (`HwTablesOk.entryAt_foreign`). With that, what is
known of a page fault and of a turn of the walk in the terms of the source carries over to the
processor: `hwPteOf_petmemHandlePagefault` and `hwPteOf_walkStep`.
-/

set_option autoImplicit false

namespace PetKernel.VirtualMemory

open PetKernel.Library

theorem dvd_baseToPageAddr (e : PtEntry) : 2 ^ 12 ∣ baseToPageAddr e.baseAddr :=
  Nat.dvd_mul_left _ _

theorem owner_entry (_ t i : Nat) (ht : 2 ^ 12 ∣ t) (hi : i < 512) :
    (t + i * 8) / 2 ^ 12 * 2 ^ 12 = t := by
  obtain ⟨k, rfl⟩ := ht
  omega

theorem entry_inj (_ t i j : Nat) (h : t + i * 8 = t + j * 8) : i = j := by
  omega

/-- The page tables as the processor reads them. -/
def hwTables : Layout PtEntry where
  present := PtEntry.present
  target e := baseToPageAddr e.baseAddr
  slot _ t i := t + i * 8
  fanout _ := 512
  IsTable t := 2 ^ 12 ∣ t
  owner a := a / 2 ^ 12 * 2 ^ 12
  isTable_target := dvd_baseToPageAddr
  owner_slot := owner_entry
  slot_inj := entry_inj

/-- The present entry of the last level that the processor finds for a virtual page. -/
def hwPteOf (mem : PtMem) (cr3 v : Nat) : Option PtEntry :=
  hwTables.lookup mem (cr3ToPml4e64 cr3) (pathOf v)

/-- The page tables that the processor reads form a tree. -/
def HwTablesOk (mem : PtMem) (cr3 : Nat) : Prop := hwTables.IsTree 4 mem (cr3ToPml4e64 cr3)

/-- The virtual pages that the processor knows. -/
def hwMaxPage : Nat := 2 ^ 36

theorem pathOf_inj_hw {v w : Nat} (hv : v < hwMaxPage) (hw : w < hwMaxPage)
    (h : pathOf v = pathOf w) : v = w := by
  unfold hwMaxPage at hv hw
  simp only [pathOf, List.cons.injEq, and_true] at h
  omega

theorem hwTables_validPath_pathOf (v : Nat) : hwTables.ValidPath (pathOf v) :=
  ⟨Nat.mod_lt _ (by decide), Nat.mod_lt _ (by decide), Nat.mod_lt _ (by decide),
    Nat.mod_lt _ (by decide), trivial⟩

/-! ## The paths of the source -/

/-- The way of the processor to what the source finds at the end of a path. -/
def hwPath : List Nat → List Nat
  | [] => []
  | [i] => [8 * i]
  | i :: j :: p => i :: hwPath (j :: p)

@[simp]
theorem length_hwPath (p : List Nat) : (hwPath p).length = p.length := by
  induction p with
  | nil => rfl
  | cons i p ih =>
      cases p with
      | nil => rfl
      | cons j p => exact congrArg Nat.succ ih

theorem hwPath_inj {p q : List Nat} (h : hwPath p = hwPath q) : p = q := by
  have hlen : p.length = q.length := by rw [← length_hwPath p, h, length_hwPath]
  induction p generalizing q with
  | nil => exact (List.length_eq_zero_iff.1 hlen.symm).symm
  | cons i p ih =>
      cases q with
      | nil => cases hlen
      | cons j q =>
          have hlen' : p.length = q.length := Nat.succ.inj hlen
          match p, q with
          | [], [] =>
              simp only [hwPath, List.cons.injEq, and_true] at h
              rw [show i = j by omega]
          | i' :: p, j' :: q =>
              injection h with hi hrest
              rw [hi, ih hrest hlen']

theorem validPath_hwPath {p : List Nat} (h : pageTables.ValidPath p) :
    hwTables.ValidPath (hwPath p) := by
  induction p with
  | nil => trivial
  | cons i p ih =>
      cases p with
      | nil =>
          have hi : i < 64 := h.1
          exact ⟨show 8 * i < 512 by omega, trivial⟩
      | cons j p => exact ⟨h.1, ih h.2⟩

variable {mem mem' : PtMem} {cr3 : Nat}

/-- The entries of the source are entries of the processor. -/
theorem entryAt_hwPath_of_tableAt {root i : Nat} {p : List Nat}
    (h : hwTables.tableAt mem root (hwPath p) = pageTables.tableAt mem root p) :
    hwTables.entryAt mem root (hwPath (i :: p)) = pageTables.entryAt mem root (i :: p) := by
  cases p with
  | nil =>
      show some (mem (root + 8 * i * 8)) = some (mem (root + i * 8 * 8))
      rw [Nat.mul_comm 8 i]
  | cons j p =>
      rw [hwPath, Layout.entryAt, Layout.entryAt, h]
      rfl

theorem tableAt_hwPath (mem : PtMem) (root : Nat) (p : List Nat) :
    hwTables.tableAt mem root (hwPath p) = pageTables.tableAt mem root p := by
  induction p with
  | nil => rfl
  | cons i p ih =>
      have hentry := entryAt_hwPath_of_tableAt (i := i) ih
      have hcons : ∃ k q, hwPath (i :: p) = k :: q := by
        cases p with
        | nil => exact ⟨_, _, rfl⟩
        | cons j p => exact ⟨_, _, rfl⟩
      obtain ⟨k, q, hkq⟩ := hcons
      apply Option.ext
      intro t
      rw [hkq, Layout.tableAt_cons_eq_some, Layout.tableAt_cons_eq_some, ← hkq, hentry]
      rfl

theorem lookup_hwPath (mem : PtMem) (root : Nat) (p : List Nat) :
    hwTables.lookup mem root (hwPath p) = pageTables.lookup mem root p := by
  cases p with
  | nil => rfl
  | cons i p =>
      rw [Layout.lookup, entryAt_hwPath_of_tableAt (tableAt_hwPath mem root p)]
      rfl

/-- A tree for the processor is one for the source. -/
theorem HwTablesOk.tablesOk (h : HwTablesOk mem cr3) : TablesOk mem cr3 := by
  refine ⟨h.root_isTable, fun p q t hp hq hpd hqd ht hu => hwPath_inj ?_⟩
  refine h.inj _ _ t (validPath_hwPath hp) (validPath_hwPath hq) ?_ ?_ ?_ ?_
  · rw [length_hwPath]
    exact hpd
  · rw [length_hwPath]
    exact hqd
  · rw [tableAt_hwPath, ht]
  · rw [tableAt_hwPath, hu]

/-- The virtual page that the source reaches with the indices of the page `u`. -/
def hwPage (u : Nat) : Nat := u / 2 ^ 27 * 2 ^ 30 + u % 2 ^ 27

theorem hwPage_of_lt {u : Nat} (hu : u < 2 ^ 27) : hwPage u = u := by
  unfold hwPage
  omega

theorem pathOf_hwPage {u : Nat} (hu : u < maxPage) : pathOf (hwPage u) = hwPath (pathOf u) := by
  unfold hwPage maxPage at *
  simp only [pathOf, hwPath, List.cons.injEq, and_true]
  omega

/-- What the source finds for the page `u` is what the processor finds for `hwPage u`. -/
theorem hwPteOf_hwPage {u : Nat} (hu : u < maxPage) :
    hwPteOf mem cr3 (hwPage u) = pteOf mem cr3 u := by
  rw [hwPteOf, pathOf_hwPage hu, lookup_hwPath]
  rfl

/-! ## Pages that the source cannot name -/

/-- The first index is not a multiple of eight. -/
def Foreign (q : List Nat) : Prop := ∃ i ∈ q.getLast?, ¬ 8 ∣ i

theorem not_foreign_hwPath (p : List Nat) : ¬ Foreign (hwPath p) := by
  rintro ⟨i, hi, hdvd⟩
  induction p with
  | nil => cases hi
  | cons j p ih =>
      cases p with
      | nil =>
          cases hi
          exact hdvd (Nat.dvd_mul_right 8 j)
      | cons k p =>
          rw [hwPath, List.getLast?_cons_of_ne_nil] at hi
          · exact ih hi
          · intro hnil
            have hlen := length_hwPath (k :: p)
            rw [hnil] at hlen
            cases hlen

/-- A path of the processor is one of the source or is foreign. -/
theorem exists_hwPath_or_foreign {q : List Nat} (h : hwTables.ValidPath q) :
    (∃ p, pageTables.ValidPath p ∧ hwPath p = q) ∨ Foreign q := by
  induction q with
  | nil => exact Or.inl ⟨[], trivial, rfl⟩
  | cons i q ih =>
      cases q with
      | nil =>
          by_cases hdvd : 8 ∣ i
          · obtain ⟨k, rfl⟩ := hdvd
            have hi : 8 * k < 512 := h.1
            exact Or.inl ⟨[k], ⟨show k < 64 by omega, trivial⟩, rfl⟩
          · exact Or.inr ⟨i, rfl, hdvd⟩
      | cons j q =>
          rcases ih h.2 with ⟨p, hp, hpq⟩ | ⟨k, hk, hdvd⟩
          · obtain ⟨k, p, rfl⟩ : ∃ k p', p = k :: p' := by
              cases p with
              | nil => cases hpq
              | cons k p => exact ⟨k, p, rfl⟩
            refine Or.inl ⟨i :: k :: p, ⟨?_, hp⟩, ?_⟩
            · exact h.1
            · rw [hwPath, hpq]
          · refine Or.inr ⟨k, ?_, hdvd⟩
            rw [List.getLast?_cons_cons]
            exact hk

/-- A virtual page is one of the source or is foreign. -/
theorem exists_hwPage_or_foreign {v : Nat} (hv : v < hwMaxPage) :
    (∃ u < maxPage, hwPage u = v) ∨ Foreign (pathOf v) := by
  by_cases hdvd : 8 ∣ v / 2 ^ 27 % 512
  · refine Or.inl ⟨v / 2 ^ 30 * 2 ^ 27 + v % 2 ^ 27, ?_, ?_⟩
    · unfold hwMaxPage maxPage at *
      omega
    · unfold hwMaxPage hwPage at *
      omega
  · exact Or.inr ⟨_, rfl, hdvd⟩

/-- A path is foreign if the end of it is. -/
theorem Foreign.of_suffix {q q' : List Nat} (h : Foreign q) (hs : q' <:+ q) (hne : q' ≠ []) :
    Foreign q' := by
  obtain ⟨r, rfl⟩ := hs
  obtain ⟨i, hi, hdvd⟩ := h
  rw [List.getLast?_append_of_ne_nil _ hne] at hi
  exact ⟨i, hi, hdvd⟩

/-- A foreign page is none that the source reaches. -/
theorem Foreign.ne_hwPage {u v : Nat} (hf : Foreign (pathOf v)) (hu : u < maxPage) :
    v ≠ hwPage u := by
  rintro rfl
  rw [pathOf_hwPage hu] at hf
  exact not_foreign_hwPath _ hf

/-! ## What the source writes -/

/-- The address of an entry of the first level that the source can name, or of an entry of a table
below such an entry. -/
def SourceSlot (mem : PtMem) (cr3 a : Nat) : Prop :=
  (∃ i < 64, a = pmlSlot cr3 i) ∨
    ∃ i p, pageTables.ValidPath (i :: p) ∧ p.length + 1 < 4 ∧
      pageTables.tableAt mem (cr3ToPml4e64 cr3) (i :: p) = some (pageTables.owner a)

theorem sourceSlot_slot {i t : Nat} {p : List Nat} (h : TablesOk mem cr3)
    (hp : pageTables.ValidPath (i :: p)) (hlen : p.length < 4)
    (ht : pageTables.tableAt mem (cr3ToPml4e64 cr3) p = some t) :
    SourceSlot mem cr3 (pageTables.slot p.length t i) := by
  cases p with
  | nil =>
      obtain rfl := Option.some.inj ht
      exact Or.inl ⟨i, hp.1, rfl⟩
  | cons j p =>
      refine Or.inr ⟨j, p, hp.2, hlen, ?_⟩
      rw [pageTables.owner_slot _ _ _ (h.isTable ht) hp.1]
      exact ht

/-- The source writes entries that it can name, and pages in `new`. -/
def SourceWrites (mem mem' : PtMem) (cr3 : Nat) (new : Nat → Prop) : Prop :=
  ∀ a, mem' a = mem a ∨ new (pageTables.owner a) ∨ SourceSlot mem cr3 a

namespace SourceWrites

variable {mem'' : PtMem} {new new' : Nat → Prop}

theorem refl : SourceWrites mem mem cr3 new := fun _ => Or.inl rfl

theorem imp (h : SourceWrites mem mem' cr3 new) (himp : ∀ t, new t → new' t) :
    SourceWrites mem mem' cr3 new' :=
  fun a => (h a).imp_right (Or.imp_left (himp _))

/-- The tables in between are old ones or new ones. -/
theorem trans (h : SourceWrites mem mem' cr3 new) (hs : SamePages mem mem' cr3 new)
    (h' : SourceWrites mem' mem'' cr3 new') :
    SourceWrites mem mem'' cr3 fun t => new t ∨ new' t := by
  intro a
  rcases h' a with hsame | hnew | hpml | ⟨i, p, hp, hlen, ht⟩
  · rw [hsame]
    exact h.imp (fun _ => Or.inl) a
  · exact Or.inr (Or.inl (Or.inr hnew))
  · exact Or.inr (Or.inr (Or.inl hpml))
  · rcases hs.old _ _ hp hlen ht with hnew | ht
    · exact Or.inr (Or.inl (Or.inl hnew))
    · exact Or.inr (Or.inr (Or.inr ⟨i, p, hp, hlen, ht⟩))

end SourceWrites

/-- No table that the processor finds is in `new`. -/
def NoHwTable (mem : PtMem) (cr3 : Nat) (new : Nat → Prop) : Prop :=
  ∀ t, new t → ∀ q, hwTables.ValidPath q → q.length < 4 →
    hwTables.tableAt mem (cr3ToPml4e64 cr3) q ≠ some t

theorem noHwTable_false : NoHwTable mem cr3 fun _ => False := fun _ hnew => hnew.elim

namespace HwTablesOk

variable {new : Nat → Prop} {q : List Nat}

/-- The source does not write the entries on a foreign path. -/
theorem foreign_slot (h : HwTablesOk mem cr3) (hw : SourceWrites mem mem' cr3 new)
    (hfresh : NoHwTable mem cr3 new) (hq : hwTables.ValidPath q) (hlen : q.length ≤ 4)
    (hf : Foreign q) {j t : Nat} {q' : List Nat} (hs : j :: q' <:+ q)
    (ht : hwTables.tableAt mem (cr3ToPml4e64 cr3) q' = some t) :
    mem' (hwTables.slot q'.length t j) = mem (hwTables.slot q'.length t j) := by
  have hvalid := hq.of_suffix hs
  have hlen' : q'.length < 4 := Nat.lt_of_lt_of_le hs.length_le hlen
  have howner : pageTables.owner (hwTables.slot q'.length t j) = t :=
    hwTables.owner_slot _ _ _ (h.isTable ht) hvalid.1
  rcases hw (hwTables.slot q'.length t j) with hsame | hnew | ⟨i, hi, heq⟩ | ⟨i, p, hp, hplen, hu⟩
  · exact hsame
  · rw [howner] at hnew
    exact absurd ht (hfresh t hnew q' hvalid.2 hlen')
  · -- an entry of the root, with an index that is no multiple of eight
    have hroot : pageTables.owner (pmlSlot cr3 i) = cr3ToPml4e64 cr3 :=
      pageTables.owner_slot 0 _ i h.root_isTable hi
    rw [← heq, howner] at hroot
    subst hroot
    obtain rfl := h.inj q' [] _ hvalid.2 trivial hlen' (by decide) ht rfl
    obtain ⟨k, hk, hdvd⟩ := hf.of_suffix hs (List.cons_ne_nil _ _)
    obtain rfl : j = k := Option.some.inj hk
    refine absurd ⟨i, ?_⟩ hdvd
    change cr3ToPml4e64 cr3 + j * 8 = cr3ToPml4e64 cr3 + i * 8 * 8 at heq
    omega
  · -- a table of the source is at the end of no foreign path
    rw [howner, ← tableAt_hwPath] at hu
    have heq := h.inj q' _ t hvalid.2 (validPath_hwPath hp) hlen' (by simpa using hplen) ht hu
    subst heq
    have hne : hwPath (i :: p) ≠ [] := by
      intro hnil
      have hzero := length_hwPath (i :: p)
      rw [hnil] at hzero
      cases hzero
    exact absurd (hf.of_suffix ((List.suffix_cons j _).trans hs) hne) (not_foreign_hwPath _)

theorem tableAt_foreign (h : HwTablesOk mem cr3) (hw : SourceWrites mem mem' cr3 new)
    (hfresh : NoHwTable mem cr3 new) (hq : hwTables.ValidPath q) (hlen : q.length ≤ 4)
    (hf : Foreign q) :
    hwTables.tableAt mem' (cr3ToPml4e64 cr3) q = hwTables.tableAt mem (cr3ToPml4e64 cr3) q :=
  Layout.tableAt_congr fun _ _ _ hs ht => h.foreign_slot hw hfresh hq hlen hf hs ht

/-- The source changes no foreign page. -/
theorem hwPteOf_foreign (h : HwTablesOk mem cr3) (hw : SourceWrites mem mem' cr3 new)
    (hfresh : NoHwTable mem cr3 new) {v : Nat} (hf : Foreign (pathOf v)) :
    hwPteOf mem' cr3 v = hwPteOf mem cr3 v := by
  have hq := hwTables_validPath_pathOf v
  rw [hwPteOf, hwPteOf, Layout.lookup, Layout.lookup,
    Layout.entryAt_congr fun _ _ _ hs ht => h.foreign_slot hw hfresh hq (Nat.le_refl 4) hf hs ht]

/-- If the tables of the source form a tree again, then so do those of the processor. -/
theorem of_source (h : HwTablesOk mem cr3) (hw : SourceWrites mem mem' cr3 new)
    (hfresh : NoHwTable mem cr3 new) (htables : TablesOk mem' cr3)
    (hold : ∀ q t, pageTables.ValidPath q → q.length < 4 →
      pageTables.tableAt mem' (cr3ToPml4e64 cr3) q = some t →
      new t ∨ pageTables.tableAt mem (cr3ToPml4e64 cr3) q = some t) : HwTablesOk mem' cr3 := by
  -- a table of the source is not at the end of a foreign path as well
  have hmixed : ∀ p q t, pageTables.ValidPath p → hwTables.ValidPath q → p.length < 4 →
      q.length < 4 → pageTables.tableAt mem' (cr3ToPml4e64 cr3) p = some t → Foreign q →
      hwTables.tableAt mem' (cr3ToPml4e64 cr3) q ≠ some t := by
    intro p q t hp hq hpd hqd ht hf hu
    rw [h.tableAt_foreign hw hfresh hq (Nat.le_of_lt hqd) hf] at hu
    rcases hold p t hp hpd ht with hnew | ht
    · exact hfresh t hnew q hq hqd hu
    · rw [← tableAt_hwPath] at ht
      have heq := h.inj _ _ t (validPath_hwPath hp) hq (by simpa using hpd) hqd ht hu
      exact not_foreign_hwPath p (heq ▸ hf)
  refine ⟨h.root_isTable, fun p q t hp hq hpd hqd ht hu => ?_⟩
  rcases exists_hwPath_or_foreign hp with ⟨p, hp', rfl⟩ | hfp
  · rw [tableAt_hwPath] at ht
    rw [length_hwPath] at hpd
    rcases exists_hwPath_or_foreign hq with ⟨q, hq', rfl⟩ | hfq
    · rw [tableAt_hwPath] at hu
      rw [length_hwPath] at hqd
      rw [htables.inj p q t hp' hq' hpd hqd ht hu]
    · exact absurd hu (hmixed p q t hp' hq hpd hqd ht hfq)
  · rcases exists_hwPath_or_foreign hq with ⟨q, hq', rfl⟩ | hfq
    · rw [tableAt_hwPath] at hu
      rw [length_hwPath] at hqd
      exact absurd ht (hmixed q p t hq' hp hqd hpd hu hfp)
    · rw [h.tableAt_foreign hw hfresh hp (Nat.le_of_lt hpd) hfp] at ht
      rw [h.tableAt_foreign hw hfresh hq (Nat.le_of_lt hqd) hfq] at hu
      exact h.inj p q t hp hq hpd hqd ht hu

end HwTablesOk

/-! ## A turn of the walk -/

/-- From `mem` to `mem'` entries at addresses in `S` have become absent, and nothing else has
changed. -/
def Clears (S : Nat → Prop) (mem mem' : PtMem) : Prop :=
  ∀ a, mem' a = mem a ∨ ((mem' a).present = false ∧ S a)

namespace Clears

variable {S : Nat → Prop} {mem'' : PtMem}

theorem refl : Clears S mem mem := fun _ => Or.inl rfl

theorem mono {S' : Nat → Prop} (h : Clears S mem mem') (hS : ∀ a, S a → S' a) :
    Clears S' mem mem' :=
  fun a => (h a).imp_right (And.imp_right (hS a))

theorem trans (h : Clears S mem mem') (h' : Clears S mem' mem'') : Clears S mem mem'' := by
  intro a
  rcases h' a with hsame | hclear
  · rw [hsame]
    exact h a
  · exact Or.inr hclear

/-- What is present was there before. -/
theorem eq_of_present (h : Clears S mem mem') {a : Nat} (hpres : (mem' a).present = true) :
    mem' a = mem a := by
  rcases h a with hsame | ⟨habs, -⟩
  · exact hsame
  · rw [hpres] at habs
    cases habs

theorem clearPresent {slot : Nat} (hS : S slot) : Clears S mem (clearPresent mem slot) := by
  intro a
  unfold VirtualMemory.clearPresent
  rcases eq_or_ne a slot with rfl | hne
  · rw [Function.update_self]
    exact Or.inr ⟨rfl, hS⟩
  · exact Or.inl (Function.update_of_ne hne _ _)

/-- A table that is empty is unlinked. -/
theorem release {slot : Nat} {b : Bool} (hS : S slot) :
    Clears S mem (if b then VirtualMemory.clearPresent mem slot else mem) := by
  split
  · exact clearPresent hS
  · exact refl

/-- An increment clears the entry of a table only if the index below starts again. -/
theorem incrementPdpeIndex {pml : Nat} (w : Walk) (hpml : w.pdpeIndex + 1 = maxEntries → S pml) :
    Clears S w.mem (incrementPdpeIndex pml w).mem := by
  rw [VirtualMemory.incrementPdpeIndex]
  split
  next hwrap => exact release (hpml hwrap)
  next => exact refl

theorem incrementPdeIndex {pdpe pml : Nat} (w : Walk)
    (hpdpe : w.pdeIndex + 1 = maxEntries → S pdpe)
    (hpml : w.pdeIndex + 1 = maxEntries → w.pdpeIndex + 1 = maxEntries → S pml) :
    Clears S w.mem (incrementPdeIndex pdpe pml w).mem := by
  rw [VirtualMemory.incrementPdeIndex]
  split
  next hwrap => exact (release (hpdpe hwrap)).trans (incrementPdpeIndex _ (hpml hwrap))
  next => exact refl

theorem incrementPteIndex {pde pdpe pml : Nat} (w : Walk)
    (hpde : w.pteIndex + 1 = maxEntries → S pde)
    (hpdpe : w.pteIndex + 1 = maxEntries → w.pdeIndex + 1 = maxEntries → S pdpe)
    (hpml : w.pteIndex + 1 = maxEntries → w.pdeIndex + 1 = maxEntries →
      w.pdpeIndex + 1 = maxEntries → S pml) :
    Clears S w.mem (incrementPteIndex pde pdpe pml w).mem := by
  rw [VirtualMemory.incrementPteIndex]
  split
  next hwrap =>
    exact (release (hpde hwrap)).trans (incrementPdeIndex _ (hpdpe hwrap) (hpml hwrap))
  next => exact refl

end Clears

section Turn

variable {off : Nat} {w w' : Walk}

/-- The address of an entry on the way to the page at the cursor. -/
def Walk.OnPath (cr3 : Nat) (w : Walk) (a : Nat) : Prop :=
  ∃ i p t, i :: p <:+ w.path ∧ pageTables.tableAt w.mem (cr3ToPml4e64 cr3) p = some t ∧
    a = pageTables.slot p.length t i

/-- A turn of the walk clears entries on the way to the page at the cursor. -/
theorem walkStep_clears (hstep : walkStep off cr3 w = some w') :
    Clears (w.OnPath cr3) w.mem w'.mem := by
  have hcase := turnCase off cr3 w
  rw [hstep] at hcase
  generalize turnFrame cr3 w = frame at hcase
  generalize hres : some w' = res at hcase
  have hon₁ : w.OnPath cr3 (pmlSlot cr3 w.pmlIndex) := ⟨_, [], _, w.pml_suffix_path, rfl, rfl⟩
  have hon₂ : ∀ {t₁}, pageTables.tableAt w.mem (cr3ToPml4e64 cr3) [w.pmlIndex] = some t₁ →
      w.OnPath cr3 (pageTables.slot 1 t₁ w.pdpeIndex) :=
    fun ht₁ => ⟨_, _, _, w.pdpe_suffix_path, ht₁, rfl⟩
  have hon₃ : ∀ {t₂}, pageTables.tableAt w.mem (cr3ToPml4e64 cr3) [w.pdpeIndex, w.pmlIndex] =
      some t₂ → w.OnPath cr3 (pageTables.slot 2 t₂ w.pdeIndex) :=
    fun ht₂ => ⟨_, _, _, w.pde_suffix_path, ht₂, rfl⟩
  cases hcase with
  | absentPml habs =>
      obtain rfl := Option.some.inj hres
      exact Clears.refl
  | absentPdpe ht₁ habs =>
      obtain rfl := Option.some.inj hres
      exact Clears.incrementPdpeIndex _ fun _ => hon₁
  | absentPde ht₁ ht₂ habs =>
      obtain rfl := Option.some.inj hres
      exact Clears.incrementPdeIndex _ (fun _ => hon₂ ht₁) fun _ _ => hon₁
  | absentPte ht₁ ht₂ ht₃ habs =>
      obtain rfl := Option.some.inj hres
      exact Clears.incrementPteIndex _ (fun _ => hon₃ ht₂) (fun _ _ => hon₂ ht₁)
        fun _ _ _ => hon₁
  | page ht₁ ht₂ ht₃ he =>
      obtain ⟨pools, -, rfl⟩ := Option.map_eq_some_iff.1 hres.symm
      exact (Clears.clearPresent ⟨_, _, _, List.suffix_refl w.path, ht₃, rfl⟩).trans
        (Clears.incrementPteIndex _ (fun _ => hon₃ ht₂) (fun _ _ => hon₂ ht₁) fun _ _ _ => hon₁)

theorem Clears.sourceWrites (h : TablesOk w.mem cr3) (hr : w.InRange)
    (hclears : Clears (w.OnPath cr3) w.mem mem') : SourceWrites w.mem mem' cr3 fun _ => False := by
  intro a
  rcases hclears a with hsame | ⟨-, i, p, t, hs, ht, rfl⟩
  · exact Or.inl hsame
  · exact Or.inr (Or.inr (sourceSlot_slot h (hr.validPath.of_suffix hs)
      (Nat.lt_of_succ_le hs.length_le) ht))

theorem hwPage_inj {u u' : Nat} (h : hwPage u = hwPage u') : u = u' := by
  unfold hwPage at h
  omega

/-- The page at the cursor, as the processor sees it. -/
theorem hwPteOf_cursor (hr : w.InRange) : hwPteOf w.mem cr3 (hwPage w.cursor) =
    pageTables.lookup w.mem (cr3ToPml4e64 cr3) w.path := by
  rw [hwPteOf_hwPage hr.cursor_lt_maxPage, pteOf, hr.pathOf_cursor]

/-- After a turn, the page at the cursor is not mapped. No other page has changed. -/
theorem hwPteOf_walkStep (h : HwTablesOk w.mem cr3) (hr : w.InRange)
    (hstep : walkStep off cr3 w = some w') :
    HwTablesOk w'.mem cr3 ∧ ∀ v < hwMaxPage, hwPteOf w'.mem cr3 v =
      if v = hwPage w.cursor then none else hwPteOf w.mem cr3 v := by
  have hclears := walkStep_clears hstep
  have hspec := walkStep_spec h.tablesOk hr hstep
  refine ⟨h.of_imp fun q t _ _ ht => Layout.tableAt_of_present (fun a => hclears.eq_of_present) ht,
    fun v hv => ?_⟩
  rcases exists_hwPage_or_foreign hv with ⟨u, hu, rfl⟩ | hf
  · rw [hwPteOf_hwPage hu, hwPteOf_hwPage hu]
    rcases eq_or_ne u w.cursor with rfl | hne
    · rw [if_pos rfl]
      have hcounts := hspec.counts
      have hcovers := hspec.covers
      exact hspec.unmapped _ (Nat.le_refl _) (by omega)
    · rw [if_neg fun heq => hne (hwPage_inj heq)]
      rcases hspec.effect with ⟨hpages, -⟩ | ⟨e, -, -, -, hlookup⟩
      · exact hpages.pteOf_eq hu
      · rw [pteOf, hlookup _ (validPath_pathOf hu) rfl, if_neg]
        · rfl
        · rw [← hr.pathOf_cursor]
          exact fun heq => hne (pathOf_inj hu hr.cursor_lt_maxPage heq)
  · rw [if_neg (hf.ne_hwPage hr.cursor_lt_maxPage)]
    exact h.hwPteOf_foreign (hclears.sourceWrites h.tablesOk hr) noHwTable_false hf

end Turn

/-! ## A page fault -/

section Fault

variable {off faultAddr : Nat} {zeroed : ZeroedPages}

theorem sourceWrites_linkTable {i t page : Nat} {p : List Nat} (h : TablesOk mem cr3)
    (hp : pageTables.ValidPath (i :: p)) (hlen : p.length < 4)
    (ht : pageTables.tableAt mem (cr3ToPml4e64 cr3) p = some t) (haligned : 2 ^ 12 ∣ pa off page) :
    SourceWrites mem (linkTable off mem (pageTables.slot p.length t i) page) cr3
      (· = pa off page) := by
  rw [linkTable]
  split
  · intro a
    rcases eq_or_ne a (pageTables.slot p.length t i) with rfl | hne
    · exact Or.inr (Or.inr (sourceSlot_slot h hp hlen ht))
    · rw [Function.update_of_ne hne]
      by_cases howner : pageTables.owner a = pa off page
      · exact Or.inr (Or.inl howner)
      · exact Or.inl (zeroPage_of_owner_ne haligned howner)
  · exact SourceWrites.refl

/-- The way down writes the entries on it and the zeroed pages. -/
theorem sourceWrites_descend (h : TablesOk mem cr3) (hv : faultAddr / 2 ^ 12 < maxPage)
    (hz : zeroed.Ok off mem cr3) :
    SourceWrites mem (descend off cr3 faultAddr zeroed mem).1 cr3 (zeroed.IsPage off) := by
  have hvalid := validPath_pathOf hv
  rw [pathOf_pageNumber] at hvalid
  -- level by level, as in `TablesOk.descend`
  obtain ⟨hs₁, ht₁⟩ := h.linkTable hvalid.2.2.2 (by decide) rfl hz.pdpe_fresh
  have hw₁ := sourceWrites_linkTable h hvalid.2.2.2 (by decide) rfl hz.pdpe_fresh.aligned
  obtain ⟨hs₂, ht₂⟩ := hs₁.tables.linkTable hvalid.2.2
    (by simp) ht₁ (hs₁.freshPage hz.pde_fresh hz.pde_ne_pdpe)
  have hw₂ := sourceWrites_linkTable hs₁.tables hvalid.2.2 (by simp) ht₁ hz.pde_fresh.aligned
  have hw₃ := sourceWrites_linkTable hs₂.tables hvalid.2 (by simp) ht₂ hz.pte_fresh.aligned
  exact ((hw₁.trans hs₁ hw₂).trans (hs₁.trans hs₂) hw₃).imp fun _ hnew => or_assoc.1 hnew

/-- The handler writes entries that it can name and the zeroed pages, and a table that it leaves
behind is an old one or a zeroed page. -/
theorem sourceWrites_petmemHandlePagefault {map : MemMap} {pools pools' : List BuddyMempool}
    {r : Int}
    (h : TablesOk mem cr3) (hv : vaddrInMap faultAddr map = true → faultAddr / 2 ^ 12 < maxPage)
    (hz : zeroed.Ok off mem cr3)
    (hfault : petmemHandlePagefault off map cr3 faultAddr zeroed mem pools =
      some (r, mem', pools')) :
    SourceWrites mem mem' cr3 (zeroed.IsPage off) ∧
    ∀ q t, pageTables.ValidPath q → q.length < 4 →
      pageTables.tableAt mem' (cr3ToPml4e64 cr3) q = some t →
      zeroed.IsPage off t ∨ pageTables.tableAt mem (cr3ToPml4e64 cr3) q = some t := by
  rw [petmemHandlePagefault] at hfault
  split at hfault
  · cases hfault
    exact ⟨SourceWrites.refl, fun _ _ _ _ ht => Or.inr ht⟩
  next hin =>
    replace hv := hv (by simpa using hin)
    obtain ⟨t, hs, ht, hslot⟩ := h.descend hv hz
    have hw := sourceWrites_descend h hv hz
    have hvalid := validPath_pathOf hv
    rw [pathOf_pageNumber] at hvalid
    simp only at hfault
    rw [hslot] at hfault
    split at hfault
    next =>
      obtain ⟨⟨page, pools₁⟩, -, heq⟩ := Option.bind_eq_some_iff.1 hfault
      cases heq
      have hleaf : SourceWrites (descend off cr3 faultAddr zeroed mem).1
          (Function.update (descend off cr3 faultAddr zeroed mem).1
            (pageTables.slot 3 t (pte64Index faultAddr)) (mappedEntry page)) cr3
              (zeroed.IsPage off) := by
        intro a
        rcases eq_or_ne a (pageTables.slot 3 t (pte64Index faultAddr)) with rfl | hne
        · exact Or.inr (Or.inr (sourceSlot_slot hs.tables hvalid (by simp) ht))
        · exact Or.inl (Function.update_of_ne hne _ _)
      refine ⟨(hw.trans hs hleaf).imp fun _ hor => hor.elim id id, fun q u hq hlen hu => ?_⟩
      -- an entry of the last level leads to no table
      have htable := hs.tables.tableAt_update (e := mappedEntry page) hvalid (by simp) ht hq
        (Nat.le_of_lt hlen) (Layout.not_cons_suffix_of_length rfl hlen)
      exact hs.old q u hq hlen (htable.symm.trans hu)
    next =>
      cases hfault
      exact ⟨hw, hs.old⟩

/-- A fault maps the page of the fault, unless it is mapped already, and changes no other page that
the processor sees. -/
theorem hwPteOf_petmemHandlePagefault {map : MemMap} {pools pools' : List BuddyMempool} {r : Int}
    (h : HwTablesOk mem cr3) (hv : vaddrInMap faultAddr map = true → faultAddr / 2 ^ 12 < 2 ^ 27)
    (hz : zeroed.Ok off mem cr3) (hfresh : NoHwTable mem cr3 (zeroed.IsPage off))
    (hfault : petmemHandlePagefault off map cr3 faultAddr zeroed mem pools =
      some (r, mem', pools')) :
    HwTablesOk mem' cr3 ∧
    ((∀ v < hwMaxPage, hwPteOf mem' cr3 v = hwPteOf mem cr3 v) ∨
      ∃ page, vaddrInMap faultAddr map = true ∧ hwPteOf mem cr3 (faultAddr / 2 ^ 12) = none ∧
        petmemAllocPages off pools 1 = some (page, pools') ∧
        ∀ v < hwMaxPage, hwPteOf mem' cr3 v =
          if v = faultAddr / 2 ^ 12 then some (mappedEntry page) else hwPteOf mem cr3 v) := by
  have hv' : vaddrInMap faultAddr map = true → faultAddr / 2 ^ 12 < maxPage := fun hin =>
    Nat.lt_of_lt_of_le (hv hin) (by decide)
  obtain ⟨hw, hold⟩ := sourceWrites_petmemHandlePagefault h.tablesOk hv' hz hfault
  obtain ⟨htables, hcases⟩ := pteOf_petmemHandlePagefault h.tablesOk hv' hz hfault
  refine ⟨h.of_source hw hfresh htables hold, ?_⟩
  rcases hcases with ⟨-, hsame, -⟩ | ⟨page, hin, hnone, halloc, hpte⟩
  · left
    intro v hv
    rcases exists_hwPage_or_foreign hv with ⟨u, hu, rfl⟩ | hf
    · rw [hwPteOf_hwPage hu, hwPteOf_hwPage hu, hsame u hu]
    · exact h.hwPteOf_foreign hw hfresh hf
  · -- in the region the source and the processor call a page the same
    have hpage := hwPage_of_lt (hv hin)
    refine Or.inr ⟨page, hin, ?_, halloc, fun v hv => ?_⟩
    · rw [← hpage, hwPteOf_hwPage (hv' hin)]
      exact hnone
    · rcases exists_hwPage_or_foreign hv with ⟨u, hu, rfl⟩ | hf
      · rw [hwPteOf_hwPage hu, hwPteOf_hwPage hu, hpte u hu]
        rcases eq_or_ne u (faultAddr / 2 ^ 12) with rfl | hne
        · rw [if_pos rfl, if_pos hpage]
        · rw [if_neg hne, if_neg fun heq => hne (hwPage_inj (heq.trans hpage.symm))]
      · rw [if_neg (hpage ▸ hf.ne_hwPage (hv' hin))]
        exact h.hwPteOf_foreign hw hfresh hf

end Fault

/-! ## Page tables in which nothing is present -/

theorem hwTablesOk_emptyMem (cr3 : Nat) : HwTablesOk emptyMem cr3 := by
  refine ⟨Nat.dvd_mul_left _ _, fun p q t _ _ _ _ hp hq => ?_⟩
  rw [(Layout.tableAt_of_absent (fun _ => rfl) hp).1,
    (Layout.tableAt_of_absent (fun _ => rfl) hq).1]

theorem hwPteOf_emptyMem (cr3 v : Nat) : hwPteOf emptyMem cr3 v = none := by
  cases hpte : hwPteOf emptyMem cr3 v with
  | none => rfl
  | some e =>
      obtain ⟨he, hpres⟩ := Layout.lookup_eq_some.1 hpte
      obtain ⟨u, -, rfl⟩ := Layout.entryAt_cons_eq_some.1 he
      exact absurd hpres Bool.false_ne_true

theorem noHwTable_threePages :
    NoHwTable emptyMem 0x1000 (threePages.IsPage 0xffff880000000000) := by
  intro t hpage q _ _ ht
  obtain ⟨-, rfl⟩ := Layout.tableAt_of_absent (fun _ => rfl) ht
  revert hpage
  unfold ZeroedPages.IsPage
  decide

end PetKernel.VirtualMemory
