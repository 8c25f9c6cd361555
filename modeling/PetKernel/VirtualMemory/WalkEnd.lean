import PetKernel.VirtualMemory.FreedFrames

/-!
# Where a free stops

A turn of the walk of `petmem_free_vspace` goes on to the next page or, where a table is missing, to
the end of the range of this table (`turnEnd`). How far the walk gets is known before it begins: it
takes out `walkedPages` pages and stops at the end of the turn that passes the last of them
(`stopPage`).

For a walk that has begun, `Walk.stopPage` is the page at which it will stop. A turn does not change
it (`stopPage_walkStep`), since the tables on the way to later pages are not touched
(`tableAt_walkStep_ahead`). Neither does it change which of the mapped pages will be left
(`spares_walkStep`).
-/

set_option autoImplicit false

namespace PetKernel.VirtualMemory

open PetKernel.Library

/-- The page at which a turn of the walk at the page `v` ends. -/
def turnEnd (cr3 : Nat) (mem : PtMem) (v : Nat) : Nat :=
  if pageTables.tableAt mem (cr3ToPml4e64 cr3) ((pathOf v).drop 3) = none then
    (v / 2 ^ 27 + 1) * 2 ^ 27
  else if pageTables.tableAt mem (cr3ToPml4e64 cr3) ((pathOf v).drop 2) = none then
    (v / 2 ^ 18 + 1) * 2 ^ 18
  else if pageTables.tableAt mem (cr3ToPml4e64 cr3) ((pathOf v).drop 1) = none then
    (v / 2 ^ 9 + 1) * 2 ^ 9
  else v + 1

/-- The page at which a call of `petmem_free_vspace` that frees something stops. -/
def stopPage (map : MemMap) (cr3 vaddr : Nat) (mem : PtMem) : Nat :=
  turnEnd cr3 mem (vaddr / 2 ^ 12 + walkedPages map cr3 vaddr mem - 1)

/-- The page at which a walk that has begun will stop. -/
def Walk.stopPage (cr3 numPagesToFree : Nat) (w : Walk) : Nat :=
  if w.numPagesFreed < numPagesToFree then
    turnEnd cr3 w.mem (w.cursor + w.takes cr3 numPagesToFree - 1)
  else w.cursor

/-- The page is mapped, and the walk will leave it so. -/
def Walk.Spares (cr3 numPagesToFree : Nat) (w : Walk) (v : Nat) : Prop :=
  hwPteOf w.mem cr3 v ≠ none ∧
    ∀ u, w.cursor ≤ u → u < w.cursor + w.takes cr3 numPagesToFree → v ≠ hwPage u

/-- A walk that is done takes nothing out any more. -/
theorem Walk.spares_iff_of_done {cr3 n v : Nat} {w : Walk} (hdone : ¬ w.numPagesFreed < n) :
    w.Spares cr3 n v ↔ hwPteOf w.mem cr3 v ≠ none := by
  have htakes : w.takes cr3 n = 0 := if_neg hdone
  rw [Walk.Spares, htakes, Nat.add_zero]
  exact and_iff_left fun u hle hlt => absurd hle (Nat.not_le.2 hlt)

/-! ## Ranges of tables -/

section Ranges

variable {cr3 v c : Nat} {mem mem' : PtMem}

theorem turnEnd_le (cr3 : Nat) (mem : PtMem) (v : Nat) :
    turnEnd cr3 mem v ≤ (v / 2 ^ 27 + 1) * 2 ^ 27 := by
  unfold turnEnd
  split
  · exact Nat.le_refl _
  · split
    · omega
    · split
      · omega
      · omega

theorem lt_turnEnd (cr3 : Nat) (mem : PtMem) (v : Nat) : v < turnEnd cr3 mem v := by
  unfold turnEnd
  split
  · omega
  · split
    · omega
    · split
      · omega
      · omega

theorem drop_three_pathOf (h : v / 2 ^ 27 = c / 2 ^ 27) :
    (pathOf v).drop 3 = (pathOf c).drop 3 := by
  simp only [pathOf, List.drop_succ_cons, List.drop_zero, h]

theorem drop_two_pathOf (h : v / 2 ^ 18 = c / 2 ^ 18) : (pathOf v).drop 2 = (pathOf c).drop 2 := by
  have hup : v / 2 ^ 27 = c / 2 ^ 27 := by omega
  simp only [pathOf, List.drop_succ_cons, List.drop_zero, h, hup]

theorem drop_one_pathOf (h : v / 2 ^ 9 = c / 2 ^ 9) : (pathOf v).drop 1 = (pathOf c).drop 1 := by
  have hup : v / 2 ^ 18 = c / 2 ^ 18 := by omega
  have hup' : v / 2 ^ 27 = c / 2 ^ 27 := by omega
  simp only [pathOf, List.drop_succ_cons, List.drop_zero, h, hup, hup']

/-- All pages that a turn passes have the same end. -/
theorem turnEnd_eq_of_lt (hle : c ≤ v) (hlt : v < turnEnd cr3 mem c) :
    turnEnd cr3 mem v = turnEnd cr3 mem c := by
  -- the pages that a turn skips have the missing table in common, and all tables above it
  unfold turnEnd at hlt ⊢
  split at hlt
  next hpml =>
    have hsame : v / 2 ^ 27 = c / 2 ^ 27 := by omega
    rw [drop_three_pathOf hsame, if_pos hpml, if_pos hpml, hsame]
  next hpml =>
    split at hlt
    next hpdpe =>
      have hsame : v / 2 ^ 18 = c / 2 ^ 18 := by omega
      have hup : v / 2 ^ 27 = c / 2 ^ 27 := by omega
      rw [drop_three_pathOf hup, drop_two_pathOf hsame, if_neg hpml, if_neg hpml,
        if_pos hpdpe, if_pos hpdpe, hsame]
    next hpdpe =>
      split at hlt
      next hpde =>
        have hsame : v / 2 ^ 9 = c / 2 ^ 9 := by omega
        have hup : v / 2 ^ 18 = c / 2 ^ 18 := by omega
        have hup' : v / 2 ^ 27 = c / 2 ^ 27 := by omega
        rw [drop_three_pathOf hup', drop_two_pathOf hup, drop_one_pathOf hsame,
          if_neg hpml, if_neg hpml, if_neg hpdpe, if_neg hpdpe, if_pos hpde, if_pos hpde, hsame]
      next =>
        have hsame : v = c := by omega
        rw [hsame, if_neg ‹_›, if_neg ‹_›, if_neg ‹_›]

/-- The end of a turn depends on the tables on the way to the page only. -/
theorem turnEnd_congr (h : ∀ q, q <:+ pathOf v → q.length < 4 →
    pageTables.tableAt mem' (cr3ToPml4e64 cr3) q = pageTables.tableAt mem (cr3ToPml4e64 cr3) q) :
    turnEnd cr3 mem' v = turnEnd cr3 mem v := by
  unfold turnEnd
  rw [h _ (List.drop_suffix 3 _) (by simp [pathOf]), h _ (List.drop_suffix 2 _) (by simp [pathOf]),
    h _ (List.drop_suffix 1 _) (by simp [pathOf])]

/-- The last page below a table of the third level. -/
theorem lt_of_pml_suffix {a : Nat} (hv : v < hwMaxPage) (h : [a] <:+ pathOf v) :
    v < (a + 1) * 2 ^ 27 := by
  have heq := List.suffix_iff_eq_drop.1 h
  simp only [pathOf, List.length_cons, List.length_nil, List.drop_succ_cons, List.drop_zero,
    List.cons.injEq, and_true] at heq
  unfold hwMaxPage at hv
  omega

theorem lt_of_pdpe_suffix {a b : Nat} (hv : v < hwMaxPage) (h : [b, a] <:+ pathOf v) :
    v < (a * 512 + b + 1) * 2 ^ 18 := by
  have heq := List.suffix_iff_eq_drop.1 h
  simp only [pathOf, List.length_cons, List.length_nil, List.drop_succ_cons, List.drop_zero,
    List.cons.injEq, and_true] at heq
  unfold hwMaxPage at hv
  omega

theorem lt_of_pde_suffix {a b c : Nat} (hv : v < hwMaxPage) (h : [c, b, a] <:+ pathOf v) :
    v < ((a * 512 + b) * 512 + c + 1) * 2 ^ 9 := by
  have heq := List.suffix_iff_eq_drop.1 h
  simp only [pathOf, List.length_cons, List.length_nil, List.drop_succ_cons, List.drop_zero,
    List.cons.injEq, and_true] at heq
  unfold hwMaxPage at hv
  omega

variable {a b d : Nat}

/-- The start of the next table, from the indices of a page. -/
theorem pml_turnEnd (a : Nat) (hb : b < 512) (hc : c < 512) (hd : d < 512) :
    (a + 1) * 512 * 512 * 512 = ((((a * 512 + b) * 512 + c) * 512 + d) / 2 ^ 27 + 1) * 2 ^ 27 := by
  omega

theorem pdpe_turnEnd (n : Nat) (hc : c < 512) (hd : d < 512) :
    (n + 1) * 512 * 512 = (((n * 512 + c) * 512 + d) / 2 ^ 18 + 1) * 2 ^ 18 := by
  omega

theorem pde_turnEnd (n : Nat) (hd : d < 512) :
    (n + 1) * 512 = ((n * 512 + d) / 2 ^ 9 + 1) * 2 ^ 9 := by
  omega

/-- The range of a table ends with that of the table above, if the index is the last one. -/
theorem pde_carry (hle : (b * 512 + a + 1) * 2 ^ 9 ≤ v) (ha : a + 1 = maxEntries) :
    (b + 1) * 2 ^ 18 ≤ v := by
  calc (b + 1) * 2 ^ 18 = (b * 512 + a + 1) * 2 ^ 9 := by rw [Nat.add_assoc, ha, maxEntries]; ring
    _ ≤ v := hle

theorem pdpe_carry (hle : (b * 512 + a + 1) * 2 ^ 18 ≤ v) (ha : a + 1 = maxEntries) :
    (b + 1) * 2 ^ 27 ≤ v := by
  calc (b + 1) * 2 ^ 27 = (b * 512 + a + 1) * 2 ^ 18 := by rw [Nat.add_assoc, ha, maxEntries]; ring
    _ ≤ v := hle

end Ranges

/-! ## One turn -/

section Turn

variable {off cr3 v : Nat} {w w' : Walk}

theorem tableAt_eq_none_of_absentAt {mem : PtMem} {i : Nat} {p : List Nat}
    (h : AbsentAt mem cr3 (i :: p)) :
    pageTables.tableAt mem (cr3ToPml4e64 cr3) (i :: p) = none :=
  Layout.tableAt_eq_none_of_absent (List.suffix_refl _) h

/-- Where the cursor stands after a turn. -/
theorem cursor_walkStep (hr : w.InRange) (hstep : walkStep off cr3 w = some w') :
    w'.cursor = turnEnd cr3 w.mem w.cursor := by
  have hcase := turnCase off cr3 w
  rw [hstep] at hcase
  generalize turnFrame cr3 w = frame at hcase
  generalize hres : some w' = res at hcase
  unfold turnEnd
  rw [hr.pathOf_cursor]
  obtain ⟨-, hpdpe, hpde, hpte⟩ := hr
  show _ = if pageTables.tableAt w.mem (cr3ToPml4e64 cr3) [w.pmlIndex] = none then _
    else if pageTables.tableAt w.mem (cr3ToPml4e64 cr3) [w.pdpeIndex, w.pmlIndex] = none then _
    else if pageTables.tableAt w.mem (cr3ToPml4e64 cr3) [w.pdeIndex, w.pdpeIndex, w.pmlIndex] = none
      then _ else _
  -- the first table that is missing decides how far the index of its level moves
  cases hcase with
  | absentPml habs =>
      obtain rfl := Option.some.inj hres
      rw [if_pos (tableAt_eq_none_of_absentAt habs)]
      simp only [Walk.cursor, Nat.add_zero]
      exact pml_turnEnd _ hpdpe hpde hpte
  | absentPdpe ht₁ habs =>
      obtain rfl := Option.some.inj hres
      rw [ht₁, if_neg (Option.some_ne_none _), if_pos (tableAt_eq_none_of_absentAt habs)]
      obtain ⟨hsum, -⟩ := incrementPdpeIndex_moves (pmlSlot cr3 w.pmlIndex)
        { w with numPagesFreed := w.numPagesFreed + (512 - w.pdeIndex) * (512 - w.pteIndex) }
      simp only [Walk.cursor, hsum, Nat.add_zero]
      exact pdpe_turnEnd _ hpde hpte
  | @absentPde t₁ t₂ ht₁ ht₂ habs =>
      obtain rfl := Option.some.inj hres
      rw [ht₁, ht₂, if_neg (Option.some_ne_none _), if_neg (Option.some_ne_none _),
        if_pos (tableAt_eq_none_of_absentAt habs)]
      obtain ⟨hsum, -⟩ := incrementPdeIndex_moves (pageTables.slot 1 t₁ w.pdpeIndex)
        (pmlSlot cr3 w.pmlIndex) { w with numPagesFreed := w.numPagesFreed + (512 - w.pteIndex) }
      simp only [Walk.cursor, hsum, Nat.add_zero]
      exact pde_turnEnd _ hpte
  | @absentPte t₁ t₂ t₃ ht₁ ht₂ ht₃ habs =>
      obtain rfl := Option.some.inj hres
      rw [ht₁, ht₂, ht₃, if_neg (Option.some_ne_none _), if_neg (Option.some_ne_none _),
        if_neg (Option.some_ne_none _)]
      exact (incrementPteIndex_moves _ _ _ _).1
  | @page t₁ t₂ t₃ e ht₁ ht₂ ht₃ he =>
      obtain ⟨pools, -, rfl⟩ := Option.map_eq_some_iff.1 hres.symm
      rw [ht₁, ht₂, ht₃, if_neg (Option.some_ne_none _), if_neg (Option.some_ne_none _),
        if_neg (Option.some_ne_none _)]
      exact (incrementPteIndex_moves _ _ _ _).1

/-- The address of an entry on the way to the page at the cursor that, unless it is the entry of
this page, does not lead to `v`. -/
def Walk.OffWay (cr3 : Nat) (w : Walk) (v a : Nat) : Prop :=
  ∃ i p t, i :: p <:+ w.path ∧ pageTables.tableAt w.mem (cr3ToPml4e64 cr3) p = some t ∧
    a = pageTables.slot p.length t i ∧ (p.length + 1 < 4 → ¬ i :: p <:+ pathOf v)

/-- A turn clears no entry that leads to a page behind it. -/
theorem walkStep_clears_offWay (hstep : walkStep off cr3 w = some w')
    (hv : w'.cursor ≤ v) (hlt : v < hwMaxPage) : Clears (w.OffWay cr3 v) w.mem w'.mem := by
  have hcase := turnCase off cr3 w
  rw [hstep] at hcase
  generalize turnFrame cr3 w = frame at hcase
  generalize hres : some w' = res at hcase
  -- an entry is only cleared when the range of its table ends before `v`
  have hoff₁ : (w.pmlIndex + 1) * 2 ^ 27 ≤ v → w.OffWay cr3 v (pmlSlot cr3 w.pmlIndex) :=
    fun hle => ⟨_, [], _, w.pml_suffix_path, rfl, rfl,
      fun _ hs => absurd (lt_of_pml_suffix hlt hs) (Nat.not_lt.2 hle)⟩
  have hoff₂ : ∀ {t₁}, pageTables.tableAt w.mem (cr3ToPml4e64 cr3) [w.pmlIndex] = some t₁ →
      (w.pmlIndex * 512 + w.pdpeIndex + 1) * 2 ^ 18 ≤ v →
      w.OffWay cr3 v (pageTables.slot 1 t₁ w.pdpeIndex) :=
    fun ht₁ hle => ⟨_, _, _, w.pdpe_suffix_path, ht₁, rfl,
      fun _ hs => absurd (lt_of_pdpe_suffix hlt hs) (Nat.not_lt.2 hle)⟩
  have hoff₃ : ∀ {t₂}, pageTables.tableAt w.mem (cr3ToPml4e64 cr3) [w.pdpeIndex, w.pmlIndex] =
      some t₂ → ((w.pmlIndex * 512 + w.pdpeIndex) * 512 + w.pdeIndex + 1) * 2 ^ 9 ≤ v →
      w.OffWay cr3 v (pageTables.slot 2 t₂ w.pdeIndex) :=
    fun ht₂ hle => ⟨_, _, _, w.pde_suffix_path, ht₂, rfl,
      fun _ hs => absurd (lt_of_pde_suffix hlt hs) (Nat.not_lt.2 hle)⟩
  have hwrap₃ : w.cursor + 1 ≤ v → w.pteIndex + 1 = maxEntries →
      ((w.pmlIndex * 512 + w.pdpeIndex) * 512 + w.pdeIndex + 1) * 2 ^ 9 ≤ v := by
    unfold Walk.cursor maxEntries
    omega
  cases hcase with
  | absentPml habs =>
      obtain rfl := Option.some.inj hres
      exact Clears.refl
  | absentPdpe ht₁ habs =>
      obtain rfl := Option.some.inj hres
      obtain ⟨hsum, -⟩ := incrementPdpeIndex_moves (pmlSlot cr3 w.pmlIndex)
        { w with numPagesFreed := w.numPagesFreed + (512 - w.pdeIndex) * (512 - w.pteIndex) }
      simp only [Walk.cursor, hsum, Nat.add_zero, Nat.mul_assoc] at hv
      exact Clears.incrementPdpeIndex _ fun hpdpe => hoff₁ (pdpe_carry hv hpdpe)
  | @absentPde t₁ t₂ ht₁ ht₂ habs =>
      obtain rfl := Option.some.inj hres
      obtain ⟨hsum, -⟩ := incrementPdeIndex_moves (pageTables.slot 1 t₁ w.pdpeIndex)
        (pmlSlot cr3 w.pmlIndex) { w with numPagesFreed := w.numPagesFreed + (512 - w.pteIndex) }
      simp only [Walk.cursor, hsum, Nat.add_zero] at hv
      exact Clears.incrementPdeIndex _ (fun hpde => hoff₂ ht₁ (pde_carry hv hpde))
        fun hpde hpdpe => hoff₁ (pdpe_carry (pde_carry hv hpde) hpdpe)
  | absentPte ht₁ ht₂ ht₃ habs =>
      obtain rfl := Option.some.inj hres
      have hle := (incrementPteIndex_moves _ _ _ _).1.symm.trans_le hv
      exact Clears.incrementPteIndex _ (fun hpte => hoff₃ ht₂ (hwrap₃ hle hpte))
        (fun hpte hpde => hoff₂ ht₁ (pde_carry (hwrap₃ hle hpte) hpde))
        fun hpte hpde hpdpe => hoff₁ (pdpe_carry (pde_carry (hwrap₃ hle hpte) hpde) hpdpe)
  | page ht₁ ht₂ ht₃ he =>
      obtain ⟨pools, -, rfl⟩ := Option.map_eq_some_iff.1 hres.symm
      have hle := (incrementPteIndex_moves _ _ _ _).1.symm.trans_le hv
      refine (Clears.clearPresent ⟨_, _, _, List.suffix_refl w.path, ht₃, rfl,
        fun hlen => absurd hlen (Nat.lt_irrefl 4)⟩).trans ?_
      exact Clears.incrementPteIndex _ (fun hpte => hoff₃ ht₂ (hwrap₃ hle hpte))
        (fun hpte hpde => hoff₂ ht₁ (pde_carry (hwrap₃ hle hpte) hpde))
        fun hpte hpde hpdpe => hoff₁ (pdpe_carry (pde_carry (hwrap₃ hle hpte) hpde) hpdpe)

/-- A turn does not touch the tables on the way to a page behind it. -/
theorem tableAt_walkStep_ahead (h : TablesOk w.mem cr3) (hr : w.InRange)
    (hstep : walkStep off cr3 w = some w') (hv : w'.cursor ≤ v) (hlt : v < maxPage) {q : List Nat}
    (hq : q <:+ pathOf v) (hlen : q.length < 4) :
    pageTables.tableAt w'.mem (cr3ToPml4e64 cr3) q =
      pageTables.tableAt w.mem (cr3ToPml4e64 cr3) q := by
  have hclears := walkStep_clears_offWay hstep hv (Nat.lt_of_lt_of_le hlt (by decide))
  apply Layout.tableAt_congr
  intro j p t hs ht
  rcases hclears (pageTables.slot p.length t j) with hsame | ⟨-, i, p', t', hs', ht', heq, hoff⟩
  · exact hsame
  · -- a cleared entry on the way to `v` would lead to `v`
    have hvalid := (validPath_pathOf hlt).of_suffix (hs.trans hq)
    have hvalid' := hr.validPath.of_suffix hs'
    have hplen : p.length + 1 ≤ q.length := hs.length_le
    obtain ⟨rfl, rfl⟩ := List.cons.inj (h.path_eq_of_slot_eq hvalid hvalid' (by omega)
      (Nat.lt_of_succ_le hs'.length_le) ht ht' heq)
    exact absurd (hs.trans hq) (hoff (by omega))

/-- A turn does not change where a turn at a page behind it ends. -/
theorem turnEnd_walkStep (h : TablesOk w.mem cr3) (hr : w.InRange)
    (hstep : walkStep off cr3 w = some w') (hv : w'.cursor ≤ v) (hlt : v < maxPage) :
    turnEnd cr3 w'.mem v = turnEnd cr3 w.mem v :=
  turnEnd_congr fun _ hq hlen => tableAt_walkStep_ahead h hr hstep hv hlt hq hlen

/-- A walk that goes on takes out what was left to be taken out; one that is done has passed it. -/
theorem takes_walkStep {n : Nat} (h : TablesOk w.mem cr3) (hr : w.InRange)
    (hstep : walkStep off cr3 w = some w') (hlt : w.numPagesFreed < n) :
    (w'.numPagesFreed < n → w'.cursor + w'.takes cr3 n = w.cursor + w.takes cr3 n) ∧
    (¬ w'.numPagesFreed < n → w.cursor + w.takes cr3 n ≤ w'.cursor) := by
  have hspec := walkStep_spec h hr hstep
  have hunder := walkStep_undercount hr hstep
  have hcounts := hspec.counts
  have htakes : w.takes cr3 n = n - w.numPagesFreed + w.undercount cr3 := if_pos hlt
  constructor
  · intro hlt'
    have htakes' : w'.takes cr3 n = n - w'.numPagesFreed + w'.undercount cr3 := if_pos hlt'
    rw [hspec.steady.undercount_eq_zero] at htakes'
    omega
  · intro hge
    omega

/-- A turn does not change where the walk will stop. -/
theorem stopPage_walkStep {n : Nat} (h : TablesOk w.mem cr3) (hr : w.InRange)
    (hstep : walkStep off cr3 w = some w') (hlt : w.numPagesFreed < n)
    (hmax : w.cursor + w.takes cr3 n ≤ maxPage) : w'.stopPage cr3 n = w.stopPage cr3 n := by
  have htakes : 0 < w.takes cr3 n := by
    rw [Walk.takes, if_pos hlt]
    omega
  obtain ⟨hgoes, hdone⟩ := takes_walkStep h hr hstep hlt
  rw [Walk.stopPage, Walk.stopPage, if_pos hlt]
  by_cases hlt' : w'.numPagesFreed < n
  · have htakes' : 0 < w'.takes cr3 n := by
      rw [Walk.takes, if_pos hlt']
      omega
    -- the last page to be taken out stays the same, and so do the tables on the way to it
    rw [if_pos hlt', hgoes hlt']
    exact turnEnd_walkStep h hr hstep (by have := hgoes hlt'; omega) (by omega)
  · -- the last page that is taken out is one of those that this turn passes
    have hend := cursor_walkStep hr hstep
    have hle := hdone hlt'
    rw [if_neg hlt', hend]
    exact (turnEnd_eq_of_lt (by omega) (by omega)).symm

/-- A turn does not change which of the mapped pages will be left. -/
theorem spares_walkStep {n : Nat} (h : HwTablesOk w.mem cr3) (hr : w.InRange)
    (hstep : walkStep off cr3 w = some w') (hlt : w.numPagesFreed < n) (hv : v < hwMaxPage) :
    w'.Spares cr3 n v ↔ w.Spares cr3 n v := by
  obtain ⟨-, hpte⟩ := hwPteOf_walkStep h hr hstep
  obtain ⟨hgoes, hdone⟩ := takes_walkStep h.tablesOk hr hstep hlt
  have hspec := walkStep_spec h.tablesOk hr hstep
  have hfirst : 0 < w.takes cr3 n := by
    rw [Walk.takes, if_pos hlt]
    omega
  have hnext : w.cursor < w'.cursor := by
    rw [cursor_walkStep hr hstep]
    exact lt_turnEnd _ _ _
  constructor
  · rintro ⟨hmapped, hleft⟩
    refine ⟨fun hnone => hmapped ?_, fun u hle hu heq => ?_⟩
    · rw [hpte v hv, hnone, ite_self]
    · rcases Nat.lt_or_ge u w'.cursor with hpassed | hahead
      · -- the pages that the turn has passed are not mapped any more
        have hnone := hspec.unmapped u hle hpassed
        rw [← hwPteOf_hwPage (lt_maxPage_of_lt_bound hr hpassed hspec.bound), ← heq] at hnone
        exact hmapped hnone
      · by_cases hlt' : w'.numPagesFreed < n
        · rw [← hgoes hlt'] at hu
          exact hleft u hahead hu heq
        · have := hdone hlt'
          omega
  · rintro ⟨hmapped, hleft⟩
    refine ⟨?_, fun u hle hu => ?_⟩
    · rw [hpte v hv, if_neg (hleft w.cursor (Nat.le_refl _) (by omega))]
      exact hmapped
    · by_cases hlt' : w'.numPagesFreed < n
      · rw [hgoes hlt'] at hu
        exact hleft u (by omega) hu
      · have htakes' : w'.takes cr3 n = 0 := if_neg hlt'
        omega

end Turn

/-! ## The whole walk -/

section Bounds

variable {cr3 start n : Nat} {w : Walk}

/-- What a walk takes out lies within three entries of the top table. -/
theorem WalkInv.takes_le (h : WalkInv cr3 start w) (hfew : n ≤ 512 * 512 * 512)
    (hlt : w.numPagesFreed < n) : w.cursor + w.takes cr3 n ≤ 3 * 2 ^ 27 := by
  have hunder := w.undercount_le cr3
  have hpdpe := h.pdpe_lt
  have hpde := h.pde_lt
  have hpte := h.pte_lt
  rw [Walk.takes, if_pos hlt]
  rcases h.near with hpml | ⟨-, hnear⟩
  · have hcursor : w.cursor < 2 ^ 27 := by
      unfold Walk.cursor
      omega
    omega
  · omega

theorem WalkInv.stopPage_lt (h : WalkInv cr3 start w) (hfew : n ≤ 512 * 512 * 512)
    (hlt : w.numPagesFreed < n) : w.stopPage cr3 n < maxPage := by
  have htakes := h.takes_le hfew hlt
  have hend := turnEnd_le cr3 w.mem (w.cursor + w.takes cr3 n - 1)
  rw [Walk.stopPage, if_pos hlt]
  unfold maxPage
  omega

/-- The walk stops at the cursor or behind it. -/
theorem Walk.cursor_le_stopPage (cr3 n : Nat) (w : Walk) : w.cursor ≤ w.stopPage cr3 n := by
  rw [Walk.stopPage]
  split
  next hlt =>
    have htakes : 0 < w.takes cr3 n := by
      rw [Walk.takes, if_pos hlt]
      omega
    have hend := lt_turnEnd cr3 w.mem (w.cursor + w.takes cr3 n - 1)
    omega
  next => exact Nat.le_refl _

/-- The walk of a call that frees something stops where the map and the tables say. -/
theorem stopPage_firstWalk {map : MemMap} {vaddr : Nat} {mem : PtMem} {pools : List BuddyMempool}
    (hvaddr : vaddr < 2 ^ 39) (hpos : 0 < (petmemFreeMap map vaddr).2) :
    (firstWalk vaddr mem pools).stopPage cr3 (petmemFreeMap map vaddr).2 =
      stopPage map cr3 vaddr mem := by
  rw [Walk.stopPage, if_pos (show (firstWalk vaddr mem pools).numPagesFreed < _ from hpos),
    cursor_firstWalk hvaddr]
  rfl

end Bounds

end PetKernel.VirtualMemory
