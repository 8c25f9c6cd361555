import PetKernel.VirtualMemory.Processor

/-!
# Which pages a free takes out

What a call of `petmem_free_vspace` does to the translation of the processor, and which frames it
passes to `petmem_free_pages`.

Where the table of the first or second level is missing, the loop counts a product of what is left
at each level, and that is less than what it passes if it does not stand at the start of the table.
`Walk.undercount` is the difference. It is zero after the first turn, so that the whole walk takes
out exactly the pages from its start up to `num_pages_to_free` plus the undercount of the first
turn, and passes their frames to `petmem_free_pages` in order, one call for each page
(`freePages_effect`).

So a free never leaves a page of the allocation behind (`free_complete`), but it may go beyond the
end. A frame that is mapped at two pages is passed on twice (`shared_frame_freed_twice`).
`touchesNothingElse_iff` says when it does not take anything else, and `free_unmaps_next_allocation`
is a run in which it unmaps a page of another allocation.
-/

set_option autoImplicit false

namespace PetKernel.VirtualMemory

open PetKernel.Library

/-! ## The frames that are passed on -/

/-- The frames that the loop passes to `petmem_free_pages` in at most `n` turns, in order. -/
def walkFrames (off cr3 numPagesToFree : Nat) : Nat → Walk → List Nat
  | 0, _ => []
  | n + 1, w =>
      if w.numPagesFreed < numPagesToFree then
        (turnFrame cr3 w).toList ++
          ((walkStep off cr3 w).map (walkFrames off cr3 numPagesToFree n)).getD []
      else []

/-- The frames that a call of `petmem_free_vspace` passes to `petmem_free_pages`. -/
def freedFrames (off : Nat) (map : MemMap) (cr3 vaddr : Nat) (mem : PtMem)
    (pools : List BuddyMempool) : List Nat :=
  let numPagesToFree := (petmemFreeMap map vaddr).2
  walkFrames off cr3 numPagesToFree numPagesToFree (firstWalk vaddr mem pools)

/-- Calls of `petmem_free_pages` for one page after the other; `none` after a `BUG_ON`. -/
def freeFrames (off : Nat) (pools : List BuddyMempool) (frames : List Nat) :
    Option (List BuddyMempool) :=
  frames.foldlM (fun pools frame => petmemFreePages off pools frame 1) pools

theorem freeFrames_append (off : Nat) (pools : List BuddyMempool) (frames frames' : List Nat) :
    freeFrames off pools (frames ++ frames') =
      (freeFrames off pools frames).bind fun pools => freeFrames off pools frames' :=
  List.foldlM_append

theorem freeFrames_singleton (off : Nat) (pools : List BuddyMempool) (frame : Nat) :
    freeFrames off pools [frame] = petmemFreePages off pools frame 1 := by
  simp [freeFrames]

/-! ## The cursor and the pools -/

/-- The increments at a level move the cursor by one entry of this level and touch neither the pools
nor the count. -/
theorem incrementPdpeIndex_moves (pml : Nat) (w : Walk) :
    (incrementPdpeIndex pml w).pmlIndex * 512 + (incrementPdpeIndex pml w).pdpeIndex =
        w.pmlIndex * 512 + w.pdpeIndex + 1 ∧
      (incrementPdpeIndex pml w).pdeIndex = w.pdeIndex ∧
      (incrementPdpeIndex pml w).pteIndex = w.pteIndex ∧
      (incrementPdpeIndex pml w).pools = w.pools ∧
      (incrementPdpeIndex pml w).numPagesFreed = w.numPagesFreed := by
  rw [incrementPdpeIndex]
  split
  next hwrap =>
    refine ⟨?_, rfl, rfl, rfl, rfl⟩
    simp only [incrementPmlIndex]
    unfold maxEntries at hwrap
    omega
  next => exact ⟨(Nat.add_assoc _ _ _).symm, rfl, rfl, rfl, rfl⟩

theorem incrementPdeIndex_moves (pdpe pml : Nat) (w : Walk) :
    ((incrementPdeIndex pdpe pml w).pmlIndex * 512 + (incrementPdeIndex pdpe pml w).pdpeIndex) *
      512 +
        (incrementPdeIndex pdpe pml w).pdeIndex =
        (w.pmlIndex * 512 + w.pdpeIndex) * 512 + w.pdeIndex + 1 ∧
      (incrementPdeIndex pdpe pml w).pteIndex = w.pteIndex ∧
      (incrementPdeIndex pdpe pml w).pools = w.pools ∧
      (incrementPdeIndex pdpe pml w).numPagesFreed = w.numPagesFreed := by
  rw [incrementPdeIndex]
  split
  next hwrap =>
    obtain ⟨hsum, hpde, hpte, hpools, hfreed⟩ := incrementPdpeIndex_moves pml
      { w with
        pdeIndex := 0
        mem := if pdeTableIsEmpty w.mem (baseToPageAddr (w.mem pdpe).baseAddr)
          then clearPresent w.mem pdpe else w.mem }
    exact ⟨carry hsum hwrap hpde, hpte, hpools, hfreed⟩
  next => exact ⟨(Nat.add_assoc _ _ _).symm, rfl, rfl, rfl⟩

theorem incrementPteIndex_moves (pde pdpe pml : Nat) (w : Walk) :
    (incrementPteIndex pde pdpe pml w).cursor = w.cursor + 1 ∧
      (incrementPteIndex pde pdpe pml w).pools = w.pools ∧
      (incrementPteIndex pde pdpe pml w).numPagesFreed = w.numPagesFreed := by
  rw [incrementPteIndex]
  split
  next hwrap =>
    obtain ⟨hsum, hpte, hpools, hfreed⟩ := incrementPdeIndex_moves pdpe pml
      { w with
        pteIndex := 0
        mem := if pteTableIsEmpty w.mem (baseToPageAddr (w.mem pde).baseAddr)
          then clearPresent w.mem pde else w.mem }
    exact ⟨carry hsum hwrap hpte, hpools, hfreed⟩
  next => exact ⟨(Nat.add_assoc _ _ _).symm, rfl, rfl⟩

/-- The pages that a turn passes without counting them. -/
def Walk.undercount (cr3 : Nat) (w : Walk) : Nat :=
  let pml := pmlSlot cr3 w.pmlIndex
  if (w.mem pml).present = false then
    512 * 512 * 512 - ((w.pdpeIndex * 512 + w.pdeIndex) * 512 + w.pteIndex) -
      (512 - w.pdpeIndex) * (512 - w.pdeIndex) * (512 - w.pteIndex)
  else
    let pdpe := entrySlot (w.mem pml).baseAddr w.pdpeIndex
    if (w.mem pdpe).present = false then
      512 * 512 - (w.pdeIndex * 512 + w.pteIndex) - (512 - w.pdeIndex) * (512 - w.pteIndex)
    else 0

section Arithmetic

variable {a b c d : Nat}

/-- The count at a missing table of the first level. -/
theorem pml_undercount (k : Nat) (hb : b < 512) (hc : c < 512) (hd : d < 512) :
    (a + 1) * 512 * 512 * 512 + k =
      ((a * 512 + b) * 512 + c) * 512 + d + (k + (512 - b) * (512 - c) * (512 - d)) +
        (512 * 512 * 512 - ((b * 512 + c) * 512 + d) - (512 - b) * (512 - c) * (512 - d)) := by
  have hskip := skip_pml_le hb hc hd
  generalize (512 - b) * (512 - c) * (512 - d) = count at hskip ⊢
  omega

/-- The count at a missing table of the second level. -/
theorem pdpe_undercount (n k : Nat) (hc : c < 512) (hd : d < 512) :
    (n + 1) * 512 * 512 + k = (n * 512 + c) * 512 + d + (k + (512 - c) * (512 - d)) +
      (512 * 512 - (c * 512 + d) - (512 - c) * (512 - d)) := by
  have hskip := skip_pdpe_le hc hd
  generalize (512 - c) * (512 - d) = count at hskip ⊢
  omega

end Arithmetic

section Turn

variable {off cr3 : Nat} {w w' : Walk}

/-- At a page the count is exact. -/
theorem cursor_add_incrementPteIndex (pde pdpe pml : Nat) {w₁ : Walk}
    (hcursor : w₁.cursor = w.cursor) (hfreed : w₁.numPagesFreed = w.numPagesFreed + 1) :
    (incrementPteIndex pde pdpe pml w₁).cursor + w.numPagesFreed =
      w.cursor + (incrementPteIndex pde pdpe pml w₁).numPagesFreed := by
  obtain ⟨hnext, -, hcount⟩ := incrementPteIndex_moves pde pdpe pml w₁
  rw [hnext, hcount, hcursor, hfreed]
  omega

/-- A turn gives the page at the cursor to the pools, and stops only at a `BUG_ON` in there. -/
theorem freeFrames_turnFrame (off cr3 : Nat) (w : Walk) :
    freeFrames off w.pools (turnFrame cr3 w).toList = (walkStep off cr3 w).map Walk.pools := by
  have hcase := turnCase off cr3 w
  generalize walkStep off cr3 w = res at hcase ⊢
  generalize turnFrame cr3 w = frame at hcase ⊢
  cases hcase with
  | absentPml habs => rfl
  | absentPdpe ht₁ habs =>
      obtain ⟨-, -, -, hpools, -⟩ := incrementPdpeIndex_moves (pmlSlot cr3 w.pmlIndex)
        { w with numPagesFreed := w.numPagesFreed + (512 - w.pdeIndex) * (512 - w.pteIndex) }
      exact congrArg some hpools.symm
  | @absentPde t₁ t₂ ht₁ ht₂ habs =>
      obtain ⟨-, -, hpools, -⟩ := incrementPdeIndex_moves (pageTables.slot 1 t₁ w.pdpeIndex)
        (pmlSlot cr3 w.pmlIndex) { w with numPagesFreed := w.numPagesFreed + (512 - w.pteIndex) }
      exact congrArg some hpools.symm
  | @absentPte t₁ t₂ t₃ ht₁ ht₂ ht₃ habs =>
      obtain ⟨-, hpools, -⟩ := incrementPteIndex_moves (pageTables.slot 2 t₂ w.pdeIndex)
        (pageTables.slot 1 t₁ w.pdpeIndex) (pmlSlot cr3 w.pmlIndex)
        { w with numPagesFreed := w.numPagesFreed + 1 }
      exact congrArg some hpools.symm
  | @page t₁ t₂ t₃ e ht₁ ht₂ ht₃ he =>
      rw [Option.map_map, Option.toList_some, freeFrames_singleton]
      cases hfree : petmemFreePages off w.pools (baseToPageAddr e.baseAddr) 1 with
      | none => rfl
      | some pools =>
          obtain ⟨-, hpools, -⟩ := incrementPteIndex_moves (pageTables.slot 2 t₂ w.pdeIndex)
            (pageTables.slot 1 t₁ w.pdpeIndex) (pmlSlot cr3 w.pmlIndex) { w with
              mem := clearPresent w.mem (pageTables.slot 3 t₃ w.pteIndex)
              pools := pools
              numPagesFreed := w.numPagesFreed + 1 }
          exact congrArg some hpools.symm

/-- The calls of `petmem_free_pages` are all that the walk does to the pools. -/
theorem freeFrames_walkFrames (off cr3 numPagesToFree n : Nat) (w : Walk) :
    freeFrames off w.pools (walkFrames off cr3 numPagesToFree n w) =
      (walk off cr3 numPagesToFree n w).map Walk.pools := by
  induction n generalizing w with
  | zero => rfl
  | succ n ih =>
      rw [walkFrames, walk]
      split
      · rw [freeFrames_append, freeFrames_turnFrame]
        cases hstep : walkStep off cr3 w with
        | none => rfl
        | some w' => exact ih w'
      · rfl

/-- A turn moves the cursor by what it counts and by what it passes without counting. -/
theorem walkStep_undercount (hr : w.InRange) (hstep : walkStep off cr3 w = some w') :
    w'.cursor + w.numPagesFreed = w.cursor + w'.numPagesFreed + w.undercount cr3 := by
  rw [walkStep] at hstep
  unfold Walk.undercount
  dsimp only at hstep ⊢
  split at hstep
  next hpml =>
    rw [if_pos hpml]
    obtain rfl := Option.some.inj hstep
    simp only [Walk.cursor, incrementPmlIndex, Nat.add_zero]
    exact pml_undercount _ hr.pdpe hr.pde hr.pte
  next hpml =>
    rw [if_neg hpml]
    split at hstep
    next hpdpe =>
      rw [if_pos hpdpe]
      obtain ⟨hsum, -, -, -, hfreed⟩ := incrementPdpeIndex_moves (pmlSlot cr3 w.pmlIndex)
        { w with numPagesFreed := w.numPagesFreed + (512 - w.pdeIndex) * (512 - w.pteIndex) }
      obtain rfl := Option.some.inj hstep
      simp only [Walk.cursor, hsum, hfreed, Nat.add_zero]
      exact pdpe_undercount _ _ hr.pde hr.pte
    next hpdpe =>
      -- from here on the count is exact
      rw [if_neg hpdpe, Nat.add_zero]
      split at hstep
      next =>
        obtain ⟨hsum, -, -, hfreed⟩ := incrementPdeIndex_moves
          (entrySlot (w.mem (pmlSlot cr3 w.pmlIndex)).baseAddr w.pdpeIndex)
          (pmlSlot cr3 w.pmlIndex) { w with numPagesFreed := w.numPagesFreed + (512 - w.pteIndex) }
        obtain rfl := Option.some.inj hstep
        simp only [Walk.cursor, hsum, hfreed, Nat.add_zero]
        exact skip_pde_eq _ _ hr.pte
      next =>
        split at hstep
        next =>
          obtain ⟨pools, -, rfl⟩ := Option.map_eq_some_iff.1 hstep
          exact cursor_add_incrementPteIndex _ _ _ rfl rfl
        next =>
          obtain rfl := Option.some.inj hstep
          exact cursor_add_incrementPteIndex _ _ _ rfl rfl

end Turn

/-! ## Ranges of pages -/

/-- The frame of a page that the source names `u`. -/
def frameOf (mem : PtMem) (cr3 u : Nat) : Option Nat :=
  (hwPteOf mem cr3 (hwPage u)).map fun e => baseToPageAddr e.baseAddr

/-- The frames of `count` pages from `first` on. -/
def framesIn (mem : PtMem) (cr3 first count : Nat) : List Nat :=
  (List.range' first count).filterMap (frameOf mem cr3)

/-- From `mem` to `mem'` the translation loses `count` pages from `first` on and nothing else. -/
structure TakesOut (cr3 first count : Nat) (mem mem' : PtMem) : Prop where
  none : ∀ u, first ≤ u → u < first + count → hwPteOf mem' cr3 (hwPage u) = none
  same : ∀ v < hwMaxPage, (∀ u, first ≤ u → u < first + count → v ≠ hwPage u) →
    hwPteOf mem' cr3 v = hwPteOf mem cr3 v

theorem hwPage_lt {u : Nat} (hu : u < maxPage) : hwPage u < hwMaxPage := by
  unfold hwPage maxPage hwMaxPage at *
  omega

namespace TakesOut

variable {cr3 first count count' : Nat} {mem mem' mem'' : PtMem}

theorem refl (first : Nat) (mem : PtMem) : TakesOut cr3 first 0 mem mem :=
  ⟨fun _ hle hlt => absurd hle (Nat.not_le.2 hlt), fun _ _ _ => rfl⟩

theorem trans (h : TakesOut cr3 first count mem mem')
    (h' : TakesOut cr3 (first + count) count' mem' mem'') (hlt : first + count + count' ≤ maxPage) :
    TakesOut cr3 first (count + count') mem mem'' := by
  constructor
  · intro u hle hu
    rcases Nat.lt_or_ge u (first + count) with hlt' | hge
    · -- taken out by the first part, and not touched by the second
      rw [h'.same _ (hwPage_lt (by omega)), h.none u hle hlt']
      intro u' hle' _ heq
      have := hwPage_inj heq
      omega
    · exact h'.none u hge (by omega)
  · intro v hv hout
    rw [h'.same v hv fun u hle hu => hout u (by omega) (by omega),
      h.same v hv fun u hle hu => hout u hle (by omega)]

/-- The pages behind those that are taken out have the same frames. -/
theorem framesIn_eq (h : TakesOut cr3 first count mem mem')
    (hlt : first + count + count' ≤ maxPage) :
    framesIn mem' cr3 (first + count) count' = framesIn mem cr3 (first + count) count' := by
  apply List.filterMap_congr
  intro u hu
  obtain ⟨hle, hlt'⟩ := List.mem_range'_1.1 hu
  rw [frameOf, frameOf, h.same _ (hwPage_lt (by omega))]
  intro u' hle' _ heq
  have := hwPage_inj heq
  omega

end TakesOut

theorem framesIn_add (mem : PtMem) (cr3 first count count' : Nat) :
    framesIn mem cr3 first (count + count') =
      framesIn mem cr3 first count ++ framesIn mem cr3 (first + count) count' := by
  rw [framesIn, ← List.range'_append_1, List.filterMap_append]
  rfl

theorem framesIn_eq_nil {mem : PtMem} {cr3 first count : Nat}
    (h : ∀ u, first ≤ u → u < first + count → hwPteOf mem cr3 (hwPage u) = none) :
    framesIn mem cr3 first count = [] := by
  refine List.filterMap_eq_nil_iff.2 fun u hu => ?_
  obtain ⟨hle, hlt⟩ := List.mem_range'_1.1 hu
  rw [frameOf, h u hle hlt, Option.map_none]

/-! ## The whole walk -/

section Walk

variable {off cr3 start numPagesToFree : Nat} {w w' : Walk}

/-- A turn takes out the page at the cursor. The other pages that it passes are not mapped, so that
it does not matter how many of them are counted as taken out. -/
theorem takesOut_walkStep (h : HwTablesOk w.mem cr3) (hr : w.InRange)
    (hstep : walkStep off cr3 w = some w') (count : Nat) (hpos : 0 < count)
    (hle : w.cursor + count ≤ w'.cursor) :
    TakesOut cr3 w.cursor count w.mem w'.mem ∧
      (turnFrame cr3 w).toList = framesIn w.mem cr3 w.cursor count := by
  obtain ⟨-, hpte⟩ := hwPteOf_walkStep h hr hstep
  have hspec := walkStep_spec h.tablesOk hr hstep
  have hmax : ∀ u, u < w'.cursor → u < maxPage :=
    fun u hu => lt_maxPage_of_lt_bound hr hu hspec.bound
  have hnone : ∀ u, w.cursor ≤ u → u < w'.cursor → hwPteOf w'.mem cr3 (hwPage u) = none := by
    intro u hlo hhi
    rw [hwPteOf_hwPage (hmax u hhi)]
    exact hspec.unmapped u hlo hhi
  refine ⟨⟨fun u hlo hhi => hnone u hlo (by omega), fun v hv hout => ?_⟩, ?_⟩
  · rw [hpte v hv, if_neg (hout w.cursor (Nat.le_refl _) (by omega))]
  · obtain ⟨k, rfl⟩ : ∃ k, count = 1 + k := ⟨count - 1, by omega⟩
    have hrest : framesIn w.mem cr3 (w.cursor + 1) k = [] := by
      refine framesIn_eq_nil fun u hlo hhi => ?_
      rw [← hnone u (by omega) (by omega), hpte _ (hwPage_lt (hmax u (by omega))), if_neg]
      intro heq
      have := hwPage_inj heq
      omega
    have hframe : frameOf w.mem cr3 w.cursor = turnFrame cr3 w := by
      rw [frameOf, turnFrame_eq, hwPteOf_cursor hr]
    rw [framesIn_add, hrest, List.append_nil, framesIn, List.range'_one,
      List.filterMap_cons, hframe]
    cases turnFrame cr3 w with
    | none => rfl
    | some frame => rfl

/-- After a turn of the loop the next turn counts all that it passes: where a table is missing, the
cursor stands at its start. -/
theorem Steady.undercount_eq_zero (h : Steady cr3 w) : w.undercount cr3 = 0 := by
  have hzero : ∀ {i j : Nat} {p : List Nat}, AbsentAt w.mem cr3 (j :: p) →
      (i ≠ 0 → ∃ q, j :: p <:+ q ∧
        ∃ t, pageTables.tableAt w.mem (cr3ToPml4e64 cr3) q = some t) → i = 0 := by
    intro i j p habs htable
    by_contra hne
    obtain ⟨q, hs, ht⟩ := htable hne
    exact habs.not_tableAt hs ht
  unfold Walk.undercount
  dsimp only
  split
  next hpml =>
    have habs := absentAt_cons (p := []) rfl rfl hpml
    rw [hzero habs fun hne => ⟨_, List.suffix_refl _, h.pdpe hne⟩,
      hzero habs fun hne => ⟨_, List.suffix_cons _ _, h.pde hne⟩,
      hzero habs fun hne => ⟨_, (List.suffix_cons _ _).trans (List.suffix_cons _ _), h.pte hne⟩]
  next hpml =>
    have ht₁ := tableAt_of_present (p := []) rfl rfl (Bool.eq_true_of_not_eq_false hpml)
    split
    next hpdpe =>
      have habs := absentAt_cons rfl ht₁ hpdpe
      rw [hzero habs fun hne => ⟨_, List.suffix_refl _, h.pde hne⟩,
        hzero habs fun hne => ⟨_, List.suffix_cons _ _, h.pte hne⟩]
    next => rfl

/-- The number of pages that the walk takes out from the cursor on. -/
def Walk.takes (cr3 numPagesToFree : Nat) (w : Walk) : Nat :=
  if w.numPagesFreed < numPagesToFree then
    numPagesToFree - w.numPagesFreed + w.undercount cr3
  else 0

/-- What the loop does from `w` on, in at most `n` turns: it ends, it takes out the pages that are
left and passes their frames on. -/
structure WalkEffect (off cr3 numPagesToFree n : Nat) (w w' : Walk) : Prop where
  ends : numPagesToFree ≤ w'.numPagesFreed
  tables : HwTablesOk w'.mem cr3
  takesOut : TakesOut cr3 w.cursor (w.takes cr3 numPagesToFree) w.mem w'.mem
  frames : walkFrames off cr3 numPagesToFree n w =
    framesIn w.mem cr3 w.cursor (w.takes cr3 numPagesToFree)

/-- The loop has counted enough. -/
theorem walkEffect_of_counted {n : Nat} (h : HwTablesOk w.mem cr3)
    (hge : ¬ w.numPagesFreed < numPagesToFree)
    (hwalk : walk off cr3 numPagesToFree n w = some w') :
    WalkEffect off cr3 numPagesToFree n w w' := by
  have htakes : w.takes cr3 numPagesToFree = 0 := if_neg hge
  obtain ⟨rfl, hframes⟩ : w = w' ∧ walkFrames off cr3 numPagesToFree n w = [] := by
    cases n with
    | zero => exact ⟨Option.some.inj hwalk, rfl⟩
    | succ n =>
        rw [walk, if_neg hge] at hwalk
        exact ⟨Option.some.inj hwalk, if_neg hge⟩
  refine ⟨Nat.le_of_not_lt hge, h, ?_, ?_⟩
  · rw [htakes]
    exact TakesOut.refl _ _
  · rw [htakes, hframes]
    rfl

theorem walk_effect (hfew : numPagesToFree ≤ 512 * 512 * 512) : ∀ {n : Nat} {w : Walk},
    WalkInv cr3 start w → HwTablesOk w.mem cr3 → numPagesToFree ≤ n + w.numPagesFreed →
    w.cursor + w.takes cr3 numPagesToFree ≤ maxPage →
    walk off cr3 numPagesToFree n w = some w' → WalkEffect off cr3 numPagesToFree n w w' := by
  intro n
  induction n with
  | zero =>
      intro w _ h hfuel _ hwalk
      exact walkEffect_of_counted h (by omega) hwalk
  | succ n ih =>
      intro w hinv h hfuel hmax hwalk
      by_cases hlt : w.numPagesFreed < numPagesToFree
      · have hr := hinv.inRange (by omega)
        have htakes : w.takes cr3 numPagesToFree =
            numPagesToFree - w.numPagesFreed + w.undercount cr3 := if_pos hlt
        rw [walk, if_pos hlt] at hwalk
        obtain ⟨w₁, hstep, hrest⟩ := Option.bind_eq_some_iff.1 hwalk
        have hspec := walkStep_spec h.tablesOk hr hstep
        have hunder := walkStep_undercount hr hstep
        have hcounts := hspec.counts
        have hinv₁ := hinv.step hr hstep
        have h₁ := (hwPteOf_walkStep h hr hstep).1
        have hframes : walkFrames off cr3 numPagesToFree (n + 1) w = (turnFrame cr3 w).toList ++
            walkFrames off cr3 numPagesToFree n w₁ := by
          rw [walkFrames, if_pos hlt, hstep, Option.map_some, Option.getD_some]
        by_cases hlt₁ : w₁.numPagesFreed < numPagesToFree
        · -- the walk goes on, and from now on the count is exact
          have hzero := hspec.steady.undercount_eq_zero
          have htakes₁ : w₁.takes cr3 numPagesToFree = numPagesToFree - w₁.numPagesFreed := by
            rw [Walk.takes, if_pos hlt₁, hzero, Nat.add_zero]
          obtain ⟨count, hcount⟩ : ∃ count, w₁.cursor = w.cursor + count :=
            ⟨w₁.cursor - w.cursor, by omega⟩
          have hsplit : w.takes cr3 numPagesToFree = count + w₁.takes cr3 numPagesToFree := by
            omega
          obtain ⟨hturn, hframe⟩ := takesOut_walkStep h hr hstep count (by omega) (by omega)
          have heffect := ih hinv₁ h₁ (by omega) (by omega) hrest
          have hout := heffect.takesOut
          rw [hcount] at hout
          refine ⟨heffect.ends, heffect.tables, ?_, ?_⟩
          · rw [hsplit]
            exact hturn.trans hout (by omega)
          · rw [hframes, hframe, heffect.frames, hsplit, framesIn_add, hcount,
              hturn.framesIn_eq (by omega)]
        · -- the last turn, which may have passed more than was left
          obtain ⟨hturn, hframe⟩ := takesOut_walkStep h hr hstep (w.takes cr3 numPagesToFree)
            (by omega) (by omega)
          have heffect := walkEffect_of_counted h₁ hlt₁ hrest
          have htakes₁ : w₁.takes cr3 numPagesToFree = 0 := if_neg hlt₁
          have hsame := heffect.takesOut.same
          rw [htakes₁] at hsame
          refine ⟨heffect.ends, heffect.tables, ⟨fun u hle hu => ?_, fun v hv hout => ?_⟩, ?_⟩
          · rw [hsame _ (hwPage_lt (by omega)) fun u' hle' hu' => absurd hle' (by omega)]
            exact hturn.none u hle hu
          · rw [hsame v hv fun u' hle' hu' => absurd hle' (by omega)]
            exact hturn.same v hv hout
          · rw [hframes, hframe, heffect.frames, htakes₁]
            exact List.append_nil _
      · exact walkEffect_of_counted h hlt hwalk

end Walk

/-! ## The whole call -/

/-- The number of pages that a call of `petmem_free_vspace` takes out from the page of `vaddr`
on. -/
def walkedPages (map : MemMap) (cr3 vaddr : Nat) (mem : PtMem) : Nat :=
  (firstWalk vaddr mem []).takes cr3 (petmemFreeMap map vaddr).2

theorem Walk.undercount_le (cr3 : Nat) (w : Walk) : w.undercount cr3 ≤ 512 * 512 * 512 := by
  unfold Walk.undercount
  dsimp only
  split
  · exact (Nat.sub_le _ _).trans (Nat.sub_le _ _)
  · split
    · exact ((Nat.sub_le _ _).trans (Nat.sub_le _ _)).trans (by decide)
    · exact Nat.zero_le _

section Call

variable {off cr3 vaddr : Nat} {map map' : MemMap} {mem mem' : PtMem}
  {pools pools' : List BuddyMempool}

/-- The pages that a call takes out have numbers that the source can name. -/
theorem MapOk.walkedPages_le (hmap : MapOk map) (hvaddr : vaddr < 2 ^ 39) (cr3 : Nat)
    (mem : PtMem) : vaddr / 2 ^ 12 + walkedPages map cr3 vaddr mem ≤ maxPage := by
  have hfew := hmap.toFree_le vaddr
  have hunder := (firstWalk vaddr mem []).undercount_le cr3
  unfold petmemRegionEnd pageSize at hfew
  unfold walkedPages Walk.takes maxPage
  split
  · omega
  · omega

theorem MapOk.freePages_effect (hmap : MapOk map) (h : HwTablesOk mem cr3)
    (hin : vaddrInMap vaddr map = true) {w : Walk}
    (hwalk : freePages off cr3 vaddr (VirtualMemory.petmemFreeMap map vaddr).2 mem pools = some w) :
    WalkEffect off cr3 (VirtualMemory.petmemFreeMap map vaddr).2
      (VirtualMemory.petmemFreeMap map vaddr).2 (firstWalk vaddr mem pools) w := by
  have hvaddr : vaddr < 2 ^ 39 := Nat.lt_of_le_of_lt (hmap.vaddr_le hin) (by decide)
  refine walk_effect ((hmap.toFree_le vaddr).trans (by decide)) (walkInv_start hvaddr h.tablesOk) h
    (Nat.le_refl _) ?_ hwalk
  rw [cursor_firstWalk hvaddr]
  exact hmap.walkedPages_le hvaddr cr3 mem

/-- What a call does to the translation, and which frames it passes on. -/
theorem MapOk.petmemFreeVspace_effect (hmap : MapOk map) (h : HwTablesOk mem cr3)
    (hin : vaddrInMap vaddr map = true)
    (hfree : petmemFreeVspace off map cr3 vaddr mem pools = some (map', mem', pools')) :
    TakesOut cr3 (vaddr / 2 ^ 12) (walkedPages map cr3 vaddr mem) mem mem' ∧
      freedFrames off map cr3 vaddr mem pools =
        framesIn mem cr3 (vaddr / 2 ^ 12) (walkedPages map cr3 vaddr mem) := by
  obtain ⟨w, hwalk, heq⟩ := Option.map_eq_some_iff.1 hfree
  cases heq
  have hvaddr : vaddr < 2 ^ 39 := Nat.lt_of_le_of_lt (hmap.vaddr_le hin) (by decide)
  have heffect := hmap.freePages_effect h hin hwalk
  have hout := heffect.takesOut
  have hframes := heffect.frames
  rw [cursor_firstWalk hvaddr] at hout hframes
  exact ⟨hout, hframes⟩

/-- A call stops only at a `BUG_ON` in `petmem_free_pages`. -/
theorem freeFrames_freedFrames (off : Nat) (map : MemMap) (cr3 vaddr : Nat) (mem : PtMem)
    (pools : List BuddyMempool) : freeFrames off pools (freedFrames off map cr3 vaddr mem pools) =
      (petmemFreeVspace off map cr3 vaddr mem pools).map fun r => r.2.2 := by
  rw [petmemFreeVspace, Option.map_map]
  exact freeFrames_walkFrames off cr3 _ _ (firstWalk vaddr mem pools)

/-- Without pools nothing stops the walk. -/
theorem exists_petmemFreeVspace_nil (off : Nat) (map : MemMap) (cr3 vaddr : Nat) (mem : PtMem) :
    ∃ map' mem', petmemFreeVspace off map cr3 vaddr mem [] = some (map', mem', []) := by
  have hnil : ∀ frames, freeFrames off [] frames = some [] := by
    intro frames
    induction frames with
    | nil => rfl
    | cons frame frames ih => exact ih
  have hstops := freeFrames_freedFrames off map cr3 vaddr mem []
  rw [hnil] at hstops
  obtain ⟨⟨map', mem', pools'⟩, hfree, hpools⟩ := Option.map_eq_some_iff.1 hstops.symm
  cases hpools
  exact ⟨map', mem', hfree⟩

end Call

/-! ## The first fault of a process -/

/-- The page tables after the first fault of a process without page tables. -/
def faultedMem (map : MemMap) (faultAddr : Nat) : PtMem :=
  ((petmemHandlePagefault 0xffff880000000000 map 0x1000 faultAddr threePages emptyMem
    onePagePool).map fun r => r.2.1).getD emptyMem

/-- The first fault maps its own page and no other. -/
theorem hwPteOf_faultedMem {map : MemMap} (hmap : MapOk map) (faultAddr : Nat) :
    HwTablesOk (faultedMem map faultAddr) 0x1000 ∧
      ∀ v < hwMaxPage, hwPteOf (faultedMem map faultAddr) 0x1000 v ≠ none →
        v = faultAddr / 2 ^ 12 := by
  unfold faultedMem
  cases hfault : petmemHandlePagefault 0xffff880000000000 map 0x1000 faultAddr threePages emptyMem
      onePagePool with
  | none => exact ⟨hwTablesOk_emptyMem _, fun v _ hne => absurd (hwPteOf_emptyMem _ v) hne⟩
  | some r =>
      obtain ⟨res, mem, pools⟩ := r
      obtain ⟨htables, hpte⟩ := hwPteOf_petmemHandlePagefault (hwTablesOk_emptyMem _)
        hmap.page_lt_region threePages_ok noHwTable_threePages hfault
      refine ⟨htables, fun v hlt hne => ?_⟩
      rcases hpte with hsame | ⟨page, -, -, -, hpte⟩
      · exact absurd ((hsame v hlt).trans (hwPteOf_emptyMem _ v)) hne
      · by_contra hother
        refine hne ((hpte v hlt).trans ?_)
        rw [if_neg hother]
        exact hwPteOf_emptyMem _ v

/-- One allocation of two pages. -/
def twoPageMap : MemMap := [⟨true, 0x2000, 0x1000000000⟩, ⟨false, 0x1fffffe000, 0x1000002000⟩]

theorem reach_twoPageMap : memMaps.Reach [.allocVspace 2] twoPageMap :=
  (Machine.Reach.init rfl).append_path (.cons rfl .nil)

/-! ## Freeing is complete -/

/-- The page `v` is the only one whose frame is `frame`. -/
def OnlyPageOf (mem : PtMem) (cr3 frame v : Nat) : Prop :=
  ∀ v' < hwMaxPage, ∀ e, hwPteOf mem cr3 v' = some e → baseToPageAddr e.baseAddr = frame → v' = v

/-- A free of the allocation `n` is complete. The walk ends, and all that can stop it is a `BUG_ON`
in one of the calls of `petmem_free_pages`. Afterwards no page of the allocation is mapped. One call
of `petmem_free_pages` has been made for each page that was mapped, in the order of the pages, from
the start of the allocation to its end or beyond; in particular a frame that was mapped at one page
only has been passed exactly once. -/
structure FreesAll (off : Nat) (map : MemMap) (cr3 vaddr : Nat) (mem : PtMem)
    (pools : List BuddyMempool) (n : MapNode) : Prop where
  stops : (petmemFreeVspace off map cr3 vaddr mem pools).map (fun r => r.2.2) =
    freeFrames off pools (freedFrames off map cr3 vaddr mem pools)
  ends : ∀ w, freePages off cr3 vaddr (petmemFreeMap map vaddr).2 mem pools = some w →
    (petmemFreeMap map vaddr).2 ≤ w.numPagesFreed
  unmapped : ∀ map' mem' pools', petmemFreeVspace off map cr3 vaddr mem pools = some (map', mem',
    pools') → ∀ v, n.HoldsPage v → hwPteOf mem' cr3 v = none
  calls : ∀ map' mem' pools', petmemFreeVspace off map cr3 vaddr mem pools = some (map', mem',
    pools') → ∃ count, n.size ≤ count * pageSize ∧
      freedFrames off map cr3 vaddr mem pools = framesIn mem cr3 (n.start / pageSize) count
  once : ∀ map' mem' pools', petmemFreeVspace off map cr3 vaddr mem pools = some (map', mem',
    pools') → ∀ v e, n.HoldsPage v → hwPteOf mem cr3 v = some e →
      OnlyPageOf mem cr3 (baseToPageAddr e.baseAddr) v →
      (freedFrames off map cr3 vaddr mem pools).count (baseToPageAddr e.baseAddr) = 1

section Complete

variable {off cr3 vaddr : Nat} {map : MemMap} {mem : PtMem} {n : MapNode}

/-- A frame that is mapped at one page only is found once. -/
theorem count_framesIn {frame first count v : Nat} {e : PtEntry} (hlo : first ≤ v)
    (hhi : v < first + count) (hmax : first + count ≤ maxPage) (hpage : hwPage v = v)
    (he : hwPteOf mem cr3 v = some e) (hframe : baseToPageAddr e.baseAddr = frame)
    (honly : OnlyPageOf mem cr3 frame v) : (framesIn mem cr3 first count).count frame = 1 := by
  have hiff : ∀ u ∈ List.range' first count, (frameOf mem cr3 u = some frame ↔ u = v) := by
    intro u hu
    obtain ⟨-, hlt⟩ := List.mem_range'_1.1 hu
    rw [frameOf, Option.map_eq_some_iff]
    constructor
    · rintro ⟨e', he', hframe'⟩
      have heq := honly _ (hwPage_lt (Nat.lt_of_lt_of_le hlt hmax)) e' he' hframe'
      exact hwPage_inj (heq.trans hpage.symm)
    · rintro rfl
      rw [hpage]
      exact ⟨e, he, hframe⟩
  have hbool : ∀ u ∈ List.range' first count,
      (((frameOf mem cr3 u).map (· == frame)).getD false = true ↔ (u == v) = true) := by
    intro u hu
    rw [beq_iff_eq, ← hiff u hu]
    cases frameOf mem cr3 u with
    | none => simp
    | some f => simp
  rw [List.count, framesIn, List.countP_filterMap, List.countP_congr hbool]
  exact List.count_eq_one_of_mem List.nodup_range' (List.mem_range'_1.2 ⟨hlo, hhi⟩)

/-- A free takes out at least as many pages as the allocation has. -/
theorem MapOk.size_le_walkedPages (hmap : MapOk map) (hn : n ∈ allocatedNodes map)
    (hstart : n.start = pageAddr vaddr) (hin : vaddrInMap vaddr map = true) (cr3 : Nat)
    (mem : PtMem) :
    n.size ≤ walkedPages map cr3 vaddr mem * pageSize := by
  obtain ⟨hmem, halloc⟩ := mem_allocatedNodes.1 hn
  refine (hmap.size_le_of_released hmem halloc hstart hin).trans (Nat.mul_le_mul_right _ ?_)
  unfold walkedPages Walk.takes
  split
  next => exact Nat.le_add_right _ _
  next hzero => exact Nat.le_of_not_lt hzero

/-- The pages of the allocation are among those that a free takes out. -/
theorem MapOk.holdsPage_bounds (hmap : MapOk map) (hn : n ∈ allocatedNodes map)
    (hstart : n.start = pageAddr vaddr) (hin : vaddrInMap vaddr map = true) (cr3 : Nat)
    (mem : PtMem) {v : Nat} (hv : n.HoldsPage v) :
    vaddr / 2 ^ 12 ≤ v ∧ v < vaddr / 2 ^ 12 + walkedPages map cr3 vaddr mem ∧ hwPage v = v := by
  have hsize := hmap.size_le_walkedPages hn hstart hin cr3 mem
  have hend := (hmap.tiles.bounds (mem_allocatedNodes.1 hn).1).2
  obtain ⟨hlo, hhi⟩ := hv
  rw [hstart] at hlo hhi hend
  unfold pageAddr pageSize petmemRegionEnd at *
  exact ⟨by omega, by omega, hwPage_of_lt (by omega)⟩

/-- An address in the first page of a live allocation is in the map. -/
theorem MapOk.vaddrInMap_of_live (hmap : MapOk map) (hn : n ∈ allocatedNodes map)
    (hlo : n.start ≤ vaddr) (hhi : vaddr ≤ n.start + n.size) : vaddrInMap vaddr map = true := by
  obtain ⟨hmem, halloc⟩ := mem_allocatedNodes.1 hn
  refine List.any_eq_true.2 ⟨n, hmem, ?_⟩
  rw [Nat.mod_eq_of_lt (hmap.tiles.end_lt hmem)]
  simp [halloc, hlo, hhi]

/-- For every map that allocations and frees lead to and every tree of page tables, a free of an
address in the first page of a live allocation is complete. -/
theorem free_complete {calls : List MapCall} (h : memMaps.Reach calls map)
    (htables : HwTablesOk mem cr3) (hn : n ∈ allocatedNodes map) (hlo : n.start ≤ vaddr)
    (hpage : vaddr < n.start + pageSize) (hhi : vaddr < n.start + n.size)
    (off : Nat) (pools : List BuddyMempool) : FreesAll off map cr3 vaddr mem pools n := by
  have hmap := memMaps_mapOk h
  have hin := hmap.vaddrInMap_of_live hn hlo (Nat.le_of_lt hhi)
  have hvaddr : vaddr < 2 ^ 39 := Nat.lt_of_le_of_lt (hmap.vaddr_le hin) (by decide)
  have hstart : n.start = pageAddr vaddr := by
    obtain ⟨k, hk⟩ := (hmap.aligned n (mem_allocatedNodes.1 hn).1).start
    unfold pageAddr pageSize at *
    omega
  have hfirst : n.start / pageSize = vaddr / 2 ^ 12 := by
    rw [hstart]
    unfold pageAddr pageSize
    omega
  refine ⟨(freeFrames_freedFrames ..).symm,
    fun w hwalk => (hmap.freePages_effect htables hin hwalk).ends,
    fun map' mem' pools' hfree v hv => ?_, fun map' mem' pools' hfree => ?_,
    fun map' mem' pools' hfree v e hv he honly => ?_⟩
  · obtain ⟨hfrom, hto, hself⟩ := hmap.holdsPage_bounds hn hstart hin cr3 mem hv
    have hnone := (hmap.petmemFreeVspace_effect htables hin hfree).1.none v hfrom hto
    rwa [hself] at hnone
  · refine ⟨walkedPages map cr3 vaddr mem, hmap.size_le_walkedPages hn hstart hin _ _, ?_⟩
    rw [hfirst]
    exact (hmap.petmemFreeVspace_effect htables hin hfree).2
  · obtain ⟨hfrom, hto, hself⟩ := hmap.holdsPage_bounds hn hstart hin cr3 mem hv
    rw [(hmap.petmemFreeVspace_effect htables hin hfree).2]
    exact count_framesIn hfrom hto (hmap.walkedPages_le hvaddr cr3 mem) hself he rfl honly

end Complete

/-- Of two pages the first one is mapped, and both are freed by an address inside the first. -/
theorem free_complete_two_pages :
    hwPteOf (faultedMem twoPageMap 0x1000000000) 0x1000 0x1000000 = some (mappedEntry 0x100000) ∧
      FreesAll 0xffff880000000000 twoPageMap 0x1000 0x1000000fff
        (faultedMem twoPageMap 0x1000000000) onePagePool ⟨true, 0x2000, 0x1000000000⟩ := by
  refine ⟨rfl, free_complete reach_twoPageMap
    (hwPteOf_faultedMem (memMaps_mapOk reach_twoPageMap) 0x1000000000).1 ?_ (by decide) (by decide)
    (by decide) _ _⟩
  exact List.mem_singleton_self _

/-- The page tables after both pages of the allocation have been touched without any memory added:
`petmem_alloc_pages` returned 0 each time, and both pages are mapped to frame 0. -/
def sharedFrameMem : PtMem :=
  let touch (faultAddr : Nat) (mem : PtMem) : PtMem :=
    ((petmemHandlePagefault 0xffff880000000000 twoPageMap 0x1000 faultAddr threePages mem []).map
      fun r => r.2.1).getD mem
  touch 0x1000001000 (touch 0x1000000000 emptyMem)

/-- The first fault brings the tables, the second one only writes the entry of its page. -/
theorem hwTablesOk_sharedFrameMem : HwTablesOk sharedFrameMem 0x1000 := by
  cases hfault : petmemHandlePagefault 0xffff880000000000 twoPageMap 0x1000 0x1000000000 threePages
      emptyMem [] with
  | none => cases hfault
  | some r =>
      obtain ⟨res, mem, pools⟩ := r
      obtain ⟨htables, -⟩ := hwPteOf_petmemHandlePagefault (hwTablesOk_emptyMem _)
        (memMaps_mapOk reach_twoPageMap).page_lt_region threePages_ok noHwTable_threePages hfault
      have hsecond : sharedFrameMem =
          Function.update mem (0x4000 + 1 * 8) (mappedEntry 0) := by
        cases hfault
        rfl
      have hpt : hwTables.tableAt mem (cr3ToPml4e64 0x1000) [0, 64, 0] = some 0x4000 := by
        cases hfault
        rfl
      rw [hsecond]
      exact htables.update_leaf (hwTables_validPath_pathOf 0x1000001) rfl hpt

/-- Both pages of an allocation are mapped to one frame, and a free passes it to
`petmem_free_pages` twice. -/
theorem shared_frame_freed_twice :
    memMaps.Reach [.allocVspace 2] twoPageMap ∧ HwTablesOk sharedFrameMem 0x1000 ∧
    ⟨true, 0x2000, 0x1000000000⟩ ∈ allocatedNodes twoPageMap ∧
    hwPteOf sharedFrameMem 0x1000 0x1000000 = some (mappedEntry 0) ∧
    hwPteOf sharedFrameMem 0x1000 0x1000001 = some (mappedEntry 0) ∧
    (∃ map' mem', petmemFreeVspace 0xffff880000000000 twoPageMap 0x1000 0x1000000000
      sharedFrameMem [] = some (map', mem', [])) ∧
    (freedFrames 0xffff880000000000 twoPageMap 0x1000 0x1000000000 sharedFrameMem []).count 0 =
      2 := by
  obtain ⟨map', mem', hfree⟩ := exists_petmemFreeVspace_nil 0xffff880000000000 twoPageMap 0x1000
    0x1000000000 sharedFrameMem
  refine ⟨reach_twoPageMap, hwTablesOk_sharedFrameMem, List.mem_singleton_self _, rfl, rfl,
    ⟨map', mem', hfree⟩, ?_⟩
  have hwalked : walkedPages twoPageMap 0x1000 0x1000000000 sharedFrameMem = 2 := rfl
  rw [((memMaps_mapOk reach_twoPageMap).petmemFreeVspace_effect hwTablesOk_sharedFrameMem
    (by decide) hfree).2, hwalked]
  have hfirst : frameOf sharedFrameMem 0x1000 0x1000000 = some 0 := rfl
  have hsecond : frameOf sharedFrameMem 0x1000 0x1000001 = some 0 := rfl
  simp [framesIn, List.range', hfirst, hsecond]

/-! ## What else a free takes -/

/-- A free of the allocation `n` changes the translation of no page outside of it, and passes no
frame on that is mapped outside of it. -/
def TouchesNothingElse (off : Nat) (map : MemMap) (cr3 : Nat) (mem : PtMem) (n : MapNode) : Prop :=
  ∀ pools map' mem' pools', petmemFreeVspace off map cr3 n.start mem pools = some (map', mem',
    pools') → ∀ v < hwMaxPage, ¬ n.HoldsPage v →
      hwPteOf mem' cr3 v = hwPteOf mem cr3 v ∧
      ∀ e, hwPteOf mem cr3 v = some e →
        baseToPageAddr e.baseAddr ∉ freedFrames off map cr3 n.start mem pools

/-- No page from the end of the allocation up to where the walk stops is mapped. -/
def NothingBehind (map : MemMap) (cr3 : Nat) (mem : PtMem) (n : MapNode) : Prop :=
  ∀ u, (n.start + n.size) / pageSize ≤ u →
    u < n.start / pageSize + walkedPages map cr3 n.start mem → hwPteOf mem cr3 (hwPage u) = none

/-- No frame of the allocation is mapped outside of it as well. -/
def NoSharedFrame (cr3 : Nat) (mem : PtMem) (n : MapNode) : Prop :=
  ∀ v v', n.HoldsPage v → v' < hwMaxPage → ¬ n.HoldsPage v' → ∀ e e', hwPteOf mem cr3 v = some e →
    hwPteOf mem cr3 v' = some e' → baseToPageAddr e'.baseAddr ≠ baseToPageAddr e.baseAddr

section Else

variable {off cr3 : Nat} {map : MemMap} {mem : PtMem} {n : MapNode}

/-- A page that the walk passes behind the end of the allocation is not a page of it. -/
theorem MapOk.not_holdsPage_hwPage (hmap : MapOk map) (hn : n ∈ map) {u : Nat}
    (hu : (n.start + n.size) / pageSize ≤ u) : ¬ n.HoldsPage (hwPage u) := by
  rintro ⟨-, hlt⟩
  have hend := (hmap.tiles.bounds hn).2
  have hstart := (hmap.aligned n hn).start
  have hsize := (hmap.aligned n hn).size
  have hdvd := Nat.div_mul_cancel (Nat.dvd_add hstart hsize)
  have hle : (n.start + n.size) / pageSize ≤ hwPage u := by
    refine hu.trans ?_
    unfold hwPage
    omega
  have := Nat.mul_le_mul_right pageSize hle
  rw [Nat.succ_mul] at hlt
  have hpos : 0 < pageSize := by decide
  omega

/-- The frames that a free passes on are those of the pages that it takes out. -/
theorem mem_framesIn {first count frame : Nat} : frame ∈ framesIn mem cr3 first count ↔
    ∃ u e, first ≤ u ∧ u < first + count ∧ hwPteOf mem cr3 (hwPage u) = some e ∧
      baseToPageAddr e.baseAddr = frame := by
  simp only [framesIn, List.mem_filterMap, List.mem_range'_1, frameOf, Option.map_eq_some_iff]
  constructor
  · rintro ⟨u, ⟨hlo, hhi⟩, e, he, hframe⟩
    exact ⟨u, e, hlo, hhi, he, hframe⟩
  · rintro ⟨u, e, hlo, hhi, he, hframe⟩
    exact ⟨u, ⟨hlo, hhi⟩, e, he, hframe⟩

/-- Where a page that the walk takes out lies. -/
theorem MapOk.holdsPage_or_behind (hmap : MapOk map) (hn : n ∈ map) {u : Nat}
    (hu : n.start / pageSize ≤ u) :
    (n.HoldsPage u ∧ hwPage u = u) ∨ (n.start + n.size) / pageSize ≤ u := by
  have hend := (hmap.tiles.bounds hn).2
  have hstart := Nat.div_mul_cancel (hmap.aligned n hn).start
  have hsize := Nat.div_mul_cancel (Nat.dvd_add (hmap.aligned n hn).start (hmap.aligned n hn).size)
  rcases Nat.lt_or_ge u ((n.start + n.size) / pageSize) with hlt | hge
  · refine Or.inl ⟨⟨?_, ?_⟩, hwPage_of_lt ?_⟩
    · rw [← hstart]
      exact Nat.mul_le_mul_right _ hu
    · rw [← hsize]
      exact Nat.mul_le_mul_right _ hlt
    · unfold petmemRegionEnd pageSize at *
      omega
  · exact Or.inr hge

/-- For every map that allocations and frees lead to and every tree of page tables, a free at the
start of a live allocation touches nothing else exactly if no page is mapped between the end of the
allocation and the end of the walk, and no frame of the allocation is mapped elsewhere. -/
theorem touchesNothingElse_iff {calls : List MapCall} (h : memMaps.Reach calls map)
    (htables : HwTablesOk mem cr3) (hn : n ∈ allocatedNodes map) (off : Nat) :
    TouchesNothingElse off map cr3 mem n ↔
      NothingBehind map cr3 mem n ∧ NoSharedFrame cr3 mem n := by
  have hmap := memMaps_mapOk h
  have hmem := (mem_allocatedNodes.1 hn).1
  have hin := hmap.vaddrInMap_of_live hn (Nat.le_refl _) (Nat.le_add_right _ _)
  have hvaddr : n.start < 2 ^ 39 := Nat.lt_of_le_of_lt (hmap.vaddr_le hin) (by decide)
  have hstart : n.start = pageAddr n.start :=
    (Nat.div_mul_cancel (hmap.aligned n hmem).start).symm
  have hmax := hmap.walkedPages_le hvaddr cr3 mem
  constructor
  · intro hnothing
    obtain ⟨map', mem', hfree⟩ := exists_petmemFreeVspace_nil off map cr3 n.start mem
    obtain ⟨hout, hframes⟩ := hmap.petmemFreeVspace_effect htables hin hfree
    refine ⟨fun u hge hlt => ?_, fun v v' hv hv' hnot e e' he he' heq => ?_⟩
    · have hlo : n.start / 2 ^ 12 ≤ u := (Nat.div_le_div_right (Nat.le_add_right _ _)).trans hge
      have hsame := (hnothing _ _ _ _ hfree _ (hwPage_lt (Nat.lt_of_lt_of_le hlt hmax))
        (hmap.not_holdsPage_hwPage hmem hge)).1
      rw [← hsame]
      exact hout.none u hlo hlt
    · obtain ⟨hfrom, hto, hself⟩ := hmap.holdsPage_bounds hn hstart hin cr3 mem hv
      refine (hnothing _ _ _ _ hfree v' hv' hnot).2 e' he' ?_
      rw [hframes, mem_framesIn, heq]
      exact ⟨v, e, hfrom, hto, by rw [hself, he], rfl⟩
  · rintro ⟨hbehind, hshared⟩ pools map' mem' pools' hfree v hv hnot
    obtain ⟨hout, hframes⟩ := hmap.petmemFreeVspace_effect htables hin hfree
    refine ⟨?_, fun e he hframe => ?_⟩
    · by_cases hwalked : ∃ u, n.start / 2 ^ 12 ≤ u ∧
          u < n.start / 2 ^ 12 + walkedPages map cr3 n.start mem ∧ v = hwPage u
      · obtain ⟨u, hlo, hhi, rfl⟩ := hwalked
        rcases hmap.holdsPage_or_behind hmem hlo with ⟨hpage, hself⟩ | hge
        · rw [hself] at hnot
          exact absurd hpage hnot
        · rw [hout.none u hlo hhi, hbehind u hge hhi]
      · exact hout.same v hv fun u hlo hhi heq => hwalked ⟨u, hlo, hhi, heq⟩
    · rw [hframes, mem_framesIn] at hframe
      obtain ⟨u, e', hlo, hhi, he', hframe⟩ := hframe
      rcases hmap.holdsPage_or_behind hmem hlo with ⟨hpage, hself⟩ | hge
      · rw [hself] at he'
        exact hshared u v hpage hv hnot e' e he' he hframe.symm
      · rw [hbehind u hge hhi] at he'
        cases he'

end Else

/-- The same two pages: nothing else is touched. -/
theorem touchesNothingElse_iff_two_pages :
    hwPteOf (faultedMem twoPageMap 0x1000000000) 0x1000 0x1000000 = some (mappedEntry 0x100000) ∧
      TouchesNothingElse 0xffff880000000000 twoPageMap 0x1000 (faultedMem twoPageMap 0x1000000000)
        ⟨true, 0x2000, 0x1000000000⟩ := by
  obtain ⟨htables, hpte⟩ := hwPteOf_faultedMem (memMaps_mapOk reach_twoPageMap) 0x1000000000
  refine ⟨rfl, (touchesNothingElse_iff reach_twoPageMap htables (List.mem_singleton_self _) _).2
    ⟨fun u hge hlt => ?_, fun v v' hv hv' hnot e e' he he' _ => ?_⟩⟩
  · -- the table is there, so that the walk ends with the allocation
    have hwalked : walkedPages twoPageMap 0x1000 0x1000000000 (faultedMem twoPageMap 0x1000000000) =
        2 :=
      rfl
    rw [hwalked] at hlt
    exact absurd hge (Nat.not_le.2 hlt)
  · have heq := hpte v' hv' (by rw [he']; exact Option.some_ne_none e')
    rw [heq] at hnot
    exact absurd ⟨by decide, by decide⟩ hnot

/-- Allocations of one page, of 1 GiB and of one page. -/
def threeNodeMap : MemMap :=
  [⟨true, 0x1000, 0x1000000000⟩, ⟨true, 0x40000000, 0x1000001000⟩, ⟨true, 0x1000, 0x1040001000⟩,
    ⟨false, 0x1fbfffe000, 0x1040002000⟩]

theorem reach_threeNodeMap :
    memMaps.Reach [.allocVspace 1, .allocVspace 0x40000, .allocVspace 1] threeNodeMap :=
  (Machine.Reach.init rfl).append_path (.cons rfl (.cons rfl (.cons rfl .nil)))

/-- Only the last of three allocations has been touched. The one before it starts at the second page
of a GiB without tables: the walk counts `512 * 511` pages for the rest of this GiB and goes on into
the next one for another 512 pages, though only one page of the allocation is left there. So it
unmaps the page of the last allocation and frees its frame. -/
theorem free_unmaps_next_allocation :
    memMaps.Reach [.allocVspace 1, .allocVspace 0x40000, .allocVspace 1] threeNodeMap ∧
    HwTablesOk (faultedMem threeNodeMap 0x1040001000) 0x1000 ∧
    hwPteOf (faultedMem threeNodeMap 0x1040001000) 0x1000 0x1040001 = some (mappedEntry 0x100000) ∧
    (∃ map' mem', petmemFreeVspace 0xffff880000000000 threeNodeMap 0x1000 0x1000001000
        (faultedMem threeNodeMap 0x1040001000) [] = some (map', mem', []) ∧
      hwPteOf mem' 0x1000 0x1040001 = none) ∧
    0x100000 ∈ freedFrames 0xffff880000000000 threeNodeMap 0x1000 0x1000001000
      (faultedMem threeNodeMap 0x1040001000) [] ∧
    ¬ TouchesNothingElse 0xffff880000000000 threeNodeMap 0x1000
      (faultedMem threeNodeMap 0x1040001000) ⟨true, 0x40000000, 0x1000001000⟩ := by
  have hmap := memMaps_mapOk reach_threeNodeMap
  obtain ⟨htables, -⟩ := hwPteOf_faultedMem hmap 0x1040001000
  have hentry : hwPteOf (faultedMem threeNodeMap 0x1040001000) 0x1000 0x1040001 =
      some (mappedEntry 0x100000) := rfl
  have hwalked : walkedPages threeNodeMap 0x1000 0x1000001000
      (faultedMem threeNodeMap 0x1040001000) = 0x40000 + 511 := rfl
  obtain ⟨map', mem', hfree⟩ := exists_petmemFreeVspace_nil 0xffff880000000000 threeNodeMap 0x1000
    0x1000001000 (faultedMem threeNodeMap 0x1040001000)
  obtain ⟨hout, hframes⟩ := hmap.petmemFreeVspace_effect htables (by decide) hfree
  rw [hwalked] at hout hframes
  have hnone : hwPteOf mem' 0x1000 0x1040001 = none := hout.none 0x1040001 (by decide) (by decide)
  refine ⟨reach_threeNodeMap, htables, hentry, ⟨map', mem', hfree, hnone⟩, ?_, fun hnothing => ?_⟩
  · rw [hframes, mem_framesIn]
    exact ⟨0x1040001, _, by decide, by decide, hentry, rfl⟩
  · have hsame := (hnothing _ _ _ _ hfree 0x1040001 (by decide)
      (by unfold MapNode.HoldsPage; decide)).1
    rw [hnone, hentry] at hsame
    cases hsame

end PetKernel.VirtualMemory
