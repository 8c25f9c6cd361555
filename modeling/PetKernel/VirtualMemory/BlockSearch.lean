import PetKernel.Library.Machine
import PetKernel.Library.Window

/-!
# The search of `petmem` for memory blocks

`user/petmem.c` looks for `num_blocks` consecutive memory blocks that can be taken offline. It keeps
a bitmap of the removable blocks. In each turn it scans the bitmap for a run of `num_blocks` bits,
asks for each block of the run to be taken offline, and reads back whether that happened. At the
first block that is still online it clears the bit of this block, puts the blocks before it online
again and starts over.

`reg_start` is not reset before a scan. The scan writes it at every clear bit, so that it is left
alone only when all bits up to the end of the run are set. `Search.Sound`, that no window of set
bits starts below `reg_start`, is what makes this correct; it is kept because bits are only ever
cleared. `scan_found` and `scan_notFound` are the results for one scan, `blockSearch_sound` for all
scans of a run, and `block_search_sound_and_ends` adds that the loop ends.

Every turn may have other blocks refused: `granted` says for which blocks the request of the turn
succeeds. Opening and reading the files of sysfs always succeeds, and so do the requests to put a
block online.
-/

set_option autoImplicit false

namespace PetKernel.VirtualMemory.Petmem

open PetKernel.Library

/-! ## The bitmap and its scan -/

/-- `bitmap[i / 8] & (0x1 << (i % 8))`. -/
def bitSet (bitmap : Nat → BitVec 8) (i : Nat) : Bool := bitmap (i / 8) &&& (1#8 <<< (i % 8)) != 0#8

/-- `bitmap[i / 8] &= ~(0x1 << (i % 8))`. -/
def clearBit (bitmap : Nat → BitVec 8) (i : Nat) : Nat → BitVec 8 :=
  Function.update bitmap (i / 8) (bitmap (i / 8) &&& ~~~(1#8 <<< (i % 8)))

/-- What the search keeps from one turn to the next. -/
structure Search where
  bitmap : Nat → BitVec 8
  regStart : Nat

/-- The loop of the scan over the `n` bits from `i` on: `reg_start` and `run_len`. -/
def scanFrom (bitmap : Nat → BitVec 8) (numBlocks : Nat) : Nat → Nat → Nat → Nat → Nat × Nat
  | 0, _, regStart, runLen => (regStart, runLen)
  | n + 1, i, regStart, runLen =>
      if bitSet bitmap i = false then scanFrom bitmap numBlocks n (i + 1) (i + 1) 0
      else if numBlocks ≤ runLen + 1 then (regStart, runLen + 1)
      else scanFrom bitmap numBlocks n (i + 1) regStart (runLen + 1)

/-- Scan bitmap for enough consecutive space: `reg_start` and `run_len`. -/
def scan (bitmapEntries numBlocks : Nat) (s : Search) : Nat × Nat :=
  scanFrom s.bitmap numBlocks bitmapEntries 0 s.regStart 0

/-! ## Taking blocks offline -/

/-- The search and the memory blocks that are offline. -/
structure Tool extends Search where
  offline : Nat → Bool

/-- Offline memory blocks starting at `reg_start`: the requests for the `n` blocks from the `i`-th
on. -/
def offlineFrom (granted : Nat → Bool) (regStart : Nat) : Nat → Nat → (Nat → Bool) → Nat → Bool
  | 0, _, offline => offline
  | n + 1, i, offline =>
      offlineFrom granted regStart n (i + 1)
        (if granted (i + regStart) then Function.update offline (i + regStart) true else offline)

/-- Puts the `n` blocks from the `j`-th on online again. -/
def onlineFrom (regStart : Nat) : Nat → Nat → (Nat → Bool) → Nat → Bool
  | 0, _, offline => offline
  | n + 1, j, offline =>
      onlineFrom regStart n (j + 1) (Function.update offline (j + regStart) false)

/-- What the verification of a window reports. -/
inductive Verdict where
  /-- `mem_ready` is 1. -/
  | ok
  /-- `mem_ready` is 0: the block is still online. -/
  | error (block : Nat)

/-- Checks the `n` blocks from the `i`-th on. -/
def verifyFrom (regStart : Nat) : Nat → Nat → Tool → Verdict × Tool
  | 0, _, s => (.ok, s)
  | n + 1, i, s =>
      if s.offline (i + regStart) then verifyFrom regStart n (i + 1) s
      else
        (.error (i + regStart),
          ⟨⟨clearBit s.bitmap (i + regStart), s.regStart⟩, onlineFrom regStart i 0 s.offline⟩)

/-- How a turn of the loop ends. -/
inductive Turn where
  /-- Could not find enough consecutive memory blocks. -/
  | notFound (runLen : Nat)
  | ready (s : Tool)
  /-- The block was still online. -/
  | retry (block : Nat) (s : Tool)

/-- One turn of the loop. -/
def turn (bitmapEntries numBlocks : Nat) (granted : Nat → Bool) (s : Tool) : Turn :=
  let (regStart, runLen) := scan bitmapEntries numBlocks s.toSearch
  if runLen < numBlocks then .notFound runLen
  else
    let offline := offlineFrom granted regStart numBlocks 0 s.offline
    match verifyFrom regStart numBlocks 0 ⟨⟨s.bitmap, regStart⟩, offline⟩ with
    | (.ok, s) => .ready s
    | (.error block, s) => .retry block s

/-- How `main` ends. -/
inductive Outcome where
  | notFound (runLen : Nat)
  /-- `ADD_MEMORY` with a base address and a number of pages. -/
  | addMemory (baseAddr pages : Nat)
deriving DecidableEq, Repr

/-- The loop of `main` for at most `n` turns from the `k`-th on, and `ADD_MEMORY` after it. -/
def search (bitmapEntries numBlocks blockSizeBytes : Nat) (granted : Nat → Nat → Bool) :
    Nat → Nat → Tool → Option (Outcome × Tool)
  | 0, _, _ => none
  | n + 1, k, s =>
      match turn bitmapEntries numBlocks (granted k) s with
      | .notFound runLen => some (.notFound runLen, s)
      | .ready t =>
          some (.addMemory (t.regStart * blockSizeBytes % 2 ^ 64)
            (numBlocks * blockSizeBytes % 2 ^ 64 / 4096), t)
      | .retry _ t => search bitmapEntries numBlocks blockSizeBytes granted n (k + 1) t

/-- `main` after the bitmap was made. A turn that does not end the loop clears a bit. -/
def petmemMain (bitmapEntries numBlocks blockSizeBytes : Nat) (granted : Nat → Nat → Bool)
    (bitmap : Nat → BitVec 8) (offline : Nat → Bool) : Option (Outcome × Tool) :=
  search bitmapEntries numBlocks blockSizeBytes granted (bitmapEntries + 1) 0 ⟨⟨bitmap, 0⟩, offline⟩

/-! ## The bits -/

theorem bitSet_iff (bitmap : Nat → BitVec 8) (i : Nat) :
    bitSet bitmap i = (bitmap (i / 8)).getLsbD (i % 8) := by
  have hlt : i % 8 < 8 := Nat.mod_lt _ (by decide)
  have hmask : BitVec.twoPow 8 (i % 8) ≠ 0#8 := by
    intro heq
    have hget := congrArg (fun w => w.getLsbD (i % 8)) heq
    simp [hlt] at hget
  rw [bitSet, ← BitVec.twoPow_eq, BitVec.and_twoPow]
  cases (bitmap (i / 8)).getLsbD (i % 8) with
  | false => rfl
  | true => simpa using hmask

/-- Clearing the bit of a block leaves the other bits alone. -/
theorem bitSet_clearBit (bitmap : Nat → BitVec 8) (b i : Nat) :
    bitSet (clearBit bitmap b) i = true ↔ bitSet bitmap i = true ∧ i ≠ b := by
  rw [bitSet_iff, bitSet_iff, clearBit]
  by_cases hmajor : i / 8 = b / 8
  · have hlt : i % 8 < 8 := Nat.mod_lt _ (by decide)
    have hminor : i % 8 = b % 8 ↔ i = b := by omega
    rw [hmajor, Function.update_self, ← BitVec.twoPow_eq]
    simp [hlt, hminor]
  · rw [Function.update_of_ne hmajor]
    have hne : i ≠ b := fun heq => hmajor (heq ▸ rfl)
    exact (and_iff_left hne).symm

/-- The blocks of the bitmap that are still candidates. -/
def setBits (bitmapEntries : Nat) (bitmap : Nat → BitVec 8) : Finset Nat :=
  (Finset.range bitmapEntries).filter fun i => bitSet bitmap i = true

theorem card_setBits_le (bitmapEntries : Nat) (bitmap : Nat → BitVec 8) :
    (setBits bitmapEntries bitmap).card ≤ bitmapEntries :=
  (Finset.card_filter_le _ _).trans_eq (Finset.card_range _)

/-- Clearing a bit takes one candidate away. -/
theorem card_setBits_clearBit {bitmapEntries b : Nat} {bitmap : Nat → BitVec 8}
    (hb : b < bitmapEntries) (hset : bitSet bitmap b = true) :
    (setBits bitmapEntries (clearBit bitmap b)).card + 1 = (setBits bitmapEntries bitmap).card := by
  have hmem : b ∈ setBits bitmapEntries bitmap :=
    Finset.mem_filter.2 ⟨Finset.mem_range.2 hb, hset⟩
  have herase : setBits bitmapEntries (clearBit bitmap b) =
      (setBits bitmapEntries bitmap).erase b := by
    ext i
    simp only [setBits, Finset.mem_filter, Finset.mem_erase, bitSet_clearBit]
    tauto
  rw [herase]
  exact Finset.card_erase_add_one hmem

/-! ## One scan -/

/-- `num_blocks` blocks of the bitmap from `r` on, all with their bits set. -/
def BlockWindow (bitmapEntries numBlocks : Nat) (bitmap : Nat → BitVec 8) (r : Nat) : Prop :=
  Window (fun i => bitSet bitmap i = true) bitmapEntries numBlocks r

theorem BlockWindow.of_clearBit {bitmapEntries numBlocks b r : Nat} {bitmap : Nat → BitVec 8}
    (h : BlockWindow bitmapEntries numBlocks (clearBit bitmap b) r) :
    BlockWindow bitmapEntries numBlocks bitmap r :=
  h.mono fun i hi => ((bitSet_clearBit bitmap b i).1 hi).1

/-- No window starts below `reg_start`. -/
def Search.Sound (bitmapEntries numBlocks : Nat) (s : Search) : Prop :=
  ∀ r, BlockWindow bitmapEntries numBlocks s.bitmap r → s.regStart ≤ r

/-- The two ways in which the loop of the scan ends. Until the first clear bit `reg_start` is what
it was before the scan. -/
theorem scanFrom_spec {bitmapEntries numBlocks : Nat} {bitmap : Nat → BitVec 8} :
    ∀ {n i regStart runLen : Nat}, i + n = bitmapEntries →
      Searched (fun i => bitSet bitmap i = true) numBlocks i runLen → runLen < numBlocks →
      (regStart = i - runLen ∨
        runLen = i ∧ ∀ r, BlockWindow bitmapEntries numBlocks bitmap r → regStart ≤ r) →
      (numBlocks ≤ (scanFrom bitmap numBlocks n i regStart runLen).2 ∧
        IsLeast { r | BlockWindow bitmapEntries numBlocks bitmap r }
          (scanFrom bitmap numBlocks n i regStart runLen).1) ∨
      ((scanFrom bitmap numBlocks n i regStart runLen).2 < numBlocks ∧
        ∀ r, ¬ BlockWindow bitmapEntries numBlocks bitmap r) := by
  intro n
  induction n with
  | zero =>
      intro i regStart runLen hi hsearched hrun _
      subst hi
      exact Or.inr ⟨hrun, hsearched.none⟩
  | succ n ih =>
      intro i regStart runLen hi hsearched hrun hstart
      rw [scanFrom]
      split
      next hclear =>
        have hnot : ¬ bitSet bitmap i = true := by simp [hclear]
        exact ih (by omega) (hsearched.clear hnot (by omega)) (by omega) (Or.inl rfl)
      next hset =>
        rw [Bool.not_eq_false] at hset
        split
        next hlen =>
          left
          refine ⟨hlen, ?_⟩
          have hleast := hsearched.found hset hrun hlen (show i < bitmapEntries by omega)
          rcases hstart with rfl | ⟨rfl, hsound⟩
          · exact hleast
          · -- all bits so far are set: the window is at 0, and so is `reg_start`
            rw [Nat.sub_self] at hleast
            obtain rfl : regStart = 0 := Nat.le_zero.1 (hsound 0 hleast.1)
            exact hleast
        next hlen =>
          refine ih (by omega) (hsearched.extend hset (by omega)) (by omega) ?_
          rcases hstart with rfl | ⟨rfl, hsound⟩
          · left
            omega
          · exact Or.inr ⟨rfl, hsound⟩

section Scan

variable {bitmapEntries numBlocks : Nat} {s : Search}

theorem scan_spec (hnum : 1 ≤ numBlocks) (hs : s.Sound bitmapEntries numBlocks) :
    (numBlocks ≤ (scan bitmapEntries numBlocks s).2 ∧
      IsLeast { r | BlockWindow bitmapEntries numBlocks s.bitmap r }
        (scan bitmapEntries numBlocks s).1) ∨
    ((scan bitmapEntries numBlocks s).2 < numBlocks ∧
      ∀ r, ¬ BlockWindow bitmapEntries numBlocks s.bitmap r) :=
  scanFrom_spec (Nat.zero_add _) (Searched.zero _ hnum) hnum (Or.inr ⟨rfl, hs⟩)

/-- A scan that succeeds finds the lowest window. -/
theorem scan_found (hnum : 1 ≤ numBlocks) (hs : s.Sound bitmapEntries numBlocks)
    (hfound : numBlocks ≤ (scan bitmapEntries numBlocks s).2) :
    IsLeast { r | BlockWindow bitmapEntries numBlocks s.bitmap r }
      (scan bitmapEntries numBlocks s).1 := by
  rcases scan_spec hnum hs with ⟨-, hleast⟩ | ⟨hlt, -⟩
  · exact hleast
  · exact absurd hfound (Nat.not_le.2 hlt)

/-- A scan fails only if there is no window. -/
theorem scan_notFound (hnum : 1 ≤ numBlocks) (hs : s.Sound bitmapEntries numBlocks)
    (hfail : (scan bitmapEntries numBlocks s).2 < numBlocks) :
    ∀ r, ¬ BlockWindow bitmapEntries numBlocks s.bitmap r := by
  rcases scan_spec hnum hs with ⟨hle, -⟩ | ⟨-, hnone⟩
  · exact absurd hfail (Nat.not_lt.2 hle)
  · exact hnone

end Scan

/-! ## All scans -/

/-- The search on its own: a block of the window that the scan has found turns out to be online. -/
def blockSearch (bitmapEntries numBlocks : Nat) : Machine Search Nat where
  init s := s.regStart = 0
  step s b t :=
    numBlocks ≤ (scan bitmapEntries numBlocks s).2 ∧
      (scan bitmapEntries numBlocks s).1 ≤ b ∧ b < (scan bitmapEntries numBlocks s).1 + numBlocks ∧
      t = ⟨clearBit s.bitmap b, (scan bitmapEntries numBlocks s).1⟩

section Steps

variable {bitmapEntries numBlocks b : Nat} {s t : Search}

theorem Search.Sound.step (hs : s.Sound bitmapEntries numBlocks) (hnum : 1 ≤ numBlocks)
    (hstep : (blockSearch bitmapEntries numBlocks).step s b t) :
    t.Sound bitmapEntries numBlocks := by
  obtain ⟨hfound, -, -, rfl⟩ := hstep
  intro r hr
  exact (scan_found hnum hs hfound).2 hr.of_clearBit

/-- The block that is given up was one of the candidates. -/
theorem Search.Sound.card_step (hs : s.Sound bitmapEntries numBlocks) (hnum : 1 ≤ numBlocks)
    (hstep : (blockSearch bitmapEntries numBlocks).step s b t) :
    (setBits bitmapEntries t.bitmap).card + 1 = (setBits bitmapEntries s.bitmap).card := by
  obtain ⟨hfound, hle, hlt, rfl⟩ := hstep
  obtain ⟨hbound, hset⟩ := (scan_found hnum hs hfound).1
  exact card_setBits_clearBit (Nat.lt_of_lt_of_le hlt hbound) (hset b hle hlt)

/-- Over a whole run: no window starts below `reg_start`, and each failure has taken one candidate
away. -/
theorem blockSearch_sound (hnum : 1 ≤ numBlocks) {failed : List Nat}
    (h : (blockSearch bitmapEntries numBlocks).Reach failed s) :
    s.Sound bitmapEntries numBlocks ∧
      failed.length + (setBits bitmapEntries s.bitmap).card ≤ bitmapEntries := by
  refine h.history (I := fun failed s => s.Sound bitmapEntries numBlocks ∧
    failed.length + (setBits bitmapEntries s.bitmap).card ≤ bitmapEntries) ?_ ?_
  · intro s hinit
    have hzero : s.regStart = 0 := hinit
    refine ⟨fun r _ => hzero ▸ Nat.zero_le r, ?_⟩
    rw [List.length_nil, Nat.zero_add]
    exact card_setBits_le _ _
  · rintro failed s b t - ⟨hs, hcard⟩ hstep
    have hless := hs.card_step hnum hstep
    refine ⟨hs.step hnum hstep, ?_⟩
    rw [List.length_append, List.length_singleton]
    omega

end Steps

/-! ## One turn of the loop -/

/-- What is offline after the requests for the window at `r`. -/
def offlined (granted : Nat → Bool) (r numBlocks : Nat) (offline : Nat → Bool) (b : Nat) : Bool :=
  offline b || (decide (r ≤ b ∧ b < r + numBlocks) && granted b)

/-- What is offline after the blocks from `r` to `b` were put online again. -/
def rolledBack (r b : Nat) (offline : Nat → Bool) (x : Nat) : Bool :=
  !decide (r ≤ x ∧ x < b) && offline x

theorem offlineFrom_apply (granted : Nat → Bool) (r b : Nat) : ∀ (n i : Nat) (offline : Nat → Bool),
    offlineFrom granted r n i offline b = offlined granted (i + r) n offline b := by
  intro n
  induction n with
  | zero =>
      intro i offline
      have hempty : ¬ (i + r ≤ b ∧ b < i + r + 0) := by omega
      rw [offlineFrom, offlined, decide_eq_false hempty, Bool.false_and, Bool.or_false]
  | succ n ih =>
      intro i offline
      rw [offlineFrom, ih, offlined, offlined]
      by_cases hb : b = i + r
      -- the request for this block, and those for the others
      · subst hb
        have hlast : ¬ (i + 1 + r ≤ i + r ∧ i + r < i + 1 + r + n) := by omega
        have hfirst : i + r ≤ i + r ∧ i + r < i + r + (n + 1) := by omega
        rw [decide_eq_false hlast, decide_eq_true hfirst]
        cases hgranted : granted (i + r) with
        | false => simp
        | true => simp
      · have hrange : (i + 1 + r ≤ b ∧ b < i + 1 + r + n) ↔
          (i + r ≤ b ∧ b < i + r + (n + 1)) := by omega
        have hsame : (if granted (i + r) = true then Function.update offline (i + r) true
            else offline) b = offline b := by
          split
          · exact Function.update_of_ne hb _ _
          · rfl
        rw [hsame, decide_eq_decide.2 hrange]

theorem onlineFrom_apply (r x : Nat) : ∀ (n j : Nat) (offline : Nat → Bool),
    onlineFrom r n j offline x = rolledBack (j + r) (j + n + r) offline x := by
  intro n
  induction n with
  | zero =>
      intro j offline
      have hempty : ¬ (j + r ≤ x ∧ x < j + 0 + r) := by omega
      rw [onlineFrom, rolledBack, decide_eq_false hempty, Bool.not_false, Bool.true_and]
  | succ n ih =>
      intro j offline
      rw [onlineFrom, ih, rolledBack, rolledBack]
      by_cases hx : x = j + r
      · have hfirst : j + r ≤ x ∧ x < j + (n + 1) + r := by omega
        rw [decide_eq_true hfirst, hx, Function.update_self, Bool.and_false, Bool.not_true,
          Bool.false_and]
      · have hrange : (j + 1 + r ≤ x ∧ x < j + 1 + n + r) ↔
          (j + r ≤ x ∧ x < j + (n + 1) + r) := by omega
        rw [Function.update_of_ne hx, decide_eq_decide.2 hrange]

/-- The verification goes up to the first block that is online. -/
theorem verifyFrom_cases (r : Nat) (s : Tool) : ∀ n i : Nat,
    (verifyFrom r n i s = (.ok, s) ∧ ∀ b, i + r ≤ b → b < i + r + n → s.offline b = true) ∨
    ∃ b, i + r ≤ b ∧ b < i + r + n ∧ (∀ x, i + r ≤ x → x < b → s.offline x = true) ∧
      s.offline b = false ∧
      verifyFrom r n i s = (.error b,
        ⟨⟨clearBit s.bitmap b, s.regStart⟩, rolledBack r b s.offline⟩) := by
  intro n
  induction n with
  | zero =>
      intro i
      exact Or.inl ⟨rfl, fun b hle hlt => absurd hlt (by omega)⟩
  | succ n ih =>
      intro i
      rw [verifyFrom]
      cases hstatus : s.offline (i + r) with
      | false =>
          refine Or.inr ⟨i + r, Nat.le_refl _, by omega, fun x hle hlt => by omega, hstatus, ?_⟩
          have honline : onlineFrom r i 0 s.offline = rolledBack r (i + r) s.offline := by
            funext x
            rw [onlineFrom_apply, Nat.zero_add, Nat.zero_add]
          simp [honline]
      | true =>
          rw [if_pos rfl]
          have hfirst : ∀ x, i + r ≤ x → ¬ i + 1 + r ≤ x → s.offline x = true := by
            intro x hle hlt
            obtain rfl : x = i + r := by omega
            exact hstatus
          rcases ih (i + 1) with ⟨heq, hall⟩ | ⟨b, hle, hlt, hbefore, hb, heq⟩
          · refine Or.inl ⟨heq, fun b hle hlt => ?_⟩
            by_cases hge : i + 1 + r ≤ b
            · exact hall b hge (by omega)
            · exact hfirst b hle hge
          · refine Or.inr ⟨b, by omega, by omega, fun x hle' hlt' => ?_, hb, heq⟩
            by_cases hge : i + 1 + r ≤ x
            · exact hbefore x hge hlt'
            · exact hfirst x hle' hge

/-- What a turn does. -/
inductive TurnEnds (bitmapEntries numBlocks : Nat) (granted : Nat → Bool) (s : Tool) :
    Turn → Prop where
  | notFound : (scan bitmapEntries numBlocks s.toSearch).2 < numBlocks →
      TurnEnds bitmapEntries numBlocks granted s
      (.notFound (scan bitmapEntries numBlocks s.toSearch).2)
  | ready {r : Nat} : numBlocks ≤ (scan bitmapEntries numBlocks s.toSearch).2 →
      r = (scan bitmapEntries numBlocks s.toSearch).1 →
      (∀ b, r ≤ b → b < r + numBlocks → offlined granted r numBlocks s.offline b = true) →
      TurnEnds bitmapEntries numBlocks granted s
        (.ready ⟨⟨s.bitmap, r⟩, offlined granted r numBlocks s.offline⟩)
  | retry {r b : Nat} : numBlocks ≤ (scan bitmapEntries numBlocks s.toSearch).2 →
      r = (scan bitmapEntries numBlocks s.toSearch).1 → r ≤ b → b < r + numBlocks →
      (∀ x, r ≤ x → x < b → offlined granted r numBlocks s.offline x = true) →
      offlined granted r numBlocks s.offline b = false →
      TurnEnds bitmapEntries numBlocks granted s
        (.retry b ⟨⟨clearBit s.bitmap b, r⟩,
          rolledBack r b (offlined granted r numBlocks s.offline)⟩)

theorem turn_ends (bitmapEntries numBlocks : Nat) (granted : Nat → Bool) (s : Tool) :
    TurnEnds bitmapEntries numBlocks granted s (turn bitmapEntries numBlocks granted s) := by
  simp only [turn]
  split
  next hfail => exact .notFound hfail
  next hfound =>
    rw [Nat.not_lt] at hfound
    have hoffline : offlineFrom granted (scan bitmapEntries numBlocks s.toSearch).1 numBlocks 0
        s.offline =
        offlined granted (scan bitmapEntries numBlocks s.toSearch).1 numBlocks s.offline := by
      funext b
      rw [offlineFrom_apply, Nat.zero_add]
    rw [hoffline]
    rcases verifyFrom_cases (scan bitmapEntries numBlocks s.toSearch).1
        ⟨⟨s.bitmap, (scan bitmapEntries numBlocks s.toSearch).1⟩,
          offlined granted (scan bitmapEntries numBlocks s.toSearch).1 numBlocks s.offline⟩
            numBlocks 0 with
      ⟨heq, hall⟩ | ⟨b, hle, hlt, hbefore, hb, heq⟩
    · rw [heq]
      rw [Nat.zero_add] at hall
      exact .ready hfound rfl hall
    · rw [heq]
      rw [Nat.zero_add] at hle hlt hbefore
      exact .retry hfound rfl hle hlt hbefore hb

/-! ## The loop ends -/

/-- A turn that is to be repeated is a step of the search. -/
theorem turn_retry_step {bitmapEntries numBlocks b : Nat} {granted : Nat → Bool} {s t : Tool}
    (h : turn bitmapEntries numBlocks granted s = .retry b t) :
    (blockSearch bitmapEntries numBlocks).step s.toSearch b t.toSearch := by
  have hends := turn_ends bitmapEntries numBlocks granted s
  rw [h] at hends
  cases hends with
  | retry hfound hr hle hlt _ _ =>
      subst hr
      exact ⟨hfound, hle, hlt, rfl⟩

/-- One turn more than there are candidates is enough. -/
theorem search_ends {bitmapEntries numBlocks : Nat} (hnum : 1 ≤ numBlocks) (blockSizeBytes : Nat)
    (granted : Nat → Nat → Bool) : ∀ {n k : Nat} {s : Tool}, s.Sound bitmapEntries numBlocks →
    (setBits bitmapEntries s.bitmap).card < n →
    ∃ res, ∀ m, search bitmapEntries numBlocks blockSizeBytes granted (n + m) k s = some res := by
  intro n
  induction n with
  | zero =>
      intro k s _ hcard
      exact absurd hcard (Nat.not_lt_zero _)
  | succ n ih =>
      intro k s hs hcard
      simp only [Nat.add_right_comm n 1, search]
      cases hturn : turn bitmapEntries numBlocks (granted k) s with
      | notFound runLen => exact ⟨_, fun _ => rfl⟩
      | ready t => exact ⟨_, fun _ => rfl⟩
      | retry b t =>
          have hstep := turn_retry_step hturn
          have hless := hs.card_step hnum hstep
          exact ih (hs.step hnum hstep) (by omega)

/-- For every bitmap, every number of blocks and every sequence of failures, a scan that succeeds
finds the lowest window of `num_blocks` set bits, a scan fails only if there is none, and there are
at most as many failures as bits. Every turn of the loop of `main` that is repeated is such a
failure, and the loop ends, whatever requests are granted. -/
theorem block_search_sound_and_ends {bitmapEntries numBlocks : Nat} (hnum : 1 ≤ numBlocks) :
    (∀ failed s, (blockSearch bitmapEntries numBlocks).Reach failed s →
      (numBlocks ≤ (scan bitmapEntries numBlocks s).2 →
        IsLeast { r | BlockWindow bitmapEntries numBlocks s.bitmap r }
          (scan bitmapEntries numBlocks s).1) ∧
      ((scan bitmapEntries numBlocks s).2 < numBlocks →
        ∀ r, ¬ BlockWindow bitmapEntries numBlocks s.bitmap r) ∧
      failed.length ≤ bitmapEntries) ∧
    (∀ granted s b t, turn bitmapEntries numBlocks granted s = .retry b t →
      (blockSearch bitmapEntries numBlocks).step s.toSearch b t.toSearch) ∧
    ∀ blockSizeBytes granted bitmap offline, ∃ res,
      petmemMain bitmapEntries numBlocks blockSizeBytes granted bitmap offline = some res ∧
      ∀ n, bitmapEntries < n →
        search bitmapEntries numBlocks blockSizeBytes granted n 0 ⟨⟨bitmap, 0⟩, offline⟩ =
          some res := by
  refine ⟨?_, fun granted s b t => turn_retry_step, ?_⟩
  · intro failed s hreach
    obtain ⟨hs, hcard⟩ := blockSearch_sound hnum hreach
    exact ⟨scan_found hnum hs, scan_notFound hnum hs, by omega⟩
  · intro blockSizeBytes granted bitmap offline
    have hcard := card_setBits_le bitmapEntries bitmap
    obtain ⟨res, hres⟩ := search_ends hnum blockSizeBytes granted (n := bitmapEntries + 1) (k := 0)
      (s := ⟨⟨bitmap, 0⟩, offline⟩) (fun r _ => Nat.zero_le r) (Nat.lt_succ_of_le hcard)
    refine ⟨res, hres 0, fun n hn => ?_⟩
    obtain ⟨m, rfl⟩ := Nat.exists_eq_add_of_le hn
    exact hres m

/-- Three removable blocks, two of which are wanted. When block 0 fails, the next window is at block
1. -/
theorem block_search_sound_and_ends_block_zero_fails :
    IsLeast { r | BlockWindow 3 2 (clearBit (fun _ => 7#8) 0) r } 1 := by
  have hinit : (blockSearch 3 2).Reach [] ⟨fun _ => 7#8, 0⟩ := .init rfl
  have hstep : (blockSearch 3 2).Reach [0] ⟨clearBit (fun _ => 7#8) 0, 0⟩ :=
    .step hinit ⟨by decide, by decide, by decide, rfl⟩
  exact ((block_search_sound_and_ends (by decide)).1 _ _ hstep).1 (by decide)

end PetKernel.VirtualMemory.Petmem
