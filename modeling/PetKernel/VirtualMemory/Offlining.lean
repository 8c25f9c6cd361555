import PetKernel.VirtualMemory.BlockSearch

/-!
# The memory blocks that `petmem` leaves offline

When the verification of a window fails, `petmem` puts only the blocks before the failed one online
again. The requests for the blocks after it have been made as well, and those that were granted stay
offline. They are not lost if the next window begins right behind the failed block: it has all of
them, so that a later attempt puts them online again or uses them. Otherwise the next window, if
there is one, lies behind them, and no attempt names them again.

`Failed` says which attempts the bitmap and the answers to the requests lead to, in terms of windows
and answers only, and `NoneLost` that none of them leaves a block behind. `Tool.Follows` connects
the attempts with the loop of `petmem`, and `no_stray_blocks_iff` says that `main` ends with the
intended blocks offline exactly under this condition. The memory that `ADD_MEMORY` is called with is
offline in any case (`addMemory_bytes_offline`).
-/

set_option autoImplicit false

namespace PetKernel.VirtualMemory.Petmem

open PetKernel.Library

/-! ## The attempts that fail -/

/-- The window of an attempt and the requests that were granted. -/
structure Attempt where
  regStart : Nat
  granted : Nat → Bool

/-- One of the attempts has asked for the block, and the request was granted. -/
def Granted (numBlocks : Nat) (attempts : List Attempt) (b : Nat) : Prop :=
  ∃ e ∈ attempts, (e.regStart ≤ b ∧ b < e.regStart + numBlocks) ∧ e.granted b = true

/-- The lowest window from `lo` on. -/
def NextWindow (bitmapEntries numBlocks : Nat) (bitmap : Nat → BitVec 8) (lo r : Nat) : Prop :=
  IsLeast { r | BlockWindow bitmapEntries numBlocks bitmap r ∧ lo ≤ r } r

/-- The attempts, the last one first, all fail, and `lo` is the block right behind the one at which
the last attempt fails. An attempt is made at the lowest window from there on. It fails at the first
block of the window that neither it nor one of the attempts before it was granted. -/
inductive Failed (bitmapEntries numBlocks : Nat) (bitmap : Nat → BitVec 8)
    (granted : Nat → Nat → Bool) : List Attempt → Nat → Prop where
  | nil : Failed bitmapEntries numBlocks bitmap granted [] 0
  | cons {attempts : List Attempt} {lo r f : Nat} :
      Failed bitmapEntries numBlocks bitmap granted attempts lo →
      NextWindow bitmapEntries numBlocks bitmap lo r →
      IsLeast { b | (r ≤ b ∧ b < r + numBlocks) ∧
        ¬ Granted numBlocks (⟨r, granted attempts.length⟩ :: attempts) b } f →
      Failed bitmapEntries numBlocks bitmap granted (⟨r, granted attempts.length⟩ :: attempts)
        (f + 1)

/-- The next window begins at `lo`, or no block from there on was granted. -/
def Kept (bitmapEntries numBlocks : Nat) (bitmap : Nat → BitVec 8) (attempts : List Attempt)
    (lo : Nat) : Prop :=
  BlockWindow bitmapEntries numBlocks bitmap lo ∨ ∀ b, lo ≤ b → ¬ Granted numBlocks attempts b

/-- Whenever an attempt fails, the blocks behind the failed one have all their bits set, as many as
are wanted, or none of them was granted. -/
def NoneLost (bitmapEntries numBlocks : Nat) (bitmap : Nat → BitVec 8)
    (granted : Nat → Nat → Bool) : Prop :=
  ∀ attempts lo, Failed bitmapEntries numBlocks bitmap granted attempts lo →
    Kept bitmapEntries numBlocks bitmap attempts lo

section Attempts

variable {bitmapEntries numBlocks : Nat} {bitmap : Nat → BitVec 8} {granted : Nat → Nat → Bool}
  {attempts more : List Attempt} {e e' : Attempt} {b lo lo' r : Nat}

theorem granted_cons : Granted numBlocks (e :: attempts) b ↔
    ((e.regStart ≤ b ∧ b < e.regStart + numBlocks) ∧ e.granted b = true) ∨
      Granted numBlocks attempts b := by
  simp [Granted]

theorem not_granted_nil : ¬ Granted numBlocks [] b := by
  simp [Granted]

namespace Failed

/-- The last of the failed attempts. -/
theorem last (h : Failed bitmapEntries numBlocks bitmap granted (e :: attempts) lo) :
    ∃ lo₀ f, Failed bitmapEntries numBlocks bitmap granted attempts lo₀ ∧
      NextWindow bitmapEntries numBlocks bitmap lo₀ e.regStart ∧
      e.granted = granted attempts.length ∧ lo = f + 1 ∧
      IsLeast { b | (e.regStart ≤ b ∧ b < e.regStart + numBlocks) ∧
        ¬ Granted numBlocks (e :: attempts) b } f := by
  cases h with
  | cons hfailed hnext hfirst => exact ⟨_, _, hfailed, hnext, rfl, rfl, hfirst⟩

theorem unique (h : Failed bitmapEntries numBlocks bitmap granted attempts lo)
    (h' : Failed bitmapEntries numBlocks bitmap granted attempts lo') : lo = lo' := by
  cases attempts with
  | nil =>
      cases h
      cases h'
      rfl
  | cons e attempts =>
      obtain ⟨_, f, -, -, -, rfl, hfirst⟩ := h.last
      obtain ⟨_, f', -, -, -, rfl, hfirst'⟩ := h'.last
      rw [hfirst.unique hfirst']

/-- There is at most one next attempt. -/
theorem next_unique (h : Failed bitmapEntries numBlocks bitmap granted (e :: attempts) lo)
    (h' : Failed bitmapEntries numBlocks bitmap granted (e' :: attempts) lo') : e = e' := by
  cases h with
  | cons hfailed hnext _ =>
      cases h' with
      | cons hfailed' hnext' _ =>
          obtain rfl := hfailed.unique hfailed'
          rw [hnext.unique hnext']

/-- Attempts that go on after the given ones begin with a next one. -/
theorem continues (h : Failed bitmapEntries numBlocks bitmap granted attempts lo) :
    Failed bitmapEntries numBlocks bitmap granted (more ++ attempts) lo' →
      more = [] ∧ lo' = lo ∨ ∃ more' e lo₁, more = more' ++ [e] ∧
        Failed bitmapEntries numBlocks bitmap granted (e :: attempts) lo₁ := by
  induction more generalizing lo' with
  | nil => exact fun h' => Or.inl ⟨rfl, unique h' h⟩
  | cons e more ih =>
      intro h'
      cases h' with
      | cons hfailed hnext hfirst =>
          rcases ih hfailed with ⟨rfl, rfl⟩ | ⟨more', e', lo₁, rfl, hnext'⟩
          · exact Or.inr ⟨[], _, _, rfl, .cons hfailed hnext hfirst⟩
          · exact Or.inr ⟨_ :: more', e', lo₁, rfl, hnext'⟩

/-- What was granted lies before the end of the last window, which begins before `lo`. The bits
between `lo` and this end are set. -/
theorem window (h : Failed bitmapEntries numBlocks bitmap granted attempts lo) :
    ∃ hi, hi ≤ lo + numBlocks ∧ (∀ j, lo ≤ j → j < hi → bitSet bitmap j = true) ∧
      ∀ b, Granted numBlocks attempts b → b < hi := by
  -- each attempt is at a window that ends behind those of the attempts before
  induction h with
  | nil => exact ⟨0, Nat.zero_le _, fun j _ hj => absurd hj (Nat.not_lt_zero j),
      fun b hb => absurd hb not_granted_nil⟩
  | @cons attempts lo r f _ hnext hfirst ih =>
      obtain ⟨hi, hle, -, hbound⟩ := ih
      obtain ⟨⟨hge, hlt⟩, -⟩ := hfirst.1
      refine ⟨r + numBlocks, by omega, fun j hj hj' => hnext.1.1.2 j (by omega) hj', fun b hb => ?_⟩
      rcases granted_cons.1 hb with ⟨⟨-, hb⟩, -⟩ | hb
      · exact hb
      · have hlo := hnext.1.2
        have hb' := hbound b hb
        omega

theorem granted_lt (h : Failed bitmapEntries numBlocks bitmap granted attempts lo)
    (hb : Granted numBlocks attempts b) : b < lo + numBlocks := by
  obtain ⟨hi, hle, -, hbound⟩ := h.window
  exact Nat.lt_of_lt_of_le (hbound b hb) hle

/-- The attempts keep their blocks exactly if none of them lies before the next window. -/
theorem kept_iff (h : Failed bitmapEntries numBlocks bitmap granted attempts lo)
    (hnext : NextWindow bitmapEntries numBlocks bitmap lo r) :
    Kept bitmapEntries numBlocks bitmap attempts lo ↔
      ∀ b, lo ≤ b → b < r → ¬ Granted numBlocks attempts b := by
  constructor
  · rintro (hwindow | hnone) b hb hlt
    · -- the next window is right here
      have hle := hnext.2 ⟨hwindow, Nat.le_refl lo⟩
      omega
    · exact hnone b hb
  · intro hbefore
    obtain ⟨hi, hle, hset, hbound⟩ := h.window
    obtain ⟨⟨hend, hbits⟩, hlo⟩ := hnext.1
    by_cases hr : r < hi
    · -- the bits go on from the last window to the next one
      refine Or.inl ⟨by omega, fun j hj hj' => ?_⟩
      by_cases hjr : r ≤ j
      · exact hbits j hjr (by omega)
      · exact hset j hj (by omega)
    · refine Or.inr fun b hb hgranted => ?_
      have hlt := hbound b hgranted
      exact hbefore b hb (by omega) hgranted

end Failed

/-- `NoneLost` for the attempts that go on after the given ones. -/
def NoneLostFrom (bitmapEntries numBlocks : Nat) (bitmap : Nat → BitVec 8)
    (granted : Nat → Nat → Bool) (attempts : List Attempt) : Prop :=
  ∀ more lo, Failed bitmapEntries numBlocks bitmap granted (more ++ attempts) lo →
    Kept bitmapEntries numBlocks bitmap (more ++ attempts) lo

theorem noneLostFrom_nil : NoneLostFrom bitmapEntries numBlocks bitmap granted [] ↔
    NoneLost bitmapEntries numBlocks bitmap granted := by
  simp [NoneLostFrom, NoneLost]

theorem noneLostFrom_of_last (h : Failed bitmapEntries numBlocks bitmap granted attempts lo)
    (hlast : ∀ e lo', ¬ Failed bitmapEntries numBlocks bitmap granted (e :: attempts) lo') :
    NoneLostFrom bitmapEntries numBlocks bitmap granted attempts ↔
      Kept bitmapEntries numBlocks bitmap attempts lo := by
  constructor
  · exact fun hnone => hnone [] lo h
  · intro hkept more lo' hmore
    rcases h.continues hmore with ⟨rfl, rfl⟩ | ⟨more', e, lo₁, -, hnext⟩
    · exact hkept
    · exact absurd hnext (hlast e lo₁)

theorem noneLostFrom_of_next (h : Failed bitmapEntries numBlocks bitmap granted attempts lo)
    (hnext : Failed bitmapEntries numBlocks bitmap granted (e :: attempts) lo') :
    NoneLostFrom bitmapEntries numBlocks bitmap granted attempts ↔
      Kept bitmapEntries numBlocks bitmap attempts lo ∧
        NoneLostFrom bitmapEntries numBlocks bitmap granted (e :: attempts) := by
  constructor
  · refine fun hnone => ⟨hnone [] lo h, fun more lo₁ hmore => ?_⟩
    rw [← List.singleton_append, ← List.append_assoc] at hmore ⊢
    exact hnone (more ++ [e]) lo₁ hmore
  · rintro ⟨hkept, hnone⟩ more lo₁ hmore
    rcases h.continues hmore with ⟨rfl, rfl⟩ | ⟨more', e', lo₂, rfl, hnext'⟩
    · exact hkept
    · obtain rfl := hnext.next_unique hnext'
      rw [List.append_assoc, List.singleton_append] at hmore ⊢
      exact hnone more' lo₁ hmore

end Attempts

/-! ## The loop of `petmem` -/

section Blocks

variable {bitmapEntries numBlocks : Nat}

theorem offlined_iff {granted : Nat → Bool} {r : Nat} {offline : Nat → Bool} {b : Nat} :
    offlined granted r numBlocks offline b = true ↔
      offline b = true ∨ (r ≤ b ∧ b < r + numBlocks) ∧ granted b = true := by
  simp [offlined]

theorem rolledBack_iff {r b x : Nat} {offline : Nat → Bool} :
    rolledBack r b offline x = true ↔ ¬ (r ≤ x ∧ x < b) ∧ offline x = true := by
  rw [rolledBack, Bool.and_eq_true, Bool.not_eq_true', decide_eq_false_iff_not]

/-- What the last attempt does to the blocks. -/
theorem turn_ready_offline {granted : Nat → Bool} {s t : Tool}
    (h : turn bitmapEntries numBlocks granted s = .ready t) (b : Nat) :
    t.offline b = true ↔ s.offline b = true ∨ t.regStart ≤ b ∧ b < t.regStart + numBlocks := by
  have hends := turn_ends bitmapEntries numBlocks granted s
  rw [h] at hends
  cases hends with
  | @ready r _ _ hall =>
      show offlined granted r numBlocks s.offline b = true ↔ s.offline b = true ∨ r ≤ b ∧
        b < r + numBlocks
      constructor
      · intro hoff
        rcases offlined_iff.1 hoff with hold | ⟨hwindow, -⟩
        · exact Or.inl hold
        · exact Or.inr hwindow
      · rintro (hold | ⟨hle, hlt⟩)
        · exact offlined_iff.2 (Or.inl hold)
        · exact hall b hle hlt

/-- The blocks of the window that is used. -/
def Used (numBlocks : Nat) : Outcome → Tool → Nat → Prop
  | .notFound _, _, _ => False
  | .addMemory _ _, t, b => t.regStart ≤ b ∧ b < t.regStart + numBlocks

/-- The state of `petmem` after the failed attempts. Of the blocks before `lo` nothing is said. -/
structure Tool.Follows (bitmapEntries numBlocks : Nat) (bitmap : Nat → BitVec 8)
    (granted : Nat → Nat → Bool) (attempts : List Attempt) (lo : Nat) (s : Tool) : Prop where
  failed : Failed bitmapEntries numBlocks bitmap granted attempts lo
  sound : s.Sound bitmapEntries numBlocks
  windows : ∀ r, BlockWindow bitmapEntries numBlocks s.bitmap r ↔
    BlockWindow bitmapEntries numBlocks bitmap r ∧ lo ≤ r
  ahead : ∀ b, lo ≤ b → (s.offline b = true ↔ Granted numBlocks attempts b)

namespace Tool.Follows

variable {bitmap : Nat → BitVec 8} {granted : Nat → Nat → Bool} {attempts : List Attempt}
  {lo r f runLen : Nat} {s t : Tool}

theorem start (bitmapEntries numBlocks : Nat) (bitmap : Nat → BitVec 8)
    (granted : Nat → Nat → Bool) :
    Follows bitmapEntries numBlocks bitmap granted [] 0 ⟨⟨bitmap, 0⟩, fun _ => false⟩ where
  failed := .nil
  sound := fun r _ => Nat.zero_le r
  windows := fun r => (and_iff_left (Nat.zero_le r)).symm
  ahead := fun _ _ => iff_of_false Bool.false_ne_true not_granted_nil

/-- The scan finds the next window. -/
theorem nextWindow (h : s.Follows bitmapEntries numBlocks bitmap granted attempts lo)
    (hnum : 1 ≤ numBlocks) (hfound : numBlocks ≤ (scan bitmapEntries numBlocks s.toSearch).2) :
    NextWindow bitmapEntries numBlocks bitmap lo (scan bitmapEntries numBlocks s.toSearch).1 := by
  have hleast := scan_found hnum h.sound hfound
  exact ⟨(h.windows _).1 hleast.1, fun r hr => hleast.2 ((h.windows r).2 hr)⟩

/-- The requests of an attempt at the next window. -/
theorem offlined_ahead (h : s.Follows bitmapEntries numBlocks bitmap granted attempts lo)
    {answers : Nat → Bool} {b : Nat} (hb : lo ≤ b) :
    offlined answers r numBlocks s.offline b = true ↔
      Granted numBlocks (⟨r, answers⟩ :: attempts) b := by
  rw [offlined_iff, granted_cons, h.ahead b hb, or_comm]

/-- The blocks before the next window are online exactly if nothing was lost so far. -/
theorem online_below (h : s.Follows bitmapEntries numBlocks bitmap granted attempts lo)
    (hnext : NextWindow bitmapEntries numBlocks bitmap lo r) :
    (∀ b, b < r → s.offline b = false) ↔
      (∀ b, b < lo → s.offline b = false) ∧ Kept bitmapEntries numBlocks bitmap attempts lo := by
  have hlo := hnext.1.2
  rw [h.failed.kept_iff hnext]
  constructor
  · intro honline
    refine ⟨fun b hb => honline b (by omega), fun b hb hlt hgranted => ?_⟩
    exact Bool.false_ne_true ((honline b hlt).symm.trans ((h.ahead b hb).2 hgranted))
  · rintro ⟨hbelow, hbetween⟩ b hb
    by_cases hblo : b < lo
    · exact hbelow b hblo
    · have hge := Nat.not_lt.1 hblo
      exact Bool.eq_false_iff.2 fun hoff => hbetween b hge hb ((h.ahead b hge).1 hoff)

/-- The verification stops at the first block of the window that no attempt was granted. -/
theorem isLeast_refused (h : s.Follows bitmapEntries numBlocks bitmap granted attempts lo)
    {answers : Nat → Bool} (hlo : lo ≤ r) (hle : r ≤ f) (hlt : f < r + numBlocks)
    (hbefore : ∀ b, r ≤ b → b < f → offlined answers r numBlocks s.offline b = true)
    (honline : offlined answers r numBlocks s.offline f = false) :
    IsLeast { b | (r ≤ b ∧ b < r + numBlocks) ∧ ¬ Granted numBlocks (⟨r, answers⟩ :: attempts) b }
      f := by
  refine ⟨⟨⟨hle, hlt⟩, fun hgranted => ?_⟩, ?_⟩
  · rw [(h.offlined_ahead (by omega)).2 hgranted] at honline
    cases honline
  · rintro x ⟨⟨hge, -⟩, hrefused⟩
    by_contra hx
    exact hrefused ((h.offlined_ahead (by omega)).1 (hbefore x hge (by omega)))

/-- The windows that are left are those behind the block that was given up. -/
theorem windows_clearBit (h : s.Follows bitmapEntries numBlocks bitmap granted attempts lo)
    (hnext : NextWindow bitmapEntries numBlocks bitmap lo r) (hle : r ≤ f)
    (hlt : f < r + numBlocks) (r' : Nat) :
    BlockWindow bitmapEntries numBlocks (clearBit s.bitmap f) r' ↔
      BlockWindow bitmapEntries numBlocks bitmap r' ∧ f + 1 ≤ r' := by
  have hlo := hnext.1.2
  constructor
  · intro hwindow
    obtain ⟨hwindow', hlo'⟩ := (h.windows r').1 hwindow.of_clearBit
    refine ⟨hwindow', ?_⟩
    -- a window that begins at or before the failed block has this block
    by_contra hf
    have hr' := hnext.2 ⟨hwindow', hlo'⟩
    exact ((bitSet_clearBit _ _ _).1 (hwindow.2 f (by omega) (by omega))).2 rfl
  · rintro ⟨hwindow, hf⟩
    obtain ⟨hend, hbits⟩ := (h.windows r').2 ⟨hwindow, by omega⟩
    exact ⟨hend, fun j hj hj' => (bitSet_clearBit _ _ _).2 ⟨hbits j hj hj', by omega⟩⟩

/-- After a failed attempt, what is offline up to the failed block was offline before the window. -/
theorem online_rolledBack_iff {answers offline : Nat → Bool} (hle : r ≤ f)
    (honline : offlined answers r numBlocks offline f = false) :
    (∀ b, b < f + 1 → rolledBack r f (offlined answers r numBlocks offline) b = false) ↔
      ∀ b, b < r → offline b = false := by
  have hoffline : ∀ b, b < f + 1 →
      (rolledBack r f (offlined answers r numBlocks offline) b = true ↔
        b < r ∧ offline b = true) := by
    intro b hb
    rw [rolledBack_iff]
    by_cases hbr : b < r
    · have houtside : ¬ ((r ≤ b ∧ b < r + numBlocks) ∧ answers b = true) := by omega
      rw [offlined_iff, or_iff_left houtside, and_iff_right (by omega), and_iff_right hbr]
    · refine iff_of_false (fun hoff => ?_) fun hoff => hbr hoff.1
      obtain rfl : b = f := by omega
      rw [honline] at hoff
      exact Bool.false_ne_true hoff.2
  simp only [Bool.eq_false_iff, ne_eq]
  constructor
  · exact fun hnone b hb hoff => hnone b (by omega) ((hoffline b (by omega)).2 ⟨hb, hoff⟩)
  · intro hnone b hb hoff
    obtain ⟨hbr, hs⟩ := (hoffline b hb).1 hoff
    exact hnone b hbr hs

/-- A failed turn is the next attempt. -/
theorem retry (h : s.Follows bitmapEntries numBlocks bitmap granted attempts lo)
    (hnum : 1 ≤ numBlocks)
    (hturn : turn bitmapEntries numBlocks (granted attempts.length) s = .retry f t) :
    ∃ r, NextWindow bitmapEntries numBlocks bitmap lo r ∧
      t.Follows bitmapEntries numBlocks bitmap granted (⟨r, granted attempts.length⟩ :: attempts)
        (f + 1) ∧
      ((∀ b, b < f + 1 → t.offline b = false) ↔ ∀ b, b < r → s.offline b = false) := by
  have hstep := turn_retry_step hturn
  have hends := turn_ends bitmapEntries numBlocks (granted attempts.length) s
  rw [hturn] at hends
  cases hends with
  | @retry r _ hfound hr hle hlt hbefore honline =>
      have hnext : NextWindow bitmapEntries numBlocks bitmap lo r := hr ▸ h.nextWindow hnum hfound
      have hlo := hnext.1.2
      have hfirst := h.isLeast_refused hlo hle hlt hbefore honline
      refine ⟨r, hnext, ⟨.cons h.failed hnext hfirst, h.sound.step hnum hstep,
        h.windows_clearBit hnext hle hlt, fun b hb => ?_⟩, online_rolledBack_iff hle honline⟩
      have hrolled : ¬ (r ≤ b ∧ b < f) := by omega
      rw [← h.offlined_ahead (by omega), rolledBack_iff, and_iff_right hrolled]

/-- If the scan fails, then the attempts are over. -/
theorem notFound (h : s.Follows bitmapEntries numBlocks bitmap granted attempts lo)
    (hnum : 1 ≤ numBlocks)
    (hturn : turn bitmapEntries numBlocks (granted attempts.length) s = .notFound runLen) :
    (∀ b, s.offline b = true ↔ False) ↔ (∀ b, b < lo → s.offline b = false) ∧
      NoneLostFrom bitmapEntries numBlocks bitmap granted attempts := by
  have hends := turn_ends bitmapEntries numBlocks (granted attempts.length) s
  rw [hturn] at hends
  have hwindow : ∀ r, lo ≤ r → ¬ BlockWindow bitmapEntries numBlocks bitmap r := by
    cases hends with
    | notFound hfail =>
        exact fun r hr hwindow => scan_notFound hnum h.sound hfail r ((h.windows r).2 ⟨hwindow, hr⟩)
  have hlast : ∀ e lo', ¬ Failed bitmapEntries numBlocks bitmap granted (e :: attempts) lo' := by
    intro e lo' hnext
    cases hnext with
    | cons hfailed hnext _ =>
        obtain rfl := hfailed.unique h.failed
        exact hwindow _ hnext.1.2 hnext.1.1
  -- there is no window left that what was granted could belong to
  rw [noneLostFrom_of_last h.failed hlast, Kept, or_iff_right (hwindow lo (Nat.le_refl lo))]
  constructor
  · intro hnone
    refine ⟨fun b _ => Bool.eq_false_iff.2 (hnone b).1, fun b hb hgranted => ?_⟩
    exact (hnone b).1 ((h.ahead b hb).2 hgranted)
  · rintro ⟨hbelow, hahead⟩ b
    refine iff_of_false (fun hoff => ?_) id
    rcases Nat.lt_or_ge b lo with hb | hb
    · exact Bool.false_ne_true ((hbelow b hb).symm.trans hoff)
    · exact hahead b hb ((h.ahead b hb).1 hoff)

/-- If the whole window is offline, then the attempts are over. -/
theorem ready (h : s.Follows bitmapEntries numBlocks bitmap granted attempts lo)
    (hnum : 1 ≤ numBlocks)
    (hturn : turn bitmapEntries numBlocks (granted attempts.length) s = .ready t) :
    (∀ b, t.offline b = true ↔ t.regStart ≤ b ∧ b < t.regStart + numBlocks) ↔
      (∀ b, b < lo → s.offline b = false) ∧
        NoneLostFrom bitmapEntries numBlocks bitmap granted attempts := by
  have hoffline := turn_ready_offline hturn
  have hends := turn_ends bitmapEntries numBlocks (granted attempts.length) s
  rw [hturn] at hends
  cases hends with
  | @ready r hfound hr hall =>
      have hnext : NextWindow bitmapEntries numBlocks bitmap lo r := hr ▸ h.nextWindow hnum hfound
      have hlo := hnext.1.2
      have hlast : ∀ e lo', ¬ Failed bitmapEntries numBlocks bitmap granted
          (e :: attempts) lo' := by
        intro e lo' hfails
        cases hfails with
        | cons hfailed hnext' hfirst =>
            obtain rfl := hfailed.unique h.failed
            obtain rfl := hnext'.unique hnext
            obtain ⟨⟨hge, hlt⟩, hrefused⟩ := hfirst.1
            exact hrefused ((h.offlined_ahead (by omega)).1 (hall _ hge hlt))
      rw [noneLostFrom_of_last h.failed hlast, ← h.online_below hnext]
      constructor
      · intro hexact b hb
        refine Bool.eq_false_iff.2 fun hoff => ?_
        have hge : r ≤ b := ((hexact b).1 ((hoffline b).2 (Or.inl hoff))).1
        omega
      · intro honline b
        rw [hoffline b]
        -- a block that was offline before the last attempt lies in its window
        refine or_iff_right_of_imp fun hoff => ?_
        have hge : r ≤ b := by
          by_contra hlt
          exact Bool.false_ne_true ((honline b (by omega)).symm.trans hoff)
        have hlt : b < r + numBlocks := by
          have hgranted := h.failed.granted_lt ((h.ahead b (by omega)).1 hoff)
          omega
        exact ⟨hge, hlt⟩

/-- From any state of the loop on: the blocks in use are the only ones offline at the end exactly if
nothing was lost so far and nothing will be. -/
theorem search_iff {blockSizeBytes : Nat} {res : Outcome} (hnum : 1 ≤ numBlocks) :
    ∀ {n : Nat} {attempts : List Attempt} {lo : Nat} {s : Tool},
      s.Follows bitmapEntries numBlocks bitmap granted attempts lo →
      search bitmapEntries numBlocks blockSizeBytes granted n attempts.length s = some (res, t) →
      ((∀ b, t.offline b = true ↔ Used numBlocks res t b) ↔
        (∀ b, b < lo → s.offline b = false) ∧
          NoneLostFrom bitmapEntries numBlocks bitmap granted attempts) := by
  intro n
  induction n with
  | zero =>
      intro attempts lo s _ hend
      cases hend
  | succ n ih =>
      intro attempts lo s h hend
      rw [search] at hend
      cases hturn : turn bitmapEntries numBlocks (granted attempts.length) s with
      | notFound runLen =>
          rw [hturn] at hend
          cases hend
          exact h.notFound hnum hturn
      | ready u =>
          rw [hturn] at hend
          cases hend
          exact h.ready hnum hturn
      | retry f u =>
          rw [hturn] at hend
          -- what is lost by this attempt is lost between its window and the next one
          obtain ⟨r, hnext, hu, hbelow⟩ := h.retry hnum hturn
          rw [ih hu hend, hbelow, h.online_below hnext, noneLostFrom_of_next h.failed hu.failed,
            and_assoc]

end Tool.Follows

end Blocks

/-- For every bitmap and all answers to its requests `main` ends. Exactly the blocks in use are
offline then, that is the window of `ADD_MEMORY` or none if not enough blocks were found, if and
only if no attempt that the bitmap and the answers lead to loses a block. -/
theorem no_stray_blocks_iff {bitmapEntries numBlocks : Nat} (hnum : 1 ≤ numBlocks)
    (blockSizeBytes : Nat) (granted : Nat → Nat → Bool) (bitmap : Nat → BitVec 8) :
    ∃ res t, petmemMain bitmapEntries numBlocks blockSizeBytes granted bitmap (fun _ => false) =
        some (res, t) ∧
      ((∀ b, t.offline b = true ↔ Used numBlocks res t b) ↔
        NoneLost bitmapEntries numBlocks bitmap granted) := by
  obtain ⟨⟨res, t⟩, hend⟩ := search_ends hnum blockSizeBytes granted
    (n := bitmapEntries + 1) (k := 0)
    (s := ⟨⟨bitmap, 0⟩, fun _ => false⟩) (fun r _ => Nat.zero_le r)
    (Nat.lt_succ_of_le (card_setBits_le bitmapEntries bitmap))
  have hmain : petmemMain bitmapEntries numBlocks blockSizeBytes granted bitmap (fun _ => false) =
      some (res, t) := hend 0
  refine ⟨res, t, hmain, ?_⟩
  rw [(Tool.Follows.start bitmapEntries numBlocks bitmap granted).search_iff hnum hmain,
    noneLostFrom_nil]
  exact and_iff_right fun b hb => absurd hb (Nat.not_lt_zero b)

/-- Three removable blocks, two of which are wanted. Block 0 is refused and block 1 stays offline,
but it belongs to the next window. -/
theorem no_stray_blocks_iff_repaired :
    ∃ t, petmemMain 3 2 134217728 (fun _ b => b != 0) (fun _ => 7#8) (fun _ => false) =
        some (.addMemory 134217728 65536, t) ∧
      ∀ b, t.offline b = true ↔ 1 ≤ b ∧ b < 3 := by
  obtain ⟨res, t, hmain, hiff⟩ := @no_stray_blocks_iff 3 2 (by decide) 134217728 (fun _ b => b != 0)
    (fun _ => 7#8)
  refine ⟨t, ?_⟩
  cases hmain
  refine ⟨rfl, hiff.2 fun attempts lo hfailed => ?_⟩
  -- every refused block is the block 0
  have hzero : ∀ attempts lo, Failed 3 2 (fun _ => 7#8) (fun _ b => b != 0) attempts lo →
      lo = 0 ∨ lo = 1 := by
    intro attempts lo h
    cases h with
    | nil => exact Or.inl rfl
    | @cons attempts lo r f _ _ hfirst =>
        obtain ⟨hwindow, hrefused⟩ := hfirst.1
        rw [granted_cons] at hrefused
        right
        by_contra hf
        exact hrefused (Or.inl ⟨hwindow, by simpa using hf⟩)
  refine Or.inl ⟨?_, ?_⟩
  · rcases hzero attempts lo hfailed with rfl | rfl <;> decide
  · rcases hzero attempts lo hfailed with rfl | rfl
    · intro j hj hj'
      interval_cases j <;> decide
    · intro j hj hj'
      interval_cases j <;> decide

/-- Block 0 is refused, and block 1, which was taken offline with it, is left offline: first when
`petmem` gives up, then when it goes on to use the blocks 3 and 4. -/
theorem stray_block_left_offline :
    (∃ t, petmemMain 2 2 134217728 (fun _ b => b != 0) (fun _ => 3#8) (fun _ => false) =
        some (.notFound 1, t) ∧ t.offline 1 = true) ∧
    ∃ t, petmemMain 5 2 134217728 (fun _ b => b != 0) (fun _ => 27#8) (fun _ => false) =
        some (.addMemory 402653184 65536, t) ∧ t.regStart = 3 ∧ t.offline 1 = true :=
  ⟨⟨_, rfl, rfl⟩, _, rfl, rfl, rfl⟩

/-! ## The memory of `ADD_MEMORY` -/

/-- What `ADD_MEMORY` is called with. -/
theorem search_addMemory {bitmapEntries numBlocks blockSizeBytes baseAddr pages : Nat}
    {granted : Nat → Nat → Bool} {t : Tool} : ∀ {n k : Nat} {s : Tool},
      search bitmapEntries numBlocks blockSizeBytes granted n k s =
      some (.addMemory baseAddr pages, t) → baseAddr = t.regStart * blockSizeBytes % 2 ^ 64 ∧
        pages = numBlocks * blockSizeBytes % 2 ^ 64 / 4096 ∧
        ∀ b, Used numBlocks (.addMemory baseAddr pages) t b → t.offline b = true := by
  intro n
  induction n with
  | zero =>
      intro k s h
      cases h
  | succ n ih =>
      intro k s h
      rw [search] at h
      cases hturn : turn bitmapEntries numBlocks (granted k) s with
      | notFound runLen =>
          rw [hturn] at h
          cases h
      | ready u =>
          rw [hturn] at h
          cases h
          exact ⟨rfl, rfl, fun b hused => (turn_ready_offline hturn b).2 (Or.inr hused)⟩
      | retry block u =>
          rw [hturn] at h
          exact ih h

/-- Every byte that `petmem` gives to the kernel lies in a block that is offline. -/
theorem addMemory_bytes_offline {bitmapEntries numBlocks blockSizeBytes baseAddr pages : Nat}
    {granted : Nat → Nat → Bool} {bitmap : Nat → BitVec 8} {offline : Nat → Bool} {t : Tool}
    (h : petmemMain bitmapEntries numBlocks blockSizeBytes granted bitmap offline =
      some (.addMemory baseAddr pages, t))
    (hbound : (t.regStart + numBlocks) * blockSizeBytes ≤ 2 ^ 64) {x : Nat} (hlow : baseAddr ≤ x)
    (hhigh : x < baseAddr + 4096 * pages) : t.offline (x / blockSizeBytes) = true := by
  obtain ⟨hbase, hpages, hused⟩ := search_addMemory h
  rw [Nat.add_mul] at hbound
  apply hused
  have hpos : 0 < blockSizeBytes := by
    apply Nat.pos_of_ne_zero
    rintro rfl
    omega
  have hsize : 4096 * pages ≤ numBlocks * blockSizeBytes := by
    rw [hpages]
    exact (Nat.mul_div_le _ _).trans (Nat.mod_le _ _)
  have hstart : baseAddr = t.regStart * blockSizeBytes := by
    rw [hbase]
    apply Nat.mod_eq_of_lt
    omega
  refine ⟨(Nat.le_div_iff_mul_le hpos).2 (hstart ▸ hlow), (Nat.div_lt_iff_lt_mul hpos).2 ?_⟩
  rw [Nat.add_mul]
  omega

end PetKernel.VirtualMemory.Petmem
