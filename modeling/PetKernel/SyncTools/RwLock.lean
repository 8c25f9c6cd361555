import PetKernel.SyncTools.Spinlock

/-!
# The reader-writer lock

A model of `rw_read_lock`, `rw_read_unlock`, `rw_write_lock` and `rw_write_unlock` of
`sync_tools/locking.c`. Every load, store and locked instruction is a step of its own; in particular
`lock->writer || lock->num_readers > 0` is two steps.

The two lock functions spin on the counters while they hold the mutex, and the two unlock functions
change the counters without it. `RwInv` is the joint invariant of the mutex, of the two counters and
of the program points of all threads: the counters only go down while a thread is between its test
and its increment, so that what it has seen stays true. `rwLock_exclusion` is the result.
-/

set_option autoImplicit false

namespace PetKernel.SyncTools

open PetKernel.Library

/-! ## The code -/

/-- `atomic_add`. -/
def atomicAdd (value incVal : BitVec 32) : BitVec 32 := value + incVal

/-- `atomic_sub`. -/
def atomicSub (value decVal : BitVec 32) : BitVec 32 := value - decVal

/-- `struct read_write_lock`. -/
structure ReadWriteLock where
  numReaders : BitVec 32
  writer : BitVec 32
  mutex : Spinlock
deriving DecidableEq, Repr

/-- `rw_lock_init`. -/
def rwLockInit : ReadWriteLock := ⟨0, 0, ⟨1⟩⟩

/-- Where a thread is: outside, at a step of `rw_read_lock`, in its read section (the next step is
that of `rw_read_unlock`), at a step of `rw_write_lock`, or in its write section. -/
inductive RwPc where
  | idle
  | readLock
  | readWait
  | readAdd
  | readUnlockMutex
  | reading
  | writeLock
  | writeWaitWriter
  | writeWaitReaders
  | writeAdd
  | writeUnlockMutex
  | writing
deriving DecidableEq, Repr

/-- One step of a thread; an idle thread chooses whether it writes. -/
def rwNext (lock : ReadWriteLock) (pc : RwPc) (write : Bool) : Option (ReadWriteLock × RwPc) :=
  match pc with
  | .idle => some (lock, if write then .writeLock else .readLock)
  -- rw_read_lock
  | .readLock =>
      let (mutex, ends) := spinlockTurn lock.mutex
      some ({ lock with mutex := mutex }, if ends then .readWait else .readLock)
  | .readWait => some (lock, if lock.writer = 0 then .readAdd else .readWait)
  | .readAdd => some ({ lock with numReaders := atomicAdd lock.numReaders 1 }, .readUnlockMutex)
  | .readUnlockMutex => some ({ lock with mutex := spinlockUnlock lock.mutex }, .reading)
  -- rw_read_unlock
  | .reading => some ({ lock with numReaders := atomicSub lock.numReaders 1 }, .idle)
  -- rw_write_lock
  | .writeLock =>
      let (mutex, ends) := spinlockTurn lock.mutex
      some ({ lock with mutex := mutex }, if ends then .writeWaitWriter else .writeLock)
  | .writeWaitWriter => some (lock, if lock.writer = 0 then .writeWaitReaders else .writeWaitWriter)
  | .writeWaitReaders =>
      some (lock, if (0 : BitVec 32).slt lock.numReaders then .writeWaitWriter else .writeAdd)
  | .writeAdd => some ({ lock with writer := atomicAdd lock.writer 1 }, .writeUnlockMutex)
  | .writeUnlockMutex => some ({ lock with mutex := spinlockUnlock lock.mutex }, .writing)
  -- rw_write_unlock
  | .writing => some ({ lock with writer := atomicSub lock.writer 1 }, .idle)

/-- Threads that use one lock. -/
def rwLocks (ι : Type) [DecidableEq ι] : Machine (Threads ι ReadWriteLock RwPc) (ι × Bool) :=
  interleave (fun s => s = ⟨rwLockInit, fun _ => .idle⟩) rwNext

/-! ## Program points -/

namespace RwPc

/-- The thread is between the increment in `rw_read_lock` and the decrement in `rw_read_unlock`. Its
read section is part of that. -/
def reads : RwPc → Bool
  | readUnlockMutex | reading => true
  | _ => false

/-- The thread is between the increment in `rw_write_lock` and the decrement in `rw_write_unlock`.
Its write section is part of that. -/
def writes : RwPc → Bool
  | writeUnlockMutex | writing => true
  | _ => false

/-- The thread holds the mutex. -/
def holdsMutex : RwPc → Bool
  | readWait | readAdd | readUnlockMutex => true
  | writeWaitWriter | writeWaitReaders | writeAdd | writeUnlockMutex => true
  | _ => false

/-- What a thread has seen when there are `w` writers and `r` readers. -/
def Saw (w r : Nat) : RwPc → Prop
  | readAdd => w = 0
  | writeWaitReaders => w = 0
  | writeAdd => w = 0 ∧ r = 0
  | _ => True

/-- What is seen is seen under the mutex. -/
theorem saw_of_no_mutex (w r : Nat) {pc : RwPc} (h : pc.holdsMutex = false) : pc.Saw w r := by
  cases pc with
  | readAdd => cases h
  | writeWaitReaders => cases h
  | writeAdd => cases h
  | _ => trivial

/-- A counter that goes down does not spoil what has been seen. -/
theorem Saw.mono {w r w' r' : Nat} {pc : RwPc} (h : pc.Saw w r) (hw : w' ≤ w) (hr : r' ≤ r) :
    pc.Saw w' r' := by
  cases pc with
  | readAdd => exact Nat.le_zero.1 (h ▸ hw)
  | writeWaitReaders => exact Nat.le_zero.1 (h ▸ hw)
  | writeAdd => exact ⟨Nat.le_zero.1 (h.1 ▸ hw), Nat.le_zero.1 (h.2 ▸ hr)⟩
  | _ => trivial

end RwPc

/-! ## The invariant -/

section Invariant

variable {ι : Type} [DecidableEq ι] [Fintype ι] {s : Threads ι ReadWriteLock RwPc} {i : ι}
  {x : RwPc}

/-- The mutex has one holder, the counters count, writers are alone, and what a thread has seen
before its increment holds. -/
structure RwInv (s : Threads ι ReadWriteLock RwPc) : Prop where
  excludes : Excludes RwPc.holdsMutex s.shared.mutex s.loc
  readers : s.shared.numReaders = BitVec.ofNat 32 (count RwPc.reads s.loc)
  writer : s.shared.writer = BitVec.ofNat 32 (count RwPc.writes s.loc)
  apart : count RwPc.writes s.loc = 0 ∨
    (count RwPc.writes s.loc = 1 ∧ count RwPc.reads s.loc = 0)
  saw : ∀ i, (s.loc i).Saw (count RwPc.writes s.loc) (count RwPc.reads s.loc)

/-- A step that changes neither counter. -/
theorem RwInv.quiet (h : RwInv s) {mutex : Spinlock}
    (hmutex : Excludes RwPc.holdsMutex mutex (Function.update s.loc i x))
    (hreads : x.reads = (s.loc i).reads) (hwrites : x.writes = (s.loc i).writes)
    (hsaw : x.Saw (count RwPc.writes s.loc) (count RwPc.reads s.loc)) :
    RwInv ⟨{ s.shared with mutex := mutex }, Function.update s.loc i x⟩ := by
  have hr := count_update_of_eq hreads
  have hw := count_update_of_eq hwrites
  refine ⟨hmutex, ?_, ?_, ?_, ?_⟩
  · exact hr.symm ▸ h.readers
  · exact hw.symm ▸ h.writer
  · rw [hr, hw]
    exact h.apart
  · rw [hr, hw]
    exact (Function.forall_update_iff s.loc fun _ pc => pc.Saw _ _).2 ⟨hsaw, fun j _ => h.saw j⟩

/-- A thread increments a counter under the mutex: what the others have seen does not matter, since
they are not under the mutex. -/
theorem RwInv.saw_add (h : RwInv s) (hmutex : (s.loc i).holdsMutex = true) {w r : Nat}
    (hx : x.Saw w r) (j : ι) : (Function.update s.loc i x j).Saw w r := by
  refine (Function.forall_update_iff s.loc fun _ pc => pc.Saw w r).2 ⟨hx, fun j hj => ?_⟩ j
  apply RwPc.saw_of_no_mutex
  cases hold : (s.loc j).holdsMutex with
  | false => rfl
  | true => exact absurd (h.excludes.unique hold hmutex) hj

/-- `atomic_add` of `rw_read_lock`. -/
theorem RwInv.readAdd (h : RwInv s) (hpc : s.loc i = .readAdd) :
    RwInv ⟨{ s.shared with numReaders := atomicAdd s.shared.numReaders 1 },
      Function.update s.loc i .readUnlockMutex⟩ := by
  have hsaw : count RwPc.writes s.loc = 0 := by
    have hi := h.saw i
    rw [hpc] at hi
    exact hi
  have hw : count RwPc.writes (Function.update s.loc i .readUnlockMutex) =
      count RwPc.writes s.loc :=
    count_update_of_eq (by rw [hpc]; rfl)
  have hr : count RwPc.reads (Function.update s.loc i .readUnlockMutex) =
      count RwPc.reads s.loc + 1 :=
    count_update_enter (by rw [hpc]; rfl) rfl
  refine ⟨h.excludes.stay (by rw [hpc]; rfl), ?_, hw.symm ▸ h.writer, Or.inl (hw.trans hsaw), ?_⟩
  · rw [hr, BitVec.ofNat_add, ← h.readers]
    rfl
  · exact h.saw_add (by rw [hpc]; rfl) trivial

/-- `atomic_add` of `rw_write_lock`. -/
theorem RwInv.writeAdd (h : RwInv s) (hpc : s.loc i = .writeAdd) :
    RwInv ⟨{ s.shared with writer := atomicAdd s.shared.writer 1 },
      Function.update s.loc i .writeUnlockMutex⟩ := by
  have hsaw : count RwPc.writes s.loc = 0 ∧ count RwPc.reads s.loc = 0 := by
    have hi := h.saw i
    rw [hpc] at hi
    exact hi
  have hw : count RwPc.writes (Function.update s.loc i .writeUnlockMutex) =
      count RwPc.writes s.loc + 1 := count_update_enter (by rw [hpc]; rfl) rfl
  have hr : count RwPc.reads (Function.update s.loc i .writeUnlockMutex) = count RwPc.reads s.loc :=
    count_update_of_eq (by rw [hpc]; rfl)
  refine ⟨h.excludes.stay (by rw [hpc]; rfl), hr.symm ▸ h.readers, ?_, Or.inr ⟨?_, ?_⟩, ?_⟩
  · rw [hw, BitVec.ofNat_add, ← h.writer]
    rfl
  · rw [hw, hsaw.1]
  · rw [hr, hsaw.2]
  · exact h.saw_add (by rw [hpc]; rfl) trivial

/-- `rw_read_unlock`. -/
theorem RwInv.readUnlock (h : RwInv s) (hpc : s.loc i = .reading) :
    RwInv ⟨{ s.shared with numReaders := atomicSub s.shared.numReaders 1 },
      Function.update s.loc i .idle⟩ := by
  have hw : count RwPc.writes (Function.update s.loc i .idle) = count RwPc.writes s.loc :=
    count_update_of_eq (by rw [hpc]; rfl)
  have hr : count RwPc.reads (Function.update s.loc i .idle) + 1 = count RwPc.reads s.loc :=
    count_update_leave (by rw [hpc]; rfl) rfl
  refine ⟨h.excludes.stay (by rw [hpc]; rfl), ?_, hw.symm ▸ h.writer, ?_, ?_⟩
  · show atomicSub s.shared.numReaders 1 = _
    rw [atomicSub, h.readers, ← hr, BitVec.ofNat_add]
    exact BitVec.add_sub_cancel _ _
  · have hapart := h.apart
    rw [hw]
    omega
  · refine (Function.forall_update_iff s.loc fun _ pc => pc.Saw _ _).2 ⟨trivial, fun j _ => ?_⟩
    exact (h.saw j).mono hw.le (Nat.le.intro hr)

/-- `rw_write_unlock`. -/
theorem RwInv.writeUnlock (h : RwInv s) (hpc : s.loc i = .writing) :
    RwInv ⟨{ s.shared with writer := atomicSub s.shared.writer 1 },
      Function.update s.loc i .idle⟩ := by
  have hw : count RwPc.writes (Function.update s.loc i .idle) + 1 = count RwPc.writes s.loc :=
    count_update_leave (by rw [hpc]; rfl) rfl
  have hr : count RwPc.reads (Function.update s.loc i .idle) = count RwPc.reads s.loc :=
    count_update_of_eq (by rw [hpc]; rfl)
  refine ⟨h.excludes.stay (by rw [hpc]; rfl), hr.symm ▸ h.readers, ?_, ?_, ?_⟩
  · show atomicSub s.shared.writer 1 = _
    rw [atomicSub, h.writer, ← hw, BitVec.ofNat_add]
    exact BitVec.add_sub_cancel _ _
  · have hapart := h.apart
    show count RwPc.writes (Function.update s.loc i .idle) = 0 ∨ _
    omega
  · refine (Function.forall_update_iff s.loc fun _ pc => pc.Saw _ _).2 ⟨trivial, fun j _ => ?_⟩
    exact (h.saw j).mono (Nat.le.intro hw) hr.le

/-- A step from the point `x₀` to the point `x₁` that changes nothing shared. -/
theorem RwInv.move (h : RwInv s) {x₀ x₁ : RwPc} (hpc : s.loc i = x₀)
    (hmutex : x₁.holdsMutex = x₀.holdsMutex) (hreads : x₁.reads = x₀.reads)
    (hwrites : x₁.writes = x₀.writes)
    (hsaw : x₁.Saw (count RwPc.writes s.loc) (count RwPc.reads s.loc)) :
    RwInv ⟨s.shared, Function.update s.loc i x₁⟩ := by
  subst hpc
  exact h.quiet (h.excludes.stay hmutex) hreads hwrites hsaw

/-- A turn of `spinlock_lock` on the mutex, from the point `x₀` to the point `x₁`. -/
theorem RwInv.lockMutex (h : RwInv s) {x₀ x₁ : RwPc} (hpc : s.loc i = x₀)
    (hno : x₀.holdsMutex = false) (hyes : x₁.holdsMutex = true) (hreads : x₁.reads = x₀.reads)
    (hwrites : x₁.writes = x₀.writes) (hsaw : ∀ w r, x₁.Saw w r) :
    RwInv ⟨{ s.shared with mutex := (spinlockTurn s.shared.mutex).1 },
      Function.update s.loc i (if (spinlockTurn s.shared.mutex).2 then x₁ else x₀)⟩ := by
  subst hpc
  cases hturn : (spinlockTurn s.shared.mutex).2 with
  | true =>
      apply h.quiet
      · exact h.excludes.take hturn hyes
      · exact hreads
      · exact hwrites
      · exact hsaw _ _
  | false =>
      rw [h.excludes.turn_failed hturn]
      apply h.quiet
      · exact h.excludes.stay rfl
      · rfl
      · rfl
      · exact RwPc.saw_of_no_mutex _ _ hno

/-- `spinlock_unlock` on the mutex, from the point `x₀` to the point `x₁`. -/
theorem RwInv.unlockMutex (h : RwInv s) {x₀ x₁ : RwPc} (hpc : s.loc i = x₀)
    (hyes : x₀.holdsMutex = true) (hno : x₁.holdsMutex = false) (hreads : x₁.reads = x₀.reads)
    (hwrites : x₁.writes = x₀.writes) :
    RwInv ⟨{ s.shared with mutex := spinlockUnlock s.shared.mutex },
      Function.update s.loc i x₁⟩ := by
  subst hpc
  exact h.quiet (h.excludes.unlock hyes hno) hreads hwrites (RwPc.saw_of_no_mutex _ _ hno)

omit [DecidableEq ι] in
/-- No writer is seen when the writer count is zero. -/
theorem RwInv.writer_eq_zero (h : RwInv s) (hzero : s.shared.writer = 0) :
    count RwPc.writes s.loc = 0 := by
  rcases h.apart with hw | ⟨hw, -⟩
  · exact hw
  · rw [h.writer, hw] at hzero
    cases hzero

omit [DecidableEq ι] in
/-- With less than `2 ^ 31` threads the signed test of `num_readers` finds a reader. -/
theorem RwInv.readers_eq_zero (h : RwInv s) (hcard : Fintype.card ι < 2 ^ 31)
    (htest : ¬ (0 : BitVec 32).slt s.shared.numReaders = true) : count RwPc.reads s.loc = 0 := by
  have hle := count_le_card RwPc.reads s.loc
  rw [h.readers, BitVec.slt_iff_toInt_lt, BitVec.toInt_ofNat', Int.bmod_eq_of_le] at htest
  · simp at htest
    omega
  · omega
  · omega

theorem RwInv.step (h : RwInv s) (hcard : Fintype.card ι < 2 ^ 31) {write : Bool}
    {r : ReadWriteLock × RwPc} (hnext : rwNext s.shared (s.loc i) write = some r) :
    RwInv ⟨r.1, Function.update s.loc i r.2⟩ := by
  cases hpc : s.loc i with
  | idle =>
      rw [hpc] at hnext
      cases hnext
      cases write with
      | true => exact h.move hpc rfl rfl rfl trivial
      | false => exact h.move hpc rfl rfl rfl trivial
  | readLock =>
      rw [hpc] at hnext
      cases hnext
      exact h.lockMutex hpc rfl rfl rfl rfl fun _ _ => trivial
  | readWait =>
      rw [hpc] at hnext
      cases hnext
      by_cases hzero : s.shared.writer = 0
      · rw [if_pos hzero]
        exact h.move hpc rfl rfl rfl (h.writer_eq_zero hzero)
      · rw [if_neg hzero]
        exact h.move hpc rfl rfl rfl trivial
  | readAdd =>
      rw [hpc] at hnext
      cases hnext
      exact h.readAdd hpc
  | readUnlockMutex =>
      rw [hpc] at hnext
      cases hnext
      exact h.unlockMutex hpc rfl rfl rfl rfl
  | reading =>
      rw [hpc] at hnext
      cases hnext
      exact h.readUnlock hpc
  | writeLock =>
      rw [hpc] at hnext
      cases hnext
      exact h.lockMutex hpc rfl rfl rfl rfl fun _ _ => trivial
  | writeWaitWriter =>
      rw [hpc] at hnext
      cases hnext
      by_cases hzero : s.shared.writer = 0
      · rw [if_pos hzero]
        exact h.move hpc rfl rfl rfl (h.writer_eq_zero hzero)
      · rw [if_neg hzero]
        exact h.move hpc rfl rfl rfl trivial
  | writeWaitReaders =>
      rw [hpc] at hnext
      cases hnext
      -- no writer has come since the other half of the test was made
      have hwriters := h.saw i
      rw [hpc] at hwriters
      by_cases htest : (0 : BitVec 32).slt s.shared.numReaders = true
      · rw [if_pos htest]
        exact h.move hpc rfl rfl rfl trivial
      · rw [if_neg htest]
        exact h.move hpc rfl rfl rfl ⟨hwriters, h.readers_eq_zero hcard htest⟩
  | writeAdd =>
      rw [hpc] at hnext
      cases hnext
      exact h.writeAdd hpc
  | writeUnlockMutex =>
      rw [hpc] at hnext
      cases hnext
      exact h.unlockMutex hpc rfl rfl rfl rfl
  | writing =>
      rw [hpc] at hnext
      cases hnext
      exact h.writeUnlock hpc

theorem rwLocks_inv (hcard : Fintype.card ι < 2 ^ 31) {es : List (ι × Bool)}
    (hrun : (rwLocks ι).Reach es s) : RwInv s := by
  refine hrun.invariant (I := RwInv) ?_ ?_
  · rintro s rfl
    have hr : count RwPc.reads (fun _ : ι => RwPc.idle) = 0 := count_eq_zero_iff.2 fun _ => rfl
    have hw : count RwPc.writes (fun _ : ι => RwPc.idle) = 0 := count_eq_zero_iff.2 fun _ => rfl
    refine ⟨excludes_init fun _ => rfl, ?_, ?_, Or.inl hw, fun _ => trivial⟩
    · rw [hr]
      rfl
    · rw [hw]
      rfl
  · rintro s ⟨i, write⟩ t h ⟨r, hnext, rfl⟩
    exact h.step hcard hnext

/-- Reader-writer exclusion, in every interleaving: a writer is alone, `num_readers` is the number
of threads between the two steps that change it, and so is `writer`, which is 0 or 1. -/
theorem rwLock_exclusion (hcard : Fintype.card ι < 2 ^ 31) (es : List (ι × Bool))
    (s : Threads ι ReadWriteLock RwPc) (hrun : (rwLocks ι).Reach es s) :
    (∀ i j, (s.loc i).writes = true → (s.loc j).writes = true → i = j) ∧
      (∀ i j, (s.loc i).writes = true → (s.loc j).reads = false) ∧
      s.shared.numReaders.toNat = count RwPc.reads s.loc ∧
      s.shared.writer.toNat = count RwPc.writes s.loc ∧ count RwPc.writes s.loc ≤ 1 := by
  have h := rwLocks_inv hcard hrun
  have hle := count_le_card RwPc.reads s.loc
  have hone : count RwPc.writes s.loc ≤ 1 := by
    have hapart := h.apart
    omega
  refine ⟨fun i j hi hj => ?_, fun i j hi => ?_, ?_, ?_, hone⟩
  · exact count_le_one.1 hone i j hi hj
  · have hpos := count_pos hi
    have hreads : count RwPc.reads s.loc = 0 := by
      have hapart := h.apart
      omega
    exact count_eq_zero_iff.1 hreads j
  · rw [h.readers, BitVec.toNat_ofNat]
    omega
  · rw [h.writer, BitVec.toNat_ofNat]
    omega

end Invariant

/-- A writer is inside and a reader spins on `lock->writer` under the mutex. -/
theorem rwLock_exclusion_writer_inside :
    ∃ es s, (rwLocks (Fin 2)).Reach es s ∧ s.loc 0 = .writing ∧ s.loc 1 = .readWait ∧
      (s.loc 1).reads = false ∧ s.shared.writer.toNat = 1 := by
  have hrun : ∃ s, runThreads rwNext (fun _ (_ : Fin 2 × Bool) => True)
      (List.replicate 6 (0, true) ++ List.replicate 3 (1, false)) ⟨rwLockInit, fun _ => .idle⟩ =
        some s ∧ s.loc 0 = .writing ∧ s.loc 1 = .readWait ∧ count RwPc.writes s.loc = 1 :=
    ⟨_, rfl, by decide⟩
  obtain ⟨s, hsome, hzero, hone, hcount⟩ := hrun
  have hreach := (reach_of_runThreads (rwLocks (Fin 2)).init rfl hsome).of_guard
  have h := rwLock_exclusion (by decide) _ s hreach
  refine ⟨_, s, hreach, hzero, hone, h.2.1 0 1 ?_, h.2.2.2.1.trans hcount⟩
  rw [hzero]
  rfl

end PetKernel.SyncTools
