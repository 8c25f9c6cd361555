import PetKernel.SyncTools.RwLock

/-!
# The reader-writer lock does not deadlock

`rw_read_lock` and `rw_write_lock` spin on the counters while they hold the mutex, so that all
threads behind them wait for the threads that are inside. Those need no mutex to leave, and that is
why the lock does not deadlock: as long as a thread is in a call or inside, some thread can take a
step that brings it forward (`RwInv.exists_forward`). The program points are ranked by how far they
are from the end of the round, and a run that takes such steps only comes to its end.

The lock is not fair, and no bound is claimed for a thread: what `rwLock_never_stuck` says is that
in every reachable state a thread that waits can still come in, and that all threads can leave.
-/

set_option autoImplicit false

namespace PetKernel.SyncTools

open PetKernel.Library

namespace RwPc

/-- The steps up to the end of the round, when the thread never has to wait. -/
def rank : RwPc → Nat
  | idle => 0
  | reading => 1
  | readUnlockMutex => 2
  | readAdd => 3
  | readWait => 4
  | readLock => 5
  | writing => 1
  | writeUnlockMutex => 2
  | writeAdd => 3
  | writeWaitReaders => 4
  | writeWaitWriter => 5
  | writeLock => 6

/-- The thread is in a read section or in a write section. -/
def inside : RwPc → Bool
  | reading | writing => true
  | _ => false

/-- The thread is in a call of `rw_read_lock` or of `rw_write_lock`. -/
def waits (pc : RwPc) : Bool := pc ≠ idle ∧ pc.inside = false

/-- A thread outside of the sections that holds no mutex is at the beginning of its call. -/
theorem eq_lock_of_no_mutex {pc : RwPc} (hwaits : pc.waits = true)
    (hmutex : pc.holdsMutex = false) : pc = readLock ∨ pc = writeLock := by
  cases pc with
  | readLock => exact Or.inl rfl
  | writeLock => exact Or.inr rfl
  | idle => cases hwaits
  | reading => cases hwaits
  | writing => cases hwaits
  | _ => cases hmutex

/-- Outside of the sections the counters count only threads that hold the mutex. -/
theorem holdsMutex_of_reads {pc : RwPc} (hreads : pc.reads = true) (hout : pc.inside = false) :
    pc.holdsMutex = true := by
  cases pc with
  | readUnlockMutex => rfl
  | reading => cases hout
  | _ => cases hreads

theorem holdsMutex_of_writes {pc : RwPc} (hwrites : pc.writes = true) (hout : pc.inside = false) :
    pc.holdsMutex = true := by
  cases pc with
  | writeUnlockMutex => rfl
  | writing => cases hout
  | _ => cases hwrites

end RwPc

section Progress

variable {ι : Type} [DecidableEq ι] [Fintype ι] {s : Threads ι ReadWriteLock RwPc}

/-- A step of the thread `i` that brings it forward. -/
def Forward (s : Threads ι ReadWriteLock RwPc) (i : ι) : Prop :=
  s.loc i ≠ .idle ∧ ∃ lock pc, rwNext s.shared (s.loc i) false = some (lock, pc) ∧
    pc.rank < (s.loc i).rank

omit [DecidableEq ι] [Fintype ι] in
/-- A thread inside can leave. -/
theorem forward_of_inside {i : ι} (hin : (s.loc i).inside = true) : Forward s i := by
  rw [Forward]
  cases hpc : s.loc i with
  | reading => exact ⟨RwPc.noConfusion, _, _, rfl, Nat.one_pos⟩
  | writing => exact ⟨RwPc.noConfusion, _, _, rfl, Nat.one_pos⟩
  | _ =>
      rw [hpc] at hin
      cases hin

omit [DecidableEq ι] in
/-- When nobody is inside, the holder of the mutex has nothing to wait for. -/
theorem RwInv.forward_of_holdsMutex (h : RwInv s) (hout : ∀ j, (s.loc j).inside = false) {i : ι}
    (hmutex : (s.loc i).holdsMutex = true) : Forward s i := by
  have hwriters : (s.loc i).writes = false → s.shared.writer = 0 := by
    intro hi
    have hnone : count RwPc.writes s.loc = 0 := by
      rw [count_eq_zero_iff]
      intro j
      by_contra hj
      rw [Bool.not_eq_false] at hj
      have hsame := h.excludes.unique (RwPc.holdsMutex_of_writes hj (hout j)) hmutex
      rw [hsame, hi] at hj
      cases hj
    rw [h.writer, hnone]
    rfl
  have hreaders : (s.loc i).reads = false → s.shared.numReaders = 0 := by
    intro hi
    have hnone : count RwPc.reads s.loc = 0 := by
      rw [count_eq_zero_iff]
      intro j
      by_contra hj
      rw [Bool.not_eq_false] at hj
      have hsame := h.excludes.unique (RwPc.holdsMutex_of_reads hj (hout j)) hmutex
      rw [hsame, hi] at hj
      cases hj
    rw [h.readers, hnone]
    rfl
  rw [Forward]
  cases hpc : s.loc i with
  | readWait =>
      have hzero := hwriters (by rw [hpc]; rfl)
      exact ⟨RwPc.noConfusion, s.shared, .readAdd, by simp [rwNext, hzero], by decide⟩
  | readAdd => exact ⟨RwPc.noConfusion, _, .readUnlockMutex, rfl, by decide⟩
  | readUnlockMutex => exact ⟨RwPc.noConfusion, _, .reading, rfl, by decide⟩
  | writeWaitWriter =>
      have hzero := hwriters (by rw [hpc]; rfl)
      exact ⟨RwPc.noConfusion, s.shared, .writeWaitReaders, by simp [rwNext, hzero], by decide⟩
  | writeWaitReaders =>
      have hzero := hreaders (by rw [hpc]; rfl)
      exact ⟨RwPc.noConfusion, s.shared, .writeAdd, by simp [rwNext, hzero], by decide⟩
  | writeAdd => exact ⟨RwPc.noConfusion, _, .writeUnlockMutex, rfl, by decide⟩
  | writeUnlockMutex => exact ⟨RwPc.noConfusion, _, .writing, rfl, by decide⟩
  | _ =>
      rw [hpc] at hmutex
      cases hmutex

omit [DecidableEq ι] [Fintype ι] in
/-- When the mutex is free, a thread at the beginning of its call can take it. -/
theorem forward_of_free {i : ι} (hfree : s.shared.mutex.free = 1)
    (hpc : s.loc i = .readLock ∨ s.loc i = .writeLock) : Forward s i := by
  have hturn : (spinlockTurn s.shared.mutex).2 = true := by
    rw [spinlockTurn, compareAndSwap, hfree]
    rfl
  rw [Forward]
  rcases hpc with hpc | hpc
  · rw [hpc]
    refine ⟨RwPc.noConfusion, { s.shared with mutex := (spinlockTurn s.shared.mutex).1 }, .readWait,
      ?_, by decide⟩
    simp [rwNext, hturn]
  · rw [hpc]
    refine ⟨RwPc.noConfusion, { s.shared with mutex := (spinlockTurn s.shared.mutex).1 },
      .writeWaitWriter, ?_, by decide⟩
    simp [rwNext, hturn]

omit [DecidableEq ι] in
/-- As long as a thread is in a call or inside, some thread can be brought forward. -/
theorem RwInv.exists_forward (h : RwInv s) (hbusy : ∃ i, s.loc i ≠ .idle) : ∃ i, Forward s i := by
  by_cases hin : ∃ i, (s.loc i).inside = true
  · obtain ⟨i, hi⟩ := hin
    exact ⟨i, forward_of_inside hi⟩
  · have hout : ∀ j, (s.loc j).inside = false := fun j => by
      rw [← Bool.not_eq_true]
      exact fun hj => hin ⟨j, hj⟩
    rcases h.excludes with ⟨hfree, hnone⟩ | ⟨-, i, hi, -⟩
    · obtain ⟨i, hi⟩ := hbusy
      have hwaits : (s.loc i).waits = true := decide_eq_true ⟨hi, hout i⟩
      exact ⟨i, forward_of_free hfree (RwPc.eq_lock_of_no_mutex hwaits (hnone i))⟩
    · exact ⟨i, h.forward_of_holdsMutex hout hi⟩

/-! ## Runs that come to an end -/

/-- No thread begins a new round. -/
def noNewRound (s : Threads ι ReadWriteLock RwPc) (e : ι × Bool) : Prop := s.loc e.1 ≠ .idle

/-- One step forward, with what it does to the sum of the ranks. -/
theorem Forward.step {i : ι} (hcard : Fintype.card ι < 2 ^ 31) (h : RwInv s) (hf : Forward s i) :
    ∃ lock pc, rwNext s.shared (s.loc i) false = some (lock, pc) ∧
      ((rwLocks ι).guard noNewRound).step s (i, false) ⟨lock, Function.update s.loc i pc⟩ ∧
      RwInv ⟨lock, Function.update s.loc i pc⟩ ∧
      total RwPc.rank (Function.update s.loc i pc) < total RwPc.rank s.loc := by
  obtain ⟨hi, lock, pc, hnext, hless⟩ := hf
  refine ⟨lock, pc, hnext, ⟨hi, (lock, pc), hnext, rfl⟩, h.step hcard hnext, ?_⟩
  exact total_update_lt (fun j _ => Nat.le_refl _) hless

/-- The threads can all come to the end of their rounds. -/
theorem RwInv.path_to_idle (hcard : Fintype.card ι < 2 ^ 31) (h : RwInv s) :
    ∃ fs t, ((rwLocks ι).guard noNewRound).Path s fs t ∧ RwInv t ∧ ∀ i, t.loc i = .idle := by
  refine Machine.path_of_measure (fun s => total RwPc.rank s.loc) (fun s hs hbusy => ?_) h
  obtain ⟨i, hf⟩ := hs.exists_forward (not_forall.1 hbusy)
  obtain ⟨lock, pc, -, hstep, hinv, hsum⟩ := hf.step hcard hs
  exact ⟨(i, false), _, hstep, hinv, hsum⟩

omit [DecidableEq ι] [Fintype ι] in
/-- A thread does not skip its section. -/
theorem waits_or_inside {lock lock' : ReadWriteLock} {pc pc' : RwPc} {write : Bool}
    (hwaits : pc.waits = true) (hnext : rwNext lock pc write = some (lock', pc')) :
    pc'.waits = true ∨ pc'.inside = true := by
  cases pc with
  | idle => cases hwaits
  | reading => cases hwaits
  | writing => cases hwaits
  | readUnlockMutex =>
      cases hnext
      exact Or.inr rfl
  | writeUnlockMutex =>
      cases hnext
      exact Or.inr rfl
  | readAdd =>
      cases hnext
      exact Or.inl rfl
  | writeAdd =>
      cases hnext
      exact Or.inl rfl
  | _ =>
      cases hnext
      split <;> exact Or.inl rfl

/-- What holds of a thread until it is inside. -/
def ComesIn (i : ι) (s : Threads ι ReadWriteLock RwPc) : Prop :=
  RwInv s ∧ ((s.loc i).waits = true ∨ (s.loc i).inside = true)

/-- A thread that waits can come in. -/
theorem RwInv.path_to_inside (hcard : Fintype.card ι < 2 ^ 31) (h : RwInv s) {i : ι}
    (hwaits : (s.loc i).waits = true) :
    ∃ fs t, ((rwLocks ι).guard noNewRound).Path s fs t ∧ (t.loc i).inside = true := by
  have hmove : ∀ s, ComesIn i s → ¬ (s.loc i).inside = true → ∃ e t,
      ((rwLocks ι).guard noNewRound).step s e t ∧ ComesIn i t ∧
        total RwPc.rank t.loc < total RwPc.rank s.loc := by
    rintro s ⟨hs, hwaits⟩ hout
    replace hwaits := hwaits.resolve_right hout
    have hbusy : s.loc i ≠ .idle := (of_decide_eq_true hwaits).1
    obtain ⟨j, hf⟩ := hs.exists_forward ⟨i, hbusy⟩
    obtain ⟨lock, pc, hnext, hstep, hinv, hsum⟩ := hf.step hcard hs
    refine ⟨(j, false), _, hstep, ⟨hinv, ?_⟩, hsum⟩
    show (Function.update s.loc j pc i).waits = true ∨ (Function.update s.loc j pc i).inside = true
    rcases eq_or_ne i j with rfl | hne
    · rw [Function.update_self]
      exact waits_or_inside hwaits hnext
    · rw [Function.update_of_ne hne]
      exact Or.inl hwaits
  have hstart : ComesIn i s := ⟨h, Or.inl hwaits⟩
  obtain ⟨fs, t, hpath, -, hin⟩ := Machine.path_of_measure
    (fun s : Threads ι ReadWriteLock RwPc => total RwPc.rank s.loc) hmove hstart
  exact ⟨fs, t, hpath, hin⟩

/-- The reader-writer lock does not deadlock: in every state that a run can reach, every thread that
waits for the lock can still come in, and all threads can leave, without a new round being begun.
The lock is then as `rw_lock_init` has left it. -/
theorem rwLock_never_stuck (hcard : Fintype.card ι < 2 ^ 31) (es : List (ι × Bool))
    (s : Threads ι ReadWriteLock RwPc) (hrun : (rwLocks ι).Reach es s) :
    (∀ i, (s.loc i).waits = true →
      ∃ fs t, ((rwLocks ι).guard noNewRound).Path s fs t ∧ (t.loc i).inside = true) ∧
    ∃ fs t, ((rwLocks ι).guard noNewRound).Path s fs t ∧ (∀ i, t.loc i = .idle) ∧
      t.shared = rwLockInit := by
  have h := rwLocks_inv hcard hrun
  refine ⟨fun i hwaits => h.path_to_inside hcard hwaits, ?_⟩
  obtain ⟨fs, t, hpath, ht, hidle⟩ := h.path_to_idle hcard
  refine ⟨fs, t, hpath, hidle, ?_⟩
  have hreads : count RwPc.reads t.loc = 0 := count_eq_zero_iff.2 fun i => by rw [hidle i]; rfl
  have hwrites : count RwPc.writes t.loc = 0 := count_eq_zero_iff.2 fun i => by rw [hidle i]; rfl
  have hfree : t.shared.mutex.free = 1 := by
    rcases ht.excludes with ⟨hfree, -⟩ | ⟨-, i, hi, -⟩
    · exact hfree
    · rw [hidle i] at hi
      cases hi
  have heta : t.shared = ⟨t.shared.numReaders, t.shared.writer, ⟨t.shared.mutex.free⟩⟩ := rfl
  rw [heta, ht.readers, ht.writer, hreads, hwrites, hfree]
  rfl

end Progress

/-- A writer is inside, and a reader spins on `lock->writer` under the mutex. -/
theorem rwLock_never_stuck_writer_inside :
    ∃ es s, (rwLocks (Fin 2)).Reach es s ∧ s.loc 0 = .writing ∧ s.loc 1 = .readWait ∧
      ∃ fs t, ((rwLocks (Fin 2)).guard noNewRound).Path s fs t ∧ (t.loc 1).inside = true := by
  have hrun : ∃ s, runThreads rwNext (fun _ (_ : Fin 2 × Bool) => True)
      (List.replicate 6 (0, true) ++ List.replicate 3 (1, false)) ⟨rwLockInit, fun _ => .idle⟩ =
        some s ∧ s.loc 0 = .writing ∧ s.loc 1 = .readWait := ⟨_, rfl, by decide⟩
  obtain ⟨s, hsome, hzero, hone⟩ := hrun
  have hreach := (reach_of_runThreads (rwLocks (Fin 2)).init rfl hsome).of_guard
  refine ⟨_, s, hreach, hzero, hone, (rwLock_never_stuck (by decide) _ s hreach).1 1 ?_⟩
  rw [hone]
  rfl

end PetKernel.SyncTools
