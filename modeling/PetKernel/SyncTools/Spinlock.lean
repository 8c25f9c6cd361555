import PetKernel.Library.Threads

/-!
# The spin lock

A model of `compare_and_swap`, `spinlock_lock` and `spinlock_unlock` of `sync_tools/locking.c`, at
the granularity of single loads, stores and locked instructions.

`Excludes` is the invariant of a lock, for any code that uses it: the lock is free and nobody is
inside, or it is taken and one thread is. It is kept by a turn of the loop of `spinlock_lock`,
whether it takes the lock (`Excludes.take`) or not (`Excludes.turn_failed`), by an unlock
(`Excludes.unlock`), and by any step that neither enters nor leaves (`Excludes.stay`).

`counters` is the code of `ex3_fn`: rounds in which a shared counter is loaded and stored under the
lock. No update is lost (`no_lost_update`).
-/

set_option autoImplicit false

namespace PetKernel.SyncTools

open PetKernel.Library

/-! ## The lock -/

/-- `compare_and_swap` on a word that holds `old`: the value returned, and what the word then
holds. -/
def compareAndSwap {n : Nat} (old expected new : BitVec n) : BitVec n × BitVec n :=
  (old, if old = expected then new else old)

/-- `struct spinlock`. -/
structure Spinlock where
  free : BitVec 32
deriving DecidableEq, Repr

/-- `spinlock_init`. -/
def spinlockInit : Spinlock := ⟨1⟩

/-- One turn of the loop of `spinlock_lock`: the lock, and whether the loop ends. -/
def spinlockTurn (lock : Spinlock) : Spinlock × Bool :=
  let (ret, free) := compareAndSwap lock.free 1 0
  ({ lock with free := free }, ret ≠ 0)

/-- `spinlock_unlock`. -/
def spinlockUnlock (lock : Spinlock) : Spinlock := { lock with free := 1 }

section Exclusion

universe u w

variable {ι : Type u} {τ : Type w} {holds : τ → Bool} {lock : Spinlock} {loc : ι → τ}
  {i : ι} {x : τ}

/-- The lock is free and no thread holds it, or it is taken and one thread holds it. -/
def Excludes (holds : τ → Bool) (lock : Spinlock) (loc : ι → τ) : Prop :=
  (lock.free = 1 ∧ ∀ i, holds (loc i) = false) ∨
    (lock.free = 0 ∧ ∃ i, holds (loc i) = true ∧ ∀ j, holds (loc j) = true → j = i)

theorem excludes_init (h : ∀ i, holds (loc i) = false) : Excludes holds spinlockInit loc :=
  Or.inl ⟨rfl, h⟩

/-- At most one thread holds the lock. -/
theorem Excludes.unique (h : Excludes holds lock loc) {i j : ι} (hi : holds (loc i) = true)
    (hj : holds (loc j) = true) : i = j := by
  rcases h with ⟨-, hnone⟩ | ⟨-, k, -, hk⟩
  · rw [hnone i] at hi
    cases hi
  · exact (hk i hi).trans (hk j hj).symm

/-- While a thread holds the lock, a turn of the loop changes nothing and does not end it. -/
theorem Excludes.turn_failed (h : Excludes holds lock loc) (hturn : (spinlockTurn lock).2 = false) :
    (spinlockTurn lock).1 = lock := by
  rcases h with ⟨hfree, -⟩ | ⟨hfree, -⟩
  · rw [spinlockTurn, compareAndSwap, hfree] at hturn
    cases hturn
  · obtain ⟨free⟩ := lock
    cases hfree
    rfl

variable [DecidableEq ι]

/-- A turn that ends the loop has taken the lock. -/
theorem Excludes.take (h : Excludes holds lock loc) (hturn : (spinlockTurn lock).2 = true)
    (hx : holds x = true) : Excludes holds (spinlockTurn lock).1 (Function.update loc i x) := by
  rcases h with ⟨hfree, hnone⟩ | ⟨hfree, -⟩
  · refine Or.inr ⟨?_, i, ?_, fun j hj => ?_⟩
    · rw [spinlockTurn, compareAndSwap, hfree]
      rfl
    · rw [Function.update_self]
      exact hx
    · by_contra hne
      rw [Function.update_of_ne hne, hnone j] at hj
      cases hj
  · -- a lock that is taken ends no loop
    rw [spinlockTurn, compareAndSwap, hfree] at hturn
    cases hturn

/-- A step that neither takes nor gives back the lock. -/
theorem Excludes.stay (h : Excludes holds lock loc) (hx : holds x = holds (loc i)) :
    Excludes holds lock (Function.update loc i x) := by
  have hsame : ∀ j, holds (Function.update loc i x j) = holds (loc j) := by
    intro j
    by_cases hj : j = i
    · subst hj
      rw [Function.update_self, hx]
    · rw [Function.update_of_ne hj]
  unfold Excludes
  simp only [hsame]
  exact h

/-- The holder unlocks. -/
theorem Excludes.unlock (h : Excludes holds lock loc) (hi : holds (loc i) = true)
    (hx : holds x = false) : Excludes holds (spinlockUnlock lock) (Function.update loc i x) := by
  refine Or.inl ⟨rfl, fun j => ?_⟩
  by_cases hj : j = i
  · subst hj
    rw [Function.update_self]
    exact hx
  · rw [Function.update_of_ne hj]
    cases hold : holds (loc j) with
    | false => rfl
    | true => exact absurd (h.unique hold hi) hj

end Exclusion

/-! ## A counter under the lock -/

/-- Where a thread of `ex3_fn` is: at the loop of `spinlock_lock`, at the load and at the store of
`global_value += 1`, or at `spinlock_unlock`. -/
inductive CounterPc where
  | lock
  | load
  | store (v : BitVec 32)
  | unlock
deriving DecidableEq, Repr

/-- A thread and the number of updates that it has still to make. -/
structure CounterThread where
  pc : CounterPc
  left : Nat
deriving DecidableEq, Repr

/-- The lock and `global_value`. -/
structure CounterState where
  lock : Spinlock
  value : BitVec 32
deriving DecidableEq, Repr

/-- One step of `ex3_fn`. -/
def counterNext (s : CounterState) (t : CounterThread) (_ : Unit) :
    Option (CounterState × CounterThread) :=
  match t.pc with
  | .lock =>
      if t.left = 0 then none
      else
        let (lock, ends) := spinlockTurn s.lock
        some ({ s with lock := lock }, { t with pc := if ends then .load else .lock })
  | .load => some (s, { t with pc := .store s.value })
  | .store v => some ({ s with value := v + 1 }, ⟨.unlock, t.left - 1⟩)
  | .unlock => some ({ s with lock := spinlockUnlock s.lock }, { t with pc := .lock })

/-- The thread is between a successful `spinlock_lock` and its `spinlock_unlock`. -/
def CounterThread.inside (t : CounterThread) : Bool := t.pc ≠ .lock

/-- The thread has made all its rounds. -/
def CounterThread.finished (t : CounterThread) : Bool := t.pc = .lock ∧ t.left = 0

section Counters

variable {ι : Type} [DecidableEq ι]

/-- Thread `i` makes `rounds i` rounds, from the counter value `v₀` on. -/
def counters (v₀ : BitVec 32) (rounds : ι → Nat) :
    Machine (Threads ι CounterState CounterThread) (ι × Unit) :=
  interleave (fun s => s = ⟨⟨spinlockInit, v₀⟩, fun i => ⟨.lock, rounds i⟩⟩) counterNext

/-- What holds of a thread while the counter is `value`: until it has stored it has an update to
make, and what it has loaded is what the counter still holds. -/
def CounterThread.Ok (value : BitVec 32) (t : CounterThread) : Prop :=
  match t.pc with
  | .load => 0 < t.left
  | .store v => 0 < t.left ∧ v = value
  | _ => True

theorem CounterThread.ok_of_outside {t : CounterThread} (value : BitVec 32) (h : t.inside = false) :
    t.Ok value := by
  obtain ⟨pc, left⟩ := t
  cases pc with
  | lock => exact trivial
  | load => cases h
  | store v => cases h
  | unlock => cases h

variable [Fintype ι]

/-- Who is inside is alone, and what is in the counter and what is still to come add up to `n`
updates of `v₀`. -/
structure CounterInv (v₀ : BitVec 32) (n : Nat) (s : Threads ι CounterState CounterThread) :
    Prop where
  excludes : Excludes CounterThread.inside s.shared.lock s.loc
  ok : ∀ i, (s.loc i).Ok s.shared.value
  sum : s.shared.value + BitVec.ofNat 32 (total CounterThread.left s.loc) = v₀ + BitVec.ofNat 32 n

variable {v₀ : BitVec 32} {n : Nat} {s : Threads ι CounterState CounterThread} {i : ι}
  {x : CounterThread}

/-- A step that leaves the counter and the updates to come alone. -/
theorem CounterInv.quiet (h : CounterInv v₀ n s) {lock : Spinlock}
    (hlock : Excludes CounterThread.inside lock (Function.update s.loc i x))
    (hok : x.Ok s.shared.value) (hleft : x.left = (s.loc i).left) :
    CounterInv v₀ n ⟨⟨lock, s.shared.value⟩, Function.update s.loc i x⟩ := by
  refine ⟨hlock, ?_, ?_⟩
  · exact (Function.forall_update_iff s.loc fun _ t => t.Ok s.shared.value).2 ⟨hok,
      fun j _ => h.ok j⟩
  · have htotal := total_update CounterThread.left s.loc i x
    rw [hleft] at htotal
    rw [Nat.add_right_cancel htotal]
    exact h.sum

/-- The store: the counter goes up by one, and there is one update less to come. -/
theorem CounterInv.store (h : CounterInv v₀ n s) {v : BitVec 32} (hpc : (s.loc i).pc = .store v) :
    CounterInv v₀ n ⟨⟨s.shared.lock, v + 1⟩,
      Function.update s.loc i ⟨.unlock, (s.loc i).left - 1⟩⟩ := by
  have hin : (s.loc i).inside = true := by simp [CounterThread.inside, hpc]
  have hok := h.ok i
  rw [CounterThread.Ok, hpc] at hok
  obtain ⟨hleft, rfl⟩ := hok
  refine ⟨h.excludes.stay hin.symm, ?_, ?_⟩
  · refine (Function.forall_update_iff s.loc fun _ t => t.Ok (s.shared.value + 1)).2
      ⟨trivial, fun j hj => ?_⟩
    -- nobody else is inside, so nobody else has loaded the old value
    apply CounterThread.ok_of_outside
    cases hold : (s.loc j).inside with
    | false => rfl
    | true => exact absurd (h.excludes.unique hold hin) hj
  · have htotal := total_update CounterThread.left s.loc i ⟨.unlock, (s.loc i).left - 1⟩
    have hone : total CounterThread.left s.loc =
        total CounterThread.left (Function.update s.loc i ⟨.unlock, (s.loc i).left - 1⟩) + 1 := by
      simp only at htotal
      omega
    have hsum := h.sum
    rw [hone, BitVec.ofNat_add, BitVec.add_comm _ (BitVec.ofNat 32 1), ← BitVec.add_assoc] at hsum
    exact hsum

theorem CounterInv.step (h : CounterInv v₀ n s) {r : CounterState × CounterThread} {a : Unit}
    (hnext : counterNext s.shared (s.loc i) a = some r) :
    CounterInv v₀ n ⟨r.1, Function.update s.loc i r.2⟩ := by
  rw [counterNext] at hnext
  cases hpc : (s.loc i).pc with
  | lock =>
      simp only [hpc] at hnext
      split at hnext
      · cases hnext
      next hleft =>
        cases hnext
        cases hturn : (spinlockTurn s.shared.lock).2 with
        | true =>
            apply h.quiet
            · exact h.excludes.take hturn rfl
            · exact Nat.pos_of_ne_zero hleft
            · rfl
        | false =>
            rw [h.excludes.turn_failed hturn]
            apply h.quiet
            · exact h.excludes.stay (by simp [CounterThread.inside, hpc])
            · exact trivial
            · rfl
  | load =>
      simp only [hpc] at hnext
      cases hnext
      have hok := h.ok i
      rw [CounterThread.Ok, hpc] at hok
      apply h.quiet
      · exact h.excludes.stay (by simp [CounterThread.inside, hpc])
      · exact ⟨hok, rfl⟩
      · rfl
  | store v =>
      simp only [hpc] at hnext
      cases hnext
      exact h.store hpc
  | unlock =>
      simp only [hpc] at hnext
      cases hnext
      apply h.quiet
      · exact h.excludes.unlock (by simp [CounterThread.inside, hpc]) rfl
      · exact trivial
      · rfl

/-- The invariant of every run. -/
theorem counters_inv {rounds : ι → Nat} {es : List (ι × Unit)}
    (hrun : (counters v₀ rounds).Reach es s) : CounterInv v₀ (∑ i, rounds i) s := by
  refine hrun.invariant (I := CounterInv v₀ (∑ i, rounds i)) ?_ ?_
  · rintro s rfl
    exact ⟨excludes_init fun _ => rfl, fun _ => trivial, rfl⟩
  · rintro s ⟨i, a⟩ t h ⟨r, hnext, rfl⟩
    exact h.step hnext

/-- Threads that bracket a load and a store of one counter by `spinlock_lock` and `spinlock_unlock`:
never are two of them between the two calls, and when all have made their rounds the counter has
gone up by the number of updates. -/
theorem no_lost_update (v₀ : BitVec 32) (rounds : ι → Nat) (es : List (ι × Unit))
    (s : Threads ι CounterState CounterThread) (hrun : (counters v₀ rounds).Reach es s) :
    (∀ i j, (s.loc i).inside = true → (s.loc j).inside = true → i = j) ∧
      ((∀ i, (s.loc i).finished = true) →
        s.shared.value = v₀ + BitVec.ofNat 32 (∑ i, rounds i)) := by
  have h := counters_inv hrun
  refine ⟨fun i j hi hj => h.excludes.unique hi hj, fun hfin => ?_⟩
  have hzero : total CounterThread.left s.loc = 0 := by
    refine Finset.sum_eq_zero fun i _ => ?_
    have hi := hfin i
    simp only [CounterThread.finished, decide_eq_true_eq] at hi
    exact hi.2
  have hsum := h.sum
  rw [hzero, BitVec.add_zero] at hsum
  exact hsum

end Counters

/-- One round of each of two threads, the second one spinning once while the first is inside. -/
theorem no_lost_update_two_rounds :
    ∃ es s, (counters 5 fun _ : Fin 2 => 1).Reach es s ∧ (∀ i, (s.loc i).finished = true) ∧
      s.shared.value = 7 := by
  have hrun : ∃ s, runThreads counterNext (fun _ (_ : Fin 2 × Unit) => True)
      [(0, ()), (1, ()), (0, ()), (0, ()), (0, ()), (1, ()), (1, ()), (1, ()), (1, ())]
      ⟨⟨spinlockInit, 5⟩, fun _ => ⟨.lock, 1⟩⟩ = some s ∧ ∀ i, (s.loc i).finished = true :=
    ⟨_, rfl, by decide⟩
  obtain ⟨s, hsome, hfin⟩ := hrun
  have hreach := (reach_of_runThreads
    (fun s => s = ⟨⟨spinlockInit, 5⟩, fun _ => ⟨.lock, 1⟩⟩) rfl hsome).of_guard
  exact ⟨_, s, hreach, hfin, (no_lost_update 5 _ _ s hreach).2 hfin⟩

end PetKernel.SyncTools
