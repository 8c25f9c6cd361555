import PetKernel.Library.Machine

/-!
# Threads over a shared state

The atomic steps of a thread are given by a function `next` of the shared state, of the local state
of the thread and of a choice that the code leaves open. `interleave` lets the threads take their
steps in any order, which is a sequentially consistent execution. `runThreads` computes a run of
finitely many steps.

What is counted over all threads is a `total`; the threads at certain program points are counted by
`count`. A step changes one local state, and `total_update` and `count_update` say what it does to a
total and to a count.
-/

set_option autoImplicit false

namespace PetKernel.Library

universe u v w

variable {ι : Type u} {σ : Type v} {τ : Type w}

/-- A shared state and the local states of all threads. -/
structure Threads (ι : Type u) (σ : Type v) (τ : Type w) where
  shared : σ
  loc : ι → τ

/-- Threads that run the code `next`, one step of one thread at a time. A label names the thread and
its choice. -/
def interleave {α : Type} [DecidableEq ι] (init : Threads ι σ τ → Prop)
    (next : σ → τ → α → Option (σ × τ)) : Machine (Threads ι σ τ) (ι × α) where
  init := init
  step s e t := ∃ r, next s.shared (s.loc e.1) e.2 = some r ∧
    t = ⟨r.1, Function.update s.loc e.1 r.2⟩

section Run

variable {α : Type} [DecidableEq ι] {init : Threads ι σ τ → Prop}
  {next : σ → τ → α → Option (σ × τ)} {ok : Threads ι σ τ → ι × α → Prop}

/-- The state after the steps `es`, if they can all be made and meet `ok`. -/
def runThreads (next : σ → τ → α → Option (σ × τ)) (ok : Threads ι σ τ → ι × α → Prop)
    [∀ s e, Decidable (ok s e)] : List (ι × α) → Threads ι σ τ → Option (Threads ι σ τ)
  | [], s => some s
  | e :: es, s =>
      if ok s e then
        match next s.shared (s.loc e.1) e.2 with
        | some r => runThreads next ok es ⟨r.1, Function.update s.loc e.1 r.2⟩
        | none => none
      else none

theorem path_of_runThreads [∀ s e, Decidable (ok s e)] {es : List (ι × α)} {s t : Threads ι σ τ}
    (h : runThreads next ok es s = some t) : ((interleave init next).guard ok).Path s es t := by
  induction es generalizing s with
  | nil =>
      cases h
      exact .nil
  | cons e es ih =>
      rw [runThreads] at h
      split at h
      next hok =>
        cases hr : next s.shared (s.loc e.1) e.2 with
        | none =>
            rw [hr] at h
            cases h
        | some r =>
            rw [hr] at h
            exact .cons ⟨hok, r, hr, rfl⟩ (ih h)
      next => cases h

/-- A run that has been computed. -/
theorem reach_of_runThreads [∀ s e, Decidable (ok s e)] (init : Threads ι σ τ → Prop)
    {es : List (ι × α)} {s t : Threads ι σ τ} (hinit : init s)
    (h : runThreads next ok es s = some t) : ((interleave init next).guard ok).Reach es t :=
  Machine.Reach.append_path (M := (interleave init next).guard ok) (.init hinit)
    (path_of_runThreads h)

end Run

/-! ## Totals and counts -/

section Total

variable [Fintype ι]

/-- The sum of `f` over all threads. -/
def total (f : τ → Nat) (loc : ι → τ) : Nat := ∑ i, f (loc i)

/-- The number of threads whose local state meets `P`. -/
def count (P : τ → Bool) (loc : ι → τ) : Nat := total (fun x => (P x).toNat) loc

variable [DecidableEq ι] {loc : ι → τ} {P : τ → Bool}

/-- One thread changes: its contribution to the sum is replaced. -/
theorem total_update (f : τ → Nat) (loc : ι → τ) (i : ι) (x : τ) :
    total f (Function.update loc i x) + f (loc i) = total f loc + f x := by
  have hsum : ∀ g : ι → τ, total f g = f (g i) + ∑ j ∈ Finset.univ.erase i, f (g j) := fun g =>
    (Finset.add_sum_erase Finset.univ (fun j => f (g j)) (Finset.mem_univ i)).symm
  have hrest : ∑ j ∈ Finset.univ.erase i, f (Function.update loc i x j) =
      ∑ j ∈ Finset.univ.erase i, f (loc j) := by
    refine Finset.sum_congr rfl fun j hj => ?_
    rw [Function.update_of_ne (Finset.ne_of_mem_erase hj)]
  rw [hsum, hsum loc, hrest, Function.update_self]
  omega

theorem count_update (P : τ → Bool) (loc : ι → τ) (i : ι) (x : τ) :
    count P (Function.update loc i x) + (P (loc i)).toNat = count P loc + (P x).toNat :=
  total_update _ loc i x

/-- A step that lowers the contribution of its thread and raises that of no other thread lowers the
sum. -/
theorem total_update_lt {f f' : τ → Nat} {i : ι} {x : τ}
    (hothers : ∀ j, j ≠ i → f' (loc j) ≤ f (loc j))
    (hx : f' x < f (loc i)) : total f' (Function.update loc i x) < total f loc := by
  refine Finset.sum_lt_sum (fun j _ => ?_) ⟨i, Finset.mem_univ i, ?_⟩
  · rcases eq_or_ne j i with rfl | hj
    · rw [Function.update_self]
      exact hx.le
    · rw [Function.update_of_ne hj]
      exact hothers j hj
  · rw [Function.update_self]
    exact hx

/-- A step between local states that count alike. -/
theorem count_update_of_eq {i : ι} {x : τ} (h : P x = P (loc i)) :
    count P (Function.update loc i x) = count P loc := by
  have hupd := count_update P loc i x
  rw [h] at hupd
  exact Nat.add_right_cancel hupd

/-- A thread comes to be counted. -/
theorem count_update_enter {i : ι} {x : τ} (hold : P (loc i) = false) (hnew : P x = true) :
    count P (Function.update loc i x) = count P loc + 1 := by
  have hupd := count_update P loc i x
  rw [hold, hnew] at hupd
  exact hupd

/-- A thread ceases to be counted. -/
theorem count_update_leave {i : ι} {x : τ} (hold : P (loc i) = true) (hnew : P x = false) :
    count P (Function.update loc i x) + 1 = count P loc := by
  have hupd := count_update P loc i x
  rw [hold, hnew] at hupd
  exact hupd

omit [DecidableEq ι] in
theorem count_eq_zero_iff : count P loc = 0 ↔ ∀ i, P (loc i) = false := by
  rw [count, total, Finset.sum_eq_zero_iff]
  refine forall_congr' fun i => ?_
  cases P (loc i) <;> simp

omit [DecidableEq ι] in
theorem count_pos {i : ι} (h : P (loc i) = true) : 0 < count P loc := by
  rw [Nat.pos_iff_ne_zero]
  intro hzero
  have hi := count_eq_zero_iff.1 hzero i
  rw [h] at hi
  cases hi

omit [DecidableEq ι] in
/-- At most one thread is counted. -/
theorem count_le_one :
    count P loc ≤ 1 ↔ ∀ i j, P (loc i) = true → P (loc j) = true → i = j := by
  have hcard : count P loc = (Finset.univ.filter fun i => P (loc i) = true).card := by
    rw [Finset.card_filter]
    refine Finset.sum_congr rfl fun i _ => ?_
    show (P (loc i)).toNat = _
    cases P (loc i) <;> rfl
  rw [hcard, Finset.card_le_one]
  simp only [Finset.mem_filter, Finset.mem_univ, true_and]
  exact forall_congr' fun i => forall_comm

omit [DecidableEq ι] in
theorem count_le_card (P : τ → Bool) (loc : ι → τ) : count P loc ≤ Fintype.card ι := by
  rw [Fintype.card_eq_sum_ones]
  exact Finset.sum_le_sum fun i _ => Bool.toNat_le _

omit [DecidableEq ι] in
/-- All threads are counted. -/
theorem count_eq_card_iff : count P loc = Fintype.card ι ↔ ∀ i, P (loc i) = true := by
  have hadd : count P loc + count (fun x => !P x) loc = Fintype.card ι := by
    rw [count, count, total, total, ← Finset.sum_add_distrib, Fintype.card_eq_sum_ones]
    refine Finset.sum_congr rfl fun i _ => ?_
    cases P (loc i) <;> rfl
  have hnone : count (fun x => !P x) loc = 0 ↔ ∀ i, (!P (loc i)) = false := count_eq_zero_iff
  simp only [Bool.not_eq_false'] at hnone
  rw [← hnone]
  omega

end Total

end PetKernel.Library
