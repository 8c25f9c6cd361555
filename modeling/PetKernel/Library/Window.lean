import Mathlib

/-!
# The lowest window of consecutive indices

`Window p N n r` says that the `n` indices from `r` on lie below `N` and all satisfy `p`. A search
goes through the indices from 0 on and keeps the length of the run of indices with `p` that ends
before the current one. `Searched p n i run` is the invariant of such a search after the indices
below `i`: no window has been passed, and the run cannot be made longer to the left.
`Searched.clear` and `Searched.extend` are its two moves and `Searched.found` its end.
-/

set_option autoImplicit false

namespace PetKernel.Library

/-- The `n` indices from `r` on lie below `N` and satisfy `p`. -/
def Window (p : Nat → Prop) (N n r : Nat) : Prop := r + n ≤ N ∧ ∀ j, r ≤ j → j < r + n → p j

/-- Fewer indices with `p` make fewer windows. -/
theorem Window.mono {p q : Nat → Prop} {N n r : Nat} (h : Window p N n r) (hpq : ∀ j, p j → q j) :
    Window q N n r :=
  ⟨h.1, fun j hle hlt => hpq j (h.2 j hle hlt)⟩

/-- A search that has looked at the indices below `i` and has found no window, with `run` indices
since the last one without `p`. -/
structure Searched (p : Nat → Prop) (n i run : Nat) : Prop where
  run_le : run ≤ i
  run_set : ∀ j, i - run ≤ j → j < i → p j
  boundary : run < i → ¬ p (i - run - 1)
  none : ∀ r, ¬ Window p i n r

namespace Searched

variable {p : Nat → Prop} {n i run : Nat}

theorem zero (p : Nat → Prop) (hn : 0 < n) : Searched p n 0 0 where
  run_le := Nat.le_refl 0
  run_set := fun j _ hlt => absurd hlt (Nat.not_lt_zero j)
  boundary := fun hlt => absurd hlt (Nat.lt_irrefl 0)
  none := by
    rintro r ⟨hle, -⟩
    omega

/-- An index without `p` ends the run. -/
theorem clear (h : Searched p n i run) (hi : ¬ p i) (hn : 0 < n) : Searched p n (i + 1) 0 where
  run_le := Nat.zero_le _
  run_set := by
    intro j hle hlt
    omega
  boundary := fun _ => hi
  none := by
    rintro r ⟨hle, hset⟩
    by_cases hlast : r + n ≤ i
    · exact h.none r ⟨hlast, hset⟩
    · exact hi (hset i (by omega) (by omega))

/-- An index with `p` makes the run longer. -/
theorem extend (h : Searched p n i run) (hi : p i) (hrun : run + 1 < n) :
    Searched p n (i + 1) (run + 1) where
  run_le := Nat.succ_le_succ h.run_le
  run_set := by
    intro j hle hlt
    by_cases hj : j = i
    · exact hj ▸ hi
    · exact h.run_set j (by omega) (by omega)
  boundary := by
    intro hlt
    rw [Nat.add_sub_add_right]
    exact h.boundary (by omega)
  none := by
    rintro r ⟨hle, hset⟩
    by_cases hlast : r + n ≤ i
    · exact h.none r ⟨hlast, hset⟩
    -- a window that ends here is longer than the run
    · exact h.boundary (by omega) (hset (i - run - 1) (by omega) (by omega))

/-- A run of `n` indices is the lowest window. -/
theorem found (h : Searched p n i run) (hi : p i) (hrun : run < n) (hlen : n ≤ run + 1) {N : Nat}
    (hN : i < N) : IsLeast { r | Window p N n r } (i - run) := by
  have hle := h.run_le
  refine ⟨⟨by omega, fun j hge hlt => ?_⟩, ?_⟩
  · by_cases hj : j = i
    · exact hj ▸ hi
    · exact h.run_set j hge (by omega)
  · rintro r ⟨-, hset⟩
    apply Nat.le_of_not_lt
    intro hlt
    exact h.none r ⟨by omega, hset⟩

end Searched

end PetKernel.Library
