import Mathlib

/-!
# Lists of adjacent segments

Elements with a start and a size are segments of the number line. `Tiles start size lo hi xs` says
that the segments of `xs`, in order, cover the interval from `lo` to `hi` without gap or overlap;
segments of size zero are allowed.

`Tiles.replace` exchanges a run of segments for another one with the same ends, which covers splits
and merges alike.
-/

set_option autoImplicit false

namespace PetKernel.Library

universe u

variable {α : Type u} (start size : α → Nat)

/-- The segments `xs` lie side by side from `lo` to `hi`. -/
def Tiles : Nat → Nat → List α → Prop
  | lo, hi, [] => lo = hi
  | lo, hi, x :: xs => start x = lo ∧ Tiles (lo + size x) hi xs

variable {start size} {lo hi : Nat} {xs ys : List α}

theorem tiles_append :
    Tiles start size lo hi (xs ++ ys) ↔
      ∃ mid, Tiles start size lo mid xs ∧ Tiles start size mid hi ys := by
  induction xs generalizing lo with
  | nil =>
      constructor
      · intro h
        exact ⟨lo, rfl, h⟩
      · rintro ⟨mid, rfl, h⟩
        exact h
  | cons x xs ih =>
      constructor
      · rintro ⟨hx, h⟩
        obtain ⟨mid, h₁, h₂⟩ := ih.1 h
        exact ⟨mid, ⟨hx, h₁⟩, h₂⟩
      · rintro ⟨mid, ⟨hx, h₁⟩, h₂⟩
        exact ⟨hx, ih.2 ⟨mid, h₁, h₂⟩⟩

theorem Tiles.sum_sizes (h : Tiles start size lo hi xs) : lo + (xs.map size).sum = hi := by
  induction xs generalizing lo with
  | nil => exact h
  | cons x xs ih =>
      have hrest := ih h.2
      rw [List.map_cons, List.sum_cons]
      omega

/-- Every segment lies between the ends. -/
theorem Tiles.bounds (h : Tiles start size lo hi xs) {x : α} (hx : x ∈ xs) :
    lo ≤ start x ∧ start x + size x ≤ hi := by
  obtain ⟨as, bs, rfl⟩ := List.append_of_mem hx
  obtain ⟨mid, h₁, hstart, h₂⟩ := tiles_append.1 h
  have hlo := h₁.sum_sizes
  have hhi := h₂.sum_sizes
  omega

/-- Every point between the ends lies in a segment. -/
theorem Tiles.cover (h : Tiles start size lo hi xs) {p : Nat} (hlo : lo ≤ p) (hhi : p < hi) :
    ∃ x ∈ xs, start x ≤ p ∧ p < start x + size x := by
  induction xs generalizing lo with
  | nil =>
      have heq : lo = hi := h
      omega
  | cons x xs ih =>
      obtain ⟨hx, hrest⟩ := h
      rcases Nat.lt_or_ge p (lo + size x) with hlt | hge
      · exact ⟨x, List.mem_cons_self, by omega, by omega⟩
      · obtain ⟨y, hy, hcov⟩ := ih hrest hge
        exact ⟨y, List.mem_cons_of_mem x hy, hcov⟩

/-- A segment ends before every later one starts. -/
theorem Tiles.pairwise (h : Tiles start size lo hi xs) :
    xs.Pairwise fun x y => start x + size x ≤ start y := by
  induction xs generalizing lo with
  | nil => exact List.Pairwise.nil
  | cons x xs ih =>
      refine List.Pairwise.cons (fun y hy => ?_) (ih h.2)
      rw [h.1]
      exact (h.2.bounds hy).1

/-- Of two different segments one ends before the other starts. -/
theorem Tiles.apart (h : Tiles start size lo hi xs) {x y : α} (hx : x ∈ xs) (hy : y ∈ xs)
    (hne : x ≠ y) : start x + size x ≤ start y ∨ start y + size y ≤ start x := by
  let R : α → α → Prop := fun x y => start x + size x ≤ start y ∨ start y + size y ≤ start x
  have hsymm : Std.Symm R := ⟨fun _ _ => Or.symm⟩
  have hpair : xs.Pairwise R := h.pairwise.imp Or.inl
  exact hpair.forall hx hy hne

/-- A segment ends where the next one starts. -/
theorem Tiles.isChain (h : Tiles start size lo hi xs) :
    xs.IsChain fun x y => start x + size x = start y := by
  induction xs generalizing lo with
  | nil => exact List.IsChain.nil
  | cons x xs ih =>
      refine List.isChain_cons.2 ⟨fun y hy => ?_, ih h.2⟩
      obtain ⟨ys, rfl⟩ := List.head?_eq_some_iff.1 hy
      rw [h.1]
      exact h.2.1.symm

/-- A run of segments may be replaced by any other with the same ends. -/
theorem Tiles.replace {as bs run run' : List α} (h : Tiles start size lo hi (as ++ run ++ bs))
    (hrun : ∀ a b, Tiles start size a b run → Tiles start size a b run') :
    Tiles start size lo hi (as ++ run' ++ bs) := by
  obtain ⟨mid, h, hbs⟩ := tiles_append.1 h
  obtain ⟨mid', has, h⟩ := tiles_append.1 h
  exact tiles_append.2 ⟨mid, tiles_append.2 ⟨mid', has, hrun _ _ h⟩, hbs⟩

end PetKernel.Library
