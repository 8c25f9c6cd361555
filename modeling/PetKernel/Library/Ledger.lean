import Mathlib

/-!
# Ledgers of resources

A ledger is the list of the calls that acquire and release resources, oldest first. A call that
releases a resource carries data about the moment at which it was made. `GivenBack` and `Taken` say
which kind of call came last for a resource, and `ReleasedOnce` that nothing is released while it is
given back already. The rules say how these change with one more call.
-/

set_option autoImplicit false

namespace PetKernel.Library

universe u v

/-- A call that acquires or releases a resource. -/
inductive LedgerCall (α : Type u) (δ : Type v) where
  | acquire (r : α)
  | release (r : α) (d : δ)

namespace LedgerCall

variable {α : Type u} {δ : Type v} {log : List (LedgerCall α δ)} {c : LedgerCall α δ} {r : α}

/-- The resource was released, and not acquired since. -/
def GivenBack (r : α) (log : List (LedgerCall α δ)) : Prop :=
  ∃ l₁ c l₂, log = l₁ ++ c :: l₂ ∧ (∃ d, c = release r d) ∧ ∀ c' ∈ l₂, c' ≠ acquire r

/-- The resource was acquired, and not released since. -/
def Taken (r : α) (log : List (LedgerCall α δ)) : Prop :=
  ∃ l₁ c l₂, log = l₁ ++ c :: l₂ ∧ c = acquire r ∧ ∀ c' ∈ l₂, ∀ d, c' ≠ release r d

/-- No resource is released while it is given back already. -/
def ReleasedOnce (log : List (LedgerCall α δ)) : Prop :=
  ∀ l₁ r d l₂, log = l₁ ++ release r d :: l₂ → ¬ GivenBack r l₁

/-- Where an element of a list with one more element at the end stands. -/
theorem append_singleton_cases {γ : Type*} {l l₁ l₂ : List γ} {x y : γ}
    (h : l ++ [x] = l₁ ++ y :: l₂) :
    (l₁ = l ∧ y = x ∧ l₂ = []) ∨ ∃ l₃, l₂ = l₃ ++ [x] ∧ l = l₁ ++ y :: l₃ := by
  rcases List.eq_nil_or_concat l₂ with rfl | ⟨l₃, z, rfl⟩
  · obtain ⟨rfl, hxy⟩ := List.append_inj' h rfl
    cases hxy
    exact Or.inl ⟨rfl, rfl, rfl⟩
  · rw [List.concat_eq_append, ← List.cons_append, ← List.append_assoc] at h
    obtain ⟨rfl, hxz⟩ := List.append_inj' h rfl
    cases hxz
    exact Or.inr ⟨l₃, List.concat_eq_append, rfl⟩

/-- The last element with `P`, after which `Q` holds, in a list with one more element. -/
theorem exists_last_append_singleton {γ : Type*} {P Q : γ → Prop} {l : List γ} {x : γ} :
    (∃ l₁ y l₂, l ++ [x] = l₁ ++ y :: l₂ ∧ P y ∧ ∀ z ∈ l₂, Q z) ↔
      P x ∨ ((∃ l₁ y l₂, l = l₁ ++ y :: l₂ ∧ P y ∧ ∀ z ∈ l₂, Q z) ∧ Q x) := by
  constructor
  · rintro ⟨l₁, y, l₂, heq, hy, hl₂⟩
    rcases append_singleton_cases heq with ⟨-, rfl, -⟩ | ⟨l₃, rfl, rfl⟩
    · exact Or.inl hy
    · refine Or.inr ⟨⟨l₁, y, l₃, rfl, hy, fun z hz => hl₂ z ?_⟩, hl₂ x ?_⟩
      · exact List.mem_append_left _ hz
      · exact List.mem_append_right _ (List.mem_singleton_self x)
  · rintro (hx | ⟨⟨l₁, y, l₂, rfl, hy, hl₂⟩, hx⟩)
    · exact ⟨l, x, [], rfl, hx, fun _ hz => absurd hz List.not_mem_nil⟩
    · refine ⟨l₁, y, l₂ ++ [x], by simp, hy, fun z hz => ?_⟩
      rcases List.mem_append.1 hz with hz | hz
      · exact hl₂ z hz
      · exact List.mem_singleton.1 hz ▸ hx

theorem givenBack_append_singleton :
    GivenBack r (log ++ [c]) ↔ (∃ d, c = release r d) ∨ (GivenBack r log ∧ c ≠ acquire r) :=
  exists_last_append_singleton

theorem taken_append_singleton :
    Taken r (log ++ [c]) ↔ c = acquire r ∨ (Taken r log ∧ ∀ d, c ≠ release r d) :=
  exists_last_append_singleton

/-- Calls that acquire other resources. -/
theorem Taken.of_append {log' : List (LedgerCall α δ)} (h : Taken r (log ++ log'))
    (hother : ∀ c ∈ log', c ≠ acquire r) : Taken r log := by
  induction log' using List.reverseRecOn with
  | nil => rwa [List.append_nil] at h
  | append_singleton l c ih =>
      rw [← List.append_assoc, taken_append_singleton] at h
      rcases h with hc | ⟨h, -⟩
      · exact absurd hc (hother c (List.mem_append_right l (List.mem_singleton_self c)))
      · exact ih h fun c' hc' => hother c' (List.mem_append_left [c] hc')

/-- A resource that was acquired stays so until it is given back. -/
theorem Taken.append_or (h : Taken r log) (log' : List (LedgerCall α δ)) :
    Taken r (log ++ log') ∨ GivenBack r (log ++ log') := by
  induction log' using List.reverseRecOn with
  | nil => exact Or.inl (by rwa [List.append_nil])
  | append_singleton l c ih =>
      rw [← List.append_assoc, taken_append_singleton, givenBack_append_singleton]
      by_cases hacq : c = acquire r
      · exact Or.inl (Or.inl hacq)
      · by_cases hrel : ∃ d, c = release r d
        · exact Or.inr (Or.inl hrel)
        · rcases ih with htaken | hback
          · exact Or.inl (Or.inr ⟨htaken, fun d hd => hrel ⟨d, hd⟩⟩)
          · exact Or.inr (Or.inr ⟨hback, hacq⟩)

theorem not_givenBack_nil : ¬ GivenBack r ([] : List (LedgerCall α δ)) := by
  rintro ⟨l₁, c, l₂, heq, -⟩
  simp at heq

theorem not_taken_nil : ¬ Taken r ([] : List (LedgerCall α δ)) := by
  rintro ⟨l₁, c, l₂, heq, -⟩
  simp at heq

theorem releasedOnce_nil : ReleasedOnce ([] : List (LedgerCall α δ)) := by
  intro l₁ r d l₂ heq
  simp at heq

/-- One more call. -/
theorem ReleasedOnce.append_singleton (h : ReleasedOnce log)
    (hc : ∀ r d, c = release r d → ¬ GivenBack r log) : ReleasedOnce (log ++ [c]) := by
  intro l₁ r d l₂ heq
  rcases append_singleton_cases heq with ⟨rfl, hrel, -⟩ | ⟨l₃, -, rfl⟩
  · exact hc r d hrel.symm
  · exact h l₁ r d l₃ rfl

end LedgerCall

end PetKernel.Library
