import Mathlib

/-!
# Labelled machines and their runs

A machine has initial states and steps that carry a label, the request that caused the step
together with whatever was observed of it. `Machine.Reach` collects the labels of a run in order, so
that a property may speak about the history as well as about the state. Safety arguments go through
`Machine.Reach.invariant` (a property of the state) and `Machine.Reach.history` (a property of the
labels so far and the state).

`Machine.Path` is a run from an arbitrary state; a run may go on along a path
(`Machine.Reach.append_path`).

`Machine.guard` keeps only the steps that meet a condition on the state before the step and on the
label. Its runs are the runs of the original machine all of whose steps meet the condition
(`Machine.Reach.of_guard`).
-/

set_option autoImplicit false

namespace PetKernel.Library

universe u v

variable {σ : Type u} {ε : Type v}

/-- A labelled transition system. -/
structure Machine (σ : Type u) (ε : Type v) where
  init : σ → Prop
  step : σ → ε → σ → Prop

namespace Machine

/-- `M.Reach es s`: a run of `M` from an initial state, with labels `es` in order, ends in `s`. -/
inductive Reach (M : Machine σ ε) : List ε → σ → Prop where
  | init {s : σ} : M.init s → Reach M [] s
  | step {es : List ε} {s t : σ} {e : ε} : Reach M es s → M.step s e t → Reach M (es ++ [e]) t

/-- The machine whose steps also meet `ok`, a condition on the state before the step and on the
label. -/
def guard (M : Machine σ ε) (ok : σ → ε → Prop) : Machine σ ε where
  init := M.init
  step s e t := ok s e ∧ M.step s e t

/-- A property that holds initially and is kept by every step holds in every state reached. -/
theorem Reach.invariant {M : Machine σ ε} {I : σ → Prop} (hinit : ∀ s, M.init s → I s)
    (hstep : ∀ s e t, I s → M.step s e t → I t) {es : List ε} {s : σ} (h : M.Reach es s) : I s := by
  induction h with
  | init hs => exact hinit _ hs
  | step _ hst ih => exact hstep _ _ _ ih hst

/-- The invariant rule for a property of the labels so far and the state. -/
theorem Reach.history {M : Machine σ ε} {I : List ε → σ → Prop} (hinit : ∀ s, M.init s → I [] s)
    (hstep : ∀ es s e t, M.Reach es s → I es s → M.step s e t → I (es ++ [e]) t)
    {es : List ε} {s : σ} (h : M.Reach es s) : I es s := by
  induction h with
  | init hs => exact hinit _ hs
  | step hr hst ih => exact hstep _ _ _ _ hr ih hst

/-- A run of the guarded machine is a run of the machine. -/
theorem Reach.of_guard {M : Machine σ ε} {ok : σ → ε → Prop} {es : List ε} {s : σ}
    (h : (M.guard ok).Reach es s) : M.Reach es s := by
  induction h with
  | init hs => exact .init hs
  | step _ hst ih => exact .step ih hst.2

/-- The last step of a run. -/
theorem Reach.last_step {M : Machine σ ε} {es : List ε} {e : ε} {t : σ}
    (h : M.Reach (es ++ [e]) t) : ∃ s, M.Reach es s ∧ M.step s e t := by
  generalize hes : es ++ [e] = fs at h
  cases h with
  | init hs => simp at hes
  | step hr hst =>
      obtain ⟨rfl, he⟩ := List.append_inj' hes rfl
      cases he
      exact ⟨_, hr, hst⟩

/-- `M.Path s es t`: a run of `M` from `s`, with labels `es` in order, ends in `t`. -/
inductive Path (M : Machine σ ε) : σ → List ε → σ → Prop where
  | nil {s : σ} : Path M s [] s
  | cons {s t u : σ} {e : ε} {es : List ε} : M.step s e t → Path M t es u → Path M s (e :: es) u

/-- A run that goes on. -/
theorem Reach.append_path {M : Machine σ ε} {es fs : List ε} {s t : σ} (h : M.Reach es s)
    (hp : M.Path s fs t) : M.Reach (es ++ fs) t := by
  induction hp generalizing es with
  | nil => simpa using h
  | cons hst _ ih => simpa using ih (h.step hst)

/-- The rule for progress: when a step that keeps the invariant and lowers the measure can be taken
as long as the goal is not reached, the goal can be reached. -/
theorem path_of_measure {M : Machine σ ε} {I goal : σ → Prop} (μ : σ → Nat)
    (hmove : ∀ s, I s → ¬ goal s → ∃ e t, M.step s e t ∧ I t ∧ μ t < μ s) {s : σ} (hs : I s) :
    ∃ es t, M.Path s es t ∧ I t ∧ goal t := by
  generalize hn : μ s = n
  induction n using Nat.strong_induction_on generalizing s with
  | _ n ih =>
      by_cases hgoal : goal s
      · exact ⟨[], s, .nil, hs, hgoal⟩
      · obtain ⟨e, t, hst, ht, hless⟩ := hmove s hs hgoal
        obtain ⟨es, u, hpath, hu⟩ := ih _ (hn ▸ hless) ht rfl
        exact ⟨e :: es, u, .cons hst hpath, hu⟩

/-- Two guards in turn are one guard. -/
theorem Reach.guard_guard {M : Machine σ ε} {ok ok' : σ → ε → Prop} {es : List ε} {s : σ}
    (h : (M.guard fun s e => ok s e ∧ ok' s e).Reach es s) :
    ((M.guard ok).guard ok').Reach es s := by
  induction h with
  | init hs => exact .init hs
  | step _ hst ih => exact .step ih ⟨hst.1.2, hst.1.1, hst.2⟩

end Machine

end PetKernel.Library
