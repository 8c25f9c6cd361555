import PetKernel.UserThreads.Runs

/-!
# When `pet_thread_run` returns

`pet_thread_run` reports that the execution has finished as soon as the master thread runs again.
`pet_thread_schedule` invokes the master thread whenever the ready list is empty, and it looks at
the list before the thread that calls it has been queued. A thread that yields while no other thread
is ready is therefore left behind ready (`run_returns_with_ready_thread`, the course of the test
program in which one thread yields to another that has exited). When no created thread yields or
schedules with an empty ready list, `pet_thread_run` returns only after all threads have exited or
are blocked (`run_completes_of_notAlone`).
-/

set_option autoImplicit false

namespace PetKernel.UserThreads

open PetKernel.Library

/-- The calls of clients whose master thread only creates threads and runs them, and whose threads
never yield to the master thread. -/
def RunClientCall (s : Sched) (call : Call) : Prop :=
  ClientCall s call ∧ (s.running = masterDummyThread → call = .create ∨ call = .run) ∧
    call ≠ .yieldTo petMasterThreadId

instance (s : Sched) (call : Call) : Decidable (RunClientCall s call) :=
  inferInstanceAs (Decidable (_ ∧ _ ∧ _))

/-- The library under such clients. -/
def runClients : Machine Sched Event := petThreads.guard fun s e => RunClientCall s e.call

/-- `e` ends with the return of `pet_thread_run` to the master thread. -/
def ReturnsFromRun (e : Event) : Prop :=
  ∃ r, e.returned = some r ∧ r.call = .run

/-- Thread 1 yields to thread 2, which exits, and yields to it again: `pet_thread_run` returns while
thread 1 is ready. -/
theorem run_returns_with_ready_thread : ∃ es s,
    runClients.Reach es s ∧
      es.map Event.call =
        [.create, .create, .run, .yieldTo 2, .exit .captureReturn 0, .yieldTo 2] ∧
      es.getLast? = some ⟨1, .yieldTo 2, some ⟨masterDummyThread, .run, 0, none⟩⟩ ∧
      Created s 1 ∧ (s.thread 1).state = .ready :=
  ⟨_, _, reach_replay (fun s e => RunClientCall s e.call)
    [.create, .create, .run, .yieldTo 2, .exit .captureReturn 0, .yieldTo 2] (by decide),
    by decide, by decide, by decide, by decide⟩

/-- A created thread gives up the processor with `pet_thread_schedule` or `pet_thread_yield_to` only
while some thread is on the ready list. -/
def NotAlone (s : Sched) (call : Call) : Prop :=
  s.running ≠ masterDummyThread → s.readyList = [] →
    call ≠ .schedule ∧ ∀ id, call ≠ .yieldTo id

/-- The call is one of `pet_thread_yield_to`. -/
def Call.isYieldTo : Call → Bool
  | .yieldTo _ => true
  | _ => false

theorem Call.forall_ne_yieldTo_iff (call : Call) :
    (∀ id, call ≠ .yieldTo id) ↔ call.isYieldTo = false := by
  cases call with
  | yieldTo id => exact ⟨fun h => absurd rfl (h id), fun h => by cases h⟩
  | _ => exact ⟨fun _ => rfl, fun _ id h => by cases h⟩

instance (call : Call) : Decidable (∀ id, call ≠ .yieldTo id) :=
  decidable_of_iff' _ call.forall_ne_yieldTo_iff

instance (s : Sched) (call : Call) : Decidable (NotAlone s call) :=
  inferInstanceAs (Decidable (s.running ≠ masterDummyThread → s.readyList = [] →
    call ≠ .schedule ∧ ∀ id, call ≠ .yieldTo id))

/-- Only the master thread is suspended in `pet_thread_run`. -/
def RunFrames (s : Sched) : Prop :=
  ∀ p fr, s.suspended p = some fr → fr.call = .run → p = masterDummyThread

theorem RunFrames.step {s : Sched} {call : Call} {r : Sched × Option Return} (h : RunFrames s)
    (hs : Settled s) (hc : ClientCall s call) (ho : Outcome s call r) : RunFrames r.1 := by
  intro p fr hp hrun
  rcases ho.suspended_cases hs hp with hp | ⟨rfl, hcall⟩
  · exact h p fr hp hrun
  · rw [← hcall, hrun] at hc
    exact hc

/-- After a switch to the master thread for want of a ready one, nobody is ready, unless the thread
that was left is itself queued again. -/
theorem dispatched_ready_nil {s : Sched} {tgt : ThreadPtr} {fr : Frame} (hnil : s.readyList = [])
    (hrun : (s.thread s.running).state ≠ .running) : (dispatched s tgt fr).readyList = [] := by
  show s.readyList.erase tgt ++ _ = []
  rw [hnil, if_neg fun h => hrun h.1]
  rfl

/-- A call after which nobody gives up the processor voluntarily leaves its caller not running. -/
theorem Prepared.not_running {s s₁ : Sched} {call : Call} (hp : Prepared s call s₁)
    (hr : s.running ≠ masterDummyThread) (hnil : s₁.readyList = []) (hc : ClientCall s call)
    (hna : NotAlone s call) : (s₁.thread s₁.running).state ≠ .running := by
  cases hp with
  | schedule => exact absurd rfl (hna hr hnil).1
  | yieldTo id => exact absurd rfl ((hna hr hnil).2 id)
  | run => exact absurd hc hr
  | @join id p hg hcr hr' =>
      show ((waitingOn s p).thread s.running).state ≠ _
      rw [waitingOn_state, if_pos rfl]
      decide
  | exit path v hr' =>
      show ((retired s v).thread s.running).state ≠ _
      rw [retired_state, if_pos rfl]
      decide

theorem Outcome.ready_nil_of_run {s : Sched} {call : Call} {r : Sched × Option Return}
    (ho : Outcome s call r) (h : Settled s) (hf : RunFrames s) (hc : RunClientCall s call)
    (hna : NotAlone s call) {ret : Return} (hret : r.2 = some ret) (hrun : ret.call = .run) :
    r.1.readyList = [] := by
  cases ho with
  | created =>
      cases hret
      cases hrun
  | notFound _ =>
      cases hret
      cases hrun
  | idle _ hnil _ => exact hnil
  | @switch call s₁ tgt rv hprep ht hm _ =>
      have hcore := hprep.core h
      rw [resume_dispatched_returned hcore ht, hprep.suspended_eq] at hret
      obtain ⟨fr, hfr, rfl⟩ := Option.map_eq_some_iff.1 hret
      -- only the master thread is ever suspended in `pet_thread_run`
      have htgt : tgt = masterDummyThread := hf tgt fr hfr hrun
      -- and it is switched to only when nothing else is ready
      have hnil : s₁.readyList = [] := (hm htgt).resolve_right hc.2.2
      have hr : s.running ≠ masterDummyThread := by
        rw [← hprep.running_eq, ← htgt]
        exact (ht.ne_running hcore).symm
      rw [resume_readyList]
      exact dispatched_ready_nil hnil (hprep.not_running hr hnil hc.1 hna)

/-- The thread that `pet_thread_run` returns to is the master thread. -/
theorem Outcome.running_of_run {s : Sched} {call : Call} {r : Sched × Option Return}
    (ho : Outcome s call r) (h : Settled s) (hf : RunFrames s) (hc : ClientCall s call)
    {ret : Return} (hret : r.2 = some ret) (hrun : ret.call = .run) :
    r.1.running = masterDummyThread := by
  cases ho with
  | created =>
      cases hret
      cases hrun
  | notFound _ =>
      cases hret
      cases hrun
  | idle _ _ hr => exact hr
  | @switch call s₁ tgt rv hprep ht _ _ =>
      rw [resume_dispatched_returned (hprep.core h) ht, hprep.suspended_eq] at hret
      obtain ⟨fr, hfr, rfl⟩ := Option.map_eq_some_iff.1 hret
      rw [resume_running]
      exact hf tgt fr hfr hrun

theorem runClients_inv {es : List Event} {s : Sched}
    (h : (runClients.guard fun s e => NotAlone s e.call).Reach es s) :
    RunInv es s ∧ RunFrames s := by
  refine h.history (I := fun es s => RunInv es s ∧ RunFrames s) (fun s hs => ?_)
    fun es s e t _ hinv hst => ?_
  · rw [show s = petThreadInit from hs]
    exact ⟨runInv_petThreadInit, fun p fr hp => by cases hp⟩
  · obtain ⟨-, hc, hstep⟩ := hst
    have ha := hc.1.admissible hinv.1.settled.toCore
    obtain ⟨r, hr, ho⟩ := petCall_outcome hinv.1.settled ha
    refine ⟨hinv.1.step ha hstep, ?_⟩
    rw [hstep.2] at hr
    cases hr
    exact hinv.2.step hinv.1.settled hc.1 ho

/-- In a run in which no created thread yields or schedules with an empty ready list, whenever
`pet_thread_run` returns, every created thread has exited or is blocked. -/
theorem run_completes_of_notAlone {es : List Event} {e : Event} {t : Sched}
    (h : (runClients.guard fun s e => NotAlone s e.call).Reach (es ++ [e]) t)
    (hret : ReturnsFromRun e) :
    ∀ p, Created t p →
      (t.thread p).state ≠ .ready ∧ (Exited (es ++ [e]) p ∨ (t.thread p).state = .blocked) := by
  obtain ⟨s, hs, hst⟩ := h.last_step
  obtain ⟨hinv, hframes⟩ := runClients_inv hs
  obtain ⟨hinv', -⟩ := runClients_inv h
  obtain ⟨ret, hreturned, hrun⟩ := hret
  obtain ⟨hna, hc, hcaller, heq⟩ := hst
  obtain ⟨r, hr, ho⟩ := petCall_outcome hinv.settled (hc.1.admissible hinv.settled.toCore)
  rw [heq] at hr
  cases hr
  have hnil : t.readyList = [] :=
    ho.ready_nil_of_run hinv.settled hframes hc hna hreturned hrun
  have hmaster : t.running = masterDummyThread :=
    ho.running_of_run hinv.settled hframes hc.1 hreturned hrun
  intro p hp
  have hready : (t.thread p).state ≠ .ready := by
    -- a `READY` thread would be on the list, which is empty
    intro hst
    have hm := (hinv'.settled.mem_ready p).2 ⟨hp, hst⟩
    rw [hnil] at hm
    cases hm
  refine ⟨hready, ?_⟩
  cases hstate : (t.thread p).state with
  | ready => exact absurd hstate hready
  | blocked => exact Or.inr rfl
  | stopped => exact Or.inl ((hinv'.stopped_iff p hp.2).1 hstate)
  | running =>
      have hpr := hinv'.settled.only_running p hp.2 hstate
      exact absurd (hpr.trans hmaster) hp.1

/-- Two threads yield to each other while both are there, and exit: when `pet_thread_run` returns,
both have exited. -/
theorem run_completes_two_threads : ∃ es e t,
    (runClients.guard fun s e => NotAlone s e.call).Reach (es ++ [e]) t ∧ ReturnsFromRun e ∧
      (es ++ [e]).map Event.call =
        [.create, .create, .run, .yieldTo 2, .exit .captureReturn 0, .exit .petThreadExit 7] ∧
      (t.thread 1).state ≠ .ready := by
  have hrun := Machine.Reach.guard_guard (reach_replay
    (fun s e => RunClientCall s e.call ∧ NotAlone s e.call)
    [.create, .create, .run, .yieldTo 2, .exit .captureReturn 0, .exit .petThreadExit 7]
    (by decide))
  have hes : replayEvents petThreadInit
        [.create, .create, .run, .yieldTo 2, .exit .captureReturn 0, .exit .petThreadExit 7] =
      replayEvents petThreadInit [.create, .create, .run, .yieldTo 2, .exit .captureReturn 0] ++
        [⟨1, .exit .petThreadExit 7, some ⟨masterDummyThread, .run, 0, none⟩⟩] := by
    decide
  rw [hes] at hrun
  have hret : ReturnsFromRun
      ⟨1, .exit .petThreadExit 7, some ⟨masterDummyThread, .run, 0, none⟩⟩ := ⟨_, rfl, rfl⟩
  exact ⟨_, _, _, hrun, hret, by decide, (run_completes_of_notAlone hrun hret 1 (by decide)).1⟩

end PetKernel.UserThreads
