import PetKernel.UserThreads.Runs

/-!
# Every thread is in exactly one place

In every run of the library as its clients use it, a created thread that has not exited is the
running one, or on the ready list, or on the blocked list, and its state says which
(`scheduler_partition`). The master thread is on neither list. A join of the master thread breaks
this: `__thread_invoker` never takes the master thread off a list, so once it was woken from a join
it runs while it is on the ready list (`master_join_breaks_ready_list`). Joins of the master thread
do no harm as long as `get_thread` finds no thread for them (`master_join_safe_of_not_found`).
-/

set_option autoImplicit false

namespace PetKernel.UserThreads

open PetKernel.Library

/-- The three places of a thread that has not exited. -/
def InOnePlace (s : Sched) (p : ThreadPtr) : Prop :=
  (p = s.running ∧ (s.thread p).state = .running ∧
      s.readyList.count p = 0 ∧ s.blockedList.count p = 0) ∨
    (p ≠ s.running ∧ (s.thread p).state = .ready ∧
      s.readyList.count p = 1 ∧ s.blockedList.count p = 0) ∨
    (p ≠ s.running ∧ (s.thread p).state = .blocked ∧
      s.readyList.count p = 0 ∧ s.blockedList.count p = 1)

theorem Core.count_ready_eq_zero {s : Sched} (h : Core s) {p : ThreadPtr}
    (hst : (s.thread p).state ≠ .ready) : s.readyList.count p = 0 :=
  List.count_eq_zero.2 fun hm => hst ((h.mem_ready p).1 hm).2

theorem Core.count_blocked_eq_zero {s : Sched} (h : Core s) {p : ThreadPtr}
    (hst : (s.thread p).state ≠ .blocked) : s.blockedList.count p = 0 :=
  List.count_eq_zero.2 fun hm => hst ((h.mem_blocked p).1 hm).2.2

theorem Settled.inOnePlace {s : Sched} (h : Settled s) {p : ThreadPtr} (hp : Created s p)
    (hst : (s.thread p).state ≠ .stopped) : InOnePlace s p := by
  cases hs : (s.thread p).state with
  | stopped => exact absurd hs hst
  | running =>
      refine Or.inl ⟨h.only_running p hp.2 hs, hs, ?_, ?_⟩
      · exact h.count_ready_eq_zero (by rw [hs]; decide)
      · exact h.count_blocked_eq_zero (by rw [hs]; decide)
  | ready =>
      refine Or.inr (Or.inl ⟨h.ne_running_of_ready hs, hs, ?_, ?_⟩)
      · exact List.count_eq_one_of_mem h.ready_nodup ((h.mem_ready p).2 ⟨hp, hs⟩)
      · exact h.count_blocked_eq_zero (by rw [hs]; decide)
  | blocked =>
      -- user code runs, so the running thread is not marked `BLOCKED`
      have hne : p ≠ s.running := by
        rintro rfl
        rw [h.running_running] at hs
        cases hs
      refine Or.inr (Or.inr ⟨hne, hs, ?_, ?_⟩)
      · exact h.count_ready_eq_zero (by rw [hs]; decide)
      · exact List.count_eq_one_of_mem h.blocked_nodup ((h.mem_blocked p).2 ⟨hne, hp.2, hs⟩)

/-- In every state between calls of a run, each created thread that has not exited is in exactly one
place, the lists hold nothing else, the master thread is on neither and is `RUNNING` exactly when it
is running, and the next call fails no assertion. -/
theorem scheduler_partition {es : List Event} {s : Sched} (h : clients.Reach es s) :
    (∀ p, Created s p → ¬ Exited es p → InOnePlace s p) ∧
      (∀ p, p ∈ s.readyList ∨ p ∈ s.blockedList → Created s p ∧ ¬ Exited es p) ∧
      (masterDummyThread ∉ s.readyList ∧ masterDummyThread ∉ s.blockedList ∧
        (s.thread masterDummyThread).state =
          if s.running = masterDummyThread then .running else .ready) ∧
      ∀ call, ClientCall s call → ∃ r, petCall s call = .ok r := by
  obtain ⟨hs, -, hstop⟩ := clients_runInv h
  refine ⟨fun p hp hex => ?_, fun p hp => ?_, ⟨fun hm => ?_, fun hm => ?_, hs.master_state⟩,
    fun call hc => ?_⟩
  · exact hs.inOnePlace hp fun hst => hex ((hstop p hp.2).1 hst)
  · rcases hp with hp | hp
    -- a thread that has exited is `STOPPED` and so on neither list
    · obtain ⟨hc, hst⟩ := (hs.mem_ready p).1 hp
      refine ⟨hc, fun hex => ?_⟩
      rw [(hstop p hc.2).2 hex] at hst
      cases hst
    · obtain ⟨-, hlt, hst⟩ := (hs.mem_blocked p).1 hp
      refine ⟨⟨?_, hlt⟩, fun hex => ?_⟩
      · rintro rfl
        exact hs.master_not_blocked hst
      · rw [(hstop p hlt).2 hex] at hst
        cases hst
  · exact ((hs.mem_ready _).1 hm).1.1 rfl
  · exact hs.master_not_blocked ((hs.mem_blocked _).1 hm).2.2
  · obtain ⟨r, hr, -⟩ := petCall_outcome hs (hc.admissible hs.toCore)
    exact ⟨r, hr⟩

/-- A thread blocked in a join on a ready one: each is in its own place. -/
theorem scheduler_partition_joined :
    clients.Reach (replayEvents petThreadInit [.create, .create, .create, .run, .join 2])
        (replay petThreadInit [.create, .create, .create, .run, .join 2]) ∧
      ∀ p ∈ [1, 2, 3], InOnePlace (replay petThreadInit [.create, .create, .create, .run, .join 2])
        p := by
  have hrun := reach_replay (fun s e => ClientCall s e.call)
    [.create, .create, .create, .run, .join 2] (by decide)
  have hall : ∀ p ∈ [1, 2, 3],
      Created (replay petThreadInit [.create, .create, .create, .run, .join 2]) p ∧
        ¬ Exited (replayEvents petThreadInit [.create, .create, .create, .run, .join 2]) p := by
    decide
  exact ⟨hrun, fun p hp => (scheduler_partition hrun).1 p (hall p hp).1 (hall p hp).2⟩

/-! ## Joins of the master thread -/

/-- The calls of clients whose master thread joins created threads as well. -/
def MasterJoinCall (s : Sched) : Call → Prop
  | .join id => ∃ p, Created s p ∧ id = threadIdOfCount p
  | call => ClientCall s call

instance (s : Sched) : (call : Call) → Decidable (MasterJoinCall s call)
  | .join id => inferInstanceAs (Decidable (∃ p, Created s p ∧ id = threadIdOfCount p))
  | .create => inferInstanceAs (Decidable (ClientCall s .create))
  | .schedule => inferInstanceAs (Decidable (ClientCall s .schedule))
  | .yieldTo id => inferInstanceAs (Decidable (ClientCall s (.yieldTo id)))
  | .run => inferInstanceAs (Decidable (ClientCall s .run))
  | .exit path v => inferInstanceAs (Decidable (ClientCall s (.exit path v)))

/-- The library when the master thread may join, too. -/
def masterJoins : Machine Sched Event := petThreads.guard fun s e => MasterJoinCall s e.call

/-- The master thread creates a thread and joins it; the thread exits. The master thread goes on
while it is still on the ready list, and the next `pet_thread_run` fails the assertion of
`pet_thread_schedule`. -/
theorem master_join_breaks_ready_list : ∃ es s,
    masterJoins.Reach es s ∧ es.map Event.call = [.create, .join 1, .exit .petThreadExit 5] ∧
      s.running ∈ s.readyList ∧ petCall s .run = .error (.assertion .scheduleReady) :=
  ⟨_, _, reach_replay (fun s e => MasterJoinCall s e.call)
    [.create, .join 1, .exit .petThreadExit 5] (by decide), by decide, by decide, rfl⟩

/-- A join of the master thread for which `get_thread` finds no thread. Every other call is fine. -/
def MasterJoinNotFound (s : Sched) (call : Call) : Prop :=
  s.running = masterDummyThread → ∀ id, call = .join id → getThread s id = none

instance (s : Sched) : (call : Call) → Decidable (MasterJoinNotFound s call)
  | .join id => decidable_of_iff (s.running = masterDummyThread → getThread s id = none)
      ⟨fun h hm _ hid => by cases hid; exact h hm, fun h hm => h hm id rfl⟩
  | .create => .isTrue fun _ _ => nofun
  | .schedule => .isTrue fun _ _ => nofun
  | .yieldTo _ => .isTrue fun _ _ => nofun
  | .run => .isTrue fun _ _ => nofun
  | .exit _ _ => .isTrue fun _ _ => nofun

theorem MasterJoinCall.admissible {s : Sched} (h : Core s) {call : Call}
    (hc : MasterJoinCall s call) (hn : MasterJoinNotFound s call) : Admissible s call := by
  cases call with
  | create => exact hc
  | join id =>
      obtain ⟨p, hp, rfl⟩ := hc
      exact ⟨h.id_ne_master hp, fun hm => hn hm _ rfl⟩
  | exit path v => exact hc
  | schedule => trivial
  | yieldTo id => trivial
  | run => trivial

/-- As long as no join of the master thread finds its target, the running thread is never on the
ready list and no assertion fails. -/
theorem master_join_safe_of_not_found {es : List Event} {s : Sched}
    (h : (masterJoins.guard fun s e => MasterJoinNotFound s e.call).Reach es s) :
    s.running ∉ s.readyList ∧
      ∀ call, MasterJoinCall s call → MasterJoinNotFound s call → ∃ r, petCall s call = .ok r := by
  have hs : Settled s := (runInv_of_reach
    (M := masterJoins.guard fun s e => MasterJoinNotFound s e.call) (fun _ hs => hs)
    (fun _ _ _ hs hst => ⟨hst.2.1.admissible hs.toCore hst.1, hst.2.2⟩) h).settled
  refine ⟨fun hm => hs.running_state ((hs.mem_ready _).1 hm).2, fun call hc hn => ?_⟩
  obtain ⟨r, hr, -⟩ := petCall_outcome hs (hc.admissible hs.toCore hn)
  exact ⟨r, hr⟩

/-- The master thread joins a thread that exited before the last one did: the join returns `-1`. -/
theorem master_join_safe_after_exits : ∃ es s,
    (masterJoins.guard fun s e => MasterJoinNotFound s e.call).Reach es s ∧
      es.map Event.call =
        [.create, .create, .run, .exit .petThreadExit 1, .exit .captureReturn 2, .join 1] ∧
      s.running ∉ s.readyList := by
  have hrun := Machine.Reach.guard_guard (reach_replay
    (fun s e => MasterJoinCall s e.call ∧ MasterJoinNotFound s e.call)
    [.create, .create, .run, .exit .petThreadExit 1, .exit .captureReturn 2, .join 1] (by decide))
  exact ⟨_, _, hrun, by decide, (master_join_safe_of_not_found hrun).1⟩

end PetKernel.UserThreads
