import PetKernel.UserThreads.Scheduler

/-!
# What a library call does to the scheduler

Each call that does more than to switch first brings the scheduler into a `Core` state, which has a
name here: `waitingOn` for `pet_thread_join`, `retired` for `__quarantine`. The equations
`petThreadJoin_eq`, `wakeWaiters_eq` and `quarantine_eq` say that the rest of the call is a
`pet_thread_schedule` from there. `petCall_outcome` puts them together: it is the one place where
the calls are taken apart.
-/

set_option autoImplicit false

namespace PetKernel.UserThreads

open PetKernel.Library

/-! ## Joining -/

/-- The running thread is put on the waiting list of `p` and marked `BLOCKED`. -/
def waitingOn (s : Sched) (p : ThreadPtr) : Sched :=
  (s.setState s.running .blocked).setWaiting p ((s.thread p).waitingForMeList ++ [s.running])

section Waiting

variable {s : Sched} {p : ThreadPtr}

theorem waitingOn_state (q : ThreadPtr) : ((waitingOn s p).thread q).state =
    if q = s.running then .blocked else (s.thread q).state := by
  simp only [waitingOn, Sched.setWaiting_thread, Sched.setState_thread]
  split <;> split <;> rfl

theorem waitingOn_id (q : ThreadPtr) : ((waitingOn s p).thread q).id = (s.thread q).id := by
  simp only [waitingOn, Sched.setWaiting_thread, Sched.setState_thread]
  split <;> split <;> rfl

theorem waitingOn_waiting (q : ThreadPtr) : ((waitingOn s p).thread q).waitingForMeList =
    if q = p then (s.thread p).waitingForMeList ++ [s.running]
      else (s.thread q).waitingForMeList := by
  simp only [waitingOn, Sched.setWaiting_thread, Sched.setState_thread]
  split <;> split <;> rfl

theorem mem_waitingOn_waiting (q w : ThreadPtr) :
    w ∈ ((waitingOn s p).thread q).waitingForMeList ↔
      w ∈ (s.thread q).waitingForMeList ∨ (q = p ∧ w = s.running) := by
  rw [waitingOn_waiting]
  by_cases hq : q = p
  · subst hq
    simp
  · simp [hq]

/-- A running thread is on no waiting list. -/
theorem Settled.running_not_waiting (h : Settled s) (q : ThreadPtr) :
    s.running ∉ (s.thread q).waitingForMeList := by
  intro hw
  have hb := (h.waiting_blocked q _ hw).2
  rw [h.running_running] at hb
  cases hb

theorem core_waitingOn (h : Settled s) (hr : s.running ≠ masterDummyThread) (hp : Created s p) :
    Core (waitingOn s p) where
  pos := h.pos
  few := h.few
  ids q hq := by rw [waitingOn_id]; exact h.ids q hq
  running_lt := h.running_lt
  running_state := by
    show ((waitingOn s p).thread s.running).state ≠ _
    rw [waitingOn_state, if_pos rfl]
    decide
  only_running q hq hs := by
    rw [waitingOn_state] at hs
    split at hs
    · cases hs
    · exact h.only_running q hq hs
  master_state := by
    rw [waitingOn_state, if_neg (Ne.symm hr)]
    exact h.master_state
  ready_nodup := h.ready_nodup
  mem_ready q := by
    rw [waitingOn_state]
    show q ∈ s.readyList ↔ _
    rw [h.mem_ready]
    by_cases hq : q = s.running
    · subst hq
      simp [h.running_running]
    · simp [hq, Created, waitingOn]
  blocked_nodup := h.blocked_nodup
  mem_blocked q := by
    rw [waitingOn_state]
    show q ∈ s.blockedList ↔ q ≠ s.running ∧ _
    rw [h.mem_blocked]
    by_cases hq : q = s.running
    · simp [hq]
    · simp [hq, waitingOn]
  stopped_state q hq := by
    obtain ⟨h1, h2, h3⟩ := h.stopped_state q hq
    refine ⟨h1, h2, ?_⟩
    rw [waitingOn_state, if_neg h1]
    exact h3
  waiting_blocked q w hw := by
    rw [waitingOn_state]
    rcases (mem_waitingOn_waiting q w).1 hw with hw | ⟨-, rfl⟩
    · have hne : w ≠ s.running := by
        rintro rfl
        exact h.running_not_waiting q hw
      rw [if_neg hne]
      exact h.waiting_blocked q w hw
    · exact ⟨h.running_lt, if_pos rfl⟩
  waiting_nodup q := by
    rw [waitingOn_waiting]
    split
    · apply List.Nodup.append (h.waiting_nodup p) (List.nodup_singleton _)
      simpa using h.running_not_waiting p
    · exact h.waiting_nodup q
  waiting_unique q r w hq hr' := by
    -- the running thread is put on one list and was on none
    rcases (mem_waitingOn_waiting q w).1 hq with hq | ⟨rfl, rfl⟩ <;>
      rcases (mem_waitingOn_waiting r _).1 hr' with hr' | ⟨hrp, hrw⟩
    · exact h.waiting_unique q r w hq hr'
    · subst hrw
      exact absurd hq (h.running_not_waiting q)
    · exact absurd hr' (h.running_not_waiting r)
    · exact hrp.symm
  blocked_waits w hw hb := by
    rw [waitingOn_state] at hb
    -- the running thread waits for `p`, the others for whom they waited before
    by_cases hwr : w = s.running
    · exact ⟨p, hp, (mem_waitingOn_waiting p w).2 (Or.inr ⟨rfl, hwr⟩)⟩
    · rw [if_neg hwr] at hb
      obtain ⟨q, hq, hmem⟩ := h.blocked_waits w hw hb
      exact ⟨q, hq, (mem_waitingOn_waiting q w).2 (Or.inl hmem)⟩

/-- A join on a descriptor that `get_thread` finds blocks the caller and looks for another
thread. -/
theorem petThreadJoin_eq (hrun : (s.thread s.running).state = .running) {id : PetThreadId}
    (hg : getThread s id = some p) (hp : p ≠ masterDummyThread) :
    petThreadJoin s id = petThreadSchedule (waitingOn s p) (.join id) := by
  have hw : ((s.setState s.running .blocked).thread p).waitingForMeList =
      (s.thread p).waitingForMeList := by
    rw [Sched.setState_thread]
    split <;> rfl
  unfold petThreadJoin
  simp only [hg, assert_of _ hrun, bind, Except.bind, if_neg hp, hw]
  rfl

end Waiting

/-! ## Exiting -/

/-- The waiters `ws` of the running thread are woken with the value `v`. -/
def woken (s : Sched) (v : VoidPtr) (ws : List ThreadPtr) : Sched :=
  { s with
    thread := fun q =>
      { s.thread q with
        state := if q ∈ ws then .ready else (s.thread q).state
        returnReciever := if q ∈ ws then v else (s.thread q).returnReciever
        waitingForMeList := if q = s.running then [] else (s.thread q).waitingForMeList }
    readyList := s.readyList ++ ws
    blockedList := s.blockedList.filter fun q => q ∉ ws }

/-- One turn of the loop of `__quarantine`. -/
private def wakeOne (s : Sched) (v : VoidPtr) (w : ThreadPtr) (ws : List ThreadPtr) : Sched :=
  { s with
    thread := fun q =>
      { s.thread q with
        state := if q = w then .ready else (s.thread q).state
        returnReciever := if q = w then v else (s.thread q).returnReciever
        waitingForMeList := if q = s.running then ws else (s.thread q).waitingForMeList }
    readyList := s.readyList ++ [w]
    blockedList := s.blockedList.erase w }

private theorem wakeWaiters_cons {s : Sched} {v : VoidPtr} {w : ThreadPtr} {ws : List ThreadPtr}
    (hst : (s.thread w).state = .blocked) (hb : w ∈ s.blockedList) (hr : w ∉ s.readyList) :
    wakeWaiters v (w :: ws) s = wakeWaiters v ws (wakeOne s v w ws) := by
  have hdel : ((s.setReturnReciever w v).setState w .ready).listDel w =
      .ok { (s.setReturnReciever w v).setState w .ready with
        blockedList := s.blockedList.erase w } := by
    unfold Sched.listDel
    exact (if_neg hr).trans (if_pos hb)
  rw [wakeWaiters]
  simp only [assert_of _ hst, bind, Except.bind, hdel]
  congr 1
  -- the two updates of the source touch one descriptor if a thread waits for itself
  refine Sched.ext rfl (funext fun q => ?_) rfl rfl rfl rfl rfl rfl
  rw [Sched.setWaiting_thread]
  by_cases hq : q = w
  · subst hq
    by_cases hqr : q = s.running <;>
      simp [Sched.setState, Sched.setReturnReciever, wakeOne, hqr]
  · by_cases hqr : q = s.running
    · subst hqr
      simp [Sched.setState, Sched.setReturnReciever, wakeOne, hq]
    · simp [Sched.setState, Sched.setReturnReciever, wakeOne, hq, hqr]

/-- The loop of `__quarantine` over waiters that are all blocked. -/
theorem wakeWaiters_eq (v : VoidPtr) :
    ∀ (ws : List ThreadPtr) (s : Sched), (s.thread s.running).waitingForMeList = ws →
      ws.Nodup → s.blockedList.Nodup →
      (∀ w ∈ ws, (s.thread w).state = .blocked ∧ w ∈ s.blockedList ∧ w ∉ s.readyList) →
        wakeWaiters v ws s = .ok (woken s v ws) := by
  intro ws
  -- each turn wakes the head of the list, which is blocked and stays so until its turn
  induction ws with
  | nil =>
      intro s hws _ _ _
      rw [wakeWaiters]
      congr 1
      refine Sched.ext rfl (funext fun q => ?_) (by simp [woken]) (by simp [woken]) rfl rfl rfl rfl
      by_cases hq : q = s.running
      · subst hq
        have heta : s.thread s.running = { s.thread s.running with waitingForMeList := [] } := by
          rw [← hws]
        simpa [woken] using heta
      · simp [woken, hq]
  | cons w ws ih =>
      intro s hws hnd hbnd hall
      obtain ⟨hwnot, hnd'⟩ := List.nodup_cons.1 hnd
      obtain ⟨hst, hb, hr⟩ := hall w List.mem_cons_self
      have hrest : ∀ w' ∈ ws, w' ≠ w := fun w' hw' e => hwnot (e ▸ hw')
      rw [wakeWaiters_cons hst hb hr, ih (wakeOne s v w ws) (by simp [wakeOne]) hnd' (hbnd.erase w)]
      · congr 1
        refine Sched.ext rfl (funext fun q => ?_) (by simp [woken, wakeOne]) ?_ rfl rfl rfl rfl
        · simp only [woken, wakeOne, List.mem_cons, PetThread.mk.injEq, true_and]
          refine ⟨?_, ?_, ?_⟩
          · by_cases hq : q = w <;> simp [hq]
          · split <;> rfl
          · by_cases hq : q = w <;> simp [hq]
        · simp only [woken, wakeOne, hbnd.erase_eq_filter, List.filter_filter]
          apply List.filter_congr
          intro q _
          by_cases hq : q = w <;> simp [hq]
      · intro w' hw'
        obtain ⟨hst', hb', hr'⟩ := hall w' (List.mem_cons_of_mem _ hw')
        have hne := hrest w' hw'
        exact ⟨by simp [wakeOne, hne, hst'], by simp [wakeOne, hbnd.mem_erase_iff, hne, hb'],
          by simp [wakeOne, hne, hr']⟩

/-- The state in which an exiting thread looks for another one to run. -/
def retired (s : Sched) (v : VoidPtr) : Sched :=
  (woken s v (s.thread s.running).waitingForMeList).setState s.running .stopped

section Exiting

variable {s : Sched} {v : VoidPtr}

theorem retired_id (q : ThreadPtr) : ((retired s v).thread q).id = (s.thread q).id := by
  simp only [retired, Sched.setState_thread]
  split <;> rfl

theorem retired_state (q : ThreadPtr) : ((retired s v).thread q).state =
    if q = s.running then .stopped
    else if q ∈ (s.thread s.running).waitingForMeList then .ready
    else (s.thread q).state := by
  simp only [retired, Sched.setState_thread]
  split <;> rfl

theorem retired_waiting (q : ThreadPtr) : ((retired s v).thread q).waitingForMeList =
    if q = s.running then [] else (s.thread q).waitingForMeList := by
  simp only [retired, Sched.setState_thread]
  split <;> simp_all [woken]

/-- A thread that stays blocked is not a waiter of the exiting one. -/
theorem retired_state_eq_blocked (h : Settled s) (q : ThreadPtr) :
    ((retired s v).thread q).state = .blocked ↔
      (s.thread q).state = .blocked ∧ q ∉ (s.thread s.running).waitingForMeList := by
  rw [retired_state]
  by_cases hq : q = s.running
  · subst hq
    simp [h.running_running]
  · by_cases hw : q ∈ (s.thread s.running).waitingForMeList
    · simp [hq, hw]
    · simp [hq, hw]

theorem core_retired (h : Settled s) (hr : s.running ≠ masterDummyThread) : Core (retired s v) where
  pos := h.pos
  few := h.few
  ids q hq := by rw [retired_id]; exact h.ids q hq
  running_lt := h.running_lt
  running_state := by
    show ((retired s v).thread s.running).state ≠ _
    rw [retired_state, if_pos rfl]
    decide
  only_running q hq hs := by
    rw [retired_state] at hs
    split at hs
    · cases hs
    · split at hs
      · cases hs
      · exact h.only_running q hq hs
  master_state := by
    rw [retired_state, if_neg (Ne.symm hr), if_neg (h.master_not_waiting _)]
    exact h.master_state
  ready_nodup := by
    apply List.Nodup.append h.ready_nodup (h.waiting_nodup _)
    intro q hq hw
    have hb := (h.waiting_blocked _ _ hw).2
    rw [((h.mem_ready q).1 hq).2] at hb
    cases hb
  mem_ready q := by
    show q ∈ s.readyList ++ (s.thread s.running).waitingForMeList ↔ _
    rw [List.mem_append, h.mem_ready, retired_state]
    -- the running thread is not `READY`, and those that waited for it have become so
    by_cases hq : q = s.running
    · subst hq
      simp [h.running_running, h.running_not_waiting]
    · by_cases hw : q ∈ (s.thread s.running).waitingForMeList
      · have hq0 : q ≠ masterDummyThread := by
          rintro rfl
          exact h.master_not_waiting _ hw
        simp only [hq, hw, if_true, if_false, or_true, true_iff, and_true]
        exact ⟨hq0, (h.waiting_blocked _ _ hw).1⟩
      · simp [hq, hw, Created, retired, woken]
  blocked_nodup := h.blocked_nodup.filter _
  mem_blocked q := by
    rw [retired_state_eq_blocked h]
    show q ∈ s.blockedList.filter _ ↔ q ≠ s.running ∧ q < s.threadIdCount ∧ _
    rw [List.mem_filter, h.mem_blocked]
    simp [and_assoc]
  stopped_state q hq := by
    obtain ⟨h1, h2, h3⟩ := h.stopped_state q hq
    refine ⟨h1, h2, ?_⟩
    have hw : q ∉ (s.thread s.running).waitingForMeList := by
      intro hmem
      rw [(h.waiting_blocked _ _ hmem).2] at h3
      cases h3
    rw [retired_state, if_neg h1, if_neg hw]
    exact h3
  waiting_blocked q w hw := by
    rw [retired_waiting] at hw
    rw [retired_state_eq_blocked h]
    split at hw
    · cases hw
    · rename_i hq
      -- a thread that waits for another one is not woken, since it is on one list only
      obtain ⟨hlt, hb⟩ := h.waiting_blocked q w hw
      exact ⟨hlt, hb, fun hmem => hq (h.waiting_unique _ _ w hw hmem)⟩
  waiting_nodup q := by
    rw [retired_waiting]
    split
    · exact List.nodup_nil
    · exact h.waiting_nodup q
  waiting_unique q r w hq hr' := by
    rw [retired_waiting] at hq hr'
    split at hq
    · cases hq
    · split at hr'
      · cases hr'
      · exact h.waiting_unique q r w hq hr'
  blocked_waits w hw hb := by
    obtain ⟨hb, hnot⟩ := (retired_state_eq_blocked h w).1 hb
    obtain ⟨p, hp, hmem⟩ := h.blocked_waits w hw hb
    have hpr : p ≠ s.running := by
      rintro rfl
      exact hnot hmem
    refine ⟨p, hp, ?_⟩
    rw [retired_waiting, if_neg hpr]
    exact hmem

/-- The loop of `__quarantine` wakes all waiters of the running thread. -/
theorem Settled.wakeWaiters (h : Settled s) (v : VoidPtr) :
    wakeWaiters v (s.thread s.running).waitingForMeList s =
      .ok (woken s v (s.thread s.running).waitingForMeList) := by
  apply wakeWaiters_eq v _ s rfl (h.waiting_nodup _) h.blocked_nodup
  intro w hw
  obtain ⟨hlt, hb⟩ := h.waiting_blocked _ _ hw
  have hne : w ≠ s.running := fun e => h.running_not_waiting s.running (e ▸ hw)
  refine ⟨hb, (h.mem_blocked w).2 ⟨hne, hlt, hb⟩, fun hready => ?_⟩
  rw [((h.mem_ready w).1 hready).2] at hb
  cases hb

/-- An exit wakes all waiters and looks for another thread. -/
theorem quarantine_eq_of_wake
    (hwake : wakeWaiters v (s.thread s.running).waitingForMeList s =
      .ok (woken s v (s.thread s.running).waitingForMeList))
    (hrun : (s.thread s.running).state = .running)
    (hnot : s.running ∉ (s.thread s.running).waitingForMeList) (hr : s.running ≠ masterDummyThread)
    (call : Call) : quarantine s v call = petThreadSchedule (retired s v) call := by
  unfold quarantine
  simp only [hwake, bind, Except.bind]
  rw [assert_of _ (by simp [woken]), assert_of _ (by simp [woken, hnot, hrun]),
    assert_of _ (show (woken s v _).running ≠ masterDummyThread from hr)]
  rfl

theorem quarantine_eq (h : Settled s) (hr : s.running ≠ masterDummyThread) (call : Call) :
    quarantine s v call = petThreadSchedule (retired s v) call :=
  quarantine_eq_of_wake (h.wakeWaiters v) h.running_running (h.running_not_waiting _) hr call

end Exiting

/-! ## One call -/

section Creating

variable {s : Sched}

theorem petThreadCreate_thread_new : (petThreadCreate s).1.thread s.threadIdCount =
    ⟨threadIdOfCount s.threadIdCount, .ready, [], 0⟩ :=
  Function.update_self _ _ _

theorem petThreadCreate_thread_of_ne {p : ThreadPtr} (hp : p ≠ s.threadIdCount) :
    (petThreadCreate s).1.thread p = s.thread p :=
  Function.update_of_ne hp _ _

theorem petThreadCreate_thread_of_lt {p : ThreadPtr} (hp : p < s.threadIdCount) :
    (petThreadCreate s).1.thread p = s.thread p :=
  petThreadCreate_thread_of_ne (Nat.ne_of_lt hp)

theorem lt_petThreadCreate_iff {p : ThreadPtr} : p < (petThreadCreate s).1.threadIdCount ↔
    p < s.threadIdCount ∨ p = s.threadIdCount :=
  Nat.lt_succ_iff_lt_or_eq

/-- Nobody waits for the new thread. -/
theorem mem_petThreadCreate_waiting {p w : ThreadPtr}
    (hw : w ∈ ((petThreadCreate s).1.thread p).waitingForMeList) :
    w ∈ (s.thread p).waitingForMeList := by
  by_cases hp : p = s.threadIdCount
  · subst hp
    rw [petThreadCreate_thread_new] at hw
    cases hw
  · rw [petThreadCreate_thread_of_ne hp] at hw
    exact hw

theorem settled_petThreadCreate (h : Settled s) (hn : s.threadIdCount < 2 ^ 31) :
    Settled (petThreadCreate s).1 where
  pos := Nat.succ_pos _
  few := hn
  ids p hp := by
    rcases lt_petThreadCreate_iff.1 hp with hp | rfl
    · rw [petThreadCreate_thread_of_lt hp]
      exact h.ids p hp
    · rw [petThreadCreate_thread_new]
  running_lt := Nat.lt_succ_of_lt h.running_lt
  running_state := by
    show ((petThreadCreate s).1.thread s.running).state ≠ _
    rw [petThreadCreate_thread_of_lt h.running_lt]
    exact h.running_state
  only_running p hp hs := by
    rcases lt_petThreadCreate_iff.1 hp with hp | rfl
    · rw [petThreadCreate_thread_of_lt hp] at hs
      exact h.only_running p hp hs
    · rw [petThreadCreate_thread_new] at hs
      cases hs
  master_state := by
    rw [petThreadCreate_thread_of_lt h.pos]
    exact h.master_state
  ready_nodup := by
    apply List.Nodup.append h.ready_nodup (List.nodup_singleton _)
    intro p hp hp'
    rw [List.mem_singleton] at hp'
    exact Nat.ne_of_lt ((h.mem_ready p).1 hp).1.2 hp'
  mem_ready p := by
    show p ∈ s.readyList ++ [s.threadIdCount] ↔ _
    rw [List.mem_append, List.mem_singleton, h.mem_ready, Created, Created, lt_petThreadCreate_iff]
    by_cases hp : p = s.threadIdCount
    · -- the new thread is `READY` and is not the master thread
      subst hp
      simp [petThreadCreate_thread_new, Nat.ne_of_gt h.pos]
    · rw [petThreadCreate_thread_of_ne hp]
      simp [hp]
  blocked_nodup := h.blocked_nodup
  mem_blocked p := by
    show p ∈ s.blockedList ↔ p ≠ s.running ∧ _
    rw [h.mem_blocked, lt_petThreadCreate_iff]
    by_cases hp : p = s.threadIdCount
    · subst hp
      simp [petThreadCreate_thread_new]
    · rw [petThreadCreate_thread_of_ne hp]
      simp [hp]
  stopped_state p hp := by
    obtain ⟨hne, hlt, hstate⟩ := h.stopped_state p hp
    refine ⟨hne, Nat.lt_succ_of_lt hlt, ?_⟩
    rw [petThreadCreate_thread_of_lt hlt]
    exact hstate
  waiting_blocked p w hw := by
    obtain ⟨hlt, hb⟩ := h.waiting_blocked p w (mem_petThreadCreate_waiting hw)
    refine ⟨Nat.lt_succ_of_lt hlt, ?_⟩
    rw [petThreadCreate_thread_of_lt hlt]
    exact hb
  waiting_nodup p := by
    by_cases hp : p = s.threadIdCount
    · subst hp
      rw [petThreadCreate_thread_new]
      exact List.nodup_nil
    · rw [petThreadCreate_thread_of_ne hp]
      exact h.waiting_nodup p
  waiting_unique p q w hp hq :=
    h.waiting_unique p q w (mem_petThreadCreate_waiting hp) (mem_petThreadCreate_waiting hq)
  blocked_waits w hw hb := by
    rcases lt_petThreadCreate_iff.1 hw with hw | rfl
    · rw [petThreadCreate_thread_of_lt hw] at hb
      obtain ⟨p, hp, hmem⟩ := h.blocked_waits w hw hb
      refine ⟨p, ⟨hp.1, Nat.lt_succ_of_lt hp.2⟩, ?_⟩
      rw [petThreadCreate_thread_of_lt hp.2]
      exact hmem
    · -- the new thread is not `BLOCKED`
      rw [petThreadCreate_thread_new] at hb
      cases hb
  running_running := by
    show ((petThreadCreate s).1.thread s.running).state = _
    rw [petThreadCreate_thread_of_lt h.running_lt]
    exact h.running_running

end Creating

/-- What is asked of a call so that the library can carry it out: fewer than `2 ^ 31` threads are
created, no join names the master thread, and the master thread neither exits nor joins a thread
that `get_thread` finds. -/
def Admissible (s : Sched) : Call → Prop
  | .create => s.threadIdCount < 2 ^ 31
  | .join id => id ≠ petMasterThreadId ∧ (s.running = masterDummyThread → getThread s id = none)
  | .exit _ _ => s.running ≠ masterDummyThread
  | .schedule => True
  | .yieldTo _ => True
  | .run => True

/-- `Prepared s call s₁`: the state `s₁` in which `call` looks for a thread to switch to. -/
inductive Prepared (s : Sched) : Call → Sched → Prop where
  | schedule : Prepared s .schedule s
  | yieldTo (id : PetThreadId) : Prepared s (.yieldTo id) s
  | run : Prepared s .run s
  | join {id : PetThreadId} {p : ThreadPtr} : getThread s id = some p → Created s p →
      s.running ≠ masterDummyThread → Prepared s (.join id) (waitingOn s p)
  | exit (path : ExitPath) (v : VoidPtr) : s.running ≠ masterDummyThread →
      Prepared s (.exit path v) (retired s v)

/-- Everything that a call can do. -/
inductive Outcome (s : Sched) : Call → Sched × Option Return → Prop where
  | created : Outcome s .create ((petThreadCreate s).1, some (petThreadCreate s).2)
  | notFound {id : PetThreadId} : getThread s id = none →
      Outcome s (.join id) (s, some ⟨s.running, .join id, -1, none⟩)
  | idle {call : Call} : Prepared s call s → s.readyList = [] → s.running = masterDummyThread →
      Outcome s call (s, some (returnFrom s ⟨call, 0⟩))
  | switch {call : Call} {s₁ : Sched} {tgt : ThreadPtr} {ret : Int} : Prepared s call s₁ →
      Target s₁ tgt →
      (tgt = masterDummyThread → s₁.readyList = [] ∨ call = .yieldTo petMasterThreadId) →
      (call ≠ .schedule → ret = 0) →
      Outcome s call (resume (dispatched s₁ tgt ⟨call, ret⟩))

theorem Prepared.core {s s₁ : Sched} {call : Call} (hp : Prepared s call s₁) (h : Settled s) :
    Core s₁ := by
  cases hp with
  | schedule => exact h.toCore
  | yieldTo id => exact h.toCore
  | run => exact h.toCore
  | join hg hc hr => exact core_waitingOn h hr hc
  | exit path v hr => exact core_retired h hr

/-- The master thread finds nothing to run only in a call that left the state as it was. -/
theorem Prepared.eq_of_master {s s₁ : Sched} {call : Call} (hp : Prepared s call s₁)
    (hr : s₁.running = masterDummyThread) : s₁ = s := by
  cases hp with
  | schedule => rfl
  | yieldTo id => rfl
  | run => rfl
  | join hg hc hr' => exact absurd hr hr'
  | exit path v hr' => exact absurd hr hr'

theorem Prepared.schedule_outcome {s s₁ : Sched} {call : Call} (hp : Prepared s call s₁)
    (h : Settled s) : ∃ r, petThreadSchedule s₁ call = .ok r ∧ Outcome s call r := by
  rcases petThreadSchedule_outcome (hp.core h) call with ⟨hrl, hr, heq⟩ |
    ⟨tgt, ret, ht, hm, hret, heq⟩
  · have hs := hp.eq_of_master hr
    subst hs
    exact ⟨_, heq, .idle hp hrl hr⟩
  · exact ⟨_, heq, .switch hp ht (fun h => Or.inl (hm.1 h)) hret⟩

/-- Every admissible call of a running thread passes all assertions and ends in one of the listed
outcomes. -/
theorem petCall_outcome {s : Sched} (h : Settled s) {call : Call} (ha : Admissible s call) :
    ∃ r, petCall s call = .ok r ∧ Outcome s call r := by
  cases call with
  | create => exact ⟨_, rfl, .created⟩
  | schedule => exact Prepared.schedule.schedule_outcome h
  | run => exact Prepared.run.schedule_outcome h
  | yieldTo id =>
      show ∃ r, yieldTo s (getThread s id) (.yieldTo id) = .ok r ∧ _
      cases hg : getThread s id with
      | none => exact (Prepared.yieldTo id).schedule_outcome h
      | some tgt =>
          unfold yieldTo
          by_cases hst : (s.thread tgt).state = .ready
          · obtain ⟨hk, hid⟩ := getThread_sound h.idsOk hg
            have ht : Target s tgt := ⟨h.idsOk.known_lt tgt hk, hst⟩
            refine ⟨_, (if_neg (not_not.2 hst)).trans (threadInvoker_eq h.toCore ht),
              .switch (.yieldTo id) ht (fun h0 => Or.inr ?_) fun _ => rfl⟩
            rw [hid, h0]
            rfl
          · obtain ⟨r, hr, ho⟩ := (Prepared.yieldTo id).schedule_outcome h
            exact ⟨r, (if_pos hst).trans hr, ho⟩
  | join id =>
      obtain ⟨hid, hmaster⟩ := ha
      cases hg : getThread s id with
      | none => exact ⟨_, by simp [petCall, petThreadJoin, hg], .notFound hg⟩
      | some p =>
          obtain ⟨hk, hidp⟩ := getThread_sound h.idsOk hg
          have hp : p ≠ masterDummyThread := by
            rintro rfl
            exact hid hidp
          have hr : s.running ≠ masterDummyThread := by
            intro hr
            rw [hmaster hr] at hg
            cases hg
          obtain ⟨r, hr', ho⟩ :=
            (Prepared.join hg ⟨hp, h.idsOk.known_lt p hk⟩ hr).schedule_outcome h
          exact ⟨r, (petThreadJoin_eq h.running_running hg hp).trans hr', ho⟩
  | exit path v =>
      obtain ⟨r, hr, ho⟩ := (Prepared.exit path v ha).schedule_outcome h
      cases path <;> exact ⟨r, (quarantine_eq h ha _).trans hr, ho⟩

/-- An admissible call keeps the bookkeeping. -/
theorem Outcome.settled {s : Sched} {call : Call} {r : Sched × Option Return}
    (ho : Outcome s call r) (h : Settled s) (ha : Admissible s call) : Settled r.1 := by
  cases ho with
  | created => exact settled_petThreadCreate h ha
  | notFound _ => exact h
  | idle _ _ _ => exact h
  | switch hp ht _ _ => exact (settled_dispatched (hp.core h) ht).resume

end PetKernel.UserThreads
