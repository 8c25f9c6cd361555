import PetKernel.UserThreads.Calls

/-!
# Runs of the thread library

Which calls the programs of the repository make (`ClientCall`), which threads have exited in a run
(`Exited`), and the replay of a fixed list of calls, from which concrete runs are built.
-/

set_option autoImplicit false

namespace PetKernel.UserThreads

open PetKernel.Library

/-! ## Callers -/

/-- The calls that the running thread may make: `pet_thread_run` only in the master thread, join and
exit only in created threads, a join only on the id of a created thread. Fewer than `2 ^ 31` threads
are created. -/
def ClientCall (s : Sched) : Call → Prop
  | .create => s.threadIdCount < 2 ^ 31
  | .schedule => True
  | .yieldTo _ => True
  | .run => s.running = masterDummyThread
  | .join id => s.running ≠ masterDummyThread ∧ ∃ p, Created s p ∧ id = threadIdOfCount p
  | .exit _ _ => s.running ≠ masterDummyThread

theorem exists_created_iff (s : Sched) (id : PetThreadId) :
    (∃ p ∈ List.range s.threadIdCount, Created s p ∧ id = threadIdOfCount p) ↔
      ∃ p, Created s p ∧ id = threadIdOfCount p := by
  constructor
  · rintro ⟨p, -, h⟩
    exact ⟨p, h⟩
  · rintro ⟨p, h⟩
    exact ⟨p, List.mem_range.2 h.1.2, h⟩

instance (s : Sched) (id : PetThreadId) : Decidable (∃ p, Created s p ∧ id = threadIdOfCount p) :=
  decidable_of_iff _ (exists_created_iff s id)

instance (s : Sched) : (call : Call) → Decidable (ClientCall s call)
  | .create => inferInstanceAs (Decidable (s.threadIdCount < 2 ^ 31))
  | .schedule => .isTrue trivial
  | .yieldTo _ => .isTrue trivial
  | .run => inferInstanceAs (Decidable (s.running = masterDummyThread))
  | .join id => inferInstanceAs (Decidable (s.running ≠ masterDummyThread ∧
      ∃ p, Created s p ∧ id = threadIdOfCount p))
  | .exit _ _ => inferInstanceAs (Decidable (s.running ≠ masterDummyThread))

/-- The library as its clients use it. -/
def clients : Machine Sched Event := petThreads.guard fun s e => ClientCall s e.call

theorem Core.id_ne_master {s : Sched} (h : Core s) {p : ThreadPtr} (hp : Created s p) :
    threadIdOfCount p ≠ petMasterThreadId := by
  intro hid
  exact hp.1 ((threadIdOfCount_eq_master_iff (Nat.lt_of_lt_of_le hp.2 h.few)).1 hid)

theorem ClientCall.admissible {s : Sched} (h : Core s) {call : Call} (hc : ClientCall s call) :
    Admissible s call := by
  cases call with
  | create => exact hc
  | join id =>
      obtain ⟨hr, p, hp, rfl⟩ := hc
      exact ⟨h.id_ne_master hp, fun hm => absurd hm hr⟩
  | exit path v => exact hc
  | schedule => trivial
  | yieldTo id => trivial
  | run => trivial

/-! ## Exits -/

/-- The value with which a call ends its thread. -/
def Call.exitValue : Call → Option VoidPtr
  | .exit _ v => some v
  | _ => none

/-- `p` has exited in a run with the events `es`. -/
def Exited (es : List Event) (p : ThreadPtr) : Prop :=
  ∃ e ∈ es, e.caller = p ∧ e.call.exitValue ≠ none

instance (es : List Event) (p : ThreadPtr) : Decidable (Exited es p) :=
  inferInstanceAs (Decidable (∃ e ∈ es, e.caller = p ∧ e.call.exitValue ≠ none))

theorem exited_append_singleton (es : List Event) (e : Event) (p : ThreadPtr) :
    Exited (es ++ [e]) p ↔ Exited es p ∨ (e.caller = p ∧ e.call.exitValue ≠ none) := by
  constructor
  · rintro ⟨e', he', h⟩
    rcases List.mem_append.1 he' with he' | he'
    · exact Or.inl ⟨e', he', h⟩
    · rw [List.mem_singleton] at he'
      subst he'
      exact Or.inr h
  · rintro (⟨e', he', h⟩ | h)
    · exact ⟨e', List.mem_append_left _ he', h⟩
    · exact ⟨e, List.mem_append_right _ (List.mem_singleton_self e), h⟩

/-- A thread is marked `STOPPED` by its own exit and by nothing else. -/
theorem Prepared.state_eq_stopped {s s₁ : Sched} {call : Call} (hp : Prepared s call s₁)
    (h : Settled s) (p : ThreadPtr) : (s₁.thread p).state = .stopped ↔
      (s.thread p).state = .stopped ∨ (s.running = p ∧ call.exitValue ≠ none) := by
  cases hp with
  | schedule => simp [Call.exitValue]
  | yieldTo id => simp [Call.exitValue]
  | run => simp [Call.exitValue]
  | join hg hc hr =>
      rw [waitingOn_state]
      by_cases hpr : p = s.running
      · subst hpr
        simp [h.running_running, Call.exitValue]
      · simp [hpr, Call.exitValue]
  | exit path v hr =>
      rw [retired_state]
      by_cases hpr : p = s.running
      · simp [hpr, Call.exitValue]
      · rw [if_neg hpr]
        by_cases hw : p ∈ (s.thread s.running).waitingForMeList
        · have hb := (h.waiting_blocked _ _ hw).2
          simp [hw, hb, Ne.symm hpr]
        · simp [hw, Ne.symm hpr]

theorem dispatched_state_eq_stopped {s : Sched} {tgt : ThreadPtr} {fr : Frame} (ht : Target s tgt)
    (p : ThreadPtr) :
    ((dispatched s tgt fr).thread p).state = .stopped ↔ (s.thread p).state = .stopped := by
  show ((switched s tgt fr).thread p).state = .stopped ↔ _
  rw [switched_state]
  by_cases hp : p = tgt
  · subst hp
    simp [ht.ready]
  · rw [if_neg hp]
    by_cases hr : p = s.running ∧ (s.thread p).state = .running
    · rw [if_pos hr, hr.2]
      simp
    · rw [if_neg hr]

theorem resume_thread (s : Sched) : (resume s).1.thread = s.thread := by
  unfold resume
  split <;> rfl

theorem resume_running (s : Sched) : (resume s).1.running = s.running := by
  unfold resume
  split <;> rfl

theorem resume_readyList (s : Sched) : (resume s).1.readyList = s.readyList := by
  unfold resume
  split <;> rfl

theorem resume_threadIdCount (s : Sched) : (resume s).1.threadIdCount = s.threadIdCount := by
  unfold resume
  split <;> rfl

theorem Prepared.threadIdCount_eq {s s₁ : Sched} {call : Call} (hp : Prepared s call s₁) :
    s₁.threadIdCount = s.threadIdCount := by
  cases hp <;> rfl

theorem Outcome.state_eq_stopped {s : Sched} {call : Call} {r : Sched × Option Return}
    (ho : Outcome s call r) (h : Settled s) {p : ThreadPtr} (hp : p < s.threadIdCount) :
    (r.1.thread p).state = .stopped ↔
      (s.thread p).state = .stopped ∨ (s.running = p ∧ call.exitValue ≠ none) := by
  cases ho with
  | created =>
      have hne : p ≠ s.threadIdCount := Nat.ne_of_lt hp
      simp [petThreadCreate, Function.update_of_ne hne, Call.exitValue]
  | notFound _ => simp [Call.exitValue]
  | idle hprep _ _ => exact hprep.state_eq_stopped h p
  | switch hprep ht _ _ =>
      rw [resume_thread, dispatched_state_eq_stopped ht]
      exact hprep.state_eq_stopped h p

/-- A call creates one thread, which is then ready, or none. -/
theorem Outcome.threadIdCount_cases {s : Sched} {call : Call} {r : Sched × Option Return}
    (ho : Outcome s call r) : r.1.threadIdCount = s.threadIdCount ∨
      (r.1.threadIdCount = s.threadIdCount + 1 ∧
        (r.1.thread s.threadIdCount).state = .ready ∧ call = .create) := by
  cases ho with
  | created => exact Or.inr ⟨rfl, by simp [petThreadCreate], rfl⟩
  | notFound _ => exact Or.inl rfl
  | idle _ _ _ => exact Or.inl rfl
  | switch hprep _ _ _ =>
      left
      rw [resume_threadIdCount]
      exact hprep.threadIdCount_eq

theorem Outcome.threadIdCount_le {s : Sched} {call : Call} {r : Sched × Option Return}
    (ho : Outcome s call r) : s.threadIdCount ≤ r.1.threadIdCount := by
  rcases ho.threadIdCount_cases with hc | ⟨hc, -⟩
  · exact Nat.le_of_eq hc.symm
  · exact Nat.le_of_lt (Nat.lt_of_lt_of_eq (Nat.lt_succ_self _) hc.symm)

/-! ## The invariant of a run -/

/-- In a run, the bookkeeping is in order and the stopped threads are those that have exited. -/
structure RunInv (es : List Event) (s : Sched) : Prop where
  settled : Settled s
  exited_lt : ∀ p, Exited es p → p < s.threadIdCount
  stopped_iff : ∀ p, p < s.threadIdCount → ((s.thread p).state = .stopped ↔ Exited es p)

theorem runInv_petThreadInit : RunInv [] petThreadInit where
  settled := settled_petThreadInit
  exited_lt p := by
    rintro ⟨e, he, -⟩
    cases he
  stopped_iff p hp := by
    have hp0 : p = 0 := Nat.lt_one_iff.1 hp
    subst hp0
    constructor
    · intro h
      cases h
    · rintro ⟨e, he, -⟩
      cases he

theorem RunInv.step {es : List Event} {s t : Sched} {e : Event} (h : RunInv es s)
    (ha : Admissible s e.call) (hst : petThreads.step s e t) : RunInv (es ++ [e]) t := by
  obtain ⟨hcaller, heq⟩ := hst
  obtain ⟨r, hr, ho⟩ := petCall_outcome h.settled ha
  rw [heq] at hr
  cases hr
  have hle : s.threadIdCount ≤ t.threadIdCount := ho.threadIdCount_le
  refine ⟨ho.settled h.settled ha, fun p hp => ?_, fun p hp => ?_⟩
  · rw [exited_append_singleton] at hp
    rcases hp with hp | ⟨rfl, -⟩
    · exact Nat.lt_of_lt_of_le (h.exited_lt p hp) hle
    · rw [hcaller]
      exact Nat.lt_of_lt_of_le h.settled.running_lt hle
  · rw [exited_append_singleton, hcaller]
    by_cases hlt : p < s.threadIdCount
    · rw [← h.stopped_iff p hlt]
      exact ho.state_eq_stopped h.settled hlt
    · -- the thread was created by this very call
      rcases ho.threadIdCount_cases with hc | ⟨hc, hready, hcall⟩
      · exact absurd (Nat.lt_of_lt_of_eq hp hc) hlt
      · have hpn : p = s.threadIdCount :=
          Nat.le_antisymm (Nat.lt_succ_iff.1 (Nat.lt_of_lt_of_eq hp hc)) (Nat.le_of_not_lt hlt)
        subst hpn
        rw [hready, hcall]
        constructor
        · intro hcon
          cases hcon
        · rintro (hex | ⟨-, hv⟩)
          · exact absurd (h.exited_lt _ hex) hlt
          · exact absurd rfl hv

theorem runInv_of_reach {M : Machine Sched Event} (hinit : ∀ s, M.init s → s = petThreadInit)
    (hstep : ∀ s e t, Settled s → M.step s e t → Admissible s e.call ∧ petThreads.step s e t)
    {es : List Event} {s : Sched} (h : M.Reach es s) : RunInv es s := by
  refine h.history (fun s hs => ?_) fun es s e t _ hinv hst => ?_
  · rw [hinit s hs]
    exact runInv_petThreadInit
  · obtain ⟨ha, hst'⟩ := hstep s e t hinv.settled hst
    exact hinv.step ha hst'

theorem clients_runInv {es : List Event} {s : Sched} (h : clients.Reach es s) : RunInv es s :=
  runInv_of_reach (M := clients) (fun _ hs => hs)
    (fun _ _ _ hs hst => ⟨hst.1.admissible hs.toCore, hst.2⟩) h

/-! ## Suspended calls -/

theorem Prepared.suspended_eq {s s₁ : Sched} {call : Call} (hp : Prepared s call s₁) :
    s₁.suspended = s.suspended := by
  cases hp <;> rfl

theorem Prepared.running_eq {s s₁ : Sched} {call : Call} (hp : Prepared s call s₁) :
    s₁.running = s.running := by
  cases hp <;> rfl

/-- After a switch the thread that was left is suspended and the target is not. -/
theorem resume_dispatched_suspended {s : Sched} {tgt : ThreadPtr} {fr : Frame} (h : Core s)
    (ht : Target s tgt) (p : ThreadPtr) : (resume (dispatched s tgt fr)).1.suspended p =
      if p = tgt then none else if p = s.running then some fr else s.suspended p := by
  have hd : ∀ q, (dispatched s tgt fr).suspended q =
      if q = s.running then some fr else s.suspended q := by
    intro q
    simp only [dispatched, switched, Function.update_apply]
  have hrun : (dispatched s tgt fr).running = tgt := rfl
  have hne := ht.ne_running h
  unfold resume
  rw [hrun]
  by_cases hp : p = tgt
  · subst hp
    split
    · next hnone => simpa using hnone
    · simp
  · split
    · rw [hd, if_neg hp]
    · simp only [Function.update_of_ne hp, hd, if_neg hp]

/-- A thread is suspended in the call that it made itself. -/
theorem Outcome.suspended_cases {s : Sched} {call : Call} {r : Sched × Option Return}
    (ho : Outcome s call r) (h : Settled s) {p : ThreadPtr} {fr : Frame}
    (hp : r.1.suspended p = some fr) :
    s.suspended p = some fr ∨ (p = s.running ∧ fr.call = call) := by
  cases ho with
  | created =>
      by_cases hpn : p = s.threadIdCount
      · subst hpn
        simp [petThreadCreate] at hp
      · simp only [petThreadCreate, Function.update_of_ne hpn] at hp
        exact Or.inl hp
  | notFound _ => exact Or.inl hp
  | idle _ _ _ => exact Or.inl hp
  | @switch call s₁ tgt ret hprep ht _ hret =>
      rw [resume_dispatched_suspended (hprep.core h) ht, hprep.running_eq, hprep.suspended_eq] at hp
      split at hp
      · cases hp
      · split at hp
        · next hpr =>
            cases hp
            exact Or.inr ⟨hpr, rfl⟩
        · exact Or.inl hp

/-- What returns to user code after a switch is the call that the target was suspended in. -/
theorem resume_dispatched_returned {s : Sched} {tgt : ThreadPtr} {fr : Frame} (h : Core s)
    (ht : Target s tgt) : (resume (dispatched s tgt fr)).2 =
      (s.suspended tgt).map (returnFrom (dispatched s tgt fr)) := by
  have hsusp : (dispatched s tgt fr).suspended (dispatched s tgt fr).running = s.suspended tgt :=
    Function.update_of_ne (ht.ne_running h) _ _
  unfold resume
  rw [hsusp]
  cases s.suspended tgt <;> rfl

/-! ## Replaying calls -/

/-- The state and the event of one call; a call that ends the program changes nothing here. -/
def replayStep (s : Sched) (call : Call) : Sched × Event :=
  match petCall s call with
  | .ok r => (r.1, ⟨s.running, call, r.2⟩)
  | .error _ => (s, ⟨s.running, call, none⟩)

/-- The state after the calls of a list. -/
def replay : Sched → List Call → Sched
  | s, [] => s
  | s, call :: calls => replay (replayStep s call).1 calls

/-- The events of the calls of a list. -/
def replayEvents : Sched → List Call → List Event
  | _, [] => []
  | s, call :: calls => (replayStep s call).2 :: replayEvents (replayStep s call).1 calls

/-- Every call of the list is allowed and none ends the program. -/
def ReplayOk (ok : Sched → Event → Prop) : Sched → List Call → Prop
  | _, [] => True
  | s, call :: calls =>
      (petCall s call).isOk = true ∧ ok s (replayStep s call).2 ∧
        ReplayOk ok (replayStep s call).1 calls

instance instDecidableReplayOk (ok : Sched → Event → Prop) [∀ s e, Decidable (ok s e)] :
    (s : Sched) → (calls : List Call) → Decidable (ReplayOk ok s calls)
  | _, [] => .isTrue trivial
  | s, call :: calls =>
      have := instDecidableReplayOk ok (replayStep s call).1 calls
      inferInstanceAs (Decidable (_ ∧ _ ∧ _))

theorem replayStep_step {s : Sched} {call : Call} (h : (petCall s call).isOk = true) :
    petThreads.step s (replayStep s call).2 (replayStep s call).1 := by
  unfold replayStep
  cases hc : petCall s call with
  | error f =>
      rw [hc] at h
      cases h
  | ok r => exact ⟨rfl, hc⟩

theorem reach_replay_from {ok : Sched → Event → Prop} :
    ∀ (calls : List Call) (es : List Event) (s : Sched), (petThreads.guard ok).Reach es s →
      ReplayOk ok s calls →
        (petThreads.guard ok).Reach (es ++ replayEvents s calls) (replay s calls)
  | [], es, s, hr, _ => by simpa [replay, replayEvents] using hr
  | call :: calls, es, s, hr, h => by
      have hstep : (petThreads.guard ok).Reach (es ++ [(replayStep s call).2])
          (replayStep s call).1 := hr.step ⟨h.2.1, replayStep_step h.1⟩
      simpa [replay, replayEvents] using reach_replay_from calls _ _ hstep h.2.2

/-- The calls of a list, made one after the other from the start, are a run. -/
theorem reach_replay (ok : Sched → Event → Prop) (calls : List Call)
    (h : ReplayOk ok petThreadInit calls) :
    (petThreads.guard ok).Reach (replayEvents petThreadInit calls)
    (replay petThreadInit calls) := by
  have hr : (petThreads.guard ok).Reach [] petThreadInit := .init rfl
  simpa using reach_replay_from calls [] petThreadInit hr h

end PetKernel.UserThreads
