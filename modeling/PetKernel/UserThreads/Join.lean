import PetKernel.UserThreads.Runs

/-!
# Joins

The value of an exit travels through `return_reciever`: the exit stores it in every waiter, and the
waiter reads it when it is resumed. `JoinInv` ties each suspended join to its target over a whole
run, and `join_delivers_exit_value` says what a join delivers.
-/

set_option autoImplicit false

namespace PetKernel.UserThreads

open PetKernel.Library

/-! ## The value of an exit -/

/-- `p` has exited with the value `v` in a run with the events `es`. -/
def ExitedWith (es : List Event) (p : ThreadPtr) (v : VoidPtr) : Prop :=
  ∃ e ∈ es, e.caller = p ∧ e.call.exitValue = some v

instance (es : List Event) (p : ThreadPtr) (v : VoidPtr) : Decidable (ExitedWith es p v) :=
  inferInstanceAs (Decidable (∃ e ∈ es, e.caller = p ∧ e.call.exitValue = some v))

theorem ExitedWith.exited {es : List Event} {p : ThreadPtr} {v : VoidPtr} (h : ExitedWith es p v) :
    Exited es p := by
  obtain ⟨e, he, hp, hv⟩ := h
  refine ⟨e, he, hp, ?_⟩
  rw [hv]
  exact Option.some_ne_none v

theorem ExitedWith.append {es : List Event} {p : ThreadPtr} {v : VoidPtr} (h : ExitedWith es p v)
    (fs : List Event) : ExitedWith (es ++ fs) p v := by
  obtain ⟨e, he, hpv⟩ := h
  exact ⟨e, List.mem_append_left fs he, hpv⟩

theorem exitedWith_append_singleton {es : List Event} {e : Event} {p : ThreadPtr} {v : VoidPtr}
    (h : ExitedWith (es ++ [e]) p v) :
    ExitedWith es p v ∨ (e.caller = p ∧ e.call.exitValue = some v) := by
  obtain ⟨e', he', hpv⟩ := h
  rcases List.mem_append.1 he' with he' | he'
  · exact Or.inl ⟨e', he', hpv⟩
  · rw [List.mem_singleton] at he'
    subst he'
    exact Or.inr hpv

/-- `w` has been woken from its join on `id` and holds the value that the join will deliver. -/
structure Holding (s : Sched) (w : ThreadPtr) (id : PetThreadId) (v : VoidPtr) : Prop where
  suspended : s.suspended w = some ⟨.join id, 0⟩
  ready : (s.thread w).state = .ready
  value : (s.thread w).returnReciever = v

theorem waitingOn_returnReciever {s : Sched} {p : ThreadPtr} (q : ThreadPtr) :
    ((waitingOn s p).thread q).returnReciever = (s.thread q).returnReciever := by
  simp only [waitingOn, Sched.setWaiting_thread, Sched.setState_thread]
  split <;> split <;> rfl

theorem retired_returnReciever {s : Sched} {v : VoidPtr} (q : ThreadPtr) :
    ((retired s v).thread q).returnReciever =
      if q ∈ (s.thread s.running).waitingForMeList then v else (s.thread q).returnReciever := by
  simp only [retired, Sched.setState_thread]
  split <;> rfl

/-! ## What a call does to waiters -/

section Waiters

variable {s s₁ : Sched} {call : Call} {p w : ThreadPtr} {id : PetThreadId} {v : VoidPtr}

theorem Prepared.created (hp : Prepared s call s₁) (h : Created s p) : Created s₁ p :=
  ⟨h.1, Nat.lt_of_lt_of_eq h.2 hp.threadIdCount_eq.symm⟩

/-- Only a join makes a waiter, of its own caller. -/
theorem Prepared.mem_waiting (hp : Prepared s call s₁) (h : Settled s)
    (hw : w ∈ (s₁.thread p).waitingForMeList) :
    w ∈ (s.thread p).waitingForMeList ∨
      (w = s.running ∧ call = .join (threadIdOfCount p)) := by
  cases hp with
  | schedule => exact Or.inl hw
  | yieldTo id => exact Or.inl hw
  | run => exact Or.inl hw
  | join hg hc hr =>
      rcases (mem_waitingOn_waiting p w).1 hw with hw' | ⟨rfl, hrun⟩
      · exact Or.inl hw'
      · exact Or.inr ⟨hrun, by rw [(getThread_sound h.idsOk hg).2]⟩
  | exit path v hr =>
      rw [retired_waiting] at hw
      split at hw
      · cases hw
      · exact Or.inl hw

/-- A join puts its caller on the list of the thread that it names. -/
theorem Prepared.join_mem_waiting (hp : Prepared s (.join id) s₁) (h : Settled s) :
    ∃ p, Created s p ∧ id = threadIdOfCount p ∧ s.running ∈ (s₁.thread p).waitingForMeList := by
  cases hp with
  | @join _ p hg hc hr =>
      exact ⟨p, hc, (getThread_sound h.idsOk hg).2,
        (mem_waitingOn_waiting p _).2 (Or.inr ⟨rfl, rfl⟩)⟩

/-- An exit wakes every waiter of the running thread with its value. -/
theorem Prepared.exit_holding (hp : Prepared s call s₁) (h : Settled s)
    (hv : call.exitValue = some v) (hw : w ∈ (s.thread s.running).waitingForMeList)
    (hsusp : s.suspended w = some ⟨.join id, 0⟩) : Holding s₁ w id v := by
  cases hp with
  | schedule => cases hv
  | yieldTo id => cases hv
  | run => cases hv
  | join hg hc hr => cases hv
  | exit path v' hr =>
      cases hv
      have hne : w ≠ s.running := fun he => h.running_not_waiting s.running (he ▸ hw)
      refine ⟨hsusp, ?_, ?_⟩
      · rw [retired_state, if_neg hne, if_pos hw]
      · rw [retired_returnReciever, if_pos hw]

/-- A waiter goes on waiting until its target exits. -/
theorem Prepared.mem_waiting_or_exit (hp : Prepared s call s₁)
    (hw : w ∈ (s.thread p).waitingForMeList) :
    w ∈ (s₁.thread p).waitingForMeList ∨ (s.running = p ∧ ∃ v, call.exitValue = some v) := by
  cases hp with
  | schedule => exact Or.inl hw
  | yieldTo id => exact Or.inl hw
  | run => exact Or.inl hw
  | join hg hc hr => exact Or.inl ((mem_waitingOn_waiting p w).2 (Or.inl hw))
  | exit path v hr =>
      by_cases hp : p = s.running
      · exact Or.inr ⟨hp.symm, v, rfl⟩
      · left
        rw [retired_waiting, if_neg hp]
        exact hw

/-- Only created threads exit. -/
theorem Prepared.running_ne_master (hp : Prepared s call s₁) (hv : call.exitValue = some v) :
    s.running ≠ masterDummyThread := by
  cases hp with
  | schedule => cases hv
  | yieldTo id => cases hv
  | run => cases hv
  | join hg hc hr => exact hr
  | exit path v' hr => exact hr

/-- A woken thread keeps its value until it runs. -/
theorem Prepared.holding (hp : Prepared s call s₁) (h : Settled s) (hw : Holding s w id v) :
    Holding s₁ w id v := by
  have hne := h.ne_running_of_ready hw.ready
  cases hp with
  -- a thread that holds its value is `READY`, so it neither calls nor waits
  | schedule => exact hw
  | yieldTo id => exact hw
  | run => exact hw
  | join hg hc hr =>
      refine ⟨hw.suspended, ?_, ?_⟩
      · rw [waitingOn_state, if_neg hne]
        exact hw.ready
      · rw [waitingOn_returnReciever]
        exact hw.value
  | exit path v' hr =>
      have hnot : w ∉ (s.thread s.running).waitingForMeList := by
        intro hmem
        have hb := (h.waiting_blocked _ _ hmem).2
        rw [hw.ready] at hb
        cases hb
      refine ⟨hw.suspended, ?_, ?_⟩
      · rw [retired_state, if_neg hne, if_neg hnot]
        exact hw.ready
      · rw [retired_returnReciever, if_neg hnot]
        exact hw.value

theorem Holding.create (hw : Holding s w id v) (hwn : w ≠ s.threadIdCount) :
    Holding (petThreadCreate s).1 w id v := by
  constructor <;> simp only [petThreadCreate, Function.update_of_ne hwn]
  · exact hw.suspended
  · exact hw.ready
  · exact hw.value

/-- A switch to a woken thread returns its value. -/
theorem Holding.returned {fr : Frame} (hw : Holding s w id v) (h : Core s) (ht : Target s w) :
    (resume (dispatched s w fr)).2 = some ⟨w, .join id, 0, some v⟩ := by
  rw [resume_dispatched_returned h ht, hw.suspended, ← hw.value]
  rfl

/-- A switch to another thread leaves a woken thread as it is. -/
theorem Holding.of_ne {tgt : ThreadPtr} {fr : Frame} (hw : Holding s w id v) (h : Core s)
    (ht : Target s tgt) (hwt : w ≠ tgt) : Holding (resume (dispatched s tgt fr)).1 w id v := by
  have hne := h.ne_running_of_ready hw.ready
  refine ⟨?_, ?_, ?_⟩
  · rw [resume_dispatched_suspended h ht, if_neg hwt, if_neg hne]
    exact hw.suspended
  · rw [resume_thread]
    show ((switched s tgt fr).thread w).state = _
    rw [switched_state_of_ne hwt hne]
    exact hw.ready
  · rw [resume_thread]
    exact hw.value

end Waiters

/-! ## Joins over a run -/

/-- The join of `w` on `id` is on a created thread: `w` still waits for it, or the thread has exited
and `w` holds the value of the exit. -/
def Joined (es : List Event) (s : Sched) (w : ThreadPtr) (id : PetThreadId) : Prop :=
  ∃ p, Created s p ∧ id = threadIdOfCount p ∧
    (w ∈ (s.thread p).waitingForMeList ∨ ∃ v, ExitedWith es p v ∧ Holding s w id v)

theorem Joined.append {es : List Event} {s : Sched} {w : ThreadPtr} {id : PetThreadId}
    (h : Joined es s w id) (fs : List Event) : Joined (es ++ fs) s w id := by
  obtain ⟨p, hcr, hid, hwait⟩ := h
  exact ⟨p, hcr, hid, hwait.imp_right fun ⟨v, hv, hold⟩ => ⟨v, hv.append fs, hold⟩⟩

theorem Joined.of_ne {es : List Event} {s : Sched} {w tgt : ThreadPtr} {id : PetThreadId}
    {fr : Frame} (h : Joined es s w id) (hcore : Core s) (ht : Target s tgt) (hwt : w ≠ tgt) :
    Joined es (resume (dispatched s tgt fr)).1 w id := by
  obtain ⟨p, hcr, hid, hwait⟩ := h
  refine ⟨p, ⟨hcr.1, ?_⟩, hid, ?_⟩
  · rw [resume_threadIdCount]
    exact hcr.2
  · rcases hwait with hwait | ⟨v, hv, hold⟩
    · left
      rw [resume_thread]
      exact hwait
    · exact Or.inr ⟨v, hv, hold.of_ne hcore ht hwt⟩

/-- In a run, the threads that wait are those suspended in a join whose target has not exited, and
the other threads suspended in a join hold the value of the exit. -/
structure JoinInv (es : List Event) (s : Sched) : Prop extends RunInv es s where
  waiting_suspended : ∀ p w, w ∈ (s.thread p).waitingForMeList →
    s.suspended w = some ⟨.join (threadIdOfCount p), 0⟩
  suspended_join : ∀ w id ret, s.suspended w = some ⟨.join id, ret⟩ → Joined es s w id
  exit_once : ∀ p v v', ExitedWith es p v → ExitedWith es p v' → v = v'

theorem joinInv_petThreadInit : JoinInv [] petThreadInit where
  toRunInv := runInv_petThreadInit
  waiting_suspended p w hw := by cases hw
  suspended_join w id ret hw := by cases hw
  exit_once p v v' hv := by
    obtain ⟨e, he, -⟩ := hv
    cases he

section Step

variable {es : List Event} {s t : Sched} {e : Event}

theorem JoinInv.exit_once_step (h : JoinInv es s) (hcaller : e.caller = s.running) {p : ThreadPtr}
    {v v' : VoidPtr} (hv : ExitedWith (es ++ [e]) p v) (hv' : ExitedWith (es ++ [e]) p v') :
    v = v' := by
  -- the thread that exits now is running, so it has not exited before
  have hfresh : ∀ {u}, ExitedWith es p u → e.caller ≠ p := by
    rintro u hu rfl
    have hst := (h.stopped_iff _ (h.exited_lt _ hu.exited)).2 hu.exited
    rw [hcaller, h.settled.running_running] at hst
    cases hst
  rcases exitedWith_append_singleton hv with hv | ⟨hc, hv⟩ <;>
    rcases exitedWith_append_singleton hv' with hv' | ⟨hc', hv'⟩
  · exact h.exit_once p v v' hv hv'
  · exact absurd hc' (hfresh hv)
  · exact absurd hc (hfresh hv')
  · exact Option.some.inj (hv.symm.trans hv')

/-- The target of a suspended join after the first half of a call. -/
theorem JoinInv.joined_prepared (h : JoinInv es s) {s₁ : Sched} {call : Call}
    (hp : Prepared s call s₁) (returned : Option Return) {w : ThreadPtr} {id : PetThreadId}
    {ret : Int} (hw : s.suspended w = some ⟨.join id, ret⟩) :
    Joined (es ++ [⟨s.running, call, returned⟩]) s₁ w id := by
  obtain ⟨p, hcr, rfl, hwait⟩ := h.suspended_join w id ret hw
  refine ⟨p, hp.created hcr, rfl, ?_⟩
  rcases hwait with hwait | ⟨v, hv, hold⟩
  · have hsusp := h.waiting_suspended p w hwait
    rcases hp.mem_waiting_or_exit hwait with hwait' | ⟨rfl, v, hv⟩
    · exact Or.inl hwait'
    · exact Or.inr ⟨v, ⟨_, List.mem_append_right _ (List.mem_singleton_self _), rfl, hv⟩,
        hp.exit_holding h.settled hv hwait hsusp⟩
  · exact Or.inr ⟨v, hv.append _, hp.holding h.settled hold⟩

theorem JoinInv.waiting_suspended_step (h : JoinInv es s) {call : Call} {r : Sched × Option Return}
    (ho : Outcome s call r) {p w : ThreadPtr} (hw : w ∈ (r.1.thread p).waitingForMeList) :
    r.1.suspended w = some ⟨.join (threadIdOfCount p), 0⟩ := by
  cases ho with
  | created =>
      by_cases hp : p = s.threadIdCount
      · subst hp
        simp [petThreadCreate] at hw
      · simp only [petThreadCreate, Function.update_of_ne hp] at hw ⊢
        have hlt := (h.settled.waiting_blocked p w hw).1
        rw [Function.update_of_ne (Nat.ne_of_lt hlt)]
        exact h.waiting_suspended p w hw
  | notFound _ => exact h.waiting_suspended p w hw
  | idle _ _ _ => exact h.waiting_suspended p w hw
  | @switch call s₁ tgt ret hprep ht _ hret =>
      have hcore := hprep.core h.settled
      rw [resume_thread] at hw
      have hwait : w ∈ (s₁.thread p).waitingForMeList := hw
      have hwt : w ≠ tgt := by
        rintro rfl
        -- the target is `READY` and waits for nobody
        have hb := (hcore.waiting_blocked p w hwait).2
        rw [ht.ready] at hb
        cases hb
      rw [resume_dispatched_suspended hcore ht, if_neg hwt, hprep.running_eq, hprep.suspended_eq]
      -- it waited before, or the call is its own join
      rcases hprep.mem_waiting h.settled hwait with hold | ⟨hrun, hcall⟩
      · have hne : w ≠ s.running := fun he => h.settled.running_not_waiting p (he ▸ hold)
        rw [if_neg hne]
        exact h.waiting_suspended p w hold
      · rw [if_pos hrun, hret (by rw [hcall]; exact fun h => by cases h), hcall]

theorem JoinInv.suspended_join_step (h : JoinInv es s) {call : Call} {r : Sched × Option Return}
    (ho : Outcome s call r) {w : ThreadPtr} {id : PetThreadId} {ret : Int}
    (hw : r.1.suspended w = some ⟨.join id, ret⟩) :
    Joined (es ++ [⟨s.running, call, r.2⟩]) r.1 w id := by
  cases ho with
  | created =>
      have hwn : w ≠ s.threadIdCount := by
        rintro rfl
        simp [petThreadCreate] at hw
      simp only [petThreadCreate, Function.update_of_ne hwn] at hw
      obtain ⟨p, hcr, hid, hwait⟩ := h.suspended_join w id ret hw
      have hpn : p ≠ s.threadIdCount := Nat.ne_of_lt hcr.2
      refine ⟨p, ⟨hcr.1, Nat.lt_succ_of_lt hcr.2⟩, hid, ?_⟩
      rcases hwait with hwait | ⟨v, hv, hold⟩
      · left
        simpa [petThreadCreate, Function.update_of_ne hpn] using hwait
      · exact Or.inr ⟨v, hv.append _, hold.create hwn⟩
  | notFound _ => exact (h.suspended_join w id ret hw).append _
  | idle _ _ _ => exact (h.suspended_join w id ret hw).append _
  | @switch call s₁ tgt rv hprep ht _ hret =>
      have hcore := hprep.core h.settled
      rw [resume_dispatched_suspended hcore ht, hprep.running_eq, hprep.suspended_eq] at hw
      have hwt : w ≠ tgt := by
        intro he
        rw [if_pos he] at hw
        cases hw
      rw [if_neg hwt] at hw
      -- the target goes on; what is known of the others was so before the switch
      refine Joined.of_ne ?_ hcore ht hwt
      by_cases hwr : w = s.running
      · rw [if_pos hwr] at hw
        cases hw
        obtain ⟨p, hcr, hid, hwait⟩ := hprep.join_mem_waiting h.settled
        exact ⟨p, hprep.created hcr, hid, Or.inl (hwr ▸ hwait)⟩
      · rw [if_neg hwr] at hw
        exact h.joined_prepared hprep _ hw

theorem JoinInv.step (h : JoinInv es s) (hst : clients.step s e t) : JoinInv (es ++ [e]) t := by
  obtain ⟨hc, hcaller, heq⟩ := hst
  have ha := hc.admissible h.settled.toCore
  obtain ⟨r, hr, ho⟩ := petCall_outcome h.settled ha
  rw [heq] at hr
  cases hr
  refine ⟨h.toRunInv.step ha ⟨hcaller, heq⟩, fun p w hw => h.waiting_suspended_step ho hw,
    fun w id ret hw => ?_, fun p v v' hv hv' => h.exit_once_step hcaller hv hv'⟩
  have hj := h.suspended_join_step ho hw
  rw [← hcaller] at hj
  exact hj

end Step

theorem clients_joinInv {es : List Event} {s : Sched} (h : clients.Reach es s) : JoinInv es s := by
  refine h.history (fun s hs => ?_) fun es s e t _ hinv hst => hinv.step hst
  rw [show s = petThreadInit from hs]
  exact joinInv_petThreadInit

/-! ## What a join delivers -/

section Delivery

variable {es : List Event} {s : Sched} {call : Call} {r : Sched × Option Return}
variable {w : ThreadPtr} {id : PetThreadId} {v : VoidPtr}

/-- A join that returns `0` returns the value of an exit. -/
theorem JoinInv.join_returned (h : JoinInv es s) (ho : Outcome s call r) {out : Option VoidPtr}
    (hret : r.2 = some ⟨w, .join id, 0, out⟩) :
    ∃ p v, Created r.1 p ∧ id = threadIdOfCount p ∧
      ExitedWith (es ++ [⟨s.running, call, r.2⟩]) p v ∧ out = some v := by
  cases ho with
  | created => cases hret
  | notFound _ => cases hret
  | @idle call hprep _ _ =>
      have hcall : call = .join id := congrArg Return.call (Option.some.inj hret)
      subst hcall
      obtain ⟨p, -, -, hmem⟩ := hprep.join_mem_waiting h.settled
      -- a join that waits does not return at once
      exact absurd hmem (h.settled.running_not_waiting p)
  | @switch call s₁ tgt rv hprep ht _ _ =>
      have hcore := hprep.core h.settled
      have hret' := hret
      rw [resume_dispatched_returned hcore ht, hprep.suspended_eq] at hret'
      obtain ⟨⟨frcall, frret⟩, hfr, hfr'⟩ := Option.map_eq_some_iff.1 hret'
      obtain rfl : frcall = .join id := congrArg Return.call hfr'
      obtain ⟨p, hcr, hid, hwait⟩ := h.joined_prepared hprep
        (resume (dispatched s₁ tgt ⟨call, rv⟩)).2 hfr
      rcases hwait with hwait | ⟨v, hv, hold⟩
      · -- a thread that still waits is blocked, so it is not switched to
        have hb := (hcore.waiting_blocked p tgt hwait).2
        rw [ht.ready] at hb
        cases hb
      · refine ⟨p, v, ⟨hcr.1, ?_⟩, hid, hv, ?_⟩
        · rw [resume_threadIdCount]
          exact hcr.2
        · rw [hold.returned hcore ht] at hret
          cases hret
          rfl

/-- `w` returns from its join with the value `v`, or it has not been resumed and holds the value. -/
def Resumes (w : ThreadPtr) (id : PetThreadId) (v : VoidPtr) (r : Sched × Option Return) : Prop :=
  r.2 = some ⟨w, .join id, 0, some v⟩ ∨
    ((∀ ret, r.2 = some ret → ret.thread ≠ w) ∧ Holding r.1 w id v)

theorem Holding.resumes_dispatched {tgt : ThreadPtr} {fr : Frame} (hw : Holding s w id v)
    (h : Core s) (ht : Target s tgt) : Resumes w id v (resume (dispatched s tgt fr)) := by
  by_cases hwt : w = tgt
  · subst hwt
    exact Or.inl (hw.returned h ht)
  · refine Or.inr ⟨fun ret hret => ?_, hw.of_ne h ht hwt⟩
    rw [resume_dispatched_returned h ht] at hret
    obtain ⟨fr', -, rfl⟩ := Option.map_eq_some_iff.1 hret
    exact Ne.symm hwt

/-- One call while `w` holds its value. -/
theorem Holding.resumes (hw : Holding s w id v) (h : Settled s) (ho : Outcome s call r)
    (hlt : w < s.threadIdCount) : Resumes w id v r := by
  have hne := h.ne_running_of_ready hw.ready
  cases ho with
  | created =>
      have hwn : w ≠ s.threadIdCount := Nat.ne_of_lt hlt
      refine Or.inr ⟨fun ret hret => ?_, ?_⟩
      · cases hret
        exact Ne.symm hne
      · exact hw.create hwn
  | notFound _ =>
      refine Or.inr ⟨fun ret hret => ?_, hw⟩
      cases hret
      exact Ne.symm hne
  | idle _ _ _ =>
      refine Or.inr ⟨fun ret hret => ?_, hw⟩
      cases hret
      exact Ne.symm hne
  | switch hprep ht _ _ => exact (hprep.holding h hw).resumes_dispatched (hprep.core h) ht

/-- The exit of the thread that `w` waits for. -/
theorem JoinInv.exit_resumes (h : JoinInv es s) (ho : Outcome s call r)
    (hv : call.exitValue = some v) (hw : w ∈ (s.thread s.running).waitingForMeList) :
    Resumes w (threadIdOfCount s.running) v r := by
  cases ho with
  | created => cases hv
  | notFound _ => cases hv
  | idle hprep _ hr => exact absurd hr (hprep.running_ne_master hv)
  | switch hprep ht _ _ =>
      exact (hprep.exit_holding h.settled hv hw (h.waiting_suspended _ w hw)).resumes_dispatched
        (hprep.core h.settled) ht

/-- What returns first to `w` in the events `es`. -/
def firstReturn (w : ThreadPtr) (es : List Event) : Option Return :=
  (es.filterMap Event.returned).find? fun r => r.thread = w

theorem firstReturn_cons_of_eq {e : Event} {ret : Return} (he : e.returned = some ret)
    (hw : ret.thread = w) (fs : List Event) : firstReturn w (e :: fs) = some ret := by
  simp [firstReturn, he, hw]

theorem firstReturn_cons_of_ne {e : Event} (he : ∀ ret, e.returned = some ret → ret.thread ≠ w)
    (fs : List Event) : firstReturn w (e :: fs) = firstReturn w fs := by
  unfold firstReturn
  cases hret : e.returned with
  | none => simp [hret]
  | some ret => simp [hret, he ret hret]

/-- The next return to `w` delivers the value `v`; until then `w` is ready and keeps the value. -/
def Delivers (w : ThreadPtr) (id : PetThreadId) (v : VoidPtr) (es : List Event) (s : Sched) :
    Prop :=
  firstReturn w es = some ⟨w, .join id, 0, some v⟩ ∨ (firstReturn w es = none ∧ Holding s w id v)

/-- The outcome of a step that clients make. -/
theorem JoinInv.outcome (h : JoinInv es s) {e : Event} {t : Sched} (hst : clients.step s e t) :
    Outcome s e.call (t, e.returned) := by
  obtain ⟨r, hr, ho⟩ := petCall_outcome h.settled (hst.1.admissible h.settled.toCore)
  rw [hst.2.2] at hr
  cases hr
  exact ho

theorem Resumes.delivers {e : Event} {fs : List Event} {t u : Sched}
    (h : Resumes w id v (t, e.returned)) (hrest : Holding t w id v → Delivers w id v fs u) :
    Delivers w id v (e :: fs) u := by
  rcases h with hret | ⟨hne, hold⟩
  · exact Or.inl (firstReturn_cons_of_eq hret rfl fs)
  · unfold Delivers
    rw [firstReturn_cons_of_ne hne]
    exact hrest hold

/-- Whatever happens after a thread has been woken, it returns from its join with the value. -/
theorem Holding.delivers {fs : List Event} {u : Sched} (hw : Holding s w id v) (h : JoinInv es s)
    (hlt : w < s.threadIdCount) (hp : clients.Path s fs u) : Delivers w id v fs u := by
  induction hp generalizing es with
  | nil => exact Or.inr ⟨rfl, hw⟩
  | cons hst _ ih =>
      have ho := h.outcome hst
      exact (hw.resumes h.settled ho hlt).delivers fun hold =>
        ih hold (h.step hst) (Nat.lt_of_lt_of_le hlt ho.threadIdCount_le)

end Delivery

/-- Whenever a join on `id` returns `0`, the thread with that id has exited, by either path, and the
join delivers the one value with which it exited. And every thread that waited for a thread when
that thread exited with `v` gets `v` from its join as soon as it is resumed, and stays ready until
then. -/
theorem join_delivers_exit_value :
    (∀ (es : List Event) (e : Event) (t : Sched) (w : ThreadPtr) (id : PetThreadId)
      (out : Option VoidPtr), clients.Reach (es ++ [e]) t →
        e.returned = some ⟨w, .join id, 0, out⟩ →
        ∃ p v, Created t p ∧ id = (t.thread p).id ∧ out = some v ∧ ExitedWith (es ++ [e]) p v ∧
          ∀ v', ExitedWith (es ++ [e]) p v' → v' = v) ∧
    (∀ (es fs : List Event) (e : Event) (s u : Sched) (w : ThreadPtr) (v : VoidPtr),
      clients.Reach es s → clients.Path s (e :: fs) u → e.call.exitValue = some v →
        w ∈ (s.thread s.running).waitingForMeList →
          Delivers w (s.thread s.running).id v (e :: fs) u) := by
  refine ⟨fun es e t w id out hreach hret => ?_, fun es fs e s u w v hreach hpath hv hw => ?_⟩
  · obtain ⟨s, hs, hst⟩ := hreach.last_step
    have hinv := clients_joinInv hs
    have hinv' := clients_joinInv hreach
    obtain ⟨p, v, hcr, hid, hex, hout⟩ := hinv.join_returned (hinv.outcome hst) hret
    rw [← hst.2.1] at hex
    exact ⟨p, v, hcr, hid.trans (hinv'.settled.ids p hcr.2).symm, hout, hex,
      fun v' hv' => hinv'.exit_once p v' v hv' hex⟩
  · have hinv := clients_joinInv hreach
    have hs := hinv.settled
    cases hpath with
    | cons hst hrest =>
        rw [hs.ids s.running hs.running_lt]
        have ho := hinv.outcome hst
        have hlt := Nat.lt_of_lt_of_le (hs.waiting_blocked _ _ hw).1 ho.threadIdCount_le
        exact (hinv.exit_resumes ho hv hw).delivers fun hold =>
          hold.delivers (hinv.step hst) hlt hrest

/-- Nested joins: thread 1 joins thread 2, which joins thread 3. Thread 3 returns `7` from its
function, thread 2 gets `7` and exits with `8`, and thread 1 gets `8`. -/
theorem join_delivers_nested : ∃ es e s t,
    clients.Reach es s ∧ clients.Path s [e] t ∧
      (es ++ [e]).map Event.call = [.create, .create, .create, .run, .join 2, .join 3,
        .exit .captureReturn 7, .exit .petThreadExit 8] ∧
      1 ∈ (s.thread s.running).waitingForMeList ∧ Delivers 1 (s.thread s.running).id 8 [e] t ∧
      ∃ p v, Created t p ∧ 2 = (t.thread p).id ∧ some 8 = some v ∧ ExitedWith (es ++ [e]) p v ∧
        ∀ v', ExitedWith (es ++ [e]) p v' → v' = v := by
  have hreach : clients.Reach _ _ := reach_replay (fun s e => ClientCall s e.call)
    [.create, .create, .create, .run, .join 2, .join 3, .exit .captureReturn 7] (by decide)
  have hstep : clients.step (replay petThreadInit
        [.create, .create, .create, .run, .join 2, .join 3, .exit .captureReturn 7])
      ⟨2, .exit .petThreadExit 8, some ⟨1, .join 2, 0, some 8⟩⟩ _ := ⟨by decide, rfl, rfl⟩
  refine ⟨_, _, _, _, hreach, .cons hstep .nil, by decide, by decide, ?_, ?_⟩
  · exact join_delivers_exit_value.2 _ _ _ _ _ _ _ hreach (.cons hstep .nil) rfl (by decide)
  · exact join_delivers_exit_value.1 _ _ _ _ _ _ (hreach.step hstep) rfl

end PetKernel.UserThreads
