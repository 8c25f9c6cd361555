import PetKernel.UserThreads.PetThread

/-!
# How the scheduler switches threads

`Core` collects the bookkeeping facts that hold whenever the library looks for a thread to run, also
in the middle of `pet_thread_join` and `__quarantine`, where the running thread is already marked
`BLOCKED` or `STOPPED`; `Settled` adds that the running thread is `RUNNING`, which is so whenever
user code runs. From a `Core` state no assertion fails and every descriptor that is looked up is
found (`getThread_known`), so that `__thread_invoker` and `pet_thread_schedule` have equations that
name the state they end in: `threadInvoker_eq` and `petThreadSchedule_outcome`.
-/

set_option autoImplicit false

namespace PetKernel.UserThreads

open PetKernel.Library

/-! ## Thread ids -/

theorem threadIdOfCount_toNat {n : Nat} (h : n < 2 ^ 31) : (threadIdOfCount n).toNat = n := by
  have hm : (BitVec.ofNat 32 n).msb = false := by
    rw [BitVec.msb_eq_decide]
    simp only [BitVec.toNat_ofNat, decide_eq_false_iff_not]
    omega
  rw [threadIdOfCount, BitVec.signExtend_eq_setWidth_of_msb_false hm]
  simp only [BitVec.toNat_setWidth, BitVec.toNat_ofNat]
  omega

theorem threadIdOfCount_inj {n m : Nat} (hn : n < 2 ^ 31) (hm : m < 2 ^ 31)
    (h : threadIdOfCount n = threadIdOfCount m) : n = m := by
  rw [← threadIdOfCount_toNat hn, ← threadIdOfCount_toNat hm, h]

theorem threadIdOfCount_eq_master_iff {n : Nat} (hn : n < 2 ^ 31) :
    threadIdOfCount n = petMasterThreadId ↔ n = masterDummyThread := by
  constructor
  · intro h
    rw [← threadIdOfCount_toNat hn, h]
    rfl
  · rintro rfl
    rfl

/-! ## Field updates -/

namespace Sched

variable (s : Sched) (p q : ThreadPtr)

@[simp] theorem setState_running (st : ThreadRunState) : (s.setState p st).running = s.running :=
  rfl
@[simp] theorem setState_readyList (st : ThreadRunState) :
    (s.setState p st).readyList = s.readyList := rfl
@[simp] theorem setState_blockedList (st : ThreadRunState) :
    (s.setState p st).blockedList = s.blockedList := rfl
@[simp] theorem setState_stopped (st : ThreadRunState) : (s.setState p st).stopped = s.stopped :=
  rfl
@[simp] theorem setState_threadIdCount (st : ThreadRunState) :
    (s.setState p st).threadIdCount = s.threadIdCount := rfl
@[simp] theorem setState_suspended (st : ThreadRunState) :
    (s.setState p st).suspended = s.suspended := rfl
@[simp] theorem setState_freed (st : ThreadRunState) : (s.setState p st).freed = s.freed := rfl

theorem setState_thread (st : ThreadRunState) :
    (s.setState p st).thread q = if q = p then { s.thread q with state := st } else s.thread q := by
  by_cases h : q = p
  · subst h
    simp [setState]
  · simp [setState, h]

@[simp] theorem setWaiting_running (ws : List ThreadPtr) :
    (s.setWaiting p ws).running = s.running := rfl
@[simp] theorem setWaiting_readyList (ws : List ThreadPtr) :
    (s.setWaiting p ws).readyList = s.readyList := rfl
@[simp] theorem setWaiting_blockedList (ws : List ThreadPtr) :
    (s.setWaiting p ws).blockedList = s.blockedList := rfl
@[simp] theorem setWaiting_stopped (ws : List ThreadPtr) :
    (s.setWaiting p ws).stopped = s.stopped := rfl
@[simp] theorem setWaiting_threadIdCount (ws : List ThreadPtr) :
    (s.setWaiting p ws).threadIdCount = s.threadIdCount := rfl
@[simp] theorem setWaiting_suspended (ws : List ThreadPtr) :
    (s.setWaiting p ws).suspended = s.suspended := rfl
@[simp] theorem setWaiting_freed (ws : List ThreadPtr) : (s.setWaiting p ws).freed = s.freed := rfl

theorem setWaiting_thread (ws : List ThreadPtr) :
    (s.setWaiting p ws).thread q =
      if q = p then { s.thread q with waitingForMeList := ws } else s.thread q := by
  by_cases h : q = p
  · subst h
    simp [setWaiting]
  · simp [setWaiting, h]

end Sched

@[simp] theorem assert_of {c : Prop} [Decidable c] (a : Assertion) (h : c) :
    assert c a = .ok () := if_pos h

/-! ## The bookkeeping invariant -/

/-- A thread that `pet_thread_create` has made. -/
def Created (s : Sched) (p : ThreadPtr) : Prop :=
  p ≠ masterDummyThread ∧ p < s.threadIdCount

instance (s : Sched) (p : ThreadPtr) : Decidable (Created s p) :=
  inferInstanceAs (Decidable (p ≠ masterDummyThread ∧ p < s.threadIdCount))

/-- The bookkeeping of the scheduler at a point where it looks for the next thread to run. -/
structure Core (s : Sched) : Prop where
  pos : 0 < s.threadIdCount
  few : s.threadIdCount ≤ 2 ^ 31
  ids : ∀ p, p < s.threadIdCount → (s.thread p).id = threadIdOfCount p
  running_lt : s.running < s.threadIdCount
  running_state : (s.thread s.running).state ≠ .ready
  only_running : ∀ p, p < s.threadIdCount → (s.thread p).state = .running → p = s.running
  master_state : (s.thread masterDummyThread).state =
    if s.running = masterDummyThread then .running else .ready
  ready_nodup : s.readyList.Nodup
  mem_ready : ∀ p, p ∈ s.readyList ↔ Created s p ∧ (s.thread p).state = .ready
  blocked_nodup : s.blockedList.Nodup
  mem_blocked : ∀ p, p ∈ s.blockedList ↔
    p ≠ s.running ∧ p < s.threadIdCount ∧ (s.thread p).state = .blocked
  stopped_state : ∀ p, s.stopped = some p →
    p ≠ s.running ∧ p < s.threadIdCount ∧ (s.thread p).state = .stopped
  waiting_blocked : ∀ p w, w ∈ (s.thread p).waitingForMeList →
    w < s.threadIdCount ∧ (s.thread w).state = .blocked
  waiting_nodup : ∀ p, (s.thread p).waitingForMeList.Nodup
  waiting_unique : ∀ p q w, w ∈ (s.thread p).waitingForMeList →
    w ∈ (s.thread q).waitingForMeList → p = q
  blocked_waits : ∀ w, w < s.threadIdCount → (s.thread w).state = .blocked →
    ∃ p, Created s p ∧ w ∈ (s.thread p).waitingForMeList

/-- The bookkeeping of the scheduler whenever user code runs. -/
structure Settled (s : Sched) : Prop extends Core s where
  running_running : (s.thread s.running).state = .running

theorem settled_petThreadInit : Settled petThreadInit where
  pos := Nat.one_pos
  few := by decide
  ids p hp := by
    have h0 : p = 0 := Nat.lt_one_iff.1 hp
    subst h0
    rfl
  running_lt := Nat.one_pos
  running_state := by decide
  only_running p hp _ := Nat.lt_one_iff.1 hp
  master_state := rfl
  ready_nodup := List.nodup_nil
  mem_ready p := by
    simp only [petThreadInit, List.not_mem_nil, Created, false_iff, not_and]
    exact fun hp => absurd (Nat.lt_one_iff.1 hp.2) hp.1
  blocked_nodup := List.nodup_nil
  mem_blocked p := by
    simp only [petThreadInit, List.not_mem_nil, false_iff, not_and]
    exact fun hp hlt => absurd (Nat.lt_one_iff.1 hlt) hp
  stopped_state p hp := by cases hp
  waiting_blocked p w hw := by cases hw
  waiting_nodup p := List.nodup_nil
  waiting_unique p q w hw := by cases hw
  blocked_waits w hw h := by
    simp only [petThreadInit] at h
    split at h <;> cases h
  running_running := rfl

theorem Core.master_not_blocked {s : Sched} (h : Core s) :
    (s.thread masterDummyThread).state ≠ .blocked := by
  rw [h.master_state]
  split <;> decide

theorem Core.master_not_waiting {s : Sched} (h : Core s) (p : ThreadPtr) :
    masterDummyThread ∉ (s.thread p).waitingForMeList :=
  fun hw => h.master_not_blocked (h.waiting_blocked p _ hw).2

theorem Core.master_not_stopped {s : Sched} (h : Core s) :
    (s.thread masterDummyThread).state ≠ .stopped := by
  rw [h.master_state]
  split <;> decide

/-- A thread that may be invoked, the master thread included, is not the running one. -/
theorem Core.ne_running_of_ready {s : Sched} (h : Core s) {p : ThreadPtr}
    (hp : (s.thread p).state = .ready) : p ≠ s.running := by
  rintro rfl
  exact h.running_state hp

theorem Core.of_suspended {s : Sched} (h : Core s) (f : ThreadPtr → Option Frame) :
    Core { s with suspended := f } :=
  ⟨h.pos, h.few, h.ids, h.running_lt, h.running_state, h.only_running, h.master_state,
    h.ready_nodup, h.mem_ready, h.blocked_nodup, h.mem_blocked, h.stopped_state,
    h.waiting_blocked, h.waiting_nodup, h.waiting_unique, h.blocked_waits⟩

theorem Settled.of_suspended {s : Sched} (h : Settled s) (f : ThreadPtr → Option Frame) :
    Settled { s with suspended := f } :=
  ⟨h.toCore.of_suspended f, h.running_running⟩

theorem Settled.resume {s : Sched} (h : Settled s) : Settled (resume s).1 := by
  unfold UserThreads.resume
  split
  · exact h
  · exact h.of_suspended _

/-! ## Looking up a thread -/

/-- The descriptors that `get_thread` looks at. -/
def Known (s : Sched) (p : ThreadPtr) : Prop :=
  p = masterDummyThread ∨ p = s.running ∨ s.stopped = some p ∨ p ∈ s.readyList ∨ p ∈ s.blockedList

/-- Every descriptor that `get_thread` looks at has been created and carries its own id. -/
structure IdsOk (s : Sched) : Prop where
  few : s.threadIdCount ≤ 2 ^ 31
  known_lt : ∀ p, Known s p → p < s.threadIdCount
  ids : ∀ p, p < s.threadIdCount → (s.thread p).id = threadIdOfCount p

theorem IdsOk.lt_of_known {s : Sched} (h : IdsOk s) {p : ThreadPtr} (hp : Known s p) : p < 2 ^ 31 :=
  Nat.lt_of_lt_of_le (h.known_lt p hp) h.few

theorem Core.idsOk {s : Sched} (h : Core s) : IdsOk s where
  few := h.few
  known_lt p hp := by
    rcases hp with rfl | rfl | hp | hp | hp
    · exact h.pos
    · exact h.running_lt
    · exact (h.stopped_state p hp).2.1
    · exact ((h.mem_ready p).1 hp).1.2
    · exact ((h.mem_blocked p).1 hp).2.1
  ids := h.ids

/-- A descriptor that `get_thread` returns is one that it looks at, and has the id asked for. -/
theorem getThread_sound {s : Sched} (h : IdsOk s) {id : PetThreadId} {p : ThreadPtr}
    (hp : getThread s id = some p) : Known s p ∧ id = threadIdOfCount p := by
  have key : Known s p ∧ (p = masterDummyThread ∧ id = petMasterThreadId ∨ (s.thread p).id =
      id) := by
    -- the source looks at the master thread, the running one, `stopped` and the two lists, in this
    -- order
    unfold getThread at hp
    split at hp
    · rename_i hid
      cases hp
      exact ⟨Or.inl rfl, Or.inl ⟨rfl, hid⟩⟩
    · split at hp
      · rename_i hid
        cases hp
        exact ⟨Or.inr (Or.inl rfl), Or.inr hid⟩
      · split at hp
        · rename_i hst
          rw [hp] at hst
          exact ⟨Or.inr (Or.inr (Or.inl hp)), Or.inr (by simpa using hst)⟩
        · rw [Option.or_eq_some_iff] at hp
          rcases hp with hp | ⟨-, hp⟩
          · exact ⟨by simp [Known, List.mem_of_find?_eq_some hp],
              Or.inr (by simpa using List.find?_some hp)⟩
          · exact ⟨by simp [Known, List.mem_of_find?_eq_some hp],
              Or.inr (by simpa using List.find?_some hp)⟩
  -- the id of the master thread is the one its descriptor would have
  obtain ⟨hk, ⟨rfl, rfl⟩ | hid⟩ := key
  · exact ⟨hk, rfl⟩
  · exact ⟨hk, by rw [← hid, h.ids p (h.known_lt p hk)]⟩

/-- `get_thread` finds every descriptor that it looks at. -/
theorem getThread_known {s : Sched} (h : IdsOk s) {p : ThreadPtr} (hp : Known s p) :
    getThread s (threadIdOfCount p) = some p := by
  have hlt := h.known_lt p hp
  cases hg : getThread s (threadIdOfCount p) with
  | some q =>
      -- ids are different, so that whatever is found is `p`
      obtain ⟨hq, hid⟩ := getThread_sound h hg
      rw [threadIdOfCount_inj (h.lt_of_known hp) (h.lt_of_known hq) hid]
  | none =>
      exfalso
      have hid := h.ids p hlt
      unfold getThread at hg
      split at hg
      · cases hg
      · rename_i hm
        split at hg
        · cases hg
        · rename_i hr
          split at hg
          · rename_i hst
            rw [hg] at hst
            simp at hst
          · rename_i hst
            rw [Option.or_eq_none_iff, List.find?_eq_none, List.find?_eq_none] at hg
            rcases hp with rfl | rfl | hp | hp | hp
            · exact hm rfl
            · exact hr hid
            · rw [hp] at hst
              exact hst (by simpa using hid)
            · exact hg.1 p hp (by simpa using hid)
            · exact hg.2 p hp (by simpa using hid)

/-! ## Switching to a thread -/

/-- The state in which `__thread_invoker(tgt)` calls `__switch_to_stack`. -/
def switched (s : Sched) (tgt : ThreadPtr) (fr : Frame) : Sched where
  threadIdCount := s.threadIdCount
  thread p :=
    { s.thread p with
      state :=
        if p = tgt then .running
        else if p = s.running ∧ (s.thread p).state = .running then .ready
        else (s.thread p).state }
  readyList := s.readyList.erase tgt ++
    if (s.thread s.running).state = .running ∧ s.running ≠ masterDummyThread then [s.running]
    else []
  blockedList := s.blockedList ++ if (s.thread s.running).state = .blocked then [s.running] else []
  running := tgt
  stopped := if (s.thread s.running).state = .stopped then some s.running else s.stopped
  suspended := Function.update s.suspended s.running (some fr)
  freed := s.freed

/-- The state in which `tgt` goes on after `__thread_invoker(tgt)`: the thread that was left is
reclaimed if it has exited. -/
def dispatched (s : Sched) (tgt : ThreadPtr) (fr : Frame) : Sched :=
  { switched s tgt fr with
    freed := s.freed ++ if (s.thread s.running).state = .stopped then [s.running] else [] }

/-- What `__thread_invoker` is called with: the master thread or a thread on the ready list. -/
structure Target (s : Sched) (tgt : ThreadPtr) : Prop where
  lt : tgt < s.threadIdCount
  ready : (s.thread tgt).state = .ready

theorem Target.of_mem_ready {s : Sched} (h : Core s) {tgt : ThreadPtr} (ht : tgt ∈ s.readyList) :
    Target s tgt :=
  ⟨((h.mem_ready tgt).1 ht).1.2, ((h.mem_ready tgt).1 ht).2⟩

theorem Target.master {s : Sched} (h : Core s) (hr : s.running ≠ masterDummyThread) :
    Target s masterDummyThread :=
  ⟨h.pos, by rw [h.master_state, if_neg hr]⟩

theorem Target.mem_ready {s : Sched} (h : Core s) {tgt : ThreadPtr} (ht : Target s tgt)
    (hm : tgt ≠ masterDummyThread) : tgt ∈ s.readyList :=
  (h.mem_ready tgt).2 ⟨⟨hm, ht.lt⟩, ht.ready⟩

theorem Target.ne_running {s : Sched} (h : Core s) {tgt : ThreadPtr} (ht : Target s tgt) :
    tgt ≠ s.running :=
  h.ne_running_of_ready ht.ready

/-- `enqueueOld` changes the state of a running thread to `READY` and no other field. -/
theorem enqueueOld_thread (s : Sched) (old p : ThreadPtr) :
    (enqueueOld s old).thread p =
      { s.thread p with
        state := if p = old ∧ (s.thread old).state = .running then .ready
          else (s.thread p).state } := by
  unfold enqueueOld
  cases hst : (s.thread old).state with
  | running =>
      rw [Sched.setState_thread]
      by_cases hp : p = old
      · simp only [hp, if_true, and_self]
        split <;> rfl
      · simp only [hp, if_false, false_and]
        split <;> rfl
  | blocked => simp
  | stopped => simp
  | ready => simp

section Switching

variable {s : Sched} {tgt : ThreadPtr} {fr : Frame}

theorem switched_state (p : ThreadPtr) : ((switched s tgt fr).thread p).state =
    if p = tgt then .running
    else if p = s.running ∧ (s.thread p).state = .running then .ready
    else (s.thread p).state := rfl

/-- Every thread other than the two that change places keeps its state. -/
theorem switched_state_of_ne {p : ThreadPtr} (ht : p ≠ tgt) (hr : p ≠ s.running) :
    ((switched s tgt fr).thread p).state = (s.thread p).state := by
  simp [switched_state, ht, hr]

/-- The thread that is left is ready again if it was running, and else keeps its state. -/
theorem switched_state_old (h : Core s) (ht : Target s tgt) :
    ((switched s tgt fr).thread s.running).state =
      if (s.thread s.running).state = .running then .ready else (s.thread s.running).state := by
  simp [switched_state, (ht.ne_running h).symm]

theorem mem_switched_ready (h : Core s) (p : ThreadPtr) : p ∈ (switched s tgt fr).readyList ↔
    (p ≠ tgt ∧ p ∈ s.readyList) ∨
      (p = s.running ∧ (s.thread p).state = .running ∧ p ≠ masterDummyThread) := by
  simp only [switched, List.mem_append, h.ready_nodup.mem_erase_iff]
  constructor
  · rintro (hp | hp)
    · exact Or.inl hp
    · split at hp
      · rename_i hc
        rw [List.mem_singleton] at hp
        subst hp
        exact Or.inr ⟨rfl, hc⟩
      · cases hp
  · rintro (hp | ⟨rfl, hc⟩)
    · exact Or.inl hp
    · exact Or.inr (by rw [if_pos hc]; exact List.mem_singleton_self _)

theorem mem_switched_blocked (p : ThreadPtr) : p ∈ (switched s tgt fr).blockedList ↔
    p ∈ s.blockedList ∨ (p = s.running ∧ (s.thread p).state = .blocked) := by
  simp only [switched, List.mem_append]
  constructor
  · rintro (hp | hp)
    · exact Or.inl hp
    · split at hp
      · rename_i hc
        rw [List.mem_singleton] at hp
        subst hp
        exact Or.inr ⟨rfl, hc⟩
      · cases hp
  · rintro (hp | ⟨rfl, hc⟩)
    · exact Or.inl hp
    · exact Or.inr (by rw [if_pos hc]; exact List.mem_singleton_self _)

/-- The two lists after a switch have no duplicates: the thread that is put on one of them was
running, so it was on neither. -/
theorem switched_nodup (h : Core s) :
    (switched s tgt fr).readyList.Nodup ∧ (switched s tgt fr).blockedList.Nodup := by
  constructor
  · refine List.Nodup.append (h.ready_nodup.erase tgt) ?_ ?_
    · split <;> simp
    · intro p hp hp'
      split at hp'
      · rw [List.mem_singleton] at hp'
        subst hp'
        exact h.running_state ((h.mem_ready _).1 (List.mem_of_mem_erase hp)).2
      · cases hp'
  · refine List.Nodup.append h.blocked_nodup ?_ ?_
    · split <;> simp
    · intro p hp hp'
      split at hp'
      · rw [List.mem_singleton] at hp'
        subst hp'
        exact ((h.mem_blocked _).1 hp).1 rfl
      · cases hp'

/-- A blocked thread is not touched by a switch, except that the one that is left is put on the
blocked list. -/
theorem switched_state_eq_blocked (ht : Target s tgt) (p : ThreadPtr) :
    ((switched s tgt fr).thread p).state = .blocked ↔ (s.thread p).state = .blocked := by
  rw [switched_state]
  by_cases hp : p = tgt
  · subst hp
    simp [ht.ready]
  · by_cases hr : p = s.running ∧ (s.thread p).state = .running
    · rw [if_neg hp, if_pos hr, hr.2]
      simp
    · rw [if_neg hp, if_neg hr]

theorem settled_switched (h : Core s) (ht : Target s tgt) : Settled (switched s tgt fr) where
  pos := h.pos
  few := h.few
  ids := h.ids
  running_lt := ht.lt
  running_state := by simp [switched]
  only_running p hp hs := by
    -- a thread that was `RUNNING` before is the one that is left, and it is so no longer
    by_contra hne
    have hpt : p ≠ tgt := hne
    rw [switched_state, if_neg hpt] at hs
    split at hs
    · cases hs
    · rename_i hr
      exact hr ⟨h.only_running p hp hs, hs⟩
  master_state := by
    show _ = if tgt = masterDummyThread then _ else _
    rw [switched_state]
    by_cases hm : masterDummyThread = tgt
    · rw [if_pos hm, if_pos hm.symm]
    · rw [if_neg hm, if_neg (Ne.symm hm), h.master_state]
      by_cases hr : s.running = masterDummyThread
      · simp [hr]
      · simp [hr, Ne.symm hr]
  ready_nodup := (switched_nodup h).1
  mem_ready p := by
    rw [mem_switched_ready h, h.mem_ready]
    -- the target leaves the list, and the old thread joins it if it is still `RUNNING`
    by_cases hpt : p = tgt
    · subst hpt
      simp [switched_state, ht.ne_running h]
    · by_cases hpr : p = s.running
      · subst hpr
        have hns := h.running_state
        have hlt := h.running_lt
        rw [switched_state_old h ht]
        simp only [Created, switched, hpt, hns, ne_eq, not_false_eq_true, and_false, false_or,
          true_and]
        split <;> simp_all
      · simp [hpt, hpr, Created, switched]
  blocked_nodup := (switched_nodup h).2
  mem_blocked p := by
    rw [mem_switched_blocked, h.mem_blocked, switched_state_eq_blocked ht]
    -- the old thread is put on the list when a join has marked it `BLOCKED`
    constructor
    · rintro (⟨-, hlt, hb⟩ | ⟨rfl, hb⟩)
      · have hpt : p ≠ tgt := by
          rintro rfl
          rw [ht.ready] at hb
          cases hb
        exact ⟨hpt, hlt, hb⟩
      · exact ⟨(ht.ne_running h).symm, h.running_lt, hb⟩
    · rintro ⟨-, hlt, hb⟩
      by_cases hpr : p = s.running
      · exact Or.inr ⟨hpr, hb⟩
      · exact Or.inl ⟨hpr, hlt, hb⟩
  stopped_state p hp := by
    -- `stopped` is the old thread if it has exited, and else it is what it was
    have key : p < s.threadIdCount ∧ (s.thread p).state = .stopped := by
      simp only [switched] at hp
      split at hp
      · cases hp
        exact ⟨h.running_lt, by assumption⟩
      · exact (h.stopped_state p hp).2
    have hpt : p ≠ tgt := by
      rintro rfl
      rw [ht.ready] at key
      cases key.2
    refine ⟨hpt, key.1, ?_⟩
    rw [switched_state, if_neg hpt, if_neg (fun hr => by rw [key.2] at hr; cases hr.2)]
    exact key.2
  waiting_blocked p w hw :=
    ⟨(h.waiting_blocked p w hw).1, (switched_state_eq_blocked ht w).2 (h.waiting_blocked p w hw).2⟩
  waiting_nodup := h.waiting_nodup
  waiting_unique := h.waiting_unique
  blocked_waits w hw hb := h.blocked_waits w hw ((switched_state_eq_blocked ht w).1 hb)
  running_running := by simp [switched]

theorem settled_dispatched (h : Core s) (ht : Target s tgt) : Settled (dispatched s tgt fr) :=
  let hs : Settled (switched s tgt fr) := settled_switched h ht
  ⟨⟨hs.pos, hs.few, hs.ids, hs.running_lt, hs.running_state, hs.only_running, hs.master_state,
    hs.ready_nodup, hs.mem_ready, hs.blocked_nodup, hs.mem_blocked, hs.stopped_state,
    hs.waiting_blocked, hs.waiting_nodup, hs.waiting_unique, hs.blocked_waits⟩, hs.running_running⟩

/-- The thread that is left can still be looked up when `pet_thread_cleanup` asks for it. -/
theorem known_switched_old (h : Core s) : Known (switched s tgt fr) s.running := by
  by_cases hm : s.running = masterDummyThread
  · exact Or.inl hm
  · right; right
    cases hst : (s.thread s.running).state with
    | stopped => exact Or.inl (by simp [switched, hst])
    | running => exact Or.inr (Or.inl ((mem_switched_ready h _).2 (Or.inr ⟨rfl, hst, hm⟩)))
    | ready => exact absurd hst h.running_state
    | blocked => exact Or.inr (Or.inr ((mem_switched_blocked _).2 (Or.inr ⟨rfl, hst⟩)))

theorem petThreadCleanup_switched (h : Core s) (ht : Target s tgt) :
    petThreadCleanup (switched s tgt fr) (threadIdOfCount s.running) =
      .ok (dispatched s tgt fr) := by
  unfold petThreadCleanup
  rw [getThread_known (settled_switched h ht).idsOk (known_switched_old h)]
  simp only [switched_state_old h ht, dispatched]
  cases hst : (s.thread s.running).state <;> simp [switched]

/-- The state of the library once `__thread_invoker` has taken `tgt` out of the ready list. -/
private def unlinked (s : Sched) (tgt : ThreadPtr) : Sched :=
  { s with running := tgt, readyList := s.readyList.erase tgt }

theorem unlinkTarget_eq (h : Core s) (ht : Target s tgt) :
    unlinkTarget { s with running := tgt } tgt = .ok (unlinked s tgt) := by
  unfold unlinkTarget unlinked
  by_cases hm : tgt = masterDummyThread
  · have hnot : tgt ∉ s.readyList := fun hmem => ((h.mem_ready tgt).1 hmem).1.1 hm
    rw [if_neg (not_not.2 hm), List.erase_of_not_mem hnot]
  · rw [if_pos hm]
    exact if_pos (ht.mem_ready h hm)

/-- The bookkeeping of `__thread_invoker` between `list_del` and `__switch_to_stack`. -/
theorem enqueueOld_eq :
    ((enqueueOld (unlinked s tgt) s.running).setState tgt .running).suspend s.running fr =
      switched s tgt fr := by
  have hthread : ∀ p, ((enqueueOld (unlinked s tgt) s.running).setState tgt .running).thread p =
      (switched s tgt fr).thread p := by
    intro p
    rw [Sched.setState_thread, enqueueOld_thread]
    by_cases hp : p = tgt
    · simp [switched, unlinked, hp]
    · rw [if_neg hp]
      by_cases hpr : p = s.running
      · subst hpr
        simp [switched, unlinked, hp]
      · simp [switched, unlinked, hp, hpr]
  refine Sched.ext ?_ (funext hthread) ?_ ?_ ?_ ?_ ?_ ?_ <;>
    (unfold enqueueOld unlinked Sched.suspend
     cases hst : (s.thread s.running).state <;> simp [switched, hst]) <;>
    (by_cases hm : s.running = masterDummyThread <;> simp [hm])

/-- After its assertions and `list_del`, `__thread_invoker` is one call of `__switch_to_stack`. -/
theorem threadInvoker_eq_switchToStack {u : Sched} (hready : (s.thread tgt).state = .ready)
    (hrun : (s.thread s.running).state ≠ .ready)
    (hu : unlinkTarget { s with running := tgt } tgt = .ok u) :
    threadInvoker s tgt fr =
      switchToStack ((enqueueOld u s.running).setState tgt .running) s.running fr := by
  unfold threadInvoker
  simp only [assert_of _ hready, assert_of _ hrun, hu, bind, Except.bind]

theorem enqueueOld_id (h : Core s) (ht : Target s tgt) :
    (((enqueueOld (unlinked s tgt) s.running).setState tgt .running).thread s.running).id =
      threadIdOfCount s.running := by
  rw [Sched.setState_thread, if_neg (ht.ne_running h).symm, enqueueOld_thread]
  exact h.ids _ h.running_lt

/-- `__thread_invoker` passes its assertions, finds the thread that it leaves, and goes on in
`tgt`. -/
theorem threadInvoker_eq (h : Core s) (ht : Target s tgt) :
    threadInvoker s tgt fr = .ok (resume (dispatched s tgt fr)) := by
  rw [threadInvoker_eq_switchToStack ht.ready h.running_state (unlinkTarget_eq h ht)]
  unfold switchToStack
  simp only [bind, Except.bind, enqueueOld_eq, enqueueOld_id h ht, petThreadCleanup_switched h ht]
  rfl

end Switching

/-! ## Choosing the next thread -/

/-- `pet_thread_schedule` returns at once, to a master thread that finds nothing to run, or it
invokes a thread: the master thread when the ready list is empty, and else its head. -/
theorem petThreadSchedule_invokes {s : Sched}
    (hready : ∀ p ∈ s.readyList, (s.thread p).state = .ready) (call : Call) :
    (s.readyList = [] ∧ s.running = masterDummyThread ∧
        petThreadSchedule s call = .ok (s, some (returnFrom s ⟨call, 0⟩))) ∨
      ∃ tgt ret, (s.readyList = [] ∧ s.running ≠ masterDummyThread ∧ tgt = masterDummyThread ∨
          tgt ∈ s.readyList) ∧ (call ≠ .schedule → ret = 0) ∧
        petThreadSchedule s call = threadInvoker s tgt ⟨call, ret⟩ := by
  unfold petThreadSchedule
  cases hrl : s.readyList with
  | nil =>
      by_cases hr : s.running = masterDummyThread
      · exact Or.inl ⟨rfl, hr, by simp [hr]⟩
      · refine Or.inr ⟨masterDummyThread, if call = .schedule then 9 else 0, Or.inl ⟨rfl, hr, rfl⟩,
          fun hc => if_neg hc, ?_⟩
        rw [if_pos ⟨rfl, hr⟩]
  | cons pos rest =>
      have hmem : pos ∈ s.readyList := by simp [hrl]
      refine Or.inr ⟨pos, 0, Or.inr List.mem_cons_self, fun _ => rfl, ?_⟩
      rw [if_neg (by simp)]
      simp only [assert_of _ (hready pos hmem), bind, Except.bind]

/-- From a `Core` state `pet_thread_schedule` returns at once, to a master thread that finds nothing
to run, or it switches: to the master thread when the ready list is empty, and else to its head. -/
theorem petThreadSchedule_outcome {s : Sched} (h : Core s) (call : Call) :
    (s.readyList = [] ∧ s.running = masterDummyThread ∧
        petThreadSchedule s call = .ok (s, some (returnFrom s ⟨call, 0⟩))) ∨
      ∃ tgt ret, Target s tgt ∧ (tgt = masterDummyThread ↔ s.readyList = []) ∧
        (call ≠ .schedule → ret = 0) ∧
        petThreadSchedule s call = .ok (resume (dispatched s tgt ⟨call, ret⟩)) := by
  rcases petThreadSchedule_invokes (fun p hp => ((h.mem_ready p).1 hp).2) call with
    hidle | ⟨tgt, ret, hchoice, hret, heq⟩
  · exact Or.inl hidle
  · right
    rcases hchoice with ⟨hrl, hr, rfl⟩ | hmem
    · have ht := Target.master h hr
      exact ⟨_, ret, ht, iff_of_true rfl hrl, hret, heq.trans (threadInvoker_eq h ht)⟩
    · have ht := Target.of_mem_ready h hmem
      have hm : tgt ≠ masterDummyThread := ((h.mem_ready tgt).1 hmem).1.1
      exact ⟨tgt, ret, ht, iff_of_false hm (List.ne_nil_of_mem hmem), hret,
        heq.trans (threadInvoker_eq h ht)⟩

end PetKernel.UserThreads
