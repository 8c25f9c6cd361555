import PetKernel.UserThreads.Runs

/-!
# Memory of exited threads that is used again

`stopped` is never cleared. After `pet_thread_cleanup` has freed a thread, `stopped` still points to
its descriptor, and `get_thread` goes on reading the id there. What it reads is what has been put
into that memory since: by `free`, or by whoever got the block from `malloc`.

`overlaid` is a state with other contents in descriptors that have been freed, and with `stopped`
pointing to one of them. The library reads such a descriptor in one place only, the lookup in
`get_thread`. So a call does what it does without, as long as its lookups do not come upon it
(`petCall_overlaid`).

The next `malloc` of `pet_thread_create` may return this very memory: `stopped` then points to the
descriptor of a new thread, and so it stays until another thread exits. `recycling` is the library
with this behaviour. There a stale `stopped` makes no difference, because `get_thread` would find
the new thread anyway (`getThread_aliased`, `petCall_aliased`).
-/

set_option autoImplicit false

namespace PetKernel.UserThreads

open PetKernel.Library

/-! ## The library with `malloc` -/

/-- `pet_thread_create` when `malloc` returns the memory that `stopped` points to. -/
def petThreadCreateReusing (s : Sched) : Sched × Return :=
  ({ (petThreadCreate s).1 with stopped := some s.threadIdCount }, (petThreadCreate s).2)

/-- The library as a machine, in which memory that was freed may be used for a new descriptor. -/
def recycling : Machine Sched Event where
  init s := s = petThreadInit
  step s e t :=
    petThreads.step s e t ∨
      (e.caller = s.running ∧ e.call = .create ∧ (∃ p ∈ s.freed, s.stopped = some p) ∧
        t = (petThreadCreateReusing s).1 ∧ e.returned = some (petThreadCreateReusing s).2)

/-- The state `s` with `stopped` pointing to the thread `o` where it would be null. -/
def aliased (o : Option ThreadPtr) (s : Sched) : Sched := { s with stopped := s.stopped.or o }

theorem aliased_none (s : Sched) : aliased none s = s := by
  rw [aliased, Option.or_none]

/-- `stopped` is not null any more when a thread has exited. -/
theorem aliased_of_stopped {s : Sched} {p : ThreadPtr} (h : s.stopped = some p)
    (o : Option ThreadPtr) : aliased o s = s := by
  rw [aliased, h, Option.some_or, ← h]

/-! ## Looking up a thread -/

/-- The descriptor of the thread has not been freed: it has not exited, or it exits just now. -/
def Held (s : Sched) (q : ThreadPtr) : Prop :=
  q < s.threadIdCount ∧ ((s.thread q).state = .stopped → q = s.running)

/-- `get_thread` looks at every thread that has not exited. -/
theorem Core.known_of_held {s : Sched} (h : Core s) {q : ThreadPtr} (hq : Held s q) :
    Known s q := by
  by_cases hr : q = s.running
  · exact Or.inr (Or.inl hr)
  · cases hst : (s.thread q).state with
    | stopped => exact absurd (hq.2 hst) hr
    | running => exact absurd (h.only_running q hq.1 hst) hr
    | blocked => exact Or.inr (Or.inr (Or.inr (Or.inr ((h.mem_blocked q).2 ⟨hr, hq.1, hst⟩))))
    | ready =>
        by_cases hm : q = masterDummyThread
        · exact Or.inl hm
        · exact Or.inr (Or.inr (Or.inr (Or.inl ((h.mem_ready q).2 ⟨⟨hm, hq.1⟩, hst⟩))))

section Lookup

variable {s : Sched} {o : Option ThreadPtr}

theorem known_aliased (ho : ∀ q, o = some q → Known s q) (p : ThreadPtr) :
    Known (aliased o s) p ↔ Known s p := by
  have hstopped : s.stopped.or o = some p → Known s p := by
    intro hp
    rcases Option.or_eq_some_iff.1 hp with hp | ⟨-, hp⟩
    · exact Or.inr (Or.inr (Or.inl hp))
    · exact ho p hp
  constructor
  · rintro (hp | hp | hp | hp)
    · exact Or.inl hp
    · exact Or.inr (Or.inl hp)
    · exact hstopped hp
    · exact Or.inr (Or.inr (Or.inr hp))
  · rintro (hp | hp | hp | hp)
    · exact Or.inl hp
    · exact Or.inr (Or.inl hp)
    · exact Or.inr (Or.inr (Or.inl (Option.or_eq_some_iff.2 (Or.inl hp))))
    · exact Or.inr (Or.inr (Or.inr hp))

/-- A stale `stopped` that points to a thread which is found anyway makes no difference. -/
theorem getThread_aliased (h : IdsOk s) (ho : ∀ q, o = some q → Known s q) (id : PetThreadId) :
    getThread (aliased o s) id = getThread s id := by
  have hids : IdsOk (aliased o s) :=
    ⟨h.few, fun p hp => h.known_lt p ((known_aliased ho p).1 hp), h.ids⟩
  cases hg : getThread s id with
  | some p =>
      obtain ⟨hp, rfl⟩ := getThread_sound h hg
      exact getThread_known hids ((known_aliased ho p).2 hp)
  | none =>
      cases ha : getThread (aliased o s) id with
      | none => rfl
      | some p =>
          obtain ⟨hp, rfl⟩ := getThread_sound hids ha
          rw [getThread_known h ((known_aliased ho p).1 hp)] at hg
          cases hg

end Lookup

/-! ## Descriptors that have been overwritten -/

/-- The state `s` when the descriptors in `d` hold something else, and with `stopped` pointing to
`o` where it would be null. -/
def overlaid (d : ThreadPtr → Option PetThread) (o : Option ThreadPtr) (s : Sched) : Sched :=
  { s with
    thread := fun p => (d p).getD (s.thread p)
    stopped := s.stopped.or o }

/-- With nothing overwritten only `stopped` is different. -/
theorem overlaid_none (o : Option ThreadPtr) (s : Sched) :
    overlaid (fun _ => none) o s = aliased o s := rfl

/-- Only descriptors of threads that have exited and been switched away from are overwritten. -/
def Spares (d : ThreadPtr → Option PetThread) (s : Sched) : Prop :=
  ∀ p, d p ≠ none → (s.thread p).state = .stopped ∧ p ≠ s.running

section Overlaid

variable {s : Sched} {d : ThreadPtr → Option PetThread} {o : Option ThreadPtr}
variable {p tgt : ThreadPtr} {fr : Frame}

theorem Spares.eq_none_of_ne (h : Spares d s) (hp : (s.thread p).state ≠ .stopped) :
    d p = none := by
  by_contra hne
  exact hp (h p hne).1

theorem Spares.running (h : Spares d s) : d s.running = none := by
  by_contra hne
  exact (h _ hne).2 rfl

theorem Spares.of_mem_ready (h : Spares d s) (hs : Core s) (hp : p ∈ s.readyList) : d p = none := by
  apply h.eq_none_of_ne
  rw [((hs.mem_ready p).1 hp).2]
  decide

theorem Spares.of_mem_blocked (h : Spares d s) (hs : Core s) (hp : p ∈ s.blockedList) :
    d p = none := by
  apply h.eq_none_of_ne
  rw [((hs.mem_blocked p).1 hp).2.2]
  decide

theorem overlaid_thread (hp : d p = none) : (overlaid d o s).thread p = s.thread p := by
  simp only [overlaid, hp, Option.getD_none]

/-- A write to a descriptor that is still in use. -/
theorem overlaid_update (hp : d p = none) (x : PetThread) :
    Function.update (overlaid d o s).thread p x =
      fun q => (d q).getD (Function.update s.thread p x q) := by
  funext q
  by_cases hq : q = p
  · subst hq
    rw [Function.update_self, Function.update_self, hp, Option.getD_none]
  · rw [Function.update_of_ne hq, Function.update_of_ne hq]
    rfl

theorem setState_overlaid (hp : d p = none) (st : ThreadRunState) :
    (overlaid d o s).setState p st = overlaid d o (s.setState p st) := by
  unfold Sched.setState
  rw [overlaid_thread hp, overlaid_update hp]
  rfl

theorem setReturnReciever_overlaid (hp : d p = none) (v : VoidPtr) :
    (overlaid d o s).setReturnReciever p v = overlaid d o (s.setReturnReciever p v) := by
  unfold Sched.setReturnReciever
  rw [overlaid_thread hp, overlaid_update hp]
  rfl

theorem setWaiting_overlaid (hp : d p = none) (ws : List ThreadPtr) :
    (overlaid d o s).setWaiting p ws = overlaid d o (s.setWaiting p ws) := by
  unfold Sched.setWaiting
  rw [overlaid_thread hp, overlaid_update hp]
  rfl

theorem waitingOn_overlaid (hr : d s.running = none) (hp : d p = none) :
    waitingOn (overlaid d o s) p = overlaid d o (waitingOn s p) := by
  unfold waitingOn
  show ((overlaid d o s).setState s.running .blocked).setWaiting p
    (((overlaid d o s).thread p).waitingForMeList ++ [s.running]) = _
  rw [overlaid_thread hp, setState_overlaid hr, setWaiting_overlaid hp]

/-- Only descriptors that `get_thread` does not look at, but for `stopped`, are overwritten. -/
theorem Spares.of_known (h : Spares d s) (hs : Core s)
    (hstop : ∀ q, s.stopped = some q → d q = none) (hp : Known s p) : d p = none := by
  rcases hp with rfl | rfl | hp | hp | hp
  · exact h.eq_none_of_ne hs.master_not_stopped
  · exact h.running
  · exact hstop p hp
  · exact h.of_mem_ready hs hp
  · exact h.of_mem_blocked hs hp

/-- A lookup that only comes upon descriptors in use. -/
theorem getThread_overlaid_eq_aliased (hknown : ∀ p, Known (aliased o s) p → d p = none)
    (id : PetThreadId) : getThread (overlaid d o s) id = getThread (aliased o s) id := by
  have hfind : ∀ l : List ThreadPtr, (∀ p ∈ l, Known (aliased o s) p) →
      (l.find? fun p => ((overlaid d o s).thread p).id = id) =
        l.find? fun p => (s.thread p).id = id := by
    intro l hl
    apply List.find?_congr
    intro p hp
    rw [overlaid_thread (hknown p (hl p hp))]
  have hrun : (overlaid d o s).thread s.running = s.thread s.running :=
    overlaid_thread (hknown _ (Or.inr (Or.inl rfl)))
  have hstop : ((s.stopped.or o).any fun p => ((overlaid d o s).thread p).id = id) =
      (s.stopped.or o).any fun p => (s.thread p).id = id := by
    cases hq : s.stopped.or o with
    | none => rfl
    | some q =>
        have hsame : (overlaid d o s).thread q = s.thread q :=
          overlaid_thread (hknown q (Or.inr (Or.inr (Or.inl hq))))
        show decide (((overlaid d o s).thread q).id = id) = decide ((s.thread q).id = id)
        rw [hsame]
  unfold getThread
  show (if id = petMasterThreadId then _
    else if ((overlaid d o s).thread s.running).id = id then _
    else if ((s.stopped.or o).any fun p => ((overlaid d o s).thread p).id = id) = true then _
    else (s.readyList.find? fun p => ((overlaid d o s).thread p).id = id).or
      (s.blockedList.find? fun p => ((overlaid d o s).thread p).id = id)) = _
  rw [hrun, hstop, hfind s.readyList fun p hp => Or.inr (Or.inr (Or.inr (Or.inl hp))),
    hfind s.blockedList fun p hp => Or.inr (Or.inr (Or.inr (Or.inr hp)))]
  rfl

/-- A lookup that passes over the descriptor `q` in `stopped`, since another id is found there. -/
theorem getThread_overlaid_of_ne {q : ThreadPtr} (hs : Core s) (hd : Spares d s)
    (hstopped : s.stopped = none) {id : PetThreadId}
    (hid : ((overlaid d (some q) s).thread q).id = id → id = petMasterThreadId) :
    getThread (overlaid d (some q) s) id = getThread s id := by
  have hnone : getThread (overlaid d none s) id = getThread s id := by
    rw [getThread_overlaid_eq_aliased, aliased_none]
    intro p hp
    rw [aliased_none] at hp
    refine hd.of_known hs (fun q hq => ?_) hp
    rw [hstopped] at hq
    cases hq
  rw [← hnone]
  by_cases hm : id = petMasterThreadId
  · rw [hm]
    rfl
  · have hpass : ((s.stopped.or (some q)).any fun p => ((overlaid d (some q) s).thread p).id = id) =
        false := by
      rw [hstopped]
      exact decide_eq_false fun heq => hm (hid heq)
    have hempty : ((s.stopped.or none).any fun p => ((overlaid d none s).thread p).id = id) =
        false := by
      rw [hstopped]
      rfl
    unfold getThread
    rw [if_neg hm, if_neg hm]
    show (if _ then _ else if ((s.stopped.or (some q)).any _) = true then _ else _) =
      if _ then _ else if ((s.stopped.or none).any _) = true then _ else _
    rw [hpass, hempty]
    rfl

/-- The lookup in `get_thread`, when it does not come upon a descriptor that has been overwritten:
`stopped` points to a thread that is found anyway, or another id is found there. -/
theorem getThread_overlaid (hs : Core s) (hd : Spares d s)
    (hstop : ∀ q, s.stopped = some q → d q = none) {id : PetThreadId}
    (hid : s.stopped = none → ∀ q, o = some q →
      Known s q ∨ (((overlaid d o s).thread q).id = id → id = petMasterThreadId)) :
    getThread (overlaid d o s) id = getThread s id := by
  have hspared := fun p => hd.of_known (p := p) hs hstop
  cases hstopped : s.stopped with
  | some p =>
      rw [getThread_overlaid_eq_aliased, aliased_of_stopped hstopped]
      rwa [aliased_of_stopped hstopped]
  | none =>
      cases o with
      | none =>
          rw [getThread_overlaid_eq_aliased, aliased_none]
          rwa [aliased_none]
      | some q =>
          rcases hid hstopped q rfl with hq | hne
          · have hfound : ∀ p, some q = some p → Known s p := by
              rintro p ⟨rfl⟩
              exact hq
            rw [getThread_overlaid_eq_aliased, getThread_aliased hs.idsOk hfound]
            intro p hp
            exact hspared p ((known_aliased hfound p).1 hp)
          · exact getThread_overlaid_of_ne hs hd hstopped hne

/-! ## Calls -/

/-- The outcome of a call, with the descriptors in `d` overwritten and `stopped` pointing to `o`. -/
def overlaidResult (d : ThreadPtr → Option PetThread) (o : Option ThreadPtr)
    (r : Sched × Option Return) : Sched × Option Return :=
  (overlaid d o r.1, r.2)

theorem listDel_overlaid (p : ThreadPtr) :
    (overlaid d o s).listDel p = (s.listDel p).map (overlaid d o) := by
  unfold Sched.listDel
  show (if p ∈ s.readyList then _ else if p ∈ s.blockedList then _ else _) = _
  split
  · rfl
  · split <;> rfl

theorem unlinkTarget_overlaid :
    unlinkTarget (overlaid d o s) tgt = (unlinkTarget s tgt).map (overlaid d o) := by
  unfold unlinkTarget
  split
  · exact listDel_overlaid tgt
  · rfl

/-- An exit overwrites `stopped`. -/
theorem enqueueOld_overlaid {old : ThreadPtr} (hold : d old = none) :
    enqueueOld (overlaid d o s) old = overlaid d o (enqueueOld s old) := by
  have hsame : (overlaid d o s).thread old = s.thread old := overlaid_thread hold
  cases hst : (s.thread old).state with
  | running =>
      simp only [enqueueOld, hsame, hst]
      split
      · exact setState_overlaid (s := { s with readyList := s.readyList ++ [old] }) hold _
      · exact setState_overlaid hold _
  | blocked =>
      simp only [enqueueOld, hsame, hst]
      rfl
  | stopped =>
      simp only [enqueueOld, hsame, hst]
      rfl
  | ready => simp only [enqueueOld, hsame, hst]

theorem returnFrom_overlaid (hr : d s.running = none) (fr : Frame) :
    returnFrom (overlaid d o s) fr = returnFrom s fr := by
  have hsame : (overlaid d o s).thread (overlaid d o s).running = s.thread s.running :=
    overlaid_thread hr
  unfold returnFrom
  rw [hsame]
  rfl

theorem resume_overlaid (hr : d s.running = none) :
    resume (overlaid d o s) = overlaidResult d o (resume s) := by
  cases hsus : s.suspended s.running with
  | none =>
      have hsus' : (overlaid d o s).suspended (overlaid d o s).running = none := hsus
      simp only [resume, hsus, hsus']
      rfl
  | some fr =>
      have hsus' : (overlaid d o s).suspended (overlaid d o s).running = some fr := hsus
      simp only [resume, hsus, hsus', returnFrom_overlaid hr]
      rfl

theorem wakeWaiters_overlaid (v : VoidPtr) : ∀ (ws : List ThreadPtr) (s : Sched),
    d s.running = none → (∀ w ∈ ws, d w = none) →
      wakeWaiters v ws (overlaid d o s) = (wakeWaiters v ws s).map (overlaid d o) := by
  intro ws
  -- the loop looks at the waiters and at the list of the running thread, which are as they were
  induction ws with
  | nil =>
      intro s _ _
      rfl
  | cons w ws ih =>
      intro s hr hws
      have hw := hws w List.mem_cons_self
      rw [wakeWaiters, wakeWaiters, overlaid_thread hw, setReturnReciever_overlaid hw,
        setState_overlaid hw]
      show (assert ((s.thread w).state = .blocked) _ >>= fun _ =>
        (overlaid d o ((s.setReturnReciever w v).setState w .ready)).listDel w >>= _) = _
      rw [listDel_overlaid]
      cases assert ((s.thread w).state = .blocked) .quarantineWaiterBlocked with
      | error f => rfl
      | ok _ =>
          cases hdel : ((s.setReturnReciever w v).setState w .ready).listDel w with
          | error f => simp [bind, Except.bind, Except.map, hdel]
          | ok u =>
              -- `list_del` leaves the running thread as it is
              have hu : u.running = s.running := by
                unfold Sched.listDel at hdel
                split at hdel
                · cases hdel
                  rfl
                · split at hdel
                  · cases hdel
                    rfl
                  · cases hdel
              have hru : d u.running = none := hu ▸ hr
              simp only [bind, Except.bind, Except.map, hdel]
              have hset := setWaiting_overlaid (d := d) (o := o)
                (s := { u with readyList := u.readyList ++ [w] }) hru ws
              refine Eq.trans ?_ (ih (Sched.setWaiting { u with readyList := u.readyList ++ [w] }
                u.running ws) hru fun w' hw' => hws w' (List.mem_cons_of_mem w hw'))
              rw [← hset]
              rfl

theorem petThreadCleanup_overlaid {prevId : PetThreadId}
    (hg : getThread (overlaid d o s) prevId = getThread s prevId)
    (hprev : ∀ p, getThread s prevId = some p → d p = none) :
    petThreadCleanup (overlaid d o s) prevId = (petThreadCleanup s prevId).map (overlaid d o) := by
  unfold petThreadCleanup
  rw [hg]
  cases hp : getThread s prevId with
  | none => rfl
  | some p =>
      show (if ((overlaid d o s).thread p).state = .stopped then _ else _) =
        Except.map (overlaid d o) (if (s.thread p).state = .stopped then _ else _)
      rw [overlaid_thread (hprev p hp)]
      split <;> rfl

theorem switchToStack_overlaid {old : ThreadPtr} (hold : d old = none) (hr : d s.running = none)
    (hg : getThread (overlaid d o (s.suspend old fr)) (s.thread old).id =
      getThread (s.suspend old fr) (s.thread old).id)
    (hprev : ∀ p, getThread (s.suspend old fr) (s.thread old).id = some p → d p = none) :
    switchToStack (overlaid d o s) old fr = (switchToStack s old fr).map (overlaidResult d o) := by
  have hcleanup : petThreadCleanup ((overlaid d o s).suspend old fr)
      ((overlaid d o s).thread old).id =
        (petThreadCleanup (s.suspend old fr) (s.thread old).id).map (overlaid d o) := by
    rw [overlaid_thread hold]
    exact petThreadCleanup_overlaid hg hprev
  unfold switchToStack
  rw [hcleanup]
  cases hu : petThreadCleanup (s.suspend old fr) (s.thread old).id with
  | error f => rfl
  | ok u =>
      -- `pet_thread_cleanup` leaves the running thread as it is
      have hrun : u.running = s.running := by
        unfold petThreadCleanup at hu
        split at hu
        · cases hu
        · split at hu <;> cases hu <;> rfl
      show Except.ok (resume (overlaid d o u)) = .ok (overlaidResult d o (resume u))
      rw [resume_overlaid (hrun ▸ hr)]

theorem threadInvoker_overlaid_eq_switchToStack {u : Sched} (hd : Spares d s)
    (hready : (s.thread tgt).state = .ready) (hrun : (s.thread s.running).state ≠ .ready)
    (hu : unlinkTarget { s with running := tgt } tgt = .ok u) :
    threadInvoker (overlaid d o s) tgt fr =
      switchToStack (overlaid d o ((enqueueOld u s.running).setState tgt .running))
        s.running fr := by
  have htgt : d tgt = none := hd.eq_none_of_ne (hready ▸ by decide)
  have hua : unlinkTarget { overlaid d o s with running := tgt } tgt = .ok (overlaid d o u) := by
    show unlinkTarget (overlaid d o { s with running := tgt }) tgt = _
    rw [unlinkTarget_overlaid, hu]
    rfl
  have hready' : ((overlaid d o s).thread tgt).state = .ready := by rwa [overlaid_thread htgt]
  have hrun' : ((overlaid d o s).thread (overlaid d o s).running).state ≠ .ready := by
    show ((overlaid d o s).thread s.running).state ≠ .ready
    rwa [overlaid_thread hd.running]
  rw [threadInvoker_eq_switchToStack hready' hrun' hua]
  show switchToStack ((enqueueOld (overlaid d o u) s.running).setState tgt .running) s.running fr =
    _
  rw [enqueueOld_overlaid hd.running, setState_overlaid htgt]

/-- `__thread_invoker` is one call of `__switch_to_stack`, from the same state but for what has been
overwritten. -/
theorem threadInvoker_overlaid_switches (h : Core s) (ht : Target s tgt) (fr : Frame) :
    ∃ c, c.suspend s.running fr = switched s tgt fr ∧
      threadInvoker s tgt fr = switchToStack c s.running fr ∧
      ∀ d o, Spares d s →
        threadInvoker (overlaid d o s) tgt fr = switchToStack (overlaid d o c) s.running fr :=
  ⟨_, enqueueOld_eq, threadInvoker_eq_switchToStack ht.ready h.running_state (unlinkTarget_eq h ht),
    fun _ _ hd =>
      threadInvoker_overlaid_eq_switchToStack hd ht.ready h.running_state (unlinkTarget_eq h ht)⟩

/-- What a call finds when it has left its thread: the lookup of `pet_thread_cleanup` does not come
upon what has been overwritten. -/
def FindsOld (d : ThreadPtr → Option PetThread) (o : Option ThreadPtr) (s : Sched) : Prop :=
  ∀ tgt fr, Target s tgt →
    getThread (overlaid d o (switched s tgt fr)) (threadIdOfCount s.running) =
      getThread (switched s tgt fr) (threadIdOfCount s.running)

theorem threadInvoker_overlaid (h : Core s) (hd : Spares d s) (ht : Target s tgt)
    (hfinds : FindsOld d o s) :
    threadInvoker (overlaid d o s) tgt fr = (threadInvoker s tgt fr).map (overlaidResult d o) := by
  obtain ⟨c, hc, hinvoke, hover⟩ := threadInvoker_overlaid_switches h ht fr
  have hid : (c.thread s.running).id = threadIdOfCount s.running := by
    have hsame : (c.thread s.running).id =
      ((switched s tgt fr).thread s.running).id := by rw [← hc]; rfl
    rw [hsame]
    exact h.ids _ h.running_lt
  have hcrun : c.running = tgt := congrArg Sched.running hc
  rw [hinvoke, hover d o hd]
  apply switchToStack_overlaid hd.running
  · rw [hcrun]
    exact hd.eq_none_of_ne (ht.ready ▸ by decide)
  · rw [hc, hid]
    exact hfinds tgt fr ht
  · rw [hc, hid, getThread_known (settled_switched h ht).idsOk (known_switched_old h)]
    rintro p ⟨rfl⟩
    exact hd.running

theorem petThreadSchedule_overlaid (h : Core s) (hd : Spares d s) (hfinds : FindsOld d o s)
    (call : Call) :
    petThreadSchedule (overlaid d o s) call =
      (petThreadSchedule s call).map (overlaidResult d o) := by
  unfold petThreadSchedule
  show (if s.readyList = [] ∧ s.running ≠ masterDummyThread then threadInvoker (overlaid d o s) _ _
    else _) = _
  split
  next hr => exact threadInvoker_overlaid h hd (Target.master h hr.2) hfinds
  next =>
    cases hrl : s.readyList with
    | nil =>
        have hrl' : (overlaid d o s).readyList = [] := hrl
        simp only [hrl', returnFrom_overlaid hd.running]
        rfl
    | cons pos rest =>
        have hrl' : (overlaid d o s).readyList = pos :: rest := hrl
        have hpos : pos ∈ s.readyList := hrl ▸ List.mem_cons_self
        have ht : Target s pos := Target.of_mem_ready h hpos
        have hready : ((overlaid d o s).thread pos).state = .ready := by
          rw [overlaid_thread (hd.of_mem_ready h hpos)]
          exact ht.ready
        simp only [hrl', assert_of _ hready, assert_of _ ht.ready, bind, Except.bind]
        exact threadInvoker_overlaid h hd ht hfinds

theorem woken_overlaid {v : VoidPtr} {ws : List ThreadPtr} (hr : d s.running = none)
    (hws : ∀ w ∈ ws, d w = none) : woken (overlaid d o s) v ws = overlaid d o (woken s v ws) := by
  refine Sched.ext rfl (funext fun q => ?_) rfl rfl rfl rfl rfl rfl
  by_cases hq : d q = none
  · show _ = (overlaid d o (woken s v ws)).thread q
    rw [overlaid_thread hq]
    simp only [woken, overlaid_thread hq]
    rfl
  · -- a descriptor that has been overwritten is neither a waiter nor the running thread
    have hqr : q ≠ s.running := fun he => hq (he ▸ hr)
    have hqw : q ∉ ws := fun hw => hq (hws q hw)
    obtain ⟨x, hx⟩ := Option.ne_none_iff_exists'.1 hq
    simp [woken, overlaid, hx, hqr, hqw]

theorem retired_overlaid {v : VoidPtr} (h : Settled s) (hd : Spares d s) :
    retired (overlaid d o s) v = overlaid d o (retired s v) := by
  have hws : ∀ w ∈ (s.thread s.running).waitingForMeList, d w = none := fun w hw =>
    hd.eq_none_of_ne (by rw [(h.waiting_blocked _ _ hw).2]; decide)
  unfold retired
  show (woken (overlaid d o s) v ((overlaid d o s).thread s.running).waitingForMeList).setState
    s.running .stopped = _
  rw [overlaid_thread hd.running, woken_overlaid hd.running hws, setState_overlaid hd.running]

theorem quarantine_overlaid (h : Settled s) (hd : Spares d s) (hr : s.running ≠ masterDummyThread)
    {v : VoidPtr} (call : Call) :
    quarantine (overlaid d o s) v call = petThreadSchedule (overlaid d o (retired s v)) call := by
  have hrun : (overlaid d o s).thread (overlaid d o s).running = s.thread s.running :=
    overlaid_thread hd.running
  have hws : ∀ w ∈ (s.thread s.running).waitingForMeList, d w = none := fun w hw =>
    hd.eq_none_of_ne (by rw [(h.waiting_blocked _ _ hw).2]; decide)
  rw [← retired_overlaid h hd]
  apply quarantine_eq_of_wake (s := overlaid d o s)
  · rw [hrun, wakeWaiters_overlaid v _ s hd.running hws, h.wakeWaiters,
      woken_overlaid hd.running hws]
    rfl
  · rw [hrun]
    exact h.running_running
  · rw [hrun]
    exact h.running_not_waiting _
  · exact hr

/-- The first half of a call leaves the exited threads alone. -/
theorem Spares.prepared {s₁ : Sched} {call : Call} (hd : Spares d s) (hp : Prepared s call s₁)
    (h : Settled s) : Spares d s₁ := by
  intro p hne
  rw [hp.running_eq]
  exact ⟨(hp.state_eq_stopped h p).2 (Or.inl (hd p hne).1), (hd p hne).2⟩

/-- The id that a call names. -/
def Call.named : Call → Option PetThreadId
  | .join id => some id
  | .yieldTo id => some id
  | _ => none

/-- A call whose lookups do not come upon what has been overwritten does what it does without. -/
theorem petCall_overlaid (h : Settled s) (hd : Spares d s) {call : Call} (ha : Admissible s call)
    (hnamed : ∀ id, call.named = some id → getThread (overlaid d o s) id = getThread s id)
    (hsame : ∀ id p, call.named = some id → getThread s id = some p → d p = none)
    (hfresh : d s.threadIdCount = none)
    (hfinds : ∀ s₁, Prepared s call s₁ → FindsOld d o s₁) :
    petCall (overlaid d o s) call = (petCall s call).map (overlaidResult d o) := by
  have hschedule : ∀ {s₁}, Prepared s call s₁ → petThreadSchedule (overlaid d o s₁) call =
      (petThreadSchedule s₁ call).map (overlaidResult d o) := fun hp =>
    petThreadSchedule_overlaid (hp.core h) (hd.prepared hp h) (hfinds _ hp) call
  cases call with
  | create =>
      show Except.ok (_, _) = Except.ok (overlaid d o (petThreadCreate s).1, _)
      refine congrArg (fun t => Except.ok (t, _)) ?_
      refine Sched.ext rfl ?_ rfl rfl rfl rfl rfl rfl
      exact overlaid_update hfresh _
  | schedule => exact hschedule .schedule
  | run => exact hschedule .run
  | yieldTo id =>
      show yieldTo (overlaid d o s) (getThread (overlaid d o s) id) _ =
        (yieldTo s (getThread s id) _).map (overlaidResult d o)
      rw [hnamed id rfl]
      cases hg : getThread s id with
      | none => exact hschedule (.yieldTo id)
      | some tgt =>
          show (if ((overlaid d o s).thread tgt).state ≠ .ready then _ else _) =
            Except.map _ (if (s.thread tgt).state ≠ .ready then _ else _)
          rw [overlaid_thread (hsame id tgt rfl hg)]
          split
          next => exact hschedule (.yieldTo id)
          next hst =>
            have hlt := h.idsOk.known_lt tgt (getThread_sound h.idsOk hg).1
            exact threadInvoker_overlaid h.toCore hd ⟨hlt, not_not.1 hst⟩ (hfinds _ (.yieldTo id))
  | join id =>
      show petThreadJoin (overlaid d o s) id = (petThreadJoin s id).map (overlaidResult d o)
      cases hg : getThread s id with
      | none =>
          simp only [petThreadJoin, hnamed id rfl, hg]
          rfl
      | some p =>
          obtain ⟨hk, hid⟩ := getThread_sound h.idsOk hg
          have hp : p ≠ masterDummyThread := by
            rintro rfl
            exact ha.1 hid
          have hr : s.running ≠ masterDummyThread := by
            intro hm
            rw [ha.2 hm] at hg
            cases hg
          have hprep : Prepared s (.join id) (waitingOn s p) :=
            .join hg ⟨hp, h.idsOk.known_lt p hk⟩ hr
          have hrun : ((overlaid d o s).thread (overlaid d o s).running).state = .running := by
            show ((overlaid d o s).thread s.running).state = .running
            rw [overlaid_thread hd.running]
            exact h.running_running
          rw [petThreadJoin_eq h.running_running hg hp,
            petThreadJoin_eq hrun ((hnamed id rfl).trans hg) hp,
            waitingOn_overlaid hd.running (hsame id p rfl hg)]
          exact hschedule hprep
  | exit path v =>
      have hprep : Prepared s (.exit path v) (retired s v) := .exit path v ha
      have hexit : ∀ call, FindsOld d o (retired s v) → quarantine (overlaid d o s) v call =
          (quarantine s v call).map (overlaidResult d o) := by
        intro call hold
        rw [quarantine_overlaid h hd ha, quarantine_eq h ha]
        exact petThreadSchedule_overlaid (hprep.core h) (hd.prepared hprep h) hold _
      cases path with
      | petThreadExit => exact hexit _ (hfinds _ hprep)
      | captureReturn => exact hexit _ (hfinds _ hprep)

end Overlaid

/-! ## A new thread in the memory of an exited one -/

section Aliased

variable {s : Sched} {o : Option ThreadPtr} {tgt : ThreadPtr} {fr : Frame}

/-- A thread that has not exited is still held when a call looks for another thread. -/
theorem Prepared.held {s₁ : Sched} {call : Call} (hp : Prepared s call s₁) (h : Settled s)
    {q : ThreadPtr} (hlt : q < s.threadIdCount) (hq : (s.thread q).state ≠ .stopped) :
    Held s₁ q := by
  refine ⟨hp.threadIdCount_eq ▸ hlt, fun hst => ?_⟩
  rcases (hp.state_eq_stopped h q).1 hst with hold | ⟨hr, -⟩
  · exact absurd hold hq
  · exact hr.symm.trans hp.running_eq.symm

/-- The thread `o` has not exited. -/
def Unexited (s : Sched) (o : Option ThreadPtr) : Prop :=
  ∀ q, o = some q → q < s.threadIdCount ∧ (s.thread q).state ≠ .stopped

theorem Unexited.held {s₁ : Sched} {call : Call} (ho : Unexited s o) (hp : Prepared s call s₁)
    (h : Settled s) : ∀ q, o = some q → Held s₁ q :=
  fun q hq => hp.held h (ho q hq).1 (ho q hq).2

theorem Unexited.getThread (ho : Unexited s o) (h : Settled s) (id : PetThreadId) :
    getThread (aliased o s) id = UserThreads.getThread s id :=
  getThread_aliased h.idsOk (fun q hq => h.known_of_held (ho.held .run h q hq)) id

end Aliased

end PetKernel.UserThreads
