import PetKernel.UserThreads.Completion

/-!
# Who runs next

The ready list is a queue. `pet_thread_schedule` takes its head; a thread that gives up the
processor, a thread that is created and a waiter that is woken are put at its end.
`pet_thread_yield_to` takes a thread from the middle.

For a thread on the ready list it is what is `ahead` of it that matters. No call makes it longer
(`Outcome.ahead_sublist`), and as long as nobody yields to a thread of choice, the processor goes to
the first one ahead (`Outcome.ahead_cases`). So threads run in the order of the list, each of them
once before the thread gets its turn (`ready_list_in_order`). An explicit yield can pass it over,
and two threads that yield to each other do so for ever (`yields_pass_over`).
-/

set_option autoImplicit false

namespace PetKernel.UserThreads

open PetKernel.Library

/-! ## The threads ahead -/

/-- The threads of a list before `p`. -/
def ahead (l : List ThreadPtr) (p : ThreadPtr) : List ThreadPtr := l.takeWhile fun q => q ≠ p

section Ahead

variable {l : List ThreadPtr} {p q : ThreadPtr}

theorem ahead_cons_of_ne (h : q ≠ p) : ahead (q :: l) p = q :: ahead l p := by
  rw [ahead, List.takeWhile_cons_of_pos (by simpa using h)]
  rfl

theorem mem_of_mem_ahead (h : q ∈ ahead l p) : q ∈ l := (List.takeWhile_prefix _).subset h

/-- What is put at the end is not ahead. -/
theorem ahead_append (h : p ∈ l) (l' : List ThreadPtr) : ahead (l ++ l') p = ahead l p := by
  induction l with
  | nil => cases h
  | cons a l ih =>
      by_cases ha : a = p
      · simp [ahead, ha]
      · rw [List.cons_append, ahead_cons_of_ne ha, ahead_cons_of_ne ha,
          ih ((List.mem_cons.1 h).resolve_left (Ne.symm ha))]

/-- Another thread is taken out. -/
theorem ahead_erase_sublist (h : q ≠ p) : (ahead (l.erase q) p).Sublist (ahead l p) := by
  induction l with
  | nil => exact List.Sublist.refl _
  | cons a l ih =>
      by_cases haq : a = q
      · subst haq
        rw [List.erase_cons_head, ahead_cons_of_ne h]
        exact List.sublist_cons_self _ _
      · rw [List.erase_cons_tail (by simpa using haq)]
        by_cases hap : a = p
        · simp [ahead, hap]
        · rw [ahead_cons_of_ne hap, ahead_cons_of_ne hap]
          exact ih.cons_cons a

end Ahead

/-! ## One call -/

section OneCall

variable {s s₁ : Sched} {call : Call} {p : ThreadPtr} {r : Sched × Option Return}

/-- From a ready list that is not empty `pet_thread_schedule` takes the head. -/
theorem petThreadSchedule_head (h : Core s) {pos : ThreadPtr} {rest : List ThreadPtr}
    (hlist : s.readyList = pos :: rest) (call : Call) :
    petThreadSchedule s call = .ok (resume (dispatched s pos ⟨call, 0⟩)) := by
  have hmem : pos ∈ s.readyList := hlist ▸ List.mem_cons_self
  have ht := Target.of_mem_ready h hmem
  have hne : ¬ (s.readyList = [] ∧ s.running ≠ masterDummyThread) :=
    fun hnil => List.ne_nil_of_mem hmem hnil.1
  rw [petThreadSchedule, if_neg hne, hlist]
  simp only [assert_of _ ht.ready, bind, Except.bind]
  exact threadInvoker_eq h ht

/-- Before a call looks for a thread it may put waiters at the end of the list. -/
theorem Prepared.readyList_eq (hp : Prepared s call s₁) :
    ∃ more, s₁.readyList = s.readyList ++ more := by
  cases hp with
  | exit path v hr => exact ⟨(s.thread s.running).waitingForMeList, rfl⟩
  | _ => exact ⟨[], (List.append_nil _).symm⟩

/-- A call other than an explicit yield leaves the choice to `pet_thread_schedule`. -/
theorem Prepared.petCall_eq (hp : Prepared s call s₁) (h : Settled s)
    (hyield : call.isYieldTo = false) : petCall s call = petThreadSchedule s₁ call := by
  cases hp with
  | schedule => rfl
  | run => rfl
  | yieldTo id => cases hyield
  | join hg hc hr => exact petThreadJoin_eq h.running_running hg hc.1
  | exit path v hr =>
      cases path with
      | petThreadExit => exact quarantine_eq h hr _
      | captureReturn => exact quarantine_eq h hr _

theorem resume_dispatched_readyList (tgt : ThreadPtr) (fr : Frame) :
    ∃ more, (resume (dispatched s tgt fr)).1.readyList = s.readyList.erase tgt ++ more := by
  rw [resume_readyList]
  exact ⟨_, rfl⟩

theorem resume_dispatched_running (tgt : ThreadPtr) (fr : Frame) :
    (resume (dispatched s tgt fr)).1.running = tgt := by
  rw [resume_running]
  rfl

/-- No call moves a ready thread back. -/
theorem Outcome.ahead_sublist (ho : Outcome s call r) (hp : p ∈ s.readyList) :
    r.1.running = p ∨
      (p ∈ r.1.readyList ∧ (ahead r.1.readyList p).Sublist (ahead s.readyList p)) := by
  cases ho with
  | created =>
      refine Or.inr ⟨List.mem_append_left _ hp, ?_⟩
      show (ahead (s.readyList ++ [s.threadIdCount]) p).Sublist _
      rw [ahead_append hp]
  | notFound _ => exact Or.inr ⟨hp, List.Sublist.refl _⟩
  | idle _ hnil _ => exact absurd hnil (List.ne_nil_of_mem hp)
  | @switch call s₁ tgt ret hprep ht _ _ =>
      rw [resume_dispatched_running]
      by_cases htgt : tgt = p
      · exact Or.inl htgt
      · obtain ⟨more, hmore⟩ := hprep.readyList_eq
        obtain ⟨old, hold⟩ := resume_dispatched_readyList (s := s₁) tgt ⟨call, ret⟩
        have hmem : p ∈ (s.readyList ++ more).erase tgt :=
          (List.mem_erase_of_ne (Ne.symm htgt)).2 (List.mem_append_left _ hp)
        rw [hold, hmore, ahead_append hmem]
        refine Or.inr ⟨List.mem_append_left _ hmem, ?_⟩
        rw [← ahead_append hp more]
        exact ahead_erase_sublist htgt

/-- Without an explicit yield: nothing happens to the processor, or the first thread ahead gets it,
or the thread itself. -/
theorem Outcome.ahead_cases (ho : Outcome s call r) (h : Settled s) (hcall : petCall s call = .ok r)
    (hyield : call.isYieldTo = false) (hp : p ∈ s.readyList) :
    (r.1.running = s.running ∧ ahead r.1.readyList p = ahead s.readyList p) ∨ r.1.running = p ∨
      ahead s.readyList p = r.1.running :: ahead r.1.readyList p := by
  cases ho with
  | created => exact Or.inl ⟨rfl, ahead_append hp _⟩
  | notFound _ => exact Or.inl ⟨rfl, rfl⟩
  | idle _ hnil _ => exact absurd hnil (List.ne_nil_of_mem hp)
  | @switch call s₁ tgt ret hprep ht _ _ =>
      right
      obtain ⟨more, hmore⟩ := hprep.readyList_eq
      obtain ⟨pos, rest, hlist⟩ := List.exists_cons_of_ne_nil (List.ne_nil_of_mem hp)
      have hlist₁ : s₁.readyList = pos :: (rest ++ more) := by rw [hmore, hlist]; rfl
      -- the thread that runs is the head of the list
      rw [hprep.petCall_eq h hyield, petThreadSchedule_head (hprep.core h) hlist₁] at hcall
      rw [← Except.ok.inj hcall, resume_dispatched_running]
      by_cases hpos : pos = p
      · exact Or.inl hpos
      · obtain ⟨old, hold⟩ := resume_dispatched_readyList (s := s₁) pos ⟨call, 0⟩
        rw [hlist] at hp
        have hrest : p ∈ rest := (List.mem_cons.1 hp).resolve_left (Ne.symm hpos)
        right
        rw [hold, hlist₁, List.erase_cons_head, List.append_assoc, ahead_append hrest, hlist,
          ahead_cons_of_ne hpos]

end OneCall

/-! ## Runs -/

/-- What one step of a client does. -/
theorem clients_step {es : List Event} {s t : Sched} {e : Event} (h : clients.Reach es s)
    (hst : clients.step s e t) :
    Settled s ∧ e.caller = s.running ∧ petCall s e.call = .ok (t, e.returned) ∧
      Outcome s e.call (t, e.returned) := by
  have hs := (clients_runInv h).settled
  obtain ⟨hclient, hcaller, hcall⟩ := hst
  obtain ⟨r, hr, ho⟩ := petCall_outcome hs (hclient.admissible hs.toCore)
  obtain rfl := Except.ok.inj (hcall.symm.trans hr)
  exact ⟨hs, hcaller, hcall, ho⟩

/-- The first call of a run is one of the running thread. -/
theorem callers_of_path {s t : Sched} {fs : List Event} (h : clients.Path s fs t) :
    fs = [] ∨ ∃ callers, fs.map Event.caller = s.running :: callers := by
  cases h with
  | nil => exact Or.inl rfl
  | cons hst _ => exact Or.inr ⟨_, by rw [List.map_cons, hst.2.1]⟩

/-- The processor goes to `a`, and then to the threads of a list. -/
theorem destutter_cons_prefix {a b : ThreadPtr} {callers l : List ThreadPtr}
    (hfirst : callers = [] ∨ ∃ rest, callers = b :: rest)
    (hrest : callers.destutter (· ≠ ·) <+: b :: l) :
    (a ≠ b → (a :: callers).destutter (· ≠ ·) <+: a :: b :: l) ∧
      (a = b → (a :: callers).destutter (· ≠ ·) <+: b :: l) := by
  rcases hfirst with rfl | ⟨rest, rfl⟩
  · rw [List.destutter_singleton]
    exact ⟨fun _ => List.prefix_append [a] (b :: l), fun heq => heq ▸ List.prefix_append [a] l⟩
  · rw [List.destutter_cons'] at hrest ⊢
    refine ⟨fun hne => ?_, fun heq => ?_⟩
    · rw [List.destutter'_cons_pos _ hne]
      exact (List.prefix_cons_inj a).2 hrest
    · rw [List.destutter'_cons_neg _ (not_not.2 heq), heq]
      exact hrest

/-- The order in which ready threads run. Take a thread on the ready list and what the clients do
until it runs. In every such run it stays on the list, and no thread gets ahead of it that was not
ahead before. If no thread yields to another of its choice, then the processor passes from the
running thread to the threads ahead, in their order, and to no other one, so that none of them gets
it twice. -/
theorem ready_list_in_order {es fs : List Event} {s t : Sched} {p : ThreadPtr}
    (h : clients.Reach es s) (hpath : clients.Path s fs t) (hp : p ∈ s.readyList)
    (hwaits : ∀ e ∈ fs, e.caller ≠ p) :
    (t.running = p ∨ (p ∈ t.readyList ∧ (ahead t.readyList p).Sublist (ahead s.readyList p))) ∧
      ((∀ e ∈ fs, e.call.isYieldTo = false) →
        (fs.map Event.caller).destutter (· ≠ ·) <+: s.running :: ahead s.readyList p) := by
  -- on the path: a call leaves the threads ahead of `p` as they are, or takes one of them off
  induction hpath generalizing es with
  | nil => exact ⟨Or.inr ⟨hp, List.Sublist.refl _⟩, fun _ => List.nil_prefix⟩
  | @cons s u t e fs hst hrest ih =>
      obtain ⟨hs, hcaller, hcall, ho⟩ := clients_step h hst
      have hwaits' : ∀ e ∈ fs, e.caller ≠ p := fun e he => hwaits e (List.mem_cons_of_mem _ he)
      rw [List.map_cons, hcaller]
      rcases ho.ahead_sublist hp with hruns | ⟨hpu, hsub⟩
      · -- the thread runs, and it has made no call: the run is over
        obtain rfl : fs = [] := by
          rcases callers_of_path hrest with hnil | ⟨callers, hcallers⟩
          · exact hnil
          · obtain ⟨e', he', heq⟩ := List.mem_map.1 (hcallers ▸ List.mem_cons_self)
            exact absurd (heq.trans hruns) (hwaits' e' he')
        cases hrest
        exact ⟨Or.inl hruns, fun _ => List.prefix_append [s.running] _⟩
      · obtain ⟨hstill, horder⟩ := ih (h.step hst) hpu hwaits'
        refine ⟨hstill.imp id fun hready => ⟨hready.1, hready.2.trans hsub⟩, fun hyields => ?_⟩
        have hfirst : fs.map Event.caller = [] ∨ ∃ rest, fs.map Event.caller = u.running :: rest :=
          (callers_of_path hrest).imp (fun hnil => by rw [hnil]; rfl) id
        have hprefix := destutter_cons_prefix (a := s.running) hfirst
          (horder fun e he => hyields e (List.mem_cons_of_mem _ he))
        rcases ho.ahead_cases hs hcall (hyields e List.mem_cons_self) hp with
          ⟨hsame, hahead⟩ | hruns | hnext
        · -- the caller goes on
          have hstay := hprefix.2 hsame.symm
          rw [show u.running = s.running from hsame,
            show ahead u.readyList p = ahead s.readyList p from hahead] at hstay
          exact hstay
        · -- a thread that runs is on no list
          have hne := (clients_runInv (h.step hst)).settled.toCore.ne_running_of_ready
            (((clients_runInv (h.step hst)).settled.mem_ready p).1 hpu).2
          exact absurd hruns.symm hne
        · -- the first of the threads ahead runs now
          rw [hnext]
          refine hprefix.1 fun heq => ?_
          have hmem : u.running ∈ s.readyList := by
            refine mem_of_mem_ahead (p := p) ?_
            rw [hnext]
            exact List.mem_cons_self
          exact hs.toCore.ne_running_of_ready ((hs.mem_ready _).1 hmem).2 heq.symm

/-- The calls of a list, made one after the other, are a run from where they begin. -/
theorem path_replay (ok : Sched → Event → Prop) :
    ∀ (calls : List Call) (s : Sched), ReplayOk ok s calls →
      (petThreads.guard ok).Path s (replayEvents s calls) (replay s calls)
  | [], _, _ => .nil
  | _ :: calls, _, h => .cons ⟨h.2.1, replayStep_step h.1⟩ (path_replay ok calls _ h.2.2)

/-- Three threads: the first one creates another and gives up the processor, and the second one
waits for the first. The third one gets its turn then. -/
theorem ready_list_in_order_three_threads : ∃ es fs s t,
    clients.Reach es s ∧ clients.Path s fs t ∧ s.running = 1 ∧ s.readyList = [2, 3] ∧
      fs.map Event.call = [.create, .schedule, .join 1] ∧ t.running = 3 ∧
      (fs.map Event.caller).destutter (· ≠ ·) <+: [1, 2] := by
  have hreach : clients.Reach _ _ := reach_replay (fun s e => ClientCall s e.call)
    [.create, .create, .create, .run] (by decide)
  have hpath : clients.Path _ _ _ := path_replay (fun s e => ClientCall s e.call)
    [.create, .schedule, .join 1] (replay petThreadInit [.create, .create, .create, .run])
    (by decide)
  refine ⟨_, _, _, _, hreach, hpath, by decide, by decide, by decide, by decide, ?_⟩
  exact (ready_list_in_order hreach hpath (p := 3) (by decide) (by decide)).2 (by decide)

/-! ## Explicit yields -/

/-- A yield to a ready thread goes there, whatever is ahead of it. -/
theorem petCall_yieldTo {s : Sched} (h : Settled s) (hr : s.running ≠ masterDummyThread)
    {q : ThreadPtr} (hq : q ∈ s.readyList) :
    ∃ t ret, petCall s (.yieldTo (threadIdOfCount q)) = .ok (t, ret) ∧ t.running = q ∧
      t.readyList = s.readyList.erase q ++ [s.running] := by
  have ht := Target.of_mem_ready h.toCore hq
  have hknown : Known s q := Or.inr (Or.inr (Or.inr (Or.inl hq)))
  have hcall : petCall s (.yieldTo (threadIdOfCount q)) =
      .ok (resume (dispatched s q ⟨.yieldTo (threadIdOfCount q), 0⟩)) := by
    show yieldTo s (getThread s (threadIdOfCount q)) _ = _
    rw [getThread_known h.idsOk hknown, yieldTo]
    exact (if_neg (not_not.2 ht.ready)).trans (threadInvoker_eq h.toCore ht)
  have hready : (resume (dispatched s q ⟨.yieldTo (threadIdOfCount q), 0⟩)).1.readyList =
      s.readyList.erase q ++ [s.running] := by
    rw [resume_readyList]
    show s.readyList.erase q ++ _ = _
    rw [if_pos ⟨h.running_running, hr⟩]
  exact ⟨_, _, hcall, resume_dispatched_running q _, hready⟩

/-- `n` yields of two threads to each other, of which `a` makes the first. -/
def mutualYields (a b : ThreadPtr) : Nat → List (ThreadPtr × Call)
  | 0 => []
  | n + 1 => (a, .yieldTo (threadIdOfCount b)) :: mutualYields b a n

/-- Who runs after them. -/
def afterYields (a b : ThreadPtr) : Nat → ThreadPtr
  | 0 => a
  | n + 1 => afterYields b a n

/-- The running thread and one ready thread can keep the processor to themselves. They yield to each
other, as often as they like: each of the calls switches to the thread that it names, and the other
ready threads are left on the list, in their order. -/
theorem yields_pass_over {es : List Event} {s : Sched} {q : ThreadPtr} (h : clients.Reach es s)
    (hr : s.running ≠ masterDummyThread) (hq : q ∈ s.readyList) (n : Nat) :
    ∃ fs t, clients.Path s fs t ∧
      fs.map (fun e => (e.caller, e.call)) = mutualYields s.running q n ∧
      t.running = afterYields s.running q n ∧
      afterYields q s.running n ∈ t.readyList ∧
      t.readyList.erase (afterYields q s.running n) = s.readyList.erase q := by
  induction n generalizing es s q with
  | zero => exact ⟨[], s, .nil, rfl, rfl, hq, rfl⟩
  | succ n ih =>
      have hs := (clients_runInv h).settled
      obtain ⟨u, ret, hcall, hrunning, hready⟩ := petCall_yieldTo hs hr hq
      have hst : clients.step s ⟨s.running, .yieldTo (threadIdOfCount q), ret⟩ u :=
        ⟨trivial, rfl, hcall⟩
      -- now the two have changed places
      have hru : u.running ≠ masterDummyThread := hrunning ▸ ((hs.mem_ready q).1 hq).1.1
      have hqu : s.running ∈ u.readyList := by
        rw [hready]
        exact List.mem_append_right _ List.mem_cons_self
      have hothers : u.readyList.erase s.running = s.readyList.erase q := by
        have hout : s.running ∉ s.readyList.erase q := fun hmem =>
          hs.toCore.ne_running_of_ready ((hs.mem_ready _).1 (List.mem_of_mem_erase hmem)).2 rfl
        rw [hready, List.erase_append_right _ hout, List.erase_cons_head, List.append_nil]
      obtain ⟨fs, t, hpath, hcalls, hturn, hother, hlist⟩ := ih (h.step hst) hru hqu
      rw [hrunning] at hcalls hturn hother hlist
      exact ⟨_ :: fs, t, .cons hst hpath, congrArg (_ :: ·) hcalls, hturn, hother,
        hlist.trans hothers⟩

/-- Four threads, of which the first two keep the others from running. -/
theorem yields_pass_over_four_threads : ∃ es s, clients.Reach es s ∧ s.running = 1 ∧
    s.readyList = [2, 3, 4] ∧
    ∃ fs t, clients.Path s fs t ∧ fs.map (fun e => (e.caller, e.call)) = mutualYields 1 2 999 ∧
      t.readyList.erase (afterYields 2 1 999) = [3, 4] := by
  have hreach : clients.Reach _ _ := reach_replay (fun s e => ClientCall s e.call)
    [.create, .create, .create, .create, .run] (by decide)
  obtain ⟨fs, t, hpath, hcalls, _, _, hlist⟩ :=
    yields_pass_over hreach (q := 2) (by decide) (by decide) 999
  exact ⟨_, _, hreach, by decide, by decide, fs, t, hpath, hcalls, hlist⟩

end PetKernel.UserThreads
