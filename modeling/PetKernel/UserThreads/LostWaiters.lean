import PetKernel.UserThreads.Join
import PetKernel.UserThreads.Reclaim

/-!
# Lost waiters

`get_thread` also looks at `stopped`, the thread that exited last. Its descriptor has been freed by
then, and the id that is read there is whatever the memory holds: what `free` has left, or what the
next owner of the block has stored. `freedMemory` is the library with such writes.

When the id in that block is looked up, by a join or a yield that names it or by
`pet_thread_cleanup` for the thread that is left, the lookup ends at the freed block. A join then
blocks its caller on a list that nobody will read again (`join_on_freed_descriptor_blocks`). When no
lookup comes upon the freed block (`AvoidsFreed`), every blocked thread waits for exactly one thread
that is still there, `get_thread` finds no thread that has exited, and a join on an exited thread
returns `-1` (`no_lost_waiter_of_avoidsFreed`).
-/

set_option autoImplicit false

namespace PetKernel.UserThreads

open PetKernel.Library

/-! ## Writes to freed memory -/

/-- A call of the running thread, or a write to the descriptor `p` after it was freed: by `free`, or
by a program that gets the block from `malloc`. -/
inductive MemoryEvent where
  | call (e : Event)
  | overwrite (p : ThreadPtr) (x : PetThread)
deriving DecidableEq, Repr

/-- The library as its clients use it, with memory of exited threads that is used again. -/
def freedMemory : Machine Sched MemoryEvent where
  init s := s = petThreadInit
  step s ev t :=
    match ev with
    | .call e => ClientCall s e.call ∧ recycling.step s e t
    | .overwrite p x => p ∈ s.freed ∧ t = { s with thread := Function.update s.thread p x }

/-- The calls in a run. -/
def calls (es : List MemoryEvent) : List Event :=
  es.filterMap fun
    | .call e => some e
    | .overwrite _ _ => none

theorem calls_append_call (es : List MemoryEvent) (e : Event) :
    calls (es ++ [.call e]) = calls es ++ [e] := by
  simp [calls]

theorem calls_append_overwrite (es : List MemoryEvent) (p : ThreadPtr) (x : PetThread) :
    calls (es ++ [.overwrite p x]) = calls es := by
  simp [calls]

/-- The ids that a call of a thread with the id `own` looks up: the one that it names, and its own
when `pet_thread_cleanup` looks for the thread that was left. A thread that exits is in `stopped` by
then. -/
def Call.lookups (own : PetThreadId) : Call → List PetThreadId
  | .create => []
  | .schedule => [own]
  | .yieldTo id => [id, own]
  | .run => [own]
  | .join id => [id, own]
  | .exit _ _ => []

/-- A lookup of `id` does not end at the freed descriptor in `stopped`. -/
def PassesFreed (s : Sched) (id : PetThreadId) : Prop :=
  ∀ p ∈ s.stopped, p ∈ s.freed → (s.thread p).id = id → id = petMasterThreadId

/-- No lookup of the call ends at the freed descriptor in `stopped`. -/
def AvoidsFreed (s : Sched) : MemoryEvent → Prop
  | .call e => ∀ id ∈ e.call.lookups (s.thread s.running).id, PassesFreed s id
  | .overwrite _ _ => True

instance (s : Sched) (id : PetThreadId) : Decidable (PassesFreed s id) :=
  inferInstanceAs (Decidable (∀ p ∈ s.stopped, p ∈ s.freed → (s.thread p).id = id →
    id = petMasterThreadId))

instance (s : Sched) : (ev : MemoryEvent) → Decidable (AvoidsFreed s ev)
  | .call e => List.decidableBAll (PassesFreed s) (e.call.lookups (s.thread s.running).id)
  | .overwrite _ _ => .isTrue trivial

/-! ## Waiters of threads that have exited -/

/-- Nobody waits for a thread that has exited. -/
def WaitersLive (s : Sched) : Prop :=
  ∀ p w, w ∈ (s.thread p).waitingForMeList → (s.thread p).state ≠ .stopped

/-- A thread that `get_thread` finds, when it does not look at `stopped`, has not exited. -/
theorem Settled.state_ne_stopped_of_getThread {s : Sched} (h : Settled s) (hnone : s.stopped = none)
    {id : PetThreadId} {p : ThreadPtr} (hg : getThread s id = some p) :
    (s.thread p).state ≠ .stopped := by
  obtain ⟨hk, -⟩ := getThread_sound h.idsOk hg
  rcases hk with hk | hk | hk | hk | hk
  · rw [hk]
    exact h.master_not_stopped
  · rw [hk, h.running_running]
    decide
  · rw [hnone] at hk
    cases hk
  · rw [((h.mem_ready p).1 hk).2]
    decide
  · rw [((h.mem_blocked p).1 hk).2.2]
    decide

theorem Prepared.waitersLive {s s₁ : Sched} {call : Call} (hp : Prepared s call s₁) (h : Settled s)
    (hnone : s.stopped = none) (hl : WaitersLive s) : WaitersLive s₁ := by
  cases hp with
  | schedule => exact hl
  | yieldTo id => exact hl
  | run => exact hl
  | @join id p hg hc hr =>
      intro q w hw
      rw [waitingOn_state]
      split
      · decide
      · rcases (mem_waitingOn_waiting q w).1 hw with hw | ⟨rfl, -⟩
        · exact hl q w hw
        -- `get_thread` finds a stopped thread only through `stopped`
        · exact h.state_ne_stopped_of_getThread hnone hg
  | exit path v hr =>
      intro q w hw
      rw [retired_waiting] at hw
      split at hw
      -- the thread that exits has woken everyone who waited for it
      · cases hw
      · next hq =>
          rw [retired_state, if_neg hq]
          split
          · decide
          · exact hl q w hw

theorem Outcome.waitersLive {s : Sched} {call : Call} {r : Sched × Option Return}
    (ho : Outcome s call r) (h : Settled s) (hnone : s.stopped = none) (hl : WaitersLive s) :
    WaitersLive r.1 := by
  cases ho with
  | created =>
      intro p w hw
      by_cases hp : p = s.threadIdCount
      · subst hp
        simp [petThreadCreate] at hw
      · simp only [petThreadCreate, Function.update_of_ne hp] at hw ⊢
        exact hl p w hw
  | notFound _ => exact hl
  | idle _ _ _ => exact hl
  | @switch call s₁ tgt ret hprep ht _ _ =>
      intro p w hw
      -- a switch stops no thread, and changes no waiting list
      rw [resume_thread] at hw ⊢
      rw [Ne, dispatched_state_eq_stopped ht]
      exact hprep.waitersLive h hnone hl p w hw

theorem Prepared.stopped_eq {s s₁ : Sched} {call : Call} (hp : Prepared s call s₁) :
    s₁.stopped = s.stopped := by
  cases hp <;> rfl

theorem Prepared.id_eq {s s₁ : Sched} {call : Call} (hp : Prepared s call s₁) (p : ThreadPtr) :
    (s₁.thread p).id = (s.thread p).id := by
  cases hp with
  | schedule => rfl
  | yieldTo id => rfl
  | run => rfl
  | join hg hc hr => exact waitingOn_id p
  | exit path v hr => exact retired_id p

/-! ## What a call looks up -/

section Lookups

variable {d : ThreadPtr → Option PetThread} {o : Option ThreadPtr} {s s₁ t : Sched} {call : Call}
variable {tgt q : ThreadPtr} {fr : Frame}

theorem Call.named_mem_lookups (own : PetThreadId) {id : PetThreadId} (h : call.named = some id) :
    id ∈ call.lookups own := by
  cases call with
  | join id' =>
      cases h
      exact List.mem_cons_self
  | yieldTo id' =>
      cases h
      exact List.mem_cons_self
  | create => cases h
  | schedule => cases h
  | run => cases h
  | exit path v => cases h

/-- A call that is no exit looks up the id of its caller. -/
theorem Prepared.own_mem_lookups (hp : Prepared s call s₁)
    (hst : (s₁.thread s₁.running).state ≠ .stopped) (own : PetThreadId) :
    own ∈ call.lookups own := by
  cases hp with
  | schedule => exact List.mem_singleton_self _
  | run => exact List.mem_singleton_self _
  | yieldTo id => exact List.mem_cons_of_mem _ (List.mem_singleton_self _)
  | join hg hc hr => exact List.mem_cons_of_mem _ (List.mem_singleton_self _)
  | exit path v hr =>
      refine absurd ?_ hst
      rw [retired_state]
      exact if_pos rfl

theorem overlaid_id_congr (h : (t.thread q).id = (s.thread q).id) :
    ((overlaid d o t).thread q).id = ((overlaid d o s).thread q).id := by
  show ((d q).getD _).id = ((d q).getD _).id
  cases d q with
  | none => exact h
  | some x => rfl

theorem Spares.switched (h : Spares d s) (ht : Target s tgt) : Spares d (switched s tgt fr) := by
  intro p hne
  obtain ⟨hst, hpr⟩ := h p hne
  have hpt : p ≠ tgt := by
    rintro rfl
    rw [ht.ready] at hst
    cases hst
  exact ⟨(switched_state_of_ne hpt hpr).trans hst, hpt⟩

theorem known_switched_of_held (h : Core s) (ht : Target s tgt) (hq : Held s q) :
    Known (UserThreads.switched s tgt fr) q := by
  by_cases hr : q = s.running
  · rw [hr]
    exact known_switched_old h
  · have hstate : ((UserThreads.switched s tgt fr).thread q).state = .stopped ↔
        (s.thread q).state = .stopped := @dispatched_state_eq_stopped s tgt fr ht q
    exact (settled_switched h ht).known_of_held
      ⟨hq.1, fun hst => absurd (hq.2 (hstate.1 hst)) hr⟩

end Lookups

/-! ## The state without freed memory -/

/-- `s` is the state of a run with the calls `es` as far as the library knows it: without `stopped`,
and with the descriptors in `d`, all of them of exited threads, as they were when their threads
exited. -/
structure Underlies (es : List Event) (d : ThreadPtr → Option PetThread) (o : Option ThreadPtr)
    (s : Sched) : Prop extends ReclaimInv es s where
  live : WaitersLive s
  stopped_none : s.stopped = none
  overwritten : ∀ p, d p ≠ none → Exited es p
  last_lt : ∀ q, o = some q → q < s.threadIdCount

namespace Underlies

variable {es : List Event} {d : ThreadPtr → Option PetThread} {o : Option ThreadPtr}
variable {s s₁ t : Sched} {call : Call} {e : Event}

theorem spares (h : Underlies es d o s) : Spares d s := by
  intro p hp
  have hex := h.overwritten p hp
  have hst := (h.stopped_iff p (h.exited_lt p hex)).2 hex
  refine ⟨hst, ?_⟩
  rintro rfl
  rw [h.settled.running_running] at hst
  cases hst

/-- `stopped` points to a thread that has not exited, or to a descriptor that was freed. -/
theorem unexited_or_freed (h : Underlies es d o s) {q : ThreadPtr} (hq : o = some q) :
    (s.thread q).state ≠ .stopped ∨ q ∈ s.freed := by
  rw [h.mem_freed_iff, ← h.stopped_iff q (h.last_lt q hq)]
  exact (em _).symm

/-- A lookup that passes the freed descriptor. -/
theorem getThread_eq (h : Underlies es d o s) {id : PetThreadId}
    (hpass : PassesFreed (overlaid d o s) id) : getThread (overlaid d o s) id = getThread s id := by
  have hs := h.settled
  refine getThread_overlaid hs.toCore h.spares (fun q hq => ?_) fun hnone q hq => ?_
  · rw [h.stopped_none] at hq
    cases hq
  · rcases h.unexited_or_freed hq with hlive | hfreed
    · exact Or.inl (hs.known_of_held ⟨h.last_lt q hq, fun hst => absurd hst hlive⟩)
    · refine Or.inr (hpass q ?_ hfreed)
      show s.stopped.or o = some q
      rw [hnone, hq]
      rfl

/-- The lookup of `pet_thread_cleanup` passes the freed descriptor. -/
theorem findsOld (h : Underlies es d o s) (hp : Prepared s call s₁)
    (hpass : ∀ id ∈ call.lookups (s.thread s.running).id, PassesFreed (overlaid d o s) id) :
    FindsOld d o s₁ := by
  have hs := h.settled
  intro tgt fr ht
  have hcore := hp.core hs
  have hd := h.spares.prepared hp hs
  have hstopped : (switched s₁ tgt fr).stopped =
      if (s₁.thread s₁.running).state = .stopped then some s₁.running else s₁.stopped := rfl
  refine getThread_overlaid (settled_switched hcore ht).toCore (hd.switched ht) (fun q hq => ?_)
    fun hnone q hq => ?_
  · rw [hstopped] at hq
    split at hq
    · cases hq
      exact hd.running
    · rw [hp.stopped_eq, h.stopped_none] at hq
      cases hq
  · rcases h.unexited_or_freed hq with hlive | hfreed
    · -- a new thread in the memory of an exited one is found anyway
      exact Or.inl (known_switched_of_held hcore ht (hp.held hs (h.last_lt q hq) hlive))
    · -- the call is no exit, and so it looks up the id of its caller
      right
      have hst : (s₁.thread s₁.running).state ≠ .stopped := by
        intro hst
        rw [hstopped, if_pos hst] at hnone
        cases hnone
      have hid : (s.thread s.running).id = threadIdOfCount s₁.running := by
        rw [hp.running_eq]
        exact hs.ids _ hs.running_lt
      have hword : ((switched s₁ tgt fr).thread q).id = (s.thread q).id := hp.id_eq q
      rw [overlaid_id_congr hword, ← hid]
      refine hpass _ (hp.own_mem_lookups hst _) q ?_ hfreed
      show s.stopped.or o = some q
      rw [h.stopped_none, hq]
      rfl

/-- What a call does in memory is what it does without freed memory. -/
theorem petCall_eq (h : Underlies es d o s) (ha : Admissible s call)
    (hpass : ∀ id ∈ call.lookups (s.thread s.running).id, PassesFreed (overlaid d o s) id) :
    petCall (overlaid d o s) call = (petCall s call).map (overlaidResult d o) := by
  have hs := h.settled
  refine petCall_overlaid hs h.spares ha
    (fun id hid => h.getThread_eq (hpass id (Call.named_mem_lookups _ hid)))
    (fun id p _ hg => h.spares.eq_none_of_ne (hs.state_ne_stopped_of_getThread h.stopped_none hg))
    ?_ fun s₁ hp => h.findsOld hp hpass
  by_contra hne
  exact Nat.lt_irrefl _ (h.exited_lt _ (h.overwritten _ hne))

/-- After a call, `stopped` is set aside again. -/
theorem of_outcome (h : Underlies es d o s) (ha : Admissible s e.call)
    (hstep : petThreads.step s e t) :
    ∃ o' t', overlaid d o t = overlaid d o' t' ∧ Underlies (es ++ [e]) d o' t' := by
  have hinv : ReclaimInv (es ++ [e]) t := h.toReclaimInv.step ha hstep
  obtain ⟨r, hr, hout⟩ := petCall_outcome h.settled ha
  rw [hstep.2] at hr
  cases hr
  have hlive : WaitersLive t := hout.waitersLive h.settled h.stopped_none h.live
  have hover : ∀ p, d p ≠ none → Exited (es ++ [e]) p := fun p hp =>
    (exited_append_singleton es e p).2 (Or.inl (h.overwritten p hp))
  -- if the call has set `stopped`, then that is the descriptor to set aside from now on
  cases hstopped : t.stopped with
  | none =>
      exact ⟨o, t, rfl, ⟨hinv, hlive, hstopped, hover, fun q hq =>
        Nat.lt_of_lt_of_le (h.last_lt q hq) hout.threadIdCount_le⟩⟩
  | some p =>
      refine ⟨some p, { t with stopped := none }, ?_, ⟨hinv.clear_stopped, hlive, rfl, hover, ?_⟩⟩
      · unfold overlaid
        rw [hstopped]
        rfl
      · rintro q ⟨rfl⟩
        exact (hinv.settled.stopped_state p hstopped).2.1

end Underlies

/-- The state of a run is that of a run without freed memory, up to what has been overwritten. -/
def Overwritten (es : List Event) (s : Sched) : Prop :=
  ∃ d o s₀, s = overlaid d o s₀ ∧ Underlies es d o s₀

theorem overwritten_petThreadInit : Overwritten [] petThreadInit := by
  refine ⟨fun _ => none, none, petThreadInit, ?_, ⟨⟨runInv_petThreadInit, rfl, List.nodup_nil⟩,
    fun _ _ hw => absurd hw List.not_mem_nil, rfl, fun _ hp => absurd rfl hp, fun _ hq => ?_⟩⟩
  · rw [overlaid_none, aliased_none]
  · cases hq

section Steps

variable {es : List Event} {d : ThreadPtr → Option PetThread} {o : Option ThreadPtr} {s t : Sched}

/-- A call whose lookups pass the freed descriptor. -/
theorem Underlies.call (h : Underlies es d o s) {e : Event}
    (hav : AvoidsFreed (overlaid d o s) (.call e)) (hc : ClientCall (overlaid d o s) e.call)
    (hstep : recycling.step (overlaid d o s) e t) : Overwritten (es ++ [e]) t := by
  have hs := h.settled
  have hclient : ClientCall s e.call := by
    cases hcall : e.call with
    | create => exact hcall ▸ hc
    | schedule => trivial
    | yieldTo id => trivial
    | run => exact hcall ▸ hc
    | join id => exact hcall ▸ hc
    | exit path v => exact hcall ▸ hc
  have ha := hclient.admissible hs.toCore
  have hrun : (overlaid d o s).thread (overlaid d o s).running = s.thread s.running :=
    overlaid_thread h.spares.running
  have hpass : ∀ id ∈ e.call.lookups (s.thread s.running).id, PassesFreed (overlaid d o s) id := by
    rw [← hrun]
    exact hav
  rcases hstep with ⟨hcaller, heq⟩ | ⟨hcaller, hcreate, -, rfl, hret⟩
  · -- the call does to `s` what it does in memory
    obtain ⟨⟨t₀, ret⟩, hr, -⟩ := petCall_outcome hs ha
    rw [h.petCall_eq ha hpass, hr] at heq
    obtain ⟨rfl, hret⟩ := Prod.mk.inj (Except.ok.inj heq)
    have hstep₀ : petThreads.step s e t₀ := ⟨hcaller, by rw [hr, show ret = e.returned from hret]⟩
    obtain ⟨o', t', heq', hunder⟩ := h.of_outcome ha hstep₀
    exact ⟨d, o', t', heq', hunder⟩
  · -- the new descriptor is put where `stopped` points to
    have hstep₀ : petThreads.step s e (petThreadCreate s).1 := by
      refine ⟨hcaller, ?_⟩
      rw [hcreate, hret]
      rfl
    have hinv : ReclaimInv (es ++ [e]) (petThreadCreate s).1 := h.toReclaimInv.step ha hstep₀
    have hfresh : d s.threadIdCount = none := by
      by_contra hne
      exact Nat.lt_irrefl _ (h.exited_lt _ (h.overwritten _ hne))
    refine ⟨d, some s.threadIdCount, (petThreadCreate s).1, ?_,
      ⟨hinv, Outcome.created.waitersLive hs h.stopped_none h.live, h.stopped_none, fun p hp =>
        (exited_append_singleton es e p).2 (Or.inl (h.overwritten p hp)), ?_⟩⟩
    · refine Sched.ext rfl (overlaid_update hfresh _) rfl rfl rfl ?_ rfl rfl
      show _ = s.stopped.or (some s.threadIdCount)
      rw [h.stopped_none]
      rfl
    · rintro q ⟨rfl⟩
      exact Nat.lt_succ_self _

/-- A write to a descriptor that was freed. -/
theorem Underlies.overwrite (h : Underlies es d o s) {p : ThreadPtr} (hp : p ∈ s.freed)
    (x : PetThread) :
    Overwritten es { overlaid d o s with
      thread := Function.update (overlaid d o s).thread p x } := by
  refine ⟨Function.update d p (some x), o, s, ?_, ⟨h.toReclaimInv, h.live, h.stopped_none,
    fun q hq => ?_, h.last_lt⟩⟩
  · refine Sched.ext rfl (funext fun q => ?_) rfl rfl rfl rfl rfl rfl
    by_cases hq : q = p
    · subst hq
      simp only [overlaid, Function.update_self, Option.getD_some]
    · simp only [overlaid, Function.update_of_ne hq]
  · by_cases hqp : q = p
    · subst hqp
      exact (h.mem_freed_iff q).1 hp
    · rw [Function.update_of_ne hqp] at hq
      exact h.overwritten q hq

theorem overwritten_of_reach {es : List MemoryEvent}
    (h : (freedMemory.guard AvoidsFreed).Reach es s) : Overwritten (calls es) s := by
  refine h.history (I := fun es s => Overwritten (calls es) s) (fun s hs => ?_)
    fun es s ev t _ hinv hst => ?_
  · rw [show s = petThreadInit from hs]
    exact overwritten_petThreadInit
  · obtain ⟨d, o, s₀, rfl, hunder⟩ := hinv
    obtain ⟨hav, hstep⟩ := hst
    cases ev with
    | call e =>
        rw [calls_append_call]
        exact hunder.call hav hstep.1 hstep.2
    | overwrite p x =>
        obtain ⟨hp, rfl⟩ := hstep
        rw [calls_append_overwrite]
        exact hunder.overwrite hp x

end Steps

/-- In a run in which no lookup ends at the freed descriptor in `stopped`, whatever is stored there,
every blocked thread waits for exactly one thread, once, and that thread has not exited; a lookup
that passes the freed descriptor finds no exited thread; and a join on an exited thread returns `-1`
and changes nothing. -/
theorem no_lost_waiter_of_avoidsFreed {es : List MemoryEvent} {s : Sched}
    (h : (freedMemory.guard AvoidsFreed).Reach es s) :
    (∀ w, Created s w → ¬ Exited (calls es) w → (s.thread w).state = .blocked →
      ∃ p, Created s p ∧ (s.thread p).waitingForMeList.count w = 1 ∧ ¬ Exited (calls es) p ∧
        ∀ q, ¬ Exited (calls es) q → w ∈ (s.thread q).waitingForMeList → q = p) ∧
    (∀ id p, getThread s id = some p → PassesFreed s id → ¬ Exited (calls es) p) ∧
    (∀ p, Exited (calls es) p → PassesFreed s (threadIdOfCount p) →
      petCall s (.join (threadIdOfCount p)) =
        .ok (s, some ⟨s.running, .join (threadIdOfCount p), -1, none⟩)) := by
  obtain ⟨d, o, s₀, rfl, hunder⟩ := overwritten_of_reach h
  have hs := hunder.settled
  have hex : ∀ p, Exited (calls es) p → (s₀.thread p).state = .stopped := fun p hp =>
    (hunder.stopped_iff p (hunder.exited_lt p hp)).2 hp
  have hsame : ∀ p, ¬ Exited (calls es) p → (overlaid d o s₀).thread p = s₀.thread p := fun p hp =>
    overlaid_thread (not_not.1 fun hne => hp (hunder.overwritten p hne))
  -- the blocked threads, what `get_thread` finds, and a join that comes too late
  refine ⟨fun w hw hlive hb => ?_, fun id p hg hpass hp => ?_, fun p hp hpass => ?_⟩
  · rw [hsame w hlive] at hb
    obtain ⟨p, hp, hmem⟩ := hs.blocked_waits w hw.2 hb
    have hplive : ¬ Exited (calls es) p := fun he => hunder.live p w hmem (hex p he)
    refine ⟨p, hp, ?_, hplive, fun q hq hmem' => ?_⟩
    · rw [hsame p hplive]
      exact List.count_eq_one_of_mem (hs.waiting_nodup p) hmem
    · rw [hsame q hq] at hmem'
      exact hs.waiting_unique q p w hmem' hmem
  · rw [hunder.getThread_eq hpass] at hg
    exact hs.state_ne_stopped_of_getThread hunder.stopped_none hg (hex p hp)
  · have hnone : getThread (overlaid d o s₀) (threadIdOfCount p) = none := by
      rw [hunder.getThread_eq hpass]
      cases hg : getThread s₀ (threadIdOfCount p) with
      | none => rfl
      | some q =>
          obtain ⟨hk, hid⟩ := getThread_sound hs.idsOk hg
          have hpq : p = q := threadIdOfCount_inj
            (Nat.lt_of_lt_of_le (hunder.exited_lt p hp) hs.few) (hs.idsOk.lt_of_known hk) hid
          exact absurd (hpq ▸ hex p hp) (hs.state_ne_stopped_of_getThread hunder.stopped_none hg)
    show petThreadJoin (overlaid d o s₀) (threadIdOfCount p) = _
    unfold petThreadJoin
    rw [hnone]

/-- The calls of a list that meet the condition are a run without writes to freed memory. -/
theorem freedMemory_of_replay (list : List Call)
    (h : ReplayOk (fun s e => ClientCall s e.call ∧ AvoidsFreed s (.call e)) petThreadInit list) :
    (freedMemory.guard AvoidsFreed).Reach ((replayEvents petThreadInit list).map .call)
      (replay petThreadInit list) := by
  have hrun := reach_replay _ list h
  refine hrun.history (I := fun es s => (freedMemory.guard AvoidsFreed).Reach (es.map .call) s)
    (fun s hs => .init hs) fun es s e t _ ih hst => ?_
  rw [List.map_append]
  exact ih.step ⟨hst.1.2, hst.1.1, Or.inl hst.2⟩

/-- Thread 1 exits, and `free` stores a pointer where its id was. Thread 2 joins thread 3: it is
blocked on a thread that is still there, and a join of thread 3 on thread 1 returns `-1`. -/
theorem no_lost_waiter_three_threads : ∃ es s,
    (freedMemory.guard AvoidsFreed).Reach es s ∧
      (calls es).map Event.call = [.create, .create, .create, .run, .exit .petThreadExit 5,
        .join 3] ∧
      (∃ p, Created s p ∧ (s.thread p).waitingForMeList.count 2 = 1 ∧ ¬ Exited (calls es) p ∧
        ∀ q, ¬ Exited (calls es) q → 2 ∈ (s.thread q).waitingForMeList → q = p) ∧
      petCall s (.join (threadIdOfCount 1)) =
        .ok (s, some ⟨s.running, .join (threadIdOfCount 1), -1, none⟩) := by
  have hexit := freedMemory_of_replay [.create, .create, .create, .run, .exit .petThreadExit 5]
    (by decide)
  have hfree : (freedMemory.guard AvoidsFreed).Reach (_ ++
      [.overwrite 1 ⟨0x555555559, .stopped, [], 0⟩]) _ := hexit.step ⟨trivial, by decide, rfl⟩
  have hjoin : (freedMemory.guard AvoidsFreed).Reach (_ ++ [.call ⟨2, .join 3, none⟩]) _ :=
    hfree.step ⟨by decide, by decide, Or.inl ⟨rfl, rfl⟩⟩
  obtain ⟨hblocked, -, hexited⟩ := no_lost_waiter_of_avoidsFreed hjoin
  exact ⟨_, _, hjoin, by decide, hblocked 2 (by decide) (by decide) (by decide),
    hexited 1 (by decide) (by decide)⟩

/-- Thread 1 exits and its descriptor is freed. The block holds the id 1 again, where thread 2 has
got it from `malloc` and stored 1 in its first word, or where `free` has left its contents alone. A
join of thread 2 on thread 1 then blocks it, on a thread that has exited and been freed. -/
theorem join_on_freed_descriptor_blocks : ∃ es s,
    freedMemory.Reach es s ∧
      es.map (fun | .call e => some e.call | .overwrite _ _ => none) =
        [some .create, some .create, some .run, some (.exit .petThreadExit 5), none,
          some (.join 1)] ∧
      (s.thread 2).state = .blocked ∧ ¬ Exited (calls es) 2 ∧ 2 ∈ (s.thread 1).waitingForMeList ∧
      Exited (calls es) 1 ∧ 1 ∈ s.freed ∧ getThread s 1 = some 1 := by
  have hexit := (freedMemory_of_replay [.create, .create, .run, .exit .petThreadExit 5]
    (by decide)).of_guard
  have hstore : freedMemory.Reach (_ ++ [.overwrite 1 ⟨1, .stopped, [], 0⟩]) _ :=
    hexit.step ⟨by decide, rfl⟩
  have hjoin : freedMemory.Reach (_ ++ [.call ⟨2, .join 1, some ⟨0, .run, 0, none⟩⟩]) _ :=
    hstore.step ⟨by decide, Or.inl ⟨rfl, rfl⟩⟩
  exact ⟨_, _, hjoin, by decide, by decide, by decide, by decide, by decide, by decide, by decide⟩

end PetKernel.UserThreads
