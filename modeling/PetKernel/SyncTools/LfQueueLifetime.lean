import PetKernel.SyncTools.LfQueueReclaim

/-!
# The whole life of a queue

A model of `lf_queue_deinit`, and what becomes of the nodes. In the runs of `LfQueueReclaim` every
node that is allocated is in the chain from `head` on, or with an enqueuer that has not yet linked
it, or with the consumer that has passed it and will free it (`NoLeak`). So when all calls have
returned, the chain has all nodes, and `lf_queue_deinit` frees each of them once and touches none
afterwards (`lfQueue_deinit_frees_all`).
-/

set_option autoImplicit false

namespace PetKernel.SyncTools

open PetKernel.Library

/-! ## The code -/

/-- How `lf_queue_deinit` can go wrong: a node is used that is not allocated, or the loop does not
end. -/
inductive LfFault where
  | dangling (p : Nat)
  | endless
deriving DecidableEq, Repr

namespace LfQueue

def loadNext (q : LfQueue) (p : Nat) : Except LfFault Nat :=
  if p ∈ q.live then .ok (q.next p) else .error (.dangling p)

def storeNext (q : LfQueue) (p n : Nat) : Except LfFault LfQueue :=
  if p ∈ q.live then .ok { q with next := Function.update q.next p n } else .error (.dangling p)

def free (q : LfQueue) (p : Nat) : Except LfFault LfQueue :=
  if p ∈ q.live then .ok { q with live := q.live.filter (· ≠ p), freed := p :: q.freed }
  else .error (.dangling p)

end LfQueue

/-- The loop of `lf_queue_deinit`. -/
def deinitLoop : Nat → LfQueue → Except LfFault LfQueue
  | 0, _ => .error .endless
  | n + 1, q => do
      let first ← q.loadNext q.head
      if first = 0 then return q
      else do
        let tmp ← q.loadNext first
        let q ← q.free first
        let q ← q.storeNext q.head tmp
        deinitLoop n q

/-- `lf_queue_deinit`. -/
def lfQueueDeinit (q : LfQueue) : Except LfFault LfQueue := do
  let q ← deinitLoop (q.live.length + 1) q
  q.free q.head

/-! ## The loop -/

/-- What the loop does to the nodes `vs` after `head`. -/
theorem deinitLoop_spec {q : LfQueue} {vs : List Nat} {n : Nat} (hhead : q.head ∈ q.live)
    (hfirst : q.next q.head = vs.headD 0) (hlinked : Linked q.next 0 vs) (hnull : 0 ∉ vs)
    (hnodup : (q.head :: vs).Nodup) (hlive : ∀ a ∈ vs, a ∈ q.live) (hn : vs.length < n) :
    ∃ q', deinitLoop n q = .ok q' ∧ q'.head = q.head ∧ q'.live = q.live.filter (· ∉ vs) ∧
      q'.freed = vs.reverse ++ q.freed := by
  induction vs generalizing q n with
  | nil =>
      obtain ⟨n, rfl⟩ := Nat.exists_eq_succ_of_ne_zero (Nat.ne_of_gt hn)
      refine ⟨q, ?_, rfl, ?_, rfl⟩
      · rw [deinitLoop, LfQueue.loadNext, if_pos hhead, hfirst]
        rfl
      · simp
  | cons a vs ih =>
      obtain ⟨n, rfl⟩ := Nat.exists_eq_succ_of_ne_zero (Nat.ne_of_gt (Nat.zero_lt_of_lt hn))
      obtain ⟨hout, hnodup⟩ := List.nodup_cons.1 hnodup
      obtain ⟨hha, hhvs⟩ := not_or.1 (fun hc => hout (List.mem_cons.2 hc))
      obtain ⟨havs, hnodup⟩ := List.nodup_cons.1 hnodup
      have ha0 : ¬ a = 0 := fun hc => hnull (hc ▸ List.mem_cons_self)
      have ha : a ∈ q.live := hlive a List.mem_cons_self
      have hkeep : ∀ b, b ∈ q.live → b ≠ a → b ∈ q.live.filter (· ≠ a) :=
        fun b hb hne => List.mem_filter.2 ⟨hb, decide_eq_true hne⟩
      -- the queue after one turn
      obtain ⟨q₁, hq₁⟩ : ∃ q₁ : LfQueue, q₁ = { q with
        live := q.live.filter (· ≠ a)
        freed := a :: q.freed
        next := Function.update q.next q.head (vs.headD 0) } := ⟨_, rfl⟩
      have hturn : deinitLoop (n + 1) q = deinitLoop n q₁ := by
        rw [deinitLoop, LfQueue.loadNext, if_pos hhead, hfirst, List.headD_cons]
        simp only [bind, Except.bind, if_neg ha0, LfQueue.loadNext, LfQueue.free, LfQueue.storeNext,
          if_pos ha, if_pos (hkeep _ hhead hha), hlinked.1, hq₁]
      have hnext : ∀ b ∈ vs, q₁.next b = q.next b := by
        intro b hb
        rw [hq₁]
        refine Function.update_of_ne ?_ _ _
        rintro rfl
        exact hhvs hb
      obtain ⟨q', hrun, hhead', hlive', hfreed'⟩ := ih (q := q₁) (n := n)
        (by rw [hq₁]; exact hkeep _ hhead hha) (by rw [hq₁]; exact Function.update_self ..)
        (hlinked.2.congr hnext) (fun hc => hnull (List.mem_cons_of_mem a hc))
        (by rw [hq₁]; exact List.nodup_cons.2 ⟨hhvs, hnodup⟩)
        (fun b hb => by
          rw [hq₁]
          exact hkeep b (hlive b (List.mem_cons_of_mem a hb)) fun hc => havs (hc ▸ hb))
        (Nat.lt_of_succ_lt_succ hn)
      refine ⟨q', hturn.trans hrun, ?_, ?_, ?_⟩
      · rw [hhead', hq₁]
      · rw [hlive', hq₁, List.filter_filter]
        apply List.filter_congr
        intro b _
        simp [Bool.and_comm]
      · rw [hfreed', hq₁, List.reverse_cons, List.append_assoc]
        rfl

/-! ## No node is lost -/

/-- The node that the call of `lf_dequeue` has passed and not yet freed. -/
def LfThread.passed : LfThread → Option Nat
  | deq (.loadNode p (some _)) | deq (.loadValue p _ (some _)) | deq (.free p _ _) => some p
  | _ => none

section NoLeak

variable {ι : Type} {c i : ι} {s : Threads ι LfQueue LfThread}

/-- Every node that is allocated is in the chain, or with an enqueuer, or with the consumer. -/
structure NoLeak (c : ι) (s : Threads ι LfQueue LfThread) : Prop where
  live : ∀ a ∈ s.shared.live, a ∈ s.shared.rest ∨ (∃ i, (s.loc i).pending = some a) ∨
    (s.loc c).passed = some a
  nodup : s.shared.live.Nodup

/-- A step of `lf_enqueue`: what it allocates is with the call, and its node stays there until it is
in the chain. -/
theorem QueueInv.enqueue_live {R : Set Nat} {base : Nat} (h : QueueInv R base s) {val : BitVec 32}
    {entry : Option Nat} {pc : EnqPc} {addr : Nat} {r : LfQueue × LfThread}
    (hloc : s.loc i = .enq val entry pc) (hnext : lfEnqueue s.shared val entry pc addr = some r)
    (hnodup : s.shared.live.Nodup) :
    r.1.live.Nodup ∧ (∀ a ∈ r.1.live, a ∈ s.shared.live ∨ r.2.pending = some a) ∧
      ∀ a, (s.loc i).pending = some a → r.2.pending = some a ∨ a ∈ r.1.chain base := by
  have hok := h.ok i
  have hhand := h.hand i
  have hpending := h.pending i
  rw [hloc] at hok hhand hpending
  rw [hloc]
  cases pc with
  | malloc =>
      obtain rfl : entry = none := hok
      rw [lfEnqueue] at hnext
      split at hnext
      · cases hnext
      next haddr =>
        cases hnext
        refine ⟨List.nodup_cons.2 ⟨fun hmem => haddr (Or.inr hmem), hnodup⟩, fun a ha => ?_,
          fun a ha => by cases ha⟩
        rcases List.mem_cons.1 ha with rfl | ha
        · exact Or.inr rfl
        · exact Or.inl ha
  | link b p =>
      obtain rfl : entry = none := hok.1
      by_cases hlast : s.shared.next p = 0
      · simp only [lfEnqueue, compareAndSwapPtr, if_pos hlast] at hnext
        cases hnext
        refine ⟨hnodup, fun _ => Or.inl, fun a ha => Or.inr ?_⟩
        cases ha
        rw [LfQueue.chain_append rfl h.chain.base_lt.le]
        exact List.mem_append_right _ List.mem_cons_self
      · simp only [lfEnqueue, compareAndSwapPtr, if_neg hlast] at hnext
        cases hnext
        exact ⟨hnodup, fun _ => Or.inl, fun a ha => Or.inl ha⟩
  | check b p =>
      cases hnext
      refine ⟨hnodup, fun _ => Or.inl, fun a ha => Or.inl ?_⟩
      rcases hok with ⟨rfl, -, hzero⟩ | ⟨-, -, k, rfl, -⟩
      · -- a node that is not yet linked is not what `p` points to
        have hb : ¬ b = s.shared.next p := by
          rintro rfl
          exact (hpending _ rfl).2.2 (h.chain.linked.next_mem (hhand p rfl) hzero)
        rw [if_neg hb]
        exact ha
      · cases ha
  | swing b p =>
      cases hnext
      exact ⟨hnodup, fun _ => Or.inl, fun a ha => by cases entry <;> cases ha⟩
  | _ =>
      cases hnext
      exact ⟨hnodup, fun _ => Or.inl, fun a ha => Or.inl (by cases entry <;> exact ha)⟩

variable [DecidableEq ι]

theorem exists_pending_update {x : LfThread} {a : Nat}
    (h : ∃ j, (s.loc j).pending = some a) (hi : (s.loc i).pending = some a → x.pending = some a) :
    ∃ j, (Function.update s.loc i x j).pending = some a := by
  obtain ⟨j, hj⟩ := h
  refine ⟨j, ?_⟩
  rcases eq_or_ne j i with rfl | hne
  · rw [Function.update_self]
    exact hi hj
  · rw [Function.update_of_ne hne]
    exact hj

theorem NoLeak.enqueue (hleak : NoLeak c s) (h : ReclaimInv c s) {val : BitVec 32}
    {entry : Option Nat}
    {pc : EnqPc} {addr : Nat} {r : LfQueue × LfThread} (hloc : s.loc i = .enq val entry pc)
    (hnext : lfEnqueue s.shared val entry pc addr = some r) :
    NoLeak c ⟨r.1, Function.update s.loc i r.2⟩ := by
  have hok := h.queue.ok i
  have hframe : EnqFrame (s.loc i) s.shared r.2 r.1 := hloc ▸ lfEnqueue_frame (hloc ▸ hok) hnext
  obtain ⟨hnodup, hlive, hpending⟩ := h.queue.enqueue_live hloc hnext hleak.nodup
  refine ⟨fun a ha => ?_, hnodup⟩
  have hrest : ∀ a ∈ s.shared.rest, a ∈ r.1.rest := by
    intro a ha
    rw [LfQueue.rest, hframe.takes]
    exact ((hframe.nodes.map Prod.fst).drop _).subset ha
  rcases hlive a ha with hold | hnew
  · rcases hleak.live a hold with hmem | hpend | hpassed
    · exact Or.inl (hrest a hmem)
    · by_cases hi : (s.loc i).pending = some a
      · rcases hpending a hi with hx | hchain
        · exact Or.inr (Or.inl (exists_pending_update hpend fun _ => hx))
        · refine Or.inl ?_
          show a ∈ r.1.chain r.1.takes.length
          rw [hframe.takes]
          exact hchain
      · exact Or.inr (Or.inl (exists_pending_update hpend fun hc => absurd hc hi))
    · refine Or.inr (Or.inr ?_)
      have hne : c ≠ i := by
        rintro rfl
        rw [hloc] at hpassed
        cases hpassed
      show (Function.update s.loc i r.2 c).passed = some a
      rw [Function.update_of_ne hne]
      exact hpassed
  · refine Or.inr (Or.inl ⟨i, ?_⟩)
    show (Function.update s.loc i r.2 i).pending = some a
    rw [Function.update_self]
    exact hnew

/-- A step of a thread without a node that leaves the heap alone. -/
theorem NoLeak.look (hleak : NoLeak c s) {x : LfThread} (hpending : (s.loc i).pending = none)
    (hpassed : i = c → x.passed = (s.loc c).passed) :
    NoLeak c ⟨s.shared, Function.update s.loc i x⟩ := by
  refine ⟨fun a ha => ?_, hleak.nodup⟩
  rcases hleak.live a ha with hmem | hpend | hc
  · exact Or.inl hmem
  · refine Or.inr (Or.inl (exists_pending_update hpend fun hi => ?_))
    rw [hpending] at hi
    cases hi
  · refine Or.inr (Or.inr ?_)
    show (Function.update s.loc i x c).passed = some a
    rcases eq_or_ne c i with rfl | hne
    · rw [Function.update_self, hpassed rfl]
      exact hc
    · rw [Function.update_of_ne hne]
      exact hc

/-- A step of `lf_dequeue`. -/
theorem NoLeak.dequeue (hleak : NoLeak c s) (h : ReclaimInv c s) {pc : DeqPc}
    (hloc : s.loc i = .deq pc) :
    NoLeak c ⟨(lfDequeue s.shared pc).1, Function.update s.loc i (lfDequeue s.shared pc).2⟩ := by
  obtain rfl := h.only i pc hloc
  have hpending : (s.loc i).pending = none := by rw [hloc]; rfl
  have hok := h.consumer
  rw [hloc] at hok
  have hlook : ∀ x : LfThread, x.passed = (LfThread.deq pc).passed →
      NoLeak i ⟨s.shared, Function.update s.loc i x⟩ :=
    fun x hx => hleak.look hpending fun _ => hx.trans (congrArg LfThread.passed hloc.symm)
  cases pc with
  | loadHead => exact hlook _ rfl
  | testNext p =>
      rw [lfDequeue]
      split <;> exact hlook _ rfl
  | loadNext p => exact hlook _ rfl
  | swap p n =>
      obtain ⟨rfl, -, -⟩ := hok
      simp only [lfDequeue, compareAndSwapPtr, if_true]
      refine ⟨fun a ha => ?_, hleak.nodup⟩
      rcases hleak.live a ha with hmem | hpend | hpassed
      · rw [LfQueue.rest, h.rest_eq] at hmem
        rcases List.mem_cons.1 hmem with rfl | hmem
        · refine Or.inr (Or.inr ?_)
          show (Function.update s.loc i _ i).passed = some s.shared.head
          rw [Function.update_self]
          rfl
        · refine Or.inl ?_
          show a ∈ s.shared.chain (s.shared.takes ++ [none]).length
          rw [List.length_append]
          exact hmem
      · refine Or.inr (Or.inl (exists_pending_update hpend fun hi => ?_))
        rw [hpending] at hi
        cases hi
      · rw [hloc] at hpassed
        cases hpassed
  | loadNode p succ =>
      cases succ with
      | none => exact hlook _ rfl
      | some take => exact hlook _ rfl
  | loadValue p m succ =>
      cases succ with
      | none => exact hlook _ rfl
      | some take => exact hlook _ rfl
  | free p val take =>
      rw [lfDequeue]
      refine ⟨fun a ha => ?_, hleak.nodup.filter _⟩
      obtain ⟨ha, hne⟩ := List.mem_filter.1 ha
      rcases hleak.live a ha with hmem | hpend | hpassed
      · refine Or.inl ?_
        show a ∈ s.shared.chain (s.shared.takes.set take (some val)).length
        rw [List.length_set]
        exact hmem
      · refine Or.inr (Or.inl (exists_pending_update hpend fun hi => ?_))
        rw [hpending] at hi
        cases hi
      · rw [hloc] at hpassed
        exact absurd (Option.some.inj hpassed).symm (of_decide_eq_true hne)

theorem NoLeak.step (hleak : NoLeak c s) (h : ReclaimInv c s) {a : LfChoice}
    {r : LfQueue × LfThread}
    (hnext : lfNext s.shared (s.loc i) a = some r) :
    NoLeak c ⟨r.1, Function.update s.loc i r.2⟩ := by
  rcases lfNext_cases hnext with ⟨last, val, hloc, rfl, rfl⟩ | ⟨last, hloc, rfl, rfl⟩ |
    ⟨val, entry, pc, addr, hloc, rfl, henq⟩ | ⟨pc, addr, hloc, rfl, rfl⟩
  · exact hleak.look (by rw [hloc]; rfl) fun hi => by rw [← hi, hloc]; rfl
  · exact hleak.look (by rw [hloc]; rfl) fun hi => by rw [← hi, hloc]; rfl
  · exact hleak.enqueue h hloc henq
  · exact hleak.dequeue h hloc

theorem lfQueues_noLeak {h t : Nat} {value : Nat → BitVec 32} {next : Nat → Nat} (hh : h ≠ 0)
    (ht : t ≠ 0) (hne : h ≠ t) {es : List (ι × LfChoice)}
    (hrun : ((lfQueues ι (lfQueueInit h t value next)).guard fun s e =>
      oneConsumer c e ∧ passesUnused s e).Reach es s) : NoLeak c s := by
  induction hrun with
  | init hs =>
      obtain rfl := hs
      exact ⟨fun a ha => Or.inl ha, by simp [lfQueueInit, hne]⟩
  | step hr hst ih =>
      obtain ⟨-, r, hnext, rfl⟩ := hst
      exact ih.step (lfQueues_reclaimInv hh ht hne hr) hnext

/-! ## The end of a queue -/

/-- With one consumer that passes only nodes to which neither `tail` nor an enqueuer points, and
when all calls have returned, `lf_queue_deinit` frees every node that is allocated, each once, and
uses no node that it has freed. -/
theorem lfQueue_deinit_frees_all (c : ι) (h t : Nat) (value : Nat → BitVec 32) (next : Nat → Nat)
    (hh : h ≠ 0) (ht : t ≠ 0) (hne : h ≠ t) (es : List (ι × LfChoice))
    (s : Threads ι LfQueue LfThread)
    (hrun : ((lfQueues ι (lfQueueInit h t value next)).guard fun s e =>
      oneConsumer c e ∧ passesUnused s e).Reach es s)
    (hidle : ∀ i, ∃ last, s.loc i = .idle last) :
    ∃ (q : LfQueue) (ps : List Nat), lfQueueDeinit s.shared = .ok q ∧ q.live = [] ∧
      ps.Perm s.shared.live ∧ ps.Nodup ∧ q.freed = ps ++ s.shared.freed := by
  have hinv := lfQueues_reclaimInv hh ht hne hrun
  have hleak := lfQueues_noLeak hh ht hne hrun
  have hchain := hinv.queue.chain
  have hnull := hchain.nonnull
  have hlinked := hchain.linked
  have hnodup := hchain.nodup
  have hreserved := hchain.reserved
  have hrest : s.shared.rest = _ := hinv.rest_eq
  rw [hinv.rest_eq] at hlinked hnodup hnull hreserved
  generalize s.shared.chain (s.shared.takes.length + 1) = vs at hlinked hnodup hnull hreserved hrest
  have hlive : ∀ a, a ∈ s.shared.live ↔ a ∈ s.shared.head :: vs := by
    intro a
    refine ⟨fun ha => ?_, hreserved a⟩
    rcases hleak.live a ha with hmem | ⟨i, hi⟩ | hc
    · exact hrest ▸ hmem
    · obtain ⟨last, hlast⟩ := hidle i
      rw [hlast] at hi
      cases hi
    · obtain ⟨last, hlast⟩ := hidle c
      rw [hlast] at hc
      cases hc
  have hperm : (s.shared.head :: vs).Perm s.shared.live :=
    (List.perm_ext_iff_of_nodup hnodup hleak.nodup).2 fun a => (hlive a).symm
  obtain ⟨q, hloop, hhead, hqlive, hqfreed⟩ := deinitLoop_spec (n := s.shared.live.length + 1)
    (hreserved _ List.mem_cons_self) hlinked.1 hlinked.2
    (fun hc => hnull (List.mem_cons_of_mem _ hc)) hnodup
    (fun a ha => hreserved a (List.mem_cons_of_mem _ ha)) (by
      have hlen := hperm.length_eq
      rw [List.length_cons] at hlen
      omega)
  have hheadlive : q.head ∈ q.live := by
    rw [hqlive, hhead, List.mem_filter]
    exact ⟨hreserved _ List.mem_cons_self, decide_eq_true (List.nodup_cons.1 hnodup).1⟩
  refine ⟨{ q with live := q.live.filter (· ≠ q.head), freed := q.head :: q.freed },
    s.shared.head :: vs.reverse, ?_, ?_, ?_, ?_, ?_⟩
  · rw [lfQueueDeinit, hloop]
    exact if_pos hheadlive
  · rw [List.filter_eq_nil_iff]
    intro a ha
    rw [hqlive, List.mem_filter, hlive, List.mem_cons] at ha
    rcases ha with ⟨rfl | hmem, hout⟩
    · simp [hhead]
    · exact absurd hmem (of_decide_eq_true hout)
  · exact ((List.reverse_perm vs).cons _).trans hperm
  · exact (((List.reverse_perm vs).cons _).nodup_iff).2 hnodup
  · rw [hhead, hqfreed]
    rfl

end NoLeak

/-- The producer 1 enqueues 7, the consumer 0 dequeues once, and two nodes are left. -/
theorem lfQueue_deinit_frees_all_two_left :
    ∃ es s, ((lfQueues (Fin 2) (lfQueueInit 1 2 (fun _ => 5) fun _ => 0)).guard fun s e =>
        oneConsumer 0 e ∧ passesUnused s e).Reach es s ∧ s.shared.live = [3, 2] ∧
      ∃ (q : LfQueue) (ps : List Nat), lfQueueDeinit s.shared = .ok q ∧ q.live = [] ∧
        ps.Perm [3, 2] ∧ q.freed = ps ++ [1] := by
  have hrun : ∃ s, runThreads lfNext (fun s (e : Fin 2 × LfChoice) =>
        oneConsumer 0 e ∧ passesUnused s e)
      ([(1, LfChoice.enqueue 7), (1, LfChoice.step 3)] ++ List.replicate 6 (1, LfChoice.step 0) ++
        (0, LfChoice.dequeue) :: List.replicate 7 (0, LfChoice.step 0))
      ⟨lfQueueInit 1 2 (fun _ => 5) fun _ => 0, fun _ => .idle none⟩ = some s ∧
      s.shared.live = [3, 2] ∧ s.shared.freed = [1] ∧ s.loc 0 = .idle (some (.value 5)) ∧
      s.loc 1 = .idle (some .enqueued) := ⟨_, rfl, rfl, rfl, rfl, rfl⟩
  obtain ⟨s, hsome, hlive, hfreed, hzero, hone⟩ := hrun
  have hreach := reach_of_runThreads
    (lfQueues (Fin 2) (lfQueueInit 1 2 (fun _ => 5) fun _ => 0)).init rfl hsome
  have hidle : ∀ i : Fin 2, ∃ last, s.loc i = .idle last :=
    Fin.forall_fin_two.2 ⟨⟨_, hzero⟩, ⟨_, hone⟩⟩
  obtain ⟨q, ps, hdeinit, hqlive, hperm, -, hqfreed⟩ :=
    lfQueue_deinit_frees_all 0 1 2 _ _ (by decide) (by decide) (by decide) _ s hreach hidle
  rw [hlive] at hperm
  rw [hfreed] at hqfreed
  exact ⟨_, s, hreach, hlive, q, ps, hdeinit, hqlive, hperm, hqfreed⟩

end PetKernel.SyncTools
