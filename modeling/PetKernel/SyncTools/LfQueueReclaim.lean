import PetKernel.SyncTools.LfEntries

/-!
# Reclamation with one consumer

The lock-free queue with any number of enqueuers and one thread that dequeues (`oneConsumer`), when
`malloc` may return nodes that have been freed.

`tail` may be behind: an enqueuer that has linked its node and is preempted before it moves `tail`
lets the consumer overtake `tail` and free the node that `tail` points to (`lfQueue_frees_tail`).
What the code would need is that the consumer passes a node only when neither `tail` nor the local
variable `p` of an enqueuer points to it (`passesUnused`). `lfQueue_reclaim_safe` says that this is
enough: the nodes from `head` on are then a chain of nodes that are in use, with `tail` and all
these `p` in it (`ReclaimInv`).
-/

set_option autoImplicit false

namespace PetKernel.SyncTools

open PetKernel.Library

/-! ## The condition -/

namespace LfThread

/-- The node that the compare-and-swap of `head` is about to pass. -/
def swapping : LfThread → Option Nat
  | deq (.swap p _) => some p
  | _ => none

/-- The entry of `takes` that the call of `lf_dequeue` has made and not yet filled. -/
def take : LfThread → Option Nat
  | deq (.loadNode _ succ) | deq (.loadValue _ _ succ) => succ
  | deq (.free _ _ take) => some take
  | _ => none

end LfThread

section Reclaim

variable {ι : Type}

/-- Only the thread `c` calls `lf_dequeue`. -/
def oneConsumer (c : ι) (e : ι × LfChoice) : Prop := e.2 = .dequeue → e.1 = c

/-- A compare-and-swap that moves `head` beyond a node finds neither `tail` nor an enqueuer
there. -/
def passesUnused (s : Threads ι LfQueue LfThread) (e : ι × LfChoice) : Prop :=
  ∀ p ∈ (s.loc e.1).swapping, s.shared.head = p → s.shared.tail ≠ p ∧ ∀ j, p ∉ (s.loc j).hand

instance [DecidableEq ι] (c : ι) (e : ι × LfChoice) : Decidable (oneConsumer c e) :=
  inferInstanceAs (Decidable (e.2 = .dequeue → e.1 = c))

instance [Fintype ι] (s : Threads ι LfQueue LfThread) (e : ι × LfChoice) :
    Decidable (passesUnused s e) :=
  inferInstanceAs (Decidable (∀ p ∈ (s.loc e.1).swapping, s.shared.head = p →
    s.shared.tail ≠ p ∧ ∀ j, p ∉ (s.loc j).hand))

/-! ## The invariant -/

/-- The nodes from `head` on. -/
def LfQueue.rest (q : LfQueue) : List Nat := q.chain q.takes.length

/-- The consumer has passed the node `p` and not yet freed it. -/
structure Passed (s : Threads ι LfQueue LfThread) (p : Nat) : Prop where
  live : p ∈ s.shared.live
  out : p ∉ s.shared.rest
  not_pending : ∀ j, (s.loc j).pending ≠ some p

/-- What the consumer can rely on in its call of `lf_dequeue`. Nobody else moves `head`, so that its
compare-and-swap never fails. -/
def ConsumerOk (s : Threads ι LfQueue LfThread) : LfThread → Prop
  | .deq (.testNext p) => p = s.shared.head
  | .deq (.loadNext p) => p = s.shared.head ∧ s.shared.next p ≠ 0
  | .deq (.swap p n) => p = s.shared.head ∧ s.shared.next p ≠ 0 ∧ s.shared.next p = n
  | .deq (.loadNode p succ) => Passed s p ∧ s.shared.next p = s.shared.head ∧ succ ≠ none
  | .deq (.loadValue p m succ) => Passed s p ∧ m = s.shared.head ∧ succ ≠ none
  | .deq (.free p val take) => Passed s p ∧ ∃ a, s.shared.nodes[take + 1]? = some (a, val)
  | _ => True

/-- The nodes from `head` on are a chain of nodes in use, which has `tail` and the local `p` of all
enqueuers in it. All dequeues but the one under way have returned. -/
structure ReclaimInv (c : ι) (s : Threads ι LfQueue LfThread) : Prop where
  queue : QueueInv {a | a ∈ s.shared.live} s.shared.takes.length s
  entries : EntryInv s
  head : s.shared.rest[0]? = some s.shared.head
  freed : ∀ a ∈ s.shared.freed, a ∉ s.shared.live
  takes : ∀ k v, s.shared.takes[k]? = some (some v) → ∃ a, s.shared.nodes[k + 1]? = some (a, v)
  filled : ∀ k : Nat, s.shared.takes[k]? = some none → (s.loc c).take = some k
  take_last : ∀ k, (s.loc c).take = some k → k + 1 = s.shared.takes.length
  only : ∀ i pc, s.loc i = .deq pc → i = c
  consumer : ConsumerOk s (s.loc c)

variable {c i : ι} {s s' : Threads ι LfQueue LfThread} {q q' : LfQueue} {x : LfThread}

theorem ReclaimInv.head_mem (h : ReclaimInv c s) : s.shared.head ∈ s.shared.rest :=
  List.mem_of_getElem? h.head

theorem ReclaimInv.head_ne_zero (h : ReclaimInv c s) : s.shared.head ≠ 0 :=
  fun hzero => h.queue.chain.nonnull (hzero ▸ h.head_mem)

/-- What the consumer relies on is not harmed by the others. -/
theorem ConsumerOk.frame {t : LfThread} (h : ConsumerOk s t) (hzero : s.shared.head ≠ 0)
    (hhead : s'.shared.head = s.shared.head) (hnodes : s.shared.nodes <+: s'.shared.nodes)
    (hpassed : ∀ p, Passed s p → Passed s' p)
    (hnext : ∀ p, p = s.shared.head ∨ Passed s p → s.shared.next p ≠ 0 →
      s'.shared.next p = s.shared.next p) : ConsumerOk s' t := by
  cases t with
  | idle last => trivial
  | enq val entry pc => trivial
  | deq pc =>
      cases pc with
      | loadHead => trivial
      | testNext p => exact Eq.trans h hhead.symm
      | loadNext p =>
          obtain ⟨hp, hp0⟩ := h
          exact ⟨hp.trans hhead.symm, (hnext p (Or.inl hp) hp0).symm ▸ hp0⟩
      | swap p n =>
          obtain ⟨hp, hp0, hn⟩ := h
          have hsame := hnext p (Or.inl hp) hp0
          exact ⟨hp.trans hhead.symm, hsame.symm ▸ hp0, hsame.trans hn⟩
      | loadNode p succ =>
          obtain ⟨hp, hphead, hsucc⟩ := h
          have hsame := hnext p (Or.inr hp) (hphead.symm ▸ hzero)
          exact ⟨hpassed p hp, hsame.trans (hphead.trans hhead.symm), hsucc⟩
      | loadValue p m succ =>
          obtain ⟨hp, hm, hsucc⟩ := h
          exact ⟨hpassed p hp, hm.trans hhead.symm, hsucc⟩
      | free p val take =>
          obtain ⟨hp, a, ha⟩ := h
          exact ⟨hpassed p hp, a, getElem?_of_isPrefix hnodes ha⟩

/-! ## Steps of enqueuers -/

variable [DecidableEq ι]

/-- What the consumer has passed stays passed. -/
theorem Passed.enqueue {p : Nat} (h : Passed s p) (hframe : EnqFrame (s.loc i) s.shared x q') :
    Passed ⟨q', Function.update s.loc i x⟩ p := by
  refine ⟨hframe.live h.live, fun hmem => ?_, ?_⟩
  · have hrest : p ∈ q'.chain s.shared.takes.length := hframe.takes ▸ hmem
    rcases hframe.chain _ p hrest with hmem | hpending
    · exact h.out hmem
    · exact h.not_pending i hpending
  · refine (Function.forall_update_iff s.loc fun _ t => t.pending ≠ some p).2
      ⟨fun hpending => ?_, fun j _ => h.not_pending j⟩
    rcases hframe.pending p hpending with hold | hout
    · exact h.not_pending i hold
    · exact hout h.live

/-- A thread that is not in `lf_dequeue` has no entry of `takes` to fill. -/
theorem take_eq_none (hx : ∀ pc, x ≠ .deq pc) : x.take = none := by
  cases x with
  | deq pc => exact absurd rfl (hx pc)
  | _ => rfl

omit [DecidableEq ι] in
theorem consumerOk_of_outside (hx : ∀ pc, x ≠ .deq pc) : ConsumerOk s x := by
  cases x with
  | deq pc => exact absurd rfl (hx pc)
  | _ => trivial

/-- The entry to fill changes only by a step of the consumer. -/
theorem take_update (hx : i = c → x.take = (s.loc c).take) :
    (Function.update s.loc i x c).take = (s.loc c).take := by
  rcases eq_or_ne c i with rfl | hne
  · rw [Function.update_self]
    exact hx rfl
  · rw [Function.update_of_ne hne]

theorem ReclaimInv.only_update (h : ReclaimInv c s) (hx : ∀ pc, x = .deq pc → i = c) :
    ∀ j pc, Function.update s.loc i x j = .deq pc → j = c :=
  (Function.forall_update_iff s.loc fun j t => ∀ pc, t = .deq pc → j = c).2 ⟨hx,
    fun j _ => h.only j⟩

/-- A step of `lf_enqueue`. -/
theorem ReclaimInv.enqueue (h : ReclaimInv c s) {val : BitVec 32} {entry : Option Nat} {pc : EnqPc}
    {addr : Nat} {r : LfQueue × LfThread} (hloc : s.loc i = .enq val entry pc)
    (hnext : lfEnqueue s.shared val entry pc addr = some r) :
    ReclaimInv c ⟨r.1, Function.update s.loc i r.2⟩ := by
  have hok := h.queue.ok i
  have hframe : EnqFrame (s.loc i) s.shared r.2 r.1 := hloc ▸ lfEnqueue_frame (hloc ▸ hok) hnext
  have htake : (Function.update s.loc i r.2 c).take = (s.loc c).take := by
    apply take_update
    rintro rfl
    rw [take_eq_none hframe.outside, hloc]
    rfl
  refine ⟨?_, h.entries.enqueue hloc hok hnext, ?_, ?_, ?_, ?_, ?_, ?_, ?_⟩
  · rw [hframe.takes]
    refine h.queue.enqueue hloc hnext (fun a ha => hframe.live ha) fun hpc => ?_
    subst hpc
    exact lfEnqueue_malloc hnext
  · show (r.1.chain r.1.takes.length)[0]? = some r.1.head
    rw [hframe.takes, hframe.head]
    exact getElem?_of_isPrefix ((hframe.nodes.map Prod.fst).drop _) h.head
  · intro a ha
    obtain ⟨hold, hout⟩ := hframe.reused a ha
    exact hout (h.freed a hold)
  · rw [hframe.takes]
    intro k v hk
    obtain ⟨a, ha⟩ := h.takes k v hk
    exact ⟨a, getElem?_of_isPrefix hframe.nodes ha⟩
  · rw [hframe.takes, htake]
    exact h.filled
  · rw [hframe.takes, htake]
    exact h.take_last
  · exact h.only_update fun pc hx => absurd hx (hframe.outside pc)
  · show ConsumerOk _ (Function.update s.loc i r.2 c)
    rcases eq_or_ne c i with rfl | hne
    · rw [Function.update_self]
      exact consumerOk_of_outside hframe.outside
    · rw [Function.update_of_ne hne]
      refine h.consumer.frame h.head_ne_zero hframe.head hframe.nodes
        (fun p hp => hp.enqueue hframe) fun p hp hp0 => hframe.next p ?_ hp0
      rcases hp with rfl | hp
      · exact fun hpending => (h.queue.pending i _ hpending).2.2 h.head_mem
      · exact hp.not_pending i

/-! ## Steps of the consumer -/

/-- A step that changes nothing shared, at the beginning of a call or in `lf_dequeue`. -/
theorem ReclaimInv.look (h : ReclaimInv c s) (hentry : (s.loc i).entry = none)
    (hpending : x.pending = none) (hhand : x.hand = none) (hx : x.entry = none)
    (henq : EnqOk s.shared x) (htake : i = c → x.take = (s.loc c).take)
    (honly : ∀ pc, x = .deq pc → i = c)
    (hconsumer : i = c → ConsumerOk s x) :
    ReclaimInv c ⟨s.shared, Function.update s.loc i x⟩ := by
  have hpassed : ∀ p, Passed s p → Passed ⟨s.shared, Function.update s.loc i x⟩ p := by
    intro p hp
    refine ⟨hp.live, hp.out, (Function.forall_update_iff s.loc fun _ t => t.pending ≠ some p).2
      ⟨?_, fun j _ => hp.not_pending j⟩⟩
    rw [hpending]
    exact nofun
  have hsame := take_update htake
  refine ⟨?_, h.entries.keep rfl rfl (hx.trans hentry.symm), h.head, h.freed, h.takes, ?_,
    ?_, ?_, ?_⟩
  · exact h.queue.outside rfl rfl rfl rfl hpending hhand henq
  · rw [hsame]
    exact h.filled
  · rw [hsame]
    exact h.take_last
  · exact h.only_update honly
  · have hframe : ∀ t, ConsumerOk s t → ConsumerOk ⟨s.shared, Function.update s.loc i x⟩ t :=
      fun t ht => ht.frame h.head_ne_zero rfl List.prefix_rfl hpassed fun _ _ _ => rfl
    show ConsumerOk _ (Function.update s.loc i x c)
    rcases eq_or_ne c i with rfl | hne
    · rw [Function.update_self]
      exact hframe x (hconsumer rfl)
    · rw [Function.update_of_ne hne]
      exact hframe _ h.consumer

omit [DecidableEq ι] in
/-- The chain without its first node, when nobody is at that node. -/
theorem QueueInv.advance {R : Set Nat} {base : Nat} (h : QueueInv R base s) {p : Nat}
    (hp : (s.shared.chain base)[0]? = some p) (htail : s.shared.tail ≠ p)
    (hhand : ∀ j, p ∉ (s.loc j).hand) : QueueInv R (base + 1) s := by
  have hcons := LfQueue.chain_eq_cons hp
  refine ⟨?_, fun j q hq => ?_, h.pending_inj, fun j a ha => ?_, h.ok⟩
  · exact h.chain.advance hp htail (fun _ ha _ => ha) rfl rfl rfl rfl
  · obtain ⟨hzero, hres, hout⟩ := h.pending j q hq
    rw [hcons] at hout
    exact ⟨hzero, hres, fun hmem => hout (List.mem_cons_of_mem p hmem)⟩
  · have hmem := h.hand j a ha
    rw [hcons] at hmem
    refine (List.mem_cons.1 hmem).resolve_left fun heq => hhand j ?_
    rw [heq] at ha
    exact ha

omit [DecidableEq ι] in
/-- A node that is neither in the chain nor pending is given up. -/
theorem QueueInv.release {R R' : Set Nat} {base p : Nat} (h : QueueInv R base s)
    (hout : p ∉ s.shared.chain base) (hpending : ∀ j, (s.loc j).pending ≠ some p)
    (hR : ∀ a ∈ R, a ≠ p → a ∈ R') : QueueInv R' base s := by
  refine ⟨?_, fun j q hq => ?_, h.pending_inj, h.hand, h.ok⟩
  · obtain ⟨hlinked, hnodup, hnonnull, hreserved, hvalues, htail⟩ := h.chain
    exact ⟨hlinked, hnodup, hnonnull, fun a ha => hR a (hreserved a ha) fun heq => hout (heq ▸ ha),
      hvalues, htail⟩
  · obtain ⟨hzero, hres, hnot⟩ := h.pending j q hq
    exact ⟨hzero, hR q hres fun heq => hpending j (heq ▸ hq), hnot⟩

omit [DecidableEq ι] in
theorem ReclaimInv.rest_eq (h : ReclaimInv c s) :
    s.shared.chain s.shared.takes.length =
      s.shared.head :: s.shared.chain (s.shared.takes.length + 1) :=
  LfQueue.chain_eq_cons h.head

omit [DecidableEq ι] in
/-- The node after `head` is the first one of the rest of the chain. -/
theorem ReclaimInv.next_head (h : ReclaimInv c s) (hzero : s.shared.next s.shared.head ≠ 0) :
    (s.shared.chain (s.shared.takes.length + 1))[0]? = some (s.shared.next s.shared.head) := by
  have hnext := h.queue.chain.linked.next_eq h.head
  rw [h.rest_eq, List.getElem?_cons_succ] at hnext
  cases hfirst : (s.shared.chain (s.shared.takes.length + 1))[0]? with
  | none =>
      rw [hfirst] at hnext
      exact absurd hnext hzero
  | some a =>
      rw [hfirst] at hnext
      rw [hnext]
      rfl

omit [DecidableEq ι] in
/-- The chain does not come back to `head`. -/
theorem ReclaimInv.head_not_mem (h : ReclaimInv c s) :
    s.shared.head ∉ s.shared.chain (s.shared.takes.length + 1) := by
  have hnodup := h.queue.chain.nodup
  rw [h.rest_eq, List.nodup_cons] at hnodup
  exact hnodup.1

/-- The compare-and-swap of `head`: the consumer passes the first node. -/
theorem ReclaimInv.swap (h : ReclaimInv c s) {p n : Nat} (hloc : s.loc c = .deq (.swap p n))
    (hclear : s.shared.tail ≠ p ∧ ∀ j, p ∉ (s.loc j).hand) :
    ReclaimInv c ⟨(lfDequeue s.shared (.swap p n)).1,
      Function.update s.loc c (lfDequeue s.shared (.swap p n)).2⟩ := by
  have hok := h.consumer
  rw [hloc] at hok
  obtain ⟨rfl, hzero, hn⟩ := hok
  have hqueue := ((h.queue.advance h.head hclear.1 hclear.2).dequeue (i := c)
    (.swap s.shared.head n))
  have hentries := h.entries.dequeue hloc
  have hlen : (s.shared.takes ++ [none]).length = s.shared.takes.length + 1 := by
    rw [List.length_append, List.length_singleton]
  simp only [lfDequeue, compareAndSwapPtr, if_true] at hqueue hentries ⊢
  refine ⟨?_, hentries, ?_, h.freed, fun k v hk => ?_, fun k hk => ?_, ?_, ?_, ?_⟩
  · show QueueInv _ (s.shared.takes ++ [none]).length _
    rw [hlen]
    exact hqueue
  · show (s.shared.chain (s.shared.takes ++ [none]).length)[0]? = some n
    rw [hlen, ← hn]
    exact h.next_head hzero
  · rcases getElem?_append_none hk with hold | ⟨-, hnone⟩
    · exact h.takes k v hold
    · cases hnone
  · rcases getElem?_append_none hk with hold | ⟨rfl, -⟩
    · -- all entries were filled when the consumer was at its compare-and-swap
      have htake := h.filled k hold
      rw [hloc] at htake
      cases htake
    · exact congrArg LfThread.take (Function.update_self c _ s.loc)
  · simp only [Function.update_self]
    intro k hk
    cases hk
    exact hlen.symm
  · exact h.only_update fun _ _ => rfl
  · simp only [Function.update_self]
    refine ⟨⟨?_, ?_, ?_⟩, hn, Option.some_ne_none _⟩
    · exact h.queue.chain.reserved _ h.head_mem
    · show s.shared.head ∉ s.shared.chain (s.shared.takes ++ [none]).length
      rw [hlen]
      exact h.head_not_mem
    · refine (Function.forall_update_iff s.loc fun _ t => t.pending ≠ some s.shared.head).2
        ⟨(Option.some_ne_none _).symm, fun j _ hj => ?_⟩
      exact (h.queue.pending j _ hj).2.2 h.head_mem

/-- `free`, and the return with the value. -/
theorem ReclaimInv.free (h : ReclaimInv c s) {p take : Nat} {val : BitVec 32}
    (hloc : s.loc c = .deq (.free p val take)) :
    ReclaimInv c ⟨(lfDequeue s.shared (.free p val take)).1,
      Function.update s.loc c (lfDequeue s.shared (.free p val take)).2⟩ := by
  have hok := h.consumer
  rw [hloc] at hok
  obtain ⟨hpassed, hvalue⟩ := hok
  have hrelease : QueueInv {a | a ∈ s.shared.live.filter (· ≠ p)} s.shared.takes.length s :=
    h.queue.release hpassed.out hpassed.not_pending fun a ha hne =>
      List.mem_filter.2 ⟨ha, by simpa using hne⟩
  have hqueue := hrelease.dequeue (i := c) (.free p val take)
  have hlen : (s.shared.takes.set take (some val)).length = s.shared.takes.length :=
    List.length_set ..
  simp only [lfDequeue] at hqueue ⊢
  refine ⟨?_, h.entries.dequeue hloc, ?_, ?_, fun k v hk => ?_, fun k hk => ?_, ?_, ?_, ?_⟩
  · show QueueInv _ (s.shared.takes.set take (some val)).length _
    rw [hlen]
    exact hqueue
  · show (s.shared.chain (s.shared.takes.set take (some val)).length)[0]? = some s.shared.head
    rw [hlen]
    exact h.head
  · intro a ha hmem
    obtain ⟨hlive, hne⟩ := List.mem_filter.1 hmem
    rcases List.mem_cons.1 ha with heq | ha
    · simp [heq] at hne
    · exact h.freed a ha hlive
  · rcases getElem?_set_some hk with ⟨rfl, hv⟩ | ⟨-, hold⟩
    · cases hv
      exact hvalue
    · exact h.takes k v hold
  · rcases getElem?_set_some hk with ⟨-, hnone⟩ | ⟨hne, hold⟩
    · cases hnone
    · -- the entry just filled was the only one to be filled
      have htake := h.filled k hold
      rw [hloc] at htake
      exact absurd (Option.some.inj htake).symm hne
  · simp only [Function.update_self]
    intro k hk
    cases hk
  · exact h.only_update fun pc hpc => absurd hpc (LfThread.idle_ne_deq pc)
  · simp only [Function.update_self]
    trivial

omit [DecidableEq ι] in
/-- The value that the consumer reads is that of its entry. -/
theorem ReclaimInv.head_value (h : ReclaimInv c s) {k : Nat} (hk : (s.loc c).take = some k) :
    ∃ a, s.shared.nodes[k + 1]? = some (a, s.shared.value s.shared.head) := by
  have hhead := h.head
  rw [LfQueue.rest, LfQueue.chain, List.getElem?_drop, List.getElem?_map, Nat.add_zero,
    ← h.take_last k hk, Option.map_eq_some_iff] at hhead
  obtain ⟨⟨_, v⟩, hentry, rfl⟩ := hhead
  refine ⟨s.shared.head, ?_⟩
  rw [h.queue.chain.values (k + 1) _ v (h.take_last k hk).ge hentry]
  exact hentry

/-- A step of `lf_dequeue`. -/
theorem ReclaimInv.dequeue (h : ReclaimInv c s) {pc : DeqPc} (hloc : s.loc i = .deq pc)
    (hclear : ∀ p n, pc = .swap p n → s.shared.head = p →
      s.shared.tail ≠ p ∧ ∀ j, p ∉ (s.loc j).hand) :
    ReclaimInv c ⟨(lfDequeue s.shared pc).1,
      Function.update s.loc i (lfDequeue s.shared pc).2⟩ := by
  obtain rfl := h.only i pc hloc
  have hentry : (s.loc i).entry = none := by rw [hloc]; rfl
  have hok := h.consumer
  rw [hloc] at hok
  have hlook : ∀ x : LfThread, x.pending = none → x.hand = none → x.entry = none →
      EnqOk s.shared x → x.take = (LfThread.deq pc).take → ConsumerOk s x →
      ReclaimInv i ⟨s.shared, Function.update s.loc i x⟩ := by
    intro x hpending hhand hx henq htake hconsumer
    refine h.look hentry hpending hhand hx henq (fun _ => ?_) (fun _ _ => rfl) fun _ => hconsumer
    rw [hloc]
    exact htake
  cases pc with
  | loadHead => exact hlook _ rfl rfl rfl trivial rfl rfl
  | testNext p =>
      rw [lfDequeue]
      split
      next => exact hlook _ rfl rfl rfl trivial rfl trivial
      next hzero => exact hlook _ rfl rfl rfl trivial rfl ⟨hok, hzero⟩
  | loadNext p => exact hlook _ rfl rfl rfl trivial rfl ⟨hok.1, hok.2, rfl⟩
  | swap p n => exact h.swap hloc (hclear p n rfl hok.1.symm)
  | loadNode p succ => exact hlook _ rfl rfl rfl trivial rfl ⟨hok.1, hok.2.1, hok.2.2⟩
  | loadValue p m succ =>
      obtain ⟨hp, rfl, hsucc⟩ := hok
      cases succ with
      | none => exact absurd rfl hsucc
      | some take =>
          exact hlook _ rfl rfl rfl trivial rfl ⟨hp, h.head_value (by rw [hloc]; rfl)⟩
  | free p val take => exact h.free hloc

/-! ## Every run -/

theorem ReclaimInv.step (h : ReclaimInv c s) {a : LfChoice} {r : LfQueue × LfThread}
    (hone : oneConsumer c (i, a)) (hclear : passesUnused s (i, a))
    (hnext : lfNext s.shared (s.loc i) a = some r) :
    ReclaimInv c ⟨r.1, Function.update s.loc i r.2⟩ := by
  rcases lfNext_cases hnext with ⟨last, val, hloc, rfl, rfl⟩ | ⟨last, hloc, rfl, rfl⟩ |
    ⟨val, entry, pc, addr, hloc, rfl, henq⟩ | ⟨pc, addr, hloc, rfl, rfl⟩
  · refine h.look (by rw [hloc]; rfl) rfl rfl rfl rfl (fun hi => ?_) nofun fun _ => trivial
    rw [← hi, hloc]
    rfl
  · refine h.look (by rw [hloc]; rfl) rfl rfl rfl trivial (fun hi => ?_) (fun _ _ => hone rfl)
      fun _ => trivial
    rw [← hi, hloc]
    rfl
  · exact h.enqueue hloc henq
  · refine h.dequeue hloc fun p n hpc => hclear p ?_
    rw [hloc, hpc]
    rfl

theorem lfQueues_reclaimInv {h t : Nat} {value : Nat → BitVec 32} {next : Nat → Nat} (hh : h ≠ 0)
    (ht : t ≠ 0) (hne : h ≠ t) {es : List (ι × LfChoice)}
    (hrun : ((lfQueues ι (lfQueueInit h t value next)).guard fun s e =>
      oneConsumer c e ∧ passesUnused s e).Reach es s) : ReclaimInv c s := by
  refine hrun.invariant (I := ReclaimInv c) ?_ ?_
  · rintro s rfl
    refine ⟨queueInv_init value next hh ht hne, entryInv_init h t value next, rfl, ?_, ?_,
      ?_, ?_, ?_, trivial⟩
    · exact fun a ha => by cases ha
    · exact fun k v hk => by cases hk
    · exact fun k hk => by cases hk
    · exact fun k hk => by cases hk
    · exact fun i pc hpc => by cases hpc
  · rintro s ⟨i, a⟩ u hinv ⟨⟨hone, hclear⟩, r, hnext, rfl⟩
    exact hinv.step hone hclear hnext

omit [DecidableEq ι] in
/-- The value of an entry has been returned by `lf_dequeue`, or its node is reachable from `head`
and has the value. -/
theorem ReclaimInv.not_lost (h : ReclaimInv c s) {k a : Nat} {v : BitVec 32} (hk : 1 ≤ k)
    (hentry : s.shared.nodes[k]? = some (a, v)) :
    s.shared.takes[k - 1]? = some (some v) ∨
      ∃ n, Nat.iterate s.shared.next n s.shared.head = a ∧ a ≠ 0 ∧ s.shared.value a = v := by
  rcases Nat.lt_or_ge k s.shared.takes.length with hlt | hge
  · -- an entry that the consumer has passed, and not the last one
    refine Or.inl ?_
    have hsome : s.shared.takes[k - 1]? = some (s.shared.takes.get ⟨k - 1, by omega⟩) :=
      List.getElem?_eq_getElem (by omega)
    rw [hsome]
    cases htake : s.shared.takes.get ⟨k - 1, by omega⟩ with
    | none =>
        rw [htake] at hsome
        have hlast := h.take_last _ (h.filled _ hsome)
        omega
    | some w =>
        rw [htake] at hsome
        obtain ⟨b, hb⟩ := h.takes _ w hsome
        rw [Nat.sub_add_cancel hk, hentry] at hb
        cases hb
        rfl
  · have hpos := LfQueue.chain_getElem? hentry hge
    refine Or.inr ⟨_, h.queue.chain.linked.iterate h.head hpos, ?_, ?_⟩
    · exact fun hzero => h.queue.chain.nonnull (hzero ▸ List.mem_of_getElem? hpos)
    · exact h.queue.chain.values k a v hge hentry

/-- Reclamation with one consumer and any number of enqueuers, when `malloc` may return freed nodes.
In every run in which `head` is moved only beyond nodes that neither `tail` nor an enqueuer points
to: `tail` and the local `p` of an enqueuer never point to a freed node, and every value whose
`lf_enqueue` has returned has been dequeued or is reachable from `head`. -/
theorem lfQueue_reclaim_safe (c : ι) (h t : Nat) (value : Nat → BitVec 32) (next : Nat → Nat)
    (hh : h ≠ 0) (ht : t ≠ 0) (hne : h ≠ t) (es : List (ι × LfChoice))
    (s : Threads ι LfQueue LfThread)
    (hrun : ((lfQueues ι (lfQueueInit h t value next)).guard fun s e =>
      oneConsumer c e ∧ passesUnused s e).Reach es s) :
    s.shared.tail ∉ s.shared.freed ∧
      (∀ i p, (s.loc i).hand = some p → p ∉ s.shared.freed) ∧
      ∀ o ∈ s.shared.done, ∃ k a v, o = some k ∧ s.shared.nodes[k]? = some (a, v) ∧
        (s.shared.takes[k - 1]? = some (some v) ∨
          ∃ n, Nat.iterate s.shared.next n s.shared.head = a ∧ a ≠ 0 ∧ s.shared.value a = v) := by
  have hinv := lfQueues_reclaimInv hh ht hne hrun
  have hlive : ∀ a ∈ s.shared.rest, a ∉ s.shared.freed :=
    fun a ha hfreed => hinv.freed a hfreed (hinv.queue.chain.reserved a ha)
  refine ⟨hlive _ hinv.queue.chain.tail, fun i p hp => hlive p (hinv.queue.hand i p hp), ?_⟩
  intro o ho
  obtain ⟨k, rfl, hk, hlt⟩ := hinv.entries.done o ho
  have hentry : s.shared.nodes[k]? = some (s.shared.nodes.get ⟨k, hlt⟩) :=
    List.getElem?_eq_getElem hlt
  exact ⟨k, _, _, rfl, hentry, hinv.not_lost (Nat.one_le_of_lt hk) hentry⟩

end Reclaim

/-- The producer 1 enqueues 7, and then the consumer 0 dequeues twice. -/
theorem lfQueue_reclaim_safe_after_return :
    ∃ es s, ((lfQueues (Fin 2) (lfQueueInit 1 2 (fun _ => 5) fun _ => 0)).guard fun s e =>
        oneConsumer 0 e ∧ passesUnused s e).Reach es s ∧
      s.shared.freed = [2, 1] ∧ s.shared.tail ∉ s.shared.freed := by
  have hrun : ∃ s, runThreads lfNext (fun s (e : Fin 2 × LfChoice) =>
        oneConsumer 0 e ∧ passesUnused s e)
      ([(1, LfChoice.enqueue 7), (1, LfChoice.step 3)] ++ List.replicate 6 (1, LfChoice.step 0) ++
        (0, LfChoice.dequeue) :: List.replicate 7 (0, LfChoice.step 0) ++
        (0, LfChoice.dequeue) :: List.replicate 7 (0, LfChoice.step 0))
      ⟨lfQueueInit 1 2 (fun _ => 5) fun _ => 0, fun _ => .idle none⟩ = some s ∧
      s.shared.freed = [2, 1] := ⟨_, rfl, rfl⟩
  obtain ⟨s, hsome, hfreed⟩ := hrun
  have hreach := reach_of_runThreads
    (lfQueues (Fin 2) (lfQueueInit 1 2 (fun _ => 5) fun _ => 0)).init rfl hsome
  exact ⟨_, s, hreach, hfreed,
    (lfQueue_reclaim_safe 0 1 2 _ _ (by decide) (by decide) (by decide) _ s hreach).1⟩

/-- The producer 1 links its node and is preempted before it moves `tail`. The consumer 0 dequeues
twice and frees the node that `tail` points to. -/
theorem lfQueue_frees_tail :
    ∃ es s, ((lfQueues (Fin 2) (lfQueueInit 1 2 (fun _ => 5) fun _ => 0)).guard fun _ e =>
        oneConsumer 0 e).Reach es s ∧
      s.shared.tail ∈ s.shared.freed ∧ s.loc 1 = .enq 7 (some 2) (.check 3 2) := by
  have hrun : ∃ s, runThreads lfNext (fun _ (e : Fin 2 × LfChoice) => oneConsumer 0 e)
      ([(1, LfChoice.enqueue 7), (1, LfChoice.step 3)] ++ List.replicate 4 (1, LfChoice.step 0) ++
        (0, LfChoice.dequeue) :: List.replicate 7 (0, LfChoice.step 0) ++
        (0, LfChoice.dequeue) :: List.replicate 7 (0, LfChoice.step 0))
      ⟨lfQueueInit 1 2 (fun _ => 5) fun _ => 0, fun _ => .idle none⟩ = some s ∧
      s.shared.tail ∈ s.shared.freed ∧ s.loc 1 = .enq 7 (some 2) (.check 3 2) :=
    ⟨_, rfl, by decide, rfl⟩
  obtain ⟨s, hsome, hbad⟩ := hrun
  exact ⟨_, s, reach_of_runThreads
    (lfQueues (Fin 2) (lfQueueInit 1 2 (fun _ => 5) fun _ => 0)).init rfl hsome, hbad⟩

end PetKernel.SyncTools
