import PetKernel.SyncTools.LfEntries

/-!
# The queue as a chain of all nodes

The lock-free queue with any number of enqueuers and dequeuers, when `malloc` returns only nodes
that have never been used (`freshMalloc`) and freed nodes stay readable. All nodes ever linked are
then one chain, in the order of the log, in which `head` is at the position given by the number of
successful dequeues (`FifoInv`). `lfQueue_fifo` is the result.
-/

set_option autoImplicit false

namespace PetKernel.SyncTools

open PetKernel.Library

/-- The nodes that have ever been allocated. -/
def LfQueue.used (q : LfQueue) : Set Nat := {a | a ∈ q.live ∨ a ∈ q.freed}

section Fifo

variable {ι : Type} [DecidableEq ι]

/-- `malloc` returns a node that has never been allocated. -/
def freshMalloc (s : Threads ι LfQueue LfThread) (e : ι × LfChoice) : Bool :=
  match s.loc e.1, e.2 with
  | .enq _ _ .malloc, .step addr => addr ∉ s.shared.live ∧ addr ∉ s.shared.freed
  | _, _ => true

/-- The node `p` is at position `k` of the chain, and another node is after it. -/
def Followed (q : LfQueue) (k p : Nat) : Prop := (q.chain 0)[k]? = some p ∧ q.next p ≠ 0

/-- What a call of `lf_dequeue` can rely on. The position of `p` is at most that of `head`, and it
is the entry of `takes` that the call has made, if it has made one. -/
def DeqOk (q : LfQueue) : LfThread → Prop
  | .deq (.testNext p) => ∃ k, k ≤ q.takes.length ∧ (q.chain 0)[k]? = some p
  | .deq (.loadNext p) => ∃ k, Followed q k p
  | .deq (.swap p n) => ∃ k, Followed q k p ∧ q.next p = n
  | .deq (.loadNode p succ) => ∃ k, Followed q k p ∧ ∀ take, succ = some take → take = k
  | .deq (.loadValue p m succ) =>
      ∃ k, Followed q k p ∧ q.next p = m ∧ ∀ take, succ = some take → take = k
  | .deq (.free _ val take) => ∃ a, q.nodes[take + 1]? = some (a, val)
  | _ => True

/-- All nodes ever linked are one chain. `head` has gone as far in it as there were successful
dequeues, and what they return are the values of the nodes in their order. -/
structure FifoInv (q₀ : LfQueue) (s : Threads ι LfQueue LfThread) : Prop where
  queue : QueueInv s.shared.used 0 s
  entries : EntryInv s
  nodes : q₀.nodes <+: s.shared.nodes
  head : (s.shared.chain 0)[s.shared.takes.length]? = some s.shared.head
  takes : ∀ k v, s.shared.takes[k]? = some (some v) → ∃ a, s.shared.nodes[k + 1]? = some (a, v)
  deq : ∀ i, DeqOk s.shared (s.loc i)

variable {q₀ : LfQueue} {s : Threads ι LfQueue LfThread} {i : ι} {q q' : LfQueue} {x : LfThread}

/-! ## Positions in the chain -/

theorem LfQueue.chain_zero (q : LfQueue) : q.chain 0 = q.nodes.map Prod.fst := rfl

theorem chain_getElem?_of_isPrefix (h : q.nodes <+: q'.nodes) {k a : Nat}
    (hk : (q.chain 0)[k]? = some a) : (q'.chain 0)[k]? = some a :=
  getElem?_of_isPrefix (h.map Prod.fst) hk

/-- The node after a node of the chain. -/
theorem ChainInv.followed {R : Set Nat} (h : ChainInv R 0 q) {k p : Nat} (hp : Followed q k p) :
    (q.chain 0)[k + 1]? = some (q.next p) := by
  have hnext := h.linked.next_eq hp.1
  cases hsucc : (q.chain 0)[k + 1]? with
  | none =>
      rw [hsucc] at hnext
      exact absurd hnext hp.2
  | some b =>
      rw [hsucc] at hnext
      exact congrArg some hnext.symm

/-- The value that is read from the node after `p` is that of its entry. -/
theorem ChainInv.followed_value {R : Set Nat} (h : ChainInv R 0 q) {k p : Nat}
    (hp : Followed q k p) : ∃ a, q.nodes[k + 1]? = some (a, q.value (q.next p)) := by
  have hsucc := h.followed hp
  rw [LfQueue.chain_zero, List.getElem?_map, Option.map_eq_some_iff] at hsucc
  obtain ⟨⟨a, v⟩, hentry, ha⟩ := hsucc
  refine ⟨a, ?_⟩
  rw [← ha, h.values (k + 1) a v (Nat.zero_le _) hentry]
  exact hentry

/-- The chain grows at its end, and `takes` gets longer. -/
theorem DeqOk.frame {t : LfThread} (h : DeqOk q t) (hnodes : q.nodes <+: q'.nodes)
    (htakes : q.takes.length ≤ q'.takes.length)
    (hnext : ∀ p ∈ q.chain 0, q.next p ≠ 0 → q'.next p = q.next p) : DeqOk q' t := by
  have hfollowed : ∀ k p, Followed q k p → Followed q' k p ∧ q'.next p = q.next p := by
    intro k p hp
    have hsame := hnext p (List.mem_of_getElem? hp.1) hp.2
    exact ⟨⟨chain_getElem?_of_isPrefix hnodes hp.1, hsame.symm ▸ hp.2⟩, hsame⟩
  cases t with
  | idle last => trivial
  | enq val entry pc => trivial
  | deq pc =>
      cases pc with
      | loadHead => trivial
      | testNext p =>
          obtain ⟨k, hk, hp⟩ := h
          exact ⟨k, hk.trans htakes, chain_getElem?_of_isPrefix hnodes hp⟩
      | loadNext p =>
          obtain ⟨k, hp⟩ := h
          exact ⟨k, (hfollowed k p hp).1⟩
      | swap p n =>
          obtain ⟨k, hp, hn⟩ := h
          exact ⟨k, (hfollowed k p hp).1, (hfollowed k p hp).2.trans hn⟩
      | loadNode p succ =>
          obtain ⟨k, hp, hsucc⟩ := h
          exact ⟨k, (hfollowed k p hp).1, hsucc⟩
      | loadValue p m succ =>
          obtain ⟨k, hp, hm, hsucc⟩ := h
          exact ⟨k, (hfollowed k p hp).1, (hfollowed k p hp).2.trans hm, hsucc⟩
      | free p val take =>
          obtain ⟨a, ha⟩ := h
          exact ⟨a, getElem?_of_isPrefix hnodes ha⟩

/-! ## The steps -/

/-- The allocated nodes after a step of `lf_dequeue`: what is freed has been allocated. -/
theorem used_subset_lfDequeue (pc : DeqPc) : q.used ⊆ (lfDequeue q pc).1.used := by
  cases pc with
  | loadValue p m succ => cases succ <;> exact subset_rfl
  | free p val take =>
      intro a ha
      rcases eq_or_ne a p with rfl | hne
      · exact Or.inr List.mem_cons_self
      · rcases ha with ha | ha
        · exact Or.inl (List.mem_filter.2 ⟨ha, by simpa using hne⟩)
        · exact Or.inr (List.mem_cons_of_mem _ ha)
  | _ => exact subset_rfl

/-- A step of a thread keeps what the dequeuers rely on, when it keeps it for that thread. -/
theorem FifoInv.deq_update (h : FifoInv q₀ s) (hnodes : s.shared.nodes <+: q'.nodes)
    (htakes : s.shared.takes.length ≤ q'.takes.length)
    (hnext : ∀ p ∈ s.shared.chain 0, s.shared.next p ≠ 0 → q'.next p = s.shared.next p)
    (hx : DeqOk q' x) (j : ι) : DeqOk q' (Function.update s.loc i x j) :=
  (Function.forall_update_iff s.loc fun _ t => DeqOk q' t).2
    ⟨hx, fun j _ => (h.deq j).frame hnodes htakes hnext⟩ j

/-- A step of `lf_enqueue`. -/
theorem FifoInv.enqueue (h : FifoInv q₀ s) {val : BitVec 32} {entry : Option Nat} {pc : EnqPc}
    {addr : Nat} {r : LfQueue × LfThread} (hloc : s.loc i = .enq val entry pc)
    (hnext : lfEnqueue s.shared val entry pc addr = some r)
    (hfresh : pc = .malloc → addr ∉ s.shared.used) :
    FifoInv q₀ ⟨r.1, Function.update s.loc i r.2⟩ := by
  have hok := h.queue.ok i
  have hframe := lfEnqueue_frame (hloc ▸ hok) hnext
  have hused : s.shared.used ⊆ r.1.used := by
    rintro a (ha | ha)
    · exact Or.inl (hframe.live ha)
    · exact hframe.freed a ha
  have hsame : ∀ p ∈ s.shared.chain 0, s.shared.next p ≠ 0 → r.1.next p = s.shared.next p := by
    intro p hp hzero
    refine hframe.next p (fun hpending => ?_) hzero
    rw [← hloc] at hpending
    exact (h.queue.pending i p hpending).2.2 hp
  refine ⟨?_, h.entries.enqueue hloc hok hnext, h.nodes.trans hframe.nodes, ?_, ?_, ?_⟩
  · refine h.queue.enqueue hloc hnext hused fun hpc => ⟨hfresh hpc, ?_⟩
    subst hpc
    exact Or.inl (lfEnqueue_malloc hnext).2
  · rw [hframe.takes, hframe.head]
    exact chain_getElem?_of_isPrefix hframe.nodes h.head
  · rw [hframe.takes]
    intro k v hk
    obtain ⟨a, ha⟩ := h.takes k v hk
    exact ⟨a, getElem?_of_isPrefix hframe.nodes ha⟩
  · refine h.deq_update hframe.nodes (congrArg List.length hframe.takes).ge hsame ?_
    cases hx : r.2 with
    | deq pc => exact absurd hx (hframe.outside pc)
    | _ => trivial

/-- A step that changes nothing shared, at the beginning of a call or in `lf_dequeue`. -/
theorem FifoInv.look (h : FifoInv q₀ s) (hentry : (s.loc i).entry = none)
    (hpending : x.pending = none)
    (hhand : x.hand = none) (hx : x.entry = none) (henq : EnqOk s.shared x)
    (hdeq : DeqOk s.shared x) : FifoInv q₀ ⟨s.shared, Function.update s.loc i x⟩ := by
  refine ⟨?_, h.entries.keep rfl rfl (hx.trans hentry.symm), h.nodes, h.head, h.takes, ?_⟩
  · exact h.queue.outside rfl rfl rfl rfl hpending hhand henq
  · exact h.deq_update List.prefix_rfl le_rfl (fun _ _ _ => rfl) hdeq

/-- The compare-and-swap of `head`. When it succeeds, `p` is at the position of `head`, and `head`
moves to the node after it. -/
theorem FifoInv.swap (h : FifoInv q₀ s) {p n : Nat} (hloc : s.loc i = .deq (.swap p n)) :
    FifoInv q₀ ⟨(lfDequeue s.shared (.swap p n)).1,
      Function.update s.loc i (lfDequeue s.shared (.swap p n)).2⟩ := by
  have hok := h.deq i
  rw [hloc] at hok
  obtain ⟨k, hp, hn⟩ := hok
  have hqueue := h.queue.dequeue (i := i) (.swap p n)
  have hentries := h.entries.dequeue hloc
  by_cases hhead : s.shared.head = p
  · simp only [lfDequeue, compareAndSwapPtr, if_pos hhead] at hqueue hentries ⊢
    have hpos : Followed s.shared s.shared.takes.length p := ⟨hhead ▸ h.head, hp.2⟩
    refine ⟨hqueue, hentries, h.nodes, ?_, ?_, ?_⟩
    · show (s.shared.chain 0)[(s.shared.takes ++ [none]).length]? = some n
      rw [List.length_append, List.length_singleton, h.queue.chain.followed hpos, hn]
    · intro j v hj
      rcases getElem?_append_none hj with hold | ⟨-, hnone⟩
      · exact h.takes j v hold
      · cases hnone
    · refine h.deq_update List.prefix_rfl ?_ (fun _ _ _ => rfl) ?_
      · exact (List.prefix_append _ _).length_le
      · exact ⟨_, hpos, fun take htake => (Option.some.inj htake).symm⟩
  · simp only [lfDequeue, compareAndSwapPtr, if_neg hhead] at hqueue hentries ⊢
    refine ⟨hqueue, hentries, h.nodes, h.head, h.takes, ?_⟩
    refine h.deq_update List.prefix_rfl le_rfl (fun _ _ _ => rfl) ?_
    exact ⟨k, hp, fun take htake => by cases htake⟩

/-- `free`, and the return with the value. -/
theorem FifoInv.free (h : FifoInv q₀ s) {p take : Nat} {val : BitVec 32}
    (hloc : s.loc i = .deq (.free p val take)) :
    FifoInv q₀ ⟨(lfDequeue s.shared (.free p val take)).1,
      Function.update s.loc i (lfDequeue s.shared (.free p val take)).2⟩ := by
  have hok := h.deq i
  rw [hloc] at hok
  refine ⟨?_, h.entries.dequeue hloc, h.nodes, ?_, ?_, ?_⟩
  · exact (h.queue.dequeue _).mono (used_subset_lfDequeue _)
  · show (s.shared.chain 0)[(s.shared.takes.set take (some val)).length]? = _
    rw [List.length_set]
    exact h.head
  · intro k v (hk : (s.shared.takes.set take (some val))[k]? = some (some v))
    rcases getElem?_set_some hk with ⟨rfl, hv⟩ | ⟨-, hold⟩
    · cases hv
      exact hok
    · exact h.takes k v hold
  · refine h.deq_update List.prefix_rfl ?_ (fun _ _ _ => rfl) trivial
    exact (List.length_set ..).ge

/-- A step of `lf_dequeue`. -/
theorem FifoInv.dequeue (h : FifoInv q₀ s) {pc : DeqPc} (hloc : s.loc i = .deq pc) :
    FifoInv q₀ ⟨(lfDequeue s.shared pc).1, Function.update s.loc i (lfDequeue s.shared pc).2⟩ := by
  have hentry : (s.loc i).entry = none := by rw [hloc]; rfl
  have hok := h.deq i
  rw [hloc] at hok
  cases pc with
  | loadHead => exact h.look hentry rfl rfl rfl trivial ⟨_, le_rfl, h.head⟩
  | testNext p =>
      obtain ⟨k, -, hp⟩ := hok
      rw [lfDequeue]
      split
      next => exact h.look hentry rfl rfl rfl trivial trivial
      next hzero => exact h.look hentry rfl rfl rfl trivial ⟨k, hp, hzero⟩
  | loadNext p =>
      obtain ⟨k, hp⟩ := hok
      exact h.look hentry rfl rfl rfl trivial ⟨k, hp, rfl⟩
  | swap p n => exact h.swap hloc
  | loadNode p succ =>
      obtain ⟨k, hp, hsucc⟩ := hok
      exact h.look hentry rfl rfl rfl trivial ⟨k, hp, rfl, hsucc⟩
  | loadValue p m succ =>
      obtain ⟨k, hp, rfl, hsucc⟩ := hok
      cases succ with
      | none => exact h.look hentry rfl rfl rfl trivial trivial
      | some take =>
          obtain rfl := hsucc take rfl
          exact h.look hentry rfl rfl rfl trivial (h.queue.chain.followed_value hp)
  | free p val take => exact h.free hloc

theorem FifoInv.step (h : FifoInv q₀ s) {a : LfChoice} {r : LfQueue × LfThread}
    (hfresh : freshMalloc s (i, a) = true) (hnext : lfNext s.shared (s.loc i) a = some r) :
    FifoInv q₀ ⟨r.1, Function.update s.loc i r.2⟩ := by
  rcases lfNext_cases hnext with ⟨last, val, hloc, rfl, rfl⟩ | ⟨last, hloc, rfl, rfl⟩ |
    ⟨val, entry, pc, addr, hloc, rfl, henq⟩ | ⟨pc, addr, hloc, rfl, rfl⟩
  · exact h.look (by rw [hloc]; rfl) rfl rfl rfl rfl trivial
  · exact h.look (by rw [hloc]; rfl) rfl rfl rfl trivial trivial
  · refine h.enqueue hloc henq fun hpc => ?_
    subst hpc
    simp only [freshMalloc, hloc, decide_eq_true_eq] at hfresh
    exact not_or.2 hfresh
  · exact h.dequeue hloc

/-! ## Every run -/

omit [DecidableEq ι] in
theorem fifoInv_init {h t : Nat} (value : Nat → BitVec 32) (next : Nat → Nat) (hh : h ≠ 0)
    (ht : t ≠ 0) (hne : h ≠ t) :
    FifoInv (lfQueueInit h t value next)
      (⟨lfQueueInit h t value next, fun _ : ι => .idle none⟩) := by
  refine ⟨?_, entryInv_init h t value next, List.prefix_rfl, rfl, fun k v hk => ?_,
    fun _ => trivial⟩
  · exact (queueInv_init value next hh ht hne).mono fun _ => Or.inl
  · cases hk

theorem lfQueues_fifoInv {h t : Nat} {value : Nat → BitVec 32} {next : Nat → Nat} (hh : h ≠ 0)
    (ht : t ≠ 0) (hne : h ≠ t) {es : List (ι × LfChoice)}
    (hrun : ((lfQueues ι (lfQueueInit h t value next)).guard (freshMalloc · ·)).Reach es s) :
    FifoInv (lfQueueInit h t value next) s := by
  refine hrun.invariant (I := FifoInv (lfQueueInit h t value next)) ?_ ?_
  · rintro s rfl
    exact fifoInv_init value next hh ht hne
  · rintro s ⟨i, a⟩ u hinv ⟨hfresh, r, hnext, rfl⟩
    exact hinv.step hfresh hnext

/-- The queue under any interleaving of calls of `lf_enqueue` and `lf_dequeue`, when nodes are not
reused. The nodes of `lf_queue_init` and those linked by the calls are one chain that ends in NULL
and has `head` and `tail` in it. Every call of `lf_enqueue` links its node once. What the successful
calls of `lf_dequeue` return, in the order of their compare-and-swaps, are the first ones of the
value of the initial tail node and the values enqueued, in the order in which they were linked. And
a call that finds `p->next == NULL` and returns 0 has `head` in `p`. -/
theorem lfQueue_fifo (h t : Nat) (value : Nat → BitVec 32) (next : Nat → Nat) (hh : h ≠ 0)
    (ht : t ≠ 0) (hne : h ≠ t) (es : List (ι × LfChoice)) (s : Threads ι LfQueue LfThread)
    (hrun : ((lfQueues ι (lfQueueInit h t value next)).guard (freshMalloc · ·)).Reach es s) :
    ∃ links : List (Nat × BitVec 32),
      s.shared.nodes = (h, value h) :: (t, value t) :: links ∧
      (Linked s.shared.next 0 (h :: t :: links.map Prod.fst) ∧
        (h :: t :: links.map Prod.fst).Nodup ∧ 0 ∉ h :: t :: links.map Prod.fst ∧
        s.shared.head ∈ h :: t :: links.map Prod.fst ∧
        s.shared.tail ∈ h :: t :: links.map Prod.fst) ∧
      (EntryInv s ∧ ∀ i val entry q p, s.loc i = .enq val entry (.swing q p) →
        ∃ k, entry = some k ∧ s.shared.nodes[k]? = some (q, val)) ∧
      (∃ vs, vs <+: value t :: links.map Prod.snd ∧ s.shared.takes.length = vs.length ∧
        ∀ (k : Nat) v, s.shared.takes[k]? = some (some v) → vs[k]? = some v) ∧
      ∀ i p, s.loc i = .deq (.testNext p) → s.shared.next p = 0 → s.shared.head = p := by
  have hinv := lfQueues_fifoInv hh ht hne hrun
  obtain ⟨links, hlinks⟩ := hinv.nodes
  have hnodes : s.shared.nodes = (h, value h) :: (t, value t) :: links := hlinks.symm
  have hchain : s.shared.chain 0 = h :: t :: links.map Prod.fst := by
    rw [LfQueue.chain_zero, hnodes]
    rfl
  have hcinv := hinv.queue.chain
  refine ⟨links, hnodes, ⟨?_, ?_, ?_, ?_, ?_⟩, ⟨hinv.entries, ?_⟩, ?_, ?_⟩
  · exact hchain ▸ hcinv.linked
  · exact hchain ▸ hcinv.nodup
  · exact hchain ▸ hcinv.nonnull
  · exact hchain ▸ List.mem_of_getElem? hinv.head
  · exact hchain ▸ hcinv.tail
  · intro i val entry q p hloc
    have hok := hinv.queue.ok i
    rw [hloc] at hok
    exact hok.2.2
  · have hlen : s.shared.takes.length ≤ (value t :: links.map Prod.snd).length := by
      have hlt := (List.getElem?_eq_some_iff.1 hinv.head).1
      rw [hchain] at hlt
      simp only [List.length_cons, List.length_map] at hlt ⊢
      omega
    refine ⟨_, List.take_prefix s.shared.takes.length _, ?_, fun k v hk => ?_⟩
    · rw [List.length_take, Nat.min_eq_left hlen]
    · obtain ⟨a, ha⟩ := hinv.takes k v hk
      rw [hnodes, List.getElem?_cons_succ] at ha
      rw [List.getElem?_take_of_lt (List.getElem?_eq_some_iff.1 hk).1]
      have hmap := congrArg (Option.map Prod.snd) ha
      rw [← List.getElem?_map] at hmap
      exact hmap
  · intro i p hloc hzero
    have hok := hinv.deq i
    rw [hloc] at hok
    obtain ⟨k, hk, hp⟩ := hok
    -- `p` is the last node of the chain, so that `head` cannot be beyond it
    have hlast := hcinv.linked.length_of_next_eq_nil hcinv.nonnull hp hzero
    have hlt := (List.getElem?_eq_some_iff.1 hinv.head).1
    have hpos : k = s.shared.takes.length := by omega
    subst hpos
    exact Option.some.inj (hinv.head.symm.trans hp)

end Fifo

/-- One thread links 7, and another one dequeues twice: it gets what was in the memory of the
initial tail node, and then 7. -/
theorem lfQueue_fifo_two_takes :
    ∃ es s, ((lfQueues (Fin 2) (lfQueueInit 1 2 (fun _ => 5) fun _ => 0)).guard
        (freshMalloc · ·)).Reach es s ∧ s.shared.takes = [some 5, some 7] ∧
      ∃ links, s.shared.nodes = (1, 5) :: (2, 5) :: links ∧
        ∃ vs, vs <+: 5 :: links.map Prod.snd ∧ ∀ (k : Nat) v, s.shared.takes[k]? = some (some v) →
          vs[k]? = some v := by
  have hrun : ∃ s, runThreads lfNext (fun s (e : Fin 2 × LfChoice) => freshMalloc s e = true)
      ([(0, LfChoice.enqueue 7), (0, LfChoice.step 3)] ++ List.replicate 4 (0, LfChoice.step 0) ++
        (1, LfChoice.dequeue) :: List.replicate 7 (1, LfChoice.step 0) ++
        (1, LfChoice.dequeue) :: List.replicate 7 (1, LfChoice.step 0))
      ⟨lfQueueInit 1 2 (fun _ => 5) fun _ => 0, fun _ => .idle none⟩ = some s ∧
      s.shared.takes = [some 5, some 7] := ⟨_, rfl, rfl⟩
  obtain ⟨s, hsome, htakes⟩ := hrun
  have hreach := reach_of_runThreads
    (lfQueues (Fin 2) (lfQueueInit 1 2 (fun _ => 5) fun _ => 0)).init rfl hsome
  obtain ⟨links, hnodes, -, -, ⟨vs, hprefix, -, hvs⟩, -⟩ :=
    lfQueue_fifo 1 2 _ _ (by decide) (by decide) (by decide) _ s hreach
  exact ⟨_, s, hreach, htakes, links, hnodes, vs, hprefix, hvs⟩

end PetKernel.SyncTools
