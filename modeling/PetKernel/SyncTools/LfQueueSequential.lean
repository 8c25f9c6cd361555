import PetKernel.SyncTools.LfEntries

/-!
# The queue in the hands of one thread

One thread makes calls of `lf_enqueue` and `lf_dequeue` one after the other. `lfCall` runs the steps
of a call to its end, and `lfRun` a sequence of calls.

The results are those of a list-based queue that starts with one value in it (`lfRun_eq_fifo`): the
node that `lf_queue_init` allocates for `tail` is taken for an item, and its value is never
initialised. `lfRun_eq_empty_fifo_iff` says for which calls nobody can tell the difference to a
queue that starts empty.
-/

set_option autoImplicit false

namespace PetKernel.SyncTools

open PetKernel.Library

/-! ## Calls -/

/-- A call of the thread. -/
inductive LfCall where
  | enqueue (val : BitVec 32)
  | dequeue
deriving DecidableEq, Repr

/-- The beginning of a call. -/
def LfCall.start : LfCall → LfThread
  | enqueue val => .enq val none .malloc
  | dequeue => .deq .loadHead

/-- An allocator: it returns addresses that are not in use. -/
structure Malloc where
  addr : LfQueue → Nat
  nonnull : ∀ q, addr q ≠ 0
  unused : ∀ q, addr q ∉ q.live

/-- The steps of a call to its end. -/
def lfExec (malloc : Malloc) : Nat → LfQueue → LfThread → Option (LfQueue × LfReturn)
  | _, q, .idle (some ret) => some (q, ret)
  | 0, _, _ => none
  | fuel + 1, q, t =>
      match lfNext q t (.step (malloc.addr q)) with
      | some r => lfExec malloc fuel r.1 r.2
      | none => none

/-- A call. -/
def lfCall (malloc : Malloc) (fuel : Nat) (q : LfQueue) (call : LfCall) :
    Option (LfQueue × LfReturn) :=
  lfExec malloc fuel q call.start

/-- What the calls return. -/
def lfRun (malloc : Malloc) (fuel : Nat) : LfQueue → List LfCall → Option (List LfReturn)
  | _, [] => some []
  | q, call :: calls =>
      match lfCall malloc fuel q call with
      | some r => (lfRun malloc fuel r.1 calls).map (r.2 :: ·)
      | none => none

/-- What the calls return for a list-based queue with the contents `xs`. -/
def fifo : List (BitVec 32) → List LfCall → List LfReturn
  | _, [] => []
  | xs, .enqueue val :: calls => .enqueued :: fifo (xs ++ [val]) calls
  | [], .dequeue :: calls => .empty :: fifo [] calls
  | x :: xs, .dequeue :: calls => .value x :: fifo xs calls

/-! ## The representation -/

/-- The queue between two calls: `head` is the first node of the chain and `tail` the last one. -/
structure SeqInv (base : Nat) (q : LfQueue) : Prop where
  chain : ChainInv {a | a ∈ q.live} base q
  head : (q.chain base)[0]? = some q.head
  last : q.next q.tail = 0

/-- The values in the queue: those of the nodes after the first one. -/
def LfQueue.contents (q : LfQueue) (base : Nat) : List (BitVec 32) :=
  (q.nodes.map Prod.snd).drop (base + 1)

variable {base : Nat} {q : LfQueue} {malloc : Malloc}

theorem SeqInv.tail_mem_live (h : SeqInv base q) : q.tail ∈ q.live :=
  h.chain.reserved _ h.chain.tail

/-- The queue after `lf_enqueue`. -/
def LfQueue.enqueued (q : LfQueue) (a : Nat) (val : BitVec 32) : LfQueue :=
  { q with
    tail := a
    value := Function.update q.value a val
    next := Function.update (Function.update q.next a 0) q.tail a
    live := a :: q.live
    freed := q.freed.filter (· ≠ a)
    nodes := q.nodes ++ [(a, val)]
    done := q.done ++ [some q.nodes.length] }

theorem lfCall_enqueue (h : SeqInv base q) (val : BitVec 32) (fuel : Nat) :
    lfCall malloc (fuel + 7) q (.enqueue val) =
      some (q.enqueued (malloc.addr q) val, .enqueued) := by
  have hne : q.tail ≠ malloc.addr q := fun heq => malloc.unused q (heq ▸ h.tail_mem_live)
  have hok : ¬ (malloc.addr q = 0 ∨ malloc.addr q ∈ q.live) :=
    not_or.2 ⟨malloc.nonnull q, malloc.unused q⟩
  simp [lfCall, LfCall.start, lfExec, lfNext, lfEnqueue, compareAndSwapPtr, hok, hne, h.last,
    LfQueue.enqueued]

theorem SeqInv.enqueued (h : SeqInv base q) {a : Nat} (hzero : a ≠ 0) (hout : a ∉ q.live)
    (val : BitVec 32) : SeqInv base (q.enqueued a val) := by
  have hnot : a ∉ q.chain base := fun hmem => hout (h.chain.reserved a hmem)
  have hne : ∀ b ∈ q.chain base, b ≠ a := fun b hb heq => hnot (heq ▸ hb)
  have htail := hne q.tail h.chain.tail
  -- the stores to the new node, before it is linked
  have hstores : ChainInv {b | b ∈ a :: q.live} base
      { q with
        value := Function.update q.value a val
        next := Function.update q.next a 0
        live := a :: q.live } := by
    refine h.chain.keep (fun b hb => List.mem_cons_of_mem a hb) rfl ?_ ?_ h.chain.tail
    · exact fun b hb => Function.update_of_ne (hne b hb) _ _
    · exact fun b hb => Function.update_of_ne (hne b hb) _ _
  -- the link, with `tail` already at the new node
  have hlink : ChainInv {b | b ∈ a :: q.live} base { q.enqueued a val with tail := q.tail } := by
    refine hstores.link h.chain.tail ?_ ⟨?_, ?_⟩ hzero List.mem_cons_self hnot rfl rfl rfl rfl
    · exact (Function.update_of_ne htail _ _).trans h.last
    · exact Function.update_self _ _ _
    · exact Function.update_self _ _ _
  have hchain : (q.enqueued a val).chain base = q.chain base ++ [a] :=
    LfQueue.chain_append rfl h.chain.base_lt.le
  refine ⟨?_, ?_, ?_⟩
  · refine hlink.keep subset_rfl rfl (fun _ _ => rfl) (fun _ _ => rfl) ?_
    show a ∈ (q.enqueued a val).chain base
    rw [hchain]
    exact List.mem_append_right _ List.mem_cons_self
  · rw [hchain, List.getElem?_append_left (List.getElem?_eq_some_iff.1 h.head).1]
    exact h.head
  · exact (Function.update_of_ne htail.symm _ _).trans (Function.update_self _ _ _)

theorem SeqInv.contents_enqueued (h : SeqInv base q) (a : Nat) (val : BitVec 32) :
    (q.enqueued a val).contents base = q.contents base ++ [val] := by
  have hle : base + 1 ≤ (q.nodes.map Prod.snd).length := by
    rw [List.length_map]
    exact h.chain.base_lt
  show ((q.nodes ++ [(a, val)]).map Prod.snd).drop (base + 1) = _
  rw [List.map_append, List.drop_append_of_le_length hle]
  rfl

/-- Nothing is in the queue: `lf_dequeue` returns 0. -/
theorem lfCall_dequeue_nil (h : SeqInv base q) (hnil : q.contents base = []) (fuel : Nat) :
    lfCall malloc (fuel + 7) q .dequeue = some (q, .empty) := by
  have hnone : (q.chain base)[1]? = none := by
    rw [LfQueue.contents, List.drop_eq_nil_iff, List.length_map] at hnil
    rw [LfQueue.chain, List.getElem?_drop, List.getElem?_eq_none_iff, List.length_map]
    exact hnil
  have hlast : q.next q.head = 0 := by
    rw [h.chain.linked.next_eq h.head, hnone]
    rfl
  simp [lfCall, LfCall.start, lfExec, lfNext, lfDequeue, hlast]

/-- The queue after a successful `lf_dequeue`. -/
def LfQueue.dequeued (q : LfQueue) (val : BitVec 32) : LfQueue :=
  { q with
    head := q.next q.head
    live := q.live.filter (· ≠ q.head)
    freed := q.head :: q.freed
    takes := (q.takes ++ [none]).set q.takes.length (some val) }

/-- The first node after `head` has the first value. -/
theorem SeqInv.first (h : SeqInv base q) {x : BitVec 32} {xs : List (BitVec 32)}
    (hcons : q.contents base = x :: xs) :
    (q.chain base)[1]? = some (q.next q.head) ∧ q.next q.head ≠ 0 ∧
      q.value (q.next q.head) = x := by
  obtain ⟨a, ha⟩ : ∃ a, q.nodes[base + 1]? = some (a, x) := by
    have hx : (q.nodes.map Prod.snd)[base + 1]? = some x := by
      rw [← List.head?_drop]
      exact congrArg List.head? hcons
    rw [List.getElem?_map, Option.map_eq_some_iff] at hx
    obtain ⟨⟨a, v⟩, hentry, rfl⟩ := hx
    exact ⟨a, hentry⟩
  have hone : (q.chain base)[1]? = some a := by
    have hpos := LfQueue.chain_getElem? ha (Nat.le_succ base)
    rw [Nat.add_sub_cancel_left] at hpos
    exact hpos
  have hnext : q.next q.head = a := by
    rw [h.chain.linked.next_eq h.head, hone]
    rfl
  refine ⟨hnext.symm ▸ hone, ?_, ?_⟩
  · rw [hnext]
    exact fun heq => h.chain.nonnull (heq ▸ List.mem_of_getElem? hone)
  · rw [hnext]
    exact h.chain.values _ a x (Nat.le_succ base) ha

theorem lfCall_dequeue_cons (h : SeqInv base q) {x : BitVec 32} {xs : List (BitVec 32)}
    (hcons : q.contents base = x :: xs) (fuel : Nat) :
    lfCall malloc (fuel + 7) q .dequeue = some (q.dequeued x, .value x) := by
  obtain ⟨-, hnext, hvalue⟩ := h.first hcons
  simp [lfCall, LfCall.start, lfExec, lfNext, lfDequeue, compareAndSwapPtr, hnext, hvalue,
    LfQueue.dequeued]

theorem SeqInv.dequeued (h : SeqInv base q) {x : BitVec 32} {xs : List (BitVec 32)}
    (hcons : q.contents base = x :: xs) : SeqInv (base + 1) (q.dequeued x) := by
  obtain ⟨hone, hnext, -⟩ := h.first hcons
  refine ⟨?_, ?_, h.last⟩
  · refine h.chain.advance h.head (fun heq => hnext (heq ▸ h.last)) ?_ rfl rfl rfl rfl
    exact fun a ha hne => List.mem_filter.2 ⟨ha, by simpa using hne⟩
  · have hchain := LfQueue.chain_eq_cons h.head
    rw [hchain] at hone
    exact hone

theorem contents_dequeued {x : BitVec 32} {xs : List (BitVec 32)}
    (hcons : q.contents base = x :: xs) : (q.dequeued x).contents (base + 1) = xs := by
  have htail : (q.contents base).tail = q.contents (base + 1) := List.tail_drop
  rw [hcons] at htail
  exact htail.symm

/-! ## Sequences of calls -/

/-- Between two calls, what is to come are the results of a list-based queue with the same
contents. -/
theorem SeqInv.lfRun (h : SeqInv base q) (calls : List LfCall) {fuel : Nat} (hfuel : 7 ≤ fuel) :
    lfRun malloc fuel q calls = some (fifo (q.contents base) calls) := by
  obtain ⟨fuel, rfl⟩ := Nat.exists_eq_add_of_le' hfuel
  induction calls generalizing q base with
  | nil => rw [SyncTools.lfRun, fifo]
  | cons call calls ih =>
      rw [SyncTools.lfRun]
      cases call with
      | enqueue val =>
          rw [lfCall_enqueue h, fifo, ← h.contents_enqueued (malloc.addr q) val]
          simp only [ih (h.enqueued (malloc.nonnull q) (malloc.unused q) val), Option.map_some]
      | dequeue =>
          cases hc : q.contents base with
          | nil =>
              rw [lfCall_dequeue_nil h hc, fifo, ← hc]
              simp only [ih h, Option.map_some]
          | cons x xs =>
              rw [lfCall_dequeue_cons h hc, fifo, ← contents_dequeued hc]
              simp only [ih (h.dequeued hc), Option.map_some]

theorem seqInv_init {h t : Nat} (value : Nat → BitVec 32) (next : Nat → Nat) (hh : h ≠ 0)
    (ht : t ≠ 0) (hne : h ≠ t) : SeqInv 0 (lfQueueInit h t value next) :=
  ⟨chainInv_init value next hh ht hne, rfl, Function.update_self _ _ _⟩

/-- After `lf_queue_init` the calls see a queue with one value in it, that of the initial tail
node. -/
theorem lfRun_eq_fifo (malloc : Malloc) {h t : Nat} (value : Nat → BitVec 32) (next : Nat → Nat)
    (hh : h ≠ 0) (ht : t ≠ 0) (hne : h ≠ t) (calls : List LfCall) {fuel : Nat} (hfuel : 7 ≤ fuel) :
    lfRun malloc fuel (lfQueueInit h t value next) calls = some (fifo [value t] calls) :=
  (seqInv_init value next hh ht hne).lfRun calls hfuel

/-! ## What the extra value changes -/

/-- The number of calls of `lf_dequeue`. -/
def dequeues (calls : List LfCall) : Nat := calls.count .dequeue

/-- The values enqueued. -/
def enqueuedValues (calls : List LfCall) : List (BitVec 32) :=
  calls.filterMap fun call =>
    match call with
    | .enqueue val => some val
    | .dequeue => none

@[simp] theorem dequeues_nil : dequeues [] = 0 := rfl

@[simp] theorem dequeues_enqueue (val : BitVec 32) (calls : List LfCall) :
    dequeues (.enqueue val :: calls) = dequeues calls := List.count_cons_of_ne (by simp)

@[simp] theorem dequeues_dequeue (calls : List LfCall) :
    dequeues (.dequeue :: calls) = dequeues calls + 1 := List.count_cons_self

@[simp] theorem enqueuedValues_nil : enqueuedValues [] = [] := rfl

@[simp] theorem enqueuedValues_enqueue (val : BitVec 32) (calls : List LfCall) :
    enqueuedValues (.enqueue val :: calls) = val :: enqueuedValues calls := rfl

@[simp] theorem enqueuedValues_dequeue (calls : List LfCall) :
    enqueuedValues (.dequeue :: calls) = enqueuedValues calls := rfl

/-- With `n` values in the queue, there is never a call of `lf_dequeue` for which none is left. -/
def Covered (n : Nat) (calls : List LfCall) : Prop :=
  ∀ pre, pre <+: calls → dequeues pre ≤ n + (enqueuedValues pre).length

theorem covered_enqueue {n : Nat} {val : BitVec 32} {calls : List LfCall} :
    Covered n (.enqueue val :: calls) ↔ Covered (n + 1) calls := by
  simp only [Covered, List.prefix_cons_iff]
  constructor
  · intro h pre hpre
    have hcons := h (.enqueue val :: pre) (Or.inr ⟨pre, rfl, hpre⟩)
    simp only [dequeues_enqueue, enqueuedValues_enqueue, List.length_cons] at hcons
    omega
  · rintro h pre (rfl | ⟨pre, rfl, hpre⟩)
    · exact Nat.zero_le _
    · have hpre := h pre hpre
      simp only [dequeues_enqueue, enqueuedValues_enqueue, List.length_cons]
      omega

theorem covered_dequeue {n : Nat} {calls : List LfCall} :
    Covered n (.dequeue :: calls) ↔ 0 < n ∧ Covered (n - 1) calls := by
  simp only [Covered, List.prefix_cons_iff]
  constructor
  · intro h
    have hcons : ∀ pre, pre <+: calls → dequeues pre + 1 ≤ n + (enqueuedValues pre).length := by
      intro pre hpre
      have hpre := h (.dequeue :: pre) (Or.inr ⟨pre, rfl, hpre⟩)
      simp only [dequeues_dequeue, enqueuedValues_dequeue] at hpre
      exact hpre
    have hpos : 0 < n := hcons [] List.nil_prefix
    refine ⟨hpos, fun pre hpre => ?_⟩
    have hle := hcons pre hpre
    omega
  · rintro ⟨hpos, h⟩ pre (rfl | ⟨pre, rfl, hpre⟩)
    · exact Nat.zero_le _
    · have hpre := h pre hpre
      simp only [dequeues_dequeue, enqueuedValues_dequeue]
      omega

/-- A value `g` in front of the queue goes unnoticed if no call of `lf_dequeue` finds the queue
empty and all values that are dequeued are `g`. -/
theorem fifo_cons_eq_iff (g : BitVec 32) (calls : List LfCall) (xs : List (BitVec 32)) :
    fifo (g :: xs) calls = fifo xs calls ↔
      Covered xs.length calls ∧ ∀ v ∈ (xs ++ enqueuedValues calls).take (dequeues calls),
        v = g := by
  induction calls generalizing xs with
  | nil =>
      refine iff_of_true rfl ⟨fun pre hpre => ?_, fun v hv => ?_⟩
      · rw [List.prefix_nil.1 hpre]
        exact Nat.zero_le _
      · rw [dequeues_nil, List.take_zero] at hv
        cases hv
  | cons call calls ih =>
      cases call with
      | enqueue val =>
          have hih := ih (xs ++ [val])
          rw [List.length_append, List.append_assoc] at hih
          rw [fifo, fifo, List.cons_inj_right, covered_enqueue, dequeues_enqueue,
            enqueuedValues_enqueue]
          exact hih
      | dequeue =>
          cases xs with
          | nil =>
              rw [fifo, fifo, covered_dequeue]
              simp
          | cons x xs =>
              -- both take a value: `g` here and `x` there, so that `g` is again in front
              rw [fifo, fifo, covered_dequeue, dequeues_dequeue, enqueuedValues_dequeue,
                List.cons_append, List.take_succ_cons, List.forall_mem_cons, List.cons.injEq]
              constructor
              · rintro ⟨hx, heq⟩
                cases hx
                have hrest := (ih xs).1 heq
                exact ⟨⟨Nat.succ_pos _, hrest.1⟩, rfl, hrest.2⟩
              · rintro ⟨⟨-, hcovered⟩, rfl, hrest⟩
                exact ⟨rfl, (ih xs).2 ⟨hcovered, hrest⟩⟩

/-- The calls return what a queue that starts empty returns exactly if `lf_dequeue` is never called
when all values have been dequeued, and all values that are to be dequeued are equal to the
uninitialised value of the initial tail node. -/
theorem lfRun_eq_empty_fifo_iff (malloc : Malloc) (h t : Nat) (value : Nat → BitVec 32)
    (next : Nat → Nat) (hh : h ≠ 0) (ht : t ≠ 0) (hne : h ≠ t) (calls : List LfCall) (fuel : Nat)
    (hfuel : 7 ≤ fuel) :
    lfRun malloc fuel (lfQueueInit h t value next) calls = some (fifo [] calls) ↔
      Covered 0 calls ∧ ∀ v ∈ (enqueuedValues calls).take (dequeues calls), v = value t := by
  rw [lfRun_eq_fifo malloc value next hh ht hne calls hfuel, Option.some.injEq]
  exact fifo_cons_eq_iff (value t) calls []

/-- An allocator that goes beyond all nodes in use. -/
def bumpMalloc : Malloc where
  addr q := q.live.sum + 1
  nonnull _ := Nat.succ_ne_zero _
  unused _ hmem := absurd (List.le_sum_of_mem hmem) (Nat.not_succ_le_self _)

/-- Two values are enqueued and the first one is dequeued, which happens to be what was in the
memory of the initial tail node. -/
theorem lfRun_eq_empty_fifo_lucky :
    lfRun bumpMalloc 7 (lfQueueInit 1 2 (fun _ => 5) fun _ => 0)
        [.enqueue 5, .enqueue 9, .dequeue] = some (fifo [] [.enqueue 5, .enqueue 9, .dequeue]) := by
  refine (lfRun_eq_empty_fifo_iff bumpMalloc 1 2 _ _ (by decide) (by decide) (by decide) _ 7
    le_rfl).2 ⟨?_, by simp⟩
  rw [covered_enqueue, covered_enqueue, covered_dequeue]
  refine ⟨by decide, fun pre hpre => ?_⟩
  rw [List.prefix_nil.1 hpre]
  exact Nat.zero_le _

/-- The first call after `lf_queue_init` is `lf_dequeue`: it does not return 0. -/
theorem lfRun_first_dequeue :
    lfRun bumpMalloc 7 (lfQueueInit 1 2 (fun _ => 5) fun _ => 0) [.dequeue] = some [.value 5] ∧
      fifo [] [.dequeue] = [.empty] :=
  ⟨rfl, rfl⟩

end PetKernel.SyncTools
