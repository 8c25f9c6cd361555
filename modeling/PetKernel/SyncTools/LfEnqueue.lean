import PetKernel.Library.LinkedChain
import PetKernel.SyncTools.LfQueue

/-!
# Enqueuers

What the steps of `lf_enqueue` do to the queue, whatever is dequeued. `QueueInv` says that the nodes
from some point of the log on are a chain that has `tail` in it, and what each call of `lf_enqueue`
can rely on; every step of `lf_enqueue` keeps it (`QueueInv.enqueue`).
-/

set_option autoImplicit false

namespace PetKernel.SyncTools

open PetKernel.Library

/-! ## The chain -/

namespace LfThread

/-- The entry of `nodes` that the call of `lf_enqueue` has made. -/
def entry : LfThread → Option Nat
  | enq _ entry _ => entry
  | _ => none

/-- The node that a call of `lf_enqueue` has allocated and not yet linked. -/
def pending : LfThread → Option Nat
  | enq _ none (.value q) | enq _ none (.next q) | enq _ none (.loadTail q) => some q
  | enq _ none (.link q _) | enq _ none (.check q _) | enq _ none (.helpLoad q _) => some q
  | enq _ none (.helpSwing q _ _) => some q
  | _ => none

/-- The local variable `p` of `lf_enqueue`, while it is still used. -/
def hand : LfThread → Option Nat
  | enq _ _ (.link _ p) | enq _ _ (.check _ p) | enq _ _ (.helpLoad _ p) => some p
  | enq _ _ (.helpSwing _ p _) | enq _ _ (.swing _ p) => some p
  | _ => none

end LfThread

/-- The nodes from the entry `base` of the log on. -/
def LfQueue.chain (s : LfQueue) (base : Nat) : List Nat := (s.nodes.map Prod.fst).drop base

/-- The fields of the node `q` have been set and it has not been linked. -/
def Ready (s : LfQueue) (q : Nat) (val : BitVec 32) : Prop := s.value q = val ∧ s.next q = 0

/-- The call has linked its node `q` after `p`. -/
def HasLinked (s : LfQueue) (q p : Nat) (val : BitVec 32) (entry : Option Nat) : Prop :=
  s.next p = q ∧ q ≠ 0 ∧ ∃ k, entry = some k ∧ s.nodes[k]? = some (q, val)

/-- What a call of `lf_enqueue` can rely on; `p` is in its `hand` and therefore in the chain. -/
def EnqOk (s : LfQueue) : LfThread → Prop
  | .enq _ entry .malloc | .enq _ entry (.value _) => entry = none
  | .enq val entry (.next q) => entry = none ∧ s.value q = val
  | .enq val entry (.loadTail q) | .enq val entry (.link q _) => entry = none ∧ Ready s q val
  | .enq val entry (.check q p) =>
      (entry = none ∧ Ready s q val ∧ s.next p ≠ 0) ∨ HasLinked s q p val entry
  | .enq val entry (.helpLoad q p) => entry = none ∧ Ready s q val ∧ s.next p ≠ 0
  | .enq val entry (.helpSwing q p r) =>
      entry = none ∧ Ready s q val ∧ s.next p ≠ 0 ∧ s.next p = r
  | .enq val entry (.swing q p) => HasLinked s q p val entry
  | _ => True

theorem Ready.frame {s s' : LfQueue} {q : Nat} {val : BitVec 32} (h : Ready s q val)
    (hq : s'.value q = s.value q ∧ s'.next q = s.next q) : Ready s' q val :=
  ⟨hq.1.trans h.1, hq.2.trans h.2⟩

theorem getElem?_of_isPrefix {α : Type} {l l' : List α} (h : l <+: l') {k : Nat} {a : α}
    (hk : l[k]? = some a) : l'[k]? = some a := by
  obtain ⟨rest, rfl⟩ := h
  rw [List.getElem?_append_left (List.getElem?_eq_some_iff.1 hk).1]
  exact hk

theorem HasLinked.frame {s s' : LfQueue} {q p : Nat} {val : BitVec 32} {entry : Option Nat}
    (h : HasLinked s q p val entry) (hp : s.next p ≠ 0 → s'.next p = s.next p)
    (hnodes : s.nodes <+: s'.nodes) : HasLinked s' q p val entry := by
  obtain ⟨hnext, hq, k, hentry, hk⟩ := h
  refine ⟨?_, hq, k, hentry, getElem?_of_isPrefix hnodes hk⟩
  rw [hp (hnext.symm ▸ hq)]
  exact hnext

/-- Other threads write only nodes that are theirs, and `next` fields that are still NULL. -/
theorem EnqOk.frame {s s' : LfQueue} {t : LfThread} (h : EnqOk s t)
    (hpending : ∀ q, t.pending = some q → s'.value q = s.value q ∧ s'.next q = s.next q)
    (hhand : ∀ p, t.hand = some p → s.next p ≠ 0 → s'.next p = s.next p)
    (hnodes : s.nodes <+: s'.nodes) : EnqOk s' t := by
  cases t with
  | idle last => trivial
  | deq pc => trivial
  | enq val entry pc =>
      cases pc with
      | malloc => exact h
      | value q => exact h
      | next q =>
          obtain ⟨rfl, hvalue⟩ := h
          exact ⟨rfl, (hpending q rfl).1.trans hvalue⟩
      | loadTail q =>
          obtain ⟨rfl, hready⟩ := h
          exact ⟨rfl, hready.frame (hpending q rfl)⟩
      | link q p =>
          obtain ⟨rfl, hready⟩ := h
          exact ⟨rfl, hready.frame (hpending q rfl)⟩
      | check q p =>
          rcases h with ⟨rfl, hready, hnext⟩ | hlinked
          · refine Or.inl ⟨rfl, hready.frame (hpending q rfl), ?_⟩
            rw [hhand p rfl hnext]
            exact hnext
          · exact Or.inr (hlinked.frame (hhand p rfl) hnodes)
      | helpLoad q p =>
          obtain ⟨rfl, hready, hnext⟩ := h
          refine ⟨rfl, hready.frame (hpending q rfl), ?_⟩
          rw [hhand p rfl hnext]
          exact hnext
      | helpSwing q p r =>
          obtain ⟨rfl, hready, hnext, hr⟩ := h
          refine ⟨rfl, hready.frame (hpending q rfl), ?_⟩
          rw [hhand p rfl hnext]
          exact ⟨hnext, hr⟩
      | swing q p => exact HasLinked.frame h (hhand p rfl) hnodes

/-! ## The invariant -/

/-- The nodes from the entry `base` on are a chain that `malloc` does not touch (it returns nothing
in `R`) and that has `tail` in it. -/
structure ChainInv (R : Set Nat) (base : Nat) (q : LfQueue) : Prop where
  linked : Linked q.next 0 (q.chain base)
  nodup : (q.chain base).Nodup
  nonnull : 0 ∉ q.chain base
  reserved : ∀ a ∈ q.chain base, a ∈ R
  values : ∀ k a v, base ≤ k → q.nodes[k]? = some (a, v) → q.value a = v
  tail : q.tail ∈ q.chain base

section Chain

variable {R R' : Set Nat} {base : Nat} {q q' : LfQueue}

/-- An entry of the log from `base` on is a node of the chain. -/
theorem LfQueue.chain_getElem? {k a : Nat} {v : BitVec 32} (hk : q.nodes[k]? = some (a, v))
    (hbase : base ≤ k) : (q.chain base)[k - base]? = some a := by
  rw [LfQueue.chain, List.getElem?_drop, List.getElem?_map, Nat.add_sub_cancel' hbase, hk]
  rfl

theorem ChainInv.base_lt (h : ChainInv R base q) : base < q.nodes.length := by
  have hpos := List.length_pos_of_mem h.tail
  rw [LfQueue.chain, List.length_drop, List.length_map] at hpos
  omega

/-- A step that changes no field of a node of the chain and no entry of the log. -/
theorem ChainInv.keep (h : ChainInv R base q) (hR : R ⊆ R') (hnodes : q'.nodes = q.nodes)
    (hnext : ∀ a ∈ q.chain base, q'.next a = q.next a)
    (hvalue : ∀ a ∈ q.chain base, q'.value a = q.value a) (htail : q'.tail ∈ q.chain base) :
    ChainInv R' base q' := by
  have hchain : q'.chain base = q.chain base := by
    rw [LfQueue.chain, hnodes, LfQueue.chain]
  refine ⟨?_, ?_, ?_, ?_, ?_, ?_⟩
  · rw [hchain]
    exact h.linked.congr hnext
  · rw [hchain]
    exact h.nodup
  · rw [hchain]
    exact h.nonnull
  · rw [hchain]
    exact fun a ha => hR (h.reserved a ha)
  · rw [hnodes]
    intro k a v hk hentry
    rw [hvalue a (List.mem_of_getElem? (LfQueue.chain_getElem? hentry hk))]
    exact h.values k a v hk hentry
  · rw [hchain]
    exact htail

theorem LfQueue.chain_append {a : Nat} {v : BitVec 32} (hnodes : q'.nodes = q.nodes ++ [(a, v)])
    (hbase : base ≤ q.nodes.length) : q'.chain base = q.chain base ++ [a] := by
  rw [LfQueue.chain, hnodes, List.map_append, List.drop_append_of_le_length]
  · rfl
  · rw [List.length_map]
    exact hbase

/-- The last node `p` is made to point to a node that is ready. -/
theorem ChainInv.link (h : ChainInv R base q) {a p : Nat} {val : BitVec 32}
    (hp : p ∈ q.chain base) (hlast : q.next p = 0) (ha : Ready q a val) (hzero : a ≠ 0)
    (hres : a ∈ R) (hout : a ∉ q.chain base) (hnext : q'.next = Function.update q.next p a)
    (hvalue : q'.value = q.value) (hnodes : q'.nodes = q.nodes ++ [(a, val)])
    (htail : q'.tail = q.tail) : ChainInv R base q' := by
  have hchain := LfQueue.chain_append hnodes h.base_lt.le
  refine ⟨?_, ?_, ?_, ?_, ?_, ?_⟩
  · rw [hchain, hnext]
    exact h.linked.concat h.nonnull h.nodup hp hlast hout ha.2
  · rw [hchain, ← List.concat_eq_append]
    exact h.nodup.concat hout
  · rw [hchain, List.mem_append, List.mem_singleton]
    exact not_or.2 ⟨h.nonnull, hzero.symm⟩
  · rw [hchain]
    intro b hb
    rcases List.mem_append.1 hb with hb | hb
    · exact h.reserved b hb
    · rw [List.mem_singleton.1 hb]
      exact hres
  · rw [hnodes, hvalue]
    intro k b v hk hentry
    rcases Nat.lt_or_ge k q.nodes.length with hlt | hge
    · rw [List.getElem?_append_left hlt] at hentry
      exact h.values k b v hk hentry
    · rw [List.getElem?_append_right hge] at hentry
      cases hnew : k - q.nodes.length with
      | zero =>
          rw [hnew] at hentry
          cases hentry
          exact ha.1
      | succ n =>
          rw [hnew] at hentry
          cases hentry
  · rw [hchain, htail]
    exact List.mem_append_left _ h.tail

/-- The chain without its first node. -/
theorem LfQueue.chain_eq_cons {p : Nat} (hp : (q.chain base)[0]? = some p) :
    q.chain base = p :: q.chain (base + 1) := by
  have htail : (q.chain base).tail = q.chain (base + 1) := List.tail_drop
  cases hc : q.chain base with
  | nil =>
      rw [hc] at hp
      cases hp
  | cons a c =>
      rw [hc] at hp htail
      cases hp
      rw [← htail]
      rfl

/-- The first node is dropped from the chain, when `tail` is not there any more. -/
theorem ChainInv.advance (h : ChainInv R base q) {p : Nat} (hp : (q.chain base)[0]? = some p)
    (hne : q.tail ≠ p) (hR : ∀ a ∈ R, a ≠ p → a ∈ R') (hnodes : q'.nodes = q.nodes)
    (hnext : q'.next = q.next) (hvalue : q'.value = q.value) (htail : q'.tail = q.tail) :
    ChainInv R' (base + 1) q' := by
  have hcons := LfQueue.chain_eq_cons hp
  have hchain : q'.chain (base + 1) = q.chain (base + 1) := by
    rw [LfQueue.chain, hnodes, LfQueue.chain]
  obtain ⟨hlinked, hnodup, hnonnull, hreserved, hvalues, hmem⟩ := h
  rw [hcons] at hlinked hnodup hnonnull hreserved hmem
  obtain ⟨hout, hnodup⟩ := List.nodup_cons.1 hnodup
  refine ⟨?_, ?_, ?_, ?_, ?_, ?_⟩
  · rw [hchain, hnext]
    exact hlinked.2
  · rw [hchain]
    exact hnodup
  · rw [hchain]
    exact fun hzero => hnonnull (List.mem_cons_of_mem p hzero)
  · rw [hchain]
    intro a ha
    exact hR a (hreserved a (List.mem_cons_of_mem p ha)) fun heq => hout (heq ▸ ha)
  · rw [hnodes, hvalue]
    exact fun k a v hk => hvalues k a v (Nat.le_of_succ_le hk)
  · rw [hchain, htail]
    exact (List.mem_cons.1 hmem).resolve_left hne

/-- The chain of `lf_queue_init`. -/
theorem chainInv_init {h t : Nat} (value : Nat → BitVec 32) (next : Nat → Nat) (hh : h ≠ 0)
    (ht : t ≠ 0) (hne : h ≠ t) :
    ChainInv {a | a ∈ (lfQueueInit h t value next).live} 0 (lfQueueInit h t value next) := by
  refine ⟨⟨?_, ?_, trivial⟩, ?_, ?_, fun _ => id, ?_, ?_⟩
  · exact (Function.update_of_ne hne _ _).trans (Function.update_self _ _ _)
  · exact Function.update_self _ _ _
  · exact List.nodup_cons.2 ⟨by simpa using hne, List.nodup_singleton t⟩
  · show 0 ∉ [h, t]
    simp only [List.mem_cons, List.not_mem_nil, or_false, not_or]
    exact ⟨hh.symm, ht.symm⟩
  · intro k a v _ hk
    rcases List.mem_of_getElem? hk with _ | ⟨_, _ | ⟨_, hnil⟩⟩
    · rfl
    · rfl
    · cases hnil
  · exact List.mem_cons_of_mem _ List.mem_cons_self

end Chain

section Invariant

variable {ι : Type} {R R' : Set Nat} {base : Nat} {s : Threads ι LfQueue LfThread} {i : ι}
  {q' : LfQueue} {x : LfThread}

/-- The chain, and the calls of `lf_enqueue`: the nodes that are not yet linked are outside of the
chain, each with one thread, and the nodes in the hands of the threads are inside. -/
structure QueueInv (R : Set Nat) (base : Nat) (s : Threads ι LfQueue LfThread) : Prop where
  chain : ChainInv R base s.shared
  pending : ∀ i q, (s.loc i).pending = some q → q ≠ 0 ∧ q ∈ R ∧ q ∉ s.shared.chain base
  pending_inj : ∀ i j q, (s.loc i).pending = some q → (s.loc j).pending = some q → i = j
  hand : ∀ i p, (s.loc i).hand = some p → p ∈ s.shared.chain base
  ok : ∀ i, EnqOk s.shared (s.loc i)

/-- What a step does to the other threads. -/
structure Unharmed (base : Nat) (s : Threads ι LfQueue LfThread) (i : ι) (q' : LfQueue) : Prop where
  chain : ∀ a ∈ s.shared.chain base, a ∈ q'.chain base
  pending : ∀ j, j ≠ i → ∀ q, (s.loc j).pending = some q →
    q ∉ q'.chain base ∧ q'.value q = s.shared.value q ∧ q'.next q = s.shared.next q
  next : ∀ p ∈ s.shared.chain base, s.shared.next p ≠ 0 → q'.next p = s.shared.next p
  nodes : s.shared.nodes <+: q'.nodes

variable [DecidableEq ι]

/-- A step that leaves the other threads unharmed. -/
theorem QueueInv.update (h : QueueInv R base s) (hR : R ⊆ R') (hchain : ChainInv R' base q')
    (hothers : Unharmed base s i q')
    (hpending : ∀ q, x.pending = some q →
      q ≠ 0 ∧ q ∈ R' ∧ q ∉ q'.chain base ∧ ∀ j, j ≠ i → (s.loc j).pending ≠ some q)
    (hhand : ∀ p, x.hand = some p → p ∈ q'.chain base) (hok : EnqOk q' x) :
    QueueInv R' base ⟨q', Function.update s.loc i x⟩ := by
  refine ⟨hchain, ?_, ?_, ?_, ?_⟩
  · refine (Function.forall_update_iff s.loc fun _ t => ∀ q, t.pending = some q →
      q ≠ 0 ∧ q ∈ R' ∧ q ∉ q'.chain base).2 ⟨fun q hq => ?_, fun j hj q hq => ?_⟩
    · obtain ⟨hzero, hres, hout, -⟩ := hpending q hq
      exact ⟨hzero, hres, hout⟩
    · obtain ⟨hzero, hres, -⟩ := h.pending j q hq
      exact ⟨hzero, hR hres, (hothers.pending j hj q hq).1⟩
  · intro j k q (hj : (Function.update s.loc i x j).pending = some q)
      (hk : (Function.update s.loc i x k).pending = some q)
    by_contra hne
    -- one of the two threads is the one that moves, since the others have not changed
    rcases eq_or_ne j i with rfl | hji
    · rw [Function.update_self] at hj
      rw [Function.update_of_ne (Ne.symm hne)] at hk
      exact (hpending q hj).2.2.2 k (Ne.symm hne) hk
    · rw [Function.update_of_ne hji] at hj
      rcases eq_or_ne k i with rfl | hki
      · rw [Function.update_self] at hk
        exact (hpending q hk).2.2.2 j hji hj
      · rw [Function.update_of_ne hki] at hk
        exact hne (h.pending_inj j k q hj hk)
  · exact (Function.forall_update_iff s.loc fun _ t => ∀ p, t.hand = some p → p ∈ _).2
      ⟨hhand, fun j _ p hp => hothers.chain p (h.hand j p hp)⟩
  · refine (Function.forall_update_iff s.loc fun _ t => EnqOk q' t).2 ⟨hok, fun j hj => ?_⟩
    refine (h.ok j).frame (fun q hq => ?_) (fun p hp hnext => ?_) hothers.nodes
    · exact (hothers.pending j hj q hq).2
    · exact hothers.next p (h.hand j p hp) hnext

omit [DecidableEq ι] in
/-- A step that writes to no node but one that is pending with the thread leaves the others
unharmed. -/
theorem QueueInv.unharmed (h : QueueInv R base s) (hnodes : q'.nodes = s.shared.nodes)
    (hfields : ∀ a, (s.loc i).pending ≠ some a →
      q'.value a = s.shared.value a ∧ q'.next a = s.shared.next a) : Unharmed base s i q' := by
  have hchain : q'.chain base = s.shared.chain base := by
    rw [LfQueue.chain, hnodes, LfQueue.chain]
  refine ⟨?_, ?_, ?_, ?_⟩
  · rw [hchain]
    exact fun _ => id
  · intro j hj q hq
    rw [hchain]
    exact ⟨(h.pending j q hq).2.2, hfields q fun hi => hj (h.pending_inj j i q hq hi)⟩
  · intro p hp _
    exact (hfields p fun hi => (h.pending i p hi).2.2 hp).2
  · rw [hnodes]

/-- A step that writes to no node of the chain, by a thread that gets no node. -/
theorem QueueInv.keep (h : QueueInv R base s) (hnodes : q'.nodes = s.shared.nodes)
    (hfields : ∀ a, (s.loc i).pending ≠ some a →
      q'.value a = s.shared.value a ∧ q'.next a = s.shared.next a)
    (htail : q'.tail ∈ s.shared.chain base)
    (hpending : ∀ q, x.pending = some q → (s.loc i).pending = some q)
    (hhand : ∀ p, x.hand = some p → p ∈ s.shared.chain base) (hok : EnqOk q' x) :
    QueueInv R base ⟨q', Function.update s.loc i x⟩ := by
  have hchain : q'.chain base = s.shared.chain base := by
    rw [LfQueue.chain, hnodes, LfQueue.chain]
  have hout : ∀ a ∈ s.shared.chain base, (s.loc i).pending ≠ some a :=
    fun a ha hi => (h.pending i a hi).2.2 ha
  apply h.update subset_rfl
  · exact h.chain.keep subset_rfl hnodes (fun a ha => (hfields a (hout a ha)).2)
      (fun a ha => (hfields a (hout a ha)).1) htail
  · exact h.unharmed hnodes hfields
  · rw [hchain]
    intro q hq
    obtain ⟨hzero, hres, hnot⟩ := h.pending i q (hpending q hq)
    exact ⟨hzero, hres, hnot, fun j hj hq' => hj (h.pending_inj j i q hq' (hpending q hq))⟩
  · rw [hchain]
    exact hhand
  · exact hok

/-- `malloc` returns an address that is not reserved. -/
theorem QueueInv.malloc (h : QueueInv R base s) {val : BitVec 32} {addr : Nat}
    (hnext : q'.next = s.shared.next) (hvalue : q'.value = s.shared.value)
    (hnodes : q'.nodes = s.shared.nodes) (htail : q'.tail = s.shared.tail) (hzero : addr ≠ 0)
    (hfresh : addr ∉ R) (hR : R ⊆ R') (haddr : addr ∈ R') :
    QueueInv R' base ⟨q', Function.update s.loc i (.enq val none (.value addr))⟩ := by
  have hchain : q'.chain base = s.shared.chain base := by
    rw [LfQueue.chain, hnodes, LfQueue.chain]
  have hfields : ∀ a, q'.value a = s.shared.value a ∧ q'.next a = s.shared.next a :=
    fun a => ⟨congrFun hvalue a, congrFun hnext a⟩
  apply h.update hR
  · exact h.chain.keep hR hnodes (fun a _ => (hfields a).2) (fun a _ => (hfields a).1)
      (htail ▸ h.chain.tail)
  · exact h.unharmed hnodes fun a _ => hfields a
  · intro q hq
    cases hq
    rw [hchain]
    exact ⟨hzero, haddr, fun hmem => hfresh (h.chain.reserved addr hmem),
      fun j _ hj => hfresh (h.pending j addr hj).2.1⟩
  · intro p hp
    cases hp
  · rfl

/-- The compare-and-swap of `p->next` that succeeds: the node becomes the last one of the chain. -/
theorem QueueInv.link (h : QueueInv R base s) {q p : Nat} {val : BitVec 32}
    (hloc : s.loc i = .enq val none (.link q p)) (hlast : s.shared.next p = 0)
    (hnext : q'.next = Function.update s.shared.next p q) (hvalue : q'.value = s.shared.value)
    (hnodes : q'.nodes = s.shared.nodes ++ [(q, val)]) (htail : q'.tail = s.shared.tail) :
    QueueInv R base ⟨q',
      Function.update s.loc i (.enq val (some s.shared.nodes.length) (.check q p))⟩ := by
  have hchain := LfQueue.chain_append hnodes h.chain.base_lt.le
  have hq : (s.loc i).pending = some q := by rw [hloc]; rfl
  have hp : p ∈ s.shared.chain base := h.hand i p (by rw [hloc]; rfl)
  have hready : Ready s.shared q val := by
    have hok := h.ok i
    rw [hloc] at hok
    exact hok.2
  obtain ⟨hzero, hres, hout⟩ := h.pending i q hq
  apply h.update subset_rfl
  · exact h.chain.link hp hlast hready hzero hres hout hnext hvalue hnodes htail
  · refine ⟨?_, ?_, ?_, ⟨_, hnodes.symm⟩⟩
    · rw [hchain]
      exact fun a ha => List.mem_append_left _ ha
    · intro j hj b hb
      have hbout := (h.pending j b hb).2.2
      have hbp : b ≠ p := fun heq => hbout (heq ▸ hp)
      refine ⟨?_, congrFun hvalue b, ?_⟩
      · rw [hchain, List.mem_append, List.mem_singleton]
        exact not_or.2 ⟨hbout, fun heq => hj (h.pending_inj j i q (heq ▸ hb) hq)⟩
      · rw [hnext, Function.update_of_ne hbp]
    · intro b _ hbnext
      have hbp : b ≠ p := fun heq => hbnext (heq ▸ hlast)
      rw [hnext, Function.update_of_ne hbp]
  · intro b hb
    cases hb
  · intro b hb
    cases hb
    rw [hchain]
    exact List.mem_append_left _ hp
  · refine Or.inr ⟨?_, hzero, _, rfl, ?_⟩
    · rw [hnext, Function.update_self]
    · rw [hnodes, List.getElem?_append_right le_rfl, Nat.sub_self]
      rfl

omit [DecidableEq ι] in
theorem QueueInv.mono (h : QueueInv R base s) (hR : R ⊆ R') : QueueInv R' base s := by
  refine ⟨?_, fun j q hq => ?_, h.pending_inj, h.hand, h.ok⟩
  · exact h.chain.keep hR rfl (fun _ _ => rfl) (fun _ _ => rfl) h.chain.tail
  · obtain ⟨hzero, hres, hout⟩ := h.pending j q hq
    exact ⟨hzero, hR hres, hout⟩

/-- The compare-and-swap of `tail` from a node of the chain to the node after it. -/
theorem ChainInv.tail_swing {q : LfQueue} (h : ChainInv R base q) {p r : Nat}
    (hp : p ∈ q.chain base) (hr : q.next p = r) (hzero : q.next p ≠ 0) :
    (compareAndSwapPtr q.tail p r).2 ∈ q.chain base := by
  rw [compareAndSwapPtr]
  split
  · rw [← hr]
    exact h.linked.next_mem hp hzero
  · exact h.tail

/-- The compare-and-swap of `p->next`, whether it succeeds or not. -/
theorem QueueInv.tryLink (h : QueueInv R base s) {q p addr : Nat} {val : BitVec 32}
    {r : LfQueue × LfThread} (hloc : s.loc i = .enq val none (.link q p))
    (hnext : lfEnqueue s.shared val none (.link q p) addr = some r) :
    QueueInv R base ⟨r.1, Function.update s.loc i r.2⟩ := by
  by_cases hlast : s.shared.next p = 0
  · simp only [lfEnqueue, compareAndSwapPtr, if_pos hlast] at hnext
    cases hnext
    exact h.link hloc hlast rfl rfl rfl rfl
  · simp only [lfEnqueue, compareAndSwapPtr, if_neg hlast, Function.update_eq_self] at hnext
    cases hnext
    have hok := h.ok i
    have hhand := h.hand i
    rw [hloc] at hok hhand
    apply h.keep rfl (fun _ _ => ⟨rfl, rfl⟩) h.chain.tail
    · rw [hloc]
      exact fun _ => id
    · exact hhand
    · exact Or.inl ⟨rfl, hok.2, hlast⟩

/-- The test of `succ` finds out whether the call has linked its node. -/
theorem QueueInv.check (h : QueueInv R base s) {q p : Nat} {val : BitVec 32} {entry : Option Nat}
    (hloc : s.loc i = .enq val entry (.check q p)) :
    QueueInv R base ⟨s.shared, Function.update s.loc i
      (.enq val entry (if q = s.shared.next p then .swing q p else .helpLoad q p))⟩ := by
  have hok := h.ok i
  have hhand := h.hand i
  have hpending := h.pending i
  rw [hloc] at hok hhand hpending
  rcases hok with ⟨rfl, hready, hzero⟩ | hlinked
  · -- the node after `p` is in the chain, and the node of the call is not
    have hne : q ≠ s.shared.next p := fun heq =>
      (hpending q rfl).2.2 (heq ▸ h.chain.linked.next_mem (hhand p rfl) hzero)
    rw [if_neg hne]
    apply h.keep rfl (fun _ _ => ⟨rfl, rfl⟩) h.chain.tail
    · rw [hloc]
      exact fun _ => id
    · exact hhand
    · exact ⟨rfl, hready, hzero⟩
  · rw [if_pos hlinked.1.symm]
    apply h.keep rfl (fun _ _ => ⟨rfl, rfl⟩) h.chain.tail
    · intro b hb
      cases entry <;> cases hb
    · exact hhand
    · exact hlinked

/-- A store to a field of the node of the call. -/
theorem QueueInv.store (h : QueueInv R base s) {q : Nat} {pc pc' : EnqPc} {val : BitVec 32}
    (hloc : s.loc i = .enq val none pc) (hpc : (LfThread.enq val none pc).pending = some q)
    (hpc' : (LfThread.enq val none pc').pending = some q)
    (hhand : (LfThread.enq val none pc').hand = none) (hnodes : q'.nodes = s.shared.nodes)
    (hfields : ∀ a, a ≠ q → q'.value a = s.shared.value a ∧ q'.next a = s.shared.next a)
    (htail : q'.tail = s.shared.tail) (hok : EnqOk q' (.enq val none pc')) :
    QueueInv R base ⟨q', Function.update s.loc i (.enq val none pc')⟩ := by
  apply h.keep hnodes
  · rw [hloc, hpc]
    exact fun a ha => hfields a fun heq => ha (congrArg some heq.symm)
  · rw [htail]
    exact h.chain.tail
  · rw [hloc, hpc, hpc']
    exact fun _ => id
  · rw [hhand]
    intro p hp
    cases hp
  · exact hok

/-- Every step of `lf_enqueue` keeps the invariant, when `malloc` returns nothing that is
reserved. -/
theorem QueueInv.enqueue (h : QueueInv R base s) {val : BitVec 32} {entry : Option Nat} {pc : EnqPc}
    {addr : Nat} {r : LfQueue × LfThread} (hloc : s.loc i = .enq val entry pc)
    (hnext : lfEnqueue s.shared val entry pc addr = some r) (hR : R ⊆ R')
    (hmalloc : pc = .malloc → addr ∉ R ∧ addr ∈ R') :
    QueueInv R' base ⟨r.1, Function.update s.loc i r.2⟩ := by
  have hok := h.ok i
  have hhand := h.hand i
  rw [hloc] at hok hhand
  cases pc with
  | malloc =>
      rw [lfEnqueue] at hnext
      split at hnext
      · cases hnext
      next haddr =>
        cases hnext
        obtain rfl : entry = none := hok
        obtain ⟨hfresh, hmem⟩ := hmalloc rfl
        exact h.malloc rfl rfl rfl rfl (fun hzero => haddr (Or.inl hzero)) hfresh hR hmem
  | value q =>
      cases hnext
      obtain rfl : entry = none := hok
      refine QueueInv.mono (R := R) ?_ hR
      refine h.store hloc rfl rfl rfl rfl (fun a ha => ?_) rfl ?_
      · exact ⟨Function.update_of_ne ha _ _, rfl⟩
      · exact ⟨rfl, Function.update_self _ _ _⟩
  | next q =>
      cases hnext
      obtain ⟨rfl, hvalue⟩ := hok
      refine QueueInv.mono (R := R) ?_ hR
      refine h.store hloc rfl rfl rfl rfl (fun a ha => ?_) rfl ?_
      · exact ⟨rfl, Function.update_of_ne ha _ _⟩
      · exact ⟨rfl, hvalue, Function.update_self _ _ _⟩
  | loadTail q =>
      cases hnext
      obtain ⟨rfl, hready⟩ := hok
      refine QueueInv.mono (R := R) ?_ hR
      apply h.keep rfl (fun _ _ => ⟨rfl, rfl⟩) h.chain.tail
      · rw [hloc]
        exact fun _ => id
      · intro p hp
        cases hp
        exact h.chain.tail
      · exact ⟨rfl, hready⟩
  | link q p =>
      obtain ⟨rfl, -⟩ := hok
      exact (h.tryLink hloc hnext).mono hR
  | check q p =>
      cases hnext
      exact (h.check hloc).mono hR
  | helpLoad q p =>
      cases hnext
      obtain ⟨rfl, hready, hzero⟩ := hok
      refine QueueInv.mono (R := R) ?_ hR
      apply h.keep rfl (fun _ _ => ⟨rfl, rfl⟩) h.chain.tail
      · rw [hloc]
        exact fun _ => id
      · exact hhand
      · exact ⟨rfl, hready, hzero, rfl⟩
  | helpSwing q p r =>
      cases hnext
      obtain ⟨rfl, hready, hzero, hr⟩ := hok
      refine QueueInv.mono (R := R) ?_ hR
      apply h.keep
      · rfl
      · exact fun _ _ => ⟨rfl, rfl⟩
      · exact h.chain.tail_swing (hhand p rfl) hr hzero
      · rw [hloc]
        exact fun _ => id
      · intro b hb
        cases hb
      · exact ⟨rfl, hready⟩
  | swing q p =>
      cases hnext
      refine QueueInv.mono (R := R) ?_ hR
      apply h.keep
      · rfl
      · exact fun _ _ => ⟨rfl, rfl⟩
      · exact h.chain.tail_swing (hhand p rfl) hok.1 (hok.1.symm ▸ hok.2.1)
      · intro b hb
        cases hb
      · intro b hb
        cases hb
      · trivial

/-- A step that writes to no node and is not in a call of `lf_enqueue` after it, or at its
beginning. -/
theorem QueueInv.outside (h : QueueInv R base s) (hnodes : q'.nodes = s.shared.nodes)
    (hnext : q'.next = s.shared.next) (hvalue : q'.value = s.shared.value)
    (htail : q'.tail = s.shared.tail) (hpending : x.pending = none) (hhand : x.hand = none)
    (hok : EnqOk q' x) : QueueInv R base ⟨q', Function.update s.loc i x⟩ := by
  apply h.keep hnodes
  · exact fun a _ => ⟨congrFun hvalue a, congrFun hnext a⟩
  · rw [htail]
    exact h.chain.tail
  · rw [hpending]
    intro q hq
    cases hq
  · rw [hhand]
    intro p hp
    cases hp
  · exact hok

/-- Every step of `lf_dequeue`: it writes to no node. -/
theorem QueueInv.dequeue (h : QueueInv R base s) (pc : DeqPc) :
    QueueInv R base ⟨(lfDequeue s.shared pc).1,
      Function.update s.loc i (lfDequeue s.shared pc).2⟩ := by
  cases pc with
  | testNext p =>
      rw [lfDequeue]
      split
      · exact h.outside rfl rfl rfl rfl rfl rfl trivial
      · exact h.outside rfl rfl rfl rfl rfl rfl trivial
  | loadValue p m succ =>
      cases succ with
      | none => exact h.outside rfl rfl rfl rfl rfl rfl trivial
      | some take => exact h.outside rfl rfl rfl rfl rfl rfl trivial
  | _ => exact h.outside rfl rfl rfl rfl rfl rfl trivial

omit [DecidableEq ι] in
/-- Before the first call. -/
theorem queueInv_init {h t : Nat} (value : Nat → BitVec 32) (next : Nat → Nat) (hh : h ≠ 0)
    (ht : t ≠ 0) (hne : h ≠ t) :
    QueueInv {a | a ∈ (lfQueueInit h t value next).live} 0
      ⟨lfQueueInit h t value next, fun _ : ι => .idle none⟩ := by
  refine ⟨chainInv_init value next hh ht hne, fun _ _ hq => ?_, fun _ _ _ hq => ?_,
    fun _ _ hp => ?_, fun _ => trivial⟩
  · cases hq
  · cases hq
  · cases hp

end Invariant

end PetKernel.SyncTools
