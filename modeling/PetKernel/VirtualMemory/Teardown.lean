import PetKernel.VirtualMemory.NodeList
import PetKernel.VirtualMemory.PageWalk

/-!
# The end of a process

A model of `petmem_deinit_process` of `virtual_memory/on_demand.c` on the linked nodes of
`NodeList`. The loop frees an allocated node through `petmem_free_vspace` and then takes `cur` out
of the list. But `petmem_free_vspace` merges the node with a free neighbour, and then `cur` was
passed to `kfree` already.

The last node of a map is free (`memMaps_lastFree`), so that this happens at the last of the
allocated nodes, if there are any (`petmemDeinitProcess_fails`). Without allocated nodes every node
is passed to `kfree` exactly once (`petmemDeinitProcess_free`).
-/

set_option autoImplicit false

namespace PetKernel.VirtualMemory

open PetKernel.Library

/-! ## The last node -/

/-- The last node is free. -/
def LastFree (map : MemMap) : Prop := ∀ n ∈ map.getLast?, n.allocated = false

theorem lastFree_append {as bs : MemMap} (hne : bs ≠ []) : LastFree (as ++ bs) ↔ LastFree bs := by
  rw [LastFree, List.getLast?_append_of_ne_nil as hne, LastFree]

theorem lastFree_concat {as : MemMap} {n : MapNode} :
    LastFree (as ++ [n]) ↔ n.allocated = false := by
  rw [lastFree_append (List.cons_ne_nil n []), LastFree]
  simp

theorem LastFree.petmemAllocVspace {map : MemMap} (h : LastFree map) (numPages : Nat) :
    LastFree (petmemAllocVspace map numPages).2 := by
  unfold VirtualMemory.petmemAllocVspace
  cases hr : allocIn (numPages * pageSize % 2 ^ 64) map with
  | none => exact h
  | some r =>
      obtain ⟨as, cur, bs, rfl, -, -, rfl⟩ := allocIn_eq_some hr
      rw [Option.getD_some]
      rcases eq_or_ne bs [] with rfl | hne
      · -- the second part of the last node is free
        rw [List.append_nil, List.append_cons, lastFree_concat]
      · rw [lastFree_append hne] at h ⊢
        exact h

theorem absorbNext_suffix (cur : MapNode) (rest : List MapNode) :
    (absorbNext cur rest).2 <:+ rest := by
  cases rest with
  | nil => exact List.suffix_rfl
  | cons next rest =>
      rw [absorbNext]
      split
      · exact List.suffix_cons next rest
      · exact List.suffix_rfl

theorem LastFree.freeNodes {page : Nat} (prevs : List MapNode) (toFree : Nat) (rest : List MapNode)
    (h : LastFree (prevs.reverse ++ rest)) : LastFree (freeNodes page prevs toFree rest).1 := by
  revert h
  refine freeNodes_induction (motive := fun prevs _ rest res => LastFree (prevs.reverse ++ rest) →
    LastFree res.1) ?_ ?_ ?_ prevs toFree rest
  · intro prevs _ h
    rw [List.append_nil] at h
    exact h
  · intro prevs _ cur rest res _ ih h
    apply ih
    rw [List.reverse_cons, List.append_assoc]
    exact h
  · rintro prevs _ cur rest m r res _ rfl rfl ih h
    apply ih
    rcases eq_or_ne (absorbNext (absorbPrev prevs { cur with allocated := false }).2 rest).2 [] with
      hnil | hne
    · rw [hnil, List.append_nil, List.reverse_cons, lastFree_concat]
      exact absorbNext_free rest (absorbPrev_free prevs rfl)
    · obtain ⟨ms, hms⟩ := absorbNext_suffix
        (absorbPrev prevs { cur with allocated := false }).2 rest
      rw [List.append_cons, ← hms, ← List.append_assoc, lastFree_append hne] at h
      exact (lastFree_append hne).2 h

/-- An allocation leaves a free rest behind the node, so that the last node is never allocated. -/
theorem memMaps_lastFree {calls : List MapCall} {map : MemMap} (h : memMaps.Reach calls map) :
    LastFree map := by
  refine h.invariant (fun map hmap => ?_) fun map call map' hlast hst => ?_
  · rw [show map = petmemInitProcess from hmap]
    intro n hn
    cases hn
    rfl
  · cases call with
    | allocVspace numPages =>
        rw [show map' = _ from hst]
        exact hlast.petmemAllocVspace numPages
    | freeVspace vaddr =>
        rw [show map' = _ from hst, petmemFreeMap]
        split
        · exact LastFree.freeNodes [] 0 map hlast
        · exact hlast

/-! ## The model -/

namespace Nodes

/-- What a process has: the nodes of its map, its page tables, and the pools. -/
structure NodeSpace where
  heap : NodeHeap
  mem : PtMem
  pools : List BuddyMempool

/-- `petmem_free_vspace`. -/
def petmemFreeVspace (off cr3 map vaddr : Nat) (s : NodeSpace) : Except HeapError NodeSpace := do
  let (heap, numPagesToFree) ← petmemFreeMap map vaddr s.heap
  match freePages off cr3 vaddr numPagesToFree s.mem s.pools with
  | none => .error .bug
  | some w => return ⟨heap, w.mem, w.pools⟩

/-- The call of `petmem_free_vspace` in `petmem_deinit_process`, for an allocated node. -/
def deinitFree (off cr3 map cur : Nat) (s : NodeSpace) : Except HeapError NodeSpace := do
  let c ← s.heap.read cur
  if c.allocated = 1 then petmemFreeVspace off cr3 map c.start s else return s

/-- The loop of `petmem_deinit_process`, for at most as many turns as the first number says. -/
def deinitLoop (off cr3 map : Nat) : Nat → NodeSpace → Nat → Nat → Except HeapError NodeSpace
  | 0, _, _, _ => .error .endless
  | n + 1, s, cur, tmp =>
      if cur = map then .ok s
      else do
        let s ← deinitFree off cr3 map cur s
        let heap ← s.heap.listDel cur
        let heap ← heap.kfree cur
        deinitLoop off cr3 map n { s with heap := heap } tmp (← heap.read tmp).next

/-- `petmem_deinit_process`. -/
def petmemDeinitProcess (off cr3 map : Nat) (s : NodeSpace) : Except HeapError NodeSpace := do
  let cur := (← s.heap.read map).next
  let s ← deinitLoop off cr3 map s.heap.live.length s cur (← s.heap.read cur).next
  return { s with heap := ← s.heap.kfree map }

/-! ## A map without allocated nodes -/

variable {off cr3 map x : Nat} {s : NodeSpace} {bs : List Nat}

theorem IsMap.first_next {h : NodeHeap} (hm : IsMap h map (x :: bs)) :
    (h.cell x).next = bs.headD map := by
  have hzipper : IsMap h map ([].reverse ++ x :: bs) := hm
  exact hzipper.ring.next_eq

/-- A turn after the call of `petmem_free_vspace`, when the node is still the first one. -/
theorem deinitLoop_unlink {s' : NodeSpace} {n : Nat} (hfree : deinitFree off cr3 map x s = .ok s')
    (hm : IsMap s'.heap map (x :: bs)) : ∃ h, IsMap h map bs ∧ h.nodes bs = s'.heap.nodes bs ∧
      h.kfreed = s'.heap.kfreed ++ [x] ∧
      deinitLoop off cr3 map (n + 1) s x (bs.headD map) =
        deinitLoop off cr3 map n { s' with heap := h } (bs.headD map)
        (h.cell (bs.headD map)).next := by
  have hzipper : IsMap s'.heap map ([].reverse ++ x :: bs) := hm
  obtain ⟨h₁, h₂, hdel, hkfree, hm', hdata, hkfreed⟩ := hzipper.unlink
  have hx : x ≠ map := fun heq => hm.head_notMem (heq ▸ List.mem_cons_self)
  refine ⟨h₂, hm', nodes_congr fun p hp => hdata p (hzipper.ne_of_mem hp), hkfreed, ?_⟩
  rw [deinitLoop, if_neg hx, hfree, ok_bind, hdel, ok_bind, hkfree, ok_bind,
    NodeHeap.read_of_mem hm'.after_mem, ok_bind]

theorem deinitFree_of_free (off cr3 map : Nat) (hx : x ∈ s.heap.live)
    (hfree : (s.heap.cell x).node.allocated = false) :
    deinitFree off cr3 map x s = .ok s := by
  rw [deinitFree, NodeHeap.read_of_mem hx, ok_bind, if_neg (of_decide_eq_false hfree)]
  rfl

/-- Free nodes are unlinked and passed to `kfree` one after the other. -/
theorem deinitLoop_free (off cr3 : Nat) {n : Nat} (hm : IsMap s.heap map bs) (hn : bs.length < n)
    (hfree : ∀ c ∈ s.heap.nodes bs, c.allocated = false) : ∃ h,
      deinitLoop off cr3 map n s (bs.headD map) (s.heap.cell (bs.headD map)).next =
        .ok { s with heap := h } ∧
      IsMap h map [] ∧ h.kfreed = s.heap.kfreed ++ bs := by
  induction bs generalizing s n with
  | nil =>
      obtain ⟨n, rfl⟩ := Nat.exists_eq_succ_of_ne_zero (Nat.ne_zero_of_lt hn)
      exact ⟨s.heap, if_pos rfl, hm, (List.append_nil _).symm⟩
  | cons x bs ih =>
      obtain ⟨n, rfl⟩ := Nat.exists_eq_succ_of_ne_zero (Nat.ne_zero_of_lt hn)
      rw [nodes_cons, List.forall_mem_cons] at hfree
      have hpass := deinitFree_of_free off cr3 map
        (hm.node_mem List.mem_cons_self) hfree.1
      obtain ⟨h, hm', hnodes, hkfreed, hturn⟩ := deinitLoop_unlink (n := n) hpass hm
      obtain ⟨h', hloop, hend, hkfreed'⟩ := ih (s := { s with heap := h }) hm'
        (Nat.lt_of_succ_lt_succ hn) (by rw [hnodes]; exact hfree.2)
      refine ⟨h', ?_, hend, ?_⟩
      · rw [List.headD_cons, hm.first_next, hturn, hloop]
      · rw [hkfreed', hkfreed, List.append_assoc, List.singleton_append]

/-! ## A map with an allocated node -/

variable {h : NodeHeap} {y : Nat}

/-- The loop of `petmem_free_vspace` from a node to be released on. If the node is not passed to
`kfree`, then no neighbour is free, and the loop goes on after its flag is cleared. -/
theorem IsMap.freeLoop_release {page fuel n : Nat} {rs : List Nat}
    (hm : IsMap h map (rs.reverse ++ x :: bs))
    (hmatch : (h.cell x).start = page ∧ (h.cell x).allocated = 1) (hfuel : bs.length < fuel) :
    ∃ h' n' ptrs', Nodes.freeLoop page map (fuel + 1) h x (h.cell x).next n = .ok (h', n') ∧
      IsMap h' map ptrs' ∧
      (x ∈ ptrs' → (∀ p ∈ rs.head?, (h.cell p).allocated ≠ 0) ∧
        (∀ p ∈ bs.head?, (h.cell p).allocated ≠ 0) ∧
        ∃ n₁, Nodes.freeLoop page map fuel (h.clear x) (bs.headD map)
          ((h.clear x).cell (bs.headD map)).next n₁ = .ok (h', n')) := by
  obtain ⟨h₁, n₁, rs₁, hturn, hm₁, -, -, hstay⟩ := hm.freeTurn_release (n := n) hmatch
  obtain ⟨h', ptrs', hloop, hm', -, hptrs⟩ := hm₁.freeLoop hfuel
  refine ⟨h', _, ptrs', (hm.freeLoop_turn hturn hm₁).trans hloop, hm', fun hmem => ?_⟩
  rcases List.mem_append.1 (hptrs x hmem) with hrs | hbs
  · obtain ⟨rfl, hbefore, hafter⟩ := hstay (List.mem_reverse.1 hrs)
    exact ⟨hbefore, hafter, n₁, hloop⟩
  · exact absurd rfl (hm.ne_of_mem (List.mem_append_right _ hbs))

/-- `petmem_free_vspace` finds the first node by its address. -/
theorem IsMap.petmemFreeMap_first (hm : IsMap h map (x :: bs)) (hflag : (h.cell x).allocated = 1)
    (halign : pageSize ∣ (h.cell x).start) (hend : (h.cell x).start + (h.cell x).size < 2 ^ 64) :
    Nodes.petmemFreeMap map (h.cell x).start h =
      Nodes.freeLoop (h.cell x).start map (bs.length + 2) h x (h.cell x).next 0 := by
  have hin : VirtualMemory.vaddrInMap (h.cell x).start (h.nodes (x :: bs)) = true := by
    rw [nodes_cons, VirtualMemory.vaddrInMap, List.any_cons]
    simp only [ListNode.node, hflag, Nat.mod_eq_of_lt hend, Nat.le_add_right, Nat.le_refl,
      decide_true, Bool.and_true, Bool.true_or]
  have hpage : pageAddr (h.cell x).start = (h.cell x).start := Nat.div_mul_cancel halign
  have hnext : (h.cell map).next = x := hm.ring.next_head
  have hlen : h.live.length = bs.length + 2 := hm.live.length_eq
  rw [Nodes.petmemFreeMap, hm.vaddrInMap, ok_bind, if_pos hin, NodeHeap.read_of_mem hm.head_mem,
    ok_bind]
  dsimp only
  rw [hnext, NodeHeap.read_of_mem (hm.node_mem List.mem_cons_self), ok_bind, hpage, hlen]

/-- The call of `petmem_free_vspace` for the first node: that node or the next one is passed to
`kfree`, or both were allocated and only the flag of the first is cleared. -/
theorem IsMap.free_first {lo hi : Nat} (hm : IsMap h map (x :: y :: bs))
    (hflag : (h.cell x).allocated = 1) (halign : pageSize ∣ (h.cell x).start)
    (hend : (h.cell x).start + (h.cell x).size < 2 ^ 64)
    (htiles : Tiles MapNode.start MapNode.size lo hi (h.nodes (x :: y :: bs))) :
    ∃ h' n ptrs', Nodes.petmemFreeMap map (h.cell x).start h = .ok (h', n) ∧ IsMap h' map ptrs' ∧
      (x ∉ ptrs' ∨ y ∉ ptrs' ∨ h' = h.clear x ∧ (h.cell y).allocated = 1) := by
  have hzipper : IsMap h map ([].reverse ++ x :: y :: bs) := hm
  have hcleared : IsMap (h.clear x) map ([x].reverse ++ y :: bs) := hm.clear List.mem_cons_self
  rw [hm.petmemFreeMap_first hflag halign hend]
  obtain ⟨h', n', ptrs', hloop, hm', hstay⟩ := hzipper.freeLoop_release (n := 0) ⟨rfl, hflag⟩
    (Nat.lt_succ_self _)
  by_cases hx : x ∈ ptrs'
  · obtain ⟨-, hused, n₁, hrest⟩ := hstay hx
    have hy : (h.cell y).allocated = 1 :=
      (hm.flags y (by simp)).resolve_left (hused y rfl)
    have hcell : ∀ p ∈ y :: bs, (h.clear x).cell p = h.cell p := fun p hp =>
      cell_clear (hzipper.ne_of_mem hp)
    rcases Nat.eq_zero_or_pos (h.cell x).size with hzero | hpos
    · -- the next node has the same address, and its turn merges it into the first
      have hstart : (h.cell x).start + (h.cell x).size = (h.cell y).start :=
        (List.isChain_cons_cons.1 htiles.isChain).1
      rw [hzero, Nat.add_zero] at hstart
      have hmatch : ((h.clear x).cell y).start = (h.cell x).start ∧
          ((h.clear x).cell y).allocated = 1 := by
        rw [hcell y List.mem_cons_self]
        exact ⟨hstart.symm, hy⟩
      obtain ⟨h₂, n₂, ptrs₂, hloop₂, hm₂, hstay₂⟩ := hcleared.freeLoop_release (n := n₁) hmatch
        (Nat.lt_succ_self _)
      cases hrest.symm.trans hloop₂
      refine ⟨h', n', ptrs₂, hloop, hm₂, Or.inr (Or.inl fun hmem => ?_)⟩
      exact (hstay₂ hmem).1 x rfl (congrArg ListNode.allocated (NodeHeap.cell_set_self _ _ _))
    · -- no other node has this address
      have hother : ∀ p ∈ y :: bs, ¬ (((h.clear x).cell p).start = (h.cell x).start ∧
          ((h.clear x).cell p).allocated = 1) := by
        intro p hp hmatch
        rw [hcell p hp] at hmatch
        have hlater : (h.cell x).start + (h.cell x).size ≤ (h.cell p).start :=
          (List.pairwise_cons.1 htiles.pairwise).1 _ (List.mem_map_of_mem hp)
        omega
      cases hrest.symm.trans (hcleared.freeLoop_pass (Nat.lt_succ_self _) hother)
      exact ⟨_, n', ptrs', hloop, hm', Or.inr (Or.inr ⟨rfl, hy⟩)⟩
  · exact ⟨h', n', ptrs', hloop, hm', Or.inl hx⟩

/-- What the nodes that are left satisfy, from the start of the loop to its end. -/
structure RestOk (rest : MemMap) : Prop where
  tiles : ∃ lo, Tiles MapNode.start MapNode.size lo petmemRegionEnd rest
  aligned : ∀ n ∈ rest, n.Aligned
  last : LastFree rest

theorem RestOk.of_reach {calls : List MapCall} {rest : MemMap} (hr : memMaps.Reach calls rest) :
    RestOk rest where
  tiles := ⟨petmemRegionStart, (memMaps_mapOk hr).tiles⟩
  aligned := (memMaps_mapOk hr).aligned
  last := memMaps_lastFree hr

theorem RestOk.tail {n : MapNode} {rest : MemMap} (h : RestOk (n :: rest)) : RestOk rest where
  tiles := by
    obtain ⟨lo, -, htiles⟩ := h.tiles
    exact ⟨_, htiles⟩
  aligned m hm := h.aligned m (List.mem_cons_of_mem n hm)
  last := by
    rcases eq_or_ne rest [] with rfl | hne
    · exact fun m hm => absurd hm (by simp)
    · have hlast : LastFree ([n] ++ rest) := h.last
      exact (lastFree_append hne).1 hlast

/-- The call ends with a node used after it was passed to `kfree`, or with a `BUG_ON`. -/
def Fails (result : Except HeapError NodeSpace) : Prop :=
  result = .error .bug ∨ ∃ p, result = .error (.useAfterFree p)

theorem deinitFree_of_allocated (off cr3 : Nat) {n : Nat} (hx : x ∈ s.heap.live)
    (hflag : (s.heap.cell x).allocated = 1)
    (hfree : petmemFreeMap map (s.heap.cell x).start s.heap = .ok (h, n)) :
    deinitFree off cr3 map x s = .error .bug ∨
      ∃ mem pools, deinitFree off cr3 map x s = .ok ⟨h, mem, pools⟩ := by
  rw [deinitFree, NodeHeap.read_of_mem hx, ok_bind, if_pos hflag, petmemFreeVspace, hfree, ok_bind]
  dsimp only
  cases freePages off cr3 (s.heap.cell x).start n s.mem s.pools with
  | none => exact Or.inl rfl
  | some w => exact Or.inr ⟨w.mem, w.pools, rfl⟩

/-- A turn in which `cur` or `tmp` was passed to `kfree` by `petmem_free_vspace`. -/
theorem deinitLoop_kfreed {s' : NodeSpace} {ptrs : List Nat} {n : Nat} (hx : x ≠ map) (hy : y ≠ map)
    (hfree : deinitFree off cr3 map x s = .ok s') (hm : IsMap s'.heap map ptrs)
    (hkfreed : x ∉ ptrs ∨ y ∉ ptrs) : Fails (deinitLoop off cr3 map (n + 1) s x y) := by
  rw [deinitLoop, if_neg hx, hfree, ok_bind]
  by_cases hmem : x ∈ ptrs
  · -- `cur` is there, so the next node is not
    obtain ⟨rs, bs, rfl⟩ := List.append_of_mem hmem
    rw [← List.reverse_reverse rs] at hm hkfreed
    obtain ⟨h₁, h₂, hdel, hkfree, hm₂, -⟩ := hm.unlink
    have hdead : y ∉ h₂.live := by
      rw [hm₂.mem_live, List.mem_cons, not_or]
      refine ⟨hy, fun hmem' => hkfreed.resolve_left ?_ (IsMap.mem_of_mem_sides hmem')⟩
      exact not_not_intro (IsMap.mem_zipper _ _ _)
    refine Or.inr ⟨y, ?_⟩
    rw [hdel, ok_bind, hkfree, ok_bind, NodeHeap.read, if_neg hdead]
    rfl
  · have hdead : x ∉ s'.heap.live := by
      rw [hm.mem_live, List.mem_cons, not_or]
      exact ⟨hx, hmem⟩
    refine Or.inr ⟨x, ?_⟩
    rw [NodeHeap.listDel, NodeHeap.read, if_neg hdead]
    rfl

/-- A turn at an allocated node: the loop fails, or the next node is allocated, too. -/
theorem deinitLoop_allocated (off cr3 n : Nat) (hm : IsMap s.heap map (x :: y :: bs))
    (hflag : (s.heap.cell x).allocated = 1) (hrest : RestOk (s.heap.nodes (x :: y :: bs))) :
    Fails (deinitLoop off cr3 map (n + 1) s x y) ∨ ∃ s', IsMap s'.heap map (y :: bs) ∧
      s'.heap.nodes (y :: bs) = s.heap.nodes (y :: bs) ∧ (s.heap.cell y).allocated = 1 ∧
      deinitLoop off cr3 map (n + 1) s x y = deinitLoop off cr3 map n s' y
        (s'.heap.cell y).next := by
  have hzipper : IsMap s.heap map ([].reverse ++ x :: y :: bs) := hm
  have hx : x ≠ map := fun heq => hm.head_notMem (heq ▸ List.mem_cons_self)
  have hy : y ≠ map := fun heq => hm.head_notMem (heq ▸ List.mem_cons_of_mem x List.mem_cons_self)
  obtain ⟨lo, htiles⟩ := hrest.tiles
  have hnode : (s.heap.cell x).node ∈ s.heap.nodes (x :: y :: bs) := List.mem_cons_self
  have hend : (s.heap.cell x).start + (s.heap.cell x).size < 2 ^ 64 :=
    Nat.lt_of_le_of_lt (htiles.bounds hnode).2 (by decide)
  obtain ⟨h', n', ptrs', hcall, hm', hcases⟩ :=
    hm.free_first hflag (hrest.aligned _ hnode).start hend htiles
  rcases deinitFree_of_allocated off cr3 (hm.node_mem List.mem_cons_self) hflag hcall with
    hbug | ⟨mem, pools, hok⟩
  · left
    left
    rw [deinitLoop, if_neg hx, hbug]
    rfl
  · rcases hcases with hkfreed | hkfreed | ⟨rfl, hused⟩
    · exact Or.inl (deinitLoop_kfreed hx hy hok hm' (Or.inl hkfreed))
    · exact Or.inl (deinitLoop_kfreed hx hy hok hm' (Or.inr hkfreed))
    · right
      have hcleared : IsMap (s.heap.clear x) map (x :: y :: bs) := hm.clear List.mem_cons_self
      obtain ⟨h, hm₁, hnodes, -, hturn⟩ := deinitLoop_unlink (n := n) hok hcleared
      refine ⟨_, hm₁, hnodes.trans (IsMap.nodes_clear fun hmem => ?_), hused, hturn⟩
      exact hzipper.ne_of_mem hmem rfl

/-- The loop does not get past the last allocated node. -/
theorem deinitLoop_fails (off cr3 : Nat) {n : Nat} (hm : IsMap s.heap map bs) (hn : bs.length < n)
    (hrest : RestOk (s.heap.nodes bs)) (hused : ∃ c ∈ s.heap.nodes bs, c.allocated = true) :
    Fails (deinitLoop off cr3 map n s (bs.headD map) (s.heap.cell (bs.headD map)).next) := by
  induction bs generalizing s n with
  | nil =>
      obtain ⟨c, hc, -⟩ := hused
      cases hc
  | cons x bs ih =>
      obtain ⟨n, rfl⟩ := Nat.exists_eq_succ_of_ne_zero (Nat.ne_zero_of_lt hn)
      rw [List.headD_cons, hm.first_next]
      by_cases hfree : (s.heap.cell x).node.allocated = false
      · -- a free node is taken out, and the allocated node comes after it
        have hpass := deinitFree_of_free off cr3 map (hm.node_mem List.mem_cons_self) hfree
        obtain ⟨h, hm', hnodes, -, hturn⟩ := deinitLoop_unlink (n := n) hpass hm
        rw [hturn]
        obtain ⟨c, hc, halloc⟩ := hused
        refine ih (s := { s with heap := h }) hm' (Nat.lt_of_succ_lt_succ hn) ?_ ⟨c, ?_, halloc⟩
        · rw [hnodes]
          exact hrest.tail
        · rw [hnodes]
          refine (List.mem_cons.1 hc).resolve_left ?_
          rintro rfl
          rw [hfree] at halloc
          cases halloc
      · have hflag : (s.heap.cell x).allocated = 1 :=
          of_decide_eq_true (Bool.eq_true_of_not_eq_false hfree)
        cases bs with
        | nil => exact absurd (hrest.last _ rfl) hfree
        | cons y bs =>
            rw [List.headD_cons]
            rcases deinitLoop_allocated off cr3 n hm hflag hrest with hfails |
              ⟨s', hm', hnodes, hy, hturn⟩
            · exact hfails
            · rw [hturn]
              refine ih hm' (Nat.lt_of_succ_lt_succ hn) ?_ ?_
              · rw [hnodes]
                exact hrest.tail
              · rw [hnodes]
                exact ⟨_, List.mem_cons_self, decide_eq_true hy⟩

/-! ## The whole call -/

theorem petmemDeinitProcess_eq (off cr3 : Nat) (hm : IsMap s.heap map bs) :
    petmemDeinitProcess off cr3 map s = (do
      let s ← deinitLoop off cr3 map s.heap.live.length s (bs.headD map)
        (s.heap.cell (bs.headD map)).next
      return { s with heap := ← s.heap.kfree map }) := by
  have hnext : (s.heap.cell map).next = bs.headD map := hm.ring.next_head
  have hzipper : IsMap s.heap map ([].reverse ++ bs) := hm
  rw [petmemDeinitProcess, NodeHeap.read_of_mem hm.head_mem, ok_bind]
  dsimp only
  rw [hnext, NodeHeap.read_of_mem hzipper.after_mem, ok_bind]

theorem petmemDeinitProcess_free (off cr3 : Nat) (hm : IsMap s.heap map bs)
    (hfree : ∀ n ∈ s.heap.nodes bs, n.allocated = false) : ∃ s' freed,
      petmemDeinitProcess off cr3 map s = .ok s' ∧ s'.heap.kfreed = s.heap.kfreed ++ freed ∧
      freed.Perm (map :: bs) := by
  obtain ⟨h, hloop, hm', hkfreed⟩ := deinitLoop_free off cr3 hm hm.length_lt hfree
  rw [petmemDeinitProcess_eq off cr3 hm, hloop, ok_bind, NodeHeap.kfree_of_mem hm'.head_mem,
    ok_bind]
  refine ⟨_, bs ++ [map], rfl, ?_, List.perm_append_comm⟩
  dsimp only
  rw [hkfreed, List.append_assoc]

theorem petmemDeinitProcess_fails (off cr3 : Nat) (hm : IsMap s.heap map bs)
    (hrest : RestOk (s.heap.nodes bs)) (hused : ∃ n ∈ s.heap.nodes bs, n.allocated = true) :
    Fails (petmemDeinitProcess off cr3 map s) := by
  rw [petmemDeinitProcess_eq off cr3 hm]
  rcases deinitLoop_fails off cr3 hm hm.length_lt hrest hused with hbug | ⟨p, hdead⟩
  · rw [hbug]
    exact Or.inl rfl
  · rw [hdead]
    exact Or.inr ⟨p, rfl⟩

/-- `petmem_deinit_process` comes to its end, passes every node of the map and the head to `kfree`,
each exactly once, and uses none of them after that, if and only if no node is allocated. -/
theorem deinit_kfrees_each_once_iff {calls : List NodeCall}
    (hr : (nodeHeaps map).Reach calls s.heap) (off cr3 : Nat) : ∃ ptrs, IsMap s.heap map ptrs ∧
      ((∃ s' freed, petmemDeinitProcess off cr3 map s = .ok s' ∧
          s'.heap.kfreed = s.heap.kfreed ++ freed ∧ freed.Perm (map :: ptrs)) ↔
        ∀ n ∈ s.heap.nodes ptrs, n.allocated = false) := by
  obtain ⟨ptrs, hm, hmap⟩ := nodeHeaps_refines hr
  refine ⟨ptrs, hm, ?_, petmemDeinitProcess_free off cr3 hm⟩
  rintro ⟨s', freed, hok, -⟩ n hn
  by_contra hused
  rcases petmemDeinitProcess_fails off cr3 hm (RestOk.of_reach hmap)
    ⟨n, hn, Bool.eq_true_of_not_eq_false hused⟩ with hbug | ⟨p, hdead⟩
  · cases hok.symm.trans hbug
  · cases hok.symm.trans hdead

/-- An allocation that is freed again: the one node that is left and the head are passed to
`kfree`. -/
theorem deinit_kfrees_each_once_after_free :
    ∃ h s' freed,
      (nodeHeaps 1).Reach ([] ++ [NodeCall.allocVspace 1 3] ++ [NodeCall.freeVspace 0x1000000000])
        h ∧
      petmemDeinitProcess 0 0 1 ⟨h, emptyMem, []⟩ = .ok s' ∧ s'.heap.kfreed = h.kfreed ++ freed ∧
      freed.Perm [1, 3] := by
  have hinit : (nodeHeaps 1).Reach [] _ := .init ⟨fun _ => ⟨0, 0, 0, 0, 0⟩, 2, by decide, rfl⟩
  have halloc : (nodeHeaps 1).Reach ([] ++ [NodeCall.allocVspace 1 3]) _ :=
    .step hinit ⟨by decide, _, rfl⟩
  have hfree : (nodeHeaps 1).Reach ([] ++ [NodeCall.allocVspace 1 3] ++
    [NodeCall.freeVspace 0x1000000000]) _ := .step halloc ⟨_, rfl⟩
  obtain ⟨ptrs, hm, hiff⟩ := deinit_kfrees_each_once_iff (s := ⟨_, emptyMem, []⟩) hfree 0 0
  have hlive : [3, 1].Perm (1 :: ptrs) := hm.live
  obtain rfl : ptrs = [3] :=
    List.perm_singleton.1 (((List.Perm.swap 1 3 []).symm.trans hlive).cons_inv).symm
  obtain ⟨s', freed, hok, hkfreed, hperm⟩ := hiff.2 fun n hn => by
    rw [List.mem_singleton.1 hn]
    rfl
  exact ⟨_, s', freed, hfree, hok, hkfreed, hperm⟩

/-- After one allocation the first node is merged into the second one, and is then unlinked
again. -/
theorem deinit_after_alloc_uses_freed_node :
    ∃ h, (nodeHeaps 1).Reach ([] ++ [NodeCall.allocVspace 1 3]) h ∧
      petmemDeinitProcess 0 0 1 ⟨h, emptyMem, []⟩ = .error (.useAfterFree 2) := by
  have hinit : (nodeHeaps 1).Reach [] _ := .init ⟨fun _ => ⟨0, 0, 0, 0, 0⟩, 2, by decide, rfl⟩
  exact ⟨_, .step hinit ⟨by decide, _, rfl⟩, rfl⟩

end Nodes

end PetKernel.VirtualMemory
