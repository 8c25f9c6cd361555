import PetKernel.Library.Ring
import PetKernel.VirtualMemory.MemMap

/-!
# The memory map as linked nodes

`MemMap` is a list of nodes. In `virtual_memory/on_demand.c` the nodes are objects of `kmalloc` that
are linked through their `struct list_head`, in a ring that is closed by a head. Here the functions
of the source are modelled on a heap of such objects. An object that was passed to `kfree` can not
be read, written or passed to `kfree` again: such a step is an error, and a call that ends without
an error has not made one.

`IsMap` says that a heap holds the ring of a map and nothing else. The functions keep it, they do
not end with an error, and they do to the list of the nodes what the functions of `MemMap` do
(`IsMap.petmemAllocVspace`, `IsMap.petmemFreeMap`). So every heap that can be reached holds a map
that can be reached (`nodeHeaps_refines`).
-/

set_option autoImplicit false

namespace PetKernel.VirtualMemory.Nodes

open PetKernel.Library

/-! ## The heap -/

/-- How a call can go wrong. -/
inductive HeapError where
  /-- An object is read or written that is not allocated. -/
  | useAfterFree (p : Nat)
  /-- An object is passed to `kfree` that is not allocated. -/
  | doubleFree (p : Nat)
  /-- A `BUG_ON`. -/
  | bug
  /-- A loop takes more turns than there are objects. -/
  | endless
deriving DecidableEq, Repr

/-- `struct mem_map`, with the links of its `struct list_head`. -/
structure ListNode where
  allocated : Int
  size : Nat
  start : Nat
  next : Nat
  prev : Nat

/-- The objects by their addresses, the addresses of those that are allocated, and the calls of
`kfree` so far. -/
structure NodeHeap where
  cell : Nat → ListNode
  live : List Nat
  kfreed : List Nat

namespace NodeHeap

def next (h : NodeHeap) (p : Nat) : Nat := (h.cell p).next

def prev (h : NodeHeap) (p : Nat) : Nat := (h.cell p).prev

def read (h : NodeHeap) (p : Nat) : Except HeapError ListNode :=
  if p ∈ h.live then .ok (h.cell p) else .error (.useAfterFree p)

/-- The fields of an object are written. -/
def modify (h : NodeHeap) (p : Nat) (f : ListNode → ListNode) : Except HeapError NodeHeap :=
  if p ∈ h.live then .ok { h with cell := Function.update h.cell p (f (h.cell p)) }
  else .error (.useAfterFree p)

/-- `kmalloc`, when it returns `p`. -/
def kmalloc (h : NodeHeap) (p : Nat) : NodeHeap := { h with live := p :: h.live }

def kfree (h : NodeHeap) (p : Nat) : Except HeapError NodeHeap :=
  if p ∈ h.live then .ok { h with live := h.live.erase p, kfreed := h.kfreed ++ [p] }
  else .error (.doubleFree p)

/-- `INIT_LIST_HEAD`. -/
def initListHead (h : NodeHeap) (list : Nat) : Except HeapError NodeHeap :=
  h.modify list fun c => { c with next := list, prev := list }

/-- `list_add`: the entry `new` is put in after `head`. -/
def listAdd (h : NodeHeap) (new head : Nat) : Except HeapError NodeHeap := do
  let next := (← h.read head).next
  let h ← h.modify next fun c => { c with prev := new }
  let h ← h.modify new fun c => { c with next := next }
  let h ← h.modify new fun c => { c with prev := head }
  h.modify head fun c => { c with next := new }

/-- `list_del`, with `LIST_POISON1` and `LIST_POISON2`. -/
def listDel (h : NodeHeap) (entry : Nat) : Except HeapError NodeHeap := do
  let e ← h.read entry
  let h ← h.modify e.next fun c => { c with prev := e.prev }
  let h ← h.modify e.prev fun c => { c with next := e.next }
  h.modify entry fun c => { c with next := 0x00100100, prev := 0x00200200 }

end NodeHeap

/-! ## The functions of the source -/

/-- `petmem_init_process`, when `kmalloc` returns `map` and `firstEntry`. -/
def petmemInitProcess (h : NodeHeap) (map firstEntry : Nat) : Except HeapError NodeHeap := do
  let h ← (h.kmalloc map).modify map fun c => { c with allocated := -1 }
  let h ← (h.kmalloc firstEntry).modify firstEntry fun c => { c with
    allocated := 0
    size := petmemRegionEnd - petmemRegionStart
    start := petmemRegionStart }
  let h ← h.initListHead map
  h.listAdd firstEntry map

/-- The loop of `vaddr_in_map`, for at most as many turns as the first argument says. -/
def vaddrInMapLoop (vaddr map : Nat) (h : NodeHeap) : Nat → Nat → Except HeapError Bool
  | 0, _ => .error .endless
  | n + 1, cur =>
      if cur = map then .ok false
      else do
        let c ← h.read cur
        if c.allocated = 1 ∧ c.start ≤ vaddr ∧ vaddr ≤ (c.start + c.size) % 2 ^ 64 then .ok true
        else vaddrInMapLoop vaddr map h n c.next

/-- `vaddr_in_map`. -/
def vaddrInMap (vaddr map : Nat) (h : NodeHeap) : Except HeapError Bool := do
  vaddrInMapLoop vaddr map h h.live.length (← h.read map).next

/-- The loop of `petmem_alloc_vspace`; `new` is what `kmalloc` returns, if it is called. -/
def allocLoop (reqSize map new : Nat) (h : NodeHeap) : Nat → Nat → Except HeapError (Nat × NodeHeap)
  | 0, _ => .error .endless
  | n + 1, cur =>
      if cur = map then .ok (2 ^ 64 - 1, h)
      else do
        let c ← h.read cur
        if c.allocated = 0 ∧ reqSize ≤ c.size then do
          let h ← (h.kmalloc new).modify new fun d => { d with
            allocated := 0
            size := c.size - reqSize
            start := (c.start + reqSize) % 2 ^ 64 }
          let h ← h.modify cur fun d => { d with allocated := 1, size := reqSize }
          let h ← h.listAdd new cur
          return ((← h.read cur).start, h)
        else allocLoop reqSize map new h n c.next

/-- `petmem_alloc_vspace`. -/
def petmemAllocVspace (map numPages new : Nat) (h : NodeHeap) :
    Except HeapError (Nat × NodeHeap) := do
  allocLoop (numPages * pageSize % 2 ^ 64) map new h h.live.length (← h.read map).next

/-- The node `cur` is merged with the node before it, if that is free: the node that is left. -/
def mergePrev (h : NodeHeap) (cur prev : Nat) : Except HeapError (NodeHeap × Nat) := do
  if (← h.read prev).allocated = 0 then do
    let c ← h.read cur
    let h ← h.modify prev fun p => { p with size := (p.size + c.size) % 2 ^ 64 }
    let h ← h.listDel cur
    let h ← h.kfree cur
    return (h, prev)
  else return (h, cur)

/-- The node `cur` is merged with the node after it, if that is free. -/
def mergeNext (h : NodeHeap) (cur prev next : Nat) : Except HeapError NodeHeap := do
  if (← h.read next).allocated = 0 ∧ prev ≠ next then do
    let c ← h.read cur
    let h ← h.modify next fun n => { n with size := (n.size + c.size) % 2 ^ 64, start := c.start }
    let h ← h.listDel cur
    h.kfree cur
  else return h

/-- A turn of the loop of `petmem_free_vspace` over the map: the heap and `num_pages_to_free`. -/
def freeTurn (page : Nat) (h : NodeHeap) (cur numPagesToFree : Nat) :
    Except HeapError (NodeHeap × Nat) := do
  let c ← h.read cur
  if c.start = page ∧ c.allocated = 1 then do
    let h ← h.modify cur fun d => { d with allocated := 0 }
    let (h, cur') ← mergePrev h cur c.prev
    let h ← mergeNext h cur' c.prev c.next
    return (h, c.size / pageSize)
  else return (h, numPagesToFree)

/-- The loop of `petmem_free_vspace` over the map, which is safe against the removal of `cur`. -/
def freeLoop (page map : Nat) : Nat → NodeHeap → Nat → Nat → Nat → Except HeapError (NodeHeap × Nat)
  | 0, _, _, _, _ => .error .endless
  | n + 1, h, cur, tmp, numPagesToFree =>
      if cur = map then .ok (h, numPagesToFree)
      else do
        let (h, numPagesToFree) ← freeTurn page h cur numPagesToFree
        freeLoop page map n h tmp (← h.read tmp).next numPagesToFree

/-- The first half of `petmem_free_vspace`: the heap and the number of pages that the walk is to
free. -/
def petmemFreeMap (map vaddr : Nat) (h : NodeHeap) : Except HeapError (NodeHeap × Nat) := do
  if ← vaddrInMap vaddr map h then do
    let cur := (← h.read map).next
    freeLoop (pageAddr vaddr) map h.live.length h cur (← h.read cur).next 0
  else return (h, 0)

/-! ## Writes -/

theorem ok_bind {ε α β : Type} (a : α) (f : α → Except ε β) : (Except.ok a >>= f) = f a := rfl

theorem bind_of_ok {ε α β : Type} {e : Except ε α} {a : α} (he : e = .ok a) (f : α → Except ε β) :
    (e >>= f) = f a := by rw [he, ok_bind]

/-- The fields of an object other than its links. -/
def ListNode.data (c : ListNode) : Int × Nat × Nat := (c.allocated, c.size, c.start)

namespace NodeHeap

variable {h : NodeHeap} {p : Nat}

def data (h : NodeHeap) (p : Nat) : Int × Nat × Nat := (h.cell p).data

/-- An object is overwritten. -/
def set (h : NodeHeap) (p : Nat) (c : ListNode) : NodeHeap :=
  { h with cell := Function.update h.cell p c }

theorem read_of_mem (hp : p ∈ h.live) : h.read p = .ok (h.cell p) := if_pos hp

theorem modify_of_mem (hp : p ∈ h.live) (f : ListNode → ListNode) :
    h.modify p f = .ok (h.set p (f (h.cell p))) := if_pos hp

theorem kfree_of_mem (hp : p ∈ h.live) :
    h.kfree p = .ok { h with live := h.live.erase p, kfreed := h.kfreed ++ [p] } := if_pos hp

@[simp]
theorem live_set (h : NodeHeap) (p : Nat) (c : ListNode) : (h.set p c).live = h.live := rfl

@[simp]
theorem kfreed_set (h : NodeHeap) (p : Nat) (c : ListNode) : (h.set p c).kfreed = h.kfreed := rfl

theorem cell_set_self (h : NodeHeap) (p : Nat) (c : ListNode) : (h.set p c).cell p = c :=
  Function.update_self _ _ _

theorem cell_set_of_ne {q : Nat} (hne : q ≠ p) (c : ListNode) : (h.set p c).cell q = h.cell q :=
  Function.update_of_ne hne _ _

theorem next_set (h : NodeHeap) (p : Nat) (c : ListNode) :
    (h.set p c).next = Function.update h.next p c.next := by
  funext q
  simp only [next, set, Function.update_apply]
  split
  · rfl
  · rfl

theorem prev_set (h : NodeHeap) (p : Nat) (c : ListNode) :
    (h.set p c).prev = Function.update h.prev p c.prev := by
  funext q
  simp only [prev, set, Function.update_apply]
  split
  · rfl
  · rfl

theorem data_set (h : NodeHeap) (p : Nat) (c : ListNode) :
    (h.set p c).data = Function.update h.data p c.data := by
  funext q
  simp only [data, set, Function.update_apply]
  split
  · rfl
  · rfl

/-- Only links are written. -/
theorem data_set_of_eq {c : ListNode} (hc : c.data = h.data p) : (h.set p c).data = h.data := by
  rw [data_set, hc, Function.update_eq_self]

/-- Only the other fields are written. -/
theorem next_set_of_eq {c : ListNode} (hc : c.next = h.next p) : (h.set p c).next = h.next := by
  rw [next_set, hc, Function.update_eq_self]

theorem prev_set_of_eq {c : ListNode} (hc : c.prev = h.prev p) : (h.set p c).prev = h.prev := by
  rw [prev_set, hc, Function.update_eq_self]

/-- Links are written, and nothing else. -/
structure Relinked (h h' : NodeHeap) (next prev : Nat → Nat) : Prop where
  live : h'.live = h.live
  kfreed : h'.kfreed = h.kfreed
  data : h'.data = h.data
  next : h'.next = next
  prev : h'.prev = prev

theorem Relinked.mem {h' : NodeHeap} {next prev : Nat → Nat} (hr : Relinked h h' next prev)
    (hp : p ∈ h.live) : p ∈ h'.live := hr.live ▸ hp

theorem Relinked.trans {h₁ h₂ : NodeHeap} {next₁ prev₁ next₂ prev₂ : Nat → Nat}
    (hr : Relinked h h₁ next₁ prev₁) (hr' : Relinked h₁ h₂ next₂ prev₂) :
    Relinked h h₂ next₂ prev₂ :=
  ⟨hr'.live.trans hr.live, hr'.kfreed.trans hr.kfreed, hr'.data.trans hr.data, hr'.next, hr'.prev⟩

theorem modify_next (hp : p ∈ h.live) (v : Nat) :
    ∃ h', h.modify p (fun c => { c with next := v }) = .ok h' ∧
      Relinked h h' (Function.update h.next p v) h.prev :=
  ⟨_, modify_of_mem hp _, rfl, rfl, data_set_of_eq rfl, next_set _ _ _, prev_set_of_eq rfl⟩

theorem modify_prev (hp : p ∈ h.live) (v : Nat) :
    ∃ h', h.modify p (fun c => { c with prev := v }) = .ok h' ∧
      Relinked h h' h.next (Function.update h.prev p v) :=
  ⟨_, modify_of_mem hp _, rfl, rfl, data_set_of_eq rfl, next_set_of_eq rfl, prev_set _ _ _⟩

theorem modify_links (hp : p ∈ h.live) (v w : Nat) :
    ∃ h', h.modify p (fun c => { c with next := v, prev := w }) = .ok h' ∧
      Relinked h h' (Function.update h.next p v) (Function.update h.prev p w) :=
  ⟨_, modify_of_mem hp _, rfl, rfl, data_set_of_eq rfl, next_set _ _ _, prev_set _ _ _⟩

/-- What `list_del` does to the links. -/
theorem listDel_spec {a b : Nat} (hp : p ∈ h.live) (ha : a ∈ h.live) (hb : b ∈ h.live)
    (hprev : h.prev p = a) (hnext : h.next p = b) : ∃ h', h.listDel p = .ok h' ∧
      Relinked h h' (Function.update (Function.update h.next a b) p 0x00100100)
        (Function.update (Function.update h.prev b a) p 0x00200200) := by
  replace hprev : (h.cell p).prev = a := hprev
  replace hnext : (h.cell p).next = b := hnext
  obtain ⟨h₁, he₁, hr₁⟩ := modify_prev hb a
  obtain ⟨h₂, he₂, hr₂⟩ := modify_next (hr₁.mem ha) b
  obtain ⟨h₃, he₃, hr₃⟩ := modify_links (hr₂.mem (hr₁.mem hp)) 0x00100100 0x00200200
  refine ⟨h₃, ?_, ?_⟩
  · rw [listDel, read_of_mem hp, ok_bind, hprev, hnext, he₁, ok_bind, he₂, ok_bind, he₃]
  · have hr := (hr₁.trans hr₂).trans hr₃
    rwa [hr₂.next, hr₂.prev, hr₁.next, hr₁.prev] at hr

/-- What `list_add` does to the links. -/
theorem listAdd_spec {new b : Nat} (hp : p ∈ h.live) (hnew : new ∈ h.live) (hb : b ∈ h.live)
    (hnext : h.next p = b) : ∃ h', h.listAdd new p = .ok h' ∧
      Relinked h h' (Function.update (Function.update h.next new b) p new)
        (Function.update (Function.update h.prev b new) new p) := by
  replace hnext : (h.cell p).next = b := hnext
  obtain ⟨h₁, he₁, hr₁⟩ := modify_prev hb new
  obtain ⟨h₂, he₂, hr₂⟩ := modify_next (hr₁.mem hnew) b
  obtain ⟨h₃, he₃, hr₃⟩ := modify_prev (hr₂.mem (hr₁.mem hnew)) p
  obtain ⟨h₄, he₄, hr₄⟩ := modify_next (hr₃.mem (hr₂.mem (hr₁.mem hp))) new
  refine ⟨h₄, ?_, ?_⟩
  · rw [listAdd, read_of_mem hp, ok_bind]
    dsimp only
    rw [hnext, he₁, ok_bind, he₂, ok_bind, he₃, ok_bind, he₄]
  · have hr := ((hr₁.trans hr₂).trans hr₃).trans hr₄
    rwa [hr₃.next, hr₃.prev, hr₂.next, hr₂.prev, hr₁.next, hr₁.prev] at hr

/-- Writes to two objects, one of them new, commute. -/
theorem set_kmalloc {new : Nat} (hne : p ≠ new) (c d : ListNode) :
    ((h.kmalloc new).set new d).set p c = ((h.set p c).kmalloc new).set new d := by
  simp only [set, kmalloc, Function.update_comm hne]

end NodeHeap

/-! ## Heaps that hold a map -/

/-- The node of a map that an object stands for. -/
def ListNode.node (c : ListNode) : MapNode := ⟨decide (c.allocated = 1), c.size, c.start⟩

/-- The map whose nodes are at the given addresses. -/
def NodeHeap.nodes (h : NodeHeap) (ptrs : List Nat) : MemMap := ptrs.map fun p => (h.cell p).node

/-- The heap holds a ring of nodes with the head `map`, and nothing else. -/
structure IsMap (h : NodeHeap) (map : Nat) (ptrs : List Nat) : Prop where
  ring : Ring h.next h.prev map ptrs
  live : h.live.Perm (map :: ptrs)
  head : (h.cell map).allocated = -1
  flags : ∀ p ∈ ptrs, (h.cell p).allocated = 0 ∨ (h.cell p).allocated = 1

/-- A node is made of the fields other than the links. -/
theorem node_of_data {c d : ListNode} (hdata : c.data = d.data) : c.node = d.node := by
  simp only [ListNode.data, Prod.mk.injEq] at hdata
  simp only [ListNode.node, hdata]

theorem nodes_congr {h h' : NodeHeap} {ptrs : List Nat} (hdata : ∀ p ∈ ptrs, h'.data p = h.data p) :
    h'.nodes ptrs = h.nodes ptrs := by
  exact List.map_congr_left fun p hp => node_of_data (hdata p hp)

/-- The flag of a node is cleared. -/
def NodeHeap.clear (h : NodeHeap) (p : Nat) : NodeHeap := h.set p { h.cell p with allocated := 0 }

theorem nodes_append (h : NodeHeap) (as bs : List Nat) :
    h.nodes (as ++ bs) = h.nodes as ++ h.nodes bs := List.map_append

theorem nodes_cons (h : NodeHeap) (p : Nat) (ptrs : List Nat) :
    h.nodes (p :: ptrs) = (h.cell p).node :: h.nodes ptrs := rfl

namespace IsMap

variable {h : NodeHeap} {map x : Nat} {ptrs rs bs : List Nat}

theorem mem_live (hm : IsMap h map ptrs) {p : Nat} : p ∈ h.live ↔ p ∈ map :: ptrs := hm.live.mem_iff

theorem head_mem (hm : IsMap h map ptrs) : map ∈ h.live := hm.mem_live.2 List.mem_cons_self

theorem node_mem (hm : IsMap h map ptrs) {p : Nat} (hp : p ∈ ptrs) : p ∈ h.live :=
  hm.mem_live.2 (List.mem_cons_of_mem map hp)

theorem head_notMem (hm : IsMap h map ptrs) : map ∉ ptrs := (List.nodup_cons.1 hm.ring.nodup).1

/-- There are enough turns for all the nodes. -/
theorem length_lt (hm : IsMap h map ptrs) : ptrs.length < h.live.length := by
  rw [hm.live.length_eq]
  exact Nat.lt_succ_self _

/-- The neighbour before a place is the head or a node. -/
theorem before_mem (hm : IsMap h map (rs.reverse ++ bs)) : rs.headD map ∈ h.live := by
  cases rs with
  | nil => exact hm.head_mem
  | cons r rs => exact hm.node_mem (by simp)

theorem after_mem (hm : IsMap h map (rs.reverse ++ bs)) : bs.headD map ∈ h.live := by
  cases bs with
  | nil => exact hm.head_mem
  | cons b bs => exact hm.node_mem (by simp)

/-- The place after a node. -/
theorem zipper_cons (rs bs : List Nat) (x : Nat) :
    rs.reverse ++ x :: bs = (x :: rs).reverse ++ bs := by
  rw [List.reverse_cons, List.append_assoc, List.singleton_append]

theorem mem_zipper (rs bs : List Nat) (x : Nat) : x ∈ rs.reverse ++ x :: bs :=
  List.mem_append_right _ List.mem_cons_self

theorem mem_of_mem_sides {p : Nat} (hp : p ∈ rs.reverse ++ bs) : p ∈ rs.reverse ++ x :: bs := by
  rw [List.mem_append] at hp ⊢
  exact hp.imp_right (List.mem_cons_of_mem x)

/-- No node stands in the ring twice. -/
theorem ne_of_mem (hm : IsMap h map (rs.reverse ++ x :: bs)) {p : Nat} (hp : p ∈ rs.reverse ++ bs) :
    p ≠ x := by
  have hnodup := (List.nodup_cons.1 hm.ring.nodup).2
  rintro rfl
  exact (List.nodup_cons.1 (List.nodup_middle.1 hnodup)).1 hp

/-- The neighbour before a node does not come after it. -/
theorem before_notMem (hm : IsMap h map (rs.reverse ++ x :: bs)) : rs.headD map ∉ bs := by
  intro hmem
  cases rs with
  | nil => exact hm.head_notMem (List.mem_cons_of_mem x hmem)
  | cons r rs =>
      rw [List.reverse_cons, List.append_assoc, List.singleton_append] at hm
      exact hm.ne_of_mem (List.mem_append_right _ (List.mem_cons_of_mem x hmem)) rfl

theorem next_mem (hm : IsMap h map (rs.reverse ++ x :: bs)) : bs.headD map ∈ h.live := by
  rw [zipper_cons] at hm
  exact hm.after_mem

/-- The fields of a node are written, but not its links. -/
theorem set (hm : IsMap h map ptrs) {p : Nat} (hp : p ∈ ptrs) {c : ListNode}
    (hnext : c.next = h.next p) (hprev : c.prev = h.prev p)
    (hflag : c.allocated = 0 ∨ c.allocated = 1) : IsMap (h.set p c) map ptrs := by
  have hne : map ≠ p := fun heq => hm.head_notMem (heq ▸ hp)
  refine ⟨?_, hm.live, ?_, fun q hq => ?_⟩
  · rw [NodeHeap.next_set_of_eq hnext, NodeHeap.prev_set_of_eq hprev]
    exact hm.ring
  · rw [NodeHeap.cell_set_of_ne hne]
    exact hm.head
  · rcases eq_or_ne q p with rfl | hqp
    · rw [NodeHeap.cell_set_self]
      exact hflag
    · rw [NodeHeap.cell_set_of_ne hqp]
      exact hm.flags q hq

/-- A heap with the same objects apart from their links. -/
theorem of_data {h' : NodeHeap} {ptrs' : List Nat} (hm : IsMap h map ptrs)
    (hring : Ring h'.next h'.prev map ptrs') (hlive : h'.live.Perm (map :: ptrs'))
    (hdata : ∀ p ∈ map :: ptrs', h'.data p = h.data p) (hsub : ∀ p ∈ ptrs', p ∈ ptrs) :
    IsMap h' map ptrs' := by
  have hflag : ∀ p ∈ map :: ptrs', (h'.cell p).allocated = (h.cell p).allocated := fun p hp =>
    congrArg Prod.fst (hdata p hp)
  refine ⟨hring, hlive, ?_, fun p hp => ?_⟩
  · rw [hflag map List.mem_cons_self]
    exact hm.head
  · rw [hflag p (List.mem_cons_of_mem map hp)]
    exact hm.flags p (hsub p hp)

/-- A node is unlinked and passed to `kfree`. -/
theorem unlink (hm : IsMap h map (rs.reverse ++ x :: bs)) : ∃ h₁ h₂, h.listDel x = .ok h₁ ∧
    h₁.kfree x = .ok h₂ ∧ IsMap h₂ map (rs.reverse ++ bs) ∧ (∀ p, p ≠ x → h₂.data p = h.data p) ∧
    h₂.kfreed = h.kfreed ++ [x] := by
  have hx : x ∈ h.live := hm.node_mem (mem_zipper rs bs x)
  have hnext : h.next x = bs.headD map := hm.ring.next_eq
  have hprev : h.prev x = rs.headD map := hm.ring.prev_eq
  have hbefore : rs.headD map ∈ h.live := hm.before_mem
  obtain ⟨h₁, hdel, hr⟩ := NodeHeap.listDel_spec hx hbefore hm.next_mem hprev hnext
  have hfree := NodeHeap.kfree_of_mem (hr.mem hx)
  have hnodup : (map :: rs.reverse ++ x :: bs).Nodup := hm.ring.nodup
  have hout : x ∉ map :: (rs.reverse ++ bs) := (List.nodup_cons.1 (List.nodup_middle.1 hnodup)).1
  have hne : ∀ p ∈ map :: (rs.reverse ++ bs), p ≠ x := fun p hp heq => hout (heq ▸ hp)
  refine ⟨h₁, _, hdel, hfree, hm.of_data ?_ ?_ (fun p _ => congrFun hr.data p) ?_,
    fun p _ => congrFun hr.data p, by rw [hr.kfreed]⟩
  · -- the poisoned links are outside of the ring
    refine hm.ring.remove.congr (fun p hp => ?_) fun p hp => ?_
    · exact (congrFun hr.next p).trans (Function.update_of_ne (hne p hp) _ _)
    · exact (congrFun hr.prev p).trans (Function.update_of_ne (hne p hp) _ _)
  · show (h₁.live.erase x).Perm _
    rw [hr.live]
    have hperm : h.live.Perm (map :: rs.reverse ++ x :: bs) := hm.live
    have herase := (hperm.trans List.perm_middle).erase x
    rwa [List.erase_cons_head] at herase
  · exact fun p hp => mem_of_mem_sides hp

/-- The flag of a node says whether the node is allocated. -/
theorem allocated_iff (hm : IsMap h map ptrs) {p : Nat} (hp : p ∈ ptrs) :
    (h.cell p).allocated = 0 ↔ (h.cell p).node.allocated = false := by
  rw [ListNode.node, decide_eq_false_iff_not]
  rcases hm.flags p hp with hflag | hflag
  · simp [hflag]
  · simp [hflag]

/-! ## Allocation -/

theorem vaddrInMapLoop {vaddr : Nat} (hm : IsMap h map (rs.reverse ++ bs)) {n : Nat}
    (hn : bs.length < n) : vaddrInMapLoop vaddr map h n (bs.headD map) =
      .ok (VirtualMemory.vaddrInMap vaddr (h.nodes bs)) := by
  induction bs generalizing rs n with
  | nil =>
      obtain ⟨n, rfl⟩ := Nat.exists_eq_add_of_lt hn
      exact if_pos rfl
  | cons x bs ih =>
      obtain ⟨n, rfl⟩ := Nat.exists_eq_succ_of_ne_zero (Nat.ne_zero_of_lt hn)
      have hx : x ≠ map := fun heq => hm.head_notMem (heq ▸ mem_zipper rs bs x)
      have hnext : (h.cell x).next = bs.headD map := hm.ring.next_eq
      rw [Nodes.vaddrInMapLoop, List.headD_cons, if_neg hx,
        NodeHeap.read_of_mem (hm.node_mem (mem_zipper rs bs x)), ok_bind, hnext]
      rw [zipper_cons] at hm
      rw [ih hm (Nat.lt_of_succ_lt_succ hn), ← apply_ite Except.ok]
      congr 1
      simp only [VirtualMemory.vaddrInMap, NodeHeap.nodes, List.map_cons, List.any_cons,
        ListNode.node, ← Bool.decide_and, and_assoc]
      split
      next hin => rw [decide_eq_true hin, Bool.true_or]
      next hout => rw [decide_eq_false hout, Bool.false_or]

/-- The lookup on the heap is the lookup in the list of the nodes. -/
theorem vaddrInMap {vaddr : Nat} (hm : IsMap h map ptrs) :
    Nodes.vaddrInMap vaddr map h = .ok (VirtualMemory.vaddrInMap vaddr (h.nodes ptrs)) := by
  rw [Nodes.vaddrInMap, NodeHeap.read_of_mem hm.head_mem, ok_bind]
  have hnext : (h.cell map).next = ptrs.headD map := hm.ring.next_head
  rw [hnext]
  have hzipper : IsMap h map ([].reverse ++ ptrs) := hm
  exact hzipper.vaddrInMapLoop hm.length_lt

/-- A new node is put in. -/
theorem insert {new : Nat} {d : ListNode} (hm : IsMap h map (rs.reverse ++ bs))
    (hnew : new ∉ h.live) (hd : d.allocated = 0 ∨ d.allocated = 1) :
    ∃ h', ((h.kmalloc new).set new d).listAdd new (rs.headD map) = .ok h' ∧
      IsMap h' map (rs.reverse ++ new :: bs) ∧ h'.data = Function.update h.data new d.data := by
  have hout : new ∉ map :: (rs.reverse ++ bs) := by
    rw [← hm.mem_live]
    exact hnew
  have hne : ∀ p ∈ map :: (rs.reverse ++ bs), p ≠ new := fun p hp heq => hout (heq ▸ hp)
  have hnext : ((h.kmalloc new).set new d).next = Function.update h.next new d.next :=
    NodeHeap.next_set _ _ _
  have hprev : ((h.kmalloc new).set new d).prev = Function.update h.prev new d.prev :=
    NodeHeap.prev_set _ _ _
  have hbefore : rs.headD map ≠ new := fun heq => hnew (heq ▸ hm.before_mem)
  obtain ⟨h', hadd, hr⟩ := NodeHeap.listAdd_spec (h := (h.kmalloc new).set new d)
    (List.mem_cons_of_mem new hm.before_mem) List.mem_cons_self
    (List.mem_cons_of_mem new hm.after_mem)
    (by rw [hnext, Function.update_of_ne hbefore]; exact hm.ring.next_place)
  have hdata : h'.data = Function.update h.data new d.data :=
    hr.data.trans (NodeHeap.data_set _ _ _)
  have hold : ∀ p ∈ map :: (rs.reverse ++ bs), (h'.cell p).allocated = (h.cell p).allocated := by
    intro p hp
    have hdata' := congrFun hdata p
    rw [Function.update_of_ne (hne p hp)] at hdata'
    exact congrArg Prod.fst hdata'
  refine ⟨h', hadd, ⟨?_, ?_, ?_, fun p hp => ?_⟩, hdata⟩
  · -- the links that the new node had before do not matter
    have hring : Ring ((h.kmalloc new).set new d).next ((h.kmalloc new).set new d).prev map
        (rs.reverse ++ bs) := by
      refine hm.ring.congr (fun p hp => ?_) fun p hp => ?_
      · rw [hnext, Function.update_of_ne (hne p hp)]
      · rw [hprev, Function.update_of_ne (hne p hp)]
    rw [hr.next, hr.prev, Function.update_comm (Ne.symm hbefore)]
    exact hring.insert hout
  · rw [hr.live]
    have hperm : (new :: h.live).Perm (new :: (map :: rs.reverse ++ bs)) := hm.live.cons new
    exact hperm.trans List.perm_middle.symm
  · rw [hold map List.mem_cons_self]
    exact hm.head
  · rcases eq_or_ne p new with rfl | hpnew
    · have hself := congrFun hdata p
      rw [Function.update_self] at hself
      have hflag : (h'.cell p).allocated = d.allocated := congrArg Prod.fst hself
      rw [hflag]
      exact hd
    · have hmem : p ∈ rs.reverse ++ bs := by
        rw [List.mem_append, List.mem_cons] at hp
        rw [List.mem_append]
        exact hp.imp_right (Or.resolve_left · hpnew)
      rw [hold p (List.mem_cons_of_mem map hmem)]
      exact hm.flags p hmem

/-- A node is split, and the second part is put in after it. -/
theorem split {new : Nat} {c d : ListNode} (hm : IsMap h map (rs.reverse ++ x :: bs))
    (hnew : new ∉ h.live) (hcnext : c.next = h.next x) (hcprev : c.prev = h.prev x)
    (hc : c.allocated = 0 ∨ c.allocated = 1) (hd : d.allocated = 0 ∨ d.allocated = 1) :
    ∃ h', (((h.kmalloc new).set new d).set x c).listAdd new x = .ok h' ∧
      IsMap h' map (rs.reverse ++ x :: new :: bs) ∧ h'.data x = c.data ∧ h'.data new = d.data ∧
      ∀ p, p ≠ x → p ≠ new → h'.data p = h.data p := by
  have hx := mem_zipper rs bs x
  have hxnew : x ≠ new := fun heq => hnew (heq ▸ hm.node_mem hx)
  have hset := hm.set hx hcnext hcprev hc
  rw [zipper_cons] at hset
  obtain ⟨h', hadd, hm', hdata⟩ := hset.insert hnew hd
  rw [← zipper_cons] at hm'
  rw [NodeHeap.data_set] at hdata
  refine ⟨h', ?_, hm', ?_, ?_, fun p hpx hpnew => ?_⟩
  · rw [NodeHeap.set_kmalloc hxnew]
    exact hadd
  · rw [hdata, Function.update_of_ne hxnew, Function.update_self]
  · rw [hdata, Function.update_self]
  · rw [hdata, Function.update_of_ne hpnew, Function.update_of_ne hpx]

theorem allocLoop {reqSize new : Nat} (hm : IsMap h map (rs.reverse ++ bs)) (hnew : new ∉ h.live)
    {n : Nat} (hn : bs.length < n) {r : Nat × MemMap}
    (hr : r = (allocIn reqSize (h.nodes bs)).getD (2 ^ 64 - 1, h.nodes bs)) : ∃ h' ptrs',
      allocLoop reqSize map new h n (bs.headD map) = .ok (r.1, h') ∧ IsMap h' map ptrs' ∧
      h'.nodes ptrs' = h.nodes rs.reverse ++ r.2 := by
  induction bs generalizing rs n r with
  | nil =>
      obtain ⟨n, rfl⟩ := Nat.exists_eq_succ_of_ne_zero (Nat.ne_zero_of_lt hn)
      subst hr
      exact ⟨h, _, if_pos rfl, hm, List.map_append⟩
  | cons x bs ih =>
      obtain ⟨n, rfl⟩ := Nat.exists_eq_succ_of_ne_zero (Nat.ne_zero_of_lt hn)
      have hmem := mem_zipper rs bs x
      have hlive := hm.node_mem hmem
      have hx : x ≠ map := fun heq => hm.head_notMem (heq ▸ hmem)
      have hnext : (h.cell x).next = bs.headD map := hm.ring.next_eq
      have hflag := hm.allocated_iff hmem
      rw [Nodes.allocLoop, List.headD_cons, if_neg hx, NodeHeap.read_of_mem hlive, ok_bind]
      rw [nodes_cons, allocIn] at hr
      split
      next hfit =>
        rw [if_pos ⟨hflag.1 hfit.1, hfit.2⟩] at hr
        subst hr
        have hxnew : x ≠ new := fun heq => hnew (heq ▸ hlive)
        rw [NodeHeap.modify_of_mem List.mem_cons_self, ok_bind,
          NodeHeap.modify_of_mem (List.mem_cons_of_mem new hlive), ok_bind,
          NodeHeap.cell_set_of_ne hxnew]
        obtain ⟨h', hadd, hm', hdx, hdnew, hold⟩ := hm.split hnew
          (c := ⟨1, reqSize, (h.cell x).start, (h.cell x).next, (h.cell x).prev⟩)
          (d := ⟨0, (h.cell x).size - reqSize, ((h.cell x).start + reqSize) % 2 ^ 64,
            (h.cell new).next, (h.cell new).prev⟩) rfl rfl (Or.inr rfl) (Or.inl rfl)
        refine ⟨h', _, ?_, hm', ?_⟩
        · have hstart : (h'.cell x).start = (h.cell x).start := congrArg (fun d => d.2.2) hdx
          refine (bind_of_ok hadd _).trans ?_
          rw [NodeHeap.read_of_mem (hm'.node_mem (mem_zipper rs _ x)), ok_bind, hstart]
          rfl
        · have hsides : ∀ p ∈ rs.reverse ++ bs, h'.data p = h.data p := fun p hp =>
            hold p (hm.ne_of_mem hp) fun heq => hnew (heq ▸ hm.node_mem (mem_of_mem_sides hp))
          rw [nodes_append, nodes_cons, nodes_cons, node_of_data hdx, node_of_data hdnew,
            nodes_congr fun p hp => hsides p (List.mem_append_left bs hp),
            nodes_congr fun p hp => hsides p (List.mem_append_right _ hp)]
          rfl
      next hskip =>
        rw [if_neg fun hfit => hskip ⟨hflag.2 hfit.1, hfit.2⟩] at hr
        rw [hnext]
        rw [zipper_cons] at hm
        obtain ⟨h', ptrs', heq, hm', hmap⟩ := ih hm (Nat.lt_of_succ_lt_succ hn) rfl
        refine ⟨h', ptrs', ?_, hm', ?_⟩
        · rw [heq, hr]
          cases allocIn reqSize (h.nodes bs) with
          | none => rfl
          | some r => rfl
        · rw [hmap, hr, List.reverse_cons, nodes_append, List.append_assoc]
          cases allocIn reqSize (h.nodes bs) with
          | none => rfl
          | some r => rfl

/-- The allocation on the heap is the allocation in the list of the nodes. -/
theorem petmemAllocVspace {new : Nat} (hm : IsMap h map ptrs) (hnew : new ∉ h.live)
    (numPages : Nat) : ∃ h' ptrs', Nodes.petmemAllocVspace map numPages new h =
        .ok ((VirtualMemory.petmemAllocVspace (h.nodes ptrs) numPages).1, h') ∧
      IsMap h' map ptrs' ∧
      h'.nodes ptrs' = (VirtualMemory.petmemAllocVspace (h.nodes ptrs) numPages).2 := by
  have hnext : (h.cell map).next = ptrs.headD map := hm.ring.next_head
  have hzipper : IsMap h map ([].reverse ++ ptrs) := hm
  rw [Nodes.petmemAllocVspace, NodeHeap.read_of_mem hm.head_mem, ok_bind, hnext]
  exact hzipper.allocLoop hnew hm.length_lt rfl

/-! ## Freeing -/

/-- A node takes over the place of a neighbour, which is unlinked and passed to `kfree`. -/
theorem absorb {y : Nat} {c : ListNode} (hm : IsMap h map (rs.reverse ++ x :: bs))
    (hy : y ∈ rs.reverse ++ bs) (hnext : c.next = h.next y) (hprev : c.prev = h.prev y)
    (hflag : c.allocated = 0) : ∃ h₁ h₂, (h.set y c).listDel x = .ok h₁ ∧ h₁.kfree x = .ok h₂ ∧
      IsMap h₂ map (rs.reverse ++ bs) ∧ h₂.data y = c.data ∧
      ∀ p, p ≠ x → p ≠ y → h₂.data p = h.data p := by
  obtain ⟨h₁, h₂, hdel, hfree, hm', hdata, -⟩ :=
    (hm.set (mem_of_mem_sides hy) hnext hprev (Or.inl hflag)).unlink
  refine ⟨h₁, h₂, hdel, hfree, hm', ?_, fun p hpx hpy => ?_⟩
  · rw [hdata y (hm.ne_of_mem hy), NodeHeap.data_set, Function.update_self]
  · rw [hdata p hpx, NodeHeap.data_set, Function.update_of_ne hpy]

theorem mergePrev (hm : IsMap h map (rs.reverse ++ x :: bs)) (hflag : (h.cell x).allocated = 0) :
    ∃ h' y rs', Nodes.mergePrev h x (rs.headD map) = .ok (h', y) ∧
      IsMap h' map (rs'.reverse ++ y :: bs) ∧ (h'.cell y).allocated = 0 ∧
      absorbPrev (h.nodes rs) (h.cell x).node = (h'.nodes rs', (h'.cell y).node) ∧
      h'.nodes bs = h.nodes bs ∧ (y :: rs' = rs ∨
        h' = h ∧ y = x ∧ rs' = rs ∧ ∀ p ∈ rs.head?, (h.cell p).allocated ≠ 0) := by
  rw [Nodes.mergePrev, NodeHeap.read_of_mem hm.before_mem, ok_bind]
  cases rs with
  | nil =>
      -- the head of the list is not free
      have hhead : (h.cell map).allocated ≠ 0 := by
        rw [hm.head]
        decide
      exact ⟨h, x, [], if_neg hhead, hm, hflag, rfl, rfl,
        Or.inr ⟨rfl, rfl, rfl, fun p hp => absurd hp (by simp)⟩⟩
  | cons y rs =>
      have hy : y ∈ (y :: rs).reverse ++ bs := by simp
      have hylive := hm.node_mem (mem_of_mem_sides hy)
      have hyx := hm.ne_of_mem hy
      rw [List.headD_cons, nodes_cons, absorbPrev]
      split
      next hfree =>
        rw [if_pos ((hm.allocated_iff (mem_of_mem_sides hy)).1 hfree),
          NodeHeap.read_of_mem (hm.node_mem (mem_zipper _ bs x)), ok_bind,
          NodeHeap.modify_of_mem hylive, ok_bind]
        obtain ⟨h₁, h₂, hdel, hkfree, hm', hdy, hdata⟩ := hm.absorb hy
          (c := { h.cell y with size := ((h.cell y).size + (h.cell x).size) % 2 ^ 64 }) rfl
          rfl hfree
        rw [← zipper_cons] at hm'
        have hsides : ∀ p ∈ rs.reverse ++ bs, h₂.data p = h.data p := fun p hp =>
          hdata p (hm.ne_of_mem (by rw [← zipper_cons]; exact mem_of_mem_sides hp))
            (hm'.ne_of_mem hp)
        refine ⟨h₂, y, rs, (bind_of_ok hdel _).trans (bind_of_ok hkfree _), hm',
          (congrArg Prod.fst hdy).trans hfree, ?_, ?_, Or.inl rfl⟩
        · have hrs : h₂.nodes rs = h.nodes rs :=
            nodes_congr fun p hp => hsides p (List.mem_append_left bs (List.mem_reverse.2 hp))
          rw [hrs, node_of_data hdy]
          rfl
        · exact nodes_congr fun p hp => hsides p (List.mem_append_right _ hp)
      next hused =>
        rw [if_neg fun hfree => hused ((hm.allocated_iff (mem_of_mem_sides hy)).2 hfree)]
        refine ⟨h, x, y :: rs, rfl, hm, hflag, rfl, rfl, Or.inr ⟨rfl, rfl, rfl, fun p hp => ?_⟩⟩
        cases hp
        exact hused

theorem mergeNext {prev : Nat} (hm : IsMap h map (rs.reverse ++ x :: bs))
    (hflag : (h.cell x).allocated = 0) (hprev : prev ∉ bs) :
    ∃ h' z bs', Nodes.mergeNext h x prev (bs.headD map) = .ok h' ∧
      IsMap h' map (rs.reverse ++ z :: bs') ∧ (h'.cell z).allocated = 0 ∧
      absorbNext (h.cell x).node (h.nodes bs) = ((h'.cell z).node, h'.nodes bs') ∧
      h'.nodes rs = h.nodes rs ∧ (z :: bs' = bs ∨
        h' = h ∧ z = x ∧ bs' = bs ∧ ∀ p ∈ bs.head?, (h.cell p).allocated ≠ 0) := by
  have hafter := hm.next_mem
  rw [Nodes.mergeNext, NodeHeap.read_of_mem hafter, ok_bind]
  cases bs with
  | nil =>
      have hhead : ¬ ((h.cell map).allocated = 0 ∧ prev ≠ map) := by
        rw [hm.head]
        exact fun hfree => absurd hfree.1 (by decide)
      exact ⟨h, x, [], if_neg hhead, hm, hflag, rfl, rfl,
        Or.inr ⟨rfl, rfl, rfl, fun p hp => absurd hp (by simp)⟩⟩
  | cons z bs =>
      have hz : z ∈ rs.reverse ++ z :: bs := mem_zipper rs bs z
      have hne : prev ≠ z := (List.ne_and_not_mem_of_not_mem_cons hprev).1
      rw [List.headD_cons] at hafter ⊢
      rw [nodes_cons, absorbNext]
      split
      next hfree =>
        rw [if_pos ((hm.allocated_iff (mem_of_mem_sides hz)).1 hfree.1),
          NodeHeap.read_of_mem (hm.node_mem (mem_zipper rs _ x)), ok_bind,
          NodeHeap.modify_of_mem hafter, ok_bind]
        obtain ⟨h₁, h₂, hdel, hkfree, hm', hdz, hdata⟩ := hm.absorb hz (c := { h.cell z with
          size := ((h.cell z).size + (h.cell x).size) % 2 ^ 64
          start := (h.cell x).start }) rfl rfl hfree.1
        have hsides : ∀ p ∈ rs.reverse ++ bs, h₂.data p = h.data p := fun p hp =>
          hdata p (hm.ne_of_mem (mem_of_mem_sides hp)) (hm'.ne_of_mem hp)
        have hflag' : (h₂.cell z).allocated = 0 := (congrArg Prod.fst hdz).trans hfree.1
        refine ⟨h₂, z, bs, (bind_of_ok hdel _).trans hkfree, hm', hflag', ?_, ?_, Or.inl rfl⟩
        · have hbs : h₂.nodes bs = h.nodes bs :=
            nodes_congr fun p hp => hsides p (List.mem_append_right _ hp)
          rw [hbs, node_of_data hdz]
          simp only [ListNode.node, hfree.1]
          rfl
        · exact nodes_congr fun p hp => hsides p (List.mem_append_left bs (List.mem_reverse.2 hp))
      next hused =>
        rw [if_neg fun hfree => hused ⟨(hm.allocated_iff (mem_of_mem_sides hz)).2 hfree, hne⟩]
        refine ⟨h, x, z :: bs, rfl, hm, hflag, rfl, rfl, Or.inr ⟨rfl, rfl, rfl, fun p hp => ?_⟩⟩
        cases hp
        exact fun hfree => hused ⟨hfree, hne⟩

/-- A turn at another node changes nothing. -/
theorem freeTurn_pass {page n : Nat} (hx : x ∈ h.live)
    (hpass : ¬ ((h.cell x).start = page ∧ (h.cell x).allocated = 1)) :
    freeTurn page h x n = .ok (h, n) := by
  rw [freeTurn, NodeHeap.read_of_mem hx, ok_bind, if_neg hpass]
  rfl

/-- A node is released. -/
theorem clear (hm : IsMap h map ptrs) (hx : x ∈ ptrs) : IsMap (h.clear x) map ptrs :=
  hm.set hx rfl rfl (Or.inl rfl)

theorem cell_clear {p : Nat} (hne : p ≠ x) : (h.clear x).cell p = h.cell p :=
  NodeHeap.cell_set_of_ne hne _

theorem nodes_clear (hx : x ∉ ptrs) : (h.clear x).nodes ptrs = h.nodes ptrs := by
  refine nodes_congr fun p hp => ?_
  have hne : p ≠ x := fun heq => hx (heq ▸ hp)
  rw [NodeHeap.clear, NodeHeap.data_set, Function.update_of_ne hne]

theorem node_clear (h : NodeHeap) (x : Nat) :
    ((h.clear x).cell x).node = { (h.cell x).node with allocated := false } := by
  rw [NodeHeap.clear, NodeHeap.cell_set_self]
  rfl

/-- A turn at a node to be released. The node after it is still there at the end of the turn; the
node itself stays if no neighbour is free. -/
theorem freeTurn_release {page n : Nat} (hm : IsMap h map (rs.reverse ++ x :: bs))
    (hmatch : (h.cell x).start = page ∧ (h.cell x).allocated = 1) :
    ∃ h' n' rs', freeTurn page h x n = .ok (h', n') ∧ IsMap h' map (rs'.reverse ++ bs) ∧
      freeNodes page (h.nodes rs) n (h.nodes (x :: bs)) =
        freeNodes page (h'.nodes rs') n' (h'.nodes bs) ∧
      (∀ p ∈ rs', p ∈ x :: rs) ∧
      (x ∈ rs' → h' = h.clear x ∧
        (∀ p ∈ rs.head?, (h.cell p).allocated ≠ 0) ∧ ∀ p ∈ bs.head?, (h.cell p).allocated ≠ 0) := by
  have hmem := mem_zipper rs bs x
  have hlive := hm.node_mem hmem
  have hprev : (h.cell x).prev = rs.headD map := hm.ring.prev_eq
  have hnext : (h.cell x).next = bs.headD map := hm.ring.next_eq
  have hrs : x ∉ rs := fun hx =>
    hm.ne_of_mem (List.mem_append_left bs (List.mem_reverse.2 hx)) rfl
  have hbs : x ∉ bs := fun hx => hm.ne_of_mem (List.mem_append_right _ hx) rfl
  obtain ⟨h₁, y, rs₁, he₁, hm₁, hflag₁, habs₁, hbs₁, hstay₁⟩ := (hm.clear hmem).mergePrev
    (congrArg ListNode.allocated (NodeHeap.cell_set_self _ _ _))
  obtain ⟨h₂, z, bs₂, he₂, hm₂, hflag₂, habs₂, hrs₂, hstay₂⟩ :=
    hm₁.mergeNext hflag₁ hm.before_notMem
  have heq : freeTurn page h x n = .ok (h₂, (h.cell x).size / pageSize) := by
    rw [← hprev] at he₁ he₂
    rw [← hnext] at he₂
    rw [freeTurn, NodeHeap.read_of_mem hlive, ok_bind, if_pos hmatch, NodeHeap.modify_of_mem hlive,
      ok_bind]
    exact (bind_of_ok he₁ _).trans (bind_of_ok he₂ _)
  have hnodes : freeNodes page (h.nodes rs) n (h.nodes (x :: bs)) =
      freeNodes page (h₂.nodes (z :: rs₁)) ((h.cell x).size / pageSize) (h₂.nodes bs₂) := by
    rw [nodes_clear hrs, node_clear] at habs₁
    rw [nodes_cons, freeNodes_cons, if_pos ⟨hmatch.1, decide_eq_true hmatch.2⟩, habs₁]
    dsimp only
    rw [← nodes_clear hbs, ← hbs₁, habs₂, nodes_cons, hrs₂]
    rfl
  have hsub : ∀ p ∈ rs₁, p ∈ rs := by
    rcases hstay₁ with rfl | ⟨-, -, rfl, -⟩
    · exact fun p hp => List.mem_cons_of_mem y hp
    · exact fun p hp => hp
  refine ⟨h₂, (h.cell x).size / pageSize, ?_⟩
  rcases hstay₂ with rfl | ⟨rfl, rfl, rfl, hused⟩
  · -- the node that is left is the next one, whose turn is still to come
    refine ⟨rs₁, heq, hm₂, ?_, fun p hp => List.mem_cons_of_mem x (hsub p hp), fun hx =>
      absurd (hsub x hx) hrs⟩
    rw [hnodes, nodes_cons h₂ z bs₂, freeNodes_cons, if_neg, nodes_cons]
    rw [(hm₂.allocated_iff (mem_zipper rs₁ bs₂ z)).1 hflag₂]
    exact fun hmatch => absurd hmatch.2 Bool.false_ne_true
  · rw [zipper_cons] at hm₂
    refine ⟨z :: rs₁, heq, hm₂, hnodes, ?_, ?_⟩
    · rcases hstay₁ with rfl | ⟨-, rfl, rfl, -⟩
      · exact fun p hp => List.mem_cons_of_mem x hp
      · exact fun p hp => hp
    · rcases hstay₁ with rfl | ⟨rfl, rfl, rfl, hused'⟩
      · exact fun hx => absurd hx hrs
      · refine fun _ => ⟨rfl, fun p hp => ?_, fun p hp => ?_⟩
        · have hne : p ≠ z := fun heq => hrs (heq ▸ List.mem_of_mem_head? hp)
          rw [← cell_clear hne]
          exact hused' p hp
        · have hne : p ≠ z := fun heq => hbs (heq ▸ List.mem_of_mem_head? hp)
          rw [← cell_clear hne]
          exact hused p hp

/-- A turn of the loop on the heap is a turn of the loop over the list of the nodes. -/
theorem freeTurn (hm : IsMap h map (rs.reverse ++ x :: bs)) (page n : Nat) :
    ∃ h' n' rs', freeTurn page h x n = .ok (h', n') ∧ IsMap h' map (rs'.reverse ++ bs) ∧
      freeNodes page (h.nodes rs) n (h.nodes (x :: bs)) =
        freeNodes page (h'.nodes rs') n' (h'.nodes bs) ∧ ∀ p ∈ rs', p ∈ x :: rs := by
  by_cases hmatch : (h.cell x).start = page ∧ (h.cell x).allocated = 1
  · obtain ⟨h', n', rs', heq, hm', hnodes, hsub, -⟩ := hm.freeTurn_release (n := n) hmatch
    exact ⟨h', n', rs', heq, hm', hnodes, hsub⟩
  · refine ⟨h, n, x :: rs, freeTurn_pass (hm.node_mem (mem_zipper rs bs x)) hmatch, ?_, ?_,
      fun p hp => hp⟩
    · rw [← zipper_cons]
      exact hm
    · rw [nodes_cons, freeNodes_cons, if_neg, nodes_cons]
      exact fun hmatch' => hmatch ⟨hmatch'.1, of_decide_eq_true hmatch'.2⟩

/-- The loop goes on at the node that came after `cur` before the turn. -/
theorem freeLoop_turn {page fuel n n₁ : Nat} {h₁ : NodeHeap} {rs₁ : List Nat}
    (hm : IsMap h map (rs.reverse ++ x :: bs)) (heq : Nodes.freeTurn page h x n = .ok (h₁, n₁))
    (hm₁ : IsMap h₁ map (rs₁.reverse ++ bs)) :
    freeLoop page map (fuel + 1) h x (h.cell x).next n =
      freeLoop page map fuel h₁ (bs.headD map) (h₁.cell (bs.headD map)).next n₁ := by
  have hx : x ≠ map := fun heq => hm.head_notMem (heq ▸ mem_zipper rs bs x)
  have hnext : (h.cell x).next = bs.headD map := hm.ring.next_eq
  rw [freeLoop, if_neg hx, hnext, heq, ok_bind]
  dsimp only
  rw [NodeHeap.read_of_mem hm₁.after_mem, ok_bind]

/-- The loop on the heap is the loop over the list of the nodes, and it adds no node. -/
theorem freeLoop {page fuel n : Nat} (hm : IsMap h map (rs.reverse ++ bs))
    (hfuel : bs.length < fuel) :
    ∃ h' ptrs', freeLoop page map fuel h (bs.headD map) (h.cell (bs.headD map)).next n =
        .ok (h', (freeNodes page (h.nodes rs) n (h.nodes bs)).2) ∧
      IsMap h' map ptrs' ∧ h'.nodes ptrs' = (freeNodes page (h.nodes rs) n (h.nodes bs)).1 ∧
      ∀ p ∈ ptrs', p ∈ rs.reverse ++ bs := by
  induction bs generalizing h rs n fuel with
  | nil =>
      obtain ⟨fuel, rfl⟩ := Nat.exists_eq_succ_of_ne_zero (Nat.ne_zero_of_lt hfuel)
      refine ⟨h, _, if_pos rfl, hm, ?_, fun p hp => hp⟩
      rw [List.append_nil, NodeHeap.nodes, List.map_reverse]
      rfl
  | cons x bs ih =>
      obtain ⟨fuel, rfl⟩ := Nat.exists_eq_succ_of_ne_zero (Nat.ne_zero_of_lt hfuel)
      obtain ⟨h₁, n₁, rs₁, heq, hm₁, hnodes, hsub⟩ := hm.freeTurn page n
      obtain ⟨h', ptrs', hloop, hm', hres, hptrs⟩ := ih hm₁ (Nat.lt_of_succ_lt_succ hfuel)
      rw [hnodes]
      refine ⟨h', ptrs', ?_, hm', hres, fun p hp => ?_⟩
      · rw [List.headD_cons, hm.freeLoop_turn heq hm₁, hloop]
      · have hmem := hptrs p hp
        rw [zipper_cons]
        simp only [List.mem_append, List.mem_reverse] at hmem ⊢
        exact hmem.imp_left (hsub p)

/-- A loop that meets no node to be released changes nothing. -/
theorem freeLoop_pass {page fuel n : Nat} (hm : IsMap h map (rs.reverse ++ bs))
    (hfuel : bs.length < fuel)
    (hpass : ∀ p ∈ bs, ¬ ((h.cell p).start = page ∧ (h.cell p).allocated = 1)) :
    Nodes.freeLoop page map fuel h (bs.headD map) (h.cell (bs.headD map)).next n = .ok (h, n) := by
  induction bs generalizing rs fuel with
  | nil =>
      obtain ⟨fuel, rfl⟩ := Nat.exists_eq_succ_of_ne_zero (Nat.ne_zero_of_lt hfuel)
      exact if_pos rfl
  | cons x bs ih =>
      obtain ⟨fuel, rfl⟩ := Nat.exists_eq_succ_of_ne_zero (Nat.ne_zero_of_lt hfuel)
      have hturn := freeTurn_pass (n := n) (hm.node_mem (mem_zipper rs bs x))
        (hpass x List.mem_cons_self)
      have hm' := hm
      rw [zipper_cons] at hm'
      rw [List.headD_cons, hm.freeLoop_turn hturn hm']
      exact ih hm' (Nat.lt_of_succ_lt_succ hfuel) fun p hp => hpass p (List.mem_cons_of_mem x hp)

/-- The free on the heap is the free in the list of the nodes. -/
theorem petmemFreeMap (hm : IsMap h map ptrs) (vaddr : Nat) : ∃ h' ptrs',
    Nodes.petmemFreeMap map vaddr h =
        .ok (h', (VirtualMemory.petmemFreeMap (h.nodes ptrs) vaddr).2) ∧
      IsMap h' map ptrs' ∧ h'.nodes ptrs' =
      (VirtualMemory.petmemFreeMap (h.nodes ptrs) vaddr).1 := by
  have hnext : (h.cell map).next = ptrs.headD map := hm.ring.next_head
  have hzipper : IsMap h map ([].reverse ++ ptrs) := hm
  rw [Nodes.petmemFreeMap, hm.vaddrInMap, ok_bind, VirtualMemory.petmemFreeMap]
  split
  next hin =>
    obtain ⟨h', ptrs', heq, hm', hres, -⟩ := hzipper.freeLoop hm.length_lt
    refine ⟨h', ptrs', ?_, hm', hres⟩
    rw [NodeHeap.read_of_mem hm.head_mem, ok_bind]
    dsimp only
    rw [hnext, NodeHeap.read_of_mem hzipper.after_mem, ok_bind]
    exact heq
  next hout => exact ⟨h, ptrs, rfl, hm, rfl⟩

/-! ## Any sequence of calls -/

/-- A ring without nodes. -/
theorem empty {c : ListNode} (hlive : h.live = [map]) (hflag : c.allocated = -1)
    (hnext : c.next = map) (hprev : c.prev = map) : IsMap (h.set map c) map [] where
  ring := by
    rw [NodeHeap.next_set, NodeHeap.prev_set, hnext, hprev]
    exact ⟨⟨Function.update_self _ _ _, trivial⟩, ⟨Function.update_self _ _ _, trivial⟩,
      List.nodup_singleton map⟩
  live := by rw [NodeHeap.live_set, hlive]
  head := by rw [NodeHeap.cell_set_self, hflag]
  flags p hp := absurd hp List.not_mem_nil

/-- `petmem_init_process` makes the initial map. -/
theorem init (cell : Nat → ListNode) {firstEntry : Nat} (hne : firstEntry ≠ map) :
    ∃ h, Nodes.petmemInitProcess ⟨cell, [], []⟩ map firstEntry = .ok h ∧ IsMap h map [firstEntry] ∧
      h.nodes [firstEntry] = VirtualMemory.petmemInitProcess := by
  rw [Nodes.petmemInitProcess, NodeHeap.modify_of_mem List.mem_cons_self, ok_bind]
  generalize hh₁ : NodeHeap.set _ map _ = h₁
  have hlive : h₁.live = [map] := by rw [← hh₁]; rfl
  have hflag : (h₁.cell map).allocated = -1 := by rw [← hh₁, NodeHeap.cell_set_self]
  have hfresh : firstEntry ∉ h₁.live := by
    rw [hlive, List.mem_singleton]
    exact hne
  rw [NodeHeap.modify_of_mem List.mem_cons_self, ok_bind, NodeHeap.initListHead,
    NodeHeap.modify_of_mem (List.mem_cons_of_mem firstEntry (hlive ▸ List.mem_cons_self)), ok_bind,
    NodeHeap.set_kmalloc (Ne.symm hne), NodeHeap.cell_set_of_ne (Ne.symm hne)]
  -- before the first entry is put in, the ring is closed around the head
  have hempty : IsMap (h₁.set map { h₁.cell map with next := map, prev := map }) map
      ([].reverse ++ []) :=
    empty hlive hflag rfl rfl
  obtain ⟨h, hadd, hm, hdata⟩ := hempty.insert hfresh (d := { h₁.cell firstEntry with
    allocated := 0
    size := petmemRegionEnd - petmemRegionStart
    start := petmemRegionStart }) (Or.inl rfl)
  have hself := congrFun hdata firstEntry
  rw [Function.update_self] at hself
  refine ⟨h, hadd, hm, ?_⟩
  rw [nodes_cons, node_of_data hself]
  rfl

end IsMap

/-- The calls that change a memory map; an allocation with the address that `kmalloc` returns. -/
inductive NodeCall where
  | allocVspace (numPages new : Nat)
  | freeVspace (vaddr : Nat)
deriving DecidableEq, Repr

/-- The call as one of `memMaps`. -/
def NodeCall.mapCall : NodeCall → MapCall
  | allocVspace numPages _ => .allocVspace numPages
  | freeVspace vaddr => .freeVspace vaddr

/-- The objects of one process, from `petmem_init_process` on, with the head of the map at `map`.
The address that `kmalloc` returns is not in use. -/
def nodeHeaps (map : Nat) : Machine NodeHeap NodeCall where
  init h := ∃ cell firstEntry, firstEntry ≠ map ∧
    petmemInitProcess ⟨cell, [], []⟩ map firstEntry = .ok h
  step h call h' :=
    match call with
    | .allocVspace numPages new =>
        new ∉ h.live ∧ ∃ addr, petmemAllocVspace map numPages new h = .ok (addr, h')
    | .freeVspace vaddr => ∃ n, petmemFreeMap map vaddr h = .ok (h', n)

/-- Every heap that can be reached holds a map that can be reached by the same calls. -/
theorem nodeHeaps_refines {map : Nat} {calls : List NodeCall} {h : NodeHeap}
    (hr : (nodeHeaps map).Reach calls h) :
    ∃ ptrs, IsMap h map ptrs ∧ memMaps.Reach (calls.map NodeCall.mapCall) (h.nodes ptrs) := by
  refine hr.history (I := fun calls h => ∃ ptrs, IsMap h map ptrs ∧
    memMaps.Reach (calls.map NodeCall.mapCall) (h.nodes ptrs)) ?_ ?_
  · rintro h ⟨cell, firstEntry, hne, hinit⟩
    obtain ⟨h', hinit', hm, hnodes⟩ := IsMap.init cell hne
    cases hinit.symm.trans hinit'
    exact ⟨_, hm, .init hnodes⟩
  · rintro calls h call h' - ⟨ptrs, hm, hmap⟩ hst
    rw [List.map_append]
    cases call with
    | allocVspace numPages new =>
        obtain ⟨hnew, addr, heq⟩ := hst
        obtain ⟨h₁, ptrs', heq', hm', hnodes⟩ := hm.petmemAllocVspace hnew numPages
        cases heq.symm.trans heq'
        exact ⟨ptrs', hm', hmap.step hnodes⟩
    | freeVspace vaddr =>
        obtain ⟨n, heq⟩ := hst
        obtain ⟨h₁, ptrs', heq', hm', hnodes⟩ := hm.petmemFreeMap vaddr
        cases heq.symm.trans heq'
        exact ⟨ptrs', hm', hmap.step hnodes⟩

end PetKernel.VirtualMemory.Nodes
