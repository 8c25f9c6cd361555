import PetKernel.Library.Machine
import PetKernel.Library.Tiling

/-!
# The memory map of a process

A model of `struct mem_map` and of the functions of `virtual_memory/on_demand.c` that work on it.
The map is the list of nodes after the list head; the head itself has `allocated == -1`, so that it
is never merged with. Sizes and addresses are 64-bit words; sums are taken modulo `2 ^ 64`.

`MapOk` is the representation invariant: the nodes tile the region, in units of pages, and no two
neighbours are both free. `mem_map_tiles_region` states it for every sequence of allocations and
frees. `mem_allocatedNodes_petmemFreeMap` and `MapOk.size_le_of_released` say which nodes a free
releases and how many pages it asks the page tables to give back.
-/

set_option autoImplicit false

namespace PetKernel.VirtualMemory

open PetKernel.Library

/-- `PETMEM_REGION_START`. -/
def petmemRegionStart : Nat := 0x1000000000

/-- `PETMEM_REGION_END`. -/
def petmemRegionEnd : Nat := 0x3000000000

/-- `PAGE_SIZE_4KB`, also `PAGE_SIZE`. -/
def pageSize : Nat := 4096

/-- `PAGE_ADDR(x)`. -/
def pageAddr (x : Nat) : Nat := x / pageSize * pageSize

/-- The fields of `struct mem_map` other than the link. -/
structure MapNode where
  allocated : Bool
  size : Nat
  start : Nat
deriving DecidableEq, Repr

/-- The nodes of a memory map in list order. -/
abbrev MemMap := List MapNode

/-- `petmem_init_process`. -/
def petmemInitProcess : MemMap := [⟨false, petmemRegionEnd - petmemRegionStart, petmemRegionStart⟩]

/-- `vaddr_in_map`. Both ends of a node count as inside. -/
def vaddrInMap (vaddr : Nat) (map : MemMap) : Bool :=
  map.any fun cur =>
    cur.allocated && decide (cur.start ≤ vaddr) && decide (vaddr ≤ (cur.start + cur.size) % 2 ^ 64)

/-- The loop of `petmem_alloc_vspace`: the first free node that is large enough is split. -/
def allocIn (reqSize : Nat) : MemMap → Option (Nat × MemMap)
  | [] => none
  | cur :: rest =>
      if cur.allocated = false ∧ reqSize ≤ cur.size then
        let new : MapNode := ⟨false, cur.size - reqSize, (cur.start + reqSize) % 2 ^ 64⟩
        some (cur.start, ⟨true, reqSize, cur.start⟩ :: new :: rest)
      else (allocIn reqSize rest).map fun r => (r.1, cur :: r.2)

/-- `petmem_alloc_vspace`: the address returned and the map; `(uintptr_t)-1` when nothing fits. -/
def petmemAllocVspace (map : MemMap) (numPages : Nat) : Nat × MemMap :=
  (allocIn (numPages * pageSize % 2 ^ 64) map).getD (2 ^ 64 - 1, map)

/-- The number of pages that `LAZY_ALLOC` asks for. -/
def lazyAllocPages (size : Nat) : Nat :=
  (size + (pageSize - 1)) % 2 ^ 64 / pageSize

/-- The merge of a freed node with the node before it; `prevs` are the earlier nodes, last first. -/
def absorbPrev (prevs : List MapNode) (cur : MapNode) : List MapNode × MapNode :=
  match prevs with
  | [] => ([], cur)
  | prev :: ps =>
      if prev.allocated = false then
        (ps, { prev with size := (prev.size + cur.size) % 2 ^ 64 })
      else (prev :: ps, cur)

/-- The loop of `petmem_free_vspace` over the map, with `num_pages_to_free` as an accumulator. A
node that was merged into `next` is followed by the turn of `next` itself, which does nothing, since
`next` is free. -/
def freeNodes (page : Nat) : List MapNode → Nat → List MapNode → MemMap × Nat
  | prevs, toFree, [] => (prevs.reverse, toFree)
  | prevs, toFree, [cur] =>
      if cur.start = page ∧ cur.allocated = true then
        let m := absorbPrev prevs { cur with allocated := false }
        ((m.2 :: m.1).reverse, cur.size / pageSize)
      else ((cur :: prevs).reverse, toFree)
  | prevs, toFree, cur :: next :: rest =>
      if cur.start = page ∧ cur.allocated = true then
        let m := absorbPrev prevs { cur with allocated := false }
        if next.allocated = false then
          let merged : MapNode := ⟨false, (next.size + m.2.size) % 2 ^ 64, m.2.start⟩
          freeNodes page (merged :: m.1) (cur.size / pageSize) rest
        else freeNodes page (m.2 :: m.1) (cur.size / pageSize) (next :: rest)
      else freeNodes page (cur :: prevs) toFree (next :: rest)

/-- What `petmem_free_vspace` does to the map, and the number of pages it goes on to free. -/
def petmemFreeMap (map : MemMap) (vaddr : Nat) : MemMap × Nat :=
  if vaddrInMap vaddr map = true then freeNodes (pageAddr vaddr) [] 0 map else (map, 0)

/-! ## The representation invariant -/

/-- Not both nodes are free. -/
def NotBothFree (a b : MapNode) : Prop := a.allocated = true ∨ b.allocated = true

/-- The nodes tile the region. -/
abbrev TilesRegion (map : MemMap) : Prop :=
  Tiles MapNode.start MapNode.size petmemRegionStart petmemRegionEnd map

/-- Start and size of a node are multiples of the page size. -/
structure MapNode.Aligned (n : MapNode) : Prop where
  start : pageSize ∣ n.start
  size : pageSize ∣ n.size

/-- The virtual page lies inside the node. -/
def MapNode.HoldsPage (n : MapNode) (v : Nat) : Prop :=
  n.start ≤ v * pageSize ∧ (v + 1) * pageSize ≤ n.start + n.size

instance (n : MapNode) (v : Nat) : Decidable (n.HoldsPage v) := by
  unfold MapNode.HoldsPage
  infer_instance

/-- The page of an address inside a node. -/
theorem MapNode.Aligned.holdsPage {n : MapNode} (h : n.Aligned) {vaddr : Nat}
    (hle : n.start ≤ vaddr) (hlt : vaddr < n.start + n.size) : n.HoldsPage (vaddr / 2 ^ 12) := by
  obtain ⟨a, ha⟩ := h.start
  obtain ⟨b, hb⟩ := h.size
  unfold pageSize at ha hb
  unfold MapNode.HoldsPage pageSize
  omega

/-- If the map accepts the address, then it is before the end of an allocated node. -/
def AcceptsInside (map : MemMap) (vaddr : Nat) : Prop :=
  vaddrInMap vaddr map = true →
    ∃ n ∈ map, n.allocated = true ∧ n.start ≤ vaddr ∧ vaddr < n.start + n.size

/-- The representation invariant of a memory map. -/
structure MapOk (map : MemMap) : Prop where
  tiles : TilesRegion map
  aligned : ∀ n ∈ map, n.Aligned
  coalesced : map.IsChain NotBothFree

theorem mapOk_petmemInitProcess : MapOk petmemInitProcess where
  tiles := ⟨rfl, rfl⟩
  aligned n hn := by
    rw [petmemInitProcess, List.mem_singleton] at hn
    subst hn
    exact ⟨by decide, by decide⟩
  coalesced := List.IsChain.singleton _

/-- No address computed inside the region overflows. -/
theorem TilesRegion.end_lt {map : MemMap} (h : TilesRegion map) {n : MapNode} (hn : n ∈ map) :
    n.start + n.size < 2 ^ 64 := by
  have hb := (h.bounds hn).2
  exact Nat.lt_of_le_of_lt hb (by decide)

/-! ## Allocation -/

/-- Where `allocIn` finds its node and what it puts there. -/
theorem allocIn_eq_some {reqSize : Nat} {map : MemMap} {r : Nat × MemMap}
    (h : allocIn reqSize map = some r) : ∃ as cur bs, map = as ++ [cur] ++ bs ∧
      cur.allocated = false ∧ reqSize ≤ cur.size ∧
      r = (cur.start, as ++ [⟨true, reqSize, cur.start⟩,
        ⟨false, cur.size - reqSize, (cur.start + reqSize) % 2 ^ 64⟩] ++ bs) := by
  induction map generalizing r with
  | nil => cases h
  | cons cur rest ih =>
      rw [allocIn] at h
      by_cases hfit : cur.allocated = false ∧ reqSize ≤ cur.size
      · rw [if_pos hfit] at h
        cases h
        exact ⟨[], cur, rest, rfl, hfit.1, hfit.2, rfl⟩
      · rw [if_neg hfit] at h
        obtain ⟨r', hr', rfl⟩ := Option.map_eq_some_iff.1 h
        obtain ⟨as, cur', bs, rfl, hfree, hsize, rfl⟩ := ih hr'
        exact ⟨cur :: as, cur', bs, rfl, hfree, hsize, rfl⟩

/-- A split keeps the invariant: the second half stands where the old node did, so what follows it
is allocated. -/
theorem MapOk.split {as bs : List MapNode} {cur : MapNode} {reqSize : Nat}
    (h : MapOk (as ++ [cur] ++ bs)) (hfree : cur.allocated = false) (hsize : reqSize ≤ cur.size)
    (hreq : pageSize ∣ reqSize) :
    MapOk (as ++ [⟨true, reqSize, cur.start⟩,
      ⟨false, cur.size - reqSize, (cur.start + reqSize) % 2 ^ 64⟩] ++ bs) := by
  have hmem : cur ∈ as ++ [cur] ++ bs := by simp
  have hcur := h.aligned cur hmem
  have hmod : (cur.start + reqSize) % 2 ^ 64 = cur.start + reqSize := by
    have hlt := h.tiles.end_lt hmem
    exact Nat.mod_eq_of_lt (by omega)
  rw [hmod]
  refine ⟨h.tiles.replace fun a b hab => ?_, fun n hn => ?_, ?_⟩
  · obtain ⟨hstart, hend⟩ := hab
    refine ⟨hstart, by rw [hstart], ?_⟩
    have hend' : a + cur.size = b := hend
    show a + reqSize + (cur.size - reqSize) = b
    omega
  · simp only [List.mem_append, List.mem_cons, List.not_mem_nil, or_false] at hn
    rcases hn with (hn | rfl | rfl) | hn
    · exact h.aligned n (by simp [hn])
    · exact ⟨hcur.start, hreq⟩
    · exact ⟨Nat.dvd_add hcur.start hreq, Nat.dvd_sub hcur.size hreq⟩
    · exact h.aligned n (by simp [hn])
  · have hchain := h.coalesced
    rw [List.append_assoc, List.isChain_append] at hchain ⊢
    obtain ⟨has, hrest, hlast⟩ := hchain
    refine ⟨has, ?_, fun x _ y hy => ?_⟩
    · rw [List.singleton_append, List.isChain_cons] at hrest
      refine List.IsChain.cons_cons (Or.inl rfl) (List.isChain_cons.2 ⟨fun y hy => ?_, hrest.2⟩)
      -- `cur` was free, so its successor is not
      rcases hrest.1 y hy with hc | hy'
      · rw [hfree] at hc
        cases hc
      · exact Or.inr hy'
    · cases hy
      exact Or.inr rfl

theorem MapOk.petmemAllocVspace {map : MemMap} (h : MapOk map) (numPages : Nat) :
    MapOk (petmemAllocVspace map numPages).2 := by
  unfold VirtualMemory.petmemAllocVspace
  cases hr : allocIn (numPages * pageSize % 2 ^ 64) map with
  | none => exact h
  | some r =>
      obtain ⟨as, cur, bs, rfl, hfree, hsize, rfl⟩ := allocIn_eq_some hr
      have hreq : pageSize ∣ numPages * pageSize % 2 ^ 64 :=
        (Nat.dvd_mod_iff (by decide)).2 (Nat.dvd_mul_left _ _)
      exact h.split hfree hsize hreq

/-- An allocation leaves the allocated nodes alone. -/
theorem mem_petmemAllocVspace {map : MemMap} {n : MapNode} (hn : n ∈ map)
    (halloc : n.allocated = true) (numPages : Nat) : n ∈ (petmemAllocVspace map numPages).2 := by
  unfold VirtualMemory.petmemAllocVspace
  cases hr : allocIn (numPages * pageSize % 2 ^ 64) map with
  | none => exact hn
  | some r =>
      obtain ⟨as, cur, bs, rfl, hfree, -, rfl⟩ := allocIn_eq_some hr
      have hne : n ≠ cur := by
        rintro rfl
        rw [hfree] at halloc
        cases halloc
      simp only [List.mem_append, List.mem_singleton, hne, or_false] at hn
      simp only [Option.getD_some, List.mem_append]
      exact hn.imp Or.inl id

/-! ## Freeing -/

/-- The merge of a freed node with the node after it: the node that stays, and what follows it. -/
def absorbNext (cur : MapNode) : List MapNode → MapNode × List MapNode
  | [] => (cur, [])
  | next :: rest =>
      if next.allocated = false then (⟨false, (next.size + cur.size) % 2 ^ 64, cur.start⟩, rest)
      else (cur, next :: rest)

theorem absorbNext_length (cur : MapNode) (rest : List MapNode) :
    (absorbNext cur rest).2.length ≤ rest.length := by
  cases rest with
  | nil => exact Nat.le_refl _
  | cons next rest =>
      rw [absorbNext]
      split
      · exact Nat.le_succ _
      · exact Nat.le_refl _

/-- One turn of the loop of `petmem_free_vspace`. -/
theorem freeNodes_cons (page toFree : Nat) (prevs : List MapNode) (cur : MapNode)
    (rest : List MapNode) :
    freeNodes page prevs toFree (cur :: rest) =
      if cur.start = page ∧ cur.allocated = true then
        let m := absorbPrev prevs { cur with allocated := false }
        let r := absorbNext m.2 rest
        freeNodes page (r.1 :: m.1) (cur.size / pageSize) r.2
      else freeNodes page (cur :: prevs) toFree rest := by
  cases rest with
  | nil => rfl
  | cons next rest =>
      rw [freeNodes]
      by_cases hmatch : cur.start = page ∧ cur.allocated = true
      · rw [if_pos hmatch, if_pos hmatch]
        by_cases hnext : next.allocated = false
        · simp only [absorbNext, if_pos hnext]
        · simp only [absorbNext, if_neg hnext]
      · rw [if_neg hmatch, if_neg hmatch]

/-- Induction over the turns of the loop: a node is passed, or it is released and merged with its
neighbours. -/
theorem freeNodes_induction {page : Nat}
    {motive : List MapNode → Nat → List MapNode → MemMap × Nat → Prop}
    (done : ∀ prevs toFree, motive prevs toFree [] (prevs.reverse, toFree))
    (pass : ∀ prevs toFree cur rest res, ¬ (cur.start = page ∧ cur.allocated = true) →
      motive (cur :: prevs) toFree rest res → motive prevs toFree (cur :: rest) res)
    (release : ∀ prevs toFree cur rest m r res, cur.start = page ∧ cur.allocated = true →
      m = absorbPrev prevs { cur with allocated := false } → r = absorbNext m.2 rest →
      motive (r.1 :: m.1) (cur.size / pageSize) r.2 res → motive prevs toFree (cur :: rest) res)
    (prevs : List MapNode) (toFree : Nat) (rest : List MapNode) :
    motive prevs toFree rest (freeNodes page prevs toFree rest) := by
  -- the rest gets shorter, by two nodes when the next one is merged
  induction hk : rest.length using Nat.strong_induction_on generalizing prevs toFree rest with
  | _ k ih =>
      cases rest with
      | nil => exact done prevs toFree
      | cons cur rest =>
          rw [freeNodes_cons]
          subst hk
          by_cases hmatch : cur.start = page ∧ cur.allocated = true
          · rw [if_pos hmatch]
            have hlen := Nat.lt_succ_of_le
              (absorbNext_length (absorbPrev prevs { cur with allocated := false }).2 rest)
            exact release prevs toFree cur rest _ _ _ hmatch rfl rfl (ih _ hlen _ _ _ rfl)
          · rw [if_neg hmatch]
            exact pass prevs toFree cur rest _ hmatch (ih _ (Nat.lt_succ_self _) _ _ _ rfl)

/-- A map with one node in focus, which may be free next to a free neighbour. -/
structure FocusOk (prevs : List MapNode) (cur : MapNode) (rest : List MapNode) : Prop where
  tiles : TilesRegion (prevs.reverse ++ [cur] ++ rest)
  aligned : ∀ n, n ∈ prevs ∨ n = cur ∨ n ∈ rest → n.Aligned
  left : prevs.IsChain NotBothFree
  right : rest.IsChain NotBothFree

theorem isChain_reverse_iff {l : List MapNode} :
    l.reverse.IsChain NotBothFree ↔ l.IsChain NotBothFree := by
  rw [List.isChain_reverse]
  exact ⟨fun h => h.imp fun _ _ => Or.symm, fun h => h.imp fun _ _ => Or.symm⟩

theorem MapOk.focus {prevs rest : List MapNode} {cur : MapNode}
    (h : MapOk (prevs.reverse ++ cur :: rest)) :
    FocusOk prevs { cur with allocated := false } rest := by
  have hchain := List.isChain_append.1 h.coalesced
  constructor
  · have htiles : TilesRegion (prevs.reverse ++ [cur] ++ rest) := by
      rw [List.append_assoc]
      exact h.tiles
    exact htiles.replace fun a b hab => hab
  · rintro n (hn | rfl | hn)
    · exact h.aligned n (by simp [hn])
    · have hcur := h.aligned cur (by simp)
      exact ⟨hcur.start, hcur.size⟩
    · exact h.aligned n (by simp [hn])
  · exact isChain_reverse_iff.1 hchain.1
  · exact (List.isChain_cons.1 hchain.2.1).2

/-- Two neighbours become one. -/
theorem TilesRegion.join {as bs : List MapNode} {a b : MapNode}
    (h : TilesRegion (as ++ [a, b] ++ bs))
    {size : Nat} (hsize : size = (a.size + b.size) % 2 ^ 64) :
    TilesRegion (as ++ [⟨false, size, a.start⟩] ++ bs) := by
  have hlt : a.size + b.size < 2 ^ 64 := by
    have hb := h.end_lt (n := b) (by simp)
    have hpair := h.pairwise
    rw [List.append_assoc, List.pairwise_append] at hpair
    have hab := (List.pairwise_cons.1 hpair.2.1).1 b (by simp)
    omega
  rw [Nat.mod_eq_of_lt hlt] at hsize
  apply h.replace
  intro lo hi hab
  obtain ⟨ha, hb, hend⟩ := hab
  refine ⟨ha, ?_⟩
  have hend' : lo + a.size + b.size = hi := hend
  show lo + size = hi
  omega

/-- After the merge to the left, the node before the focus is allocated. -/
theorem FocusOk.absorbPrev {prevs rest : List MapNode} {cur : MapNode} (h : FocusOk prevs cur rest)
    (hfree : cur.allocated = false) :
    FocusOk (absorbPrev prevs cur).1 (absorbPrev prevs cur).2 rest ∧
      (absorbPrev prevs cur).2.allocated = false ∧
      ∀ p ∈ (absorbPrev prevs cur).1.head?, p.allocated = true := by
  cases prevs with
  | nil => exact ⟨h, hfree, nofun⟩
  | cons prev ps =>
      unfold VirtualMemory.absorbPrev
      by_cases hprev : prev.allocated = false
      · simp only [if_pos hprev]
        refine ⟨⟨?_, ?_, ?_, h.right⟩, hprev, fun p hp => ?_⟩
        -- the two nodes become one with the start of the first
        · have htiles := h.tiles
          rw [List.reverse_cons, List.append_assoc ps.reverse] at htiles
          have hjoin := TilesRegion.join htiles rfl
          rw [← hprev] at hjoin
          exact hjoin
        · rintro n (hn | rfl | hn)
          · exact h.aligned n (Or.inl (List.mem_cons_of_mem _ hn))
          · have h₁ := h.aligned prev (Or.inl List.mem_cons_self)
            have h₂ := h.aligned cur (Or.inr (Or.inl rfl))
            exact ⟨h₁.start, (Nat.dvd_mod_iff (by decide)).2 (Nat.dvd_add h₁.size h₂.size)⟩
          · exact h.aligned n (Or.inr (Or.inr hn))
        · exact (List.isChain_cons.1 h.left).2
        · rcases (List.isChain_cons.1 h.left).1 p hp with hp' | hp'
          · rw [hprev] at hp'
            cases hp'
          · exact hp'
      · simp only [if_neg hprev]
        refine ⟨h, hfree, fun p hp => ?_⟩
        cases hp
        exact Bool.eq_true_of_not_eq_false hprev

/-- After the merge to the right, the node after the focus is allocated. -/
theorem FocusOk.absorbNext {prevs rest : List MapNode} {cur : MapNode} (h : FocusOk prevs cur rest)
    (hfree : cur.allocated = false) :
    FocusOk prevs (absorbNext cur rest).1 (absorbNext cur rest).2 ∧
      (absorbNext cur rest).1.allocated = false ∧
      ∀ q ∈ (absorbNext cur rest).2.head?, q.allocated = true := by
  cases rest with
  | nil => exact ⟨h, hfree, nofun⟩
  | cons next rest =>
      unfold VirtualMemory.absorbNext
      by_cases hnext : next.allocated = false
      · simp only [if_pos hnext]
        -- the size of the next node is added, and what follows it is allocated
        refine ⟨⟨?_, ?_, h.left, ?_⟩, trivial, fun q hq => ?_⟩
        · have htiles := h.tiles
          rw [List.append_cons, List.append_assoc prevs.reverse] at htiles
          exact TilesRegion.join htiles (by rw [Nat.add_comm])
        · rintro n (hn | rfl | hn)
          · exact h.aligned n (Or.inl hn)
          · have h₁ := h.aligned next (Or.inr (Or.inr List.mem_cons_self))
            have h₂ := h.aligned cur (Or.inr (Or.inl rfl))
            exact ⟨h₂.start, (Nat.dvd_mod_iff (by decide)).2 (Nat.dvd_add h₁.size h₂.size)⟩
          · exact h.aligned n (Or.inr (Or.inr (List.mem_cons_of_mem _ hn)))
        · exact (List.isChain_cons.1 h.right).2
        · rcases (List.isChain_cons.1 h.right).1 q hq with hq' | hq'
          · rw [hnext] at hq'
            cases hq'
          · exact hq'
      · simp only [if_neg hnext]
        refine ⟨h, hfree, fun q hq => ?_⟩
        cases hq
        exact Bool.eq_true_of_not_eq_false hnext

/-- A focus between allocated neighbours is a map in order. -/
theorem FocusOk.mapOk {prevs rest : List MapNode} {cur : MapNode} (h : FocusOk prevs cur rest)
    (hprev : ∀ p ∈ prevs.head?, p.allocated = true)
    (hnext : ∀ q ∈ rest.head?, q.allocated = true) : MapOk ((cur :: prevs).reverse ++ rest) := by
  rw [List.reverse_cons]
  refine ⟨h.tiles, fun n hn => ?_, ?_⟩
  · simp only [List.mem_append, List.mem_reverse, List.mem_singleton] at hn
    exact h.aligned n (or_assoc.1 hn)
  · refine List.isChain_append.2 ⟨?_, h.right, fun x hx y hy => Or.inr (hnext y hy)⟩
    rw [← List.reverse_cons, isChain_reverse_iff]
    exact List.isChain_cons.2 ⟨fun p hp => Or.inr (hprev p hp), h.left⟩

/-- The loop over the map keeps the invariant at every turn. -/
theorem MapOk.freeNodes {page : Nat} (prevs : List MapNode) (toFree : Nat) (rest : List MapNode)
    (h : MapOk (prevs.reverse ++ rest)) : MapOk (freeNodes page prevs toFree rest).1 := by
  revert h
  refine freeNodes_induction (motive := fun prevs _ rest res => MapOk (prevs.reverse ++ rest) →
    MapOk res.1) ?_ ?_ ?_ prevs toFree rest
  · intro prevs _ h
    rw [List.append_nil] at h
    exact h
  · intro prevs _ cur rest res _ ih h
    apply ih
    rw [List.reverse_cons, List.append_assoc]
    exact h
  · rintro prevs _ cur rest m r res _ rfl rfl ih h
    obtain ⟨hfocus, hfree, hprev⟩ := h.focus.absorbPrev rfl
    obtain ⟨hfocus', -, hnext⟩ := hfocus.absorbNext hfree
    exact ih (hfocus'.mapOk hprev hnext)

theorem MapOk.petmemFreeMap {map : MemMap} (h : MapOk map) (vaddr : Nat) :
    MapOk (petmemFreeMap map vaddr).1 := by
  unfold VirtualMemory.petmemFreeMap
  split
  · exact MapOk.freeNodes [] 0 map h
  · exact h

/-! ## What a free releases -/

/-- The allocated nodes of a map. -/
def allocatedNodes (map : MemMap) : List MapNode := map.filter fun n => n.allocated

theorem mem_allocatedNodes {map : MemMap} {n : MapNode} :
    n ∈ allocatedNodes map ↔ n ∈ map ∧ n.allocated = true := by
  simp [allocatedNodes]

/-- The nodes that a free of the page `page` releases. -/
def released (page : Nat) (map : MemMap) : List MapNode :=
  map.filter fun n => decide (n.start = page) && n.allocated

theorem mem_released {page : Nat} {map : MemMap} {n : MapNode} :
    n ∈ released page map ↔ n ∈ map ∧ n.start = page ∧ n.allocated = true := by
  simp [released]

theorem absorbPrev_filter (prevs : List MapNode) (cur : MapNode) :
    (absorbPrev prevs cur).1.filter (fun n => n.allocated) = prevs.filter fun n => n.allocated := by
  cases prevs with
  | nil => rfl
  | cons prev ps =>
      unfold absorbPrev
      by_cases hprev : prev.allocated = false
      · simp [hprev]
      · simp [hprev]

theorem absorbNext_filter (cur : MapNode) (rest : List MapNode) (q : MapNode → Bool)
    (hq : ∀ n : MapNode, n.allocated = false → q n = false) :
    (absorbNext cur rest).2.filter q = rest.filter q := by
  cases rest with
  | nil => rfl
  | cons next rest =>
      rw [absorbNext]
      by_cases hnext : next.allocated = false
      · rw [if_pos hnext, List.filter_cons_of_neg (by rw [hq next hnext]; decide)]
      · rw [if_neg hnext]

theorem absorbPrev_free (prevs : List MapNode) {cur : MapNode} (h : cur.allocated = false) :
    (absorbPrev prevs cur).2.allocated = false := by
  cases prevs with
  | nil => exact h
  | cons prev ps =>
      unfold absorbPrev
      by_cases hprev : prev.allocated = false
      · simp [hprev]
      · simp [hprev, h]

theorem absorbNext_free (rest : List MapNode) {cur : MapNode} (h : cur.allocated = false) :
    (absorbNext cur rest).1.allocated = false := by
  cases rest with
  | nil => exact h
  | cons next rest =>
      rw [absorbNext]
      split
      · rfl
      · exact h

/-- The loop takes the released nodes out of the allocated ones and touches no other. -/
theorem allocatedNodes_freeNodes {page : Nat} (prevs : List MapNode) (toFree : Nat)
    (rest : List MapNode) : allocatedNodes (freeNodes page prevs toFree rest).1 =
      allocatedNodes prevs.reverse ++
        rest.filter fun n => n.allocated && !decide (n.start = page) := by
  refine freeNodes_induction (motive := fun prevs _ rest res => allocatedNodes res.1 =
    allocatedNodes prevs.reverse ++ rest.filter fun n => n.allocated && !decide (n.start = page))
    ?_ ?_ ?_ prevs toFree rest
  · intro prevs _
    rw [List.filter_nil, List.append_nil]
  · intro prevs _ cur rest res hmatch ih
    rw [ih]
    by_cases halloc : cur.allocated = true
    · have hstart : cur.start ≠ page := fun hs => hmatch ⟨hs, halloc⟩
      simp [allocatedNodes, halloc, hstart]
    · simp [allocatedNodes, halloc]
  · rintro prevs _ cur rest m r res hmatch rfl rfl ih
    have hfree := absorbNext_free rest (absorbPrev_free prevs (rfl :
      ({ cur with allocated := false } : MapNode).allocated = false))
    rw [ih, absorbNext_filter _ rest _ (fun n hn => by rw [hn]; rfl)]
    unfold allocatedNodes
    rw [List.filter_reverse, List.filter_cons_of_neg (by rw [hfree]; decide), absorbPrev_filter,
      List.filter_reverse, List.filter_cons_of_neg (by simp [hmatch.1])]

/-- The number of pages to free is that of the last node released. -/
theorem freeNodes_toFree {page : Nat} (prevs : List MapNode) (toFree : Nat) (rest : List MapNode) :
    (freeNodes page prevs toFree rest).2 =
      ((released page rest).getLast?.map fun n => n.size / pageSize).getD toFree := by
  refine freeNodes_induction (motive := fun prevs toFree rest res => res.2 =
    ((released page rest).getLast?.map fun n => n.size / pageSize).getD toFree)
    ?_ ?_ ?_ prevs toFree rest
  · intro prevs toFree
    rfl
  · intro prevs toFree cur rest res hmatch ih
    rw [ih, released, released, List.filter_cons_of_neg (by simpa using hmatch)]
  · rintro prevs toFree cur rest m r res hmatch rfl rfl ih
    rw [ih, released, released, absorbNext_filter _ rest _ (fun n hn => by simp [hn]),
      List.filter_cons_of_pos (by simpa using hmatch), List.getLast?_cons]
    cases (rest.filter fun n => decide (n.start = page) && n.allocated).getLast? <;> rfl

/-- The allocated nodes after a free are those that it does not release. -/
theorem mem_allocatedNodes_petmemFreeMap {map : MemMap} {vaddr : Nat} {n : MapNode} :
    n ∈ allocatedNodes (petmemFreeMap map vaddr).1 ↔
      n ∈ allocatedNodes map ∧ (vaddrInMap vaddr map = true → n.start ≠ pageAddr vaddr) := by
  unfold petmemFreeMap
  by_cases hin : vaddrInMap vaddr map = true
  · rw [if_pos hin, allocatedNodes_freeNodes]
    simp [allocatedNodes, hin, and_assoc]
  · rw [if_neg hin]
    simp [hin]

/-- The pages that a free walks over cover every node that it releases. -/
theorem MapOk.size_le_of_released {map : MemMap} (h : MapOk map) {vaddr : Nat} {n : MapNode}
    (hn : n ∈ map) (halloc : n.allocated = true) (hstart : n.start = pageAddr vaddr)
    (hin : vaddrInMap vaddr map = true) :
    n.size ≤ (VirtualMemory.petmemFreeMap map vaddr).2 * pageSize := by
  have hrel : n ∈ released (pageAddr vaddr) map := mem_released.2 ⟨hn, hstart, halloc⟩
  unfold VirtualMemory.petmemFreeMap
  rw [if_pos hin, freeNodes_toFree]
  have hne : released (pageAddr vaddr) map ≠ [] := List.ne_nil_of_mem hrel
  rw [List.getLast?_eq_getLast_of_ne_nil hne]
  have hlast := mem_released.1 (List.getLast_mem hne)
  have hdvd := (h.aligned _ hlast.1).size
  show n.size ≤ _ / pageSize * pageSize
  rw [Nat.div_mul_cancel hdvd]
  -- two released nodes start at the same page, so all but the last one are empty
  have hpair : (released (pageAddr vaddr) map).Pairwise fun a b => a.start + a.size ≤ b.start :=
    h.tiles.pairwise.sublist List.filter_sublist
  have hsplit := List.dropLast_concat_getLast hne
  rw [← hsplit, List.pairwise_append] at hpair
  rw [← hsplit, List.mem_append, List.mem_singleton] at hrel
  rcases hrel with hrel | hrel
  · have hle := hpair.2.2 n hrel _ (List.mem_singleton_self _)
    rw [hlast.2.1, hstart] at hle
    omega
  · exact Nat.le_of_eq (congrArg MapNode.size hrel)

/-- An address in the map is not above the region. -/
theorem MapOk.vaddr_le {map : MemMap} (h : MapOk map) {vaddr : Nat}
    (hin : vaddrInMap vaddr map = true) : vaddr ≤ petmemRegionEnd := by
  obtain ⟨n, hn, hcond⟩ := List.any_eq_true.1 hin
  simp only [Bool.and_eq_true, decide_eq_true_eq] at hcond
  rw [Nat.mod_eq_of_lt (h.tiles.end_lt hn)] at hcond
  exact hcond.2.trans (h.tiles.bounds hn).2

/-- A free never asks for more pages than there are below the end of the region. -/
theorem MapOk.toFree_le {map : MemMap} (h : MapOk map) (vaddr : Nat) :
    (VirtualMemory.petmemFreeMap map vaddr).2 ≤ petmemRegionEnd / pageSize := by
  unfold VirtualMemory.petmemFreeMap
  split
  · rw [freeNodes_toFree]
    cases hlast : (released (pageAddr vaddr) map).getLast? with
    | none => exact Nat.zero_le _
    | some n =>
        have hn := (mem_released.1 (List.mem_of_getLast? hlast)).1
        apply Nat.div_le_div_right
        exact (Nat.le_add_left _ _).trans (h.tiles.bounds hn).2
  · exact Nat.zero_le _

/-! ## Any sequence of calls -/

/-- The calls that change a memory map. -/
inductive MapCall where
  | allocVspace (numPages : Nat)
  | freeVspace (vaddr : Nat)
deriving DecidableEq, Repr

/-- The memory map of one process, from `petmem_init_process` on. -/
def memMaps : Machine MemMap MapCall where
  init map := map = petmemInitProcess
  step map call map' :=
    match call with
    | .allocVspace numPages => map' = (petmemAllocVspace map numPages).2
    | .freeVspace vaddr => map' = (petmemFreeMap map vaddr).1

theorem memMaps_mapOk {calls : List MapCall} {map : MemMap} (h : memMaps.Reach calls map) :
    MapOk map := by
  refine h.invariant (fun map hmap => ?_) fun map call map' hok hst => ?_
  · rw [show map = petmemInitProcess from hmap]
    exact mapOk_petmemInitProcess
  · cases call with
    | allocVspace numPages =>
        rw [show map' = _ from hst]
        exact hok.petmemAllocVspace numPages
    | freeVspace vaddr =>
        rw [show map' = _ from hst]
        exact hok.petmemFreeMap vaddr

/-- A map without allocated nodes is the initial one: it has one node, and that spans the region. -/
theorem MapOk.eq_init {map : MemMap} (h : MapOk map) (hfree : ∀ n ∈ map, n.allocated = false) :
    map = petmemInitProcess := by
  have htiles := h.tiles
  have hchain := h.coalesced
  cases map with
  | nil => cases htiles
  | cons a rest =>
      cases rest with
      | cons b rest =>
          -- two free neighbours cannot be
          rcases (List.isChain_cons_cons.1 hchain).1 with ha | hb
          · rw [hfree a (by simp)] at ha
            cases ha
          · rw [hfree b (by simp)] at hb
            cases hb
      | nil =>
          obtain ⟨hstart, hend⟩ := htiles
          have hend' : petmemRegionStart + a.size = petmemRegionEnd := hend
          have hsize : a.size = petmemRegionEnd - petmemRegionStart := by omega
          have ha : a.allocated = false := hfree a (by simp)
          obtain ⟨allocated, size, start⟩ := a
          cases hstart
          cases hsize
          cases ha
          rfl

/-- After any sequence of allocations and frees the nodes tile the region in units of pages, no two
neighbours are both free, and a map without allocated nodes is the initial one. -/
theorem mem_map_tiles_region {calls : List MapCall} {map : MemMap} (h : memMaps.Reach calls map) :
    map.head?.map MapNode.start = some petmemRegionStart ∧
      map.IsChain (fun a b => a.start + a.size = b.start) ∧
      (map.map MapNode.size).sum = petmemRegionEnd - petmemRegionStart ∧
      (∀ n ∈ map, pageSize ∣ n.start ∧ pageSize ∣ n.size) ∧
      map.IsChain (fun a b => ¬ (a.allocated = false ∧ b.allocated = false)) ∧
      ((∀ n ∈ map, n.allocated = false) → map = petmemInitProcess) := by
  have hok := memMaps_mapOk h
  refine ⟨?_, hok.tiles.isChain, ?_, fun n hn => ⟨(hok.aligned n hn).start,
    (hok.aligned n hn).size⟩, hok.coalesced.imp fun a b hab => ?_, hok.eq_init⟩
  · have htiles := hok.tiles
    cases map with
    | nil => cases htiles
    | cons a rest => exact congrArg some htiles.1
  · have hsum := hok.tiles.sum_sizes
    omega
  · rintro ⟨ha, hb⟩
    rcases hab with hab | hab
    · rw [ha] at hab
      cases hab
    · rw [hb] at hab
      cases hab

/-- Three allocations, one of no pages at all, and a free that merges with the node after it. -/
theorem mem_map_tiles_region_four_calls :
    memMaps.Reach ([] ++ [.allocVspace 0] ++ [.allocVspace 2] ++ [.allocVspace 1] ++
        [.freeVspace 0x1000002000])
      [⟨true, 0, 0x1000000000⟩, ⟨true, 0x2000, 0x1000000000⟩,
        ⟨false, 0x1fffffe000, 0x1000002000⟩] ∧
      ([⟨true, 0, 0x1000000000⟩, ⟨true, 0x2000, 0x1000000000⟩,
        ⟨false, 0x1fffffe000, 0x1000002000⟩].map MapNode.size).sum =
          petmemRegionEnd - petmemRegionStart := by
  have hrun : memMaps.Reach ([] ++ [MapCall.allocVspace 0] ++ [MapCall.allocVspace 2] ++
        [MapCall.allocVspace 1] ++ [MapCall.freeVspace 0x1000002000])
      [⟨true, 0, 0x1000000000⟩, ⟨true, 0x2000, 0x1000000000⟩,
        ⟨false, 0x1fffffe000, 0x1000002000⟩] :=
    .step (.step (.step (.step (.init rfl) rfl) rfl) rfl) rfl
  exact ⟨hrun, (mem_map_tiles_region hrun).2.2.1⟩

end PetKernel.VirtualMemory
