import PetKernel.VirtualMemory.MemMap

/-!
# Telling live allocations apart

`petmem_free_vspace` looks for the node to free by its start, and does not stop at the first one
that it finds. So a free is exact only if no two allocated nodes have the same start.

Nodes lie side by side, hence two of them have the same start only if one is empty. `LAZY_ALLOC`
makes an empty node when the size, rounded up to pages, is zero: for the size 0, and for the sizes
above `2 ^ 64 - pageSize`, where rounding wraps. `lazy_alloc_zero_shares_start` is such a run, in
which one free takes a second allocation with it. In runs without such sizes live allocations have
different starts, and a free releases at most one of them (`live_allocations_distinct`).
-/

set_option autoImplicit false

namespace PetKernel.VirtualMemory

open PetKernel.Library

/-- The requests of a process that change its memory map. -/
inductive LazyRequest where
  | lazyAlloc (size : Nat)
  | lazyFree (addr : Nat)
deriving DecidableEq, Repr

/-- What `petmem_ioctl` calls for a request. -/
def LazyRequest.call : LazyRequest → MapCall
  | .lazyAlloc size => .allocVspace (lazyAllocPages size)
  | .lazyFree addr => .freeVspace addr

/-- The memory map of a process that sends `LAZY_ALLOC` and `LAZY_FREE` requests. -/
def lazyMaps : Machine MemMap LazyRequest where
  init := memMaps.init
  step map req map' := memMaps.step map req.call map'

/-- The size of a `LAZY_ALLOC` is not zero and rounding it up to pages does not wrap. -/
def someBytes (_ : MemMap) : LazyRequest → Prop
  | .lazyAlloc size => 0 < size ∧ size ≤ 2 ^ 64 - pageSize
  | .lazyFree _ => True

instance (map : MemMap) (req : LazyRequest) : Decidable (someBytes map req) :=
  match req with
  | .lazyAlloc _ => inferInstanceAs (Decidable (_ ∧ _))
  | .lazyFree _ => inferInstanceAs (Decidable True)

theorem lazyAllocPages_pos {size : Nat} (hpos : 0 < size) (hle : size ≤ 2 ^ 64 - pageSize) :
    0 < lazyAllocPages size * pageSize % 2 ^ 64 := by
  unfold lazyAllocPages pageSize at *
  omega

/-! ## Allocated nodes have bytes -/

/-- A map in order whose allocated nodes are not empty. -/
structure LiveOk (map : MemMap) : Prop where
  ok : MapOk map
  size_pos : ∀ n ∈ allocatedNodes map, 0 < n.size

/-- The allocated nodes after an allocation are those before and perhaps a new one of the size asked
for. -/
theorem mem_allocatedNodes_petmemAllocVspace {map : MemMap} {numPages : Nat} {n : MapNode}
    (hn : n ∈ allocatedNodes (petmemAllocVspace map numPages).2) :
    n ∈ allocatedNodes map ∨ n.size = numPages * pageSize % 2 ^ 64 := by
  unfold petmemAllocVspace at hn
  cases hr : allocIn (numPages * pageSize % 2 ^ 64) map with
  | none =>
      rw [hr] at hn
      exact Or.inl hn
  | some r =>
      rw [hr] at hn
      obtain ⟨as, cur, bs, rfl, -, -, rfl⟩ := allocIn_eq_some hr
      obtain ⟨hmem, halloc⟩ := mem_allocatedNodes.1 hn
      simp only [Option.getD_some, List.mem_append, List.mem_cons, List.not_mem_nil,
        or_false] at hmem
      rcases hmem with (hmem | rfl | rfl) | hmem
      · exact Or.inl (mem_allocatedNodes.2 ⟨by simp [hmem], halloc⟩)
      · exact Or.inr rfl
      · cases halloc
      · exact Or.inl (mem_allocatedNodes.2 ⟨by simp [hmem], halloc⟩)

theorem LiveOk.step {map map' : MemMap} {req : LazyRequest} (h : LiveOk map)
    (hreq : someBytes map req) (hst : lazyMaps.step map req map') : LiveOk map' := by
  cases req with
  | lazyAlloc size =>
      obtain rfl : map' = (petmemAllocVspace map (lazyAllocPages size)).2 := hst
      refine ⟨h.ok.petmemAllocVspace _, fun n hn => ?_⟩
      rcases mem_allocatedNodes_petmemAllocVspace hn with hold | hnew
      · exact h.size_pos n hold
      · rw [hnew]
        exact lazyAllocPages_pos hreq.1 hreq.2
  | lazyFree addr =>
      obtain rfl : map' = (petmemFreeMap map addr).1 := hst
      refine ⟨h.ok.petmemFreeMap addr, fun n hn => h.size_pos n ?_⟩
      exact (mem_allocatedNodes_petmemFreeMap.1 hn).1

theorem liveOk_of_reach {reqs : List LazyRequest} {map : MemMap}
    (h : (lazyMaps.guard someBytes).Reach reqs map) : LiveOk map := by
  refine h.invariant (fun map hmap => ?_) fun map req map' hok hst => hok.step hst.1 hst.2
  obtain rfl : map = petmemInitProcess := hmap
  refine ⟨mapOk_petmemInitProcess, fun n hn => ?_⟩
  exact absurd hn (by decide +revert)

namespace LiveOk

variable {map : MemMap}

/-- Of two allocated nodes the first ends before the second starts. -/
theorem pairwise_end_le (h : LiveOk map) :
    (allocatedNodes map).Pairwise fun a b => a.start + a.size ≤ b.start :=
  h.ok.tiles.pairwise.sublist List.filter_sublist

/-- Allocated nodes have different starts. -/
theorem pairwise_start_ne (h : LiveOk map) :
    (allocatedNodes map).Pairwise fun a b => a.start ≠ b.start := by
  refine h.pairwise_end_le.imp_of_mem fun {a b} ha _ hab => ?_
  have hpos := h.size_pos a ha
  omega

end LiveOk

/-! ## A free releases one node -/

/-- A free that matches no node changes nothing. -/
theorem freeNodes_of_no_match {page toFree : Nat} {prevs rest : List MapNode}
    (h : ∀ n ∈ rest, ¬ (n.start = page ∧ n.allocated = true)) :
    freeNodes page prevs toFree rest = (prevs.reverse ++ rest, toFree) := by
  induction rest generalizing prevs with
  | nil => rw [freeNodes, List.append_nil]
  | cons cur rest ih =>
      obtain ⟨hcur, hrest⟩ := List.forall_mem_cons.1 h
      rw [freeNodes_cons, if_neg hcur, ih hrest, List.reverse_cons, List.append_assoc]
      rfl

/-- The allocated nodes after a free that is not refused. -/
theorem allocatedNodes_petmemFreeMap {map : MemMap} {addr : Nat}
    (hin : vaddrInMap addr map = true) : allocatedNodes (petmemFreeMap map addr).1 =
      (allocatedNodes map).filter fun n => !decide (n.start = pageAddr addr) := by
  rw [petmemFreeMap, if_pos hin, allocatedNodes_freeNodes]
  simp only [allocatedNodes, List.reverse_nil, List.filter_nil, List.nil_append, List.filter_filter,
    Bool.and_comm]

/-- What a free does to the live allocations if their starts differ: nothing, or it releases one of
them and what this one occupied is free. -/
theorem LiveOk.petmemFreeMap_cases {map : MemMap} (h : LiveOk map) (addr : Nat) :
    (petmemFreeMap map addr).1 = map ∨
    ∃ as n bs, allocatedNodes map = as ++ n :: bs ∧
      allocatedNodes (petmemFreeMap map addr).1 = as ++ bs ∧
      ∀ x, n.start ≤ x → x < n.start + n.size →
        ∃ f ∈ (petmemFreeMap map addr).1, f.allocated = false ∧ f.start ≤ x ∧
          x < f.start + f.size := by
  by_cases hin : vaddrInMap addr map = true
  · by_cases hmatch : ∃ n ∈ allocatedNodes map, n.start = pageAddr addr
    · right
      obtain ⟨n, hn, hstart⟩ := hmatch
      obtain ⟨as, bs, hsplit⟩ := List.append_of_mem hn
      have hpair := h.pairwise_end_le
      have hne := h.pairwise_start_ne
      rw [hsplit] at hpair hne
      obtain ⟨-, hbs, has⟩ := List.pairwise_append.1 hne
      -- only `n` has the start that the loop looks for
      have hrest : allocatedNodes (petmemFreeMap map addr).1 = as ++ bs := by
        rw [allocatedNodes_petmemFreeMap hin, hsplit, List.filter_append,
          List.filter_cons_of_neg (by simp [hstart])]
        congr 1
        · refine List.filter_eq_self.2 fun a ha => ?_
          have hane := has a ha n List.mem_cons_self
          rw [hstart] at hane
          simpa using hane
        · refine List.filter_eq_self.2 fun b hb => ?_
          have hbne := (List.pairwise_cons.1 hbs).1 b hb
          rw [hstart] at hbne
          simpa using hbne.symm
      refine ⟨as, n, bs, hsplit, hrest, fun x hlo hhi => ?_⟩
      obtain ⟨hmem, -⟩ := mem_allocatedNodes.1 hn
      have hbounds := h.ok.tiles.bounds hmem
      obtain ⟨f, hf, hfx⟩ := (h.ok.petmemFreeMap addr).tiles.cover (p := x) (by omega) (by omega)
      refine ⟨f, hf, Bool.eq_false_iff.2 fun halloc => ?_, hfx⟩
      -- an allocated node there would have overlapped `n`
      have hlive : f ∈ as ++ bs := hrest ▸ mem_allocatedNodes.2 ⟨hf, halloc⟩
      obtain ⟨-, hbs, has⟩ := List.pairwise_append.1 hpair
      rcases List.mem_append.1 hlive with hfa | hfb
      · have hle := has f hfa n List.mem_cons_self
        omega
      · have hle := (List.pairwise_cons.1 hbs).1 f hfb
        omega
    · left
      rw [petmemFreeMap, if_pos hin, freeNodes_of_no_match, List.reverse_nil, List.nil_append]
      rintro n hn ⟨hstart, halloc⟩
      exact hmatch ⟨n, mem_allocatedNodes.2 ⟨hn, halloc⟩, hstart⟩
  · left
    rw [petmemFreeMap, if_neg hin]

/-- In a run whose allocations all ask for some bytes, no two allocated nodes have the same start,
and a free leaves the map as it is or turns exactly one allocated node into free space. -/
theorem live_allocations_distinct {reqs : List LazyRequest} {map : MemMap}
    (h : (lazyMaps.guard someBytes).Reach reqs map) :
    (allocatedNodes map).Pairwise (fun a b => a.start ≠ b.start) ∧
    ∀ addr, (petmemFreeMap map addr).1 = map ∨
      ∃ as n bs, allocatedNodes map = as ++ n :: bs ∧
        allocatedNodes (petmemFreeMap map addr).1 = as ++ bs ∧
        ∀ x, n.start ≤ x → x < n.start + n.size →
          ∃ f ∈ (petmemFreeMap map addr).1, f.allocated = false ∧ f.start ≤ x ∧
            x < f.start + f.size := by
  have hlive := liveOk_of_reach h
  exact ⟨hlive.pairwise_start_ne, hlive.petmemFreeMap_cases⟩

/-- Two live allocations, one of a single byte. -/
theorem live_allocations_distinct_two_nodes :
    ∃ map, (lazyMaps.guard someBytes).Reach [.lazyAlloc 1, .lazyAlloc 8192] map ∧
      allocatedNodes map = [⟨true, 0x1000, 0x1000000000⟩, ⟨true, 0x2000, 0x1000001000⟩] ∧
      (allocatedNodes map).Pairwise fun a b => a.start ≠ b.start := by
  have hrun : (lazyMaps.guard someBytes).Reach
      ([] ++ [LazyRequest.lazyAlloc 1] ++ [LazyRequest.lazyAlloc 8192])
      [⟨true, 0x1000, 0x1000000000⟩, ⟨true, 0x2000, 0x1000001000⟩,
        ⟨false, 0x1fffffd000, 0x1000003000⟩] :=
    .step (.step (.init rfl) ⟨by decide, rfl⟩) ⟨by decide, rfl⟩
  exact ⟨_, hrun, rfl, (live_allocations_distinct hrun).1⟩

/-- An allocation of no bytes and one of two pages get the same address. A free of this address
releases both. -/
theorem lazy_alloc_zero_shares_start :
    ∃ map, lazyMaps.Reach [.lazyAlloc 0, .lazyAlloc 8192] map ∧
      allocatedNodes map = [⟨true, 0, 0x1000000000⟩, ⟨true, 0x2000, 0x1000000000⟩] ∧
      ¬ (allocatedNodes map).Pairwise (fun a b => a.start ≠ b.start) ∧
      allocatedNodes (petmemFreeMap map 0x1000000000).1 = [] := by
  have hrun : lazyMaps.Reach ([] ++ [LazyRequest.lazyAlloc 0] ++ [LazyRequest.lazyAlloc 8192])
      [⟨true, 0, 0x1000000000⟩, ⟨true, 0x2000, 0x1000000000⟩,
        ⟨false, 0x1fffffe000, 0x1000002000⟩] :=
    .step (.step (.init rfl) rfl) rfl
  exact ⟨_, hrun, rfl, by decide, rfl⟩

end PetKernel.VirtualMemory
