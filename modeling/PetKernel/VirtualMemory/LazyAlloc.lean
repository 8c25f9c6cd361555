import PetKernel.VirtualMemory.LiveAllocations

/-!
# What `LAZY_ALLOC` hands out

`petmem_alloc_vspace` takes the first free node that is large enough. Since two free nodes are never
neighbours, that is the lowest range of the region that no live allocation uses, unless an empty
allocation stands in this range: an empty node occupies no byte, but it keeps the free nodes on its
two sides from being merged. `lowestFit_iff` says that this is the only exception, and
`empty_allocation_splits_gap` is a run that meets it.

`lazyAlloc` is the branch of `petmem_ioctl`. It takes only the address 0 for a failure, while
`petmem_alloc_vspace` fails with `(uintptr_t)-1`. `repliesBacked_iff` says for which requests the
address that is copied back to the user stands for memory of the size asked for.
-/

set_option autoImplicit false

namespace PetKernel.VirtualMemory

open PetKernel.Library

/-! ## The lowest fit -/

/-- The `size` bytes from `a` on lie in the region and belong to no live allocation. -/
structure Fits (map : MemMap) (size a : Nat) : Prop where
  start_le : petmemRegionStart ≤ a
  le_end : a + size ≤ petmemRegionEnd
  unused : ∀ n ∈ allocatedNodes map, ∀ x, a ≤ x → x < a + size →
    ¬ (n.start ≤ x ∧ x < n.start + n.size)

/-- An allocation takes the lowest range that fits and records it beside the other live allocations;
it fails exactly if nothing fits. -/
structure LowestFit (map : MemMap) (numPages : Nat) : Prop where
  lowest : ∀ a, IsLeast {a | Fits map (numPages * pageSize) a} a →
    (petmemAllocVspace map numPages).1 = a ∧
      (allocatedNodes (petmemAllocVspace map numPages).2).Perm
        (⟨true, numPages * pageSize, a⟩ :: allocatedNodes map)
  fails : petmemAllocVspace map numPages = (2 ^ 64 - 1, map) ↔
    ∀ a, ¬ Fits map (numPages * pageSize) a

/-- An empty live allocation stands strictly inside the `size` bytes from `a` on. -/
def EmptyInside (map : MemMap) (size a : Nat) : Prop :=
  ∃ z ∈ allocatedNodes map, z.size = 0 ∧ a < z.start ∧ z.start < a + size

instance (map : MemMap) (size a : Nat) : Decidable (EmptyInside map size a) :=
  inferInstanceAs (Decidable (∃ z ∈ allocatedNodes map, _))

/-- If a node of the map is free and large enough, then the loop finds one that starts no later. -/
theorem allocIn_start_le {reqSize lo hi : Nat} {map : MemMap} {f : MapNode}
    (htiles : Tiles MapNode.start MapNode.size lo hi map) (hf : f ∈ map)
    (hfree : f.allocated = false) (hsize : reqSize ≤ f.size) :
    ∃ r, allocIn reqSize map = some r ∧ r.1 ≤ f.start := by
  induction map generalizing lo with
  | nil => cases hf
  | cons cur rest ih =>
      rw [allocIn]
      by_cases hfit : cur.allocated = false ∧ reqSize ≤ cur.size
      · rw [if_pos hfit]
        refine ⟨_, rfl, ?_⟩
        have hlo := (htiles.bounds hf).1
        rw [← htiles.1] at hlo
        exact hlo
      · rw [if_neg hfit]
        rcases List.mem_cons.1 hf with rfl | hf
        · exact absurd ⟨hfree, hsize⟩ hfit
        · obtain ⟨r, hr, hle⟩ := ih htiles.2 hf
          refine ⟨(r.1, cur :: r.2), ?_, hle⟩
          rw [hr, Option.map_some]

namespace MapOk

variable {map : MemMap} {size a : Nat}

/-- Two nodes that share a byte are the same node. -/
theorem eq_of_shared (h : MapOk map) {m n : MapNode} (hm : m ∈ map) (hn : n ∈ map) {x : Nat}
    (hmx : m.start ≤ x ∧ x < m.start + m.size) (hnx : n.start ≤ x ∧ x < n.start + n.size) :
    m = n := by
  by_contra hne
  rcases h.tiles.apart hm hn hne with hle | hle
  · omega
  · omega

/-- The start of a node lies inside no other one. -/
theorem not_start_inside (h : MapOk map) {m n : MapNode} (hm : m ∈ map) (hn : n ∈ map) :
    ¬ (n.start < m.start ∧ m.start < n.start + n.size) := by
  rintro ⟨hlo, hhi⟩
  have hne : m ≠ n := by
    rintro rfl
    omega
  rcases h.tiles.apart hm hn hne with hle | hle
  · omega
  · omega

/-- A free node that is large enough is a fit. -/
theorem fits_of_free (h : MapOk map) {f : MapNode} (hf : f ∈ map) (hfree : f.allocated = false)
    (hsize : size ≤ f.size) : Fits map size f.start := by
  have hbounds := h.tiles.bounds hf
  refine ⟨hbounds.1, by omega, fun n hn x hlo hhi hnx => ?_⟩
  obtain ⟨hn, halloc⟩ := mem_allocatedNodes.1 hn
  obtain rfl := h.eq_of_shared hf hn ⟨hlo, by omega⟩ hnx
  rw [hfree] at halloc
  cases halloc

/-- The lowest fit starts at a free node that is not empty. -/
theorem exists_free_at_lowest (h : MapOk map) (hsize : 0 < size)
    (ha : IsLeast {a | Fits map size a} a) :
    ∃ f ∈ map, f.allocated = false ∧ f.start = a ∧ 0 < f.size := by
  obtain ⟨hfit, hleast⟩ := ha
  have hend := hfit.le_end
  obtain ⟨f, hf, hlo, hhi⟩ := h.tiles.cover hfit.start_le (show a < petmemRegionEnd by omega)
  have hfree : f.allocated = false := by
    refine Bool.eq_false_iff.2 fun halloc => ?_
    exact hfit.unused f (mem_allocatedNodes.2 ⟨hf, halloc⟩) a (Nat.le_refl a) (by omega) ⟨hlo, hhi⟩
  refine ⟨f, hf, hfree, ?_, by omega⟩
  by_contra hne
  -- otherwise the range could start one byte earlier
  have hearlier : Fits map size (a - 1) := by
    refine ⟨(h.tiles.bounds hf).1.trans (by omega), by omega, fun n hn x hxlo hxhi hnx => ?_⟩
    rcases Nat.lt_or_ge x a with hlt | hge
    · obtain ⟨hn, halloc⟩ := mem_allocatedNodes.1 hn
      obtain rfl := h.eq_of_shared hf hn ⟨by omega, by omega⟩ hnx
      rw [hfree] at halloc
      cases halloc
    · exact hfit.unused n hn x hge (by omega) hnx
  have hle := hleast hearlier
  omega

/-- A node that ends below the end of the region has a successor, and not both are free. -/
theorem exists_next (h : MapOk map) {f : MapNode} (hf : f ∈ map)
    (hend : f.start + f.size < petmemRegionEnd) :
    ∃ g ∈ map, g.start = f.start + f.size ∧ NotBothFree f g := by
  obtain ⟨as, bs, rfl⟩ := List.append_of_mem hf
  obtain ⟨mid, -, hstart, hrest⟩ := tiles_append.1 h.tiles
  cases bs with
  | nil =>
      have heq : mid + f.size = petmemRegionEnd := hrest
      omega
  | cons g bs =>
      have hchain := (List.isChain_append.1 h.coalesced).2.1
      refine ⟨g, by simp, ?_, (List.isChain_cons_cons.1 hchain).1⟩
      rw [hrest.1, hstart]

/-- The free node at the lowest fit is large enough, unless an empty allocation stands in the
range. -/
theorem le_size_of_lowest (h : MapOk map) (ha : IsLeast {a | Fits map size a} a)
    (hempty : ¬ EmptyInside map size a) {f : MapNode} (hf : f ∈ map) (hfree : f.allocated = false)
    (hstart : f.start = a) (hpos : 0 < f.size) : size ≤ f.size := by
  by_contra hlt
  have hend := ha.1.le_end
  obtain ⟨g, hg, hgstart, hboth⟩ := h.exists_next hf (by omega)
  -- the successor is allocated, so none of its bytes is in the range
  have halloc : g.allocated = true := by
    rcases hboth with hfalloc | hgalloc
    · rw [hfree] at hfalloc
      cases hfalloc
    · exact hgalloc
  have hgmem := mem_allocatedNodes.2 ⟨hg, halloc⟩
  rcases Nat.eq_zero_or_pos g.size with hzero | hgpos
  · exact hempty ⟨g, hgmem, hzero, by omega, by omega⟩
  · exact ha.1.unused g hgmem g.start (by omega) (by omega) ⟨Nat.le_refl _, by omega⟩

end MapOk

/-- What an allocation does: nothing, or it splits a free node that is large enough. -/
theorem petmemAllocVspace_cases (map : MemMap) {numPages : Nat}
    (hlt : numPages * pageSize < 2 ^ 64) :
    (allocIn (numPages * pageSize) map = none ∧ petmemAllocVspace map numPages =
      (2 ^ 64 - 1, map)) ∨
    ∃ r, allocIn (numPages * pageSize) map = some r ∧ petmemAllocVspace map numPages = r ∧
      (∃ cur ∈ map, cur.allocated = false ∧ numPages * pageSize ≤ cur.size ∧ r.1 = cur.start) ∧
      (allocatedNodes r.2).Perm (⟨true, numPages * pageSize, r.1⟩ :: allocatedNodes map) := by
  unfold petmemAllocVspace
  rw [Nat.mod_eq_of_lt hlt]
  cases hr : allocIn (numPages * pageSize) map with
  | none => exact Or.inl ⟨rfl, rfl⟩
  | some r =>
      obtain ⟨as, cur, bs, rfl, hfree, hsize, rfl⟩ := allocIn_eq_some hr
      refine Or.inr ⟨_, rfl, rfl, ⟨cur, by simp, hfree, hsize, rfl⟩, ?_⟩
      simp only [allocatedNodes, List.filter_append, List.append_assoc]
      rw [List.filter_cons_of_pos rfl, List.filter_cons_of_neg (fun hc => by cases hc),
        List.filter_cons_of_neg (by rw [hfree]; exact Bool.false_ne_true)]
      exact List.perm_middle

/-- The address of an allocation that succeeds is a fit. -/
theorem MapOk.fits_of_allocIn {map : MemMap} (h : MapOk map) {numPages : Nat} {r : Nat × MemMap}
    (hcur : ∃ cur ∈ map, cur.allocated = false ∧ numPages * pageSize ≤ cur.size ∧ r.1 = cur.start) :
    Fits map (numPages * pageSize) r.1 := by
  obtain ⟨cur, hcur, hfree, hsize, hstart⟩ := hcur
  rw [hstart]
  exact h.fits_of_free hcur hfree hsize

theorem MapOk.lowestFit_of_not_emptyInside {map : MemMap} (h : MapOk map) {numPages : Nat}
    (hpos : 1 ≤ numPages) (hlt : numPages * pageSize < 2 ^ 64)
    (hempty : ∀ a, IsLeast {a | Fits map (numPages * pageSize) a} a →
      ¬ EmptyInside map (numPages * pageSize) a) : LowestFit map numPages := by
  have hsize : 0 < numPages * pageSize := Nat.mul_pos hpos (by decide)
  -- the loop finds a node at the lowest fit, or an earlier one
  have hfound : ∀ a, IsLeast {a | Fits map (numPages * pageSize) a} a →
      ∃ r, allocIn (numPages * pageSize) map = some r ∧ r.1 ≤ a := by
    intro a ha
    obtain ⟨f, hf, hfree, rfl, hfpos⟩ := h.exists_free_at_lowest hsize ha
    exact allocIn_start_le h.tiles hf hfree
      (h.le_size_of_lowest ha (hempty _ ha) hf hfree rfl hfpos)
  rcases petmemAllocVspace_cases map hlt with ⟨hnone, heq⟩ | ⟨r, hsome, heq, hcur, hperm⟩
  · have hno : ∀ a, ¬ Fits map (numPages * pageSize) a := by
      intro a hfit
      have hne : {a | Fits map (numPages * pageSize) a}.Nonempty := ⟨a, hfit⟩
      obtain ⟨r, hsome, -⟩ := hfound _ ⟨Nat.sInf_mem hne, fun b hb => Nat.sInf_le hb⟩
      rw [hnone] at hsome
      cases hsome
    exact ⟨fun a ha => absurd ha.1 (hno a), fun _ => hno, fun _ => heq⟩
  · have hfit := h.fits_of_allocIn hcur
    refine ⟨fun a ha => ?_, fun hfail => ?_, fun hno => absurd hfit (hno _)⟩
    · obtain ⟨r', hr', hle⟩ := hfound a ha
      obtain rfl := Option.some.inj (hsome.symm.trans hr')
      rw [heq, ← Nat.le_antisymm hle (ha.2 hfit)]
      exact ⟨rfl, hperm⟩
    · -- no address of the region is `(uintptr_t)-1`
      have hle := hfit.le_end
      rw [heq] at hfail
      rw [hfail] at hle
      exact absurd hle (by unfold petmemRegionEnd; omega)

theorem MapOk.not_emptyInside_of_lowestFit {map : MemMap} (h : MapOk map) {numPages : Nat}
    (hlt : numPages * pageSize < 2 ^ 64) (hlow : LowestFit map numPages) {a : Nat}
    (ha : IsLeast {a | Fits map (numPages * pageSize) a} a) :
    ¬ EmptyInside map (numPages * pageSize) a := by
  rintro ⟨z, hz, -, hzlo, hzhi⟩
  rcases petmemAllocVspace_cases map hlt with ⟨-, heq⟩ | ⟨r, -, heq, hcur, -⟩
  · exact hlow.fails.1 heq a ha.1
  · obtain ⟨cur, hcur, -, hsize, hstart⟩ := hcur
    have haddr := (hlow.lowest a ha).1
    rw [heq, hstart] at haddr
    -- the node that was split spans the range, so that no other node starts in it
    exact h.not_start_inside (mem_allocatedNodes.1 hz).1 hcur ⟨by omega, by omega⟩

/-- In every map that allocations and frees lead to, an allocation of at least one page is the
lowest fit exactly if no empty live allocation stands strictly inside the lowest range that fits. -/
theorem lowestFit_iff {calls : List MapCall} {map : MemMap} (h : memMaps.Reach calls map)
    {numPages : Nat} (hpos : 1 ≤ numPages) (hlt : numPages * pageSize < 2 ^ 64) :
    LowestFit map numPages ↔
      ∀ a, IsLeast {a | Fits map (numPages * pageSize) a} a →
        ¬ EmptyInside map (numPages * pageSize) a := by
  have hok := memMaps_mapOk h
  constructor
  · intro hlow a ha
    exact hok.not_emptyInside_of_lowestFit hlt hlow ha
  · exact hok.lowestFit_of_not_emptyInside hpos hlt

/-- A page after a live page. -/
theorem lowestFit_iff_second_page :
    ∃ map, memMaps.Reach [.allocVspace 1] map ∧
      allocatedNodes map = [⟨true, 0x1000, 0x1000000000⟩] ∧ LowestFit map 1 := by
  have hrun : memMaps.Reach ([] ++ [MapCall.allocVspace 1])
      [⟨true, 0x1000, 0x1000000000⟩, ⟨false, 0x1ffffff000, 0x1000001000⟩] :=
    .step (.init rfl) rfl
  refine ⟨_, hrun, rfl, (lowestFit_iff hrun (by decide) (by decide)).2 ?_⟩
  rintro a - ⟨z, hz, hzero, -⟩
  rw [List.mem_singleton.1 hz] at hzero
  cases hzero

/-- An allocation of one page, one of no pages, and a free of the first: two pages fit at the start
of the region, but the empty allocation has kept the free page from being merged with the free rest.
Two pages are placed one page higher, and for the whole region the allocation fails. -/
theorem empty_allocation_splits_gap :
    ∃ map, memMaps.Reach [.allocVspace 1, .allocVspace 0, .freeVspace 0x1000000000] map ∧
      Fits map (2 * pageSize) 0x1000000000 ∧ (petmemAllocVspace map 2).1 = 0x1000001000 ∧
      ¬ LowestFit map 2 ∧
      Fits map (0x2000000 * pageSize) 0x1000000000 ∧
      petmemAllocVspace map 0x2000000 = (2 ^ 64 - 1, map) := by
  have hrun : memMaps.Reach ([] ++ [MapCall.allocVspace 1] ++ [MapCall.allocVspace 0] ++
        [MapCall.freeVspace 0x1000000000])
      [⟨false, 0x1000, 0x1000000000⟩, ⟨true, 0, 0x1000001000⟩,
        ⟨false, 0x1ffffff000, 0x1000001000⟩] :=
    .step (.step (.step (.init rfl) rfl) rfl) rfl
  -- the only live allocation has no bytes
  have hfits : ∀ size, 0x1000000000 + size ≤ petmemRegionEnd →
      Fits [⟨false, 0x1000, 0x1000000000⟩, ⟨true, 0, 0x1000001000⟩,
        ⟨false, 0x1ffffff000, 0x1000001000⟩] size 0x1000000000 := by
    intro size hle
    refine ⟨Nat.le_refl _, hle, fun n hn x _ _ hnx => ?_⟩
    rw [List.mem_singleton.1 hn] at hnx
    exact absurd hnx.2 (Nat.not_lt.2 hnx.1)
  refine ⟨_, hrun, hfits _ (by decide), rfl, fun hlow => ?_, hfits _ (by decide), rfl⟩
  have haddr := (hlow.lowest 0x1000000000 ⟨hfits _ (by decide), fun b hb => hb.start_le⟩).1
  exact absurd haddr (by decide)

/-- Without empty allocations the lowest fit is always taken. -/
theorem LiveOk.lowestFit {map : MemMap} (h : LiveOk map) {numPages : Nat} (hpos : 1 ≤ numPages)
    (hlt : numPages * pageSize < 2 ^ 64) : LowestFit map numPages := by
  refine h.ok.lowestFit_of_not_emptyInside hpos hlt ?_
  rintro a - ⟨z, hz, hzero, -⟩
  exact absurd hzero (Nat.ne_of_gt (h.size_pos z hz))

/-! ## The `LAZY_ALLOC` branch -/

/-- `struct alloc_request`. -/
structure AllocRequest where
  size : Nat
  addr : Nat
deriving DecidableEq, Repr

/-- `-EFAULT`. -/
def negEfault : Int := -14

/-- The `LAZY_ALLOC` branch of `petmem_ioctl`: the return value, the request that was copied back to
the user, and the map. `argp` is what `copy_from_user` reads and `copyToUser` says whether
`copy_to_user` succeeds. -/
def lazyAlloc (map : MemMap) (argp : Option AllocRequest) (copyToUser : Bool) :
    Int × Option AllocRequest × MemMap :=
  match argp with
  | none => (negEfault, none, map)
  | some req =>
      let r := petmemAllocVspace map (lazyAllocPages req.size)
      if r.1 = 0 then (0, none, r.2)
      else if copyToUser = true then (0, some { req with addr := r.1 }, r.2)
      else (negEfault, none, r.2)

/-- The bytes from the address of a request on, as many as it asks for, lie in the region and in one
allocated node. -/
structure AllocRequest.Backed (req : AllocRequest) (map : MemMap) : Prop where
  start_le : petmemRegionStart ≤ req.addr
  le_end : req.addr + req.size ≤ petmemRegionEnd
  node : ∃ n ∈ allocatedNodes map, n.start ≤ req.addr ∧ req.addr + req.size ≤ n.start + n.size

/-- Whenever a request is copied back with an address and the branch returns 0, the address backs
the request. -/
def RepliesBacked (map : MemMap) (req : AllocRequest) : Prop :=
  ∀ copyToUser reply map', lazyAlloc map (some req) copyToUser = (0, some reply, map') →
    reply.addr ≠ 0 → reply.Backed map'

theorem lazyAllocPages_mul_lt (size : Nat) : lazyAllocPages size * pageSize < 2 ^ 64 :=
  Nat.lt_of_le_of_lt (Nat.div_mul_le_self _ _) (Nat.mod_lt _ (by decide))

/-- Where rounding up does not wrap, it gives the least number of pages that hold the bytes. -/
theorem lazyAllocPages_mul_le_iff {size bytes : Nat} (hlt : size + (pageSize - 1) < 2 ^ 64)
    (hbytes : pageSize ∣ bytes) : lazyAllocPages size * pageSize ≤ bytes ↔ size ≤ bytes := by
  obtain ⟨k, rfl⟩ := hbytes
  unfold lazyAllocPages pageSize at *
  rw [Nat.mod_eq_of_lt hlt]
  omega

/-- An allocation for a request never returns the address 0, so the branch returns 0 and, if the
copy succeeds, hands out what `petmem_alloc_vspace` returned. -/
theorem MapOk.lazyAlloc_eq {map : MemMap} (h : MapOk map) (req : AllocRequest) :
    lazyAlloc map (some req) true =
      (0, some { req with addr := (VirtualMemory.petmemAllocVspace map (lazyAllocPages req.size)).1
        }, (VirtualMemory.petmemAllocVspace map (lazyAllocPages req.size)).2) := by
  have hne : (VirtualMemory.petmemAllocVspace map (lazyAllocPages req.size)).1 ≠ 0 := by
    rcases petmemAllocVspace_cases map (lazyAllocPages_mul_lt req.size) with
      ⟨-, heq⟩ | ⟨r, -, heq, hcur, -⟩
    · rw [heq]
      exact (show 2 ^ 64 - 1 ≠ 0 by decide)
    · have hstart := (h.fits_of_allocIn hcur).start_le
      rw [heq]
      exact Nat.ne_of_gt (Nat.lt_of_lt_of_le (by decide) hstart)
  simp only [lazyAlloc, if_neg hne, if_true]

/-- The branch hands out an address only if the copy to the user succeeds. -/
theorem copyToUser_of_lazyAlloc {map map' : MemMap} {req reply : AllocRequest} {copyToUser : Bool}
    {res : Int} (h : lazyAlloc map (some req) copyToUser = (res, some reply, map')) :
    copyToUser = true := by
  by_contra hcopy
  simp only [lazyAlloc, if_neg hcopy] at h
  split at h
  · cases h
  · cases h

theorem MapOk.repliesBacked {map : MemMap} (h : MapOk map) {req : AllocRequest}
    (hlt : req.size + (pageSize - 1) < 2 ^ 64) {n : MapNode} (hn : n ∈ map)
    (hfree : n.allocated = false) (hsize : req.size ≤ n.size) : RepliesBacked map req := by
  intro copyToUser reply map' hres _
  obtain rfl := copyToUser_of_lazyAlloc hres
  rw [h.lazyAlloc_eq] at hres
  have hround := (lazyAllocPages_mul_le_iff hlt (h.aligned n hn).size).2 hsize
  obtain ⟨r, hsome, -⟩ := allocIn_start_le h.tiles hn hfree hround
  rcases petmemAllocVspace_cases map (lazyAllocPages_mul_lt req.size) with
    ⟨hnone, -⟩ | ⟨r', -, heq, hcur, hperm⟩
  · rw [hnone] at hsome
    cases hsome
  · rw [heq] at hres
    cases hres
    have hfit := h.fits_of_allocIn hcur
    have hle : req.size ≤ lazyAllocPages req.size * pageSize :=
      (lazyAllocPages_mul_le_iff hlt (Nat.dvd_mul_left _ _)).1 (Nat.le_refl _)
    refine ⟨hfit.start_le, (Nat.add_le_add_left hle _).trans hfit.le_end, _,
      hperm.mem_iff.2 List.mem_cons_self, Nat.le_refl _, Nat.add_le_add_left hle _⟩

theorem MapOk.of_repliesBacked {map : MemMap} (h : MapOk map) {req : AllocRequest}
    (hback : RepliesBacked map req) :
    req.size + (pageSize - 1) < 2 ^ 64 ∧ ∃ n ∈ map, n.allocated = false ∧ req.size ≤ n.size := by
  have hreply := hback true _ _ (h.lazyAlloc_eq req)
  rcases petmemAllocVspace_cases map (lazyAllocPages_mul_lt req.size) with
    ⟨-, heq⟩ | ⟨r, -, heq, hcur, -⟩
  · -- the address `(uintptr_t)-1` is not in the region
    rw [heq] at hreply
    have hend := (hreply (show 2 ^ 64 - 1 ≠ 0 by decide)).le_end
    exact absurd ((Nat.le_add_right _ _).trans hend) (show ¬ 2 ^ 64 - 1 ≤ petmemRegionEnd by decide)
  · have hstart := (h.fits_of_allocIn hcur).start_le
    have hbacked := hreply (by
      rw [heq]
      exact Nat.ne_of_gt (Nat.lt_of_lt_of_le (by decide) hstart))
    have hlt : req.size + (pageSize - 1) < 2 ^ 64 := by
      have hend := (Nat.le_add_left _ _).trans hbacked.le_end
      exact Nat.lt_of_le_of_lt (Nat.add_le_add_right hend _) (by decide)
    obtain ⟨cur, hcur, hfree, hsize, -⟩ := hcur
    exact ⟨hlt, cur, hcur, hfree,
      (lazyAllocPages_mul_le_iff hlt (h.aligned cur hcur).size).1 hsize⟩

/-- In every map that allocations and frees lead to, the address that is handed out backs the
request exactly if rounding the size up to pages does not wrap and a free node is as large as the
size. -/
theorem repliesBacked_iff {calls : List MapCall} {map : MemMap} (h : memMaps.Reach calls map)
    (req : AllocRequest) :
    RepliesBacked map req ↔
      req.size + (pageSize - 1) < 2 ^ 64 ∧ ∃ n ∈ map, n.allocated = false ∧ req.size ≤ n.size := by
  have hok := memMaps_mapOk h
  constructor
  · exact hok.of_repliesBacked
  · rintro ⟨hlt, n, hn, hfree, hsize⟩
    exact hok.repliesBacked hlt hn hfree hsize

/-- The first request of a process, for one byte. -/
theorem repliesBacked_iff_one_byte :
    memMaps.Reach [] petmemInitProcess ∧ RepliesBacked petmemInitProcess ⟨1, 0⟩ ∧
      (lazyAlloc petmemInitProcess (some ⟨1, 0⟩) true).2.1 = some ⟨1, 0x1000000000⟩ := by
  have hrun : memMaps.Reach [] petmemInitProcess := .init rfl
  refine ⟨hrun, (repliesBacked_iff hrun ⟨1, 0⟩).2 ⟨by decide, ?_⟩, rfl⟩
  exact ⟨_, List.mem_singleton_self _, rfl, by decide⟩

/-- A new process asks for more than the region holds: the branch returns 0 and hands out the
address `(uintptr_t)-1`. For a size whose rounding wraps it hands out the start of an empty node. -/
theorem lazy_alloc_failure_reported_as_success :
    memMaps.Reach [] petmemInitProcess ∧
      lazyAlloc petmemInitProcess (some ⟨2 ^ 40, 0⟩) true =
        (0, some ⟨2 ^ 40, 2 ^ 64 - 1⟩, petmemInitProcess) ∧
      ¬ RepliesBacked petmemInitProcess ⟨2 ^ 40, 0⟩ ∧
      lazyAlloc petmemInitProcess (some ⟨2 ^ 64 - 1, 0⟩) true =
        (0, some ⟨2 ^ 64 - 1, 0x1000000000⟩,
          [⟨true, 0, 0x1000000000⟩, ⟨false, 0x2000000000, 0x1000000000⟩]) := by
  refine ⟨.init rfl, rfl, fun hback => ?_, rfl⟩
  have hend := (hback true ⟨2 ^ 40, 2 ^ 64 - 1⟩ petmemInitProcess rfl (by decide)).le_end
  exact absurd hend (by decide)

end PetKernel.VirtualMemory
