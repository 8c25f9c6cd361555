import PetKernel.Library.Machine
import PetKernel.VirtualMemory.BuddyInvariant
import PetKernel.VirtualMemory.MemMap

/-!
# The list of memory pools

A model of `petmem_alloc_pages`, `petmem_free_pages` and the request `ADD_MEMORY` of
`virtual_memory/main.c`. The kernel maps physical memory at `PAGE_OFFSET`, here `off`: `__pa`
subtracts it and `__va` adds it, modulo `2 ^ 64`. Page addresses are physical, the pools hold
virtual addresses.

`petmem_alloc_pages` applies `__pa` to the `NULL` of an exhausted pool and takes the result for a
page; `AllocOk` says of which lists this does not happen. `petmem_free_pages` compares the physical
address with the virtual bounds of the pools. `conserved_iff_not_allocOk` says what follows: for
pools in the direct map, a page that was allocated is never put back.
-/

set_option autoImplicit false

namespace PetKernel.VirtualMemory

open PetKernel.Library

/-! ## The model -/

/-- `__pa(v)`. -/
def pa (off v : Nat) : Nat := sub64 v off

/-- `__va(p)`. -/
def va (off p : Nat) : Nat := add64 p off

/-- `fls(x)`: the position of the highest bit, counted from one. -/
def fls (x : Nat) : Nat := if x = 0 then 0 else Nat.log2 x + 1

/-- `PAGE_SHIFT`. -/
def pageShift : Nat := 12

/-- `get_order(size)`. -/
def getOrder (size : Nat) : Nat := fls (sub64 size 1 >>> pageShift)

/-- `0x1 << n`, a shift in `int`, which takes the count modulo 32, as an `unsigned long`. -/
def intShl (n : Nat) : Nat := if n % 32 = 31 then 2 ^ 64 - 2 ^ 31 else 2 ^ (n % 32)

/-- The order that is asked of a pool for a number of pages. -/
def pageOrder (numPages : Nat) : Nat := getOrder (numPages * pageSize % 2 ^ 64) + pageShift

/-- The loop of `petmem_alloc_pages` over the pools. -/
def allocPagesFrom (off order : Nat) : List BuddyMempool → Option (Nat × List BuddyMempool)
  | [] => some (0, [])
  | tmpPool :: rest => do
      let (block, tmpPool) ← buddyAlloc tmpPool order
      let paddr := pa off (block.getD 0)
      if paddr ≠ 0 then return (paddr, tmpPool :: rest)
      else do
        let (paddr, rest) ← allocPagesFrom off order rest
        return (paddr, tmpPool :: rest)

/-- `petmem_alloc_pages`. -/
def petmemAllocPages (off : Nat) (pools : List BuddyMempool) (numPages : Nat) :
    Option (Nat × List BuddyMempool) :=
  allocPagesFrom off (pageOrder numPages) pools

/-- The loop of `petmem_free_pages` over the pools. -/
def freePagesFrom (off pageAddr order : Nat) : List BuddyMempool → Option (List BuddyMempool)
  | [] => some []
  | tmpPool :: rest =>
      if tmpPool.baseAddr ≤ pageAddr ∧
          pageAddr < add64 tmpPool.baseAddr (intShl tmpPool.poolOrder) then
        (buddyFree tmpPool (va off pageAddr) order).map (· :: rest)
      else (freePagesFrom off pageAddr order rest).map (tmpPool :: ·)

/-- `petmem_free_pages`. -/
def petmemFreePages (off : Nat) (pools : List BuddyMempool) (pageAddr numPages : Nat) :
    Option (List BuddyMempool) :=
  freePagesFrom off pageAddr (pageOrder numPages) pools

/-- The loop of `ADD_MEMORY`, for at most `n` pools. `numPages` is a `u32`. -/
def addPools (memory : Nat → Nat) : Nat → Nat → Nat → List BuddyMempool → Option (List BuddyMempool)
  | 0, _, _, pools => some pools
  | n + 1, baseAddr, numPages, pools =>
      let regOrder := fls numPages
      if regOrder = 0 then some pools
      else
        match buddyInit baseAddr (regOrder + pageShift - 1) pageShift memory with
        | none => some pools
        | some tmpPool => do
            let tmpPool ← buddyFree tmpPool baseAddr (regOrder + pageShift - 1)
            addPools memory n (add64 baseAddr (intShl (regOrder - 1) * pageSize))
              ((numPages + (2 ^ 32 - intShl (regOrder - 1) % 2 ^ 32)) % 2 ^ 32) (tmpPool :: pools)

/-- `ADD_MEMORY`. A `u32` has 32 bits, and every turn of the loop clears the highest one. -/
def addMemory (off : Nat) (memory : Nat → Nat) (pools : List BuddyMempool) (baseAddr pages : Nat) :
    Option (List BuddyMempool) :=
  addPools memory 32 (va off baseAddr) (pages % 2 ^ 32) pools

/-- A call that changes the pools. -/
inductive PoolCall where
  | addMemory (memory : Nat → Nat) (baseAddr pages : Nat)
  | allocPages (numPages : Nat)
  | freePages (pageAddr numPages : Nat)

/-- What a call does; `none` after a `BUG_ON`. -/
def PoolCall.run (off : Nat) (pools : List BuddyMempool) : PoolCall → Option (List BuddyMempool)
  | .addMemory memory baseAddr pages => VirtualMemory.addMemory off memory pools baseAddr pages
  | .allocPages numPages => (petmemAllocPages off pools numPages).map Prod.snd
  | .freePages pageAddr numPages => petmemFreePages off pools pageAddr numPages

/-- The pools, from the empty list on. -/
def poolLists (off : Nat) : Machine (List BuddyMempool) PoolCall where
  init pools := pools = []
  step pools call pools' := call.run off pools = some pools'

/-! ## Addresses and orders -/

theorem va_pa {off v : Nat} (hoff : off < 2 ^ 64) (hv : v < 2 ^ 64) : va off (pa off v) = v := by
  unfold va pa add64 sub64
  omega

theorem pa_va {off p : Nat} (hoff : off < 2 ^ 64) (hp : p < 2 ^ 64) : pa off (va off p) = p := by
  unfold va pa add64 sub64
  omega

theorem pa_lt (off v : Nat) : pa off v < 2 ^ 64 := Nat.mod_lt _ (Nat.two_pow_pos 64)

theorem va_lt (off p : Nat) : va off p < 2 ^ 64 := Nat.mod_lt _ (Nat.two_pow_pos 64)

/-- A single page is a block of order 12. -/
theorem pageOrder_one : pageOrder 1 = pageShift := by decide

theorem two_pow_fls_le {x : Nat} (hx : x ≠ 0) : 2 ^ (fls x - 1) ≤ x := by
  rw [fls, if_neg hx]
  exact Nat.log2_self_le hx

theorem lt_two_pow_fls (x : Nat) : x < 2 ^ fls x := by
  unfold fls
  split
  next hx => simp [hx]
  next => exact Nat.lt_log2_self

theorem fls_pos {x : Nat} (hx : x ≠ 0) : 0 < fls x := by
  rw [fls, if_neg hx]
  exact Nat.succ_pos _

theorem fls_le {x n : Nat} (hx : x < 2 ^ n) : fls x ≤ n := by
  by_cases h : x = 0
  · simp [fls, h]
  · have hlt := Nat.lt_of_le_of_lt (two_pow_fls_le h) hx
    have hexp := (Nat.pow_lt_pow_iff_right (by decide)).1 hlt
    have hpos := fls_pos h
    omega

/-- What `num_pages` is after a pool was made for its highest bit. -/
theorem numPages_step {x : Nat} (hx : x ≠ 0) (hlt : x < 2 ^ 32) :
    (x + (2 ^ 32 - intShl (fls x - 1) % 2 ^ 32)) % 2 ^ 32 = x - 2 ^ (fls x - 1) := by
  have hle := two_pow_fls_le hx
  have hfls := fls_le hlt
  have hpos := fls_pos hx
  have hshl : intShl (fls x - 1) % 2 ^ 32 = 2 ^ (fls x - 1) := by
    unfold intShl
    rw [Nat.mod_eq_of_lt (show fls x - 1 < 32 by omega)]
    split
    next h31 =>
      rw [h31]
      rfl
    next => exact Nat.mod_eq_of_lt (Nat.pow_lt_pow_right (by decide) (by omega))
  rw [hshl]
  omega

/-- Only the bits below the highest one remain. -/
theorem numPages_step_lt {x : Nat} (hx : x ≠ 0) : x - 2 ^ (fls x - 1) < 2 ^ (fls x - 1) := by
  have hlt := lt_two_pow_fls x
  have hpow : 2 ^ fls x = 2 ^ (fls x - 1) + 2 ^ (fls x - 1) := by
    rw [← Nat.mul_two, ← Nat.pow_succ, Nat.succ_eq_add_one, Nat.sub_add_cancel (fls_pos hx)]
  omega

/-! ## Pools that `ADD_MEMORY` makes -/

/-- A pool of pages in which some blocks are handed out. -/
def PoolWf (mp : BuddyMempool) : Prop := mp.minOrder = pageShift ∧ ∃ out, PoolInv mp out ∅

/-- One turn of the loop of `ADD_MEMORY`. -/
theorem addPools_succ (memory : Nat → Nat) {base x : Nat} (hbase : base < 2 ^ 64) (hx : x ≠ 0)
    (hlt : x < 2 ^ 32) :
    ∃ mp, PoolInv mp ∅ ∅ ∧ mp.minOrder = pageShift ∧ mp.baseAddr = base ∧
      mp.poolOrder = fls x - 1 + pageShift ∧
      ∀ n pools, addPools memory (n + 1) base x pools =
        addPools memory n (add64 base (intShl (fls x - 1) * pageSize)) (x - 2 ^ (fls x - 1))
          (mp :: pools) := by
  have hpos := fls_pos hx
  have hfls := fls_le hlt
  have horder : fls x + pageShift - 1 = fls x - 1 + pageShift := by omega
  have hmin : ¬ fls x - 1 + pageShift < pageShift := by omega
  have hinit : ∃ mp₀, buddyInit base (fls x - 1 + pageShift) pageShift memory = some mp₀ ∧
      mp₀.minOrder = pageShift ∧ mp₀.baseAddr = base ∧ mp₀.poolOrder = fls x - 1 + pageShift := by
    have hsize : ¬ 2 ^ pageShift < sizeofBlock := by decide
    simp only [buddyInit, if_neg hsize, if_neg hmin]
    exact ⟨_, rfl, rfl, rfl, rfl⟩
  obtain ⟨mp₀, hinit, hm, hb, hp⟩ := hinit
  -- the pool is made of one block, which `ADD_MEMORY` frees into it
  have hsmall : fls x - 1 + pageShift < 64 := by
    unfold pageShift
    omega
  obtain ⟨mp, hfree, hinv, hshape, -⟩ := poolInv_buddyInit_buddyFree hinit hbase hsmall
  refine ⟨mp, hinv, hshape.minOrder.trans hm, hshape.baseAddr.trans hb,
    hshape.poolOrder.trans hp, ?_⟩
  intro n pools
  rw [addPools]
  simp only [if_neg (Nat.pos_iff_ne_zero.1 hpos), horder, hinit, hfree, numPages_step hx hlt,
    Option.bind_eq_bind, Option.bind_some]

theorem addPools_zero (memory : Nat → Nat) (n base : Nat) (pools : List BuddyMempool) :
    addPools memory n base 0 pools = some pools := by
  cases n with
  | zero => rfl
  | succ n => rfl

/-- `ADD_MEMORY` puts new pools in front of the others. -/
theorem addPools_eq (memory : Nat → Nat) : ∀ {n base x : Nat} (pools : List BuddyMempool),
    base < 2 ^ 64 → x < 2 ^ 32 →
    ∃ new, addPools memory n base x pools = some (new ++ pools) ∧ ∀ mp ∈ new, PoolWf mp := by
  intro n
  induction n with
  | zero =>
      intro base x pools _ _
      exact ⟨[], rfl, fun mp hmp => absurd hmp List.not_mem_nil⟩
  | succ n ih =>
      intro base x pools hbase hlt
      by_cases hzero : x = 0
      · subst hzero
        exact ⟨[], rfl, fun mp hmp => absurd hmp List.not_mem_nil⟩
      · obtain ⟨mp, hinv, hmin, -, -, hadd⟩ := addPools_succ memory hbase hzero hlt
        obtain ⟨new, hnew, hwf⟩ := @ih (add64 base (intShl (fls x - 1) * pageSize))
          (x - 2 ^ (fls x - 1)) (mp :: pools) (Nat.mod_lt _ (Nat.two_pow_pos 64))
          (Nat.lt_of_le_of_lt (Nat.sub_le _ _) hlt)
        refine ⟨new ++ [mp], ?_, ?_⟩
        · rw [hadd, hnew, List.append_assoc, List.singleton_append]
        · intro mp' hmp'
          rcases List.mem_append.1 hmp' with hmp' | hmp'
          · exact hwf mp' hmp'
          · rw [List.mem_singleton.1 hmp']
            exact ⟨hmin, ∅, hinv⟩

/-! ## Allocation over the list -/

/-- The page is in a block of a free list of the pool. -/
def FreeIn (off : Nat) (mp : BuddyMempool) (page : Nat) : Prop :=
  ∃ j ∈ List.range (mp.poolOrder + 1), ∃ block ∈ mp.avail j, sub64 (va off page) block < 2 ^ j

instance (off : Nat) (mp : BuddyMempool) (page : Nat) : Decidable (FreeIn off mp page) := by
  unfold FreeIn
  infer_instance

theorem PoolInv.freeIn_iff {mp : BuddyMempool} {out hand : Set DyadicBlock}
    (h : PoolInv mp out hand) {off page : Nat} :
    FreeIn off mp page ↔ ∃ b ∈ mp.free, b.Covers (sub64 (va off page) mp.baseAddr) := by
  have hv := va_lt off page
  have hbase := h.base_lt
  have hpow := h.pow_le
  constructor
  · rintro ⟨j, -, block, hblock, hlt⟩
    have hlt64 := h.avail_lt j block hblock
    have haddr : mp.addrOf (sub64 block mp.baseAddr) = block := add64_sub64 hbase hlt64
    have hfree : (⟨sub64 block mp.baseAddr, j⟩ : DyadicBlock) ∈ mp.free :=
      ⟨Nat.mod_lt _ (Nat.two_pow_pos 64), by rw [haddr]; exact hblock⟩
    have hbound : sub64 block mp.baseAddr + 2 ^ j ≤ 2 ^ mp.poolOrder :=
      h.partition.bound _ (Or.inl (Or.inl hfree))
    refine ⟨_, hfree, ?_⟩
    -- the offset in the block is added to the offset of the block
    have hsum : sub64 (va off page) mp.baseAddr =
        sub64 block mp.baseAddr + sub64 (va off page) block := by
      unfold sub64 at *
      omega
    rw [hsum]
    exact ⟨Nat.le_add_right _ _, Nat.add_lt_add_left hlt _⟩
  · rintro ⟨b, hb, hle, hlt⟩
    have hbound := h.partition.bound b (Or.inl (Or.inl hb))
    refine ⟨b.order, List.mem_range.2 (Nat.lt_succ_of_le (h.order_le (Or.inl (Or.inl hb)))), _,
      hb.2, ?_⟩
    have hsub : sub64 (va off page) (mp.addrOf b.start) =
        sub64 (va off page) mp.baseAddr - b.start := by
      unfold BuddyMempool.addrOf add64
      unfold sub64 at *
      omega
    rw [hsub]
    omega

/-- `petmem_alloc_pages(1)` ends with a block of a pool: the first pool has a free block, and if
that is the page at the physical address 0, it is the last pool or the pools after it have one. -/
def AllocOk (off : Nat) : List BuddyMempool → Prop
  | [] => False
  | mp :: rest =>
      match allocBlock mp pageShift with
      | none => False
      | some block => pa off block = 0 → rest = [] ∨ AllocOk off rest

instance AllocOk.decidable (off : Nat) : ∀ pools, Decidable (AllocOk off pools)
  | [] => isFalse id
  | mp :: rest => by
      have := AllocOk.decidable off rest
      unfold AllocOk
      split <;> infer_instance

/-- A page from the pool of pages `mp`, which has become `mp'`. -/
structure TakesPage (off : Nat) (mp mp' : BuddyMempool) (block : Nat) : Prop where
  shape : mp.SameShape mp'
  wf : PoolWf mp'
  free_before : FreeIn off mp (pa off block)
  not_free_after : ¬ FreeIn off mp' (pa off block)

/-- `buddy_alloc` for one page. -/
theorem PoolWf.buddyAlloc {off : Nat} {mp : BuddyMempool} (h : PoolWf mp) (hoff : off < 2 ^ 64) :
    (allocBlock mp pageShift = none ∧ buddyAlloc mp pageShift = some (none, mp)) ∨
    ∃ block mp', allocBlock mp pageShift = some block ∧
      buddyAlloc mp pageShift = some (some block, mp') ∧ TakesPage off mp mp' block := by
  obtain ⟨hmin, out, h⟩ := h
  have hle : pageShift ≤ mp.poolOrder := hmin ▸ h.min_le
  rcases h.buddyAlloc hle with hnone | ⟨o, k, mp', hfirst, hfree, -, halloc, h', hshape, -⟩
  · exact Or.inl hnone
  · refine Or.inr ⟨mp.addrOf o, mp', hfirst, halloc, hshape, ⟨hshape.minOrder.trans hmin, _, h'⟩,
      ?_, ?_⟩
    · have ho : o < 2 ^ mp.poolOrder := h.start_lt (b := ⟨o, k⟩) (Or.inl (Or.inl hfree))
      rw [h.freeIn_iff, va_pa hoff (mp.addrOf_lt o), h.sub64_addrOf ho]
      exact ⟨_, hfree, DyadicBlock.covers_start _⟩
    · have hmem : (⟨o, fixOrder mp pageShift⟩ : DyadicBlock) ∈
          mp'.free ∪ insert ⟨o, fixOrder mp pageShift⟩ out ∪ ∅ :=
          Or.inl (Or.inr (Set.mem_insert _ _))
      rw [h'.freeIn_iff, va_pa hoff (mp.addrOf_lt o), ← hshape.addrOf,
        h'.sub64_addrOf (h'.start_lt hmem)]
      rintro ⟨b, hb, hcov⟩
      -- the page is a block that is handed out, so no free block covers it
      have heq := h'.partition.unique b (Or.inl (Or.inl hb)) _ hmem o hcov
        (DyadicBlock.covers_start _)
      exact h'.free_not_out b hb (heq ▸ Set.mem_insert _ _)

/-- The two lists of pools have the same free pages, pool by pool. -/
def SameFree (off : Nat) (pools pools' : List BuddyMempool) : Prop :=
  List.Forall₂ (fun mp mp' => ∀ page, FreeIn off mp page ↔ FreeIn off mp' page) pools pools'

theorem TakesPage.not_sameFree {off block : Nat} {mp mp' : BuddyMempool}
    (h : TakesPage off mp mp' block) (rest rest' : List BuddyMempool) :
    ¬ SameFree off (mp :: rest) (mp' :: rest') := by
  intro hsame
  exact h.not_free_after ((List.forall₂_cons.1 hsame).1 _ |>.1 h.free_before)

/-- What `petmem_alloc_pages(1)` returns. -/
theorem PoolWf.allocPagesFrom {off : Nat} (hpos : 0 < off) (hoff : off < 2 ^ 64) :
    ∀ {pools : List BuddyMempool}, (∀ mp ∈ pools, PoolWf mp) → ∃ page pools',
      allocPagesFrom off pageShift pools = some (page, pools') ∧ page < 2 ^ 64 ∧
      List.Forall₂ BuddyMempool.SameShape pools pools' ∧
      (¬ AllocOk off pools → pools ≠ [] → page = pa off 0) ∧
      (AllocOk off pools → (∃ mp ∈ pools, FreeIn off mp page) ∧ ¬ SameFree off pools pools') := by
  intro pools
  induction pools with
  | nil =>
      intro _
      exact ⟨0, [], rfl, Nat.two_pow_pos 64, .nil, fun _ hne => absurd rfl hne, False.elim⟩
  | cons mp rest ih =>
      intro hwf
      have hshapes : List.Forall₂ BuddyMempool.SameShape rest rest :=
        List.forall₂_same.2 fun mp _ => .refl mp
      rw [VirtualMemory.allocPagesFrom, AllocOk]
      rcases (hwf mp List.mem_cons_self).buddyAlloc hoff with
        ⟨hfirst, halloc⟩ | ⟨block, mp', hfirst, halloc, htakes⟩
      · -- the pool is exhausted, and `__pa(NULL)` is not zero
        have hnull : pa off 0 ≠ 0 := by
          unfold pa sub64
          omega
        refine ⟨pa off 0, mp :: rest, ?_, pa_lt off 0, .cons (.refl mp) hshapes, fun _ _ => rfl, ?_⟩
        · simp only [halloc, Option.bind_eq_bind, Option.bind_some, Option.getD_none, if_pos hnull]
          rfl
        · rw [hfirst]
          exact False.elim
      · by_cases hzero : pa off block = 0
        -- the page at the physical address 0 is taken for a failure and lost
        · obtain ⟨page, rest', hrest, hlt, hshape, hbad, hok⟩ :=
            ih fun q hq => hwf q (List.mem_cons_of_mem mp hq)
          refine ⟨page, mp' :: rest', ?_, hlt, .cons htakes.shape hshape, ?_, ?_⟩
          · simp only [halloc, Option.bind_eq_bind, Option.bind_some, Option.getD_some,
              hzero, hrest, ne_eq, not_true_eq_false, if_false]
            rfl
          · rw [hfirst]
            intro hnot _
            have hrest' := fun hor => hnot fun _ => hor
            rw [imp_false, not_or] at hrest'
            exact hbad hrest'.2 hrest'.1
          · rw [hfirst]
            intro hor
            refine ⟨?_, htakes.not_sameFree rest rest'⟩
            rcases hor hzero with rfl | hallocOk
            · -- the last pool: the value returned is the address of the page
              cases hrest
              exact ⟨mp, List.mem_cons_self, hzero ▸ htakes.free_before⟩
            · obtain ⟨⟨q, hq, hfree⟩, -⟩ := hok hallocOk
              exact ⟨q, List.mem_cons_of_mem mp hq, hfree⟩
        · refine ⟨pa off block, mp' :: rest, ?_, pa_lt off block, .cons htakes.shape hshapes, ?_,
            ?_⟩
          · simp only [halloc, Option.bind_eq_bind, Option.bind_some, Option.getD_some,
              ne_eq, hzero, not_false_eq_true, if_true]
            rfl
          · rw [hfirst]
            intro hnot
            exact absurd (fun hz => absurd hz hzero) hnot
          · intro _
            exact ⟨⟨mp, List.mem_cons_self, htakes.free_before⟩, htakes.not_sameFree rest rest⟩

/-! ## Release over the list -/

/-- The pools lie in the direct map of physical memory, and physical addresses are below `off`. -/
def DirectMap (off : Nat) (pools : List BuddyMempool) : Prop :=
  ∀ mp ∈ pools, off ≤ mp.baseAddr ∧ mp.baseAddr + 2 ^ mp.poolOrder ≤ 2 ^ 64 ∧
    mp.baseAddr + 2 ^ mp.poolOrder ≤ 2 * off

theorem DirectMap.of_sameShape {off : Nat} {pools pools' : List BuddyMempool}
    (h : DirectMap off pools) (hshape : List.Forall₂ BuddyMempool.SameShape pools' pools) :
    DirectMap off pools' := by
  induction hshape with
  | nil => exact h
  | cons hsame _ ih =>
      intro mp hmp
      rcases List.mem_cons.1 hmp with rfl | hmp
      · rw [← hsame.baseAddr, ← hsame.poolOrder]
        exact h _ List.mem_cons_self
      · exact ih (fun q hq => h q (List.mem_cons_of_mem _ hq)) mp hmp

/-- A physical address is below the virtual bounds of every pool. -/
theorem DirectMap.freePagesFrom {off : Nat} {pools : List BuddyMempool} (h : DirectMap off pools)
    {page : Nat} (hpage : page < off) (order : Nat) :
    freePagesFrom off page order pools = some pools := by
  induction pools with
  | nil => rfl
  | cons mp rest ih =>
      have hbase := (h mp List.mem_cons_self).1
      rw [VirtualMemory.freePagesFrom, if_neg (by omega),
        ih fun q hq => h q (List.mem_cons_of_mem mp hq)]
      rfl

/-- A page of a pool in the direct map has a physical address. -/
theorem DirectMap.lt_of_freeIn {off page : Nat} {pools : List BuddyMempool} {mp : BuddyMempool}
    (h : DirectMap off pools) (hmp : mp ∈ pools) (hwf : PoolWf mp) (hoff : off < 2 ^ 64)
    (hpage : page < 2 ^ 64) (hfree : FreeIn off mp page) : page < off := by
  obtain ⟨-, out, hinv⟩ := hwf
  obtain ⟨b, hb, -, hlt⟩ := hinv.freeIn_iff.1 hfree
  have hbound := hinv.partition.bound b (Or.inl (Or.inl hb))
  obtain ⟨hlow, hwrap, hhigh⟩ := h mp hmp
  unfold sub64 va add64 at hlt
  omega

/-- The value that an exhausted pool gives is a page of no pool. -/
theorem DirectMap.not_freeIn_null {off : Nat} {pools : List BuddyMempool} {mp : BuddyMempool}
    (h : DirectMap off pools) (hmp : mp ∈ pools) (hwf : PoolWf mp) (hpos : 0 < off)
    (hoff : off < 2 ^ 64) : ¬ FreeIn off mp (pa off 0) := by
  intro hfree
  obtain ⟨-, out, hinv⟩ := hwf
  obtain ⟨b, hb, -, hlt⟩ := hinv.freeIn_iff.1 hfree
  have hbound := hinv.partition.bound b (Or.inl (Or.inl hb))
  obtain ⟨hlow, hwrap, -⟩ := h mp hmp
  rw [va_pa hoff (Nat.two_pow_pos 64)] at hlt
  unfold sub64 at hlt
  omega

/-! ## Runs -/

/-- One turn of the loop of `petmem_alloc_pages`. -/
theorem allocPagesFrom_cons {off order page : Nat} {mp : BuddyMempool}
    {rest pools' : List BuddyMempool}
    (h : allocPagesFrom off order (mp :: rest) = some (page, pools')) :
    ∃ block mp' rest', buddyAlloc mp order = some (block, mp') ∧ pools' = mp' :: rest' ∧
      (rest' = rest ∨ allocPagesFrom off order rest = some (page, rest')) := by
  obtain ⟨⟨block, mp'⟩, halloc, h⟩ := Option.bind_eq_some_iff.1 h
  simp only at h
  split at h
  · cases h
    exact ⟨block, mp', rest, halloc, rfl, Or.inl rfl⟩
  · obtain ⟨⟨page', rest'⟩, hrest, h⟩ := Option.bind_eq_some_iff.1 h
    cases h
    exact ⟨block, mp', rest', halloc, rfl, Or.inr hrest⟩

theorem sameShape_allocPagesFrom {off order : Nat} :
    ∀ {pools pools' : List BuddyMempool} {page : Nat},
    allocPagesFrom off order pools = some (page, pools') →
    List.Forall₂ BuddyMempool.SameShape pools pools' := by
  intro pools
  induction pools with
  | nil =>
      intro pools' page h
      cases h
      exact .nil
  | cons mp rest ih =>
      intro pools' page h
      obtain ⟨block, mp', rest', halloc, rfl, rfl | hrest⟩ := allocPagesFrom_cons h
      · exact .cons (sameShape_buddyAlloc halloc) (List.forall₂_same.2 fun mp _ => .refl mp)
      · exact .cons (sameShape_buddyAlloc halloc) (ih hrest)

theorem sameShape_freePagesFrom {off page order : Nat} : ∀ {pools pools' : List BuddyMempool},
    freePagesFrom off page order pools = some pools' →
    List.Forall₂ BuddyMempool.SameShape pools pools' := by
  intro pools
  induction pools with
  | nil =>
      intro pools' h
      cases h
      exact .nil
  | cons mp rest ih =>
      intro pools' h
      rw [freePagesFrom] at h
      split at h
      · obtain ⟨mp', hfree, rfl⟩ := Option.map_eq_some_iff.1 h
        exact .cons (sameShape_buddyFree hfree) (List.forall₂_same.2 fun mp _ => .refl mp)
      · obtain ⟨rest', hrest, rfl⟩ := Option.map_eq_some_iff.1 h
        exact .cons (.refl mp) (ih hrest)

/-- `petmem_alloc_pages` keeps the pools well formed. -/
theorem poolWf_allocPagesFrom {off order : Nat} : ∀ {pools pools' : List BuddyMempool} {page : Nat},
    (∀ mp ∈ pools, PoolWf mp) → allocPagesFrom off order pools = some (page, pools') →
    ∀ mp ∈ pools', PoolWf mp := by
  intro pools
  induction pools with
  | nil =>
      intro pools' page hwf h
      cases h
      exact hwf
  | cons mp rest ih =>
      intro pools' page hwf h
      obtain ⟨block, mp', rest', halloc, rfl, hrest⟩ := allocPagesFrom_cons h
      have hhead : PoolWf mp' := by
        obtain ⟨hmin, out, hinv⟩ := hwf mp List.mem_cons_self
        by_cases hle : order ≤ mp.poolOrder
        · rcases hinv.buddyAlloc hle with ⟨-, hnone⟩ | ⟨o, k, mp₁, -, -, -, hsome, hinv', hshape, -⟩
          · rw [hnone] at halloc
            cases halloc
            exact ⟨hmin, out, hinv⟩
          · rw [hsome] at halloc
            cases halloc
            exact ⟨hshape.minOrder.trans hmin, _, hinv'⟩
        · rw [buddyAlloc, if_pos (Nat.lt_of_not_le hle)] at halloc
          cases halloc
      have htail : ∀ q ∈ rest, PoolWf q := fun q hq => hwf q (List.mem_cons_of_mem mp hq)
      rcases hrest with rfl | hrest
      · exact List.forall_mem_cons.2 ⟨hhead, htail⟩
      · exact List.forall_mem_cons.2 ⟨hhead, ih htail hrest⟩

/-- The page that is freed is a physical address. -/
def PoolCall.Physical (off : Nat) : PoolCall → Prop
  | .freePages pageAddr _ => pageAddr < off
  | _ => True

/-- In the direct map the pools stay well formed. -/
theorem poolWf_of_reach {off : Nat} {calls : List PoolCall} {pools : List BuddyMempool}
    (h : ((poolLists off).guard fun _ call => call.Physical off).Reach calls pools) :
    DirectMap off pools → ∀ mp ∈ pools, PoolWf mp := by
  apply h.invariant (I := fun pools => DirectMap off pools → ∀ mp ∈ pools, PoolWf mp)
  · rintro s rfl - mp hmp
    exact absurd hmp List.not_mem_nil
  · rintro s call t ih ⟨hphys, hstep⟩ hmap
    cases call with
    | addMemory memory base pages =>
        obtain ⟨new, hadd, hwf⟩ := addPools_eq memory (n := 32) s (va_lt off base)
          (Nat.mod_lt pages (Nat.two_pow_pos 32))
        have heq : new ++ s = t := Option.some.inj (hadd.symm.trans hstep)
        subst heq
        intro mp hmp
        rcases List.mem_append.1 hmp with hmp | hmp
        · exact hwf mp hmp
        · exact ih (fun q hq => hmap q (List.mem_append_right new hq)) mp hmp
    | allocPages numPages =>
        obtain ⟨⟨page, pools'⟩, halloc, rfl⟩ := Option.map_eq_some_iff.1 hstep
        exact poolWf_allocPagesFrom (ih (hmap.of_sameShape (sameShape_allocPagesFrom halloc)))
          halloc
    | freePages page numPages =>
        -- a physical address is below every pool of the direct map, so nothing is freed
        have hmap' := hmap.of_sameShape (sameShape_freePagesFrom hstep)
        have heq : s = t := Option.some.inj ((hmap'.freePagesFrom hphys _).symm.trans hstep)
        rw [← heq]
        exact ih hmap'

/-- If `petmem_alloc_pages(1)` returns a page that was free, then `petmem_free_pages` puts it
back. -/
def Conserved (off : Nat) (pools : List BuddyMempool) : Prop :=
  ∀ page pools', petmemAllocPages off pools 1 = some (page, pools') →
    (∃ mp ∈ pools, FreeIn off mp page) →
    ∃ pools'', petmemFreePages off pools' page 1 = some pools'' ∧ SameFree off pools pools''

/-- For pools in the direct map, memory is conserved exactly when the allocation fails. -/
theorem conserved_iff_not_allocOk {off : Nat} (hpos : 0 < off) (hoff : off < 2 ^ 64)
    {calls : List PoolCall} {pools : List BuddyMempool}
    (h : ((poolLists off).guard fun _ call => call.Physical off).Reach calls pools)
    (hmap : DirectMap off pools) : Conserved off pools ↔ ¬ AllocOk off pools := by
  have hwf := poolWf_of_reach h hmap
  obtain ⟨page, pools', halloc, hlt, hshape, hbad, hok⟩ := PoolWf.allocPagesFrom hpos hoff hwf
  rw [← pageOrder_one] at halloc
  constructor
  · intro hcons hallocOk
    obtain ⟨hfree, hnot⟩ := hok hallocOk
    obtain ⟨pools'', hback, hsame⟩ := hcons page pools' halloc hfree
    obtain ⟨mp, hmp, hfree⟩ := hfree
    have hpage := hmap.lt_of_freeIn hmp (hwf mp hmp) hoff hlt hfree
    -- the free changes nothing, so the page that was taken is still missing
    have hmap' : DirectMap off pools' := hmap.of_sameShape (hshape.flip.imp fun _ _ h => h.symm)
    have heq : pools' = pools'' :=
      Option.some.inj ((hmap'.freePagesFrom hpage _).symm.trans hback)
    exact hnot (heq ▸ hsame)
  · intro hnot page₁ pools₁ halloc₁ hfree
    have heq := Option.some.inj (halloc.symm.trans halloc₁)
    cases heq
    obtain ⟨mp, hmp, hfree⟩ := hfree
    rw [hbad hnot (List.ne_nil_of_mem hmp)] at hfree
    exact absurd hfree (hmap.not_freeIn_null hmp (hwf mp hmp) hpos hoff)

/-- The pool that `ADD_MEMORY` makes of one page at 1 MiB, with `PAGE_OFFSET` as on `x86_64`. -/
def onePagePool : List BuddyMempool :=
  (addMemory 0xffff880000000000 (fun _ => 0) [] 0x100000 1).getD []

theorem reach_onePagePool :
    ((poolLists 0xffff880000000000).guard fun _ call => call.Physical 0xffff880000000000).Reach
      [.addMemory (fun _ => 0) 0x100000 1] onePagePool :=
  (Machine.Reach.init rfl).append_path (.cons ⟨trivial, rfl⟩ .nil)

theorem directMap_onePagePool : DirectMap 0xffff880000000000 onePagePool := by
  unfold DirectMap
  decide

/-- The only page of a pool is allocated and freed, and then it is no longer free. -/
theorem freed_page_not_returned :
    ((poolLists 0xffff880000000000).guard fun _ call => call.Physical 0xffff880000000000).Reach
      [.addMemory (fun _ => 0) 0x100000 1] onePagePool ∧
    DirectMap 0xffff880000000000 onePagePool ∧
    ∃ page pools' pools'', petmemAllocPages 0xffff880000000000 onePagePool 1 = some (page, pools') ∧
      (∃ mp ∈ onePagePool, FreeIn 0xffff880000000000 mp page) ∧
      petmemFreePages 0xffff880000000000 pools' page 1 = some pools'' ∧
      (∀ mp ∈ pools'', ¬ FreeIn 0xffff880000000000 mp page) ∧
      ¬ Conserved 0xffff880000000000 onePagePool := by
  refine ⟨reach_onePagePool, directMap_onePagePool, 0x100000, _, _, rfl, by decide,
    rfl, by decide, ?_⟩
  intro hcons
  obtain ⟨pools'', hback, hsame⟩ := hcons 0x100000 _ rfl (by decide)
  obtain rfl := Option.some.inj hback
  exact absurd ((List.forall₂_cons.1 hsame).1 0x100000) (by decide)

/-- The same pool: memory is not conserved since the allocation succeeds. -/
theorem conserved_iff_not_allocOk_onePagePool :
    AllocOk 0xffff880000000000 onePagePool ∧
    (Conserved 0xffff880000000000 onePagePool ↔ ¬ AllocOk 0xffff880000000000 onePagePool) :=
  ⟨by decide, conserved_iff_not_allocOk (by decide) (by decide) reach_onePagePool
    directMap_onePagePool⟩

end PetKernel.VirtualMemory
