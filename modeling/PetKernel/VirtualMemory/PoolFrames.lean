import PetKernel.VirtualMemory.Pools

/-!
# The physical pages of the pools

The pools seen from physical memory. Each pool manages a range of physical memory, and different
pools manage disjoint ranges. `PoolsOk off used pools` says that the pages of `used` are exactly
those that the pools have handed out, as blocks of one page.

`PoolsOk.allocPagesFrom` says that, when `AllocOk` holds, `petmem_alloc_pages(1)` returns a page
that was not in use. `PoolsOk.freePagesFrom` says that `petmem_free_pages`, if it does not stop at a
`BUG_ON`, either leaves the pools alone or takes the page back. `PoolsOk.addMemory` adds the pools
of a new range.
-/

set_option autoImplicit false

namespace PetKernel.VirtualMemory

open PetKernel.Library

/-! ## Ranges of physical memory -/

/-- A range of physical memory. -/
structure PhysRange where
  base : Nat
  size : Nat
deriving DecidableEq, Repr

/-- The address lies in the range. -/
def PhysRange.Contains (r : PhysRange) (page : Nat) : Prop := r.base ≤ page ∧ page < r.base + r.size

instance (r : PhysRange) (page : Nat) : Decidable (r.Contains page) :=
  inferInstanceAs (Decidable (r.base ≤ page ∧ page < r.base + r.size))

/-- No address lies in both ranges. -/
def PhysRange.Disjoint (r r' : PhysRange) : Prop := ∀ page, r.Contains page → ¬ r'.Contains page

/-- The physical memory that a pool manages. -/
def physRange (off : Nat) (mp : BuddyMempool) : PhysRange := ⟨pa off mp.baseAddr, 2 ^ mp.poolOrder⟩

theorem physRange_of_sameShape (off : Nat) {mp mp' : BuddyMempool} (h : mp.SameShape mp') :
    physRange off mp' = physRange off mp := by
  rw [physRange, physRange, h.baseAddr, h.poolOrder]

/-- The blocks of a pool that are pages in use. -/
def outOf (off : Nat) (used : Set Nat) (mp : BuddyMempool) : Set DyadicBlock :=
  { b | b.order = pageShift ∧ b.start < 2 ^ mp.poolOrder ∧
    (physRange off mp).base + b.start ∈ used }

theorem outOf_congr {off : Nat} {used used' : Set Nat} {mp mp' : BuddyMempool}
    (hrange : physRange off mp' = physRange off mp)
    (h : ∀ page, (physRange off mp).Contains page → (page ∈ used' ↔ page ∈ used)) :
    outOf off used' mp' = outOf off used mp := by
  have hsize : 2 ^ mp'.poolOrder = 2 ^ mp.poolOrder := congrArg PhysRange.size hrange
  ext b
  simp only [outOf, Set.mem_ofPred_eq, hrange, hsize]
  refine and_congr_right fun _ => and_congr_right fun hlt => h _ ?_
  exact ⟨Nat.le_add_right _ _, Nat.add_lt_add_left hlt _⟩

/-- A pool of pages below `2 ^ 52`, of which those in `used` are handed out. -/
structure PoolOk (off : Nat) (used : Set Nat) (mp : BuddyMempool) : Prop where
  inv : PoolInv mp (outOf off used mp) ∅
  min : mp.minOrder = pageShift
  bound : (physRange off mp).base + (physRange off mp).size ≤ 2 ^ 52
  aligned : 2 ^ 12 ∣ (physRange off mp).base

namespace PoolOk

variable {off page o : Nat} {used used' : Set Nat} {mp mp' : BuddyMempool}

theorem congr (h : PoolOk off used mp)
    (hiff : ∀ page, (physRange off mp).Contains page → (page ∈ used' ↔ page ∈ used)) :
    PoolOk off used' mp :=
  ⟨outOf_congr rfl hiff ▸ h.inv, h.min, h.bound, h.aligned⟩

theorem fixOrder (h : PoolOk off used mp) : fixOrder mp pageShift = pageShift := by
  rw [VirtualMemory.fixOrder, h.min, if_neg (Nat.lt_irrefl _)]

theorem pageShift_le (h : PoolOk off used mp) : pageShift ≤ mp.poolOrder := h.min ▸ h.inv.min_le

/-- The physical address of a block. -/
theorem pa_addrOf (h : PoolOk off used mp) (ho : o < 2 ^ mp.poolOrder) :
    pa off (mp.addrOf o) = (physRange off mp).base + o := by
  have hbase := h.inv.base_lt
  have hbound := h.bound
  simp only [physRange] at hbound ⊢
  unfold BuddyMempool.addrOf pa add64 sub64 at *
  omega

/-- A page in the range of the pool is a block of the pool. -/
theorem va_eq_addrOf (h : PoolOk off used mp) (hoff : off < 2 ^ 64)
    (hpage : (physRange off mp).Contains page) :
    va off page = mp.addrOf (page - (physRange off mp).base) := by
  have hbase := h.inv.base_lt
  have hlow := hpage.1
  simp only [physRange] at hlow ⊢
  unfold BuddyMempool.addrOf va pa add64 sub64 at *
  omega

/-- `buddy_alloc` for one page: a page of the pool comes into use. -/
theorem buddyAlloc (h : PoolOk off used mp) {block : Nat}
    (hfirst : allocBlock mp pageShift = some block) :
    ∃ mp', buddyAlloc mp pageShift = some (some block, mp') ∧ mp.SameShape mp' ∧
      (physRange off mp).Contains (pa off block) ∧ pa off block ∉ used ∧
      PoolOk off (insert (pa off block) used) mp' := by
  rcases h.inv.buddyAlloc h.pageShift_le with ⟨hnone, -⟩ |
      ⟨o, k, mp', hsome, hfree, -, halloc, h', hshape, hnot, -⟩
  · rw [hnone] at hfirst
    exact absurd hfirst (by simp)
  · obtain rfl := Option.some.inj (hsome.symm.trans hfirst)
    rw [h.fixOrder] at h' hnot
    have ho : o < 2 ^ mp.poolOrder := h.inv.start_lt (b := ⟨o, k⟩) (Or.inl (Or.inl hfree))
    have hpa := h.pa_addrOf ho
    have hrange := physRange_of_sameShape off hshape
    -- one more page in use is one more block of the pool that is out
    have hout : outOf off (insert (pa off (mp.addrOf o)) used) mp' =
        insert ⟨o, pageShift⟩ (outOf off used mp) := by
      rw [hpa]
      ext b
      simp only [outOf, Set.mem_ofPred_eq, hrange, hshape.poolOrder, Set.mem_insert_iff,
        DyadicBlock.ext_iff]
      constructor
      · rintro ⟨horder, hlt, heq | hused⟩
        · exact Or.inl ⟨Nat.add_left_cancel heq, horder⟩
        · exact Or.inr ⟨horder, hlt, hused⟩
      · rintro (⟨hstart, horder⟩ | ⟨horder, hlt, hused⟩)
        · exact ⟨horder, hstart ▸ ho, Or.inl (by rw [hstart])⟩
        · exact ⟨horder, hlt, Or.inr hused⟩
    refine ⟨mp', halloc, hshape, ?_, ?_, ⟨hout ▸ h', hshape.minOrder.trans h.min, ?_, ?_⟩⟩
    · rw [hpa]
      exact ⟨Nat.le_add_right _ _, Nat.add_lt_add_left ho _⟩
    · rw [hpa]
      intro hused
      exact hnot ⟨rfl, ho, hused⟩
    · rw [hrange]
      exact h.bound
    · rw [hrange]
      exact h.aligned

/-- `block_to_id` accepts only the addresses of the pool. -/
theorem contains_of_buddyFree (h : PoolOk off used mp) (hoff : off < 2 ^ 64) (hpage : page < 2 ^ 52)
    {order : Nat} (hfree : buddyFree mp (va off page) order = some mp') :
    (physRange off mp).Contains page := by
  rw [VirtualMemory.buddyFree] at hfree
  split at hfree
  · cases hfree
  · obtain ⟨available, havail, -⟩ := Option.bind_eq_some_iff.1 hfree
    obtain ⟨blockId, hid, -⟩ := Option.map_eq_some_iff.1 havail
    rw [blockToId] at hid
    split at hid
    · cases hid
    next hlt =>
      have hmin := h.inv.min_le
      rw [Nat.not_le, h.inv.numBlocks_eq, Nat.shiftRight_eq_div_pow,
        Nat.div_lt_iff_lt_mul (Nat.two_pow_pos _), ← Nat.pow_add, Nat.sub_add_cancel hmin] at hlt
      have hbase := h.inv.base_lt
      have hbound := h.bound
      simp only [physRange, PhysRange.Contains] at hbound ⊢
      unfold va pa add64 sub64 at *
      omega

/-- `buddy_free` of a page in use takes it back. -/
theorem buddyFree (h : PoolOk off used mp) (hoff : off < 2 ^ 64) (hpage : page < 2 ^ 52)
    (hbase : mp.baseAddr ≤ page) (hin : (physRange off mp).Contains page) (hused : page ∈ used)
    (hfree : buddyFree mp (va off page) pageShift = some mp') :
    mp.SameShape mp' ∧ PoolOk off (used \ {page}) mp' := by
  have hlow := hin.1
  have ho : page - (physRange off mp).base < 2 ^ mp.poolOrder :=
    Nat.sub_lt_left_of_lt_add hlow hin.2
  have hsum : (physRange off mp).base + (page - (physRange off mp).base) = page :=
    Nat.add_sub_cancel' hlow
  have hwrap : mp.baseAddr + 2 ^ mp.poolOrder ≤ 2 ^ 64 := by
    have hsize : 2 ^ mp.poolOrder ≤ 2 ^ 52 := (Nat.le_add_left _ _).trans h.bound
    omega
  have hmem : (⟨page - (physRange off mp).base,
      VirtualMemory.fixOrder mp pageShift⟩ : DyadicBlock) ∈ outOf off used mp := by
    rw [h.fixOrder]
    exact ⟨rfl, ho, by rw [hsum]; exact hused⟩
  obtain ⟨mp₁, hfree₁, h', hshape, -⟩ := h.inv.buddyFree (fun _ => hwrap) h.pageShift_le hmem
  rw [← h.va_eq_addrOf hoff hin] at hfree₁
  obtain rfl := Option.some.inj (hfree₁.symm.trans hfree)
  have hrange := physRange_of_sameShape off hshape
  -- and one page less is one block less
  have hout : outOf off (used \ {page}) mp₁ =
      outOf off used mp \ {⟨page - (physRange off mp).base, pageShift⟩} := by
    ext b
    simp only [outOf, Set.mem_ofPred_eq, hrange, hshape.poolOrder, Set.mem_sdiff,
      Set.mem_singleton_iff, DyadicBlock.ext_iff]
    constructor
    · rintro ⟨horder, hlt, hb, hne⟩
      exact ⟨⟨horder, hlt, hb⟩, fun heq => hne (by rw [heq.1, hsum])⟩
    · rintro ⟨⟨horder, hlt, hb⟩, hne⟩
      refine ⟨horder, hlt, hb, fun heq => hne ⟨?_, horder⟩⟩
      rw [← heq, Nat.add_sub_cancel_left]
  rw [h.fixOrder] at h'
  exact ⟨hshape, hout ▸ h', hshape.minOrder.trans h.min, hrange ▸ h.bound, hrange ▸ h.aligned⟩

end PoolOk

/-! ## The list of pools -/

/-- The pools manage disjoint ranges, and the pages in `used` are handed out. -/
structure PoolsOk (off : Nat) (used : Set Nat) (pools : List BuddyMempool) : Prop where
  pool : ∀ mp ∈ pools, PoolOk off used mp
  disjoint : (pools.map (physRange off)).Pairwise PhysRange.Disjoint

namespace PoolsOk

variable {off page : Nat} {used used' : Set Nat} {mp mp' : BuddyMempool}
  {pools pools' rest : List BuddyMempool}

theorem tail (h : PoolsOk off used (mp :: rest)) : PoolsOk off used rest :=
  ⟨fun q hq => h.pool q (List.mem_cons_of_mem mp hq), (List.pairwise_cons.1 h.disjoint).2⟩

/-- What is in the range of the first pool is in no other. -/
theorem not_contains_tail (h : PoolsOk off used (mp :: rest))
    (hin : (physRange off mp).Contains page)
    {q : BuddyMempool} (hq : q ∈ rest) : ¬ (physRange off q).Contains page :=
  (List.pairwise_cons.1 h.disjoint).1 _ (List.mem_map_of_mem hq) page hin

theorem congr (h : PoolsOk off used pools)
    (hiff : ∀ mp ∈ pools, ∀ page, (physRange off mp).Contains page → (page ∈ used' ↔ page ∈ used)) :
    PoolsOk off used' pools :=
  ⟨fun mp hmp => (h.pool mp hmp).congr (hiff mp hmp), h.disjoint⟩

theorem cons (hmp : PoolOk off used mp') (hrest : PoolsOk off used rest)
    (hdisj : ((mp :: pools).map (physRange off)).Pairwise PhysRange.Disjoint)
    (hrange : physRange off mp' = physRange off mp)
    (hranges : rest.map (physRange off) = pools.map (physRange off)) :
    PoolsOk off used (mp' :: rest) := by
  refine ⟨List.forall_mem_cons.2 ⟨hmp, hrest.pool⟩, ?_⟩
  rw [List.map_cons, hrange, hranges]
  exact hdisj

/-- When `AllocOk` holds, `petmem_alloc_pages(1)` returns a page that was not in use. -/
theorem allocPagesFrom : ∀ {pools : List BuddyMempool} {used : Set Nat}, PoolsOk off used pools →
    AllocOk off pools → ∃ page pools' used',
      allocPagesFrom off pageShift pools = some (page, pools') ∧ PoolsOk off used' pools' ∧
      pools'.map (physRange off) = pools.map (physRange off) ∧ used ⊆ used' ∧ page ∉ used ∧
      page ∈ used' ∧ ∀ q ∈ used', q ∉ used → ∃ mp ∈ pools, (physRange off mp).Contains q := by
  intro pools
  induction pools with
  | nil =>
      intro used _ hok
      exact hok.elim
  | cons mp rest ih =>
      intro used h hok
      have hmp := h.pool mp List.mem_cons_self
      rw [AllocOk] at hok
      cases hfirst : allocBlock mp pageShift with
      | none =>
          rw [hfirst] at hok
          exact hok.elim
      | some block =>
          rw [hfirst] at hok
          obtain ⟨mp', halloc, hshape, hin, hnot, hmp'⟩ := hmp.buddyAlloc hfirst
          have hrange := physRange_of_sameShape off hshape
          -- the other pools do not see the page
          have hrest : PoolsOk off (insert (pa off block) used) rest := by
            apply h.tail.congr
            intro q hq page hpage
            have hne : page ≠ pa off block := fun heq => h.not_contains_tail hin hq (heq ▸ hpage)
            exact Set.mem_insert_iff.trans (or_iff_right hne)
          have hnew : ∀ q ∈ insert (pa off block) used, q ∉ used →
              ∃ mp₁ ∈ mp :: rest, (physRange off mp₁).Contains q := by
            rintro q (rfl | hq) hqn
            · exact ⟨mp, List.mem_cons_self, hin⟩
            · exact absurd hq hqn
          rw [VirtualMemory.allocPagesFrom]
          simp only [halloc, Option.bind_eq_bind, Option.bind_some, Option.getD_some]
          by_cases hzero : pa off block = 0
          · rw [if_neg (not_not.2 hzero)]
            rcases hok hzero with rfl | hokRest
            · -- the last pool: the value returned is the address of the page
              refine ⟨0, [mp'], insert (pa off block) used, rfl,
                cons hmp' hrest h.disjoint hrange rfl,
                by rw [List.map_singleton, hrange, List.map_singleton], Set.subset_insert _ _,
                hzero ▸ hnot, hzero ▸ Set.mem_insert _ _, hnew⟩
            · obtain ⟨page, rest', used', hrun, hok', hranges, hsub, hpage, hmem, hcome⟩ :=
                ih hrest hokRest
              have hmp'' : PoolOk off used' mp' := by
                refine hmp'.congr fun q hq => ⟨fun hq' => ?_, fun hq' => hsub hq'⟩
                by_contra hqn
                obtain ⟨mp₁, hmp₁, hcont⟩ := hcome q hq' hqn
                rw [hrange] at hq
                exact h.not_contains_tail hq hmp₁ hcont
              refine ⟨page, mp' :: rest', used', ?_, cons hmp'' hok' h.disjoint hrange hranges, ?_,
                (Set.subset_insert _ _).trans hsub, fun hp => hpage (Set.mem_insert_of_mem _ hp),
                hmem, ?_⟩
              · rw [hrun]
                rfl
              · rw [List.map_cons, hrange, hranges, List.map_cons]
              · intro q hq' hqn
                by_cases hqi : q ∈ insert (pa off block) used
                · exact hnew q hqi hqn
                · obtain ⟨mp₁, hmp₁, hcont⟩ := hcome q hq' hqi
                  exact ⟨mp₁, List.mem_cons_of_mem mp hmp₁, hcont⟩
          · rw [if_pos hzero]
            refine ⟨pa off block, mp' :: rest, insert (pa off block) used, rfl,
              cons hmp' hrest h.disjoint hrange rfl, by rw [List.map_cons, hrange, List.map_cons],
              Set.subset_insert _ _, hnot, Set.mem_insert _ _, hnew⟩

/-- `petmem_free_pages` of a page that is in use, or of no pool, leaves the pools alone or takes the
page back. -/
theorem freePagesFrom (hoff : off < 2 ^ 64) (hpage : page < 2 ^ 52) :
    ∀ {pools pools' : List BuddyMempool}, PoolsOk off used pools →
    (∀ mp ∈ pools, (physRange off mp).Contains page → page ∈ used) →
    freePagesFrom off page pageShift pools = some pools' →
    pools'.map (physRange off) = pools.map (physRange off) ∧
    (PoolsOk off used pools' ∨ (PoolsOk off (used \ {page}) pools' ∧
      ∃ mp ∈ pools, (physRange off mp).Contains page)) := by
  intro pools
  induction pools with
  | nil =>
      intro pools' h _ hfree
      cases hfree
      exact ⟨rfl, Or.inl h⟩
  | cons mp rest ih =>
      intro pools' h hused hfree
      have hmp := h.pool mp List.mem_cons_self
      rw [VirtualMemory.freePagesFrom] at hfree
      split at hfree
      next hmatch =>
        obtain ⟨mp', hbuddy, rfl⟩ := Option.map_eq_some_iff.1 hfree
        have hin := hmp.contains_of_buddyFree hoff hpage hbuddy
        obtain ⟨hshape, hmp'⟩ := hmp.buddyFree hoff hpage hmatch.1 hin
          (hused mp List.mem_cons_self hin) hbuddy
        have hrange := physRange_of_sameShape off hshape
        -- the pools are disjoint, so that the page is in no other one
        have hrest : PoolsOk off (used \ {page}) rest := by
          apply h.tail.congr
          intro q hq x hx
          have hne : x ≠ page := fun heq => h.not_contains_tail hin hq (heq ▸ hx)
          exact ⟨And.left, fun hx' => ⟨hx', hne⟩⟩
        refine ⟨by rw [List.map_cons, hrange, List.map_cons],
          Or.inr ⟨?_, mp, List.mem_cons_self, hin⟩⟩
        exact cons hmp' hrest h.disjoint hrange rfl
      next =>
        obtain ⟨rest', hrun, rfl⟩ := Option.map_eq_some_iff.1 hfree
        obtain ⟨hranges, hcases⟩ := ih h.tail
          (fun q hq => hused q (List.mem_cons_of_mem mp hq)) hrun
        refine ⟨by rw [List.map_cons, hranges, List.map_cons], ?_⟩
        rcases hcases with hok | ⟨hok, mp₁, hmp₁, hcont⟩
        · exact Or.inl (cons hmp hok h.disjoint rfl hranges)
        · -- the page is in a later pool, hence not in this one
          refine Or.inr ⟨?_, mp₁, List.mem_cons_of_mem mp hmp₁, hcont⟩
          have hmp'' : PoolOk off (used \ {page}) mp := by
            refine hmp.congr fun x hx => ⟨And.left, fun hx' => ⟨hx', fun heq => ?_⟩⟩
            exact h.not_contains_tail hx hmp₁ (heq ▸ hcont)
          exact cons hmp'' hok h.disjoint rfl hranges

end PoolsOk

/-! ## New pools -/

/-- A pool with all its pages free, somewhere in a range of physical memory. -/
structure FreshPool (off b size : Nat) (mp : BuddyMempool) : Prop where
  inv : PoolInv mp ∅ ∅
  min : mp.minOrder = pageShift
  aligned : 2 ^ 12 ∣ (physRange off mp).base
  low : b ≤ (physRange off mp).base
  high : (physRange off mp).base + (physRange off mp).size ≤ b + size

theorem FreshPool.mono {off b size b' size' : Nat} {mp : BuddyMempool} (h : FreshPool off b size mp)
    (hlow : b' ≤ b) (hhigh : b + size ≤ b' + size') : FreshPool off b' size' mp :=
  ⟨h.inv, h.min, h.aligned, hlow.trans h.low, h.high.trans hhigh⟩

/-- What remains of a range after its first part. -/
theorem add_mul_add_sub_mul (b s : Nat) {k x : Nat} (h : k ≤ x) :
    b + k * s + (x - k) * s = b + x * s := by
  rw [Nat.add_assoc, ← Nat.add_mul, Nat.add_sub_cancel' h]

/-- The base address moves by the size of the pool, except for a pool of the highest order. -/
theorem add64_intShl {off b k : Nat} (hk : k < 31) :
    add64 (va off b) (intShl k * pageSize) = va off (b + 2 ^ k * pageSize) := by
  have hshl : intShl k = 2 ^ k := by
    unfold intShl
    rw [Nat.mod_eq_of_lt (by omega), if_neg (by omega)]
  rw [hshl]
  unfold va add64
  omega

/-- `ADD_MEMORY` cuts a range of at most `2 ^ 31` pages into disjoint pools. -/
theorem addPools_layout {off : Nat} (hoff : off < 2 ^ 64) (memory : Nat → Nat) :
    ∀ {n b x : Nat} (pools : List BuddyMempool), x ≤ 2 ^ 31 → 2 ^ 12 ∣ b →
    b + x * pageSize ≤ 2 ^ 52 → ∃ new, addPools memory n (va off b) x pools = some (new ++ pools) ∧
      (∀ mp ∈ new, FreshPool off b (x * pageSize) mp) ∧
      (new.map (physRange off)).Pairwise PhysRange.Disjoint := by
  intro n
  induction n with
  | zero =>
      intro b x pools _ _ _
      exact ⟨[], rfl, fun mp hmp => absurd hmp List.not_mem_nil, List.Pairwise.nil⟩
  | succ n ih =>
      intro b x pools hx hb hbound
      by_cases hzero : x = 0
      · subst hzero
        exact ⟨[], rfl, fun mp hmp => absurd hmp List.not_mem_nil, List.Pairwise.nil⟩
      · obtain ⟨mp, hinv, hmin, hbase, horder, hadd⟩ := addPools_succ memory (va_lt off b) hzero
          (show x < 2 ^ 32 by omega)
        have hle := two_pow_fls_le hzero
        have hsize : 2 ^ mp.poolOrder = 2 ^ (fls x - 1) * pageSize := by
          rw [horder, Nat.pow_add]
          rfl
        have hrange : physRange off mp = ⟨b, 2 ^ (fls x - 1) * pageSize⟩ := by
          rw [physRange, hbase, hsize, pa_va hoff (by unfold pageSize at hbound; omega)]
        have hmp : FreshPool off b (x * pageSize) mp := by
          refine ⟨hinv, hmin, ?_, ?_, ?_⟩
          · rw [hrange]
            exact hb
          · rw [hrange]
          · rw [hrange]
            exact Nat.add_le_add_left (Nat.mul_le_mul_right _ hle) _
        by_cases hk : fls x - 1 < 31
        · -- the rest of the range comes after the pool
          have hb' : 2 ^ 12 ∣ b + 2 ^ (fls x - 1) * pageSize :=
            Nat.dvd_add hb (Nat.dvd_mul_left _ _)
          have hsum : b + 2 ^ (fls x - 1) * pageSize + (x - 2 ^ (fls x - 1)) * pageSize =
              b + x * pageSize := add_mul_add_sub_mul b pageSize hle
          obtain ⟨new, hnew, hpools, hdisj⟩ := ih (b := b + 2 ^ (fls x - 1) * pageSize)
            (x := x - 2 ^ (fls x - 1)) (mp :: pools) ((Nat.sub_le _ _).trans hx) hb'
            (Nat.le_trans (Nat.le_of_eq hsum) hbound)
          refine ⟨new ++ [mp], ?_, ?_, ?_⟩
          · rw [hadd, add64_intShl hk, hnew, List.append_assoc, List.singleton_append]
          · intro mp' hmp'
            rcases List.mem_append.1 hmp' with hmp' | hmp'
            · exact (hpools mp' hmp').mono (Nat.le_add_right _ _) (Nat.le_of_eq hsum)
            · rw [List.mem_singleton.1 hmp']
              exact hmp
          · rw [List.map_append, List.pairwise_append]
            refine ⟨hdisj, List.pairwise_singleton _ _, ?_⟩
            intro r hr r' hr' page hpage hpage'
            obtain ⟨mp', hmp', rfl⟩ := List.mem_map.1 hr
            rw [List.map_singleton, List.mem_singleton] at hr'
            rw [hr', hrange] at hpage'
            have hlow := (hpools mp' hmp').low
            have hge := hpage.1
            have hlt : page < b + 2 ^ (fls x - 1) * pageSize := hpage'.2
            omega
        · -- a pool of the highest order takes the whole range
          have hfull : x - 2 ^ (fls x - 1) = 0 := by
            have hpow : 2 ^ 31 ≤ 2 ^ (fls x - 1) := Nat.pow_le_pow_right (by decide) (by omega)
            omega
          refine ⟨[mp], ?_, ?_, List.pairwise_singleton _ _⟩
          · rw [hadd, hfull, addPools_zero]
            rfl
          · intro mp' hmp'
            rw [List.mem_singleton.1 hmp']
            exact hmp

/-- `ADD_MEMORY` with a range that meets no pool keeps the pages in use. -/
theorem PoolsOk.addMemory {off b pages : Nat} {used : Set Nat} {pools : List BuddyMempool}
    (h : PoolsOk off used pools) (memory : Nat → Nat) (hoff : off < 2 ^ 64)
    (hpages : pages % 2 ^ 32 ≤ 2 ^ 31) (hb : 2 ^ 12 ∣ b) (hbound : b + pages * pageSize ≤ 2 ^ 52)
    (hused : ∀ page ∈ used, ∃ mp ∈ pools, (physRange off mp).Contains page)
    (hdisj : ∀ mp ∈ pools, PhysRange.Disjoint ⟨b, pages * pageSize⟩ (physRange off mp)) :
    ∃ new, addMemory off memory pools b pages = some (new ++ pools) ∧
      PoolsOk off used (new ++ pools) ∧ ∀ mp ∈ new, b ≤ (physRange off mp).base ∧
        (physRange off mp).base + (physRange off mp).size ≤ b + pages * pageSize := by
  have hmod : pages % 2 ^ 32 * pageSize ≤ pages * pageSize :=
    Nat.mul_le_mul_right _ (Nat.mod_le _ _)
  obtain ⟨new, hnew, hpools, hpair⟩ := addPools_layout hoff memory (n := 32) pools hpages hb
    ((Nat.add_le_add_left hmod b).trans hbound)
  have hwithin : ∀ mp ∈ new, b ≤ (physRange off mp).base ∧
      (physRange off mp).base + (physRange off mp).size ≤ b + pages * pageSize := fun mp hmp =>
    ⟨(hpools mp hmp).low, (hpools mp hmp).high.trans (Nat.add_le_add_left hmod b)⟩
  have hapart : ∀ mp ∈ new, ∀ mp' ∈ pools, (physRange off mp).Disjoint (physRange off mp') := by
    intro mp hmp mp' hmp' page hpage
    obtain ⟨hlow, hhigh⟩ := hwithin mp hmp
    refine hdisj mp' hmp' page ⟨hlow.trans hpage.1, Nat.lt_of_lt_of_le hpage.2 hhigh⟩
  refine ⟨new, hnew, ⟨?_, ?_⟩, hwithin⟩
  · intro mp hmp
    rcases List.mem_append.1 hmp with hmp | hmp
    · have hfresh := hpools mp hmp
      -- no page in use lies in the new range
      have hempty : outOf off used mp = ∅ := by
        apply Set.eq_empty_of_forall_notMem
        intro c hc
        obtain ⟨mp', hmp', hcont⟩ := hused _ hc.2.2
        exact hapart mp hmp mp' hmp' _ ⟨Nat.le_add_right _ _, Nat.add_lt_add_left hc.2.1 _⟩ hcont
      exact ⟨hempty ▸ hfresh.inv, hfresh.min, (hwithin mp hmp).2.trans hbound, hfresh.aligned⟩
    · exact h.pool mp hmp
  · rw [List.map_append, List.pairwise_append]
    refine ⟨hpair, h.disjoint, ?_⟩
    intro r hr r' hr'
    obtain ⟨mp, hmp, rfl⟩ := List.mem_map.1 hr
    obtain ⟨mp', hmp', rfl⟩ := List.mem_map.1 hr'
    exact hapart mp hmp mp' hmp'

end PetKernel.VirtualMemory
