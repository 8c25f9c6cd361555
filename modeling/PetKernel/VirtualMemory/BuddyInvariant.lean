import PetKernel.VirtualMemory.Buddy

/-!
# The invariant of a buddy pool

`PoolInv mp out hand` says that the blocks on the free lists, the blocks `out` that were handed out
and the blocks `hand` that an operation is working on partition the pool. The tag bit and the order
field are right at the start of every free block, and the tag bit is clear at the start of every
block handed out. Nothing is said about the tag bits inside blocks: a merge leaves them set, and
they are set or cleared again before the allocator looks at them.

`PoolInv.buddyAlloc` and `PoolInv.buddyFree` say what the two operations do to the blocks handed
out, and that they leave no two buddies free if there were none before (`Coalesced`). Both are put
together from small moves: a block changes from one of the three classes to another (`PoolInv.put`,
`PoolInv.remove`, `PoolInv.handOut`, `PoolInv.takeBack`), or the blocks at hand are cut up in
another way (`PoolInv.regroup`).
-/

set_option autoImplicit false

namespace PetKernel.VirtualMemory

open PetKernel.Library

/-! ## Addresses and offsets -/

theorem sub64_add64 {a b : Nat} (ha : a < 2 ^ 64) (hb : b < 2 ^ 64) : sub64 (add64 a b) a = b := by
  unfold sub64 add64
  omega

theorem add64_sub64 {a b : Nat} (ha : a < 2 ^ 64) (hb : b < 2 ^ 64) : add64 a (sub64 b a) = b := by
  unfold sub64 add64
  omega

theorem add64_of_lt {a b : Nat} (h : a + b < 2 ^ 64) : add64 a b = a + b :=
  Nat.mod_eq_of_lt h

namespace BuddyMempool

/-- The address at the offset `o` of a pool. -/
def addrOf (mp : BuddyMempool) (o : Nat) : Nat := add64 mp.baseAddr o

/-- The blocks on the free lists, by their offsets. -/
def free (mp : BuddyMempool) : Set DyadicBlock :=
  { b | b.start < 2 ^ 64 ∧ mp.addrOf b.start ∈ mp.avail b.order }

theorem mem_free {mp : BuddyMempool} {b : DyadicBlock} :
    b ∈ mp.free ↔ b.start < 2 ^ 64 ∧ mp.addrOf b.start ∈ mp.avail b.order := Iff.rfl

theorem addrOf_lt (mp : BuddyMempool) (o : Nat) : mp.addrOf o < 2 ^ 64 :=
  Nat.mod_lt _ (Nat.two_pow_pos 64)

/-- In a pool that ends before the address space does, offsets are added without wrapping. -/
theorem addrOf_eq {mp : BuddyMempool} (hwrap : mp.baseAddr + 2 ^ mp.poolOrder ≤ 2 ^ 64) {o : Nat}
    (ho : o < 2 ^ mp.poolOrder) : mp.addrOf o = mp.baseAddr + o :=
  add64_of_lt (by omega)

theorem addrOf_inj {mp : BuddyMempool} (hbase : mp.baseAddr < 2 ^ 64) {o o' : Nat} (ho : o < 2 ^ 64)
    (ho' : o' < 2 ^ 64) (h : mp.addrOf o = mp.addrOf o') : o = o' := by
  rw [← sub64_add64 hbase ho, ← sub64_add64 hbase ho']
  exact congrArg (fun a => sub64 a mp.baseAddr) h

/-- The fields that no operation changes. -/
structure SameShape (mp mp' : BuddyMempool) : Prop where
  baseAddr : mp'.baseAddr = mp.baseAddr
  poolOrder : mp'.poolOrder = mp.poolOrder
  minOrder : mp'.minOrder = mp.minOrder
  numBlocks : mp'.numBlocks = mp.numBlocks

theorem SameShape.refl (mp : BuddyMempool) : SameShape mp mp := ⟨rfl, rfl, rfl, rfl⟩

theorem SameShape.symm {mp mp' : BuddyMempool} (h : SameShape mp mp') : SameShape mp' mp :=
  ⟨h.baseAddr.symm, h.poolOrder.symm, h.minOrder.symm, h.numBlocks.symm⟩

theorem SameShape.trans {mp₁ mp₂ mp₃ : BuddyMempool} (h : SameShape mp₁ mp₂)
    (h' : SameShape mp₂ mp₃) : SameShape mp₁ mp₃ :=
  ⟨h'.baseAddr.trans h.baseAddr, h'.poolOrder.trans h.poolOrder, h'.minOrder.trans h.minOrder,
    h'.numBlocks.trans h.numBlocks⟩

theorem SameShape.addrOf {mp mp' : BuddyMempool} (h : SameShape mp mp') (o : Nat) :
    mp'.addrOf o = mp.addrOf o := by
  rw [BuddyMempool.addrOf, h.baseAddr]
  rfl

theorem SameShape.fixOrder {mp mp' : BuddyMempool} (h : SameShape mp mp') (order : Nat) :
    fixOrder mp' order = fixOrder mp order := by
  rw [VirtualMemory.fixOrder, h.minOrder]
  rfl

theorem free_listAdd {mp : BuddyMempool} (hbase : mp.baseAddr < 2 ^ 64) {o k : Nat}
    (ho : o < 2 ^ 64) : (mp.listAdd (mp.addrOf o) k).free = insert ⟨o, k⟩ mp.free := by
  ext b
  rw [Set.mem_insert_iff, mem_free, mem_free]
  show b.start < 2 ^ 64 ∧ mp.addrOf b.start ∈ Function.update mp.avail k _ b.order ↔ _
  by_cases hk : b.order = k
  · rw [hk, Function.update_self, List.mem_cons]
    constructor
    · rintro ⟨hlt, hb | hb⟩
      · exact Or.inl (DyadicBlock.ext (addrOf_inj hbase hlt ho hb) hk)
      · exact Or.inr ⟨hlt, hb⟩
    · rintro (rfl | ⟨hlt, hb⟩)
      · exact ⟨ho, Or.inl rfl⟩
      · exact ⟨hlt, Or.inr hb⟩
  · rw [Function.update_of_ne hk]
    constructor
    · exact Or.inr
    · rintro (rfl | hb)
      · exact absurd rfl hk
      · exact hb

end BuddyMempool

/-! ## Free buddies -/

namespace BuddyMempool

/-- No two buddies of the same order are both free. -/
def Coalesced (mp : BuddyMempool) : Prop :=
  ∀ b ∈ mp.free, b.order < mp.poolOrder → ⟨b.start ^^^ 2 ^ b.order, b.order⟩ ∉ mp.free

theorem Coalesced.subset {mp mp' : BuddyMempool} (h : mp.Coalesced) (hsub : mp'.free ⊆ mp.free)
    (hpool : mp'.poolOrder = mp.poolOrder) : mp'.Coalesced :=
  fun b hb hlt hbuddy => h b (hsub hb) (hpool ▸ hlt) (hsub hbuddy)

/-- A block whose buddy is not free becomes free. -/
theorem Coalesced.insert {mp mp' : BuddyMempool} {o k : Nat} (h : mp.Coalesced)
    (hfree : mp'.free = insert ⟨o, k⟩ mp.free) (hpool : mp'.poolOrder = mp.poolOrder)
    (hbuddy : k < mp.poolOrder → ⟨o ^^^ 2 ^ k, k⟩ ∉ mp.free) : mp'.Coalesced := by
  intro b hb hlt hmem
  rw [hpool] at hlt
  rw [hfree] at hb hmem
  rcases hb with rfl | hb
  · rcases hmem with heq | hmem
    · -- no block is its own buddy
      have hx : o ^^^ (o ^^^ 2 ^ k) = o ^^^ o := congrArg (o ^^^ DyadicBlock.start ·) heq
      rw [← Nat.xor_assoc, Nat.xor_self, Nat.zero_xor] at hx
      exact absurd hx (Nat.two_pow_pos k).ne'
    · exact hbuddy hlt hmem
  · rcases hmem with heq | hmem
    · obtain ⟨hstart, rfl⟩ : b.start ^^^ 2 ^ b.order = o ∧ b.order = k := by
        injection heq with hstart horder
        exact ⟨hstart, horder⟩
      refine hbuddy hlt ?_
      rw [← hstart, Nat.xor_assoc, Nat.xor_self, Nat.xor_zero]
      exact hb
    · exact h b hb hlt hmem

end BuddyMempool

/-! ## The invariant -/

/-- The free blocks, the blocks handed out and the blocks at hand make up the pool. -/
structure PoolInv (mp : BuddyMempool) (out hand : Set DyadicBlock) : Prop where
  min_le : mp.minOrder ≤ mp.poolOrder
  pool_lt : mp.poolOrder < 64
  base_lt : mp.baseAddr < 2 ^ 64
  numBlocks_eq : mp.numBlocks = 2 ^ (mp.poolOrder - mp.minOrder)
  avail_lt : ∀ j, ∀ a ∈ mp.avail j, a < 2 ^ 64
  avail_nodup : ∀ j, (mp.avail j).Nodup
  partition : IsPartition mp.poolOrder (mp.free ∪ out ∪ hand)
  free_not_out : ∀ b ∈ mp.free, b ∉ out
  hand_not_free : ∀ b ∈ hand, b ∉ mp.free
  hand_not_out : ∀ b ∈ hand, b ∉ out
  order_ge : ∀ b ∈ mp.free ∪ out ∪ hand, mp.minOrder ≤ b.order
  tag_free : ∀ b ∈ mp.free, mp.tagBits (b.start / 2 ^ mp.minOrder) = true
  order_free : ∀ b ∈ mp.free, mp.blockOrder (mp.addrOf b.start) = b.order
  tag_out : ∀ b ∈ out, mp.tagBits (b.start / 2 ^ mp.minOrder) = false

namespace PoolInv

variable {mp mp' : BuddyMempool} {out hand hand' : Set DyadicBlock} {b : DyadicBlock} {o k : Nat}

theorem start_lt (h : PoolInv mp out hand) (hb : b ∈ mp.free ∪ out ∪ hand) :
    b.start < 2 ^ mp.poolOrder := by
  have hbound := h.partition.bound b hb
  have hpos := Nat.two_pow_pos b.order
  omega

theorem pow_le (h : PoolInv mp out hand) : 2 ^ mp.poolOrder ≤ 2 ^ 63 :=
  Nat.pow_le_pow_right (by decide) (Nat.le_of_lt_succ h.pool_lt)

theorem lt_word (h : PoolInv mp out hand) (ho : o < 2 ^ mp.poolOrder) : o < 2 ^ 64 :=
  Nat.lt_of_lt_of_le ho (h.pow_le.trans (by decide))

theorem order_le (h : PoolInv mp out hand) (hb : b ∈ mp.free ∪ out ∪ hand) :
    b.order ≤ mp.poolOrder := by
  have hbound := h.partition.bound b hb
  exact (Nat.pow_le_pow_iff_right (by decide)).1 ((Nat.le_add_left _ _).trans hbound)

theorem sub64_addrOf (h : PoolInv mp out hand) (ho : o < 2 ^ mp.poolOrder) :
    sub64 (mp.addrOf o) mp.baseAddr = o :=
  sub64_add64 h.base_lt (h.lt_word ho)

theorem blockToId_addrOf (h : PoolInv mp out hand) (ho : o < 2 ^ mp.poolOrder) :
    blockToId mp (mp.addrOf o) = some (o / 2 ^ mp.minOrder) := by
  unfold blockToId
  rw [h.sub64_addrOf ho, Nat.shiftRight_eq_div_pow, h.numBlocks_eq]
  refine if_neg (Nat.not_le_of_lt ?_)
  rw [Nat.div_lt_iff_lt_mul (Nat.two_pow_pos _), ← Nat.pow_add, Nat.sub_add_cancel h.min_le]
  exact ho

/-- Different blocks have different tag bits. -/
theorem start_eq_of_div_eq (h : PoolInv mp out hand) {c : DyadicBlock}
    (hb : b ∈ mp.free ∪ out ∪ hand) (hc : c ∈ mp.free ∪ out ∪ hand)
    (heq : b.start / 2 ^ mp.minOrder = c.start / 2 ^ mp.minOrder) : b.start = c.start := by
  have hdvd : ∀ d ∈ mp.free ∪ out ∪ hand, 2 ^ mp.minOrder ∣ d.start := fun d hd =>
    (Nat.pow_dvd_pow 2 (h.order_ge d hd)).trans (h.partition.aligned d hd)
  rw [← Nat.div_mul_cancel (hdvd b hb), ← Nat.div_mul_cancel (hdvd c hc), heq]

/-- The bits and fields at the starts of free and handed out blocks are all that matters. -/
theorem congr (h : PoolInv mp out hand) (hshape : mp.SameShape mp') (havail : mp'.avail = mp.avail)
    (htag : ∀ b ∈ mp.free ∪ out, mp'.tagBits (b.start / 2 ^ mp.minOrder) =
      mp.tagBits (b.start / 2 ^ mp.minOrder))
    (horder : ∀ b ∈ mp.free, mp'.blockOrder (mp.addrOf b.start) =
      mp.blockOrder (mp.addrOf b.start)) :
    PoolInv mp' out hand := by
  have hfree : mp'.free = mp.free := by
    ext b
    rw [BuddyMempool.mem_free, BuddyMempool.mem_free, hshape.addrOf, havail]
  constructor
  · rw [hshape.minOrder, hshape.poolOrder]
    exact h.min_le
  · rw [hshape.poolOrder]
    exact h.pool_lt
  · rw [hshape.baseAddr]
    exact h.base_lt
  · rw [hshape.numBlocks, hshape.poolOrder, hshape.minOrder]
    exact h.numBlocks_eq
  · rw [havail]
    exact h.avail_lt
  · rw [havail]
    exact h.avail_nodup
  · rw [hshape.poolOrder, hfree]
    exact h.partition
  · rw [hfree]
    exact h.free_not_out
  · rw [hfree]
    exact h.hand_not_free
  · exact h.hand_not_out
  · rw [hfree, hshape.minOrder]
    exact h.order_ge
  · intro b hb
    rw [hfree] at hb
    rw [hshape.minOrder, htag b (Or.inl hb)]
    exact h.tag_free b hb
  · intro b hb
    rw [hfree] at hb
    rw [hshape.addrOf, horder b hb]
    exact h.order_free b hb
  · intro b hb
    rw [hshape.minOrder, htag b (Or.inr hb)]
    exact h.tag_out b hb

/-- The blocks at hand are cut up in another way. -/
theorem regroup (h : PoolInv mp out hand)
    (hpart : IsPartition mp.poolOrder (mp.free ∪ out ∪ hand'))
    (hfree : ∀ b ∈ hand', b ∉ mp.free) (hout : ∀ b ∈ hand', b ∉ out)
    (horder : ∀ b ∈ hand', mp.minOrder ≤ b.order) : PoolInv mp out hand' :=
  ⟨h.min_le, h.pool_lt, h.base_lt, h.numBlocks_eq, h.avail_lt, h.avail_nodup, hpart, h.free_not_out,
    hfree, hout, fun b hb => hb.elim (fun hb => h.order_ge b (Or.inl hb)) (horder b), h.tag_free,
    h.order_free, h.tag_out⟩

/-- A block at hand whose tag bit is clear is handed out. -/
theorem handOut (h : PoolInv mp out (insert b hand)) (hb : b ∉ hand)
    (htag : mp.tagBits (b.start / 2 ^ mp.minOrder) = false) : PoolInv mp (insert b out) hand := by
  have hmem : b ∈ insert b hand := Set.mem_insert b hand
  -- the block changes sides, so that all blocks together are the same
  have hset : mp.free ∪ insert b out ∪ hand = mp.free ∪ out ∪ insert b hand := by
    ext c
    simp only [Set.mem_union, Set.mem_insert_iff]
    tauto
  refine ⟨h.min_le, h.pool_lt, h.base_lt, h.numBlocks_eq, h.avail_lt, h.avail_nodup, ?_, ?_, ?_, ?_,
    ?_, h.tag_free, h.order_free, ?_⟩
  · rw [hset]
    exact h.partition
  · rintro c hc (rfl | hc')
    · exact h.hand_not_free c hmem hc
    · exact h.free_not_out c hc hc'
  · exact fun c hc => h.hand_not_free c (Set.mem_insert_of_mem b hc)
  · rintro c hc (rfl | hc')
    · exact hb hc
    · exact h.hand_not_out c (Set.mem_insert_of_mem b hc) hc'
  · rw [hset]
    exact h.order_ge
  · rintro c (rfl | hc)
    · exact htag
    · exact h.tag_out c hc

/-- A block that was handed out is taken back. -/
theorem takeBack (h : PoolInv mp out ∅) (hb : b ∈ out) : PoolInv mp (out \ {b}) {b} := by
  have hset : mp.free ∪ (out \ {b}) ∪ {b} = mp.free ∪ out ∪ ∅ := by
    ext c
    simp only [Set.mem_union, Set.mem_sdiff, Set.mem_singleton_iff, Set.mem_empty_iff_false,
      or_false]
    constructor
    · rintro ((hc | hc) | rfl)
      · exact Or.inl hc
      · exact Or.inr hc.1
      · exact Or.inr hb
    · rintro (hc | hc)
      · exact Or.inl (Or.inl hc)
      · by_cases hcb : c = b
        · exact Or.inr hcb
        · exact Or.inl (Or.inr ⟨hc, hcb⟩)
  refine ⟨h.min_le, h.pool_lt, h.base_lt, h.numBlocks_eq, h.avail_lt, h.avail_nodup, ?_, ?_, ?_, ?_,
    ?_, h.tag_free, h.order_free, ?_⟩
  · rw [hset]
    exact h.partition
  · exact fun c hc hc' => h.free_not_out c hc hc'.1
  · rintro c rfl hc
    exact h.free_not_out c hc hb
  · rintro c rfl hc
    exact hc.2 rfl
  · rw [hset]
    exact h.order_ge
  · exact fun c hc => h.tag_out c hc.1

/-- A block at hand goes to a free list. -/
theorem put (h : PoolInv mp out (insert ⟨o, k⟩ hand)) (hb : ⟨o, k⟩ ∉ hand) :
    ∃ mp', putAvailable mp (mp.addrOf o) k = some mp' ∧ PoolInv mp' out hand ∧
      mp.SameShape mp' ∧ mp'.free = insert ⟨o, k⟩ mp.free ∧
      ∀ i, i ≠ o / 2 ^ mp.minOrder → mp'.tagBits i = mp.tagBits i := by
  have hmem : (⟨o, k⟩ : DyadicBlock) ∈ mp.free ∪ out ∪ insert ⟨o, k⟩ hand :=
    Or.inr (Set.mem_insert _ _)
  have ho : o < 2 ^ mp.poolOrder := h.start_lt hmem
  -- no free or handed out block starts where the block at hand does
  have hstart : ∀ c ∈ mp.free ∪ out, c.start ≠ o := by
    intro c hc heq
    have hcb := h.partition.eq_of_start (Or.inl hc) hmem heq
    rcases hc with hc | hc
    · exact h.hand_not_free _ (Set.mem_insert _ _) (hcb ▸ hc)
    · exact h.hand_not_out _ (Set.mem_insert _ _) (hcb ▸ hc)
  let mp₁ : BuddyMempool :=
    { mp with
      blockOrder := Function.update mp.blockOrder (mp.addrOf o) k
      tagBits := Function.update mp.tagBits (o / 2 ^ mp.minOrder) true }
  have h₁ : PoolInv mp₁ out (insert ⟨o, k⟩ hand) := by
    refine h.congr ⟨rfl, rfl, rfl, rfl⟩ rfl (fun c hc => Function.update_of_ne ?_ _ _)
      fun c hc => Function.update_of_ne ?_ _ _
    · exact fun heq => hstart c hc (h.start_eq_of_div_eq (Or.inl hc) hmem heq)
    · have hc' : c ∈ mp.free ∪ out ∪ insert ⟨o, k⟩ hand := Or.inl (Or.inl hc)
      exact fun heq => hstart c (Or.inl hc) (BuddyMempool.addrOf_inj h.base_lt
        (h.lt_word (h.start_lt hc')) (h.lt_word ho) heq)
  have hadd : (mp₁.listAdd (mp₁.addrOf o) k).free = insert ⟨o, k⟩ mp₁.free :=
    BuddyMempool.free_listAdd h.base_lt (h.lt_word ho)
  have hfree : (mp₁.listAdd (mp.addrOf o) k).free = insert ⟨o, k⟩ mp.free := hadd
  refine ⟨mp₁.listAdd (mp.addrOf o) k, ?_, ?_, ⟨rfl, rfl, rfl, rfl⟩, hfree, fun i hi =>
    Function.update_of_ne hi _ _⟩
  · have hid : blockToId (mp.setOrder (mp.addrOf o) k) (mp.addrOf o) =
        some (o / 2 ^ mp.minOrder) := h.blockToId_addrOf ho
    unfold putAvailable markAvailable setTag
    rw [hid]
    rfl
  · have hset : insert ⟨o, k⟩ mp.free ∪ out ∪ hand = mp.free ∪ out ∪ insert ⟨o, k⟩ hand := by
      ext c
      simp only [Set.mem_union, Set.mem_insert_iff]
      tauto
    have havail : (mp₁.listAdd (mp.addrOf o) k).avail =
        Function.update mp.avail k (mp.addrOf o :: mp.avail k) := rfl
    constructor
    · exact h.min_le
    · exact h.pool_lt
    · exact h.base_lt
    · exact h.numBlocks_eq
    · intro j a ha
      rw [havail] at ha
      by_cases hj : j = k
      · subst hj
        rw [Function.update_self, List.mem_cons] at ha
        rcases ha with rfl | ha
        · exact mp.addrOf_lt o
        · exact h.avail_lt j a ha
      · rw [Function.update_of_ne hj] at ha
        exact h.avail_lt j a ha
    · intro j
      rw [havail]
      by_cases hj : j = k
      · subst hj
        rw [Function.update_self, List.nodup_cons]
        refine ⟨fun hin => ?_, h.avail_nodup j⟩
        exact h.hand_not_free _ (Set.mem_insert _ _) ⟨h.lt_word ho, hin⟩
      · rw [Function.update_of_ne hj]
        exact h.avail_nodup j
    · rw [hfree, hset]
      exact h.partition
    · rw [hfree]
      rintro c (rfl | hc)
      · exact h.hand_not_out _ (Set.mem_insert _ _)
      · exact h.free_not_out c hc
    · rw [hfree]
      rintro c hc (rfl | hc')
      · exact hb hc
      · exact h.hand_not_free c (Set.mem_insert_of_mem _ hc) hc'
    · exact fun c hc => h.hand_not_out c (Set.mem_insert_of_mem _ hc)
    · rw [hfree, hset]
      exact h.order_ge
    · rw [hfree]
      rintro c (rfl | hc)
      · exact Function.update_self _ _ _
      · exact h₁.tag_free c hc
    · rw [hfree]
      rintro c (rfl | hc)
      · exact Function.update_self _ _ _
      · exact h₁.order_free c hc
    · exact fun c hc => h₁.tag_out c hc

/-- A block is taken off its free list. -/
theorem remove (h : PoolInv mp out hand) {avail' : Nat → List Nat} (hb : b ∈ mp.free)
    (hmem : ∀ j x, x ∈ avail' j ↔ x ∈ mp.avail j ∧ ¬ (x = mp.addrOf b.start ∧ j = b.order))
    (hnodup : ∀ j, (avail' j).Nodup) : PoolInv { mp with avail := avail' } out (insert b hand) := by
  have hfree : ({ mp with avail := avail' } : BuddyMempool).free = mp.free \ {b} := by
    ext c
    have haddr : ({ mp with avail := avail' } : BuddyMempool).addrOf c.start = mp.addrOf c.start :=
      rfl
    rw [Set.mem_sdiff, Set.mem_singleton_iff, BuddyMempool.mem_free, BuddyMempool.mem_free, haddr,
      hmem, ← and_assoc]
    refine and_congr_right fun hc => not_congr ⟨fun heq => ?_, fun heq => ?_⟩
    · exact DyadicBlock.ext (BuddyMempool.addrOf_inj h.base_lt hc.1 hb.1 heq.1) heq.2
    · rw [heq]
      exact ⟨rfl, rfl⟩
  -- what leaves the free lists is at hand
  have hset : mp.free \ {b} ∪ out ∪ insert b hand = mp.free ∪ out ∪ hand := by
    ext c
    simp only [Set.mem_union, Set.mem_sdiff, Set.mem_singleton_iff, Set.mem_insert_iff]
    constructor
    · rintro ((hc | hc) | (rfl | hc))
      · exact Or.inl (Or.inl hc.1)
      · exact Or.inl (Or.inr hc)
      · exact Or.inl (Or.inl hb)
      · exact Or.inr hc
    · rintro ((hc | hc) | hc)
      · by_cases hcb : c = b
        · exact Or.inr (Or.inl hcb)
        · exact Or.inl (Or.inl ⟨hc, hcb⟩)
      · exact Or.inl (Or.inr hc)
      · exact Or.inr (Or.inr hc)
  constructor
  · exact h.min_le
  · exact h.pool_lt
  · exact h.base_lt
  · exact h.numBlocks_eq
  · exact fun j a ha => h.avail_lt j a ((hmem j a).1 ha).1
  · exact hnodup
  · rw [hfree, hset]
    exact h.partition
  · rw [hfree]
    exact fun c hc => h.free_not_out c hc.1
  · rw [hfree]
    rintro c (rfl | hc) hc'
    · exact hc'.2 rfl
    · exact h.hand_not_free c hc hc'.1
  · rintro c (rfl | hc)
    · exact h.free_not_out c hb
    · exact h.hand_not_out c hc
  · rw [hfree, hset]
    exact h.order_ge
  · rw [hfree]
    exact fun c hc => h.tag_free c hc.1
  · rw [hfree]
    exact fun c hc => h.order_free c hc.1
  · exact h.tag_out

/-- What starts inside a block and is another block is in none of the classes. -/
theorem not_mem_of_covered (h : PoolInv mp out hand) {c : DyadicBlock}
    (hb : b ∈ mp.free ∪ out ∪ hand) (hcov : b.Covers c.start) (hne : c ≠ b) :
    c ∉ mp.free ∪ out ∪ hand :=
  fun hc => hne (h.partition.unique c hc b hb c.start c.covers_start hcov)

/-- The pool without the one block at hand. -/
theorem sdiff_hand (h : PoolInv mp out {b}) : (mp.free ∪ out ∪ {b}) \ {b} = mp.free ∪ out := by
  ext c
  simp only [Set.mem_sdiff, Set.mem_union, Set.mem_singleton_iff]
  constructor
  · rintro ⟨hc | rfl, hne⟩
    · exact hc
    · exact absurd rfl hne
  · intro hc
    refine ⟨Or.inl hc, ?_⟩
    rintro rfl
    exact hc.elim (h.hand_not_free c rfl) (h.hand_not_out c rfl)

/-! ## Allocation -/

/-- The upper half of the block at hand goes to a free list. -/
theorem split (h : PoolInv mp out {⟨o, k + 1⟩}) (hmin : mp.minOrder ≤ k) :
    ∃ mp', putAvailable mp (add64 (mp.addrOf o) (2 ^ k)) k = some mp' ∧ PoolInv mp' out {⟨o, k⟩} ∧
      mp.SameShape mp' ∧ mp'.tagBits (o / 2 ^ mp.minOrder) = mp.tagBits (o / 2 ^ mp.minOrder) ∧
      (mp.Coalesced → mp'.Coalesced) := by
  have hmem : (⟨o, k + 1⟩ : DyadicBlock) ∈ mp.free ∪ out ∪ {⟨o, k + 1⟩} := Or.inr rfl
  have hpos := Nat.two_pow_pos k
  have hpow : 2 ^ (k + 1) = 2 ^ k + 2 ^ k := by rw [Nat.pow_succ, Nat.mul_two]
  have hlow : (⟨o, k + 1⟩ : DyadicBlock).Covers o := DyadicBlock.covers_start _
  have hhigh : (⟨o, k + 1⟩ : DyadicBlock).Covers (o + 2 ^ k) := by
    refine ⟨Nat.le_add_right _ _, ?_⟩
    simp only [hpow]
    omega
  have hnot : ∀ c ∈ ({⟨o + 2 ^ k, k⟩, ⟨o, k⟩} : Set DyadicBlock),
      c ∉ mp.free ∪ out ∪ {⟨o, k + 1⟩} := by
    rintro c (rfl | rfl)
    · exact h.not_mem_of_covered hmem hhigh (by simp)
    · exact h.not_mem_of_covered hmem hlow (by simp)
  have hpart := h.partition.split hmem
  -- both halves are at hand, and then the upper one is put on its list
  rw [h.sdiff_hand, Set.pair_comm] at hpart
  have hhalves : PoolInv mp out {⟨o + 2 ^ k, k⟩, ⟨o, k⟩} := by
    refine h.regroup hpart (fun c hc hc' => hnot c hc (Or.inl (Or.inl hc')))
      (fun c hc hc' => hnot c hc (Or.inl (Or.inr hc'))) ?_
    rintro c (rfl | rfl)
    · exact hmin
    · exact hmin
  have hne : (⟨o + 2 ^ k, k⟩ : DyadicBlock) ∉ ({⟨o, k⟩} : Set DyadicBlock) := by
    intro heq
    have hstart := congrArg DyadicBlock.start (Set.mem_singleton_iff.1 heq)
    simp only at hstart
    omega
  have haddr : add64 (mp.addrOf o) (2 ^ k) = mp.addrOf (o + 2 ^ k) := by
    unfold BuddyMempool.addrOf add64
    omega
  obtain ⟨mp', hput, hinv, hshape, hfree, htag⟩ := hhalves.put hne
  refine ⟨mp', haddr ▸ hput, hinv, hshape, htag _ fun heq => ?_, fun hco => ?_⟩
  · -- the bit that is set is the one of the upper half
    have hsame := hhalves.start_eq_of_div_eq (b := ⟨o, k⟩) (c := ⟨o + 2 ^ k, k⟩)
      (Or.inr (Or.inr rfl)) (Or.inr (Or.inl rfl)) heq
    simp only at hsame
    omega
  · -- the buddy of the upper half is the lower one, which is at hand
    refine hco.insert hfree hshape.poolOrder fun _ hbuddy => ?_
    rw [add_two_pow_xor (h.partition.aligned _ hmem)] at hbuddy
    exact hnot _ (Or.inr rfl) (Or.inl (Or.inl hbuddy))

theorem trim {order : Nat} (hmin : mp.minOrder ≤ order) :
    ∀ {j : Nat}, PoolInv mp out {⟨o, j⟩} → order ≤ j →
      mp.tagBits (o / 2 ^ mp.minOrder) = false →
      ∃ mp', trim (mp.addrOf o) order j mp = some mp' ∧ PoolInv mp' out {⟨o, order⟩} ∧
        mp.SameShape mp' ∧ mp'.tagBits (o / 2 ^ mp.minOrder) = false ∧
        (mp.Coalesced → mp'.Coalesced) := by
  intro j
  induction j generalizing mp with
  | zero =>
      -- the block at hand gets smaller by one order in each turn
      intro h hle htag
      obtain rfl := Nat.le_zero.1 hle
      exact ⟨mp, rfl, h, .refl mp, htag, id⟩
  | succ j ih =>
      intro h hle htag
      rw [VirtualMemory.trim]
      by_cases hlt : order < j + 1
      · rw [if_pos hlt]
        have hj := Nat.le_of_lt_succ hlt
        obtain ⟨mp₁, hput, h₁, hshape, htag₁, hco₁⟩ := h.split (hmin.trans hj)
        rw [hput]
        have hmin₁ : mp₁.minOrder ≤ order := by
          rw [hshape.minOrder]
          exact hmin
        rw [← hshape.minOrder] at htag₁ htag ⊢
        obtain ⟨mp', htrim, h', hshape', htag', hco'⟩ := ih hmin₁ h₁ hj (htag₁.trans htag)
        rw [hshape.addrOf] at htrim
        exact ⟨mp', htrim, h', hshape.trans hshape', htag', hco' ∘ hco₁⟩
      · rw [if_neg hlt]
        obtain rfl := Nat.le_antisymm hle (Nat.le_of_not_lt hlt)
        exact ⟨mp, rfl, h, .refl mp, htag, id⟩

end PoolInv

/-- The block that `buddy_alloc` takes off a free list, when it looks at `n` orders from `j` on. -/
def firstAvail (mp : BuddyMempool) : Nat → Nat → Option Nat
  | 0, _ => none
  | n + 1, j =>
      match mp.avail j with
      | [] => firstAvail mp n (j + 1)
      | block :: _ => some block

/-- The block that `buddy_alloc(mp, order)` returns. -/
def allocBlock (mp : BuddyMempool) (order : Nat) : Option Nat :=
  firstAvail mp (mp.poolOrder + 1 - fixOrder mp order) (fixOrder mp order)

/-- No free block is found if and only if the lists from the order `j` on are empty. -/
theorem firstAvail_eq_none_iff {mp : BuddyMempool} {n j : Nat} :
    firstAvail mp n j = none ↔ ∀ i, j ≤ i → i < j + n → mp.avail i = [] := by
  induction n generalizing j with
  | zero => exact ⟨fun _ i hle hlt => absurd hlt (Nat.not_lt.2 hle), fun _ => rfl⟩
  | succ n ih =>
      rw [firstAvail]
      cases hav : mp.avail j with
      | nil =>
          rw [ih]
          constructor
          · intro h i hle hlt
            rcases Nat.eq_or_lt_of_le hle with rfl | hlt'
            · exact hav
            · exact h i hlt' (by omega)
          · intro h i hle hlt
            exact h i (by omega) (by omega)
      | cons block rest =>
          constructor
          · intro h
            cases h
          · intro h
            have hnil := h j (Nat.le_refl j) (by omega)
            rw [hav] at hnil
            exact absurd hnil (List.cons_ne_nil _ _)

namespace PoolInv

variable {mp mp' : BuddyMempool} {out hand : Set DyadicBlock} {b : DyadicBlock} {o k : Nat}

/-- The first block of a free list is taken off it. -/
theorem removeHead (h : PoolInv mp out hand) {j : Nat} {rest : List Nat} (hfree : ⟨o, j⟩ ∈ mp.free)
    (hav : mp.avail j = mp.addrOf o :: rest) :
    PoolInv { mp with avail := Function.update mp.avail j rest } out (insert ⟨o, j⟩ hand) := by
  have hnodup := h.avail_nodup j
  rw [hav, List.nodup_cons] at hnodup
  refine h.remove hfree (fun i x => ?_) fun i => ?_
  · by_cases hi : i = j
    · subst hi
      rw [Function.update_self, hav, List.mem_cons]
      constructor
      · intro hx
        exact ⟨Or.inr hx, fun heq => hnodup.1 (heq.1 ▸ hx)⟩
      · rintro ⟨rfl | hx, hne⟩
        · exact absurd ⟨rfl, rfl⟩ hne
        · exact hx
    · rw [Function.update_of_ne hi]
      exact ⟨fun hx => ⟨hx, fun heq => hi heq.2⟩, fun hx => hx.1⟩
  · by_cases hi : i = j
    · subst hi
      rw [Function.update_self]
      exact hnodup.2
    · rw [Function.update_of_ne hi]
      exact h.avail_nodup i

/-- The head of a free list is taken off and marked as allocated. -/
theorem pop (h : PoolInv mp out ∅) {j block : Nat} {rest : List Nat}
    (hav : mp.avail j = block :: rest) :
    ∃ o mp', block = mp.addrOf o ∧ ⟨o, j⟩ ∈ mp.free ∧
      markAllocated { mp with avail := Function.update mp.avail j rest } block = some mp' ∧
      PoolInv mp' out {⟨o, j⟩} ∧ mp.SameShape mp' ∧
      mp'.tagBits (o / 2 ^ mp.minOrder) = false ∧ mp'.free ⊆ mp.free := by
  have hin : block ∈ mp.avail j := by
    rw [hav]
    exact List.mem_cons_self
  have hblock : mp.addrOf (sub64 block mp.baseAddr) = block :=
    add64_sub64 h.base_lt (h.avail_lt j block hin)
  have hfree : (⟨sub64 block mp.baseAddr, j⟩ : DyadicBlock) ∈ mp.free :=
    ⟨Nat.mod_lt _ (Nat.two_pow_pos 64), by rw [hblock]; exact hin⟩
  generalize sub64 block mp.baseAddr = o at hblock hfree
  have ho : o < 2 ^ mp.poolOrder := h.start_lt (Or.inl (Or.inl hfree))
  have hremove := h.removeHead hfree (hblock.symm ▸ hav)
  rw [insert_empty_eq] at hremove
  have hid : blockToId { mp with avail := Function.update mp.avail j rest } block =
      some (o / 2 ^ mp.minOrder) := by
    rw [← hblock]
    exact h.blockToId_addrOf ho
  refine ⟨o, { mp with
    avail := Function.update mp.avail j rest
    tagBits := Function.update mp.tagBits (o / 2 ^ mp.minOrder) false },
    hblock.symm, hfree, ?_, ?_, ⟨rfl, rfl, rfl, rfl⟩, Function.update_self _ _ _, ?_⟩
  · unfold markAllocated setTag
    rw [hid]
    rfl
  · -- the tag bit that is cleared is that of the block at hand
    refine hremove.congr ⟨rfl, rfl, rfl, rfl⟩ rfl (fun c hc => Function.update_of_ne ?_ _ _)
      fun c hc => rfl
    intro heq
    have hstart := hremove.start_eq_of_div_eq (c := ⟨o, j⟩) (Or.inl hc) (Or.inr rfl) heq
    have hcb := hremove.partition.eq_of_start (Or.inl hc) (Or.inr rfl) hstart
    rcases hc with hc | hc
    · exact hremove.hand_not_free _ rfl (hcb ▸ hc)
    · exact hremove.hand_not_out _ rfl (hcb ▸ hc)
  · rintro c ⟨hlt, hc⟩
    refine ⟨hlt, ?_⟩
    change _ ∈ Function.update mp.avail j rest c.order at hc
    rcases eq_or_ne c.order j with heq | hne
    · rw [heq, Function.update_self] at hc
      rw [heq, hav]
      exact List.mem_cons_of_mem block hc
    · rw [Function.update_of_ne hne] at hc
      exact hc

theorem allocFrom (h : PoolInv mp out ∅) {order : Nat} (hmin : mp.minOrder ≤ order) :
    ∀ (n j : Nat), order ≤ j →
      (firstAvail mp n j = none ∧ allocFrom mp order n j = some (none, mp)) ∨
      ∃ o k mp', firstAvail mp n j = some (mp.addrOf o) ∧ ⟨o, k⟩ ∈ mp.free ∧ order ≤ k ∧
        allocFrom mp order n j = some (some (mp.addrOf o), mp') ∧
        PoolInv mp' (insert ⟨o, order⟩ out) ∅ ∧ mp.SameShape mp' ∧ ⟨o, order⟩ ∉ out ∧
        (mp.Coalesced → mp'.Coalesced) := by
  intro n
  induction n with
  | zero =>
      intro j _
      exact Or.inl ⟨rfl, rfl⟩
  | succ n ih =>
      intro j hj
      rw [VirtualMemory.allocFrom, firstAvail]
      cases hav : mp.avail j with
      | nil => exact ih (j + 1) (hj.trans (Nat.le_succ j))
      | cons block rest =>
          obtain ⟨o, mp₁, rfl, hfree, hmark, h₁, hshape, htag, hsub⟩ := h.pop hav
          have hmin₁ : mp₁.minOrder ≤ order := by
            rw [hshape.minOrder]
            exact hmin
          rw [← hshape.minOrder] at htag
          -- the block comes off its list and is trimmed to the order asked for
          obtain ⟨mp', htrim, h', hshape', htag', hco⟩ := h₁.trim hmin₁ hj htag
          rw [hshape.addrOf] at htrim
          right
          refine ⟨o, j, mp', rfl, hfree, hj, ?_, ?_, hshape.trans hshape', ?_, fun h₀ => ?_⟩
          · simp only [hmark, htrim, Option.bind_eq_bind, Option.bind_some]
            rfl
          · rw [← insert_empty_eq, ← hshape'.minOrder] at *
            exact h'.handOut (Set.notMem_empty _) htag'
          · exact h'.hand_not_out _ rfl
          · exact hco (h₀.subset hsub hshape.poolOrder)

/-- `buddy_alloc` hands out the block that it finds, and leaves the pool alone if there is none. -/
theorem buddyAlloc (h : PoolInv mp out ∅) {order : Nat} (hle : order ≤ mp.poolOrder) :
    (allocBlock mp order = none ∧ buddyAlloc mp order = some (none, mp)) ∨
    ∃ o k mp', allocBlock mp order = some (mp.addrOf o) ∧ ⟨o, k⟩ ∈ mp.free ∧ fixOrder mp order ≤ k ∧
      buddyAlloc mp order = some (some (mp.addrOf o), mp') ∧
      PoolInv mp' (insert ⟨o, fixOrder mp order⟩ out) ∅ ∧ mp.SameShape mp' ∧
      ⟨o, fixOrder mp order⟩ ∉ out ∧ (mp.Coalesced → mp'.Coalesced) := by
  have hmin : mp.minOrder ≤ fixOrder mp order := by
    unfold fixOrder
    split <;> omega
  rw [VirtualMemory.buddyAlloc, if_neg (Nat.not_lt.2 hle)]
  exact h.allocFrom hmin _ _ (Nat.le_refl _)

/-! ## Release -/

/-- `list_del` of a free block. -/
theorem listDel (h : PoolInv mp out hand) (hb : b ∈ mp.free) :
    ∃ mp', mp.listDel (mp.addrOf b.start) = some mp' ∧ PoolInv mp' out (insert b hand) ∧
      mp.SameShape mp' ∧ mp'.free ⊆ mp.free := by
  have hmem : mp.addrOf b.start ∈ mp.avail b.order := hb.2
  have hany : ((List.range (mp.poolOrder + 1)).any fun j =>
      decide (mp.addrOf b.start ∈ mp.avail j)) = true := by
    rw [List.any_eq_true]
    refine ⟨b.order, List.mem_range.2 ?_, decide_eq_true hmem⟩
    exact Nat.lt_succ_of_le (h.order_le (Or.inl (Or.inl hb)))
  refine ⟨{ mp with avail := fun j => (mp.avail j).erase (mp.addrOf b.start) }, ?_, ?_,
    ⟨rfl, rfl, rfl, rfl⟩, fun c hc => ⟨hc.1, List.mem_of_mem_erase hc.2⟩⟩
  · rw [BuddyMempool.listDel, if_pos hany]
  · refine h.remove hb (fun j x => ?_) fun j => (h.avail_nodup j).erase _
    rw [(h.avail_nodup j).mem_erase_iff, and_comm]
    refine and_congr_right fun hx => not_congr ⟨fun heq => ⟨heq, ?_⟩, And.left⟩
    -- a block that starts at the same address is the same block
    have hfree : (⟨b.start, j⟩ : DyadicBlock) ∈ mp.free := ⟨hb.1, heq ▸ hx⟩
    exact congrArg DyadicBlock.order
      (h.partition.eq_of_start (Or.inl (Or.inl hfree)) (Or.inl (Or.inl hb)) rfl)

/-- The two blocks at hand are the halves of a block. -/
theorem merge {s : Nat} (h : PoolInv mp out {⟨s, k⟩, ⟨s + 2 ^ k, k⟩}) (ha : 2 ^ (k + 1) ∣ s) :
    PoolInv mp out {⟨s, k + 1⟩} := by
  have hlow : (⟨s, k⟩ : DyadicBlock) ∈ mp.free ∪ out ∪ {⟨s, k⟩, ⟨s + 2 ^ k, k⟩} :=
    Or.inr (Or.inl rfl)
  have hhigh : (⟨s + 2 ^ k, k⟩ : DyadicBlock) ∈ mp.free ∪ out ∪ {⟨s, k⟩, ⟨s + 2 ^ k, k⟩} :=
    Or.inr (Or.inr rfl)
  have hpart := h.partition.merge ha hlow hhigh
  have hset : (mp.free ∪ out ∪ {⟨s, k⟩, ⟨s + 2 ^ k, k⟩}) \ {⟨s, k⟩, ⟨s + 2 ^ k, k⟩} =
      mp.free ∪ out := by
    ext c
    rw [Set.mem_sdiff]
    constructor
    · rintro ⟨hc | hc, hhand⟩
      · exact hc
      · exact absurd hc hhand
    · intro hc
      refine ⟨Or.inl hc, fun hhand => ?_⟩
      exact hc.elim (h.hand_not_free c hhand) (h.hand_not_out c hhand)
  rw [hset] at hpart
  have hnot : (⟨s, k + 1⟩ : DyadicBlock) ∉ mp.free ∪ out := by
    -- a block of the higher order would cover the lower half a second time
    intro hc
    have heq := h.partition.eq_of_start (Or.inl hc) hlow rfl
    exact Nat.succ_ne_self k (congrArg DyadicBlock.order heq)
  refine h.regroup hpart ?_ ?_ ?_
  · rintro c rfl hc
    exact hnot (Or.inl hc)
  · rintro c rfl hc
    exact hnot (Or.inr hc)
  · rintro c rfl
    exact (h.order_ge _ hlow).trans (Nat.le_succ k)

/-- The order field of the block at hand may be written. -/
theorem setOrder (h : PoolInv mp out {⟨o, k⟩}) (order : Nat) :
    PoolInv (mp.setOrder (mp.addrOf o) order) out {⟨o, k⟩} := by
  have hhand : (⟨o, k⟩ : DyadicBlock) ∈ mp.free ∪ out ∪ {⟨o, k⟩} := Or.inr rfl
  refine h.congr ⟨rfl, rfl, rfl, rfl⟩ rfl (fun c _ => rfl) fun c hc => Function.update_of_ne ?_ _ _
  intro heq
  have hstart := BuddyMempool.addrOf_inj h.base_lt hc.1 (h.lt_word (h.start_lt hhand)) heq
  have hcb := h.partition.eq_of_start (Or.inl (Or.inl hc)) hhand hstart
  exact h.hand_not_free _ rfl (hcb ▸ hc)

/-- The tag bit and the order field of the buddy tell whether the buddy is free as a whole. -/
theorem buddy (h : PoolInv mp out {⟨o, k⟩}) (hk : k < mp.poolOrder) :
    o ^^^ 2 ^ k < 2 ^ mp.poolOrder ∧
    (mp.tagBits ((o ^^^ 2 ^ k) / 2 ^ mp.minOrder) = true →
      mp.blockOrder (mp.addrOf (o ^^^ 2 ^ k)) = k → ⟨o ^^^ 2 ^ k, k⟩ ∈ mp.free) := by
  have hhand : (⟨o, k⟩ : DyadicBlock) ∈ mp.free ∪ out ∪ {⟨o, k⟩} := Or.inr rfl
  obtain ⟨c, hc, hstart, -⟩ := h.partition.buddy hhand hk
  rw [← hstart]
  refine ⟨h.start_lt hc, fun htag horder => ?_⟩
  rcases hc with (hc | hc) | hc
  · have hck : c.order = k := by rw [← h.order_free c hc, horder]
    rw [← hck]
    exact hc
  · -- a block that is handed out has a clear bit
    have hclear := h.tag_out c hc
    rw [hclear] at htag
    exact absurd htag (by decide)
  · -- the buddy is not the block itself
    obtain rfl : c = ⟨o, k⟩ := hc
    have hpos := Nat.two_pow_pos k
    rcases xor_two_pow_cases (h.partition.aligned _ hhand) with ⟨-, hx⟩ | ⟨hle, -, hx⟩
    · simp only [hx] at hstart
      omega
    · simp only [hx] at hstart hle
      omega

/-- A block and its free buddy merge into the block of the next order. -/
theorem mergeBuddy (h : PoolInv mp out {⟨o, k⟩})
    (hwrap : mp.baseAddr + 2 ^ mp.poolOrder ≤ 2 ^ 64) (hfree : ⟨o ^^^ 2 ^ k, k⟩ ∈ mp.free) :
    ∃ mp' s, mp.listDel (mp.addrOf (o ^^^ 2 ^ k)) = some mp' ∧ mp.SameShape mp' ∧
      (if mp.addrOf (o ^^^ 2 ^ k) < mp.addrOf o then mp.addrOf (o ^^^ 2 ^ k) else mp.addrOf o) =
        mp.addrOf s ∧
      PoolInv mp' out {⟨s, k + 1⟩} ∧ mp'.free ⊆ mp.free := by
  have hhand : (⟨o, k⟩ : DyadicBlock) ∈ mp.free ∪ out ∪ {⟨o, k⟩} := Or.inr rfl
  have haddr : mp.addrOf o = mp.baseAddr + o := BuddyMempool.addrOf_eq hwrap (h.start_lt hhand)
  have hbaddr : mp.addrOf (o ^^^ 2 ^ k) = mp.baseAddr + (o ^^^ 2 ^ k) :=
    BuddyMempool.addrOf_eq hwrap (h.start_lt (b := ⟨o ^^^ 2 ^ k, k⟩) (Or.inl (Or.inl hfree)))
  obtain ⟨mp', hdel, h', hshape, hsub⟩ := h.listDel hfree
  have hpos := Nat.two_pow_pos k
  rw [hbaddr, haddr]
  rw [hbaddr] at hdel
  rcases xor_two_pow_cases (h.partition.aligned _ hhand) with ⟨hdvd, hx⟩ | ⟨hle, hdvd, hx⟩
  · -- the block is the lower half
    simp only at hx
    rw [hx, Set.pair_comm] at h'
    refine ⟨mp', o, hdel, hshape, ?_, h'.merge hdvd, hsub⟩
    rw [if_neg (by omega), haddr]
  · -- the buddy is the lower half
    simp only at hx hle hdvd
    have hsum : o - 2 ^ k + 2 ^ k = o := Nat.sub_add_cancel hle
    rw [hx] at h'
    nth_rewrite 2 [← hsum] at h'
    refine ⟨mp', o ^^^ 2 ^ k, hdel, hshape, ?_, ?_, hsub⟩
    · rw [if_pos (by omega), hbaddr]
    · rw [hx]
      exact h'.merge hdvd

/-- The merging loop of `buddy_free` keeps one block at hand, and ends with a block whose buddy is
not free. -/
theorem coalesce : ∀ {n : Nat} {mp : BuddyMempool} {o k : Nat}, PoolInv mp out {⟨o, k⟩} →
    (k < mp.poolOrder → mp.baseAddr + 2 ^ mp.poolOrder ≤ 2 ^ 64) → k + n = mp.poolOrder →
    ∃ mp' o' k', coalesce n mp (mp.addrOf o) k = some (mp', mp.addrOf o', k') ∧
      PoolInv mp' out {⟨o', k'⟩} ∧ mp.SameShape mp' ∧ mp'.free ⊆ mp.free ∧
      (k' < mp.poolOrder → ⟨o' ^^^ 2 ^ k', k'⟩ ∉ mp'.free) := by
  intro n
  induction n with
  | zero =>
      intro mp o k h _ hkn
      exact ⟨mp, o, k, rfl, h, .refl mp, subset_rfl, fun hlt => absurd hkn hlt.ne⟩
  | succ n ih =>
      intro mp o k h hwrap hkn
      have hk : k < mp.poolOrder := by omega
      replace hwrap := hwrap hk
      have hhand : (⟨o, k⟩ : DyadicBlock) ∈ mp.free ∪ out ∪ {⟨o, k⟩} := Or.inr rfl
      obtain ⟨hlt, hbuddy⟩ := h.buddy hk
      have hfind : findBuddy mp (mp.addrOf o) k = some (mp.addrOf (o ^^^ 2 ^ k)) := by
        have haddr : mp.addrOf o = mp.baseAddr + o :=
          BuddyMempool.addrOf_eq hwrap (h.start_lt hhand)
        rw [findBuddy, if_neg (by omega), h.sub64_addrOf (h.start_lt hhand)]
        unfold BuddyMempool.addrOf add64
        rw [Nat.add_comm]
      rw [VirtualMemory.coalesce, hfind]
      simp only [isAvailable, h.blockToId_addrOf hlt, Option.map_some, Option.bind_eq_bind,
        Option.bind_some]
      -- the buddy may be merged with only if it is free as a whole
      by_cases hstop : mp.tagBits ((o ^^^ 2 ^ k) / 2 ^ mp.minOrder) = false ∨
          mp.blockOrder (mp.addrOf (o ^^^ 2 ^ k)) ≠ k
      · rw [if_pos hstop]
        refine ⟨mp, o, k, rfl, h, .refl mp, subset_rfl, fun _ hfree => ?_⟩
        -- the bit and the field of a free buddy are right
        rcases hstop with htag | horder
        · rw [h.tag_free _ hfree] at htag
          exact absurd htag (by decide)
        · exact horder (h.order_free _ hfree)
      · rw [if_neg hstop]
        rw [not_or, Bool.not_eq_false, not_not] at hstop
        obtain ⟨mp₁, s, hdel, hshape, hblock, h₁, hsub⟩ :=
          h.mergeBuddy hwrap (hbuddy hstop.1 hstop.2)
        rw [hdel, hblock, ← hshape.addrOf]
        have hwrap₁ : mp₁.baseAddr + 2 ^ mp₁.poolOrder ≤ 2 ^ 64 := by
          rw [hshape.baseAddr, hshape.poolOrder]
          exact hwrap
        replace hwrap₁ := fun _ : k + 1 < mp₁.poolOrder => hwrap₁
        have hkn₁ : k + 1 + n = mp₁.poolOrder := by
          rw [hshape.poolOrder]
          omega
        obtain ⟨mp', o', k', hco, h', hshape', hsub', hlast⟩ :=
          ih (h₁.setOrder (k + 1)) hwrap₁ hkn₁
        refine ⟨mp', o', k', hco.trans ?_, h', ?_, hsub'.trans hsub, fun hlt => hlast ?_⟩
        · rw [← hshape.addrOf]
          rfl
        · exact hshape.trans ⟨hshape'.baseAddr, hshape'.poolOrder, hshape'.minOrder,
            hshape'.numBlocks⟩
        · exact hshape.poolOrder.symm ▸ hlt

/-- `buddy_free` takes back a block that was handed out. `find_buddy` compares addresses, so unless
the block is the whole pool, the pool must not wrap around. -/
theorem buddyFree (h : PoolInv mp out ∅) {order : Nat}
    (hwrap : fixOrder mp order < mp.poolOrder → mp.baseAddr + 2 ^ mp.poolOrder ≤ 2 ^ 64)
    (hle : order ≤ mp.poolOrder) (hb : ⟨o, fixOrder mp order⟩ ∈ out) :
    ∃ mp', buddyFree mp (mp.addrOf o) order = some mp' ∧
      PoolInv mp' (out \ {⟨o, fixOrder mp order⟩}) ∅ ∧ mp.SameShape mp' ∧
      (mp.Coalesced → mp'.Coalesced) := by
  have hmem : (⟨o, fixOrder mp order⟩ : DyadicBlock) ∈ mp.free ∪ out ∪ ∅ := Or.inl (Or.inr hb)
  have hfix : fixOrder mp order + (mp.poolOrder - fixOrder mp order) = mp.poolOrder :=
    Nat.add_sub_cancel' (h.order_le hmem)
  have hback := h.takeBack hb
  obtain ⟨mp₁, o', k', hco, h₁, hshape, hsub, hlast⟩ := hback.coalesce hwrap hfix
  rw [← insert_empty_eq (⟨o', k'⟩ : DyadicBlock)] at h₁
  obtain ⟨mp', hput, h', hshape', hfree, -⟩ := h₁.put (Set.notMem_empty _)
  refine ⟨mp', ?_, h', hshape.trans hshape', fun h₀ => ?_⟩
  on_goal 2 =>
    exact (h₀.subset hsub hshape.poolOrder).insert hfree hshape'.poolOrder
      fun hlt => hlast (hshape.poolOrder ▸ hlt)
  rw [hshape.addrOf] at hput
  rw [VirtualMemory.buddyFree, if_neg (Nat.not_lt.2 hle)]
  simp only [isAvailable, h.blockToId_addrOf (h.start_lt hmem), Option.map_some,
    Option.bind_eq_bind, Option.bind_some, h.tag_out _ hb, Bool.false_eq_true, if_false, hco]
  exact hput

end PoolInv

/-! ## Initialisation -/

/-- A pool as a single block. -/
theorem isPartition_whole (N : Nat) : IsPartition N {⟨0, N⟩} := by
  refine ⟨?_, ?_, ?_, ?_⟩
  · rintro b rfl
    exact Nat.dvd_zero _
  · rintro b rfl
    exact Nat.le_of_eq (Nat.zero_add _)
  · intro x hx
    exact ⟨_, rfl, Nat.zero_le x, by simpa using hx⟩
  · rintro b rfl c rfl _ _ _
    rfl

/-- A pool that was just initialised is not in its own free lists. -/
theorem poolInv_buddyInit {base pool min : Nat} {memory : Nat → Nat} {mp : BuddyMempool}
    (h : buddyInit base pool min memory = some mp) (hbase : base < 2 ^ 64) (hpool : pool < 64) :
    PoolInv mp ∅ {⟨0, mp.poolOrder⟩} := by
  simp only [buddyInit, Option.ite_none_left_eq_some, Option.some.injEq] at h
  obtain ⟨hle, rfl⟩ := h
  rw [Nat.not_lt] at hle
  generalize (if 2 ^ min < sizeofBlock then 5 else min) = m at hle ⊢
  have hfree : ∀ b, b ∉ BuddyMempool.free ⟨base, pool, m, 2 ^ pool / 2 ^ m, fun _ => false,
      fun _ => [], memory⟩ := by
    rintro b ⟨-, hb⟩
    exact List.not_mem_nil hb
  refine ⟨hle, hpool, hbase, Nat.pow_div hle (by decide), ?_, ?_, ?_, ?_, ?_, ?_, ?_, ?_, ?_, ?_⟩
  · intro j a ha
    exact absurd ha List.not_mem_nil
  · exact fun j => List.nodup_nil
  · rw [Set.eq_empty_of_forall_notMem hfree, Set.empty_union, Set.empty_union]
    exact isPartition_whole pool
  · exact fun b hb => absurd hb (hfree b)
  · exact fun b _ => hfree b
  · exact fun b _ => Set.notMem_empty b
  · rintro b ((hb | hb) | rfl)
    · exact absurd hb (hfree b)
    · exact absurd hb (Set.notMem_empty b)
    · exact hle
  · exact fun b hb => absurd hb (hfree b)
  · exact fun b hb => absurd hb (hfree b)
  · exact fun b hb => absurd hb (Set.notMem_empty b)

/-- The first `buddy_free` of a pool puts all of it on a free list. -/
theorem poolInv_buddyInit_buddyFree {base pool min : Nat} {memory : Nat → Nat} {mp : BuddyMempool}
    (h : buddyInit base pool min memory = some mp) (hbase : base < 2 ^ 64) (hpool : pool < 64) :
    ∃ mp', buddyFree mp base pool = some mp' ∧ PoolInv mp' ∅ ∅ ∧ mp.SameShape mp' ∧
      mp'.Coalesced := by
  have hinv := poolInv_buddyInit h hbase hpool
  obtain ⟨hb, hp, htags⟩ : mp.baseAddr = base ∧ mp.poolOrder = pool ∧ ∀ i, mp.tagBits i =
      false := by
    simp only [buddyInit, Option.ite_none_left_eq_some, Option.some.injEq] at h
    obtain ⟨-, rfl⟩ := h
    exact ⟨rfl, rfl, fun _ => rfl⟩
  -- the whole pool counts as handed out until it is freed for the first time
  have hfix : fixOrder mp pool = mp.poolOrder := by
    rw [fixOrder, ← hp]
    exact if_neg (Nat.not_lt.2 hinv.min_le)
  have haddr : mp.addrOf 0 = base := by
    rw [BuddyMempool.addrOf, hb]
    exact add64_of_lt hbase
  rw [← insert_empty_eq] at hinv
  have hout := hinv.handOut (Set.notMem_empty _) (htags _)
  have hnone : ∀ b, b ∉ mp.free := by
    simp only [buddyInit, Option.ite_none_left_eq_some, Option.some.injEq] at h
    obtain ⟨-, rfl⟩ := h
    rintro b ⟨-, hb⟩
    exact List.not_mem_nil hb
  obtain ⟨mp', hfree, h', hshape, hco⟩ := hout.buddyFree (o := 0)
    (fun hlt => absurd (hfix ▸ hlt) (Nat.lt_irrefl _)) (show pool ≤ _ from Nat.le_of_eq hp.symm)
    (by rw [hfix]; exact Set.mem_insert _ _)
  refine ⟨mp', haddr ▸ hfree, ?_, hshape, hco fun b hb => absurd hb (hnone b)⟩
  have hempty : (insert ⟨0, mp.poolOrder⟩ ∅ : Set DyadicBlock) \ {⟨0, mp.poolOrder⟩} = ∅ := by
    ext c
    simp
  rw [hfix, hempty] at h'
  exact h'

/-! ## The shape of a pool never changes -/

theorem sameShape_setTag {mp mp' : BuddyMempool} {block : Nat} {tag : Bool}
    (h : setTag mp block tag = some mp') : mp.SameShape mp' := by
  obtain ⟨blockId, -, rfl⟩ := Option.map_eq_some_iff.1 h
  exact ⟨rfl, rfl, rfl, rfl⟩

theorem sameShape_putAvailable {mp mp' : BuddyMempool} {block order : Nat}
    (h : putAvailable mp block order = some mp') : mp.SameShape mp' := by
  obtain ⟨mp₁, htag, heq⟩ := Option.bind_eq_some_iff.1 h
  obtain rfl := Option.some.inj heq
  have hshape := sameShape_setTag htag
  exact ⟨hshape.baseAddr, hshape.poolOrder, hshape.minOrder, hshape.numBlocks⟩

theorem sameShape_trim {block order : Nat} : ∀ {j : Nat} {mp mp' : BuddyMempool},
    trim block order j mp = some mp' → mp.SameShape mp' := by
  intro j
  induction j with
  | zero =>
      intro mp mp' h
      obtain rfl := Option.some.inj h
      exact .refl mp
  | succ j ih =>
      intro mp mp' h
      rw [trim] at h
      split at h
      · obtain ⟨mp₁, hput, hrest⟩ := Option.bind_eq_some_iff.1 h
        exact (sameShape_putAvailable hput).trans (ih hrest)
      · obtain rfl := Option.some.inj h
        exact .refl mp

theorem sameShape_allocFrom {mp mp' : BuddyMempool} {order : Nat} {r : Option Nat} :
    ∀ {n j : Nat}, allocFrom mp order n j = some (r, mp') → mp.SameShape mp' := by
  intro n
  induction n with
  | zero =>
      intro j h
      cases h
      exact .refl mp
  | succ n ih =>
      intro j h
      rw [allocFrom] at h
      cases hav : mp.avail j with
      | nil =>
          rw [hav] at h
          exact ih h
      | cons block rest =>
          rw [hav] at h
          obtain ⟨mp₁, htag, h⟩ := Option.bind_eq_some_iff.1 h
          obtain ⟨mp₂, htrim, h⟩ := Option.bind_eq_some_iff.1 h
          cases h
          have hshape := sameShape_setTag htag
          exact BuddyMempool.SameShape.trans
            ⟨hshape.baseAddr, hshape.poolOrder, hshape.minOrder, hshape.numBlocks⟩
            (sameShape_trim htrim)

theorem sameShape_buddyAlloc {mp mp' : BuddyMempool} {order : Nat} {r : Option Nat}
    (h : buddyAlloc mp order = some (r, mp')) : mp.SameShape mp' := by
  rw [buddyAlloc] at h
  split at h
  · cases h
  · exact sameShape_allocFrom h

theorem sameShape_coalesce : ∀ {n : Nat} {mp mp' : BuddyMempool} {block block' order order' : Nat},
    coalesce n mp block order = some (mp', block', order') → mp.SameShape mp' := by
  intro n
  induction n with
  | zero =>
      intro mp mp' block block' order order' h
      cases h
      exact .refl mp
  | succ n ih =>
      intro mp mp' block block' order order' h
      obtain ⟨buddy, -, h⟩ := Option.bind_eq_some_iff.1 h
      obtain ⟨available, -, h⟩ := Option.bind_eq_some_iff.1 h
      split at h
      · cases h
        exact .refl mp
      · obtain ⟨mp₁, hdel, h⟩ := Option.bind_eq_some_iff.1 h
        rw [BuddyMempool.listDel, Option.ite_none_right_eq_some, Option.some.injEq] at hdel
        have hshape := ih h
        obtain ⟨-, rfl⟩ := hdel
        exact ⟨hshape.baseAddr, hshape.poolOrder, hshape.minOrder, hshape.numBlocks⟩

theorem sameShape_buddyFree {mp mp' : BuddyMempool} {addr order : Nat}
    (h : buddyFree mp addr order = some mp') : mp.SameShape mp' := by
  rw [buddyFree] at h
  split at h
  · cases h
  · obtain ⟨available, -, h⟩ := Option.bind_eq_some_iff.1 h
    split at h
    · cases h
    · obtain ⟨⟨mp₁, block, order'⟩, hco, h⟩ := Option.bind_eq_some_iff.1 h
      exact (sameShape_coalesce hco).trans (sameShape_putAvailable h)

end PetKernel.VirtualMemory
