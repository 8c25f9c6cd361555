import PetKernel.Library.Machine
import PetKernel.VirtualMemory.BuddyInvariant

/-!
# Runs of a buddy pool

A pool is set up as `ADD_MEMORY` does it, by `buddy_init` and a `buddy_free` of the whole pool. Then
blocks are allocated and freed in any order, each with the order that it was allocated with, and the
users of the blocks write what they like into them. What they write may change every order field
that lies in a block handed out, so that the fields there are stale.

`buddy_pool_tiled` says that the blocks handed out and the blocks on the free lists tile the pool in
every state of such a run and that no `BUG_ON` fires. `buddy_coalesced` says that coalescing is
complete: no two buddies are free, `buddy_alloc` fails only if there is no room at all, and a pool
with nothing handed out is one block.
-/

set_option autoImplicit false

namespace PetKernel.VirtualMemory

open PetKernel.Library

/-- A pool, and the blocks handed out: the address of each and the order that was asked for. -/
structure BuddyPool where
  mp : BuddyMempool
  out : List (Nat × Nat)

/-- What happens to a pool: a call of an allocator function, or users writing into their blocks,
after which the order fields read `memory`. -/
inductive BuddyCall where
  | alloc (order : Nat)
  | free (addr order : Nat)
  | write (memory : Nat → Nat)

/-- Two blocks, given by address and order, share no byte. -/
def Apart (b c : Nat × Nat) : Prop := b.1 + 2 ^ b.2 ≤ c.1 ∨ c.1 + 2 ^ c.2 ≤ b.1

instance (b c : Nat × Nat) : Decidable (Apart b c) := inferInstanceAs (Decidable (_ ∨ _))

namespace BuddyPool

/-- The blocks handed out. An order below the minimum is raised to it. -/
def outBlocks (s : BuddyPool) : List (Nat × Nat) := s.out.map fun p => (p.1, fixOrder s.mp p.2)

/-- The blocks on the free lists. -/
def freeBlocks (s : BuddyPool) : List (Nat × Nat) :=
  (List.range (s.mp.poolOrder + 1)).flatMap fun j => (s.mp.avail j).map fun a => (a, j)

/-- All blocks of the pool. -/
def blocks (s : BuddyPool) : List (Nat × Nat) := s.outBlocks ++ s.freeBlocks

/-- What the callers may do: ask for an order of the pool, free a block that is handed out with the
order it was asked for, and write into the blocks handed out. -/
def Allows (s : BuddyPool) : BuddyCall → Prop
  | .alloc order => order ≤ s.mp.poolOrder
  | .free addr order => (addr, order) ∈ s.out
  | .write memory =>
      -- a field stays as it is if its `struct block` shares no byte with a block handed out
      ∀ a, (∀ b ∈ s.outBlocks, a + sizeofBlock ≤ b.1 ∨ b.1 + 2 ^ b.2 ≤ a) →
        memory a = s.mp.blockOrder a

/-- Somewhere in the pool there is a range of `2 ^ k` bytes, aligned to its size relative to `base`,
that shares no byte with a block handed out. -/
def HasRoom (s : BuddyPool) (base pool k : Nat) : Prop :=
  ∃ r, base ≤ r ∧ r + 2 ^ k ≤ base + 2 ^ pool ∧ 2 ^ k ∣ r - base ∧ ∀ b ∈ s.outBlocks, Apart (r, k) b

end BuddyPool

/-- One call; `none` if a `BUG_ON` fires. -/
def buddyCall (s : BuddyPool) : BuddyCall → Option BuddyPool
  | .alloc order => do
      let (block, mp) ← buddyAlloc s.mp order
      match block with
      | none => return ⟨mp, s.out⟩
      | some block => return ⟨mp, (block, order) :: s.out⟩
  | .free addr order => do
      let mp ← buddyFree s.mp addr order
      return ⟨mp, s.out.erase (addr, order)⟩
  | .write memory => some ⟨{ s.mp with blockOrder := memory }, s.out⟩

/-- The pools that begin at `base` with `2 ^ pool` bytes, from their setup on. -/
def buddyPools (base pool min : Nat) : Machine BuddyPool BuddyCall where
  init s := ∃ memory mp, buddyInit base pool min memory = some mp ∧
    buddyFree mp base pool = some s.mp ∧ s.out = []
  step s e t := s.Allows e ∧ buddyCall s e = some t

/-- The blocks, given by address and order, are aligned to their size relative to `base`, share no
byte and cover the pool. -/
structure TilesPool (base pool : Nat) (blocks : List (Nat × Nat)) : Prop where
  inside : ∀ b ∈ blocks, base ≤ b.1 ∧ b.1 + 2 ^ b.2 ≤ base + 2 ^ pool
  aligned : ∀ b ∈ blocks, 2 ^ b.2 ∣ b.1 - base
  apart : blocks.Pairwise Apart
  cover : ∀ a, base ≤ a → a < base + 2 ^ pool → ∃ b ∈ blocks, b.1 ≤ a ∧ a < b.1 + 2 ^ b.2

/-- Blocks that are not apart have an offset in common: the later of their two starts. -/
theorem exists_covers_of_not_apart {base : Nat} {c d : DyadicBlock}
    (h : ¬ Apart (base + c.start, c.order) (base + d.start, d.order)) :
    ∃ x, c.Covers x ∧ d.Covers x := by
  simp only [Apart, not_or, Nat.not_le] at h
  rcases Nat.le_total c.start d.start with hle | hle
  · exact ⟨d.start, ⟨hle, by omega⟩, d.covers_start⟩
  · exact ⟨c.start, c.covers_start, ⟨hle, by omega⟩⟩

/-! ## The invariant -/

namespace BuddyPool

/-- The blocks handed out, by their offsets. -/
def handedOut (s : BuddyPool) : Set DyadicBlock :=
  { c | (s.mp.baseAddr + c.start, c.order) ∈ s.outBlocks }

/-- The invariant of a pool with the blocks handed out. -/
structure Ok (base pool : Nat) (s : BuddyPool) : Prop where
  inv : PoolInv s.mp s.handedOut ∅
  baseAddr : s.mp.baseAddr = base
  poolOrder : s.mp.poolOrder = pool
  header_le : sizeofBlock ≤ 2 ^ s.mp.minOrder
  out_ge : ∀ p ∈ s.out, base ≤ p.1
  out_le : ∀ p ∈ s.out, p.2 ≤ pool
  out_nodup : s.outBlocks.Nodup
  coalesced : s.mp.Coalesced

variable {base pool min : Nat} {s t : BuddyPool}

namespace Ok

theorem base_lt (h : s.Ok base pool) : base < 2 ^ 64 := h.baseAddr ▸ h.inv.base_lt

/-- The address of a free block. -/
theorem addrOf_free (h : s.Ok base pool) (hwrap : base + 2 ^ pool ≤ 2 ^ 64) {c : DyadicBlock}
    (hc : c ∈ s.mp.free) : s.mp.addrOf c.start = base + c.start := by
  have hlt := h.inv.start_lt (Or.inl (Or.inl hc))
  have hbase := h.baseAddr
  have hpool := h.poolOrder
  rw [BuddyMempool.addrOf_eq (by rw [hbase, hpool]; exact hwrap) hlt, hbase]

/-- The blocks on the free lists are the free blocks of the invariant. -/
theorem mem_freeBlocks (h : s.Ok base pool) (hwrap : base + 2 ^ pool ≤ 2 ^ 64) {b : Nat × Nat} :
    b ∈ s.freeBlocks ↔ ∃ c ∈ s.mp.free, b = (base + c.start, c.order) := by
  simp only [freeBlocks, List.mem_flatMap, List.mem_range, List.mem_map]
  constructor
  · rintro ⟨j, -, a, ha, rfl⟩
    have haddr : s.mp.addrOf (sub64 a base) = a := by
      rw [BuddyMempool.addrOf, h.baseAddr]
      exact add64_sub64 h.base_lt (h.inv.avail_lt j a ha)
    have hfree : (⟨sub64 a base, j⟩ : DyadicBlock) ∈ s.mp.free :=
      ⟨Nat.mod_lt _ (Nat.two_pow_pos 64), by rw [haddr]; exact ha⟩
    refine ⟨_, hfree, ?_⟩
    rw [← h.addrOf_free hwrap hfree, haddr]
  · rintro ⟨c, hc, rfl⟩
    have hle := h.inv.order_le (Or.inl (Or.inl hc))
    refine ⟨c.order, Nat.lt_succ_of_le hle, base + c.start, ?_, rfl⟩
    rw [← h.addrOf_free hwrap hc]
    exact hc.2

theorem mem_handedOut (h : s.Ok base pool) {c : DyadicBlock} :
    c ∈ s.handedOut ↔ (base + c.start, c.order) ∈ s.outBlocks := by
  rw [handedOut, Set.mem_ofPred_eq, h.baseAddr]

/-- The blocks handed out are those of the invariant. -/
theorem mem_outBlocks (h : s.Ok base pool) {b : Nat × Nat} :
    b ∈ s.outBlocks ↔ ∃ c ∈ s.handedOut, b = (base + c.start, c.order) := by
  constructor
  · intro hb
    obtain ⟨p, hp, rfl⟩ := List.mem_map.1 hb
    have haddr : base + (p.1 - base) = p.1 := Nat.add_sub_cancel' (h.out_ge p hp)
    refine ⟨⟨p.1 - base, fixOrder s.mp p.2⟩, ?_, by rw [haddr]⟩
    rw [h.mem_handedOut, haddr]
    exact hb
  · rintro ⟨c, hc, rfl⟩
    exact h.mem_handedOut.1 hc

theorem mem_blocks (h : s.Ok base pool) (hwrap : base + 2 ^ pool ≤ 2 ^ 64) {b : Nat × Nat} :
    b ∈ s.blocks ↔ ∃ c ∈ s.mp.free ∪ s.handedOut ∪ ∅, b = (base + c.start, c.order) := by
  rw [blocks, List.mem_append, h.mem_outBlocks, h.mem_freeBlocks hwrap]
  constructor
  · rintro (⟨c, hc, hb⟩ | ⟨c, hc, hb⟩)
    · exact ⟨c, Or.inl (Or.inr hc), hb⟩
    · exact ⟨c, Or.inl (Or.inl hc), hb⟩
  · rintro ⟨c, (hc | hc) | hc, hb⟩
    · exact Or.inr ⟨c, hc, hb⟩
    · exact Or.inl ⟨c, hc, hb⟩
    · exact absurd hc (Set.notMem_empty c)

/-- No block is listed twice. -/
theorem blocks_nodup (h : s.Ok base pool) (hwrap : base + 2 ^ pool ≤ 2 ^ 64) : s.blocks.Nodup := by
  have hfree : s.freeBlocks.Nodup := by
    refine List.nodup_flatMap.2 ⟨fun j _ => ?_, ?_⟩
    · exact (h.inv.avail_nodup j).map fun a a' heq => congrArg Prod.fst heq
    · refine List.nodup_range.imp fun {i j} hij b hbi hbj => hij ?_
      obtain ⟨a, -, rfl⟩ := List.mem_map.1 hbi
      obtain ⟨a', -, heq⟩ := List.mem_map.1 hbj
      exact (congrArg Prod.snd heq).symm
  refine List.nodup_append'.2 ⟨h.out_nodup, hfree, fun b hout hb => ?_⟩
  obtain ⟨c, hc, rfl⟩ := (h.mem_freeBlocks hwrap).1 hb
  exact h.inv.free_not_out c hc (h.mem_handedOut.2 hout)

/-- The blocks of a pool tile it. -/
theorem tilesPool (h : s.Ok base pool) (hwrap : base + 2 ^ pool ≤ 2 ^ 64) :
    TilesPool base pool s.blocks := by
  have hpool := h.poolOrder
  refine ⟨fun b hb => ?_, fun b hb => ?_, ?_, fun a hle hlt => ?_⟩
  · obtain ⟨c, hc, rfl⟩ := (h.mem_blocks hwrap).1 hb
    have hbound := h.inv.partition.bound c hc
    rw [hpool] at hbound
    exact ⟨Nat.le_add_right _ _, by show base + c.start + 2 ^ c.order ≤ _; omega⟩
  · obtain ⟨c, hc, rfl⟩ := (h.mem_blocks hwrap).1 hb
    show 2 ^ c.order ∣ base + c.start - base
    rw [Nat.add_sub_cancel_left]
    exact h.inv.partition.aligned c hc
  · refine (h.blocks_nodup hwrap).pairwise_of_forall_ne fun b hb b' hb' hne => ?_
    obtain ⟨c, hc, rfl⟩ := (h.mem_blocks hwrap).1 hb
    obtain ⟨c', hc', rfl⟩ := (h.mem_blocks hwrap).1 hb'
    by_contra hnot
    obtain ⟨x, hx, hx'⟩ := exists_covers_of_not_apart hnot
    exact hne (by rw [h.inv.partition.unique c hc c' hc' x hx hx'])
  · obtain ⟨c, hc, hcov⟩ := h.inv.partition.cover (a - base) (by rw [hpool]; omega)
    refine ⟨_, (h.mem_blocks hwrap).2 ⟨c, hc, rfl⟩, ?_, ?_⟩
    · have hge := hcov.1
      show base + c.start ≤ a
      omega
    · have hle := hcov.2
      show a < base + c.start + 2 ^ c.order
      omega

/-! ## One call -/

/-- The pool and the blocks handed out after a call that keeps the shape of the pool. -/
theorem of_sameShape (h : s.Ok base pool) (hshape : s.mp.SameShape t.mp)
    (hinv : PoolInv t.mp t.handedOut ∅) (hge : ∀ p ∈ t.out, base ≤ p.1)
    (hle : ∀ p ∈ t.out, p.2 ≤ pool) (hnodup : t.outBlocks.Nodup) (hco : t.mp.Coalesced) :
    t.Ok base pool where
  inv := hinv
  baseAddr := hshape.baseAddr.trans h.baseAddr
  poolOrder := hshape.poolOrder.trans h.poolOrder
  header_le := hshape.minOrder ▸ h.header_le
  out_ge := hge
  out_le := hle
  out_nodup := hnodup
  coalesced := hco

/-- One of several elements with different images is erased. -/
theorem mem_map_erase {α β : Type} [BEq α] [LawfulBEq α] {f : α → β} {l : List α}
    (h : (l.map f).Nodup)
    {p : α} (hp : p ∈ l) {b : β} : b ∈ (l.erase p).map f ↔ b ∈ l.map f ∧ b ≠ f p := by
  have hperm := (List.perm_cons_erase hp).map f
  have hnot := (List.nodup_cons.1 (hperm.nodup_iff.1 h)).1
  rw [hperm.mem_iff, List.map_cons, List.mem_cons]
  constructor
  · intro hb
    exact ⟨Or.inr hb, fun heq => hnot (heq ▸ hb)⟩
  · rintro ⟨hb, hne⟩
    exact hb.resolve_left hne

theorem outBlocks_of_sameShape {mp : BuddyMempool} (hshape : s.mp.SameShape mp)
    (out : List (Nat × Nat)) :
    (⟨mp, out⟩ : BuddyPool).outBlocks = out.map fun p => (p.1, fixOrder s.mp p.2) := by
  have hfix : fixOrder mp = fixOrder s.mp := funext hshape.fixOrder
  simp only [outBlocks, hfix]

theorem alloc (h : s.Ok base pool) (hwrap : base + 2 ^ pool ≤ 2 ^ 64) {order : Nat}
    (hle : order ≤ pool) : ∃ t, buddyCall s (.alloc order) = some t ∧ t.Ok base pool := by
  have hle' : order ≤ s.mp.poolOrder := h.poolOrder.symm ▸ hle
  rcases h.inv.buddyAlloc hle' with ⟨-, hnone⟩ |
    ⟨o, k, mp', -, hfree, -, hsome, hinv, hshape, hnew, hco⟩
  · refine ⟨s, ?_, h⟩
    simp only [buddyCall, hnone, Option.bind_eq_bind, Option.bind_some]
    rfl
  · have haddr : s.mp.addrOf o = base + o := h.addrOf_free hwrap hfree
    have hbase : mp'.baseAddr = base := hshape.baseAddr.trans h.baseAddr
    have hblocks : (⟨mp', (base + o, order) :: s.out⟩ : BuddyPool).outBlocks =
        (base + o, fixOrder s.mp order) :: s.outBlocks := outBlocks_of_sameShape hshape _
    refine ⟨⟨mp', (base + o, order) :: s.out⟩, ?_,
      h.of_sameShape hshape ?_ ?_ ?_ ?_ (hco h.coalesced)⟩
    · simp only [buddyCall, hsome, haddr, Option.bind_eq_bind, Option.bind_some]
      rfl
    · have hout : (⟨mp', (base + o, order) :: s.out⟩ : BuddyPool).handedOut =
          insert ⟨o, fixOrder s.mp order⟩ s.handedOut := by
        ext c
        simp only [handedOut, Set.mem_ofPred_eq, hblocks, List.mem_cons, Set.mem_insert_iff,
          Prod.mk.injEq, DyadicBlock.ext_iff, hbase, h.baseAddr, Nat.add_left_cancel_iff]
      rw [hout]
      exact hinv
    · exact List.forall_mem_cons.2 ⟨Nat.le_add_right base o, h.out_ge⟩
    · exact List.forall_mem_cons.2 ⟨hle, h.out_le⟩
    · rw [hblocks, List.nodup_cons]
      exact ⟨fun hmem => hnew (h.mem_handedOut.2 hmem), h.out_nodup⟩

theorem free (h : s.Ok base pool) (hwrap : base + 2 ^ pool ≤ 2 ^ 64) {addr order : Nat}
    (hmem : (addr, order) ∈ s.out) :
    ∃ t, buddyCall s (.free addr order) = some t ∧ t.Ok base pool := by
  have hge : base ≤ addr := h.out_ge _ hmem
  have hle : order ≤ s.mp.poolOrder := h.poolOrder.symm ▸ h.out_le _ hmem
  have hsum : base + (addr - base) = addr := Nat.add_sub_cancel' hge
  have hout : (⟨addr - base, fixOrder s.mp order⟩ : DyadicBlock) ∈ s.handedOut := by
    rw [h.mem_handedOut, hsum]
    exact List.mem_map.2 ⟨_, hmem, rfl⟩
  have hwrap' : s.mp.baseAddr + 2 ^ s.mp.poolOrder ≤ 2 ^ 64 := by
    rw [h.baseAddr, h.poolOrder]
    exact hwrap
  have haddr : s.mp.addrOf (addr - base) = addr := by
    rw [BuddyMempool.addrOf_eq hwrap' (h.inv.start_lt (Or.inl (Or.inr hout))), h.baseAddr, hsum]
  obtain ⟨mp', hfree, hinv, hshape, hco⟩ := h.inv.buddyFree (fun _ => hwrap') hle hout
  rw [haddr] at hfree
  have hblocks := outBlocks_of_sameShape hshape (s.out.erase (addr, order))
  have hbase : mp'.baseAddr = base := hshape.baseAddr.trans h.baseAddr
  refine ⟨⟨mp', s.out.erase (addr, order)⟩, ?_, h.of_sameShape hshape ?_
    (fun p hp => h.out_ge p (List.mem_of_mem_erase hp))
    (fun p hp => h.out_le p (List.mem_of_mem_erase hp)) ?_ (hco h.coalesced)⟩
  · simp only [buddyCall, hfree, Option.bind_eq_bind, Option.bind_some]
    rfl
  · have heq : (⟨mp', s.out.erase (addr, order)⟩ : BuddyPool).handedOut =
        s.handedOut \ {⟨addr - base, fixOrder s.mp order⟩} := by
      ext c
      rw [handedOut, Set.mem_ofPred_eq, Set.mem_sdiff, handedOut, Set.mem_ofPred_eq, hblocks, hbase,
        h.baseAddr, mem_map_erase h.out_nodup hmem]
      refine and_congr_right fun _ => not_congr ?_
      simp only [Prod.mk.injEq, Set.mem_singleton_iff, DyadicBlock.ext_iff]
      omega
    rw [heq]
    exact hinv
  · rw [hblocks]
    exact h.out_nodup.sublist (List.erase_sublist.map _)

/-- What users write into their blocks does not reach the fields of free blocks. -/
theorem write (h : s.Ok base pool) (hwrap : base + 2 ^ pool ≤ 2 ^ 64) {memory : Nat → Nat}
    (hmem : s.Allows (.write memory)) :
    ∃ t, buddyCall s (.write memory) = some t ∧ t.Ok base pool := by
  refine ⟨_, rfl, h.of_sameShape ⟨rfl, rfl, rfl, rfl⟩ ?_ h.out_ge h.out_le h.out_nodup h.coalesced⟩
  refine h.inv.congr ⟨rfl, rfl, rfl, rfl⟩ rfl (fun _ _ => rfl) fun c hc => hmem _ fun b hb => ?_
  rw [h.addrOf_free hwrap hc]
  -- the header of a free block lies within the block
  have hheader : sizeofBlock ≤ 2 ^ c.order :=
    h.header_le.trans (Nat.pow_le_pow_right (by decide) (h.inv.order_ge c (Or.inl (Or.inl hc))))
  have hfree : (base + c.start, c.order) ∈ s.freeBlocks := (h.mem_freeBlocks hwrap).2 ⟨c, hc, rfl⟩
  have hapart : Apart b (base + c.start, c.order) :=
    (List.pairwise_append.1 (h.tilesPool hwrap).apart).2.2 b hb _ hfree
  rcases hapart with hle | hle
  · exact Or.inr hle
  · refine Or.inl ?_
    simp only at hle
    omega

/-- A call that is allowed does not fire a `BUG_ON` and keeps the invariant. -/
theorem call (h : s.Ok base pool) (hwrap : base + 2 ^ pool ≤ 2 ^ 64) {e : BuddyCall}
    (he : s.Allows e) : ∃ t, buddyCall s e = some t ∧ t.Ok base pool := by
  cases e with
  | alloc order => exact h.alloc hwrap (h.poolOrder ▸ he)
  | free addr order => exact h.free hwrap he
  | write memory => exact h.write hwrap he

end Ok

/-! ## Runs -/

theorem ok_of_init (hpool : pool < 64) (hwrap : base + 2 ^ pool ≤ 2 ^ 64)
    (h : (buddyPools base pool min).init s) : s.Ok base pool := by
  obtain ⟨memory, mp, hinit, hfree, hout⟩ := h
  have hbase : base < 2 ^ 64 := by
    have hpos := Nat.two_pow_pos pool
    omega
  obtain ⟨mp', hfree', hinv, hshape, hco⟩ := poolInv_buddyInit_buddyFree hinit hbase hpool
  obtain rfl := Option.some.inj (hfree'.symm.trans hfree)
  obtain ⟨hb, hp, hm⟩ : mp.baseAddr = base ∧ mp.poolOrder = pool ∧
      sizeofBlock ≤ 2 ^ mp.minOrder := by
    simp only [buddyInit, Option.ite_none_left_eq_some, Option.some.injEq] at hinit
    obtain ⟨-, rfl⟩ := hinit
    refine ⟨rfl, rfl, ?_⟩
    show sizeofBlock ≤ 2 ^ (if 2 ^ min < sizeofBlock then 5 else min)
    split
    · decide
    · omega
  have hblocks : s.outBlocks = [] := by rw [outBlocks, hout, List.map_nil]
  have hempty : s.handedOut = ∅ := by
    ext c
    simp [handedOut, hblocks]
  exact {
    inv := by rw [hempty]; exact hinv
    baseAddr := hshape.baseAddr.trans hb
    poolOrder := hshape.poolOrder.trans hp
    header_le := by rw [hshape.minOrder]; exact hm
    out_ge := by simp [hout]
    out_le := by simp [hout]
    out_nodup := by simp [hblocks]
    coalesced := hco }

theorem ok_of_reach (hpool : pool < 64) (hwrap : base + 2 ^ pool ≤ 2 ^ 64) {es : List BuddyCall}
    (h : (buddyPools base pool min).Reach es s) : s.Ok base pool := by
  refine h.invariant (fun s hs => ok_of_init hpool hwrap hs) fun s e t hs hst => ?_
  obtain ⟨t', ht', hok⟩ := hs.call hwrap hst.1
  obtain rfl := Option.some.inj (ht'.symm.trans hst.2)
  exact hok

end BuddyPool

/-- In every state of a run the blocks tile the pool, and no `BUG_ON` fires: neither when the pool
is set up, nor in a call that the callers may make. -/
theorem buddy_pool_tiled {base pool min : Nat} (hpool : pool < 64)
    (hwrap : base + 2 ^ pool ≤ 2 ^ 64) : (∀ memory mp, buddyInit base pool min memory = some mp →
      ∃ mp', buddyFree mp base pool = some mp') ∧
    ∀ es s, (buddyPools base pool min).Reach es s →
      TilesPool base pool s.blocks ∧ ∀ e, s.Allows e → ∃ t, buddyCall s e = some t := by
  refine ⟨fun memory mp hinit => ?_, fun es s h => ?_⟩
  · have hbase : base < 2 ^ 64 := by
      have hpos := Nat.two_pow_pos pool
      omega
    obtain ⟨mp', hfree, -⟩ := poolInv_buddyInit_buddyFree hinit hbase hpool
    exact ⟨mp', hfree⟩
  · have hok := BuddyPool.ok_of_reach hpool hwrap h
    refine ⟨hok.tilesPool hwrap, fun e he => ?_⟩
    obtain ⟨t, ht, -⟩ := hok.call hwrap he
    exact ⟨t, ht⟩

/-- The pool of two pages at 4096, after one page was handed out and its user has written into
it. -/
theorem buddy_pool_tiled_two_pages :
    ∃ es s, (buddyPools 4096 13 12).Reach es s ∧ s.mp.blockOrder 4096 = 7 ∧
      s.blocks = [(4096, 12), (8192, 12)] ∧ TilesPool 4096 13 s.blocks := by
  have hinit : ∃ s, (buddyPools 4096 13 12).init s ∧
      ∃ t, buddyCall s (.alloc 12) = some t ∧ s.mp.poolOrder = 13 ∧ t.outBlocks = [(4096, 12)] ∧
        t.freeBlocks = [(8192, 12)] := by
    refine ⟨⟨_, []⟩, ⟨fun _ => 0, _, rfl, rfl, rfl⟩, _, rfl, rfl, ?_, ?_⟩ <;> decide
  obtain ⟨s, hs, t, halloc, hpool, hout, hfree⟩ := hinit
  have hle : s.Allows (.alloc 12) := by
    show 12 ≤ s.mp.poolOrder
    omega
  have hwrite : t.Allows (.write fun a => if 4096 ≤ a ∧ a < 8192 then 7
      else t.mp.blockOrder a) := by
    intro a ha
    have hapart := ha (4096, 12) (by rw [hout]; exact List.mem_singleton_self _)
    refine if_neg ?_
    simp only [sizeofBlock] at hapart
    omega
  have hreach := ((Machine.Reach.init hs).step ⟨hle, halloc⟩).step ⟨hwrite, rfl⟩
  refine ⟨_, _, hreach, rfl, ?_, ((buddy_pool_tiled (by decide) (by decide)).2 _ _ hreach).1⟩
  exact congrArg₂ List.append hout hfree

/-! ## Complete coalescing -/

theorem fixOrder_eq_max (mp : BuddyMempool) (order : Nat) :
    fixOrder mp order = max order mp.minOrder := by
  unfold fixOrder
  split <;> omega

namespace BuddyPool.Ok

variable {base pool : Nat} {s : BuddyPool}

/-- The buddy of a free block is not free. -/
theorem findBuddy_not_avail (h : s.Ok base pool) (hwrap : base + 2 ^ pool ≤ 2 ^ 64) {j a : Nat}
    (hj : j < pool) (ha : a ∈ s.mp.avail j) :
    ∃ b, findBuddy s.mp a j = some b ∧ b ∉ s.mp.avail j := by
  have hmem : (a, j) ∈ s.freeBlocks := by
    refine List.mem_flatMap.2 ⟨j, List.mem_range.2 ?_, List.mem_map.2 ⟨a, ha, rfl⟩⟩
    rw [h.poolOrder]
    omega
  obtain ⟨⟨o, k⟩, hc, heq⟩ := (h.mem_freeBlocks hwrap).1 hmem
  obtain ⟨rfl, rfl⟩ := Prod.mk.inj heq
  have ho := h.inv.start_lt (Or.inl (Or.inl hc))
  have haddr := h.addrOf_free hwrap hc
  have hsub := h.inv.sub64_addrOf ho
  rw [haddr] at hsub
  have hx : o ^^^ 2 ^ j < 2 ^ s.mp.poolOrder :=
    Nat.xor_lt_two_pow ho (Nat.pow_lt_pow_right (by decide) (h.poolOrder.symm ▸ hj))
  refine ⟨s.mp.addrOf (o ^^^ 2 ^ j), ?_, fun hav => ?_⟩
  · rw [findBuddy, if_neg (by rw [h.baseAddr]; omega), hsub, BuddyMempool.addrOf, add64, add64,
      Nat.add_comm]
  · exact h.coalesced _ hc (h.poolOrder.symm ▸ hj) ⟨h.inv.lt_word hx, hav⟩

/-- An aligned range of the pool, given by its offset, is apart from the blocks handed out if it
shares no byte with them. -/
theorem apart_outBlocks_iff (h : s.Ok base pool) {r : DyadicBlock} :
    (∀ b ∈ s.outBlocks, Apart (base + r.start, r.order) b) ↔
      ∀ c ∈ s.handedOut, ∀ x, r.Covers x → ¬ c.Covers x := by
  constructor
  · intro hr c hc x hrx hcx
    have hapart := hr _ (h.mem_outBlocks.2 ⟨c, hc, rfl⟩)
    simp only [Apart, DyadicBlock.Covers] at hapart hrx hcx
    omega
  · intro hr b hb
    obtain ⟨c, hc, rfl⟩ := h.mem_outBlocks.1 hb
    by_contra hnot
    obtain ⟨x, hrx, hcx⟩ := exists_covers_of_not_apart hnot
    exact hr c hc x hrx hcx

/-- A free block of the order `k` or a larger one is there if and only if there is room for it. -/
theorem exists_free_iff (h : s.Ok base pool) {k : Nat} :
    (∃ c ∈ s.mp.free, k ≤ c.order) ↔ s.HasRoom base pool k := by
  have hpart := h.inv.partition
  rw [Set.union_empty, h.poolOrder] at hpart
  constructor
  · rintro ⟨c, hc, hle⟩
    have hpow : 2 ^ k ≤ 2 ^ c.order := Nat.pow_le_pow_right (by decide) hle
    have hbound := hpart.bound c (Or.inl hc)
    refine ⟨base + c.start, Nat.le_add_right _ _, by omega, ?_, ?_⟩
    · rw [Nat.add_sub_cancel_left]
      exact (Nat.pow_dvd_pow 2 hle).trans (hpart.aligned c (Or.inl hc))
    · refine (h.apart_outBlocks_iff (r := ⟨c.start, k⟩)).2 fun d hd x hcx hdx => ?_
      have hcov : c.Covers x := ⟨hcx.1, Nat.lt_of_lt_of_le hcx.2 (Nat.add_le_add_left hpow _)⟩
      have heq := hpart.unique c (Or.inl hc) d (Or.inr hd) x hcov hdx
      exact h.inv.free_not_out c hc (heq ▸ hd)
  · rintro ⟨r, hge, hbound, hdvd, hapart⟩
    have hsum : base + (r - base) = r := Nat.add_sub_cancel' hge
    rw [← hsum] at hapart
    have hno := h.coalesced
    rw [BuddyMempool.Coalesced, h.poolOrder] at hno
    obtain ⟨c, hc, hle, -⟩ := hpart.exists_of_no_buddies hno (r := ⟨r - base, k⟩) hdvd
      (by show r - base + 2 ^ k ≤ 2 ^ pool; omega) (h.apart_outBlocks_iff.1 hapart)
    exact ⟨c, hc, hle⟩

/-- `buddy_alloc` returns `NULL` if and only if there is no room. -/
theorem buddyAlloc_null_iff (h : s.Ok base pool) {order : Nat} (hle : order ≤ pool) :
    (∃ mp, buddyAlloc s.mp order = some (none, mp)) ↔
      ¬ s.HasRoom base pool (max order s.mp.minOrder) := by
  rw [← h.exists_free_iff, ← fixOrder_eq_max]
  have hle' : order ≤ s.mp.poolOrder := h.poolOrder.symm ▸ hle
  rcases h.inv.buddyAlloc hle' with ⟨hfirst, hnone⟩ | ⟨o, k, mp', -, hfree, hk, hsome, -⟩
  · refine iff_of_true ⟨_, hnone⟩ ?_
    rintro ⟨c, hc, hfix⟩
    have hcle := h.inv.order_le (Or.inl (Or.inl hc))
    have hnil := firstAvail_eq_none_iff.1 hfirst c.order hfix (by omega)
    have hav := hc.2
    rw [hnil] at hav
    exact absurd hav List.not_mem_nil
  · refine iff_of_false ?_ (not_not_intro ⟨⟨o, k⟩, hfree, hk⟩)
    rintro ⟨mp, hnone⟩
    rw [hsome] at hnone
    cases hnone

/-- With nothing handed out, the pool is one free block. -/
theorem freeBlocks_eq (h : s.Ok base pool) (hwrap : base + 2 ^ pool ≤ 2 ^ 64) (hout : s.out = []) :
    s.freeBlocks = [(base, pool)] := by
  have hblocks : s.outBlocks = [] := by rw [outBlocks, hout, List.map_nil]
  have hroom : s.HasRoom base pool pool :=
    ⟨base, Nat.le_refl _, Nat.le_refl _, by simp, by simp [hblocks]⟩
  obtain ⟨c, hc, hle⟩ := h.exists_free_iff.2 hroom
  -- the block of the highest order is all of the pool
  have hbound := h.inv.partition.bound c (Or.inl (Or.inl hc))
  have hcle := h.inv.order_le (Or.inl (Or.inl hc))
  rw [h.poolOrder] at hbound hcle
  have horder : c.order = pool := Nat.le_antisymm hcle hle
  have hstart : c.start = 0 := by
    rw [horder] at hbound
    omega
  have hmem : ∀ b, b ∈ s.freeBlocks ↔ b = (base, pool) := by
    intro b
    rw [h.mem_freeBlocks hwrap]
    constructor
    · rintro ⟨d, hd, rfl⟩
      have hdlt := h.inv.start_lt (Or.inl (Or.inl hd))
      rw [h.poolOrder] at hdlt
      have heq := h.inv.partition.unique c (Or.inl (Or.inl hc)) d (Or.inl (Or.inl hd)) d.start
        ⟨by omega, by rw [hstart, horder]; omega⟩ d.covers_start
      rw [← heq, hstart, horder, Nat.add_zero]
    · rintro rfl
      exact ⟨c, hc, by rw [hstart, horder, Nat.add_zero]⟩
  have hnodup := (List.nodup_append.1 (h.blocks_nodup hwrap)).2.1
  refine List.perm_singleton.1 ((List.perm_ext_iff_of_nodup hnodup (List.nodup_singleton _)).2 ?_)
  intro b
  rw [hmem, List.mem_singleton]

end BuddyPool.Ok

/-- Coalescing is complete: no two buddies of the same order are free, `buddy_alloc` returns `NULL`
exactly if there is no room for the block among those handed out, and a pool with nothing handed out
is one free block. -/
theorem buddy_coalesced {base pool min : Nat} (hpool : pool < 64) (hwrap : base + 2 ^ pool ≤ 2 ^ 64)
    {es : List BuddyCall} {s : BuddyPool} (h : (buddyPools base pool min).Reach es s) :
    (∀ j < pool, ∀ a ∈ s.mp.avail j, ∃ b, findBuddy s.mp a j = some b ∧ b ∉ s.mp.avail j) ∧
    (∀ order ≤ pool, (∃ mp, buddyAlloc s.mp order = some (none, mp)) ↔
      ¬ s.HasRoom base pool (max order s.mp.minOrder)) ∧
    (s.out = [] → s.freeBlocks = [(base, pool)]) := by
  have hok := BuddyPool.ok_of_reach hpool hwrap h
  refine ⟨?_, ?_, ?_⟩
  · intro j hj a ha
    exact hok.findBuddy_not_avail hwrap hj ha
  · intro order hle
    exact hok.buddyAlloc_null_iff hle
  · exact hok.freeBlocks_eq hwrap

/-- A pool of two pages with both handed out has no room for a third. -/
theorem buddy_coalesced_full_pool :
    ∃ es s, (buddyPools 4096 13 12).Reach es s ∧ s.out = [(8192, 12), (4096, 12)] ∧
      ¬ s.HasRoom 4096 13 (max 12 s.mp.minOrder) := by
  have hinit : ∃ s, (buddyPools 4096 13 12).init s ∧ s.Allows (.alloc 12) ∧
      ∃ t, buddyCall s (.alloc 12) = some t ∧ t.Allows (.alloc 12) ∧
      ∃ u, buddyCall t (.alloc 12) = some u ∧ u.out = [(8192, 12), (4096, 12)] ∧
        ∃ mp, buddyAlloc u.mp 12 = some (none, mp) :=
    ⟨⟨_, []⟩, ⟨fun _ => 0, _, rfl, rfl, rfl⟩, Nat.le_succ 12, _, rfl, Nat.le_succ 12, _, rfl,
      rfl, _, rfl⟩
  obtain ⟨s, hs, hle, t, ht, hle', u, hu, hout, hnull⟩ := hinit
  have hreach := ((Machine.Reach.init hs).step ⟨hle, ht⟩).step ⟨hle', hu⟩
  refine ⟨_, u, hreach, hout, ?_⟩
  exact ((buddy_coalesced (by decide) (by decide) hreach).2.1 12 (by decide)).1 hnull

end PetKernel.VirtualMemory
