import PetKernel.VirtualMemory.PoolFrames

/-!
# How `ADD_MEMORY` splits a range into pools

`ADD_MEMORY` makes one pool for every bit that is set in the number of pages, from the highest bit
down. `fullPool` is the pool that one turn of its loop adds, and `Splits` lists the pools of all
turns in the order in which they are made; the list of pools has them the other way round.
`Splits.addPools` says that the loop ends with these pools when it may take as many turns as there
are bits.

`Splits.tiles` lays the pools side by side. The same split may be seen from physical address 0 or
from the start of the range (`Splits.rebase`), where it never wraps around.
`addMemory_splits_exactly` is the result for `ADD_MEMORY`.
-/

set_option autoImplicit false

namespace PetKernel.VirtualMemory

open PetKernel.Library

/-! ## One turn of the loop -/

/-- A pool of pages that is one free block. -/
def fullPool (memory : Nat → Nat) (base order : Nat) : BuddyMempool where
  baseAddr := base
  poolOrder := order
  minOrder := pageShift
  numBlocks := 2 ^ order / 2 ^ pageShift
  tagBits := Function.update (fun _ => false) 0 true
  avail := Function.update (fun _ => []) order [base]
  blockOrder := Function.update memory base order

/-- `buddy_init`, and then `buddy_free` of all that the pool manages. -/
theorem buddyInit_bind_buddyFree (memory : Nat → Nat) {base order : Nat} (hbase : base < 2 ^ 64)
    (horder : pageShift ≤ order) :
    ((buddyInit base order pageShift memory).bind fun mp => buddyFree mp base order) =
      some (fullPool memory base order) := by
  have hsize : ¬ 2 ^ pageShift < sizeofBlock := by decide
  -- the tag bit of the whole pool is the first one
  have hid : ∀ tagBits avail blockOrder, blockToId ⟨base, order, pageShift,
      2 ^ order / 2 ^ pageShift, tagBits, avail, blockOrder⟩ base = some 0 := by
    intro tagBits avail blockOrder
    have hzero : sub64 base base = 0 := by
      unfold sub64
      omega
    have hpos : 0 < 2 ^ order / 2 ^ pageShift :=
      Nat.div_pos (Nat.pow_le_pow_right (by decide) horder) (Nat.two_pow_pos _)
    simp only [blockToId, hzero, Nat.zero_shiftRight, if_neg (Nat.not_le.2 hpos)]
  simp only [buddyInit, if_neg hsize, if_neg (Nat.not_lt.2 horder), Option.bind_some, buddyFree,
    Nat.lt_irrefl, if_false, isAvailable, hid, Option.map_some, fixOrder, Nat.sub_self,
    coalesce, putAvailable, markAvailable, setTag, BuddyMempool.setOrder, BuddyMempool.listAdd,
    Option.bind_eq_bind, Bool.false_eq_true]
  rfl

/-- One turn of the loop, as long as the shift of the `int` does not overflow. -/
theorem addPools_turn (memory : Nat → Nat) (n : Nat) {off o x : Nat} (pools : List BuddyMempool)
    (hx : x ≠ 0) (hlt : x < 2 ^ 31) :
    addPools memory (n + 1) (va off o) x pools =
      addPools memory n (va off (o + 2 ^ (fls x - 1) * pageSize)) (x - 2 ^ (fls x - 1))
        (fullPool memory (va off o) (fls x - 1 + pageShift) :: pools) := by
  have hpos := fls_pos hx
  have hfls := fls_le hlt
  have horder : fls x + pageShift - 1 = fls x - 1 + pageShift := by omega
  have hturn := buddyInit_bind_buddyFree memory (va_lt off o)
    (Nat.le_add_left pageShift (fls x - 1))
  obtain ⟨mp, hinit, hfree⟩ := Option.bind_eq_some_iff.1 hturn
  rw [addPools]
  simp only [if_neg (Nat.pos_iff_ne_zero.1 hpos), horder, hinit, hfree,
    numPages_step hx (show x < 2 ^ 32 by omega), add64_intShl (show fls x - 1 < 31 by omega),
    Option.bind_eq_bind, Option.bind_some]

/-! ## All turns -/

/-- The pools that are made for the `x` pages from `o` on, in the order in which they are made. -/
inductive Splits (memory : Nat → Nat) (off : Nat) : Nat → Nat → List BuddyMempool → Prop where
  | done {o : Nat} : Splits memory off o 0 []
  | turn {o x : Nat} {ps : List BuddyMempool} : x ≠ 0 →
      Splits memory off (o + 2 ^ (fls x - 1) * pageSize) (x - 2 ^ (fls x - 1)) ps →
      Splits memory off o x (fullPool memory (va off o) (fls x - 1 + pageShift) :: ps)

namespace Splits

variable {memory : Nat → Nat} {off o x : Nat} {ps : List BuddyMempool}

/-- Every number of pages is split. -/
theorem exists_splits (memory : Nat → Nat) (off : Nat) : ∀ x o, ∃ ps, Splits memory off o x ps := by
  intro x
  induction x using Nat.strong_induction_on with
  | _ x ih =>
      intro o
      by_cases hx : x = 0
      · subst hx
        exact ⟨[], .done⟩
      · have hpos := Nat.two_pow_pos (fls x - 1)
        obtain ⟨ps, hps⟩ := ih (x - 2 ^ (fls x - 1)) (by omega) (o + 2 ^ (fls x - 1) * pageSize)
        exact ⟨_, .turn hx hps⟩

/-- The loop ends with these pools, the last one in front. -/
theorem addPools (h : Splits memory off o x ps) (hlt : x < 2 ^ 31) :
    ∀ {n : Nat} (pools : List BuddyMempool), x < 2 ^ n →
      VirtualMemory.addPools memory n (va off o) x pools = some (ps.reverse ++ pools) := by
  induction h with
  | done =>
      intro n pools _
      exact addPools_zero memory n _ pools
  | @turn o x ps hx hps ih =>
      intro n pools hn
      cases n with
      | zero => omega
      | succ n =>
          have hfls := fls_le hn
          have hrest := numPages_step_lt hx
          have hpow : 2 ^ (fls x - 1) ≤ 2 ^ n := Nat.pow_le_pow_right (by decide) (by omega)
          rw [addPools_turn memory n pools hx hlt, ih (by omega) _ (by omega), List.reverse_cons,
            List.append_assoc, List.singleton_append]

theorem full (h : Splits memory off o x ps) :
    ∀ mp ∈ ps, mp = fullPool memory mp.baseAddr mp.poolOrder ∧ mp.baseAddr < 2 ^ 64 ∧
      pageShift ≤ mp.poolOrder := by
  induction h with
  | done => exact fun mp hmp => absurd hmp List.not_mem_nil
  | turn hx hps ih =>
      intro mp hmp
      rcases List.mem_cons.1 hmp with rfl | hmp
      · exact ⟨rfl, va_lt _ _, Nat.le_add_left _ _⟩
      · exact ih mp hmp

/-- Every pool is smaller than what it is made from. -/
theorem poolOrder_lt (h : Splits memory off o x ps) :
    ∀ mp ∈ ps, mp.poolOrder < fls x + pageShift := by
  induction h with
  | done => exact fun mp hmp => absurd hmp List.not_mem_nil
  | @turn o x ps hx hps ih =>
      have hpos := fls_pos hx
      intro mp hmp
      rcases List.mem_cons.1 hmp with rfl | hmp
      · exact Nat.add_lt_add_right (Nat.sub_lt hpos Nat.one_pos) _
      · have hrest := fls_le (numPages_step_lt hx)
        have hlt := ih mp hmp
        omega

theorem orders_decrease (h : Splits memory off o x ps) :
    (ps.map BuddyMempool.poolOrder).Pairwise fun order order' => order' < order := by
  induction h with
  | done => exact List.Pairwise.nil
  | turn hx hps ih =>
      rw [List.map_cons, List.pairwise_cons]
      refine ⟨fun order horder => ?_, ih⟩
      obtain ⟨mp, hmp, rfl⟩ := List.mem_map.1 horder
      exact Nat.lt_of_lt_of_le (hps.poolOrder_lt mp hmp)
        (Nat.add_le_add_right (fls_le (numPages_step_lt hx)) _)

/-- The same split with an origin inside the range. -/
theorem rebase (h : Splits memory off o x ps) :
    ∀ {b d : Nat}, o = b + d → Splits memory (va off b) d x ps := by
  induction h with
  | done =>
      intro b d _
      exact .done
  | @turn o x ps hx hps ih =>
      rintro b d rfl
      have hva : va off (b + d) = va (va off b) d := by
        unfold va add64
        omega
      rw [hva]
      exact .turn hx (ih (Nat.add_assoc _ _ _))

/-- Seen from the origin `off` the pools lie side by side. -/
theorem tiles (h : Splits memory off o x ps) (hoff : off < 2 ^ 64)
    (hbound : o + x * pageSize ≤ 2 ^ 64) :
    Tiles (fun mp => pa off mp.baseAddr) (fun mp => 2 ^ mp.poolOrder) o (o + x * pageSize) ps := by
  induction h with
  | @done o => show o = o + 0 * pageSize; omega
  | @turn o x ps hx hps ih =>
      have hle := two_pow_fls_le hx
      have hsum := add_mul_add_sub_mul o pageSize hle
      have hsize : 2 ^ (fls x - 1 + pageShift) = 2 ^ (fls x - 1) * pageSize := Nat.pow_add 2 _ _
      have ho : o < 2 ^ 64 := by
        unfold pageSize at hbound
        omega
      refine ⟨pa_va hoff ho, ?_⟩
      rw [← hsum]
      show Tiles _ _ (o + 2 ^ (fls x - 1 + pageShift)) _ ps
      rw [hsize]
      exact ih ((Nat.le_of_eq hsum).trans hbound)

end Splits

/-! ## The range of `ADD_MEMORY` -/

/-- The address lies in what the pool manages. -/
def BuddyMempool.Manages (mp : BuddyMempool) (a : Nat) : Prop :=
  sub64 a mp.baseAddr < 2 ^ mp.poolOrder

/-- The same, seen from an origin `off` from which the pool does not wrap around. -/
theorem manages_iff (off a : Nat) {mp : BuddyMempool} (hbase : mp.baseAddr < 2 ^ 64)
    (hbound : pa off mp.baseAddr + 2 ^ mp.poolOrder ≤ 2 ^ 64) :
    mp.Manages a ↔
      pa off mp.baseAddr ≤ pa off a ∧ pa off a < pa off mp.baseAddr + 2 ^ mp.poolOrder := by
  unfold BuddyMempool.Manages
  generalize 2 ^ mp.poolOrder = size at hbound ⊢
  unfold pa sub64 at hbound ⊢
  omega

/-- The pools of a tiling do not overlap, and they cover it. -/
theorem Splits.manages {memory : Nat → Nat} {off o x : Nat} {ps : List BuddyMempool}
    (h : Splits memory off o x ps) (hoff : off < 2 ^ 64) (hbound : o + x * pageSize ≤ 2 ^ 64) :
    (ps.Pairwise fun mp mp' => ∀ a, mp.Manages a → ¬ mp'.Manages a) ∧
    ∀ a, (∃ mp ∈ ps, mp.Manages a) ↔ o ≤ pa off a ∧ pa off a < o + x * pageSize := by
  have htiles := h.tiles hoff hbound
  have hiff : ∀ mp ∈ ps, ∀ a, mp.Manages a ↔
      pa off mp.baseAddr ≤ pa off a ∧ pa off a < pa off mp.baseAddr + 2 ^ mp.poolOrder :=
    fun mp hmp a => manages_iff off a (h.full mp hmp).2.1 ((htiles.bounds hmp).2.trans hbound)
  constructor
  · refine htiles.pairwise.imp_of_mem fun {mp mp'} hmp hmp' hle a hin hin' => ?_
    have hlt := ((hiff mp hmp a).1 hin).2
    have hge := ((hiff mp' hmp' a).1 hin').1
    omega
  · intro a
    constructor
    · rintro ⟨mp, hmp, hin⟩
      obtain ⟨hge, hlt⟩ := (hiff mp hmp a).1 hin
      obtain ⟨hlow, hhigh⟩ := htiles.bounds hmp
      exact ⟨hlow.trans hge, Nat.lt_of_lt_of_le hlt hhigh⟩
    · rintro ⟨hge, hlt⟩
      obtain ⟨mp, hmp, hcov⟩ := htiles.cover hge hlt
      exact ⟨mp, hmp, (hiff mp hmp a).2 hcov⟩

/-- `ADD_MEMORY` adds the pools of the split. -/
theorem Splits.addMemory {memory : Nat → Nat} {off base pages : Nat} {ps : List BuddyMempool}
    (h : Splits memory off base pages ps) (hpages : pages < 2 ^ 31) (pools : List BuddyMempool) :
    VirtualMemory.addMemory off memory pools base pages = some (ps.reverse ++ pools) := by
  rw [VirtualMemory.addMemory, Nat.mod_eq_of_lt (show pages < 2 ^ 32 by omega)]
  exact h.addPools hpages pools (by omega)

/-- The pool has one free block, and that is all it manages. -/
structure OneFreeBlock (mp : BuddyMempool) : Prop where
  min : mp.minOrder = pageShift
  order : pageShift ≤ mp.poolOrder
  blocks : mp.numBlocks = 2 ^ (mp.poolOrder - pageShift)
  avail : ∀ j, mp.avail j = if j = mp.poolOrder then [mp.baseAddr] else []
  tags : ∀ i, mp.tagBits i = true ↔ i = 0
  blockOrder : mp.blockOrder mp.baseAddr = mp.poolOrder

theorem Splits.oneFreeBlock {memory : Nat → Nat} {off o x : Nat} {ps : List BuddyMempool}
    (h : Splits memory off o x ps) : ∀ mp ∈ ps, OneFreeBlock mp := by
  intro mp hmp
  obtain ⟨heq, -, hle⟩ := h.full mp hmp
  generalize mp.baseAddr = base at heq
  generalize mp.poolOrder = order at heq hle
  subst heq
  refine ⟨rfl, hle, Nat.pow_div hle (by decide), fun j => ?_, fun i => ?_, ?_⟩
  · show Function.update (fun _ => []) order [base] j = _
    rw [Function.update_apply]
    rfl
  · show Function.update (fun _ => false) 0 true i = true ↔ _
    rw [Function.update_apply]
    simp
  · exact Function.update_self base order memory

/-- For every range of fewer than `2 ^ 31` pages the loop of `ADD_MEMORY` ends, and the pools that
it adds, from the first to the last, have smaller and smaller orders, lie side by side from
`__va(base)` to `__va(base) + 4096 * pages` and consist of one free block each. The list of pools
has the last one in front. -/
theorem addMemory_splits_exactly {off base pages : Nat} (hoff : off < 2 ^ 64)
    (hpages : pages < 2 ^ 31)
    (hbound : base + pageSize * pages ≤ 2 ^ 64) (memory : Nat → Nat) (pools : List BuddyMempool) :
    ∃ new, addMemory off memory pools base pages = some (new.reverse ++ pools) ∧
      (∀ n, 31 ≤ n → addPools memory n (va off base) pages pools = some (new.reverse ++ pools)) ∧
      ((new.map BuddyMempool.poolOrder).Pairwise fun order order' => order' < order) ∧
      -- side by side, seen from the start of the range and in physical memory
      Tiles (fun mp => sub64 mp.baseAddr (va off base)) (fun mp => 2 ^ mp.poolOrder)
        0 (pageSize * pages) new ∧
      Tiles (fun mp => pa off mp.baseAddr) (fun mp => 2 ^ mp.poolOrder)
        base (base + pageSize * pages) new ∧
      -- no address is managed twice, and those of the range are managed
      (new.Pairwise fun mp mp' => ∀ a, mp.Manages a → ¬ mp'.Manages a) ∧
      (∀ a, (∃ mp ∈ new, mp.Manages a) ↔ sub64 a (va off base) < pageSize * pages) ∧
      (va off base + pageSize * pages ≤ 2 ^ 64 → ∀ a < 2 ^ 64,
        (∃ mp ∈ new, mp.Manages a) ↔ va off base ≤ a ∧ a < va off base + pageSize * pages) ∧
      ∀ mp ∈ new, OneFreeBlock mp := by
  obtain ⟨new, h⟩ := Splits.exists_splits memory off pages base
  have hrange : 0 + pages * pageSize = pageSize * pages := by
    rw [Nat.zero_add, Nat.mul_comm]
  have hsmall : pageSize * pages ≤ 2 ^ 64 := (Nat.le_add_left _ _).trans hbound
  have hstart : Splits memory (va off base) 0 pages new := h.rebase rfl
  have hva := va_lt off base
  obtain ⟨hdisj, hcover⟩ := hstart.manages hva (hrange ▸ hsmall)
  have htiles := hstart.tiles hva (hrange ▸ hsmall)
  rw [hrange] at hcover htiles
  have hcover' : ∀ a, (∃ mp ∈ new, mp.Manages a) ↔
      sub64 a (va off base) < pageSize * pages := by
    intro a
    rw [hcover a]
    exact and_iff_right (Nat.zero_le _)
  rw [Nat.mul_comm] at hbound
  refine ⟨new, h.addMemory hpages pools, fun n hn => ?_, h.orders_decrease, htiles, ?_,
    hdisj, hcover', fun hwrap a ha => ?_, h.oneFreeBlock⟩
  · exact h.addPools hpages pools (Nat.lt_of_lt_of_le hpages (Nat.pow_le_pow_right (by decide) hn))
  · rw [Nat.mul_comm]
    exact h.tiles hoff hbound
  · rw [hcover' a]
    unfold sub64
    omega

/-- Six pages at the physical address 4096: a pool of four pages and one of two. -/
theorem addMemory_splits_exactly_six :
    ∃ new : List BuddyMempool,
      addMemory 0xffff880000000000 (fun _ => 0) [] 4096 6 = some (new.reverse ++ []) ∧
      (∀ a, (∃ mp ∈ new, mp.Manages a) ↔ sub64 a 0xffff880000001000 < 24576) ∧
      ∀ mp ∈ new, OneFreeBlock mp :=
  have ⟨new, hadd, _, _, _, _, _, hcover, _, hfree⟩ :=
    @addMemory_splits_exactly 0xffff880000000000 4096 6 (by decide) (by decide) (by decide)
      (fun _ => 0) []
  ⟨new, hadd, hcover, hfree⟩

end PetKernel.VirtualMemory
