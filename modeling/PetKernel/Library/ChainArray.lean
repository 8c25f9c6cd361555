import PetKernel.Library.LinkedChain

/-!
# Arrays of chains

An array of pointers, each to the first node of a chain. `ChainArray next nil table n b` says that
the slots of `table` below `n` hold the chains `b 0`, `b 1`, .., with no node in two places, where
the chain of the slot `i` ends in `nil i`. A node is put at the front of a chain by
`ChainArray.push`, the first node of a chain is taken out by `ChainArray.pop`, and a node in the
middle by `ChainArray.unlink`; `ChainArray.extend` adds slots. Two arrays may share the field
`next`, as when nodes are moved from one to the other: `ChainArray.congr` is the rule for the array
that is not touched.
-/

set_option autoImplicit false

namespace PetKernel.Library

universe u

variable {α : Type u}

/-- The slots of `table` below `n` hold the chains `b`. -/
structure ChainArray (next : α → α) (nil : Nat → α) (table : Nat → α) (n : Nat) (b : Nat → List α) :
    Prop where
  head : ∀ i, i < n → table i = (b i).headD (nil i)
  linked : ∀ i, i < n → Linked next (nil i) (b i)
  nodup : ∀ i, i < n → (b i).Nodup
  disjoint : ∀ i j p, i < n → j < n → p ∈ b i → p ∈ b j → i = j
  nonnil : ∀ i, i < n → nil i ∉ b i

/-- The node is in none of the chains. -/
def Outside (n : Nat) (b : Nat → List α) (p : α) : Prop := ∀ i, i < n → p ∉ b i

namespace ChainArray

variable {next next' : α → α} {p : α} {nil table table' : Nat → α} {n i : Nat} {b : Nat → List α}
  {us vs : List α}

/-- Chains that are all empty. -/
theorem empty (next : α → α) (nil : Nat → α) (n : Nat) :
    ChainArray next nil nil n fun _ => [] where
  head := fun _ _ => rfl
  linked := fun _ _ => trivial
  nodup := fun _ _ => List.nodup_nil
  disjoint := fun _ _ _ _ _ hp => absurd hp List.not_mem_nil
  nonnil := fun _ _ => List.not_mem_nil

/-- Only the slots and the nodes of the chains matter. -/
theorem congr (h : ChainArray next nil table n b) (htable : ∀ i, i < n → table' i = table i)
    (hnext : ∀ i p, i < n → p ∈ b i → next' p = next p) : ChainArray next' nil table' n b where
  head := fun i hi => (htable i hi).trans (h.head i hi)
  linked := fun i hi => (h.linked i hi).congr fun p hp => hnext i p hi hp
  nodup := h.nodup
  disjoint := h.disjoint
  nonnil := h.nonnil

/-- What a node in the middle of a chain points to. -/
theorem next_eq (h : ChainArray next nil table n b) (hi : i < n) (hb : b i = us ++ p :: vs) :
    next p = vs.headD (nil i) := by
  have hlinked := h.linked i hi
  rw [hb] at hlinked
  exact hlinked.next_of_append

/-- The nodes of the chains, with one more in front of the `i`-th chain. -/
theorem mem_update_cons {j : Nat} {q : α} :
    q ∈ Function.update b i (p :: b i) j ↔ (j = i ∧ q = p) ∨ q ∈ b j := by
  by_cases hji : j = i
  · subst hji
    rw [Function.update_self, List.mem_cons, and_iff_right rfl]
  · rw [Function.update_of_ne hji]
    exact (or_iff_right fun hq => hji hq.1).symm

/-- The nodes of the chains, without one of the `i`-th chain. -/
theorem mem_update_append (h : ChainArray next nil table n b) (hi : i < n)
    (hb : b i = us ++ p :: vs) {j : Nat} (hj : j < n) {q : α} :
    q ∈ Function.update b i (us ++ vs) j ↔ q ∈ b j ∧ q ≠ p := by
  have hp : p ∈ b i := hb ▸ List.mem_append_right us List.mem_cons_self
  have hnodup : (us ++ p :: vs).Nodup := hb ▸ h.nodup i hi
  have hpout := (List.nodup_cons.1 (List.nodup_middle.1 hnodup)).1
  by_cases hji : j = i
  · rw [hji, Function.update_self, hb, List.mem_append, List.mem_append, List.mem_cons]
    constructor
    · intro hq
      refine ⟨hq.imp_right Or.inr, ?_⟩
      rintro rfl
      exact hpout (List.mem_append.2 hq)
    · rintro ⟨hq | hq | hq, hqp⟩
      · exact Or.inl hq
      · exact absurd hq hqp
      · exact Or.inr hq
  · rw [Function.update_of_ne hji]
    refine ⟨fun hq => ⟨hq, ?_⟩, fun hq => hq.1⟩
    rintro rfl
    exact hji (h.disjoint j i q hj hi hq hp)

/-- The nodes of the chains, when there are more slots. -/
theorem mem_extend {j : Nat} {q : α} : q ∈ (if j < n then b j else []) ↔ j < n ∧ q ∈ b j := by
  split
  next hj => exact (and_iff_right hj).symm
  next hj => exact iff_of_false List.not_mem_nil fun hq => hj hq.1

/-- More slots, with chains that are empty. -/
theorem extend {m : Nat} {nil' : Nat → α} (h : ChainArray next nil table n b)
    (htable : ∀ j, j < n → table' j = table j) (hnil : ∀ j, j < n → nil' j = nil j)
    (hnew : ∀ j, n ≤ j → table' j = nil' j) :
    ChainArray next nil' table' m fun j => if j < n then b j else [] where
  head j _ := by
    by_cases hj : j < n
    · rw [if_pos hj, htable j hj, hnil j hj]
      exact h.head j hj
    · rw [if_neg hj]
      exact hnew j (Nat.le_of_not_lt hj)
  linked j _ := by
    by_cases hj : j < n
    · rw [if_pos hj, hnil j hj]
      exact h.linked j hj
    · rw [if_neg hj]
      trivial
  nodup j _ := by
    by_cases hj : j < n
    · rw [if_pos hj]
      exact h.nodup j hj
    · rw [if_neg hj]
      exact List.nodup_nil
  disjoint j k p _ _ hpj hpk := by
    obtain ⟨hj, hpj⟩ := mem_extend.1 hpj
    obtain ⟨hk, hpk⟩ := mem_extend.1 hpk
    exact h.disjoint j k p hj hk hpj hpk
  nonnil j _ hp := by
    obtain ⟨hj, hp⟩ := mem_extend.1 hp
    exact h.nonnil j hj (hnil j hj ▸ hp)

/-- One chain is replaced by another one. -/
theorem replace (h : ChainArray next nil table n b) (hi : i < n) {l : List α} {first : α}
    (hhead : first = l.headD (nil i)) (hlinked : Linked next' (nil i) l) (hnodup : l.Nodup)
    (hnil : nil i ∉ l)
    (hnew : ∀ p ∈ l, p ∈ b i ∨ Outside n b p)
    (hnext : ∀ j p, j < n → j ≠ i → p ∈ b j → next' p = next p) :
    ChainArray next' nil (Function.update table i first) n (Function.update b i l) where
  head := by
    intro j hj
    by_cases hji : j = i
    · subst hji
      rw [Function.update_self, Function.update_self]
      exact hhead
    · rw [Function.update_of_ne hji, Function.update_of_ne hji]
      exact h.head j hj
  linked := by
    intro j hj
    by_cases hji : j = i
    · subst hji
      rw [Function.update_self]
      exact hlinked
    · rw [Function.update_of_ne hji]
      exact (h.linked j hj).congr fun p hp => hnext j p hj hji hp
  nodup := by
    intro j hj
    by_cases hji : j = i
    · subst hji
      rw [Function.update_self]
      exact hnodup
    · rw [Function.update_of_ne hji]
      exact h.nodup j hj
  disjoint := by
    -- a node of the new chain is in no other one
    have hother : ∀ j p, j < n → j ≠ i → p ∈ l → p ∉ b j := by
      intro j p hj hji hp hpj
      rcases hnew p hp with hpi | hout
      · exact hji (h.disjoint j i p hj hi hpj hpi)
      · exact hout j hj hpj
    intro j k p hj hk hpj hpk
    by_cases hji : j = i
    · by_cases hki : k = i
      · rw [hji, hki]
      · rw [hji, Function.update_self] at hpj
        rw [Function.update_of_ne hki] at hpk
        exact absurd hpk (hother k p hk hki hpj)
    · rw [Function.update_of_ne hji] at hpj
      by_cases hki : k = i
      · rw [hki, Function.update_self] at hpk
        exact absurd hpj (hother j p hj hji hpk)
      · rw [Function.update_of_ne hki] at hpk
        exact h.disjoint j k p hj hk hpj hpk
  nonnil := by
    intro j hj
    by_cases hji : j = i
    · subst hji
      rw [Function.update_self]
      exact hnil
    · rw [Function.update_of_ne hji]
      exact h.nonnil j hj

/-- The first node of a chain is taken out. -/
theorem pop (h : ChainArray next nil table n b) (hi : i < n) (hb : b i = p :: vs) :
    ChainArray next nil (Function.update table i (next p)) n (Function.update b i vs) := by
  have hlinked := h.linked i hi
  have hnodup := h.nodup i hi
  have hnil := h.nonnil i hi
  rw [hb] at hlinked hnodup hnil
  exact h.replace hi hlinked.1 hlinked.2 (List.nodup_cons.1 hnodup).2
    (fun hmem => hnil (List.mem_cons_of_mem p hmem))
    (fun q hq => Or.inl (hb ▸ List.mem_cons_of_mem p hq)) fun _ _ _ _ _ => rfl

variable [DecidableEq α]

/-- A new node at the front of a chain. -/
theorem push (h : ChainArray next nil table n b) (hi : i < n) (hp : p ≠ nil i)
    (hout : Outside n b p) :
    ChainArray (Function.update next p (table i)) nil (Function.update table i p) n
      (Function.update b i (p :: b i)) := by
  have hsame : ∀ j q, j < n → q ∈ b j → Function.update next p (table i) q = next q := by
    intro j q hj hq
    refine Function.update_of_ne ?_ _ _
    rintro rfl
    exact hout j hj hq
  refine h.replace hi rfl ⟨?_, (h.linked i hi).congr fun q hq => hsame i q hi hq⟩ ?_ ?_ ?_
    fun j q hj _ hq => hsame j q hj hq
  · rw [Function.update_self]
    exact h.head i hi
  · exact List.nodup_cons.2 ⟨hout i hi, h.nodup i hi⟩
  · exact List.not_mem_cons_of_ne_of_not_mem (Ne.symm hp) (h.nonnil i hi)
  · intro q hq
    rcases List.mem_cons.1 hq with rfl | hq
    · exact Or.inr hout
    · exact Or.inl hq

/-- A node behind the nodes `u :: us` is taken out of its chain. -/
theorem unlink {u : α} (h : ChainArray next nil table n b) (hi : i < n)
    (hb : b i = u :: us ++ p :: vs) :
    ChainArray (Function.update next (us.getLastD u) (next p)) nil table n
      (Function.update b i (u :: us ++ vs)) := by
  have hlinked := h.linked i hi
  have hnodup := h.nodup i hi
  have hnil := h.nonnil i hi
  have hfirst := h.head i hi
  rw [hb] at hlinked hnodup hnil hfirst
  have hsub : (u :: us ++ vs).Sublist (u :: us ++ p :: vs) :=
    (List.Sublist.refl _).append (List.sublist_cons_self p vs)
  have hlast : us.getLastD u ∈ b i := by
    rw [hb]
    exact List.mem_append_left _ (getLastD_mem_cons us u)
  have hremoved := hlinked.remove hnodup
  rw [← hlinked.next_of_append] at hremoved
  have hnew : ChainArray (Function.update next (us.getLastD u) (next p)) nil
      (Function.update table i u) n (Function.update b i (u :: us ++ vs)) := by
    refine h.replace hi rfl hremoved (hnodup.sublist hsub) (fun hmem => hnil (hsub.subset hmem))
      (fun q hq => Or.inl (hb ▸ hsub.subset hq)) fun j q hj hji hq => ?_
    refine Function.update_of_ne ?_ _ _
    rintro rfl
    exact hji (h.disjoint j i _ hj hi hq hlast)
  have hsame : Function.update table i u = table := by
    refine (Function.update_eq_iff).2 ⟨?_, fun _ _ => rfl⟩
    exact hfirst.symm
  rwa [hsame] at hnew

end ChainArray

end PetKernel.Library
