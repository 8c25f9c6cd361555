import Mathlib

/-!
# Chains of nodes

Nodes of a heap that are linked by a field `next`, the last one pointing to `nil`: `Linked next nil
l` says that the list `l` is such a chain. A write to a node outside of the chain keeps it
(`Linked.congr`), and a write to the field of the last node makes it one node longer
(`Linked.concat`). Nodes in the middle are taken out by `Linked.remove` and put in by
`Linked.insert`. Another chain is put in by `Linked.splice`.
-/

set_option autoImplicit false

namespace PetKernel.Library

universe u

variable {α : Type u}

/-- The nodes of the list are linked in its order, and the last one points to `nil`. -/
def Linked (next : α → α) (nil : α) : List α → Prop
  | [] => True
  | a :: l => next a = l.headD nil ∧ Linked next nil l

variable {next : α → α} {nil : α} {l : List α} {p q : α}

/-- What a node points to is the node after it, or `nil`. -/
theorem Linked.next_eq (h : Linked next nil l) :
    ∀ {k : Nat}, l[k]? = some p → next p = l[k + 1]?.getD nil := by
  induction l with
  | nil =>
      intro k hk
      cases hk
  | cons a l ih =>
      intro k hk
      cases k with
      | zero =>
          cases hk
          rw [h.1]
          cases l <;> rfl
      | succ k => exact ih h.2 hk

/-- The node after a node of the chain is in the chain. -/
theorem Linked.next_mem (h : Linked next nil l) (hp : p ∈ l) (hnext : next p ≠ nil) :
    next p ∈ l := by
  obtain ⟨k, hk⟩ := List.mem_iff_getElem?.1 hp
  have heq := h.next_eq hk
  cases hsucc : l[k + 1]? with
  | none =>
      rw [hsucc] at heq
      exact absurd heq hnext
  | some b =>
      rw [hsucc] at heq
      rw [heq]
      exact List.mem_of_getElem? hsucc

/-- A node that points to `nil` is the last one. -/
theorem Linked.length_of_next_eq_nil (h : Linked next nil l) (hnil : nil ∉ l) {k : Nat}
    (hk : l[k]? = some p) (hnext : next p = nil) : l.length = k + 1 := by
  have heq := h.next_eq hk
  have hlt := (List.getElem?_eq_some_iff.1 hk).1
  cases hsucc : l[k + 1]? with
  | none =>
      have hle := List.getElem?_eq_none_iff.1 hsucc
      omega
  | some b =>
      rw [hsucc, hnext] at heq
      have hmem := List.mem_of_getElem? hsucc
      exact absurd (heq.symm ▸ hmem) hnil

/-- The chain is what one walks through from its first node. -/
theorem Linked.iterate (h : Linked next nil l) {a : α} (ha : l[0]? = some a) :
    ∀ {k : Nat}, l[k]? = some p → Nat.iterate next k a = p := by
  intro k
  induction k generalizing p with
  | zero =>
      intro hk
      rw [ha] at hk
      exact Option.some.inj hk
  | succ k ih =>
      intro hk
      obtain ⟨b, hb⟩ : ∃ b, l[k]? = some b := by
        have hlt := (List.getElem?_eq_some_iff.1 hk).1
        exact ⟨_, List.getElem?_eq_getElem (Nat.lt_of_succ_lt hlt)⟩
      rw [Function.iterate_succ_apply', ih hb, h.next_eq hb, hk]
      rfl

/-- Only the nodes of the chain matter. -/
theorem Linked.congr {next' : α → α} (h : Linked next nil l) (hsame : ∀ a ∈ l, next' a = next a) :
    Linked next' nil l := by
  induction l with
  | nil => trivial
  | cons a l ih =>
      refine ⟨?_, ih h.2 fun b hb => hsame b (List.mem_cons_of_mem a hb)⟩
      rw [hsame a List.mem_cons_self]
      exact h.1

theorem getLastD_mem_cons (us : List α) (u : α) : us.getLastD u ∈ u :: us := by
  induction us generalizing u with
  | nil => exact List.mem_cons_self
  | cons w us ih =>
      rw [List.getLastD_cons]
      exact List.mem_cons_of_mem u (ih w)

/-- What a node in the middle of the chain points to. -/
theorem Linked.next_of_append {us vs : List α} {x : α} (h : Linked next nil (us ++ x :: vs)) :
    next x = vs.headD nil := by
  induction us with
  | nil => exact h.1
  | cons u us ih => exact ih h.2

/-- Two chains are one, when the first of them ends at the first node of the second. -/
theorem Linked.append {us vs : List α} (hus : Linked next (vs.headD nil) us)
    (hvs : Linked next nil vs) : Linked next nil (us ++ vs) := by
  induction us with
  | nil => exact hvs
  | cons u us ih =>
      refine ⟨?_, ih hus.2⟩
      rw [hus.1]
      cases us with
      | nil =>
          cases vs with
          | nil => rfl
          | cons v vs => rfl
      | cons w us => rfl

variable [DecidableEq α]

/-- The last node is made to point elsewhere. -/
theorem Linked.close {u : α} {us : List α} (h : Linked next nil (u :: us))
    (hnodup : (u :: us).Nodup)
    (q : α) : Linked (Function.update next (us.getLastD u) q) q (u :: us) := by
  induction us generalizing u with
  | nil => exact ⟨Function.update_self _ _ _, trivial⟩
  | cons w us ih =>
      obtain ⟨hu, hnodup⟩ := List.nodup_cons.1 hnodup
      rw [List.getLastD_cons]
      refine ⟨?_, ih h.2 hnodup⟩
      rw [Function.update_of_ne]
      · exact h.1
      · rintro rfl
        exact hu (getLastD_mem_cons us w)

/-- A node is appended: the last node of the chain is made to point to it. -/
theorem Linked.concat (h : Linked next nil l) (hnil : nil ∉ l) (hnodup : l.Nodup) (hp : p ∈ l)
    (hlast : next p = nil) (hq : q ∉ l) (hnext : next q = nil) :
    Linked (Function.update next p q) nil (l ++ [q]) := by
  induction l with
  | nil => cases hp
  | cons a l ih =>
      rw [List.mem_cons, not_or] at hnil hq
      obtain ⟨ha, hnodup⟩ := List.nodup_cons.1 hnodup
      rcases List.mem_cons.1 hp with rfl | hp
      · -- the last node is the first one, so that there is no other
        cases l with
        | nil =>
            refine ⟨Function.update_self _ _ _, ?_, trivial⟩
            rw [Function.update_of_ne hq.1]
            exact hnext
        | cons b l =>
            have hb : nil = b := hlast.symm.trans h.1
            exact absurd (hb ▸ List.mem_cons_self) hnil.2
      · have hne : a ≠ p := fun heq => ha (heq ▸ hp)
        refine ⟨?_, ih h.2 hnil.2 hnodup hp hq.2⟩
        rw [Function.update_of_ne hne, h.1]
        cases l with
        | nil => cases hp
        | cons b l => rfl

/-- A node is taken out: the node before it is made to point to the node after it. -/
theorem Linked.remove {u x : α} {us vs : List α} (h : Linked next nil (u :: us ++ x :: vs))
    (hnodup : (u :: us ++ x :: vs).Nodup) :
    Linked (Function.update next (us.getLastD u) (vs.headD nil)) nil (u :: us ++ vs) := by
  induction us generalizing u with
  | nil =>
      obtain ⟨hu, -⟩ := List.nodup_cons.1 hnodup
      refine ⟨Function.update_self _ _ _, h.2.2.congr fun a ha => Function.update_of_ne ?_ _ _⟩
      rintro rfl
      exact hu (List.mem_cons_of_mem x ha)
  | cons w us ih =>
      obtain ⟨hu, hnodup⟩ := List.nodup_cons.1 hnodup
      rw [List.getLastD_cons]
      refine ⟨?_, ih h.2 hnodup⟩
      rw [Function.update_of_ne]
      · exact h.1
      · rintro rfl
        exact hu (List.mem_append_left _ (getLastD_mem_cons us w))

/-- A node is put in: the node before it is made to point to it, and it to the node after it. -/
theorem Linked.insert {u y : α} {us vs : List α} (h : Linked next nil (u :: us ++ vs))
    (hnodup : (u :: us ++ vs).Nodup) (hy : y ∉ u :: us ++ vs) :
    Linked (Function.update (Function.update next (us.getLastD u) y) y (vs.headD nil)) nil
      (u :: us ++ y :: vs) := by
  induction us generalizing u with
  | nil =>
      obtain ⟨hu, -⟩ := List.nodup_cons.1 hnodup
      obtain ⟨hne, hvs⟩ := List.ne_and_not_mem_of_not_mem_cons hy
      refine ⟨?_, Function.update_self _ _ _, h.2.congr fun a ha => ?_⟩
      · rw [Function.update_of_ne (Ne.symm hne)]
        exact Function.update_self _ _ _
      · have hay : a ≠ y := fun heq => hvs (heq ▸ ha)
        have hau : a ≠ u := fun heq => hu (heq ▸ ha)
        rw [Function.update_of_ne hay]
        exact Function.update_of_ne hau _ _
  | cons w us ih =>
      obtain ⟨hu, hnodup⟩ := List.nodup_cons.1 hnodup
      obtain ⟨hne, hy⟩ := List.ne_and_not_mem_of_not_mem_cons hy
      rw [List.getLastD_cons]
      refine ⟨?_, ih h.2 hnodup hy⟩
      rw [Function.update_of_ne (Ne.symm hne), Function.update_of_ne]
      · exact h.1
      · rintro rfl
        exact hu (List.mem_append_left _ (getLastD_mem_cons us w))

/-- The nodes of another chain are put in: the node before them is made to point to the first of
them, and the last of them to the node after them. -/
theorem Linked.splice {u : α} {us vs ms : List α} (h : Linked next nil (u :: us ++ vs))
    (g : Linked next p ms) (hms : ms ≠ []) (x : α) (hnodup : (u :: us ++ (ms ++ vs)).Nodup) :
    Linked (Function.update (Function.update next (us.getLastD u) (ms.headD x)) (ms.getLastD x)
      (vs.headD nil)) nil (u :: us ++ (ms ++ vs)) := by
  obtain ⟨m, ms, rfl⟩ := List.exists_cons_of_ne_nil hms
  rw [List.getLastD_cons, List.headD_cons]
  have hlast : ms.getLastD m ∈ m :: ms := getLastD_mem_cons ms m
  induction us generalizing u with
  | nil =>
      have hnodup : (u :: (m :: ms ++ vs)).Nodup := hnodup
      have hvs : Linked next nil vs := h.2
      obtain ⟨hu, hnodup⟩ := List.nodup_cons.1 hnodup
      obtain ⟨hms, -, hapart⟩ := List.nodup_append'.1 hnodup
      refine ⟨?_, @Linked.append _ _ _ (m :: ms) vs ?_ ?_⟩
      · rw [Function.update_of_ne]
        · exact Function.update_self _ _ _
        · intro heq
          exact hu (List.mem_append_left _ (heq ▸ hlast))
      · refine (g.close hms _).congr fun a ha => ?_
        have hne : a ≠ u := fun heq => hu (List.mem_append_left _ (heq ▸ ha))
        by_cases hal : a = ms.getLastD m
        · rw [hal, Function.update_self, Function.update_self]
        · rw [Function.update_of_ne hal, Function.update_of_ne hal]
          exact Function.update_of_ne hne _ _
      · refine hvs.congr fun a ha => ?_
        have hal : a ≠ ms.getLastD m := fun heq => hapart (heq ▸ hlast) ha
        have hne : a ≠ u := fun heq => hu (List.mem_append_right _ (heq ▸ ha))
        rw [Function.update_of_ne hal]
        exact Function.update_of_ne hne _ _
  | cons w us ih =>
      obtain ⟨hu, hnodup⟩ := List.nodup_cons.1 hnodup
      rw [List.getLastD_cons]
      refine ⟨?_, ih h.2 hnodup⟩
      rw [Function.update_of_ne, Function.update_of_ne]
      · exact h.1
      · rintro rfl
        exact hu (List.mem_append_left _ (getLastD_mem_cons us w))
      · rintro rfl
        exact hu (List.mem_append_right _ (List.mem_append_left _ hlast))

end PetKernel.Library
