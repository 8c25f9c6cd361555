import PetKernel.Library.LinkedChain

/-!
# Rings of nodes

A doubly linked list that is closed by a head: `Ring next prev head l` says that one comes through
the nodes of `l` and back to `head` along `next`, and through the same nodes in reverse along
`prev`. The nodes before a place of the list are written last first, so that `rs.reverse ++ bs` has
the neighbours `rs.headD head` and `bs.headD head` at the place between. `Ring.remove` and
`Ring.insert` are the two changes of a ring by one node, and `Ring.splice` puts the nodes of another
ring in.
-/

set_option autoImplicit false

namespace PetKernel.Library

universe u

variable {α : Type u}

/-- The nodes of `l` are linked both ways and closed by `head`. -/
structure Ring (next prev : α → α) (head : α) (l : List α) : Prop where
  forward : Linked next head (head :: l)
  backward : Linked prev head (head :: l.reverse)
  nodup : (head :: l).Nodup

namespace Ring

variable {next prev : α → α} {head x y : α} {l rs bs : List α}

theorem getLastD_reverse (l : List α) (a : α) : l.reverse.getLastD a = l.headD a := by
  cases l with
  | nil => rfl
  | cons b l => rw [List.reverse_cons, List.getLastD_concat, List.headD_cons]

/-- The same ring the other way round. -/
theorem symm (h : Ring next prev head l) : Ring prev next head l.reverse where
  forward := h.backward
  backward := by
    rw [List.reverse_reverse]
    exact h.forward
  nodup := by
    rw [List.nodup_cons, List.mem_reverse, List.nodup_reverse]
    exact List.nodup_cons.1 h.nodup

theorem reverse_zipper (rs bs : List α) : (rs.reverse ++ bs).reverse = bs.reverse ++ rs := by
  rw [List.reverse_append, List.reverse_reverse]

/-- The other way round the nodes before and after a place change their roles. -/
theorem reverse_zipper_cons (rs bs : List α) (x : α) :
    (rs.reverse ++ x :: bs).reverse = bs.reverse ++ x :: rs := by
  rw [reverse_zipper, List.reverse_cons, List.append_assoc, List.singleton_append]

theorem next_head (h : Ring next prev head l) : next head = l.headD head := h.forward.1

theorem next_eq (h : Ring next prev head (rs.reverse ++ x :: bs)) : next x = bs.headD head := by
  have hforward : Linked next head (head :: rs.reverse ++ x :: bs) := h.forward
  exact hforward.next_of_append

/-- The neighbours of a place are linked. -/
theorem next_place (h : Ring next prev head (rs.reverse ++ bs)) :
    next (rs.headD head) = bs.headD head := by
  cases rs with
  | nil => exact h.next_head
  | cons r rs =>
      rw [List.reverse_cons, List.append_assoc, List.singleton_append] at h
      exact h.next_eq

theorem prev_eq (h : Ring next prev head (rs.reverse ++ x :: bs)) : prev x = rs.headD head := by
  have hbackward := h.backward
  rw [reverse_zipper_cons, ← List.cons_append] at hbackward
  exact hbackward.next_of_append

/-- Only the nodes of the ring matter. -/
theorem congr {next' prev' : α → α} (h : Ring next prev head l)
    (hnext : ∀ a ∈ head :: l, next' a = next a) (hprev : ∀ a ∈ head :: l, prev' a = prev a) :
    Ring next' prev' head l where
  forward := h.forward.congr hnext
  backward := by
    refine h.backward.congr fun a ha => hprev a ?_
    rwa [List.mem_cons, List.mem_reverse, ← List.mem_cons] at ha
  nodup := h.nodup

variable [DecidableEq α]

/-- A node is taken out of a ring. -/
theorem remove (h : Ring next prev head (rs.reverse ++ x :: bs)) :
    Ring (Function.update next (rs.headD head) (bs.headD head))
      (Function.update prev (bs.headD head) (rs.headD head)) head (rs.reverse ++ bs) := by
  -- the same lemma for both directions
  have hforward : Linked next head (head :: rs.reverse ++ x :: bs) := h.forward
  have hback := h.symm
  rw [reverse_zipper_cons] at hback
  have hbackward : Linked prev head (head :: bs.reverse ++ x :: rs) := hback.forward
  replace hforward := hforward.remove h.nodup
  replace hbackward := hbackward.remove hback.nodup
  rw [getLastD_reverse] at hforward hbackward
  refine ⟨hforward, ?_, ?_⟩
  · rw [reverse_zipper]
    exact hbackward
  · have hnodup : (head :: rs.reverse ++ x :: bs).Nodup := h.nodup
    exact (List.nodup_cons.1 (List.nodup_middle.1 hnodup)).2

/-- A node is put into a ring. -/
theorem insert (h : Ring next prev head (rs.reverse ++ bs)) (hy : y ∉ head :: (rs.reverse ++ bs)) :
    Ring (Function.update (Function.update next (rs.headD head) y) y (bs.headD head))
      (Function.update (Function.update prev (bs.headD head) y) y (rs.headD head)) head
      (rs.reverse ++ y :: bs) := by
  have hyback : y ∉ head :: (rs.reverse ++ bs).reverse := by
    rwa [List.mem_cons, List.mem_reverse, ← List.mem_cons]
  have hback := h.symm
  rw [reverse_zipper] at hback hyback
  have hforward : Linked next head (head :: rs.reverse ++ bs) := h.forward
  have hbackward : Linked prev head (head :: bs.reverse ++ rs) := hback.forward
  replace hforward := hforward.insert h.nodup hy
  replace hbackward := hbackward.insert hback.nodup hyback
  rw [getLastD_reverse] at hforward hbackward
  refine ⟨hforward, ?_, ?_⟩
  · rw [reverse_zipper_cons]
    exact hbackward
  · have hnodup : (y :: (head :: rs.reverse ++ bs)).Nodup := List.nodup_cons.2 ⟨hy, h.nodup⟩
    exact List.nodup_middle.2 hnodup

/-- A node that points to itself both ways is an empty ring. -/
theorem empty (next prev : α → α) (head : α) :
    Ring (Function.update next head head) (Function.update prev head head) head [] where
  forward := ⟨Function.update_self _ _ _, trivial⟩
  backward := ⟨Function.update_self _ _ _, trivial⟩
  nodup := List.nodup_singleton head

/-- The nodes of another chain, which is closed elsewhere, are put into a ring. -/
theorem splice {list : α} {ms : List α} (h : Ring next prev head (rs.reverse ++ bs))
    (g : Ring next prev list ms) (hms : ms ≠ [])
    (hapart : (head :: (rs.reverse ++ bs)).Disjoint ms) :
    Ring (Function.update (Function.update next (rs.headD head) (ms.headD list))
        (ms.reverse.headD list) (bs.headD head))
      (Function.update (Function.update prev (bs.headD head) (ms.reverse.headD list))
        (ms.headD list) (rs.headD head)) head (rs.reverse ++ (ms ++ bs)) := by
  have hnodup : (head :: rs.reverse ++ (ms ++ bs)).Nodup := by
    have hall : (ms ++ (head :: rs.reverse ++ bs)).Nodup :=
      List.nodup_append'.2 ⟨(List.nodup_cons.1 g.nodup).2, h.nodup, hapart.symm⟩
    refine hall.perm ?_
    rw [← List.append_assoc, ← List.append_assoc]
    exact List.perm_append_comm.append_right bs
  have hzipper : (rs.reverse ++ (ms ++ bs)).reverse = bs.reverse ++ (ms.reverse ++ rs) := by
    rw [reverse_zipper, List.reverse_append, List.append_assoc]
  have hreverse : (head :: bs.reverse ++ (ms.reverse ++ rs)).Nodup := by
    rw [List.cons_append, ← hzipper, List.nodup_cons, List.mem_reverse, List.nodup_reverse]
    exact List.nodup_cons.1 hnodup
  have hback := h.symm
  rw [reverse_zipper] at hback
  have hforward : Linked next head (head :: rs.reverse ++ bs) := h.forward
  have hbackward : Linked prev head (head :: bs.reverse ++ rs) := hback.forward
  replace hforward := hforward.splice g.forward.2 hms list hnodup
  replace hbackward := hbackward.splice g.backward.2 (List.reverse_ne_nil_iff.2 hms) list hreverse
  rw [getLastD_reverse] at hforward hbackward
  rw [getLastD_reverse] at hbackward
  refine ⟨?_, ?_, hnodup⟩
  · rw [← getLastD_reverse ms.reverse, List.reverse_reverse]
    exact hforward
  · rw [hzipper]
    exact hbackward

end Ring

end PetKernel.Library
