import PetKernel.Library.Ring

/-!
# Several rings on the same nodes

`Rings next prev lists` says that the links hold one ring for each head that `lists` knows, and that
no node is in two of them. A change of the links of one ring leaves the others alone
(`Rings.replace`), so that what `Ring` says about one ring holds in the family: a node that is in no
ring (`Loose`) is put in (`Rings.insert`) or becomes an empty ring (`Rings.init`), a node is taken
out (`Rings.remove`) and is loose then, and the nodes of one ring are moved to another
(`Rings.splice`).
-/

set_option autoImplicit false

namespace PetKernel.Library

universe u

variable {α : Type u}

/-- The links hold the rings of `lists`, which have no node in common. -/
structure Rings (next prev : α → α) (lists : α → Option (List α)) : Prop where
  ring : ∀ {head l}, lists head = some l → Ring next prev head l
  apart : ∀ {a b l m}, lists a = some l → lists b = some m → a ≠ b → List.Disjoint (a :: l) (b :: m)

/-- The node is in no ring. -/
def Loose (lists : α → Option (List α)) (y : α) : Prop :=
  ∀ head l, lists head = some l → y ∉ head :: l

namespace Rings

variable {next prev next' prev' : α → α} {lists : α → Option (List α)} {head y : α}
  {l rs bs : List α}

/-- Only the nodes of the rings matter. -/
theorem congr (h : Rings next prev lists) (hnext : ∀ a, ¬ Loose lists a → next' a = next a)
    (hprev : ∀ a, ¬ Loose lists a → prev' a = prev a) : Rings next' prev' lists where
  ring {head l} hl :=
    (h.ring hl).congr (fun a ha => hnext a fun hloose => hloose head l hl ha)
      (fun a ha => hprev a fun hloose => hloose head l hl ha)
  apart := h.apart

/-- A node that is in a ring is in no other. -/
theorem eq_of_mem (h : Rings next prev lists) {a b : α} {l m : List α} (hl : lists a = some l)
    (hm : lists b = some m) (hyl : y ∈ a :: l) (hym : y ∈ b :: m) : a = b := by
  by_contra hne
  exact h.apart hl hm hne hyl hym

theorem before_mem (head : α) (rs bs : List α) : rs.headD head ∈ head :: (rs.reverse ++ bs) := by
  cases rs with
  | nil => exact List.mem_cons_self
  | cons r rs => simp

theorem after_mem (head : α) (rs bs : List α) : bs.headD head ∈ head :: (rs.reverse ++ bs) := by
  cases bs with
  | nil => exact List.mem_cons_self
  | cons b bs => simp

theorem headD_mem (hl : l ≠ []) (a : α) : l.headD a ∈ l := by
  obtain ⟨b, l, rfl⟩ := List.exists_cons_of_ne_nil hl
  exact List.mem_cons_self

variable [DecidableEq α]

theorem congr_of_loose (h : Rings next prev lists) (hy : Loose lists y) (p q : α) :
    Rings (Function.update next y p) (Function.update prev y q) lists := by
  refine h.congr (fun a ha => Function.update_of_ne ?_ _ _)
    (fun a ha => Function.update_of_ne ?_ _ _)
  · rintro rfl
    exact ha hy
  · rintro rfl
    exact ha hy

/-- The links of one ring are changed, and those of the others are not. -/
theorem replace (h : Rings next prev lists) (hring : Ring next' prev' head l)
    (hothers : ∀ {b m}, lists b = some m → b ≠ head →
      ∀ a ∈ b :: m, a ∉ head :: l ∧ next' a = next a ∧ prev' a = prev a) :
    Rings next' prev' (Function.update lists head (some l)) where
  ring {b m} hm := by
    by_cases hb : b = head
    · subst hb
      rw [Function.update_self] at hm
      cases hm
      exact hring
    · rw [Function.update_of_ne hb] at hm
      exact (h.ring hm).congr (fun a ha => (hothers hm hb a ha).2.1)
        (fun a ha => (hothers hm hb a ha).2.2)
  apart {a b k m} hk hm hne := by
    by_cases ha : a = head
    · subst ha
      rw [Function.update_self] at hk
      rw [Function.update_of_ne (Ne.symm hne)] at hm
      cases hk
      exact fun c hc hc' => (hothers hm (Ne.symm hne) c hc').1 hc
    · rw [Function.update_of_ne ha] at hk
      by_cases hb : b = head
      · subst hb
        rw [Function.update_self] at hm
        cases hm
        exact fun c hc hc' => (hothers hk ha c hc).1 hc'
      · rw [Function.update_of_ne hb] at hm
        exact h.apart hk hm hne

/-- A ring is forgotten. -/
theorem forget (h : Rings next prev lists) (a : α) :
    Rings next prev (Function.update lists a none) := by
  have hkeep : ∀ {b m}, Function.update lists a none b = some m → lists b = some m := by
    intro b m hm
    by_cases hb : b = a
    · subst hb
      rw [Function.update_self] at hm
      cases hm
    · rwa [Function.update_of_ne hb] at hm
  exact ⟨fun hl => h.ring (hkeep hl), fun hl hm => h.apart (hkeep hl) (hkeep hm)⟩

/-- A node that is not inside a ring becomes an empty ring. -/
theorem init (h : Rings next prev lists) (hy : ∀ head l, lists head = some l → y ∉ l) :
    Rings (Function.update next y y) (Function.update prev y y)
    (Function.update lists y (some [])) := by
  refine h.replace (Ring.empty next prev y) fun {b m} hm hb a ha => ?_
  have hay : a ≠ y := by
    rintro rfl
    rcases List.mem_cons.1 ha with heq | hmem
    · exact hb heq.symm
    · exact hy b m hm hmem
  exact ⟨fun hmem => hay (List.mem_singleton.1 hmem), Function.update_of_ne hay _ _,
    Function.update_of_ne hay _ _⟩

/-- A loose node is put into a ring. -/
theorem insert (h : Rings next prev lists) (hl : lists head = some (rs.reverse ++ bs))
    (hy : Loose lists y) :
    Rings (Function.update (Function.update next (rs.headD head) y) y (bs.headD head))
      (Function.update (Function.update prev (bs.headD head) y) y (rs.headD head))
      (Function.update lists head (some (rs.reverse ++ y :: bs))) := by
  refine h.replace ((h.ring hl).insert (hy head _ hl)) fun {b m} hm hb a ha => ?_
  have hay : a ≠ y := fun heq => hy b m hm (heq ▸ ha)
  have hout : a ∉ head :: (rs.reverse ++ bs) := fun hmem => h.apart hm hl hb ha hmem
  have hbefore : a ≠ rs.headD head := fun heq => hout (heq ▸ before_mem head rs bs)
  have hafter : a ≠ bs.headD head := fun heq => hout (heq ▸ after_mem head rs bs)
  refine ⟨?_, ?_, ?_⟩
  · intro hmem
    rw [← List.cons_append] at hmem hout
    rcases List.mem_cons.1 ((List.perm_middle).subset hmem) with heq | hmem
    · exact hay heq
    · exact hout hmem
  · rw [Function.update_of_ne hay, Function.update_of_ne hbefore]
  · rw [Function.update_of_ne hay, Function.update_of_ne hafter]

/-- A node is taken out of its ring. -/
theorem remove (h : Rings next prev lists) (hl : lists head = some (rs.reverse ++ y :: bs)) :
    Rings (Function.update next (rs.headD head) (bs.headD head))
      (Function.update prev (bs.headD head) (rs.headD head))
      (Function.update lists head (some (rs.reverse ++ bs))) := by
  have hsub : head :: (rs.reverse ++ bs) ⊆ head :: (rs.reverse ++ y :: bs) :=
    (((List.sublist_cons_self y bs).append_left rs.reverse).cons_cons head).subset
  refine h.replace (h.ring hl).remove fun {b m} hm hb a ha => ?_
  have hout : a ∉ head :: (rs.reverse ++ bs) := fun hmem => h.apart hm hl hb ha (hsub hmem)
  refine ⟨hout, Function.update_of_ne ?_ _ _, Function.update_of_ne ?_ _ _⟩
  · exact fun heq => hout (heq ▸ before_mem head rs bs)
  · exact fun heq => hout (heq ▸ after_mem head rs bs)

/-- After that it is loose. -/
theorem loose_of_remove (h : Rings next prev lists)
    (hl : lists head = some (rs.reverse ++ y :: bs)) :
    Loose (Function.update lists head (some (rs.reverse ++ bs))) y := by
  intro b m hm hmem
  by_cases hb : b = head
  · subst hb
    rw [Function.update_self] at hm
    cases hm
    have hnodup : (b :: rs.reverse ++ y :: bs).Nodup := (h.ring hl).nodup
    exact (List.nodup_cons.1 (List.nodup_middle.1 hnodup)).1 hmem
  · rw [Function.update_of_ne hb] at hm
    exact h.apart hm hl hb hmem (List.mem_cons_of_mem head
      (List.mem_append_right _ List.mem_cons_self))

/-- The nodes of the ring of `list` are moved into another ring. -/
theorem splice {list : α} {ms : List α} (h : Rings next prev lists)
    (hl : lists head = some (rs.reverse ++ bs)) (hm : lists list = some ms) (hne : list ≠ head)
    (hms : ms ≠ []) :
    Rings (Function.update (Function.update next (rs.headD head) (ms.headD list))
        (ms.reverse.headD list) (bs.headD head))
      (Function.update (Function.update prev (bs.headD head) (ms.reverse.headD list))
        (ms.headD list) (rs.headD head))
      (Function.update (Function.update lists list none) head
        (some (rs.reverse ++ (ms ++ bs)))) := by
  have hapart := h.apart hl hm (Ne.symm hne)
  have hring := (h.ring hl).splice (h.ring hm) hms
    fun a ha hmem => hapart ha (List.mem_cons_of_mem list hmem)
  refine (h.forget list).replace hring fun {b k} hk hb a ha => ?_
  have hbl : b ≠ list := by
    rintro rfl
    rw [Function.update_self] at hk
    cases hk
  rw [Function.update_of_ne hbl] at hk
  have hout : a ∉ head :: (rs.reverse ++ bs) := fun hmem => h.apart hk hl hb ha hmem
  have hout' : a ∉ ms := fun hmem => h.apart hk hm hbl ha (List.mem_cons_of_mem list hmem)
  have hbefore : a ≠ rs.headD head := fun heq => hout (heq ▸ before_mem head rs bs)
  have hafter : a ≠ bs.headD head := fun heq => hout (heq ▸ after_mem head rs bs)
  have hfirst : a ≠ ms.headD list := fun heq => hout' (heq ▸ headD_mem hms list)
  have hlast : a ≠ ms.reverse.headD list := fun heq =>
    hout' (List.mem_reverse.1 (heq ▸ headD_mem (List.reverse_ne_nil_iff.2 hms) list))
  refine ⟨?_, ?_, ?_⟩
  · simp only [List.mem_cons, List.mem_append] at hout hout' ⊢
    tauto
  · rw [Function.update_of_ne hlast, Function.update_of_ne hbefore]
  · rw [Function.update_of_ne hfirst, Function.update_of_ne hafter]

/-- After that the head they came from is loose. -/
theorem loose_of_splice {list : α} {ms : List α} (h : Rings next prev lists)
    (hl : lists head = some (rs.reverse ++ bs)) (hm : lists list = some ms) (hne : list ≠ head) :
    Loose (Function.update (Function.update lists list none) head (some (rs.reverse ++ (ms ++ bs))))
      list := by
  intro b k hk hmem
  by_cases hb : b = head
  · subst hb
    rw [Function.update_self] at hk
    cases hk
    have hnot : list ∉ b :: (rs.reverse ++ bs) := h.apart hm hl hne List.mem_cons_self
    have hnot' : list ∉ ms := (List.nodup_cons.1 (h.ring hm).nodup).1
    simp only [List.mem_cons, List.mem_append] at hmem hnot
    tauto
  · rw [Function.update_of_ne hb] at hk
    by_cases hbl : b = list
    · subst hbl
      rw [Function.update_self] at hk
      cases hk
    · rw [Function.update_of_ne hbl] at hk
      exact h.apart hk hm hbl hmem List.mem_cons_self

end Rings

end PetKernel.Library
