import PetKernel.Library.Machine
import PetKernel.Library.RingFamily

/-!
# The intrusive lists

A model of the doubly linked lists of `user_threads/pet_list.h`. A `struct list_head` is either the
head of a list or a member of some other object, and the functions know it by its address only. The
heap holds the two links of every address; to follow a link to memory that is not allocated is a
page fault, and the two poison values are such links.

`ListHeap.Holds` says that a heap holds a family of lists. Every function does to such a heap what
one expects of it on lists, and it does not fault (`ListOp.run_holds`). So every sequence of calls
on any number of lists is a sequence of operations on lists (`pet_lists_refine`): an entry that is
moved, deleted or spliced is in no other list than the model says, and a walk over a list finds the
entries in order, in both directions.

The loops are macros around a body of the caller. `list_for_each_entry_safe` reads the next link
before the body runs, which the body may use to take the entry out (`safe_loop_moves_all`);
`list_for_each_entry` reads it after the body (`plain_loop_faults`).
-/

set_option autoImplicit false

namespace PetKernel.UserThreads

open PetKernel.Library

/-! ## The heap -/

/-- `LIST_POISON1` and `LIST_POISON2`. -/
class ListPoison (α : Type) where
  listPoison1 : α
  listPoison2 : α

instance : ListPoison Nat := ⟨0x00100100, 0x00200200⟩

/-- How a call can go wrong. -/
inductive ListFault (α : Type) where
  /-- A link to memory that is not allocated is followed. -/
  | pageFault (p : α)
  /-- A loop takes more turns than there are entries. -/
  | endless
deriving DecidableEq, Repr

/-- The links by their addresses, and the addresses that are allocated. -/
structure ListHeap (α : Type) where
  live : List α
  next : α → α
  prev : α → α

namespace ListHeap

variable {α : Type} [DecidableEq α]

/-- `p->next` as a value. -/
def readNext (h : ListHeap α) (p : α) : Except (ListFault α) α :=
  if p ∈ h.live then .ok (h.next p) else .error (.pageFault p)

/-- `p->prev` as a value. -/
def readPrev (h : ListHeap α) (p : α) : Except (ListFault α) α :=
  if p ∈ h.live then .ok (h.prev p) else .error (.pageFault p)

/-- `p->next = v`. -/
def writeNext (h : ListHeap α) (p v : α) : Except (ListFault α) (ListHeap α) :=
  if p ∈ h.live then .ok { h with next := Function.update h.next p v } else .error (.pageFault p)

/-- `p->prev = v`. -/
def writePrev (h : ListHeap α) (p v : α) : Except (ListFault α) (ListHeap α) :=
  if p ∈ h.live then .ok { h with prev := Function.update h.prev p v } else .error (.pageFault p)

/-! ## The functions of the source -/

/-- `INIT_LIST_HEAD`. -/
def initListHead (h : ListHeap α) (list : α) : Except (ListFault α) (ListHeap α) := do
  let h ← h.writeNext list list
  h.writePrev list list

/-- `list_head_init`. -/
def listHeadInit (h : ListHeap α) (list : α) : Except (ListFault α) (ListHeap α) :=
  h.initListHead list

/-- `__list_add`. -/
def listAddBetween (h : ListHeap α) (new prev next : α) : Except (ListFault α) (ListHeap α) := do
  let h ← h.writePrev next new
  let h ← h.writeNext new next
  let h ← h.writePrev new prev
  h.writeNext prev new

/-- `list_add`. -/
def listAdd (h : ListHeap α) (new head : α) : Except (ListFault α) (ListHeap α) := do
  let next ← h.readNext head
  h.listAddBetween new head next

/-- `list_add_tail`. -/
def listAddTail (h : ListHeap α) (new head : α) : Except (ListFault α) (ListHeap α) := do
  let prev ← h.readPrev head
  h.listAddBetween new prev head

/-- `__list_del`. -/
def listDelBetween (h : ListHeap α) (prev next : α) : Except (ListFault α) (ListHeap α) := do
  let h ← h.writePrev next prev
  h.writeNext prev next

/-- The call `__list_del(entry->prev, entry->next)`. -/
def listUnlink (h : ListHeap α) (entry : α) : Except (ListFault α) (ListHeap α) := do
  let prev ← h.readPrev entry
  let next ← h.readNext entry
  h.listDelBetween prev next

/-- `list_del`. -/
def listDel [ListPoison α] (h : ListHeap α) (entry : α) : Except (ListFault α) (ListHeap α) := do
  let h ← h.listUnlink entry
  let h ← h.writeNext entry ListPoison.listPoison1
  h.writePrev entry ListPoison.listPoison2

/-- `list_del_init`. -/
def listDelInit (h : ListHeap α) (entry : α) : Except (ListFault α) (ListHeap α) := do
  let h ← h.listUnlink entry
  h.initListHead entry

/-- `list_move`. -/
def listMove (h : ListHeap α) (list head : α) : Except (ListFault α) (ListHeap α) := do
  let h ← h.listUnlink list
  h.listAdd list head

/-- `list_move_tail`. -/
def listMoveTail (h : ListHeap α) (list head : α) : Except (ListFault α) (ListHeap α) := do
  let h ← h.listUnlink list
  h.listAddTail list head

/-- `list_empty`. -/
def listEmpty (h : ListHeap α) (head : α) : Except (ListFault α) Bool := do
  let next ← h.readNext head
  return next = head

/-- `list_empty_careful`. -/
def listEmptyCareful (h : ListHeap α) (head : α) : Except (ListFault α) Bool := do
  let next ← h.readNext head
  if next = head then do
    let prev ← h.readPrev head
    return next = prev
  else return false

/-- `__list_splice`. -/
def listSpliceNonempty (h : ListHeap α) (list head : α) : Except (ListFault α) (ListHeap α) := do
  let first ← h.readNext list
  let last ← h.readPrev list
  let place ← h.readNext head
  let h ← h.writePrev first head
  let h ← h.writeNext head first
  let h ← h.writeNext last place
  h.writePrev place last

/-- `list_splice`. -/
def listSplice (h : ListHeap α) (list head : α) : Except (ListFault α) (ListHeap α) := do
  if ← h.listEmpty list then return h
  else h.listSpliceNonempty list head

/-- `list_splice_init`. -/
def listSpliceInit (h : ListHeap α) (list head : α) : Except (ListFault α) (ListHeap α) := do
  if ← h.listEmpty list then return h
  else do
    let h ← h.listSpliceNonempty list head
    h.initListHead list

end ListHeap

/-! ## The loops

The state `σ` of the caller has the heap in it, and `link` follows a link there: `next`, or `prev`
in the loops that go backwards. A loop is run for at most as many turns as its fuel says. -/

section Loops

variable {α σ ε : Type} [DecidableEq α]

/-- The turns of `list_for_each_entry`. The condition reads the link of `pos` for `prefetch`. -/
def forEachLoop (endless : ε) (link : σ → α → Except ε α) (body : α → σ → Except ε σ) (head : α) :
    Nat → σ → α → Except ε σ
  | 0, _, _ => .error endless
  | fuel + 1, s, pos => do
      let _ ← link s pos
      if pos = head then return s
      else do
        let s ← body pos s
        let pos ← link s pos
        forEachLoop endless link body head fuel s pos

/-- The turns of a `list_for_each_entry` whose body leaves the loop at an entry, and does nothing
else. -/
def findEntryLoop (endless : ε) (link : α → Except ε α) (stop : α → Bool) (head : α) :
    Nat → α → Except ε (Option α)
  | 0, _ => .error endless
  | fuel + 1, pos => do
      let next ← link pos
      if pos = head then return none
      else if stop pos then return some pos
      else findEntryLoop endless link stop head fuel next

/-- The turns of `list_for_each_entry_safe`. -/
def forEachSafeLoop (endless : ε) (link : σ → α → Except ε α) (body : α → σ → Except ε σ)
    (head : α) : Nat → σ → α → α → Except ε σ
  | 0, _, _, _ => .error endless
  | fuel + 1, s, pos, n =>
      if pos = head then .ok s
      else do
        let s ← body pos s
        let next ← link s n
        forEachSafeLoop endless link body head fuel s n next

namespace ListHeap

/-- The entries that `list_for_each` visits. -/
def listForEach (h : ListHeap α) (head : α) : Except (ListFault α) (List α) := do
  let pos ← h.readNext head
  forEachLoop .endless (fun _ => h.readNext) (fun pos visited => .ok (visited ++ [pos])) head
    h.live.length [] pos

/-- The entries that `list_for_each_prev` visits. -/
def listForEachPrev (h : ListHeap α) (head : α) : Except (ListFault α) (List α) := do
  let pos ← h.readPrev head
  forEachLoop .endless (fun _ => h.readPrev) (fun pos visited => .ok (visited ++ [pos])) head
    h.live.length [] pos

/-- The entry at which the body of a `list_for_each_entry` leaves the loop. -/
def listFindEntry (h : ListHeap α) (head : α) (stop : α → Bool) :
    Except (ListFault α) (Option α) := do
  let pos ← h.readNext head
  findEntryLoop .endless h.readNext stop head h.live.length pos

/-- `list_for_each` with a body that changes the heap. -/
def listForEachDo (h : ListHeap α) (head : α)
    (body : α → ListHeap α → Except (ListFault α) (ListHeap α)) :
    Except (ListFault α) (ListHeap α) := do
  let pos ← h.readNext head
  forEachLoop .endless ListHeap.readNext body head h.live.length h pos

/-- `list_for_each_safe`. -/
def listForEachSafe (h : ListHeap α) (head : α)
    (body : α → ListHeap α → Except (ListFault α) (ListHeap α)) :
    Except (ListFault α) (ListHeap α) := do
  let pos ← h.readNext head
  let n ← h.readNext pos
  forEachSafeLoop .endless ListHeap.readNext body head h.live.length h pos n

end ListHeap

end Loops

/-! ## Heaps that hold lists -/

/-- The lists by their heads. -/
abbrev Lists (α : Type) := α → Option (List α)

/-- The lists without an entry. -/
def Lists.unlink {α : Type} [DecidableEq α] (lists : Lists α) (entry : α) : Lists α :=
  fun head => (lists head).map fun l => l.erase entry

namespace ListHeap

variable {α : Type} {h : ListHeap α} {lists : Lists α} {head p new entry list : α} {l m : List α}

/-- The heap holds the lists, in memory that is allocated. -/
structure Holds (h : ListHeap α) (lists : Lists α) : Prop extends Rings h.next h.prev lists where
  live : ∀ {head l}, lists head = some l → head :: l ⊆ h.live

/-- The call ends without a fault, and the heap holds the lists then. -/
def Gives (r : Except (ListFault α) (ListHeap α)) (live : List α) (lists : Lists α) : Prop :=
  ∃ h, r = .ok h ∧ h.live = live ∧ h.Holds lists

theorem holds_none (h : ListHeap α) : h.Holds fun _ => none where
  ring hl := by cases hl
  apart hl := by cases hl
  live hl := by cases hl

theorem Holds.head_mem (hh : h.Holds lists) (hl : lists head = some l) : head ∈ h.live :=
  hh.live hl List.mem_cons_self

theorem Holds.entry_mem (hh : h.Holds lists) (hl : lists head = some l) (hp : p ∈ l) : p ∈ h.live :=
  hh.live hl (List.mem_cons_of_mem head hp)

theorem Holds.headD_eq_iff (hh : h.Holds lists) (hl : lists head = some l) :
    l.headD head = head ↔ l = [] := by
  cases l with
  | nil => simp
  | cons a l =>
      have hne : a ≠ head := fun heq => (List.nodup_cons.1 (hh.ring hl).nodup).1
        (heq ▸ List.mem_cons_self)
      simp [hne]

/-- More memory is allocated. -/
theorem Holds.of_live {live : List α} (hh : h.Holds lists) (hsub : h.live ⊆ live) :
    Holds { h with live := live } lists :=
  ⟨hh.toRings, fun hl => List.Subset.trans (hh.live hl) hsub⟩

/-- A loop over a list has enough turns. -/
theorem Holds.length_lt (hh : h.Holds lists) (hl : lists head = some l) :
    l.length < h.live.length :=
  (List.subperm_of_subset (hh.ring hl).nodup (hh.live hl)).length_le

/-- Calls that do not fault, one after the other. -/
theorem Gives.bind {r : Except (ListFault α) (ListHeap α)}
    {f : ListHeap α → Except (ListFault α) (ListHeap α)} {live : List α} {lists' : Lists α}
    (hr : Gives r live lists) (hf : ∀ h, h.live = live → h.Holds lists → Gives (f h) live lists') :
    Gives (r >>= f) live lists' := by
  obtain ⟨h, rfl, hlive, hh⟩ := hr
  exact hf h hlive hh

variable [DecidableEq α]

theorem readNext_of_mem (hp : p ∈ h.live) : h.readNext p = .ok (h.next p) := if_pos hp

theorem readPrev_of_mem (hp : p ∈ h.live) : h.readPrev p = .ok (h.prev p) := if_pos hp

theorem Holds.readNext_head (hh : h.Holds lists) (hl : lists head = some l) :
    h.readNext head = .ok (l.headD head) := by
  rw [readNext_of_mem (hh.head_mem hl), (hh.ring hl).next_head]

theorem Holds.readPrev_head (hh : h.Holds lists) (hl : lists head = some l) :
    h.readPrev head = .ok (l.reverse.headD head) := by
  rw [readPrev_of_mem (hh.head_mem hl), (hh.ring hl).symm.next_head]

/-! ### Writes -/

theorem initListHead_of_mem (hp : list ∈ h.live) : h.initListHead list =
    .ok ⟨h.live, Function.update h.next list list, Function.update h.prev list list⟩ := by
  simp only [initListHead, writeNext, writePrev, hp, if_true, bind, Except.bind]

theorem listAddBetween_of_mem {prev next : α} (hnew : new ∈ h.live) (hprev : prev ∈ h.live)
    (hnext : next ∈ h.live) : h.listAddBetween new prev next =
      .ok ⟨h.live, Function.update (Function.update h.next new next) prev new,
        Function.update (Function.update h.prev next new) new prev⟩ := by
  simp only [listAddBetween, writePrev, writeNext, hnew, hprev, hnext, if_true, bind, Except.bind]

theorem listUnlink_of_mem (hentry : entry ∈ h.live) (hprev : h.prev entry ∈ h.live)
    (hnext : h.next entry ∈ h.live) : h.listUnlink entry =
      .ok ⟨h.live, Function.update h.next (h.prev entry) (h.next entry),
        Function.update h.prev (h.next entry) (h.prev entry)⟩ := by
  simp only [listUnlink, listDelBetween, readPrev, readNext, writePrev, writeNext, hentry,
    hprev, hnext, if_true, bind, Except.bind]

/-! ### What the functions do to the lists -/

/-- The links are written such that one list changes, which stays in allocated memory. -/
theorem Holds.of_update {next prev : α → α} (hh : h.Holds lists)
    (hrings : Rings next prev (Function.update lists head (some l))) (hsub : head :: l ⊆ h.live) :
    Holds ⟨h.live, next, prev⟩ (Function.update lists head (some l)) := by
  refine ⟨hrings, fun {a m} hm => ?_⟩
  by_cases ha : a = head
  · subst ha
    rw [Function.update_self] at hm
    cases hm
    exact hsub
  · rw [Function.update_of_ne ha] at hm
    exact hh.live hm

/-- Memory that is in no list is freed. -/
theorem Holds.free {live : List α} (hh : h.Holds lists)
    (hloose : ∀ a ∈ h.live, a ∉ live → Loose lists a) : Holds { h with live := live } lists := by
  refine ⟨hh.toRings, fun {head l} hl a ha => ?_⟩
  by_contra hnot
  exact hloose a (hh.live hl ha) hnot head l hl ha

theorem Holds.forget (hh : h.Holds lists) (a : α) : h.Holds (Function.update lists a none) := by
  refine ⟨hh.toRings.forget a, fun {b m} hm => ?_⟩
  by_cases hb : b = a
  · subst hb
    rw [Function.update_self] at hm
    cases hm
  · rw [Function.update_of_ne hb] at hm
    exact hh.live hm

/-- A head is initialised. Its old entries, if it had any, are in no list then. -/
theorem Holds.initListHead (hh : h.Holds lists) (hp : list ∈ h.live)
    (hnot : ∀ head l, lists head = some l → list ∉ l) :
    Gives (h.initListHead list) h.live (Function.update lists list (some [])) :=
  ⟨_, initListHead_of_mem hp, rfl,
    hh.of_update (hh.toRings.init hnot) (List.cons_subset.2 ⟨hp, List.nil_subset _⟩)⟩

/-- A loose entry is put in at a place of a list. -/
theorem Holds.listAddBetween {rs bs : List α} (hh : h.Holds lists)
    (hl : lists head = some (rs.reverse ++ bs)) (hnew : Loose lists new) (hlive : new ∈ h.live) :
    Gives (h.listAddBetween new (rs.headD head) (bs.headD head)) h.live
      (Function.update lists head (some (rs.reverse ++ new :: bs))) := by
  have hbefore := Rings.before_mem head rs bs
  have hafter := Rings.after_mem head rs bs
  have hne : rs.headD head ≠ new := fun heq => hnew head _ hl (heq ▸ hbefore)
  have hsub : head :: (rs.reverse ++ new :: bs) ⊆ h.live := by
    have hperm : head :: (rs.reverse ++ new :: bs) ⊆ new :: (head :: (rs.reverse ++ bs)) :=
      (@List.perm_middle _ new (head :: rs.reverse) bs).subset
    exact List.Subset.trans hperm (List.cons_subset.2 ⟨hlive, hh.live hl⟩)
  refine ⟨_, listAddBetween_of_mem hlive (hh.live hl hbefore) (hh.live hl hafter), rfl, ?_⟩
  rw [Function.update_comm hne.symm]
  exact hh.of_update (hh.toRings.insert hl hnew) hsub

theorem Holds.listAdd (hh : h.Holds lists) (hl : lists head = some l) (hnew : Loose lists new)
    (hlive : new ∈ h.live) :
    Gives (h.listAdd new head) h.live (Function.update lists head (some (new :: l))) := by
  have hplace : lists head = some (([] : List α).reverse ++ l) := hl
  simp only [ListHeap.listAdd, hh.readNext_head hl, bind, Except.bind]
  exact hh.listAddBetween hplace hnew hlive

theorem Holds.listAddTail (hh : h.Holds lists) (hl : lists head = some l) (hnew : Loose lists new)
    (hlive : new ∈ h.live) :
    Gives (h.listAddTail new head) h.live (Function.update lists head (some (l ++ [new]))) := by
  have hplace : lists head = some (l.reverse.reverse ++ []) := by
    rw [List.reverse_reverse, List.append_nil, hl]
  have hgives := hh.listAddBetween hplace hnew hlive
  rw [List.reverse_reverse] at hgives
  simp only [ListHeap.listAddTail, hh.readPrev_head hl, bind, Except.bind]
  exact hgives

theorem unlink_of_mem (hrings : Rings h.next h.prev lists) (hl : lists head = some l)
    (hentry : entry ∈ l) :
    lists.unlink entry = Function.update lists head (some (l.erase entry)) := by
  funext a
  by_cases ha : a = head
  · subst ha
    rw [Function.update_self, Lists.unlink, hl]
    rfl
  · rw [Function.update_of_ne ha, Lists.unlink]
    cases hm : lists a with
    | none => rfl
    | some m =>
        -- the entry is not in another list
        have hnot : entry ∉ m := fun hmem => hrings.apart hm hl ha (List.mem_cons_of_mem a hmem)
          (List.mem_cons_of_mem head hentry)
        rw [Option.map_some, List.erase_of_not_mem hnot]

/-- An entry is taken out of its list. -/
theorem Holds.listUnlink (hh : h.Holds lists) (hl : lists head = some l) (hentry : entry ∈ l) :
    Gives (h.listUnlink entry) h.live (lists.unlink entry) ∧ Loose (lists.unlink entry) entry := by
  rw [unlink_of_mem hh.toRings hl hentry]
  have hlive := hh.entry_mem hl hentry
  obtain ⟨us, bs, -, rfl, herase⟩ := List.exists_erase_eq hentry
  obtain ⟨rs, rfl⟩ : ∃ rs, us = List.reverse rs := ⟨us.reverse, (List.reverse_reverse us).symm⟩
  rw [herase]
  have hring := hh.ring hl
  have hsub : head :: (rs.reverse ++ bs) ⊆ h.live :=
    List.Subset.trans (((List.sublist_cons_self entry bs).append_left rs.reverse).cons_cons
      head).subset (hh.live hl)
  have hprev : h.prev entry = rs.headD head := hring.prev_eq
  have hnext : h.next entry = bs.headD head := hring.next_eq
  have hunlink := listUnlink_of_mem hlive (hprev ▸ hsub (Rings.before_mem head rs bs))
    (hnext ▸ hsub (Rings.after_mem head rs bs))
  rw [hprev, hnext] at hunlink
  exact ⟨⟨_, hunlink, rfl, hh.of_update (hh.toRings.remove hl) hsub⟩, hh.toRings.loose_of_remove hl⟩

/-- An entry is taken out of its list, and then something is done with it. -/
theorem Holds.unlink_bind {f : ListHeap α → Except (ListFault α) (ListHeap α)} {lists' : Lists α}
    (hh : h.Holds lists) (hl : lists head = some l) (hentry : entry ∈ l)
    (hf : ∀ h₁ : ListHeap α, h₁.Holds (lists.unlink entry) → Loose (lists.unlink entry) entry →
      entry ∈ h₁.live → Gives (f h₁) h₁.live lists') :
    Gives (h.listUnlink entry >>= f) h.live lists' := by
  obtain ⟨hgives, hloose⟩ := hh.listUnlink hl hentry
  refine hgives.bind fun h₁ hlive hh₁ => ?_
  rw [← hlive]
  exact hf h₁ hh₁ hloose (hlive ▸ hh.entry_mem hl hentry)

theorem Holds.listDel [ListPoison α] (hh : h.Holds lists) (hl : lists head = some l)
    (hentry : entry ∈ l) : Gives (h.listDel entry) h.live (lists.unlink entry) := by
  refine hh.unlink_bind hl hentry fun h₁ hh₁ hloose hmem => ?_
  refine ⟨⟨h₁.live, Function.update h₁.next entry ListPoison.listPoison1,
    Function.update h₁.prev entry ListPoison.listPoison2⟩, ?_, rfl, ?_, hh₁.live⟩
  · simp only [writeNext, writePrev, hmem, if_true, bind, Except.bind]
  · exact hh₁.toRings.congr_of_loose hloose _ _

theorem Holds.listDelInit (hh : h.Holds lists) (hl : lists head = some l) (hentry : entry ∈ l) :
    Gives (h.listDelInit entry) h.live (Function.update (lists.unlink entry) entry (some [])) :=
  hh.unlink_bind hl hentry fun _ hh₁ hloose hmem =>
    hh₁.initListHead hmem fun a m hm hin => hloose a m hm (List.mem_cons_of_mem a hin)

theorem unlink_eq_some (hl : lists head = some l) :
    lists.unlink entry head = some (l.erase entry) := by
  rw [Lists.unlink, hl]
  rfl

theorem Holds.listMove (hh : h.Holds lists) (hl : lists p = some l) (hentry : entry ∈ l)
    (hm : lists head = some m) :
    Gives (h.listMove entry head) h.live
      (Function.update (lists.unlink entry) head (some (entry :: m.erase entry))) :=
  hh.unlink_bind hl hentry fun _ hh₁ hloose hmem => hh₁.listAdd (unlink_eq_some hm) hloose hmem

theorem Holds.listMoveTail (hh : h.Holds lists) (hl : lists p = some l) (hentry : entry ∈ l)
    (hm : lists head = some m) :
    Gives (h.listMoveTail entry head) h.live
      (Function.update (lists.unlink entry) head (some (m.erase entry ++ [entry]))) :=
  hh.unlink_bind hl hentry fun _ hh₁ hloose hmem => hh₁.listAddTail (unlink_eq_some hm) hloose hmem

/-- `list_empty` finds out whether the list is empty. -/
theorem Holds.listEmpty (hh : h.Holds lists) (hl : lists head = some l) :
    h.listEmpty head = .ok (decide (l = [])) := by
  simp only [ListHeap.listEmpty, hh.readNext_head hl, bind, Except.bind, hh.headD_eq_iff hl]
  rfl

theorem Holds.listEmptyCareful (hh : h.Holds lists) (hl : lists head = some l) :
    h.listEmptyCareful head = .ok (decide (l = [])) := by
  simp only [ListHeap.listEmptyCareful, hh.readNext_head hl, hh.readPrev_head hl, bind, Except.bind,
    hh.headD_eq_iff hl]
  by_cases hnil : l = []
  · subst hnil
    rw [if_pos rfl]
    exact congrArg Except.ok (decide_eq_decide.2 (iff_of_true rfl rfl))
  · rw [if_neg hnil, decide_eq_false hnil]
    rfl

/-- `__list_splice`: the entries of the list are in front of those of the other, and `list` is no
longer the head of a list. -/
theorem Holds.listSpliceNonempty (hh : h.Holds lists) (hl : lists head = some l)
    (hm : lists list = some m) (hne : list ≠ head) (hnil : m ≠ []) :
    Gives (h.listSpliceNonempty list head) h.live
      (Function.update (Function.update lists list none) head (some (m ++ l))) := by
  have hplace : lists head = some (([] : List α).reverse ++ l) := hl
  have hsplice := hh.toRings.splice hplace hm hne hnil
  have hhead := hh.head_mem hl
  have hfirst : m.headD list ∈ h.live := hh.entry_mem hm (Rings.headD_mem hnil list)
  have hlast : m.reverse.headD list ∈ h.live :=
    hh.entry_mem hm (List.mem_reverse.1 (Rings.headD_mem (List.reverse_ne_nil_iff.2 hnil) list))
  have hat : l.headD head ∈ h.live := hh.live hl (Rings.after_mem head [] l)
  -- the first entry of `list` is not the first one of `head`, so that the two writes commute
  have hcomm : m.headD list ≠ l.headD head := fun heq =>
    hh.apart hm hl hne (List.mem_cons_of_mem list (Rings.headD_mem hnil list))
      (heq ▸ Rings.after_mem head [] l)
  refine ⟨⟨h.live, Function.update (Function.update h.next head (m.headD list))
      (m.reverse.headD list) (l.headD head),
      Function.update (Function.update h.prev (m.headD list) head)
      (l.headD head) (m.reverse.headD list)⟩, ?_, rfl, ?_⟩
  · simp only [ListHeap.listSpliceNonempty, hh.readNext_head hl, hh.readNext_head hm,
      hh.readPrev_head hm, writePrev, writeNext, hhead, hfirst, hlast, hat, if_true, bind,
      Except.bind]
  · rw [Function.update_comm hcomm]
    refine (hh.forget list).of_update hsplice (List.cons_subset.2 ⟨hhead, ?_⟩)
    exact List.append_subset.2 ⟨fun a ha => hh.entry_mem hm ha, fun a ha => hh.entry_mem hl ha⟩

/-- `list_splice`. When `list` is empty it stays an empty list. -/
theorem Holds.listSplice (hh : h.Holds lists) (hl : lists head = some l) (hm : lists list = some m)
    (hne : list ≠ head) :
    Gives (h.listSplice list head) h.live
      (if m = [] then lists else Function.update (Function.update lists list none) head
        (some (m ++ l))) := by
  simp only [ListHeap.listSplice, hh.listEmpty hm, bind, Except.bind]
  by_cases hnil : m = []
  · rw [if_pos hnil, if_pos (decide_eq_true hnil)]
    exact ⟨h, rfl, rfl, hh⟩
  · rw [if_neg hnil, if_neg (decide_eq_false hnil ▸ Bool.false_ne_true)]
    exact hh.listSpliceNonempty hl hm hne hnil

theorem Holds.listSpliceInit (hh : h.Holds lists) (hl : lists head = some l)
    (hm : lists list = some m) (hne : list ≠ head) :
    Gives (h.listSpliceInit list head) h.live
      (Function.update (Function.update lists head (some (m ++ l))) list (some [])) := by
  simp only [ListHeap.listSpliceInit, hh.listEmpty hm]
  by_cases hnil : m = []
  · subst hnil
    refine ⟨h, rfl, rfl, ?_⟩
    rw [List.nil_append, ← hl, Function.update_eq_self, ← hm, Function.update_eq_self]
    exact hh
  · have hfalse : ¬ decide (m = []) = true := decide_eq_false hnil ▸ Bool.false_ne_true
    simp only [bind, Except.bind, if_neg hfalse]
    refine (hh.listSpliceNonempty hl hm hne hnil).bind fun h₁ hlive hh₁ => ?_
    have hplace : lists head = some (([] : List α).reverse ++ l) := hl
    have hloose := hh.toRings.loose_of_splice hplace hm hne
    have hgives := hh₁.initListHead (hlive ▸ hh.head_mem hm)
      fun a k hk hin => hloose a k hk (List.mem_cons_of_mem a hin)
    rw [Function.update_comm hne, Function.update_idem, hlive] at hgives
    exact hgives

end ListHeap

/-! ## The turns of the loops -/

section Turns

variable {α σ ε : Type} [DecidableEq α] {endless : ε} {head : α} {next : α → α}

/-- A walk along links that do not change visits the rest of the chain. -/
theorem forEachLoop_visits {link : α → Except ε α} {bs : List α} (hlinked : Linked next head bs)
    (hlink : ∀ a ∈ head :: bs, link a = .ok (next a)) (hnot : head ∉ bs) {fuel : Nat}
    (hfuel : bs.length < fuel) (visited : List α) :
    forEachLoop endless (fun _ => link) (fun pos visited => .ok (visited ++ [pos])) head
      fuel visited (bs.headD head) = .ok (visited ++ bs) := by
  induction bs generalizing fuel visited with
  | nil =>
      obtain ⟨fuel, rfl⟩ := Nat.exists_eq_succ_of_ne_zero (Nat.ne_of_gt hfuel)
      have hhead : link head = .ok (next head) := hlink head List.mem_cons_self
      simp only [forEachLoop, List.headD_nil, hhead, bind, Except.bind, if_true, List.append_nil]
      rfl
  | cons b bs ih =>
      obtain ⟨fuel, rfl⟩ := Nat.exists_eq_succ_of_ne_zero (Nat.ne_of_gt (Nat.zero_lt_of_lt hfuel))
      obtain ⟨hne, hnot⟩ := List.ne_and_not_mem_of_not_mem_cons hnot
      have hb : link b = .ok (bs.headD head) := by
        rw [hlink b (List.mem_cons_of_mem head List.mem_cons_self), hlinked.1]
      simp only [forEachLoop, List.headD_cons, hb, bind, Except.bind, if_neg (Ne.symm hne)]
      have hrest := ih hlinked.2
        (fun a ha => hlink a ((List.cons_subset_cons head (List.subset_cons_self b bs)) ha)) hnot
        (Nat.lt_of_succ_lt_succ hfuel) (visited ++ [b])
      rw [List.append_assoc, List.singleton_append] at hrest
      exact hrest

/-- The search along links that do not change. -/
theorem findEntryLoop_eq {link : α → Except ε α} {bs : List α} (hlinked : Linked next head bs)
    (hlink : ∀ a ∈ head :: bs, link a = .ok (next a)) (hnot : head ∉ bs) {fuel : Nat}
    (hfuel : bs.length < fuel) (stop : α → Bool) :
    findEntryLoop endless link stop head fuel (bs.headD head) = .ok (bs.find? stop) := by
  induction bs generalizing fuel with
  | nil =>
      obtain ⟨fuel, rfl⟩ := Nat.exists_eq_succ_of_ne_zero (Nat.ne_of_gt hfuel)
      have hhead : link head = .ok (next head) := hlink head List.mem_cons_self
      simp only [findEntryLoop, List.headD_nil, hhead, bind, Except.bind, if_true]
      rfl
  | cons b bs ih =>
      obtain ⟨fuel, rfl⟩ := Nat.exists_eq_succ_of_ne_zero (Nat.ne_of_gt (Nat.zero_lt_of_lt hfuel))
      obtain ⟨hne, hnot⟩ := List.ne_and_not_mem_of_not_mem_cons hnot
      have hb : link b = .ok (bs.headD head) := by
        rw [hlink b (List.mem_cons_of_mem head List.mem_cons_self), hlinked.1]
      rw [List.headD_cons]
      simp only [findEntryLoop, hb, bind, Except.bind, if_neg (Ne.symm hne)]
      by_cases hstop : stop b = true
      · rw [if_pos hstop, List.find?_cons_of_pos hstop]
        rfl
      · rw [if_neg hstop, List.find?_cons_of_neg hstop]
        exact ih hlinked.2
          (fun a ha => hlink a ((List.cons_subset_cons head (List.subset_cons_self b bs)) ha)) hnot
          (Nat.lt_of_succ_lt_succ hfuel)

/-- The rule for a loop that is safe against the removal of the entry. `I l s` says that the entries
`l` are still to come; the list consists of these when the link is followed after the body. -/
theorem forEachSafeLoop_rule {link : σ → α → Except ε α} {body : α → σ → Except ε σ}
    {I : List α → σ → Prop}
    (hnot : ∀ l s, I l s → head ∉ l)
    (hlink : ∀ l s, I l s → link s (l.headD head) = .ok (l.tail.headD head))
    (hbody : ∀ pos l s, I (pos :: l) s → ∃ t, body pos s = .ok t ∧ I l t) :
    ∀ (l : List α) (s : σ) (fuel : Nat), l.length < fuel → I l s →
      ∃ t, forEachSafeLoop endless link body head fuel s (l.headD head)
      (l.tail.headD head) = .ok t ∧
        I [] t := by
  intro l
  induction l with
  | nil =>
      intro s fuel hfuel hs
      obtain ⟨fuel, rfl⟩ := Nat.exists_eq_succ_of_ne_zero (Nat.ne_of_gt hfuel)
      exact ⟨s, if_pos rfl, hs⟩
  | cons pos l ih =>
      intro s fuel hfuel hs
      obtain ⟨fuel, rfl⟩ := Nat.exists_eq_succ_of_ne_zero (Nat.ne_of_gt (Nat.zero_lt_of_lt hfuel))
      have hne : pos ≠ head := fun heq => hnot _ _ hs (heq ▸ List.mem_cons_self)
      obtain ⟨t, hbody, ht⟩ := hbody pos l s hs
      obtain ⟨u, hloop, hu⟩ := ih t fuel (Nat.lt_of_succ_lt_succ hfuel) ht
      refine ⟨u, ?_, hu⟩
      simp only [forEachSafeLoop, List.headD_cons, List.tail_cons, if_neg hne, hbody,
        hlink l t ht, bind, Except.bind]
      exact hloop

end Turns

namespace ListHeap

variable {α : Type} [DecidableEq α] {h : ListHeap α} {lists : Lists α} {head : α} {l : List α}

theorem Holds.listForEach (hh : h.Holds lists) (hl : lists head = some l) :
    h.listForEach head = .ok l := by
  have hring := hh.ring hl
  simp only [ListHeap.listForEach, hh.readNext_head hl, bind, Except.bind]
  exact forEachLoop_visits hring.forward.2 (fun a ha => readNext_of_mem (hh.live hl ha))
    (List.nodup_cons.1 hring.nodup).1 (hh.length_lt hl) []

theorem Holds.listForEachPrev (hh : h.Holds lists) (hl : lists head = some l) :
    h.listForEachPrev head = .ok l.reverse := by
  have hring := (hh.ring hl).symm
  simp only [ListHeap.listForEachPrev, hh.readPrev_head hl, bind, Except.bind]
  refine forEachLoop_visits hring.forward.2 (fun a ha => readPrev_of_mem (hh.live hl ?_))
    (List.nodup_cons.1 hring.nodup).1 ?_ []
  · rwa [List.mem_cons, List.mem_reverse, ← List.mem_cons] at ha
  · rw [List.length_reverse]
    exact hh.length_lt hl

theorem Holds.listFindEntry (hh : h.Holds lists) (hl : lists head = some l) (stop : α → Bool) :
    h.listFindEntry head stop = .ok (l.find? stop) := by
  have hring := hh.ring hl
  simp only [ListHeap.listFindEntry, hh.readNext_head hl, bind, Except.bind]
  exact findEntryLoop_eq hring.forward.2 (fun a ha => readNext_of_mem (hh.live hl ha))
    (List.nodup_cons.1 hring.nodup).1 (hh.length_lt hl) stop

/-- The link of the first entry, or of the head when there is none. -/
theorem Holds.readNext_first (hh : h.Holds lists) (hl : lists head = some l) :
    h.readNext (l.headD head) = .ok (l.tail.headD head) := by
  rw [readNext_of_mem (hh.live hl (Rings.after_mem head [] l))]
  cases l with
  | nil => exact congrArg Except.ok (hh.ring hl).next_head
  | cons a l => exact congrArg Except.ok (hh.ring hl).forward.2.1

end ListHeap

/-! ## Sequences of calls -/

/-- The calls that change lists. -/
inductive ListOp (α : Type) where
  | init (list : α)
  | add (new head : α)
  | addTail (new head : α)
  | del (entry : α)
  | delInit (entry : α)
  | move (list head : α)
  | moveTail (list head : α)
  | splice (list head : α)
  | spliceInit (list head : α)
deriving DecidableEq, Repr

namespace ListOp

variable {α : Type} [DecidableEq α]

def run [ListPoison α] (h : ListHeap α) : ListOp α → Except (ListFault α) (ListHeap α)
  | init list => h.listHeadInit list
  | add new head => h.listAdd new head
  | addTail new head => h.listAddTail new head
  | del entry => h.listDel entry
  | delInit entry => h.listDelInit entry
  | move list head => h.listMove list head
  | moveTail list head => h.listMoveTail list head
  | splice list head => h.listSplice list head
  | spliceInit list head => h.listSpliceInit list head

/-- What the calls are for. -/
def apply (lists : Lists α) : ListOp α → Lists α
  | init list => Function.update lists list (some [])
  | add new head => Function.update lists head (some (new :: (lists head).getD []))
  | addTail new head => Function.update lists head (some ((lists head).getD [] ++ [new]))
  | del entry => lists.unlink entry
  | delInit entry => Function.update (lists.unlink entry) entry (some [])
  | move list head =>
      Function.update (lists.unlink list) head (some (list :: ((lists head).getD []).erase list))
  | moveTail list head =>
      Function.update (lists.unlink list) head (some (((lists head).getD []).erase list ++ [list]))
  | splice list head =>
      if (lists list).getD [] = [] then lists
      else Function.update (Function.update lists list none) head
        (some ((lists list).getD [] ++ (lists head).getD []))
  | spliceInit list head =>
      Function.update (Function.update lists head (some ((lists list).getD [] ++
        (lists head).getD []))) list (some [])

/-- When the calls may be made: what becomes a head is not an entry, what is added is not in use,
what is deleted or moved is an entry, and lists are only added to, emptied and joined by their
heads. -/
def Allowed (live : List α) (lists : Lists α) : ListOp α → Prop
  | init list => list ∈ live ∧ ∀ head l, lists head = some l → list ∉ l
  | add new head => new ∈ live ∧ Loose lists new ∧ ∃ l, lists head = some l
  | addTail new head => new ∈ live ∧ Loose lists new ∧ ∃ l, lists head = some l
  | del entry => ∃ head l, lists head = some l ∧ entry ∈ l
  | delInit entry => ∃ head l, lists head = some l ∧ entry ∈ l
  | move list head => (∃ p l, lists p = some l ∧ list ∈ l) ∧ ∃ m, lists head = some m
  | moveTail list head => (∃ p l, lists p = some l ∧ list ∈ l) ∧ ∃ m, lists head = some m
  | splice list head => list ≠ head ∧ (∃ m, lists list = some m) ∧ ∃ l, lists head = some l
  | spliceInit list head => list ≠ head ∧ (∃ m, lists list = some m) ∧ ∃ l, lists head = some l

variable [ListPoison α] {h : ListHeap α} {lists : Lists α}

/-- One call: it does not fault, and it does what it is for. -/
theorem run_holds (hh : h.Holds lists) {op : ListOp α} (hop : op.Allowed h.live lists) :
    ListHeap.Gives (op.run h) h.live (op.apply lists) := by
  cases op with
  | init list => exact hh.initListHead hop.1 hop.2
  | add new head =>
      obtain ⟨hlive, hnew, l, hl⟩ := hop
      have hgives := hh.listAdd hl hnew hlive
      rwa [apply, hl]
  | addTail new head =>
      obtain ⟨hlive, hnew, l, hl⟩ := hop
      have hgives := hh.listAddTail hl hnew hlive
      rwa [apply, hl]
  | del entry =>
      obtain ⟨head, l, hl, hentry⟩ := hop
      exact hh.listDel hl hentry
  | delInit entry =>
      obtain ⟨head, l, hl, hentry⟩ := hop
      exact hh.listDelInit hl hentry
  | move list head =>
      obtain ⟨⟨p, l, hl, hlist⟩, m, hm⟩ := hop
      have hgives := hh.listMove hl hlist hm
      rwa [apply, hm]
  | moveTail list head =>
      obtain ⟨⟨p, l, hl, hlist⟩, m, hm⟩ := hop
      have hgives := hh.listMoveTail hl hlist hm
      rwa [apply, hm]
  | splice list head =>
      obtain ⟨hne, ⟨m, hm⟩, l, hl⟩ := hop
      have hgives := hh.listSplice hl hm hne
      rwa [apply, hl, hm]
  | spliceInit list head =>
      obtain ⟨hne, ⟨m, hm⟩, l, hl⟩ := hop
      have hgives := hh.listSpliceInit hl hm hne
      rwa [apply, hl, hm]

end ListOp

section Runs

variable {α : Type} [DecidableEq α] [ListPoison α]

/-- Calls on a heap. -/
def listHeaps (live : List α) : Machine (ListHeap α) (ListOp α) where
  init h := h.live = live
  step h op h' := op.run h = .ok h'

/-- Operations on lists. -/
def listModel (live : List α) : Machine (Lists α) (ListOp α) where
  init lists := lists = fun _ => none
  step lists op lists' := op.Allowed live lists ∧ lists' = op.apply lists

/-- A run on lists is a run on the heap. -/
theorem holds_of_path {live : List α} {h : ListHeap α} {lists lists' : Lists α}
    {ops : List (ListOp α)}
    (hlive : h.live = live) (hh : h.Holds lists) (hpath : (listModel live).Path lists ops lists') :
    ∃ h', (listHeaps live).Path h ops h' ∧ h'.live = live ∧ h'.Holds lists' := by
  induction hpath generalizing h with
  | nil => exact ⟨h, .nil, hlive, hh⟩
  | cons hstep _ ih =>
      obtain ⟨hop, rfl⟩ := hstep
      subst hlive
      obtain ⟨h₁, hrun, hlive₁, hh₁⟩ := ListOp.run_holds hh hop
      obtain ⟨h₂, hpath, hlive₂, hh₂⟩ := ih hlive₁ hh₁
      exact ⟨h₂, .cons hrun hpath, hlive₂, hh₂⟩

/-- Any sequence of calls that may be made, on any number of lists, ends without a fault. Then no
entry is in two lists or twice in one, every walk finds the entries of its list in order, from the
front and from the back, and the two tests for an empty list agree. -/
theorem pet_lists_refine {live : List α} {ops : List (ListOp α)} {lists : Lists α}
    (hpath : (listModel live).Path (fun _ => none) ops lists) (h : ListHeap α)
    (hlive : h.live = live) : ∃ h', (listHeaps live).Path h ops h' ∧
      (∀ a b l m x, lists a = some l → lists b = some m → x ∈ l → x ∈ m → a = b) ∧
      ∀ head l, lists head = some l → l.Nodup ∧ h'.listForEach head = .ok l ∧
        h'.listForEachPrev head = .ok l.reverse ∧ h'.listEmpty head = .ok (decide (l = [])) ∧
        h'.listEmptyCareful head = .ok (decide (l = [])) := by
  obtain ⟨h', hheap, -, hh⟩ := holds_of_path hlive (ListHeap.holds_none h) hpath
  refine ⟨h', hheap, fun a b l m x hl hm hxl hxm => ?_, fun head l hl => ?_⟩
  · exact hh.toRings.eq_of_mem hl hm (List.mem_cons_of_mem a hxl) (List.mem_cons_of_mem b hxm)
  · exact ⟨(List.nodup_cons.1 (hh.ring hl).nodup).2, hh.listForEach hl, hh.listForEachPrev hl,
      hh.listEmpty hl, hh.listEmptyCareful hl⟩

end Runs

/-- Two lists with three entries, of which one is moved from the first list to the second. -/
def sampleOps : List (ListOp Nat) :=
  [.init 1, .init 2, .addTail 3 1, .add 4 1, .addTail 5 1, .move 4 2]

theorem sampleOps_path : (listModel [1, 2, 3, 4, 5]).Path (fun _ => none) sampleOps
    (sampleOps.foldl ListOp.apply fun _ => none) := by
  refine .cons ⟨⟨by decide, ?_⟩, rfl⟩ (.cons ⟨⟨by decide, ?_⟩, rfl⟩
    (.cons ⟨⟨by decide, ?_, _, rfl⟩, rfl⟩
    (.cons ⟨⟨by decide, ?_, _, rfl⟩, rfl⟩ (.cons ⟨⟨by decide, ?_, _, rfl⟩, rfl⟩
    (.cons ⟨⟨⟨1, _, rfl, by decide⟩, _, rfl⟩, rfl⟩ .nil)))))
  all_goals
    intro head l hl
    simp [ListOp.apply, Function.update_apply] at hl ⊢
  all_goals grind

theorem pet_lists_refine_two_lists : ∃ h', (listHeaps [1, 2, 3, 4, 5]).Path
      ⟨[1, 2, 3, 4, 5], fun _ => 0, fun _ => 0⟩ sampleOps h' ∧ h'.listForEach 1 = .ok [3, 5] ∧
      h'.listForEachPrev 1 = .ok [5, 3] ∧ h'.listForEach 2 = .ok [4] := by
  obtain ⟨h', hheap, -, hlists⟩ :=
    pet_lists_refine sampleOps_path ⟨[1, 2, 3, 4, 5], fun _ => 0, fun _ => 0⟩ rfl
  exact ⟨h', hheap, (hlists 1 [3, 5] rfl).2.1, (hlists 1 [3, 5] rfl).2.2.1, (hlists 2 [4] rfl).2.1⟩

/-- A heap that holds these lists. -/
theorem exists_sample_heap : ∃ h : ListHeap Nat, h.live = [1, 2, 3, 4, 5] ∧
    h.Holds (sampleOps.foldl ListOp.apply fun _ => none) := by
  obtain ⟨h, -, hlive, hh⟩ := holds_of_path rfl
    (ListHeap.holds_none ⟨[1, 2, 3, 4, 5], fun _ => 0, fun _ => 0⟩) sampleOps_path
  exact ⟨h, hlive, hh⟩

/-! ## Loops that take entries out -/

section Removal

variable {α : Type} [DecidableEq α] {h : ListHeap α} {lists : Lists α} {head other : α}
  {l m : List α}

/-- The entries of `l` before `rest` have been moved from the list of `head` to the end of the list
`m` of `other`. -/
def MovedBefore (h : ListHeap α) (lists : Lists α) (head other : α) (l m rest : List α)
    (g : ListHeap α) : Prop :=
  ∃ done, l = done ++ rest ∧ g.live = h.live ∧
    g.Holds (Function.update (Function.update lists head (some rest)) other (some (m ++ done)))

/-- `list_for_each_safe` with a body that moves every entry to the end of another list: all entries
are moved, in their order. -/
theorem safe_loop_moves_all (hh : h.Holds lists) (hl : lists head = some l)
    (hm : lists other = some m) (hne : head ≠ other) :
    ListHeap.Gives (h.listForEachSafe head fun pos h => h.listMoveTail pos other) h.live
      (Function.update (Function.update lists head (some [])) other (some (m ++ l))) := by
  have hhead : ∀ rest done, Function.update (Function.update lists head (some rest)) other
      (some (m ++ done)) head = some rest := by
    intro rest done
    rw [Function.update_of_ne hne, Function.update_self]
  have hbody : ∀ (pos : α) (rest : List α) (g : ListHeap α),
      MovedBefore h lists head other l m (pos :: rest) g →
      ∃ g', g.listMoveTail pos other = .ok g' ∧ MovedBefore h lists head other l m rest g' := by
    rintro pos rest g ⟨done, rfl, hlive, hg⟩
    obtain ⟨g', hmove, hlive', hg'⟩ := hg.listMoveTail (hhead _ done) List.mem_cons_self
      (Function.update_self _ _ _)
    have hnot : pos ∉ m ++ done := fun hmem =>
      hg.apart (hhead _ done) (Function.update_self _ _ _) hne
        (List.mem_cons_of_mem head List.mem_cons_self) (List.mem_cons_of_mem other hmem)
    refine ⟨g', hmove, done ++ [pos], by simp, hlive'.trans hlive, ?_⟩
    rw [ListHeap.unlink_of_mem hg.toRings (hhead _ done) List.mem_cons_self, List.erase_cons_head,
      List.erase_of_not_mem hnot, Function.update_comm hne.symm, Function.update_idem,
      Function.update_idem, List.append_assoc] at hg'
    exact hg'
  have hstart : MovedBefore h lists head other l m l h := by
    refine ⟨[], rfl, rfl, ?_⟩
    rw [List.append_nil, ← hl, Function.update_eq_self, ← hm, Function.update_eq_self]
    exact hh
  have hnot : ∀ (rest : List α) (g : ListHeap α), MovedBefore h lists head other l m rest g →
      head ∉ rest := by
    rintro rest g ⟨done, -, -, hg⟩
    exact (List.nodup_cons.1 (hg.ring (hhead rest done)).nodup).1
  have hlink : ∀ (rest : List α) (g : ListHeap α), MovedBefore h lists head other l m rest g →
      g.readNext (rest.headD head) = .ok (rest.tail.headD head) := by
    rintro rest g ⟨done, -, -, hg⟩
    exact hg.readNext_first (hhead rest done)
  obtain ⟨g, hrun, done, hdone, hlive, hg⟩ :=
    forEachSafeLoop_rule hnot hlink hbody l h h.live.length (hh.length_lt hl) hstart
  refine ⟨g, ?_, hlive, ?_⟩
  · simp only [ListHeap.listForEachSafe, hh.readNext_head hl, hh.readNext_first hl, bind,
      Except.bind]
    exact hrun
  · rw [List.append_nil] at hdone
    rw [hdone]
    exact hg

theorem safe_loop_moves_all_two_entries : ∃ h h' : ListHeap Nat, h.listForEach 1 = .ok [3, 5] ∧
    (h.listForEachSafe 1 fun pos h => h.listMoveTail pos 2) = .ok h' ∧
    h'.listForEach 1 = .ok [] ∧ h'.listForEach 2 = .ok [4, 3, 5] := by
  obtain ⟨h, -, hh⟩ := exists_sample_heap
  have hone : sampleOps.foldl ListOp.apply (fun _ => none) 1 = some [3, 5] := rfl
  have htwo : sampleOps.foldl ListOp.apply (fun _ => none) 2 = some [4] := rfl
  obtain ⟨h', hrun, -, hh'⟩ := safe_loop_moves_all hh hone htwo (by decide)
  exact ⟨h, h', hh.listForEach hone, hrun, hh'.listForEach rfl, hh'.listForEach rfl⟩

/-- After `list_del` the next link of the entry is the poison value. -/
theorem readNext_of_listDel [ListPoison α] {entry : α} {g : ListHeap α}
    (hdel : h.listDel entry = .ok g) : g.readNext entry = .ok ListPoison.listPoison1 := by
  simp only [ListHeap.listDel, bind, Except.bind] at hdel
  cases hunlink : h.listUnlink entry with
  | error e => rw [hunlink] at hdel; cases hdel
  | ok g₁ =>
      rw [hunlink] at hdel
      simp only [ListHeap.writeNext, ListHeap.writePrev] at hdel
      by_cases hmem : entry ∈ g₁.live
      · simp only [hmem, if_true, Except.ok.injEq] at hdel
        subst hdel
        exact (if_pos hmem).trans (congrArg Except.ok (Function.update_self _ _ _))
      · simp only [hmem, if_false] at hdel
        cases hdel

/-- `list_for_each` with a body that deletes the entry: the loop follows the poison value after the
first entry. -/
theorem plain_loop_faults [ListPoison α] {a : α} (hh : h.Holds lists)
    (hl : lists head = some (a :: l)) (hpoison : ListPoison.listPoison1 ∉ h.live) :
    (h.listForEachDo head fun pos h => h.listDel pos) =
      .error (.pageFault ListPoison.listPoison1) := by
  obtain ⟨fuel, hfuel⟩ : ∃ fuel, h.live.length = fuel + 2 := by
    have hlt := hh.length_lt hl
    rw [List.length_cons] at hlt
    exact ⟨h.live.length - 2, by omega⟩
  have hne : a ≠ head := fun heq => (List.nodup_cons.1 (hh.ring hl).nodup).1
    (heq ▸ List.mem_cons_self)
  obtain ⟨g, hdel, hlive, -⟩ := hh.listDel hl List.mem_cons_self
  have hfault : g.readNext ListPoison.listPoison1 = .error (.pageFault ListPoison.listPoison1) :=
    if_neg (hlive ▸ hpoison)
  have hfirst : h.readNext a = .ok (l.headD head) := hh.readNext_first hl
  simp only [ListHeap.listForEachDo, hh.readNext_head hl, hfuel, forEachLoop, bind, Except.bind]
  rw [List.headD_cons]
  simp only [hfirst, if_neg hne, hdel, readNext_of_listDel hdel, hfault]

theorem plain_loop_faults_two_entries : ∃ h : ListHeap Nat, h.listForEach 1 = .ok [3, 5] ∧
    (h.listForEachDo 1 fun pos h => h.listDel pos) = .error (.pageFault 0x00100100) := by
  obtain ⟨h, hlive, hh⟩ := exists_sample_heap
  have hone : sampleOps.foldl ListOp.apply (fun _ => none) 1 = some [3, 5] := rfl
  refine ⟨h, hh.listForEach hone, plain_loop_faults hh hone ?_⟩
  rw [hlive]
  decide

end Removal

end PetKernel.UserThreads
