import Mathlib

/-!
# Radix trees of tables in a flat memory

A memory maps addresses to entries. A table is known by its address, and an entry that is present
refers to a table of the next level. A path lists the indices from the root on, *last index first*,
so that the path of a table extends the path of its parent by one `cons`.

`Layout` collects how entries are read and where they lie. `IsTree` says that different paths lead
to different tables, which is what makes a write local: `IsTree.entryAt_update` and
`IsTree.tableAt_update` are the frame rules. Three operations keep the tree: a write to an entry of
the last level (`IsTree.update_leaf`), the removal of an entry (`IsTree.unlink`), and the insertion
of a fresh empty table (`IsTree.link`). Each comes with what it does to `lookup`, the present
entries of the last level.
-/

set_option autoImplicit false

namespace PetKernel.Library

universe u

/-- How the entries of tables are read and where they lie. -/
structure Layout (E : Type u) where
  present : E → Bool
  /-- The table that an entry refers to. -/
  target : E → Nat
  /-- The address of the entry with a given index of a table of a given level. -/
  slot : Nat → Nat → Nat → Nat
  fanout : Nat → Nat
  IsTable : Nat → Prop
  /-- The table in which an address lies. -/
  owner : Nat → Nat
  isTable_target : ∀ e, IsTable (target e)
  owner_slot : ∀ l t i, IsTable t → i < fanout l → owner (slot l t i) = t
  slot_inj : ∀ l t i j, slot l t i = slot l t j → i = j

namespace Layout

variable {E : Type u} (L : Layout E)

/-- Every index of the path is below the fanout of its level. -/
def ValidPath : List Nat → Prop
  | [] => True
  | i :: p => i < L.fanout p.length ∧ ValidPath p

/-- The table at the end of a path. -/
def tableAt (mem : Nat → E) (root : Nat) : List Nat → Option Nat
  | [] => some root
  | i :: p => (tableAt mem root p).bind fun t =>
      let e := mem (L.slot p.length t i)
      if L.present e then some (L.target e) else none

/-- The entry at the end of a path. -/
def entryAt (mem : Nat → E) (root : Nat) : List Nat → Option E
  | [] => none
  | i :: p => (L.tableAt mem root p).map fun t => mem (L.slot p.length t i)

/-- The entry at the end of a path, if it is present. -/
def lookup (mem : Nat → E) (root : Nat) (p : List Nat) : Option E :=
  (L.entryAt mem root p).filter L.present

variable {L} {mem mem' : Nat → E} {root : Nat}

theorem ValidPath.of_suffix {p q : List Nat} (hq : L.ValidPath q) (h : p <:+ q) :
    L.ValidPath p := by
  induction q with
  | nil =>
      rw [List.suffix_nil.1 h]
      trivial
  | cons j q ih =>
      rcases List.suffix_cons_iff.1 h with rfl | h
      · exact hq
      · exact ih hq.2 h

theorem tableAt_cons_eq_some {i u : Nat} {p : List Nat} :
    L.tableAt mem root (i :: p) = some u ↔
      ∃ e, L.entryAt mem root (i :: p) = some e ∧ L.present e = true ∧ L.target e = u := by
  rw [tableAt, entryAt]
  cases L.tableAt mem root p with
  | none => simp
  | some t => simp

theorem entryAt_cons_eq_some {i : Nat} {p : List Nat} {e : E} :
    L.entryAt mem root (i :: p) = some e ↔
      ∃ t, L.tableAt mem root p = some t ∧ mem (L.slot p.length t i) = e :=
  Option.map_eq_some_iff

theorem lookup_eq_some {p : List Nat} {e : E} :
    L.lookup mem root p = some e ↔ L.entryAt mem root p = some e ∧ L.present e = true := by
  rw [lookup, Option.filter_eq_some_iff]

theorem tableAt_cons_eq_map_lookup (mem : Nat → E) (root i : Nat) (p : List Nat) :
    L.tableAt mem root (i :: p) = (L.lookup mem root (i :: p)).map L.target := by
  apply Option.ext
  intro u
  simp only [tableAt_cons_eq_some, Option.map_eq_some_iff, lookup_eq_some, and_assoc]

theorem lookup_cons_eq_none {i t : Nat} {p : List Nat} (ht : L.tableAt mem root p = some t) :
    L.lookup mem root (i :: p) = none ↔ L.present (mem (L.slot p.length t i)) = false := by
  rw [lookup, entryAt, ht, Option.map_some, Option.filter_some]
  split
  next hpres => simp [hpres]
  next habs => simpa using habs

/-- A table on the way to a table. -/
theorem tableAt_of_suffix {p q : List Nat} {u : Nat} (h : L.tableAt mem root q = some u)
    (hpq : p <:+ q) : ∃ t, L.tableAt mem root p = some t := by
  induction q generalizing u with
  | nil =>
      rw [List.suffix_nil.1 hpq]
      exact ⟨u, h⟩
  | cons j q ih =>
      rcases List.suffix_cons_iff.1 hpq with rfl | hpq
      · exact ⟨u, h⟩
      · obtain ⟨t, ht, -⟩ := Option.bind_eq_some_iff.1 h
        exact ih ht hpq

/-- The tables above depend only on the entries above. -/
theorem tableAt_congr {q : List Nat}
    (h : ∀ j q' t, j :: q' <:+ q → L.tableAt mem root q' = some t →
      mem' (L.slot q'.length t j) = mem (L.slot q'.length t j)) :
    L.tableAt mem' root q = L.tableAt mem root q := by
  induction q with
  | nil => rfl
  | cons j q ih =>
      rw [tableAt, tableAt, ih fun j' q' t hs => h j' q' t (hs.trans (List.suffix_cons j q))]
      cases ht : L.tableAt mem root q with
      | none => rfl
      | some t =>
          simp only [Option.bind_some]
          rw [h j q t (List.suffix_refl _) ht]

/-- The entry depends only on the entries on the way to it. -/
theorem entryAt_congr {q : List Nat}
    (h : ∀ j q' t, j :: q' <:+ q → L.tableAt mem root q' = some t →
      mem' (L.slot q'.length t j) = mem (L.slot q'.length t j)) :
    L.entryAt mem' root q = L.entryAt mem root q := by
  cases q with
  | nil => rfl
  | cons j q =>
      rw [entryAt, entryAt, tableAt_congr fun j' q' t hs =>
        h j' q' t (hs.trans (List.suffix_cons j q))]
      cases ht : L.tableAt mem root q with
      | none => rfl
      | some t => exact congrArg some (h j q t (List.suffix_refl _) ht)

/-- If nothing is present, then the root is the only table. -/
theorem tableAt_of_absent (h : ∀ a, L.present (mem a) = false) {q : List Nat} {t : Nat}
    (ht : L.tableAt mem root q = some t) : q = [] ∧ t = root := by
  cases q with
  | nil => exact ⟨rfl, (Option.some.inj ht).symm⟩
  | cons i p =>
      obtain ⟨e, he, hpres, -⟩ := tableAt_cons_eq_some.1 ht
      obtain ⟨u, -, rfl⟩ := entryAt_cons_eq_some.1 he
      rw [h] at hpres
      cases hpres

/-- If what is present was there before, then every table was. -/
theorem tableAt_of_present (h : ∀ a, L.present (mem' a) = true → mem' a = mem a) {q : List Nat}
    {t : Nat} (ht : L.tableAt mem' root q = some t) : L.tableAt mem root q = some t := by
  induction q generalizing t with
  | nil => exact ht
  | cons j q ih =>
      obtain ⟨e, he, hpres, htarget⟩ := tableAt_cons_eq_some.1 ht
      obtain ⟨u, hu, rfl⟩ := entryAt_cons_eq_some.1 he
      refine tableAt_cons_eq_some.2 ⟨_, entryAt_cons_eq_some.2 ⟨u, ih hu, rfl⟩, ?_⟩
      rw [← h _ hpres]
      exact ⟨hpres, htarget⟩

/-! ## Trees -/

variable (L) in
/-- Different paths lead to different tables. -/
structure IsTree (depth : Nat) (mem : Nat → E) (root : Nat) : Prop where
  root_isTable : L.IsTable root
  inj : ∀ p q t, L.ValidPath p → L.ValidPath q → p.length < depth → q.length < depth →
    L.tableAt mem root p = some t → L.tableAt mem root q = some t → p = q

variable {depth : Nat}

theorem IsTree.isTable (h : L.IsTree depth mem root) {p : List Nat} {t : Nat}
    (ht : L.tableAt mem root p = some t) : L.IsTable t := by
  cases p with
  | nil =>
      obtain rfl := Option.some.inj ht
      exact h.root_isTable
  | cons i p =>
      obtain ⟨e, -, -, rfl⟩ := tableAt_cons_eq_some.1 ht
      exact L.isTable_target e

/-- Entries at different paths lie at different addresses. -/
theorem IsTree.path_eq_of_slot_eq (h : L.IsTree depth mem root) {i j t u : Nat} {p q : List Nat}
    (hp : L.ValidPath (i :: p)) (hq : L.ValidPath (j :: q)) (hpd : p.length < depth)
    (hqd : q.length < depth) (ht : L.tableAt mem root p = some t)
    (hu : L.tableAt mem root q = some u) (heq : L.slot p.length t i = L.slot q.length u j) :
    i :: p = j :: q := by
  have htu : t = u := by
    rw [← L.owner_slot p.length t i (h.isTable ht) hp.1, heq,
      L.owner_slot q.length u j (h.isTable hu) hq.1]
  subst htu
  obtain rfl := h.inj p q t hp.2 hq.2 hpd hqd ht hu
  rw [L.slot_inj _ _ _ _ heq]

/-- A memory in which every table is an old one. -/
theorem IsTree.of_imp (h : L.IsTree depth mem root)
    (himp : ∀ q u, L.ValidPath q → q.length < depth → L.tableAt mem' root q = some u →
      L.tableAt mem root q = some u) : L.IsTree depth mem' root := by
  refine ⟨h.root_isTable, fun p q t hp hq hpd hqd ht hu => ?_⟩
  exact h.inj p q t hp hq hpd hqd (himp p t hp hpd ht) (himp q t hq hqd hu)

section Update

variable {i t : Nat} {p : List Nat} {e : E}

/-- The tables that are not below the entry written stay. -/
theorem IsTree.tableAt_update (h : L.IsTree depth mem root) (hp : L.ValidPath (i :: p))
    (hpd : p.length < depth) (ht : L.tableAt mem root p = some t) {q : List Nat}
    (hq : L.ValidPath q) (hqd : q.length ≤ depth) (hnot : ¬ i :: p <:+ q) :
    L.tableAt (Function.update mem (L.slot p.length t i) e) root q = L.tableAt mem root q := by
  apply tableAt_congr
  intro j q' u hsuf hu
  refine Function.update_of_ne (fun heq => hnot ?_) _ _
  have hlen : (j :: q').length ≤ q.length := hsuf.length_le
  rw [h.path_eq_of_slot_eq hp (hq.of_suffix hsuf) hpd
    (Nat.lt_of_lt_of_le (Nat.lt_of_succ_le hlen) hqd) ht hu heq.symm]
  exact hsuf

/-- An entry that is neither the one written nor below it stays. -/
theorem IsTree.entryAt_update (h : L.IsTree depth mem root) (hp : L.ValidPath (i :: p))
    (hpd : p.length < depth) (ht : L.tableAt mem root p = some t) {q : List Nat}
    (hq : L.ValidPath q) (hqd : q.length ≤ depth) (hnot : ¬ i :: p <:+ q) :
    L.entryAt (Function.update mem (L.slot p.length t i) e) root q = L.entryAt mem root q := by
  cases q with
  | nil => rfl
  | cons j q =>
      have hnot' : ¬ i :: p <:+ q := fun hs => hnot (hs.trans (List.suffix_cons j q))
      have hlt : q.length < depth := Nat.lt_of_succ_le hqd
      rw [entryAt, entryAt, h.tableAt_update hp hpd ht hq.2 (Nat.le_of_lt hlt) hnot']
      cases hu : L.tableAt mem root q with
      | none => rfl
      | some u =>
          refine congrArg some (Function.update_of_ne (fun heq => hnot ?_) _ _)
          have hpath := h.path_eq_of_slot_eq hp hq hpd hlt ht hu heq.symm
          exact hpath ▸ List.suffix_refl _

theorem not_cons_suffix_self (i : Nat) (p : List Nat) : ¬ i :: p <:+ p := by
  intro hs
  exact Nat.not_succ_le_self p.length hs.length_le

/-- The entry written. -/
theorem IsTree.entryAt_update_self (h : L.IsTree depth mem root) (hp : L.ValidPath (i :: p))
    (hpd : p.length < depth) (ht : L.tableAt mem root p = some t) :
    L.entryAt (Function.update mem (L.slot p.length t i) e) root (i :: p) = some e := by
  rw [entryAt, h.tableAt_update hp hpd ht hp.2 (Nat.le_of_lt hpd) (not_cons_suffix_self i p), ht]
  exact congrArg some (Function.update_self _ _ _)

/-- If nothing is below the entry, before or after the write, then no other entry is gained or
lost. -/
theorem IsTree.lookup_update (h : L.IsTree depth mem root) (hp : L.ValidPath (i :: p))
    (hpd : p.length < depth) (ht : L.tableAt mem root p = some t) {q : List Nat}
    (hq : L.ValidPath q) (hqd : q.length ≤ depth)
    (hbelow : i :: p <:+ q → q ≠ i :: p → L.lookup mem root q = none ∧
      L.lookup (Function.update mem (L.slot p.length t i) e) root q = none) :
    L.lookup (Function.update mem (L.slot p.length t i) e) root q =
      if q = i :: p then (some e).filter L.present else L.lookup mem root q := by
  split
  next heq =>
    rw [heq, lookup, h.entryAt_update_self hp hpd ht]
  next hne =>
    by_cases hs : i :: p <:+ q
    · obtain ⟨hbefore, hafter⟩ := hbelow hs hne
      rw [hbefore, hafter]
    · rw [lookup, lookup, h.entryAt_update hp hpd ht hq hqd hs]

/-! ### A write to the last level -/

theorem not_cons_suffix_of_length {q : List Nat} (hp : p.length + 1 = depth)
    (hq : q.length < depth) : ¬ i :: p <:+ q := by
  intro hs
  have hlen := hs.length_le
  rw [List.length_cons] at hlen
  omega

theorem IsTree.update_leaf (h : L.IsTree depth mem root) (hp : L.ValidPath (i :: p))
    (hpd : p.length + 1 = depth) (ht : L.tableAt mem root p = some t) :
    L.IsTree depth (Function.update mem (L.slot p.length t i) e) root := by
  apply h.of_imp
  intro q u hq hqd hu
  rw [← hu]
  exact (h.tableAt_update hp (by omega) ht hq (Nat.le_of_lt hqd)
    (not_cons_suffix_of_length hpd hqd)).symm

/-- A write to the last level changes one path. -/
theorem IsTree.lookup_update_leaf (h : L.IsTree depth mem root) (hp : L.ValidPath (i :: p))
    (hpd : p.length + 1 = depth) (ht : L.tableAt mem root p = some t) {q : List Nat}
    (hq : L.ValidPath q) (hqd : q.length = depth) :
    L.lookup (Function.update mem (L.slot p.length t i) e) root q =
      if q = i :: p then (some e).filter L.present else L.lookup mem root q := by
  refine h.lookup_update hp (by omega) ht hq (Nat.le_of_eq hqd) fun hs hne => ?_
  exact absurd (hs.eq_of_length (by rw [List.length_cons, hpd, hqd])).symm hne

/-! ### The removal of an entry -/

/-- Nothing is below an entry that is not present. -/
theorem tableAt_eq_none_of_absent {q : List Nat} (hs : i :: p <:+ q)
    (he : ∀ e, L.entryAt mem root (i :: p) = some e → L.present e = false) :
    L.tableAt mem root q = none := by
  cases hq : L.tableAt mem root q with
  | none => rfl
  | some u =>
      obtain ⟨t, ht⟩ := tableAt_of_suffix hq hs
      obtain ⟨e, hentry, hpres, -⟩ := tableAt_cons_eq_some.1 ht
      rw [he e hentry] at hpres
      exact absurd hpres (by decide)

theorem lookup_eq_none_of_absent {q : List Nat} (hs : i :: p <:+ q)
    (he : ∀ e, L.entryAt mem root (i :: p) = some e → L.present e = false) :
    L.lookup mem root q = none := by
  cases hq : L.lookup mem root q with
  | none => rfl
  | some e =>
      obtain ⟨hentry, hpres⟩ := lookup_eq_some.1 hq
      cases q with
      | nil => exact absurd hs (by simp)
      | cons j q =>
          rcases List.suffix_cons_iff.1 hs with heq | hs
          · rw [heq] at he
            rw [he e hentry] at hpres
            exact absurd hpres (by decide)
          · obtain ⟨u, hu, -⟩ := entryAt_cons_eq_some.1 hentry
            rw [tableAt_eq_none_of_absent hs he] at hu
            exact absurd hu (by simp)

/-- The tables that remain. -/
theorem IsTree.tableAt_of_unlink (h : L.IsTree depth mem root) (hp : L.ValidPath (i :: p))
    (hpd : p.length < depth) (ht : L.tableAt mem root p = some t) (he : L.present e = false)
    {q : List Nat} {u : Nat} (hq : L.ValidPath q) (hqd : q.length < depth)
    (hu : L.tableAt (Function.update mem (L.slot p.length t i) e) root q = some u) :
    L.tableAt mem root q = some u := by
  by_cases hs : i :: p <:+ q
  · rw [tableAt_eq_none_of_absent hs] at hu
    · exact absurd hu (by simp)
    · intro e' he'
      rw [h.entryAt_update_self hp hpd ht] at he'
      rw [← Option.some.inj he']
      exact he
  · rw [← hu]
    exact (h.tableAt_update hp hpd ht hq (Nat.le_of_lt hqd) hs).symm

theorem IsTree.unlink (h : L.IsTree depth mem root) (hp : L.ValidPath (i :: p))
    (hpd : p.length < depth) (ht : L.tableAt mem root p = some t) (he : L.present e = false) :
    L.IsTree depth (Function.update mem (L.slot p.length t i) e) root :=
  h.of_imp fun _ _ hq hqd hu => h.tableAt_of_unlink hp hpd ht he hq hqd hu

/-- The removal of an entry under which nothing is present loses this entry only. -/
theorem IsTree.lookup_remove (h : L.IsTree depth mem root) (hp : L.ValidPath (i :: p))
    (hpd : p.length < depth) (ht : L.tableAt mem root p = some t) (he : L.present e = false)
    {q : List Nat} (hq : L.ValidPath q) (hqd : q.length ≤ depth)
    (hempty : i :: p <:+ q → q ≠ i :: p → L.lookup mem root q = none) :
    L.lookup (Function.update mem (L.slot p.length t i) e) root q =
      if q = i :: p then none else L.lookup mem root q := by
  rw [h.lookup_update hp hpd ht hq hqd, Option.filter_some, he]
  · rfl
  · intro hs hne
    refine ⟨hempty hs hne, lookup_eq_none_of_absent hs fun e' he' => ?_⟩
    rw [h.entryAt_update_self hp hpd ht] at he'
    rw [← Option.some.inj he']
    exact he

theorem IsTree.lookup_unlink (h : L.IsTree depth mem root) (hp : L.ValidPath (i :: p))
    (hpd : p.length < depth) (ht : L.tableAt mem root p = some t) (he : L.present e = false)
    {q : List Nat} (hq : L.ValidPath q) (hqd : q.length = depth)
    (hempty : i :: p <:+ q → L.lookup mem root q = none) :
    L.lookup (Function.update mem (L.slot p.length t i) e) root q = L.lookup mem root q := by
  rw [h.lookup_remove hp hpd ht he hq (Nat.le_of_eq hqd) fun hs _ => hempty hs]
  split
  next heq => exact (hempty (heq ▸ List.suffix_refl _)).symm
  next => rfl

/-- A path that is longer goes on by some index. -/
theorem exists_cons_suffix {q : List Nat} (hs : p <:+ q) (hlen : p.length < q.length) :
    ∃ j, j :: p <:+ q := by
  obtain ⟨r, rfl⟩ := hs
  rcases List.eq_nil_or_concat r with rfl | ⟨r', j, rfl⟩
  · simp at hlen
  · exact ⟨j, r', by simp⟩

/-- The entries of a table without present entries are absent. -/
theorem absent_of_empty {j : Nat} (hj : L.ValidPath (j :: p)) (ht : L.tableAt mem root p = some t)
    (hempty : ∀ j, j < L.fanout p.length → L.present (mem (L.slot p.length t j)) = false) (e : E)
    (he : L.entryAt mem root (j :: p) = some e) : L.present e = false := by
  obtain ⟨u, hu, rfl⟩ := entryAt_cons_eq_some.1 he
  obtain rfl := Option.some.inj (ht.symm.trans hu)
  exact hempty j hj.1

theorem lookup_eq_none_of_empty {q : List Nat} (hq : L.ValidPath q) (hs : p <:+ q)
    (hlen : p.length < q.length) (ht : L.tableAt mem root p = some t)
    (hempty : ∀ j, j < L.fanout p.length → L.present (mem (L.slot p.length t j)) = false) :
    L.lookup mem root q = none := by
  obtain ⟨j, hj⟩ := exists_cons_suffix hs hlen
  exact lookup_eq_none_of_absent hj (absent_of_empty (hq.of_suffix hj) ht hempty)

/-! ### The insertion of a table -/

section Link

variable {mem₁ : Nat → E} {new : Nat}

/-- A memory that differs only in a page that is no table has the same tables. -/
theorem IsTree.tableAt_fresh (h : L.IsTree depth mem root)
    (hfresh : ∀ q, L.ValidPath q → q.length < depth → L.tableAt mem root q ≠ some new)
    (hmem : ∀ a, L.owner a ≠ new → mem₁ a = mem a) {q : List Nat} (hq : L.ValidPath q)
    (hqd : q.length ≤ depth) : L.tableAt mem₁ root q = L.tableAt mem root q := by
  apply tableAt_congr
  intro j q' u hsuf hu
  have hvalid := hq.of_suffix hsuf
  have hlen : (j :: q').length ≤ q.length := hsuf.length_le
  apply hmem _
  rw [L.owner_slot _ _ _ (h.isTable hu) hvalid.1]
  intro heq
  exact hfresh q' hvalid.2 (Nat.lt_of_lt_of_le (Nat.lt_of_succ_le hlen) hqd) (heq ▸ hu)

theorem IsTree.lookup_fresh (h : L.IsTree depth mem root)
    (hfresh : ∀ q, L.ValidPath q → q.length < depth → L.tableAt mem root q ≠ some new)
    (hmem : ∀ a, L.owner a ≠ new → mem₁ a = mem a) {q : List Nat} (hq : L.ValidPath q)
    (hqd : q.length ≤ depth) : L.lookup mem₁ root q = L.lookup mem root q := by
  cases q with
  | nil => rfl
  | cons j q =>
      have hlt : q.length < depth := Nat.lt_of_succ_le hqd
      rw [lookup, lookup, entryAt, entryAt, h.tableAt_fresh hfresh hmem hq.2 (Nat.le_of_lt hlt)]
      cases hu : L.tableAt mem root q with
      | none => rfl
      | some u =>
          have hne : L.owner (L.slot q.length u j) ≠ new := by
            rw [L.owner_slot _ _ _ (h.isTable hu) hq.1]
            intro heq
            exact hfresh q hq.2 hlt (heq ▸ hu)
          simp only [Option.map_some, hmem _ hne]

/-- A fresh table without present entries is put in the place of an absent entry. -/
structure Links (L : Layout E) (depth : Nat) (mem : Nat → E) (root : Nat) (path : List Nat)
    (mem' : Nat → E) (new : Nat) : Prop where
  tree : L.IsTree depth mem' root
  table : L.tableAt mem' root path = some new
  old : ∀ q u, L.ValidPath q → q.length < depth → L.tableAt mem' root q = some u →
    u = new ∨ L.tableAt mem root q = some u
  lookup_eq : ∀ q, L.ValidPath q → q.length = depth →
    L.lookup mem' root q = L.lookup mem root q

theorem IsTree.fresh (h : L.IsTree depth mem root)
    (hfresh : ∀ q, L.ValidPath q → q.length < depth → L.tableAt mem root q ≠ some new)
    (hmem : ∀ a, L.owner a ≠ new → mem₁ a = mem a) : L.IsTree depth mem₁ root :=
  h.of_imp fun q u hq hqd hu => by
    rw [← hu]
    exact (h.tableAt_fresh hfresh hmem hq (Nat.le_of_lt hqd)).symm

/-- The new table is empty, also after the write, which goes to another table. -/
theorem IsTree.empty_of_link (h : L.IsTree depth mem root) (hp : L.ValidPath (i :: p))
    (hpd : p.length < depth) (ht : L.tableAt mem root p = some t)
    (hfresh : ∀ q, L.ValidPath q → q.length < depth → L.tableAt mem root q ≠ some new)
    (hzero : ∀ l j, j < L.fanout l → L.present (mem₁ (L.slot l new j)) = false)
    (hnew : L.target e = new) (l j : Nat) (hj : j < L.fanout l) :
    L.present (Function.update mem₁ (L.slot p.length t i) e (L.slot l new j)) = false := by
  have hne : L.slot l new j ≠ L.slot p.length t i := by
    intro heq
    have howner := L.owner_slot _ new j (hnew ▸ L.isTable_target e) hj
    rw [heq, L.owner_slot _ t i (h.isTable ht) hp.1] at howner
    exact hfresh p hp.2 hpd (howner ▸ ht)
  rw [Function.update_of_ne hne]
  exact hzero _ j hj

/-- The insertion of a fresh table without present entries adds one entry. -/
theorem IsTree.lookup_link (h : L.IsTree depth mem root) (hp : L.ValidPath (i :: p))
    (hpd : p.length < depth) (ht : L.tableAt mem root p = some t)
    (hold : L.present (mem (L.slot p.length t i)) = false)
    (hfresh : ∀ q, L.ValidPath q → q.length < depth → L.tableAt mem root q ≠ some new)
    (hmem : ∀ a, L.owner a ≠ new → mem₁ a = mem a)
    (hzero : ∀ l j, j < L.fanout l → L.present (mem₁ (L.slot l new j)) = false)
    (he : L.present e = true) (hnew : L.target e = new) {q : List Nat} (hq : L.ValidPath q)
    (hqd : q.length ≤ depth) :
    L.lookup (Function.update mem₁ (L.slot p.length t i) e) root q =
      if q = i :: p then some e else L.lookup mem root q := by
  have h₁ := h.fresh hfresh hmem
  have ht₁ : L.tableAt mem₁ root p = some t := by
    rw [h.tableAt_fresh hfresh hmem hp.2 (Nat.le_of_lt hpd), ht]
  rw [h₁.lookup_update hp hpd ht₁ hq hqd, Option.filter_some, he, h.lookup_fresh hfresh hmem hq hqd]
  · rfl
  · intro hs hne
    have hlen : (i :: p).length < q.length :=
      Nat.lt_of_le_of_ne hs.length_le fun heq => hne (hs.eq_of_length heq).symm
    have htable : L.tableAt (Function.update mem₁ (L.slot p.length t i) e) root (i :: p) =
        some new :=
      tableAt_cons_eq_some.2 ⟨e, h₁.entryAt_update_self hp hpd ht₁, he, hnew⟩
    refine ⟨?_, lookup_eq_none_of_empty hq hs hlen htable fun j hj =>
      h.empty_of_link hp hpd ht hfresh hzero hnew _ j hj⟩
    rw [h.lookup_fresh hfresh hmem hq hqd]
    apply lookup_eq_none_of_absent hs
    intro e' he'
    obtain ⟨u, hu, rfl⟩ := entryAt_cons_eq_some.1 he'
    obtain rfl := Option.some.inj (ht.symm.trans hu)
    exact hold

theorem IsTree.link (h : L.IsTree depth mem root) (hp : L.ValidPath (i :: p))
    (hpd : p.length + 1 < depth) (ht : L.tableAt mem root p = some t)
    (hold : L.present (mem (L.slot p.length t i)) = false)
    (hfresh : ∀ q, L.ValidPath q → q.length < depth → L.tableAt mem root q ≠ some new)
    (hmem : ∀ a, L.owner a ≠ new → mem₁ a = mem a)
    (hzero : ∀ l j, j < L.fanout l → L.present (mem₁ (L.slot l new j)) = false)
    (he : L.present e = true) (hnew : L.target e = new) :
    L.Links depth mem root (i :: p) (Function.update mem₁ (L.slot p.length t i) e) new := by
  have hpd' : p.length < depth := Nat.lt_of_succ_lt hpd
  have hlookup : ∀ q, L.ValidPath q → q.length ≤ depth →
      L.lookup (Function.update mem₁ (L.slot p.length t i) e) root q =
        if q = i :: p then some e else L.lookup mem root q :=
    fun q hq hqd => h.lookup_link hp hpd' ht hold hfresh hmem hzero he hnew hq hqd
  -- so every table is the new one or an old one
  have hclass : ∀ q u, L.ValidPath q → q.length < depth →
      L.tableAt (Function.update mem₁ (L.slot p.length t i) e) root q = some u →
      (q = i :: p ∧ u = new) ∨ L.tableAt mem root q = some u := by
    intro q u hq hqd hu
    cases q with
    | nil => exact Or.inr hu
    | cons j q =>
        rw [tableAt_cons_eq_map_lookup, hlookup _ hq (Nat.le_of_lt hqd)] at hu
        split at hu
        next heq => exact Or.inl ⟨heq, (Option.some.inj hu).symm.trans hnew⟩
        next =>
          rw [tableAt_cons_eq_map_lookup]
          exact Or.inr hu
  refine ⟨⟨h.root_isTable, ?_⟩, ?_,
    fun q u hq hqd hu => (hclass q u hq hqd hu).imp And.right id, ?_⟩
  · intro q q' u hq hq' hqd hqd' hu hu'
    rcases hclass q u hq hqd hu with ⟨rfl, rfl⟩ | hu₁ <;>
      rcases hclass q' u hq' hqd' hu' with ⟨rfl, hnew'⟩ | hu₂
    · rfl
    · exact absurd hu₂ (hfresh q' hq' hqd')
    · exact absurd (hnew' ▸ hu₁) (hfresh q hq hqd)
    · exact h.inj q q' u hq hq' hqd hqd' hu₁ hu₂
  · rw [tableAt_cons_eq_map_lookup, hlookup _ hp hpd', if_pos rfl, Option.map_some, hnew]
  · intro q hq hqd
    rw [hlookup q hq (Nat.le_of_eq hqd), if_neg]
    rintro rfl
    exact absurd hqd (Nat.ne_of_lt hpd)

end Link

end Update

end Layout

end PetKernel.Library
