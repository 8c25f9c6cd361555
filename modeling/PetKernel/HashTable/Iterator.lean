import PetKernel.HashTable.Operations

/-!
# Iterators of the hash table

An iterator stands at an entry, or at the end. It keeps the slot of the entry and the entry before
it in the chain, `parent`, which is the null pointer at the front of a chain.

`entriesFrom` lists the entries of the slots in the order in which an iterator meets them, and
`IterAt` says which of them are still to come. `petHtableIterAdvance_spec` is one step of an
iterator and `petHtableIterRemove_spec` the removal of an entry under it.
-/

set_option autoImplicit false

namespace PetKernel.HashTable

open PetKernel.Library

/-! ## The functions of the source -/

/-- `struct hashtable_iter` for a given table. -/
structure HashtableIter where
  entry : Nat
  parent : Nat
  index : Nat
deriving DecidableEq, Repr

/-- The loops over the `n` slots from the `i`-th on that look for one that is used: the slot and its
first entry. -/
def scanSlots (h : Hashtable) : Nat → Nat → Except Fault (Option (Nat × Nat))
  | 0, _ => .ok none
  | n + 1, i => do
      let next ← h.table.read i
      if next = 0 then scanSlots h n (i + 1) else return some (i, next)

/-- `pet_htable_create_iter`, when there is memory for the iterator. -/
def petHtableCreateIter (h : Hashtable) : Except Fault HashtableIter :=
  if h.entryCount = 0 then .ok ⟨0, 0, h.tableLength⟩
  else do
    match ← scanSlots h h.tableLength 0 with
    | none => return ⟨0, 0, h.tableLength⟩
    | some (i, p) => return ⟨p, 0, i⟩

/-- `pet_htable_get_iter_key`. -/
def petHtableGetIterKey (h : Hashtable) (iter : HashtableIter) : Except Fault (BitVec 64) := do
  return (← h.read iter.entry).key

/-- `pet_htable_get_iter_value`. -/
def petHtableGetIterValue (h : Hashtable) (iter : HashtableIter) : Except Fault (BitVec 64) := do
  return (← h.read iter.entry).value

/-- `pet_htable_iter_advance`. -/
def petHtableIterAdvance (h : Hashtable) (iter : HashtableIter) :
    Except Fault (Int × HashtableIter) :=
  if iter.entry = 0 then .ok (0, iter)
  else do
    let next ← h.readNext iter.entry
    if next ≠ 0 then return (-1, { iter with parent := iter.entry, entry := next })
    else if h.tableLength ≤ iter.index + 1 then return (0, ⟨0, 0, iter.index + 1⟩)
    else do
      match ← scanSlots h (h.tableLength - (iter.index + 1)) (iter.index + 1) with
      | none => return (0, ⟨0, 0, h.tableLength⟩)
      | some (j, next) => return (-1, ⟨next, 0, j⟩)

/-- `pet_htable_iter_remove`. -/
def petHtableIterRemove (h : Hashtable) (iter : HashtableIter) (freeKey : Bool) :
    Except Fault (Int × Hashtable × HashtableIter) := do
  let next ← h.readNext iter.entry
  let h ← h.store (if iter.parent = 0 then .slot iter.index else .link iter.parent) next
  let rememberEntry := iter.entry
  let h := { h with entryCount := h.entryCount - 1 }
  let h := h.freeIf freeKey (← h.read rememberEntry).key
  let rememberParent := iter.parent
  let (ret, iter) ← petHtableIterAdvance h iter
  let iter := if iter.parent = rememberEntry then { iter with parent := rememberParent } else iter
  return (ret, ← h.freeEntry rememberEntry, iter)

/-- `pet_htable_iter_search`; `iter` is left alone if the key is not found. -/
def petHtableIterSearch (fns : KeyFns) (h : Hashtable) (iter : HashtableIter) (key : BitVec 64) :
    Except Fault (Int × HashtableIter) := do
  let (entryPtr, entry) ← findKey fns h key
  if entry = 0 then return (0, iter)
  else
    let parent := match entryPtr with
      | .slot _ => 0
      | .link p => p
    return (-1, ⟨entry, parent, indexFor h.tableLength (doHash fns key)⟩)

/-! ## The order of an iterator -/

/-- The entries of the `n` slots from the `i`-th on. -/
def entriesFrom (b : Nat → List Nat) (i n : Nat) : List Nat := (List.range' i n).flatMap b

theorem entriesFrom_succ (b : Nat → List Nat) (i n : Nat) :
    entriesFrom b i (n + 1) = b i ++ entriesFrom b (i + 1) n := by
  simp [entriesFrom, List.range'_succ]

theorem mem_entriesFrom {b : Nat → List Nat} {i n p : Nat} :
    p ∈ entriesFrom b i n ↔ ∃ j, i ≤ j ∧ j < i + n ∧ p ∈ b j := by
  simp [entriesFrom, List.mem_range'_1, and_assoc]

/-- Entries that are taken out of the chains are taken out of the order. -/
theorem entriesFrom_filter {b b' : Nat → List Nat} {f : Nat → Bool} {i n : Nat}
    (h : ∀ j, i ≤ j → j < i + n → b' j = (b j).filter f) :
    entriesFrom b' i n = (entriesFrom b i n).filter f := by
  induction n generalizing i with
  | zero => rfl
  | succ n ih =>
      rw [entriesFrom_succ, entriesFrom_succ, List.filter_append, h i (by omega) (by omega)]
      rw [ih fun j hij hj => h j (by omega) (by omega)]

/-- All entries of a table, in the order of an iterator. -/
def entries (h : Hashtable) (b : Nat → List Nat) : List Nat := entriesFrom b 0 h.tableLength

/-- The entries that follow those of the slot `i`. -/
def entriesAfter (h : Hashtable) (b : Nat → List Nat) (i : Nat) : List Nat :=
  entriesFrom b (i + 1) (h.tableLength - (i + 1))

theorem entriesAfter_congr {h h' : Hashtable} {b b' : Nat → List Nat} {i : Nat}
    (hlen : h'.tableLength = h.tableLength) (hb : ∀ j, i < j → b' j = b j) :
    entriesAfter h' b' i = entriesAfter h b i := by
  rw [entriesAfter, entriesAfter, hlen]
  apply List.flatMap_congr
  intro j hj
  exact hb j (List.mem_range'_1.1 hj).1

/-- The iterator stands at the first entry of `rest`, and the entries of `rest` are still to
come. -/
inductive IterAt (h : Hashtable) (b : Nat → List Nat) (iter : HashtableIter) : List Nat → Prop where
  | finished (hentry : iter.entry = 0) (hparent : iter.parent = 0) : IterAt h b iter []
  | entry {us vs : List Nat} (hindex : iter.index < h.tableLength)
      (hchain : b iter.index = us ++ iter.entry :: vs) (hparent : iter.parent = us.getLastD 0) :
      IterAt h b iter (iter.entry :: (vs ++ entriesAfter h b iter.index))

/-- An iterator at the front of a chain. -/
theorem IterAt.front {h : Hashtable} {b : Nat → List Nat} {j p : Nat} {vs : List Nat}
    (hj : j < h.tableLength) (hchain : b j = p :: vs) :
    IterAt h b ⟨p, 0, j⟩ (p :: (vs ++ entriesAfter h b j)) :=
  @IterAt.entry h b ⟨p, 0, j⟩ [] vs hj hchain rfl

/-- An iterator at an entry behind `us`. -/
theorem IterAt.behind {h : Hashtable} {b : Nat → List Nat} {j p parent : Nat} {us vs : List Nat}
    (hj : j < h.tableLength) (hchain : b j = us ++ p :: vs) (hparent : parent = us.getLastD 0) :
    IterAt h b ⟨p, parent, j⟩ (p :: (vs ++ entriesAfter h b j)) :=
  @IterAt.entry h b ⟨p, parent, j⟩ us vs hj hchain hparent

/-- The slots from the `i`-th on hold the chains `b`. Nothing is said of the slots before: while an
entry is removed, its own slot is behind the iterator. -/
def SlotsFrom (h : Hashtable) (b : Nat → List Nat) (i : Nat) : Prop :=
  ∀ j, i ≤ j → j < h.tableLength → h.table.read j = .ok ((b j).headD 0) ∧ 0 ∉ b j

section Entries

variable {fns : KeyFns} {h : Hashtable} {b : Nat → List Nat}

theorem Buckets.slotsFrom (hb : Buckets fns h b) (i : Nat) : SlotsFrom h b i :=
  fun j _ hj => ⟨hb.read_slot hj, hb.chains.nonnil j hj⟩

theorem Buckets.nodup_entriesFrom (hb : Buckets fns h b) {n i : Nat} (hn : i + n ≤ h.tableLength) :
    (entriesFrom b i n).Nodup := by
  induction n generalizing i with
  | zero => exact List.nodup_nil
  | succ n ih =>
      rw [entriesFrom_succ]
      apply (hb.chains.nodup i (by omega)).append (ih (by omega))
      intro p hp hrest
      obtain ⟨j, hij, hj, hpj⟩ := mem_entriesFrom.1 hrest
      have hsame := hb.chains.disjoint i j p (by omega) (by omega) hp hpj
      omega

/-- The order of an iterator has every entry once. -/
theorem Buckets.entries_perm (hb : Buckets fns h b) : (entries h b).Perm h.live := by
  apply (List.perm_ext_iff_of_nodup (hb.nodup_entriesFrom (Nat.zero_add _).le) hb.nodup).2
  intro p
  rw [mem_entriesFrom, hb.live]
  simp

/-- The loop over the slots finds the next entry. -/
theorem scanSlots_spec {n i : Nat} (hs : SlotsFrom h b i) (hn : i + n = h.tableLength) :
    (entriesFrom b i n = [] ∧ scanSlots h n i = .ok none) ∨
    ∃ j p vs, i ≤ j ∧ j < h.tableLength ∧ b j = p :: vs ∧ scanSlots h n i = .ok (some (j, p)) ∧
      entriesFrom b i n = p :: (vs ++ entriesAfter h b j) := by
  induction n generalizing i with
  | zero => exact Or.inl ⟨rfl, rfl⟩
  | succ n ih =>
      obtain ⟨hread, hnull⟩ := hs i (Nat.le_refl i) (by omega)
      rw [scanSlots, hread, entriesFrom_succ]
      cases hchain : b i with
      | nil =>
          have hs' : SlotsFrom h b (i + 1) := fun j hij hj => hs j (by omega) hj
          rcases ih hs' (by omega) with
            ⟨hnil, hscan⟩ | ⟨j, p, vs, hij, hj, hbj, hscan, hrest⟩
          · exact Or.inl ⟨hnil, hscan⟩
          · exact Or.inr ⟨j, p, vs, by omega, hj, hbj, hscan, hrest⟩
      | cons p vs =>
          have hne : ¬ p = 0 := by
            rintro rfl
            exact hnull (hchain ▸ List.mem_cons_self)
          have hlen : h.tableLength - (i + 1) = n := by omega
          refine Or.inr ⟨i, p, vs, Nat.le_refl i, by omega, hchain, if_neg hne, ?_⟩
          rw [entriesAfter, hlen]
          rfl

end Entries

/-! ## Steps of an iterator -/

/-- Where an iterator goes from an entry that is followed by `vs` in its chain. -/
inductive Advances (h : Hashtable) (b : Nat → List Nat) (iter : HashtableIter) :
    List Nat → Int → HashtableIter → Prop where
  | within (q : Nat) (vs : List Nat) : Advances h b iter (q :: vs) (-1) ⟨q, iter.entry, iter.index⟩
  | across {j q : Nat} {vs : List Nat} (hij : iter.index < j) (hj : j < h.tableLength)
      (hchain : b j = q :: vs) (hrest : entriesAfter h b iter.index =
        q :: (vs ++ entriesAfter h b j)) :
      Advances h b iter [] (-1) ⟨q, 0, j⟩
  | finish (hrest : entriesAfter h b iter.index = []) (i : Nat) : Advances h b iter [] 0 ⟨0, 0, i⟩

section Steps

variable {fns : KeyFns} {h : Hashtable} {b : Nat → List Nat} {iter : HashtableIter}
  {us vs rest : List Nat} {p : Nat}

/-- What `pet_htable_iter_advance` does at an entry. -/
theorem petHtableIterAdvance_cases (hentry : iter.entry ≠ 0)
    (hnext : h.readNext iter.entry = .ok (vs.headD 0)) (hvs : 0 ∉ vs)
    (hs : SlotsFrom h b (iter.index + 1)) :
    ∃ r iter', petHtableIterAdvance h iter = .ok (r, iter') ∧ Advances h b iter vs r iter' := by
  rw [petHtableIterAdvance, if_neg hentry, hnext]
  cases vs with
  | cons q vs =>
      have hq : q ≠ 0 := by
        rintro rfl
        exact hvs List.mem_cons_self
      exact ⟨-1, ⟨q, iter.entry, iter.index⟩, if_pos hq, .within q vs⟩
  | nil =>
      by_cases hlast : h.tableLength ≤ iter.index + 1
      · have hrest : entriesAfter h b iter.index = [] := by
          rw [entriesAfter, Nat.sub_eq_zero_of_le hlast]
          rfl
        exact ⟨0, ⟨0, 0, iter.index + 1⟩, if_pos hlast, .finish hrest _⟩
      · rcases scanSlots_spec (n := h.tableLength - (iter.index + 1)) hs (by omega) with
          ⟨hnil, hscan⟩ | ⟨j, q, vs, hij, hj, hbj, hscan, hrest⟩
        · refine ⟨0, ⟨0, 0, h.tableLength⟩, (if_neg hlast).trans ?_, .finish hnil _⟩
          rw [hscan]
          rfl
        · refine ⟨-1, ⟨q, 0, j⟩, (if_neg hlast).trans ?_, .across (by omega) hj hbj hrest⟩
          rw [hscan]
          rfl

/-- The entry at which an iterator stands is in its chain. -/
theorem IterAt.chain (hit : IterAt h b iter (p :: rest)) :
    iter.entry = p ∧ iter.index < h.tableLength ∧ ∃ us vs, b iter.index = us ++ p :: vs ∧
      iter.parent = us.getLastD 0 ∧ rest = vs ++ entriesAfter h b iter.index := by
  generalize hl : p :: rest = l at hit
  cases hit with
  | finished => cases hl
  | entry hindex hchain hparent =>
      rename_i us vs
      obtain ⟨rfl, rfl⟩ := List.cons.inj hl
      exact ⟨rfl, hindex, us, vs, hchain, hparent, rfl⟩

/-- A new iterator stands at the first entry. -/
theorem petHtableCreateIter_spec (hb : IsTable fns h b) (hfew : h.live.length < 2 ^ 32) :
    ∃ iter, petHtableCreateIter h = .ok iter ∧ IterAt h b iter (entries h b) := by
  have hcount : h.entryCount = 0 ↔ entries h b = [] := by
    have hzero : h.entryCount = 0 ↔ h.live.length = 0 := by
      rw [hb.count, ← BitVec.toNat_inj, BitVec.toNat_ofNat, Nat.mod_eq_of_lt hfew]
      rfl
    rw [hzero, ← hb.entries_perm.length_eq, List.length_eq_zero_iff]
  by_cases hempty : h.entryCount = 0
  · rw [petHtableCreateIter, if_pos hempty, hcount.1 hempty]
    exact ⟨_, rfl, .finished rfl rfl⟩
  · rw [petHtableCreateIter, if_neg hempty]
    rcases scanSlots_spec (hb.slotsFrom 0) (Nat.zero_add _) with
      ⟨hnil, -⟩ | ⟨j, p, vs, -, hj, hbj, hscan, hrest⟩
    · exact absurd (hcount.2 hnil) hempty
    · rw [hscan, entries, hrest]
      exact ⟨⟨p, 0, j⟩, rfl, .front hj hbj⟩

/-- The way depends on the chains alone. -/
theorem Advances.congr {r : Int} {iter' : HashtableIter} {h' : Hashtable}
    (hadv : Advances h b iter vs r iter') (hlen : h'.tableLength = h.tableLength) :
    Advances h' b iter vs r iter' := by
  have hafter : ∀ j, entriesAfter h' b j = entriesAfter h b j :=
    fun j => entriesAfter_congr hlen fun _ _ => rfl
  cases hadv with
  | within q vs => exact .within q vs
  | across hij hj hbj hrest => exact .across hij (hlen ▸ hj) hbj (by rw [hafter, hafter, hrest])
  | finish hrest i => exact .finish ((hafter _).trans hrest) i

/-- The reply says whether there is a next entry. -/
theorem Advances.reply_eq {r : Int} {iter' : HashtableIter} (hadv : Advances h b iter vs r iter') :
    r = if vs ++ entriesAfter h b iter.index = [] then 0 else -1 := by
  cases hadv with
  | within q vs => simp
  | across hij hj hbj hrest => simp [hrest]
  | finish hrest i => simp [hrest]

/-- The iterator stands at the next entry of the same chains. -/
theorem Advances.iterAt {r : Int} {iter' : HashtableIter} (hadv : Advances h b iter vs r iter')
    (hindex : iter.index < h.tableLength) (hchain : b iter.index = us ++ iter.entry :: vs) :
    IterAt h b iter' (vs ++ entriesAfter h b iter.index) := by
  cases hadv with
  | within q vs =>
      have hchain' : b iter.index = (us ++ [iter.entry]) ++ q :: vs := by simp [hchain]
      exact .behind hindex hchain' List.getLastD_concat.symm
  | across hij hj hbj hrest =>
      rw [List.nil_append, hrest]
      exact .front hj hbj
  | finish hrest i =>
      rw [List.nil_append, hrest]
      exact .finished rfl rfl

/-- The iterator, with its parent put right, stands at the next entry of the chains without the
entry that it comes from. -/
theorem Advances.iterAt_unlinked {r : Int} {iter' : HashtableIter} {h' : Hashtable}
    (hadv : Advances h b iter vs r iter') (hindex : iter.index < h.tableLength)
    (hentry : iter.entry ≠ 0) (hparent : iter.parent = us.getLastD 0)
    (hlen : h'.tableLength = h.tableLength) :
    IterAt h' (Function.update b iter.index (us ++ vs))
      (if iter'.parent = iter.entry then { iter' with parent := iter.parent } else iter')
      (vs ++ entriesAfter h b iter.index) := by
  have hafter : ∀ j, iter.index ≤ j →
      entriesAfter h b j = entriesAfter h' (Function.update b iter.index (us ++ vs)) j :=
    fun j hj => (entriesAfter_congr hlen fun k hk =>
      Function.update_of_ne (Nat.ne_of_gt (Nat.lt_of_le_of_lt hj hk)) _ _).symm
  cases hadv with
  | within q vs =>
      rw [if_pos rfl, hafter _ (Nat.le_refl _)]
      exact .behind (hlen ▸ hindex) (Function.update_self ..) hparent
  | across hij hj hbj hrest =>
      rename_i j q ws
      rw [if_neg hentry.symm, List.nil_append, hrest, hafter j hij.le]
      have hchain : Function.update b iter.index (us ++ []) j = q :: ws := by
        rw [Function.update_of_ne (Nat.ne_of_gt hij), hbj]
      exact .front (hlen ▸ hj) hchain
  | finish hrest i =>
      rw [if_neg hentry.symm, List.nil_append, hrest]
      exact .finished rfl rfl

/-- The iterator moves on to the next entry, and the reply says whether there is one. -/
theorem petHtableIterAdvance_spec (hb : Buckets fns h b) (hit : IterAt h b iter (p :: rest)) :
    ∃ iter', petHtableIterAdvance h iter = .ok (if rest = [] then 0 else -1, iter') ∧
      IterAt h b iter' rest := by
  obtain ⟨rfl, hindex, us, vs, hchain, hparent, rfl⟩ := hit.chain
  have hmem : iter.entry ∈ b iter.index := by simp [hchain]
  have hvs : 0 ∉ vs := by
    intro hnull
    apply hb.chains.nonnil iter.index hindex
    simp [hchain, hnull]
  obtain ⟨r, iter', hrun, hadv⟩ := petHtableIterAdvance_cases (hb.ne_null hindex hmem)
    (hb.readNext_eq hindex hchain) hvs (hb.slotsFrom _)
  rw [hrun, ← hadv.reply_eq]
  exact ⟨iter', rfl, hadv.iterAt hindex hchain⟩

/-- The place that points to the entry of an iterator. -/
theorem ptrAfter_of_parent (i : Nat) (hus : 0 ∉ us) :
    (if us.getLastD 0 = 0 then EntryPtr.slot i else .link (us.getLastD 0)) = ptrAfter i us := by
  rcases List.eq_nil_or_concat us with rfl | ⟨us', u, rfl⟩
  · rfl
  · rw [List.concat_eq_append] at hus ⊢
    have hu : ¬ u = 0 := by
      rintro rfl
      exact hus (by simp)
    rw [List.getLastD_concat, ptrAfter_concat, if_neg hu]

/-- The heap in the middle of a removal: the entry `p` is out of its chain and not yet freed. -/
def Hashtable.unlinked (h : Hashtable) (p : Nat) (freeKey : Bool) (next ptr : Nat → Nat) :
    Hashtable :=
  { h with
    next := next
    table := { h.table with ptr := ptr }
    freed := h.freed ++ if freeKey then [(h.entry p).key] else []
    entryCount := h.entryCount - 1 }

theorem freeIf_eq_unlinked (h : Hashtable) (p : Nat) (freeKey : Bool) (next ptr : Nat → Nat) :
    ({ h with
      next := next
      table := { h.table with ptr := ptr }
      entryCount := h.entryCount - 1 } : Hashtable).freeIf freeKey (h.entry p).key =
        h.unlinked p freeKey next ptr := by
  cases freeKey <;> simp [Hashtable.freeIf, Hashtable.unlinked]

theorem freeEntry_unlinked (hp : p ∈ h.live) {freeKey : Bool} {next ptr : Nat → Nat} :
    (h.unlinked p freeKey next ptr).freeEntry p =
      .ok { h.unlinked p freeKey next ptr with live := h.live.erase p } := if_pos hp

/-- The heap after the removal of the entries `ps`, each with the flag that says whether its key is
freed. -/
structure Removed (h : Hashtable) (ps : List (Nat × Bool)) (h' : Hashtable) : Prop where
  entry : h'.entry = h.entry
  length : h'.tableLength = h.tableLength
  live : h'.live = h.live.diff (ps.map Prod.fst)
  freed : h'.freed = h.freed ++ (ps.filter Prod.snd).map fun p => (h.entry p.1).key

theorem Removed.nil (h : Hashtable) : Removed h [] h := ⟨rfl, rfl, rfl, (List.append_nil _).symm⟩

theorem Removed.append {h h₁ h₂ : Hashtable} {ps qs : List (Nat × Bool)} (h₁r : Removed h ps h₁)
    (h₂r : Removed h₁ qs h₂) : Removed h (ps ++ qs) h₂ where
  entry := h₂r.entry.trans h₁r.entry
  length := h₂r.length.trans h₁r.length
  live := by rw [h₂r.live, h₁r.live, List.map_append, List.diff_append]
  freed := by simp [h₂r.freed, h₁r.freed, h₁r.entry]

/-- The parts of `pet_htable_iter_remove` put together. -/
theorem petHtableIterRemove_eq {freeKey : Bool} {next ptr : Nat → Nat} {r : Int}
    {iter' : HashtableIter} (hlive : iter.entry ∈ h.live)
    (hstore : h.store (if iter.parent = 0 then .slot iter.index else .link iter.parent)
        (h.next iter.entry) =
      .ok { h with next := next, table := { h.table with ptr := ptr } })
    (hadvance : petHtableIterAdvance (h.unlinked iter.entry freeKey next ptr) iter =
      .ok (r, iter')) :
    petHtableIterRemove h iter freeKey =
      .ok (r, { h.unlinked iter.entry freeKey next ptr with live := h.live.erase iter.entry },
        if iter'.parent = iter.entry then { iter' with parent := iter.parent } else iter') := by
  rw [petHtableIterRemove]
  simp only [bind, Except.bind, Hashtable.readNext_of_mem hlive, hstore, Hashtable.read,
    if_pos hlive, freeIf_eq_unlinked, hadvance, freeEntry_unlinked hlive]
  rfl

/-- What `pet_htable_iter_remove` does to the heap, and where the iterator goes from there. -/
theorem petHtableIterRemove_heap (hb : Buckets fns h b) (iter : HashtableIter)
    (hindex : iter.index < h.tableLength) (hchain : b iter.index = us ++ iter.entry :: vs)
    (hparent : iter.parent = us.getLastD 0) (freeKey : Bool) :
    ∃ next ptr r iter',
      h.store (ptrAfter iter.index us) (h.next iter.entry) =
        .ok { h with next := next, table := { h.table with ptr := ptr } } ∧
      ChainArray next (fun _ => 0) ptr h.tableLength (Function.update b iter.index (us ++ vs)) ∧
      Advances h b iter vs r iter' ∧
      petHtableIterRemove h iter freeKey =
        .ok (r, { h.unlinked iter.entry freeKey next ptr with live := h.live.erase iter.entry },
          if iter'.parent = iter.entry then { iter' with parent := iter.parent } else iter') := by
  have hmem : iter.entry ∈ b iter.index := by simp [hchain]
  have hlive : iter.entry ∈ h.live := hb.mem_live hindex hmem
  have hnull : 0 ∉ us ∧ 0 ∉ vs := by
    have hnull := hb.chains.nonnil iter.index hindex
    simp only [hchain, List.mem_append, List.mem_cons, not_or] at hnull
    exact ⟨hnull.1, hnull.2.2⟩
  obtain ⟨next, ptr, hstore, hsame, hc⟩ := store_unlink hb.chains hindex hb.size
    (fun q hq => hb.mem_live hindex hq) hchain
  -- the iterator moves on while its entry is out of the chain, with its link as it was
  have hnext : (h.unlinked iter.entry freeKey next ptr).readNext iter.entry = .ok (vs.headD 0) := by
    rw [← hb.chains.next_eq hindex hchain, ← hsame]
    exact if_pos hlive
  have hslots : SlotsFrom (h.unlinked iter.entry freeKey next ptr) b (iter.index + 1) := by
    intro j hij hj
    have hhead := hc.head j hj
    rw [Function.update_of_ne (Nat.ne_of_gt hij)] at hhead
    rw [← hhead]
    exact ⟨Slots.read_of_lt (hb.size.symm ▸ hj), hb.chains.nonnil j hj⟩
  obtain ⟨r, iter', hadvance, hadv⟩ :=
    petHtableIterAdvance_cases (hb.ne_null hindex hmem) hnext hnull.2 hslots
  refine ⟨next, ptr, r, iter', hstore, hc, hadv.congr rfl, ?_⟩
  rw [← ptrAfter_of_parent _ hnull.1, ← hparent] at hstore
  exact petHtableIterRemove_eq hlive hstore hadvance

/-- The entry under the iterator is taken out of its chain and freed. The iterator stands at the
next entry, and it is as good as one that never saw the entry removed. -/
theorem petHtableIterRemove_spec (hb : IsTable fns h b) (hit : IterAt h b iter (p :: rest))
    (freeKey : Bool) :
    ∃ h' b' iter', petHtableIterRemove h iter freeKey = .ok (if rest = [] then 0 else -1,
      h', iter') ∧ IsTable fns h' b' ∧ IterAt h' b' iter' rest ∧ Removed h [(p, freeKey)] h' ∧
      ∀ j, j < h.tableLength → b' j = (b j).filter (· ≠ p) := by
  obtain ⟨rfl, hindex, us, vs, hchain, hparent, rfl⟩ := hit.chain
  have hmem : iter.entry ∈ b iter.index := by simp [hchain]
  have hlive : iter.entry ∈ h.live := hb.mem_live hindex hmem
  obtain ⟨next, ptr, r, iter', -, hc, hadv, hrun⟩ :=
    petHtableIterRemove_heap hb.toBuckets iter hindex hchain hparent freeKey
  have hb' : IsTable fns { h.unlinked iter.entry freeKey next ptr with
      live := h.live.erase iter.entry } (Function.update b iter.index (us ++ vs)) :=
    ⟨hb.toBuckets.dropEntry hindex hchain hc _ _, hb.count_erase hlive⟩
  have hremoved : Removed h [(iter.entry, freeKey)]
      { h.unlinked iter.entry freeKey next ptr with live := h.live.erase iter.entry } := by
    refine ⟨rfl, rfl, ?_, ?_⟩
    · rw [List.map_singleton, List.diff_cons, List.diff_nil]
    · cases freeKey <;> rfl
  have hentry : iter.entry ≠ 0 := hb.ne_null hindex hmem
  refine ⟨_, _, _, ?_, hb', hadv.iterAt_unlinked hindex hentry hparent rfl, hremoved, ?_⟩
  · rw [hrun, hadv.reply_eq]
  · intro j hj
    by_cases hji : j = iter.index
    · have hnodup := hb.chains.nodup iter.index hindex
      rw [hchain, List.nodup_middle, List.nodup_cons, List.mem_append, not_or] at hnodup
      rw [hji, Function.update_self, hchain, List.filter_append, List.filter_cons_of_neg (by simp)]
      rw [List.filter_eq_self.2 fun q hq => ?_, List.filter_eq_self.2 fun q hq => ?_]
      · exact decide_eq_true fun hc => hnodup.1.2 (hc ▸ hq)
      · exact decide_eq_true fun hc => hnodup.1.1 (hc ▸ hq)
    · rw [Function.update_of_ne hji, List.filter_eq_self.2]
      intro q hq
      refine decide_eq_true fun hc => hji ?_
      exact hb.chains.disjoint j iter.index iter.entry hj hindex (hc ▸ hq) hmem

end Steps

end PetKernel.HashTable
