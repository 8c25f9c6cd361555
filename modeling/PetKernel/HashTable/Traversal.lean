import PetKernel.HashTable.Iterator
import PetKernel.HashTable.Refinement

/-!
# Runs over all entries of a table

A user goes through a table with an iterator, reads the key and the value of each entry, and then
moves on or removes the entry (`iterRun`). The machine `usedHtables` makes such walks besides the
calls for one key, and all of its tables are in order (`isTable_of_reach`). In a walk from the first
entry the user meets every entry exactly once, slot by slot and in the order of the chains, and the
entries that are left are those that were not removed (`iterator_visits_each_entry_once`). To remove
a key by an iterator that was put on it is the same as to remove it (`remove_eq_removeByIter`).

`pet_free_htable` goes through a table as well, and frees every entry once
(`free_htable_frees_all_once`).
-/

set_option autoImplicit false

namespace PetKernel.HashTable

open PetKernel.Library

/-! ## Runs of an iterator -/

/-- What the user does with the entry under the iterator. -/
inductive IterCall where
  | advance
  | remove (freeKey : Bool)
deriving DecidableEq, Repr

def IterCall.run (h : Hashtable) (iter : HashtableIter) :
    IterCall → Except Fault (Int × Hashtable × HashtableIter)
  | advance => (petHtableIterAdvance h iter).map fun r => (r.1, h, r.2)
  | remove freeKey => petHtableIterRemove h iter freeKey

/-- The user reads the key and the value of the entry under the iterator and then makes a call, as
often as there are calls. The result has the keys, the values and the replies. -/
def iterRun : List IterCall → Hashtable → HashtableIter →
    Except Fault (List (BitVec 64 × BitVec 64 × Int) × Hashtable × HashtableIter)
  | [], h, iter => .ok ([], h, iter)
  | call :: calls, h, iter => do
      let key ← petHtableGetIterKey h iter
      let value ← petHtableGetIterValue h iter
      let (r, h, iter) ← call.run h iter
      let (seen, h, iter) ← iterRun calls h iter
      return ((key, value, r) :: seen, h, iter)

/-- What the user should see: each entry once, and the reply 0 at the last one. -/
def report (h : Hashtable) : List Nat → List (BitVec 64 × BitVec 64 × Int)
  | [] => []
  | p :: rest => ((h.entry p).key, (h.entry p).value, if rest = [] then 0 else -1) :: report h rest

/-- The entries that the calls remove, with the flag for the key. -/
def removals : List IterCall → List Nat → List (Nat × Bool)
  | .remove freeKey :: calls, p :: rest => (p, freeKey) :: removals calls rest
  | .advance :: calls, _ :: rest => removals calls rest
  | _, _ => []

/-- The entries that are left. -/
def kept (calls : List IterCall) (ps : List Nat) (p : Nat) : Bool :=
  p ∉ (removals calls ps).map Prod.fst

theorem report_congr {h h' : Hashtable} (hentry : h'.entry = h.entry) (ps : List Nat) :
    report h' ps = report h ps := by
  induction ps with
  | nil => rfl
  | cons p ps ih => rw [report, report, ih, hentry]

theorem length_report (h : Hashtable) (ps : List Nat) : (report h ps).length = ps.length := by
  induction ps with
  | nil => rfl
  | cons p ps ih => rw [report, List.length_cons, List.length_cons, ih]

section Runs

variable {fns : KeyFns} {h : Hashtable} {b : Nat → List Nat} {iter : HashtableIter}

/-- One call on an entry. -/
theorem IterCall.run_spec (hb : IsTable fns h b) {p : Nat} {rest : List Nat}
    (hit : IterAt h b iter (p :: rest)) (call : IterCall) :
    ∃ h' b' iter', call.run h iter = .ok (if rest = [] then 0 else -1, h', iter') ∧
      IsTable fns h' b' ∧ IterAt h' b' iter' rest ∧ Removed h (removals [call] [p]) h' ∧
      ∀ j, j < h.tableLength → b' j = (b j).filter (kept [call] [p]) := by
  cases call with
  | advance =>
      obtain ⟨iter', hrun, hit'⟩ := petHtableIterAdvance_spec hb.toBuckets hit
      refine ⟨h, b, iter', ?_, hb, hit', Removed.nil h, fun j _ => ?_⟩
      · rw [IterCall.run, hrun]
        rfl
      · exact (List.filter_eq_self.2 fun q _ => rfl).symm
  | remove freeKey =>
      obtain ⟨h', b', iter', hrun, hb', hit', hremoved, hfilter⟩ :=
        petHtableIterRemove_spec hb hit freeKey
      refine ⟨h', b', iter', hrun, hb', hit', hremoved, fun j hj => ?_⟩
      rw [hfilter j hj]
      apply List.filter_congr
      intro q _
      simp [kept, removals]

/-- The calls of a run, one entry after the other. -/
theorem iterRun_spec (calls : List IterCall) {rest : List Nat} (hb : IsTable fns h b)
    (hit : IterAt h b iter rest) (hlen : calls.length ≤ rest.length) :
    ∃ h' b' iter', iterRun calls h iter = .ok ((report h rest).take calls.length, h', iter') ∧
      IsTable fns h' b' ∧ IterAt h' b' iter' (rest.drop calls.length) ∧
      Removed h (removals calls rest) h' ∧
      ∀ j, j < h.tableLength → b' j = (b j).filter (kept calls rest) := by
  -- each call takes the iterator to the next entry, whether it removes the one it stands at or not
  induction calls generalizing h b iter rest with
  | nil =>
      refine ⟨h, b, iter, rfl, hb, hit, Removed.nil h, fun j _ => ?_⟩
      exact (List.filter_eq_self.2 fun q _ => rfl).symm
  | cons call calls ih =>
      cases rest with
      | nil => exact absurd hlen (Nat.not_succ_le_zero _)
      | cons p rest =>
          obtain ⟨hentry, hindex, us, vs, hchain, -⟩ := hit.chain
          have hlive : iter.entry ∈ h.live := hb.mem_live hindex (by simp [hchain, hentry])
          obtain ⟨h₁, b₁, iter₁, hrun₁, hb₁, hit₁, hrem₁, hfilter₁⟩ := call.run_spec hb hit
          obtain ⟨h₂, b₂, iter₂, hrun₂, hb₂, hit₂, hrem₂, hfilter₂⟩ :=
            ih hb₁ hit₁ (Nat.le_of_succ_le_succ hlen)
          have hsplit : removals (call :: calls) (p :: rest) =
              removals [call] [p] ++ removals calls rest := by
            cases call <;> rfl
          refine ⟨h₂, b₂, iter₂, ?_, hb₂, hit₂, ?_, ?_⟩
          · rw [report_congr hrem₁.entry] at hrun₂
            rw [iterRun, petHtableGetIterKey, petHtableGetIterValue, Hashtable.read_of_mem hlive]
            simp only [bind, Except.bind, pure, Except.pure, hrun₁, hrun₂, hentry]
            rfl
          · rw [hsplit]
            exact hrem₁.append hrem₂
          · intro j hj
            rw [hfilter₂ j (hrem₁.length.symm ▸ hj), hfilter₁ j hj, List.filter_filter]
            apply List.filter_congr
            intro q _
            simp [kept, hsplit, and_comm]

/-- The entries of the only slot that has any. -/
theorem entriesFrom_single {c : Nat → List Nat} {i : Nat} (n s : Nat)
    (hc : ∀ j, s ≤ j → j < s + n → j ≠ i → c j = []) :
    entriesFrom c s n = if s ≤ i ∧ i < s + n then c i else [] := by
  induction n generalizing s with
  | zero => simp [entriesFrom]
  | succ n ih =>
      rw [entriesFrom_succ, ih (s + 1) fun j hsj hj => hc j (by omega) (by omega)]
      by_cases hsi : s = i
      · simp [hsi]
      · rw [hc s (Nat.le_refl s) (by omega) hsi, List.nil_append]
        congr 1
        apply propext
        omega

/-- The values of a key are met in the order of its stack. -/
theorem stack_eq_entries (hf : fns.Lawful) (hb : Buckets fns h b) (key : BitVec 64) :
    stack fns h b key =
      ((entries h b).filter fun p => fns.eqFn key (h.entry p).key).map fun p =>
        (h.entry p).value := by
  have hslot : slotOf fns h key < h.tableLength := hb.indexFor_lt _
  have hmatch : ∀ j, j < h.tableLength →
      (b j).filter (fun p => fns.eqFn key (h.entry p).key) = (b j).filter (Matches fns h key) := by
    intro j hj
    apply List.filter_congr
    intro p hp
    exact (hb.matches_eq hf (hb.mem_live hj hp) key).symm
  -- the entries for the key are all in one slot
  have hother : ∀ j, 0 ≤ j → j < 0 + h.tableLength → j ≠ slotOf fns h key →
      (b j).filter (fun p => fns.eqFn key (h.entry p).key) = [] := by
    intro j _ hj hne
    rw [Nat.zero_add] at hj
    rw [hmatch j hj, List.filter_eq_nil_iff]
    intro p hp hm
    have hhash : doHash fns key = (h.entry p).hash := (of_decide_eq_true hm).1
    apply hne
    rw [slotOf, hhash, hb.index j p hj hp]
  have hall : entriesFrom (fun j => (b j).filter fun p => fns.eqFn key (h.entry p).key) 0
      h.tableLength =
      (entries h b).filter fun p => fns.eqFn key (h.entry p).key :=
      entriesFrom_filter fun _ _ _ => rfl
  rw [← hall, entriesFrom_single _ _ hother, if_pos ⟨Nat.zero_le _, by omega⟩, hmatch _ hslot]
  rfl

/-- `pet_htable_search` returns the first value for the key in the order of an iterator. -/
theorem petHtableSearch_eq_entries (hf : fns.Lawful) (hb : IsTable fns h b) (key : BitVec 64) :
    petHtableSearch fns h key = .ok
      ((((entries h b).filter fun p => fns.eqFn key (h.entry p).key).map
      fun p => (h.entry p).value).headD 0) := by
  rw [petHtableSearch_spec hb, ← stack_eq_entries hf hb.toBuckets]
  rfl

/-- An iterator that removes nothing leaves the table alone. -/
theorem iterRun_advance {n : Nat} {seen : List (BitVec 64 × BitVec 64 × Int)} {h' : Hashtable}
    {iter' : HashtableIter}
    (hrun : iterRun (List.replicate n .advance) h iter = .ok (seen, h', iter')) : h' = h := by
  induction n generalizing iter seen h' iter' with
  | zero =>
      have hstop : (([], h, iter) : List (BitVec 64 × BitVec 64 × Int) × _) = (seen, h', iter') :=
        Except.ok.inj hrun
      exact (congrArg (fun r => r.2.1) hstop).symm
  | succ n ih =>
      rw [List.replicate_succ, iterRun, petHtableGetIterKey, petHtableGetIterValue,
        IterCall.run] at hrun
      cases hread : h.read iter.entry with
      | error e =>
          rw [hread] at hrun
          cases hrun
      | ok e =>
          cases hadvance : petHtableIterAdvance h iter with
          | error e =>
              rw [hread, hadvance] at hrun
              cases hrun
          | ok r =>
              simp only [hread, hadvance, bind, Except.bind, pure, Except.pure, Except.map] at hrun
              cases hrest : iterRun (List.replicate n .advance) h r.2 with
              | error e =>
                  rw [hrest] at hrun
                  cases hrun
              | ok r' =>
                  rw [hrest] at hrun
                  have hlast := congrArg (fun r => r.2.1) (Except.ok.inj hrun)
                  exact hlast.symm.trans (ih hrest)

/-- A run over all entries. -/
theorem iterRun_all (calls : List IterCall) (hb : IsTable fns h b) (hfew : h.live.length < 2 ^ 32)
    (hlen : calls.length = h.live.length) :
    ∃ iter h' b' iter', petHtableCreateIter h = .ok iter ∧
      iterRun calls h iter = .ok (report h (entries h b), h', iter') ∧ iter'.entry = 0 ∧
      IsTable fns h' b' ∧ Removed h (removals calls (entries h b)) h' ∧
      entries h' b' = (entries h b).filter (kept calls (entries h b)) := by
  have hlen' : calls.length = (entries h b).length := hlen.trans hb.entries_perm.length_eq.symm
  obtain ⟨iter, hcreate, hit⟩ := petHtableCreateIter_spec hb hfew
  obtain ⟨h', b', iter', hrun, hb', hit', hrem, hfilter⟩ := iterRun_spec calls hb hit hlen'.le
  rw [List.take_of_length_le (by rw [length_report, hlen'])] at hrun
  rw [List.drop_of_length_le hlen'.ge] at hit'
  refine ⟨iter, h', b', iter', hcreate, hrun, ?_, hb', hrem, ?_⟩
  · cases hit' with
    | finished hentry _ => exact hentry
  · rw [entries, hrem.length]
    exact entriesFrom_filter fun j _ hj => hfilter j (by omega)

end Runs

/-! ## Runs with iterators -/

/-- A new iterator, at the first entry of the table or at the one that is found for a key. -/
def startIter (fns : KeyFns) (h : Hashtable) : Option (BitVec 64) → Except Fault HashtableIter
  | none => petHtableCreateIter h
  | some key => do
      let iter ← petHtableCreateIter h
      return (← petHtableIterSearch fns h iter key).2

/-- What a user does with a table: a call for one key, or a walk with an iterator from one of its
entries. -/
inductive TableUse where
  | call (call : HtableCall) (reply : Reply)
  | walk (start : Option (BitVec 64)) (calls : List IterCall)
      (seen : List (BitVec 64 × BitVec 64 × Int))

/-- A table, the calls of its user and the walks over it. -/
def usedHtables (fns : KeyFns) (minSize : Nat) : Machine Hashtable TableUse where
  init h := petCreateHtable minSize true true = .ok (some h)
  step h e h' :=
    match e with
    | .call call reply => call.MemoryOk h ∧ call.run fns h = .ok (reply, h')
    | .walk start calls seen => ∃ iter iter', startIter fns h start = .ok iter ∧
        iterRun calls h iter = .ok (seen, h', iter')

/-- The iterator is put on the entry that the search for the key finds. -/
theorem petHtableIterSearch_eq {fns : KeyFns} {h : Hashtable} {key : BitVec 64} {us : List Nat}
    {p : Nat} (hne : p ≠ 0) (hfind : findKey fns h key = .ok (ptrAfter (slotOf fns h key) us, p))
    (iter : HashtableIter) :
    petHtableIterSearch fns h iter key = .ok (-1, ⟨p, us.getLastD 0, slotOf fns h key⟩) := by
  rw [petHtableIterSearch, hfind]
  simp only [bind, Except.bind, if_neg hne]
  rcases List.eq_nil_or_concat us with rfl | ⟨us', u, rfl⟩
  · rfl
  · rw [List.concat_eq_append, ptrAfter_concat, List.getLastD_concat]
    rfl

section Uses

variable {fns : KeyFns} {h h' : Hashtable} {b : Nat → List Nat} {iter iter' : HashtableIter}

/-- A new iterator stands at an entry or at the end. -/
theorem petHtableCreateIter_iterAt (hb : IsTable fns h b) :
    ∃ iter rest, petHtableCreateIter h = .ok iter ∧ IterAt h b iter rest := by
  rw [petHtableCreateIter]
  split
  · exact ⟨_, [], rfl, .finished rfl rfl⟩
  · rcases scanSlots_spec (hb.slotsFrom 0) (Nat.zero_add _) with
      ⟨-, hscan⟩ | ⟨j, p, vs, -, hj, hbj, hscan, -⟩
    · exact ⟨_, [], by rw [hscan]; rfl, .finished rfl rfl⟩
    · exact ⟨_, _, by rw [hscan]; rfl, .front hj hbj⟩

theorem startIter_iterAt (hb : IsTable fns h b) (start : Option (BitVec 64)) :
    ∃ iter rest, startIter fns h start = .ok iter ∧ IterAt h b iter rest := by
  obtain ⟨iter, rest, hcreate, hit⟩ := petHtableCreateIter_iterAt hb
  cases start with
  | none => exact ⟨iter, rest, hcreate, hit⟩
  | some key =>
      rcases findKey_spec hb.toBuckets key with ⟨us, p, vs, hfound, hfind⟩ | ⟨-, entryPtr, hfind⟩
      · have hi : slotOf fns h key < h.tableLength := hb.indexFor_lt _
        have hsearch := petHtableIterSearch_eq (hb.ne_null hi hfound.mem) hfind iter
        refine ⟨⟨p, us.getLastD 0, slotOf fns h key⟩, _, ?_, .behind hi hfound.chain rfl⟩
        rw [startIter, hcreate]
        simp only [bind, Except.bind, hsearch]
        rfl
      · -- a search that fails leaves the iterator where it was
        refine ⟨iter, rest, ?_, hit⟩
        rw [startIter, hcreate]
        simp only [petHtableIterSearch, bind, Except.bind, hfind]
        rfl

/-- A walk that returns has met one entry with each call, and the table is in order after it. -/
theorem isTable_iterRun {rest : List Nat} {calls : List IterCall}
    {seen : List (BitVec 64 × BitVec 64 × Int)} (hb : IsTable fns h b) (hit : IterAt h b iter rest)
    (hrun : iterRun calls h iter = .ok (seen, h', iter')) : ∃ b', IsTable fns h' b' := by
  induction calls generalizing h b iter rest seen with
  | nil =>
      obtain rfl := congrArg (fun r => r.2.1) (Except.ok.inj hrun)
      exact ⟨b, hb⟩
  | cons call calls ih =>
      cases rest with
      | nil =>
          -- there is no entry under the iterator
          cases hit with
          | finished hentry _ =>
              rw [iterRun, petHtableGetIterKey, hentry, Hashtable.read,
                if_neg hb.toBuckets.null_not_live] at hrun
              cases hrun
      | cons p rest =>
          obtain ⟨hentry, hindex, us, vs, hchain, -⟩ := hit.chain
          have hlive : iter.entry ∈ h.live := hb.mem_live hindex (by simp [hchain, hentry])
          obtain ⟨h₁, b₁, iter₁, hrun₁, hb₁, hit₁, -⟩ := call.run_spec hb hit
          rw [iterRun, petHtableGetIterKey, petHtableGetIterValue,
            Hashtable.read_of_mem hlive] at hrun
          simp only [bind, Except.bind, pure, Except.pure, hrun₁] at hrun
          cases hrest : iterRun calls h₁ iter₁ with
          | error e =>
              rw [hrest] at hrun
              cases hrun
          | ok r =>
              rw [hrest] at hrun
              cases hrun
              exact ih hb₁ hit₁ hrest

/-- Every table that a user comes to is in order. -/
theorem isTable_of_reach (hf : fns.Lawful) {minSize : Nat} {es : List TableUse}
    (hr : (usedHtables fns minSize).Reach es h) : ∃ b, IsTable fns h b := by
  refine hr.history (I := fun _ h => ∃ b, IsTable fns h b) ?_ ?_
  · intro h hinit
    obtain ⟨b, hb, -⟩ := @refines_of_reach fns hf minSize [] h (.init hinit)
    exact ⟨b, hb⟩
  · rintro es h e h' - ⟨b, hb⟩ hstep
    cases e with
    | call call reply =>
        obtain ⟨hmem, hrun⟩ := hstep
        obtain ⟨h₁, b₁, hrun₁, hb₁, -⟩ := call.run_spec hf hb hmem
        obtain ⟨-, rfl⟩ := Prod.mk.inj (Except.ok.inj (hrun₁.symm.trans hrun))
        exact ⟨b₁, hb₁⟩
    | walk start calls seen =>
        obtain ⟨iter, iter', hstart, hrun⟩ := hstep
        obtain ⟨iter₁, rest, hstart₁, hit⟩ := startIter_iterAt hb start
        obtain rfl := Except.ok.inj (hstart₁.symm.trans hstart)
        exact isTable_iterRun hb hit hrun

end Uses

/-- An iterator meets every entry of the table exactly once, slot by slot and in the order of the
chains, whichever of them the user removes on the way. Afterwards the table has the other entries: a
second iterator meets these, in the same order, and a search finds the first of them that has the
key. -/
theorem iterator_visits_each_entry_once {fns : KeyFns} (hf : fns.Lawful) {minSize : Nat}
    {es : List TableUse} {h : Hashtable} (hr : (usedHtables fns minSize).Reach es h)
    (hfew : h.live.length < 2 ^ 32) (calls : List IterCall) (hlen : calls.length = h.live.length) :
    ∃ b iter h' iter', Buckets fns h b ∧ (entries h b).Perm h.live ∧
      petHtableCreateIter h = .ok iter ∧
      iterRun calls h iter = .ok (report h (entries h b), h', iter') ∧ iter'.entry = 0 ∧
      Removed h (removals calls (entries h b)) h' ∧
      (∃ iter₁ iter₂, petHtableCreateIter h' = .ok iter₁ ∧
        iterRun (List.replicate h'.live.length .advance) h' iter₁ =
          .ok (report h ((entries h b).filter (kept calls (entries h b))), h', iter₂)) ∧
      ∀ key, petHtableSearch fns h' key =
        .ok (((((entries h b).filter (kept calls (entries h b))).filter
          fun p => fns.eqFn key (h.entry p).key).map fun p => (h.entry p).value).headD 0) := by
  obtain ⟨b, hb⟩ := isTable_of_reach hf hr
  obtain ⟨iter, h', b', iter', hcreate, hrun, hentry, hb', hrem, hleft⟩ :=
    iterRun_all calls hb hfew hlen
  refine ⟨b, iter, h', iter', hb.toBuckets, hb.entries_perm, hcreate, hrun, hentry, hrem, ?_, ?_⟩
  · have hfew' : h'.live.length < 2 ^ 32 := by
      rw [hrem.live]
      exact Nat.lt_of_le_of_lt (List.diff_sublist _ _).length_le hfew
    obtain ⟨iter₁, h₂, -, iter₂, hcreate₁, hrun₁, -⟩ :=
      iterRun_all (List.replicate h'.live.length .advance) hb' hfew' List.length_replicate
    obtain rfl := iterRun_advance hrun₁
    rw [hleft, report_congr hrem.entry] at hrun₁
    exact ⟨iter₁, iter₂, hcreate₁, hrun₁⟩
  · intro key
    rw [petHtableSearch_eq_entries hf hb', hleft, hrem.entry]

/-- Of two entries for one key the newer one is met first; when it is removed, the older one is
left. -/
theorem iterator_visits_each_entry_once_two_inserts :
    ∃ h, (usedHtables ptrKeys 0).Reach
      [.call (.insert ⟨true, none, 16⟩ 5 7) (.status (-1)),
        .call (.insert ⟨true, none, 32⟩ 5 8) (.status (-1))] h ∧
      h.live.length < 2 ^ 32 ∧
      ∃ b iter h' iter', Buckets ptrKeys h b ∧ petHtableCreateIter h = .ok iter ∧
        iterRun [.remove true, .advance] h iter = .ok (report h (entries h b), h', iter') ∧
        iter'.entry = 0 ∧ Removed h (removals [.remove true, .advance] (entries h b)) h' := by
  have hrun : (usedHtables ptrKeys 0).Reach
      ([] ++ [TableUse.call (.insert ⟨true, none, 16⟩ 5 7) (.status (-1))]
      ++ [TableUse.call (.insert ⟨true, none, 32⟩ 5 8) (.status (-1))]) _ :=
    .step (.step (.init rfl) ⟨⟨fun h => Bool.noConfusion h, List.not_mem_nil⟩, rfl⟩)
      ⟨⟨fun h => Bool.noConfusion h, by decide⟩, rfl⟩
  obtain ⟨b, iter, h', iter', hb, -, hcreate, hiter, hentry, hrem, -⟩ :=
    iterator_visits_each_entry_once ptrKeys_lawful hrun (by decide) [.remove true, .advance] rfl
  exact ⟨_, hrun, by decide, b, iter, h', iter', hb, hcreate, hiter, hentry, hrem⟩

/-! ## An iterator at a key -/

/-- `pet_htable_remove` by way of an iterator: it is put on the entry, its value is read and the
entry is removed under it. -/
def removeByIter (fns : KeyFns) (h : Hashtable) (iter : HashtableIter) (key : BitVec 64)
    (freeKey : Bool) : Except Fault (BitVec 64 × Hashtable) := do
  let (found, iter) ← petHtableIterSearch fns h iter key
  if found = 0 then return (0, h)
  else do
    let value ← petHtableGetIterValue h iter
    let (_, h, _) ← petHtableIterRemove h iter freeKey
    return (value, h)

/-- The two ways to remove a key return the same and leave the same heap, to the last link. -/
theorem remove_eq_removeByIter {fns : KeyFns} (hf : fns.Lawful) {minSize : Nat}
    {es : List TableUse} {h : Hashtable} (hr : (usedHtables fns minSize).Reach es h)
    (iter : HashtableIter) (key : BitVec 64) (freeKey : Bool) :
    petHtableRemove fns h key freeKey = removeByIter fns h iter key freeKey := by
  obtain ⟨b, hb⟩ := isTable_of_reach hf hr
  rcases findKey_spec hb.toBuckets key with ⟨us, p, vs, hfound, hfind⟩ | ⟨-, entryPtr, hfind⟩
  · have hi : slotOf fns h key < h.tableLength := hb.indexFor_lt _
    have hlive : p ∈ h.live := hb.mem_live hi hfound.mem
    have hne : p ≠ 0 := hb.ne_null hi hfound.mem
    obtain ⟨next, ptr, r, iter', hstore, -, -, hrun⟩ := petHtableIterRemove_heap hb.toBuckets
      ⟨p, us.getLastD 0, slotOf fns h key⟩ hi hfound.chain rfl freeKey
    rw [removeByIter, petHtableIterSearch_eq hne hfind iter, petHtableRemove, hfind]
    simp only [bind, Except.bind, if_neg hne, Hashtable.readNext_of_mem hlive, hstore, hrun,
      petHtableGetIterValue, Hashtable.read, if_pos hlive, freeIf_eq_unlinked,
      freeEntry_unlinked hlive]
    rfl
  · rw [removeByIter, petHtableIterSearch, petHtableRemove, hfind]
    rfl

theorem remove_eq_removeByIter_insert :
    ∃ h, (usedHtables ptrKeys 0).Reach [.call (.insert ⟨true, none, 16⟩ 5 7) (.status (-1))] h ∧
      petHtableRemove ptrKeys h 5 true = removeByIter ptrKeys h ⟨0, 0, 0⟩ 5 true := by
  have hrun : (usedHtables ptrKeys 0).Reach
      ([] ++ [TableUse.call (.insert ⟨true, none, 16⟩ 5 7) (.status (-1))]) _ :=
    .step (.init rfl) ⟨⟨fun h => Bool.noConfusion h, List.not_mem_nil⟩, rfl⟩
  exact ⟨_, hrun, remove_eq_removeByIter ptrKeys_lawful hrun ⟨0, 0, 0⟩ 5 true⟩

/-! ## The end of a table -/

/-- What `pet_free_htable` frees with an entry. -/
def freedWith (h : Hashtable) (freeValues freeKeys : Bool) (p : Nat) : List (BitVec 64) :=
  (if freeKeys then [(h.entry p).key] else []) ++ if freeValues then [(h.entry p).value] else []

/-- Some entries are gone, and their keys and values as the flags say. -/
structure Freed (freeValues freeKeys : Bool) (h : Hashtable) (ps : List Nat) (h' : Hashtable) :
    Prop where
  entry : h'.entry = h.entry
  next : h'.next = h.next
  table : h'.table = h.table
  live : h'.live = h.live.diff ps
  freed : h'.freed = h.freed ++ ps.flatMap (freedWith h freeValues freeKeys)

section Free

variable {freeValues freeKeys : Bool} {fns : KeyFns}

theorem Freed.append {h h₁ h₂ : Hashtable} {ps qs : List Nat}
    (h₁f : Freed freeValues freeKeys h ps h₁)
    (h₂f : Freed freeValues freeKeys h₁ qs h₂) : Freed freeValues freeKeys h (ps ++ qs) h₂ where
  entry := h₂f.entry.trans h₁f.entry
  next := h₂f.next.trans h₁f.next
  table := h₂f.table.trans h₁f.table
  live := by rw [h₂f.live, h₁f.live, List.diff_append]
  freed := by
    have hwith : freedWith h₁ freeValues freeKeys = freedWith h freeValues freeKeys := by
      funext p
      rw [freedWith, freedWith, h₁f.entry]
    rw [h₂f.freed, h₁f.freed, hwith, List.flatMap_append, List.append_assoc]

/-- One turn of the loop over a chain. -/
theorem freeChain_succ {h : Hashtable} {p n : Nat} (hne : p ≠ 0) (hp : p ∈ h.live) :
    ∃ h₁, Freed freeValues freeKeys h [p] h₁ ∧
      freeChain freeValues freeKeys (n + 1) h p = freeChain freeValues freeKeys n h₁
        (h.next p) := by
  have hfree : (h.freeIf freeKeys (h.entry p).key).freeIf freeValues (h.entry p).value =
      { h with freed := h.freed ++ freedWith h freeValues freeKeys p } := by
    cases freeKeys <;> cases freeValues <;> simp [Hashtable.freeIf, freedWith]
  refine ⟨{ h with
    freed := h.freed ++ freedWith h freeValues freeKeys p
    live := h.live.erase p }, ⟨rfl, rfl, rfl, ?_, ?_⟩, ?_⟩
  · rw [List.diff_cons, List.diff_nil]
  · rw [List.flatMap_singleton]
  · rw [freeChain, if_neg hne]
    simp only [Hashtable.readNext_of_mem hp, Hashtable.read_of_mem hp, bind, Except.bind, hfree,
      Hashtable.freeEntry, if_pos hp]

/-- The loop over the rest of a chain. -/
theorem freeChain_spec (freeValues freeKeys : Bool) {h : Hashtable} {vs : List Nat} {n : Nat}
    (hlinked : Linked h.next 0 vs) (hnull : 0 ∉ vs) (hnodup : vs.Nodup)
    (hlive : ∀ q ∈ vs, q ∈ h.live) (hn : vs.length < n) :
    ∃ h', freeChain freeValues freeKeys n h (vs.headD 0) = .ok h' ∧
      Freed freeValues freeKeys h vs h' := by
  induction vs generalizing h n with
  | nil =>
      obtain ⟨n, rfl⟩ := Nat.exists_eq_succ_of_ne_zero (Nat.ne_of_gt hn)
      exact ⟨h, if_pos rfl, rfl, rfl, rfl, rfl, (List.append_nil _).symm⟩
  | cons p vs ih =>
      obtain ⟨n, rfl⟩ := Nat.exists_eq_succ_of_ne_zero (Nat.ne_of_gt (Nat.zero_lt_of_lt hn))
      have hne : p ≠ 0 := fun hc => hnull (hc ▸ List.mem_cons_self)
      obtain ⟨hpvs, hnodup⟩ := List.nodup_cons.1 hnodup
      obtain ⟨h₁, hfreed₁, hturn⟩ := freeChain_succ (n := n) hne (hlive p List.mem_cons_self)
      have hlive₁ : ∀ q ∈ vs, q ∈ h₁.live := by
        intro q hq
        rw [hfreed₁.live]
        apply List.mem_diff_of_mem (hlive q (List.mem_cons_of_mem p hq))
        rw [List.mem_singleton]
        rintro rfl
        exact hpvs hq
      obtain ⟨h', hrest, hfreed⟩ := ih (hfreed₁.next ▸ hlinked.2)
        (fun hc => hnull (List.mem_cons_of_mem p hc)) hnodup hlive₁ (Nat.lt_of_succ_lt_succ hn)
      refine ⟨h', ?_, hfreed₁.append hfreed⟩
      rw [List.headD_cons, hturn, hlinked.1]
      exact hrest

/-- The loop over the slots from the `i`-th on, when the entries of the slots before are gone. -/
theorem freeSlots_spec (freeValues freeKeys : Bool) {h₀ h : Hashtable} {b : Nat → List Nat}
    (hb : Buckets fns h₀ b) {i n : Nat}
    (hn : i + n = h₀.tableLength) (hnext : h.next = h₀.next) (htable : h.table = h₀.table)
    (hlive : ∀ j q, i ≤ j → j < h₀.tableLength → q ∈ b j → q ∈ h.live) :
    ∃ h', freeSlots freeValues freeKeys n i h = .ok h' ∧
      Freed freeValues freeKeys h (entriesFrom b i n) h' := by
  induction n generalizing i h with
  | zero => exact ⟨h, rfl, rfl, rfl, rfl, rfl, (List.append_nil _).symm⟩
  | succ n ih =>
      have hi : i < h₀.tableLength := by omega
      have hsub : ∀ q ∈ b i, q ∈ h.live := fun q hq => hlive i q (Nat.le_refl i) hi hq
      have hfuel : (b i).length < h.live.length + 1 :=
        Nat.lt_succ_of_le ((hb.chains.nodup i hi).subperm hsub).length_le
      obtain ⟨h₁, hchain, hfreed₁⟩ := freeChain_spec freeValues freeKeys
        (hnext.symm ▸ hb.chains.linked i hi) (hb.chains.nonnil i hi)
        (hb.chains.nodup i hi) hsub hfuel
      have hlive₁ : ∀ j q, i + 1 ≤ j → j < h₀.tableLength → q ∈ b j → q ∈ h₁.live := by
        intro j q hij hj hq
        rw [hfreed₁.live]
        apply List.mem_diff_of_mem (hlive j q (by omega) hj hq)
        intro hqi
        have hsame := hb.chains.disjoint i j q hi hj hqi hq
        omega
      obtain ⟨h', hrest, hfreed⟩ := ih (by omega) (hfreed₁.next.trans hnext)
        (hfreed₁.table.trans htable) hlive₁
      refine ⟨h', ?_, ?_⟩
      · rw [freeSlots, htable, hb.read_slot hi]
        simp only [bind, Except.bind, hchain]
        exact hrest
      · rw [entriesFrom_succ]
        exact hfreed₁.append hfreed

end Free

/-- `pet_free_htable` frees every entry of a table once, with its key and its value if the flags say
so, and touches nothing that it has freed. -/
theorem free_htable_frees_all_once {fns : KeyFns} (hf : fns.Lawful) {minSize : Nat}
    {es : List TableUse} {h : Hashtable} (hr : (usedHtables fns minSize).Reach es h)
    (freeValues freeKeys : Bool) :
    ∃ (ps : List Nat) (h' : Hashtable), ps.Perm h.live ∧
      petFreeHtable h freeValues freeKeys = .ok h' ∧ h'.live = [] ∧
      h'.freed = h.freed ++ ps.flatMap (freedWith h freeValues freeKeys) := by
  obtain ⟨b, hb⟩ := isTable_of_reach hf hr
  obtain ⟨h', hrun, hfreed⟩ := freeSlots_spec freeValues freeKeys hb.toBuckets
    (Nat.zero_add _) rfl rfl fun j q _ hj hq => hb.mem_live hj hq
  refine ⟨entries h b, { h' with table := ⟨h'.table.ptr, 0⟩ }, hb.entries_perm, ?_, ?_,
    hfreed.freed⟩
  · rw [petFreeHtable, hrun]
    rfl
  · show h'.live = []
    rw [hfreed.live, List.eq_nil_iff_forall_not_mem]
    intro q hq
    obtain ⟨hqlive, hqout⟩ := hb.nodup.mem_sdiff_iff.1 hq
    exact hqout (hb.entries_perm.mem_iff.2 hqlive)

/-- Of two entries for one key one is removed by an iterator. The other one is left to be freed. -/
theorem free_htable_frees_all_once_two_inserts :
    ∃ h, (usedHtables ptrKeys 0).Reach
      [.call (.insert ⟨true, none, 16⟩ 5 7) (.status (-1)),
        .call (.insert ⟨true, none, 32⟩ 5 8) (.status (-1)),
        .walk none [.advance, .remove false] [(5, 8, -1), (5, 7, 0)]] h ∧ h.live = [32] ∧
      ∃ (ps : List Nat) (h' : Hashtable), ps.Perm h.live ∧
        petFreeHtable h true false = .ok h' ∧ h'.live = [] ∧
        h'.freed = h.freed ++ ps.flatMap (freedWith h true false) := by
  have hrun : (usedHtables ptrKeys 0).Reach
      ([] ++ [TableUse.call (.insert ⟨true, none, 16⟩ 5 7) (.status (-1))]
      ++ [TableUse.call (.insert ⟨true, none, 32⟩ 5 8) (.status (-1))]
      ++ [TableUse.walk none [.advance, .remove false] [(5, 8, -1), (5, 7, 0)]]) _ :=
    .step (.step (.step (.init rfl) ⟨⟨fun h => Bool.noConfusion h, List.not_mem_nil⟩, rfl⟩)
      ⟨⟨fun h => Bool.noConfusion h, by decide⟩, rfl⟩) ⟨_, _, rfl, rfl⟩
  exact ⟨_, hrun, rfl, free_htable_frees_all_once ptrKeys_lawful hrun true false⟩

end PetKernel.HashTable
