import PetKernel.HashTable.Operations

/-!
# Runs of the hash table

The machine `htables` makes the calls of a user for one key, one after the other. `calloc` may fail
at any call, and when it returns an entry, this is one that is not in use. The only assumption is
that `realloc` fails when `calloc` does (`HtableCall.MemoryOk`).

Then no call ends in a fault, and the replies are those of the stacks of `Stacks`, which is a
function of the calls alone (`htable_refines_stacks`). An insertion that makes the table grow turns
every stack over, so that the oldest value of a key is found first from then on. A user who inserts
only keys that are not in the table can not see that the table grows: to them it is a finite map
(`htable_refines_map`).
-/

set_option autoImplicit false

namespace PetKernel.HashTable

open PetKernel.Library

/-! ## Calls -/

/-- A call of the user. -/
inductive HtableCall where
  | insert (a : Allocs) (key value : BitVec 64)
  | change (key value : BitVec 64) (freeValue : Bool)
  | inc (key value : BitVec 64)
  | dec (key value : BitVec 64)
  | search (key : BitVec 64)
  | remove (key : BitVec 64) (freeKey : Bool)
  | count

/-- What a call returns. -/
inductive Reply where
  | status (r : Int)
  | value (v : BitVec 64)
  | count (n : BitVec 32)
deriving DecidableEq, Repr

namespace HtableCall

/-- The call on the table. -/
def run (fns : KeyFns) (h : Hashtable) : HtableCall → Except Fault (Reply × Hashtable)
  | insert a key value => (petHtableInsert fns a h key value).map fun r => (.status r.1, r.2)
  | change key value freeValue =>
      (petHtableChange fns h key value freeValue).map fun r => (.status r.1, r.2)
  | inc key value => (petHtableInc fns h key value).map fun r => (.status r.1, r.2)
  | dec key value => (petHtableDec fns h key value).map fun r => (.status r.1, r.2)
  | search key => (petHtableSearch fns h key).map fun v => (.value v, h)
  | remove key freeKey => (petHtableRemove fns h key freeKey).map fun r => (.value r.1, r.2)
  | count => .ok (.count (petHtableCount h), h)

/-- The call on the stacks. -/
def apply (fns : KeyFns) (s : Stacks) : HtableCall → Reply × Stacks
  | insert a key value => (.status (s.insert fns a key value).1, (s.insert fns a key value).2)
  | change key value _ =>
      (.status (s.change fns key fun _ => value).1, (s.change fns key fun _ => value).2)
  | inc key value => (.status (s.change fns key (· + value)).1, (s.change fns key (· + value)).2)
  | dec key value => (.status (s.change fns key (· - value)).1, (s.change fns key (· - value)).2)
  | search key => (.value (s.search key), s)
  | remove key _ => (.value (s.remove fns key).1, (s.remove fns key).2)
  | count => (.count s.count, s)

/-- The allocator returns an entry that is not in use, if any, and `realloc` fails when `calloc`
does. -/
def MemoryOk (h : Hashtable) : HtableCall → Prop
  | insert a _ _ => (a.newTable = false → a.realloc = none) ∧ a.newEntry ∉ h.live
  | _ => True

/-- A call keeps the table in order and does to its stacks what it should. -/
theorem run_spec {fns : KeyFns} (hf : fns.Lawful) {h : Hashtable} {b : Nat → List Nat}
    (hb : IsTable fns h b) {call : HtableCall} (hmem : call.MemoryOk h) :
    ∃ h' b', call.run fns h = .ok ((call.apply fns (view fns h b)).1, h') ∧ IsTable fns h' b' ∧
      view fns h' b' = (call.apply fns (view fns h b)).2 := by
  cases call with
  | insert a key value =>
      obtain ⟨h', b', hrun, hb', hview⟩ := petHtableInsert_spec hf hb hmem.1 hmem.2 key value
      exact ⟨h', b', by rw [run, hrun]; rfl, hb', hview⟩
  | change key value freeValue =>
      obtain ⟨h', hrun, hb', hview⟩ := petHtableChange_spec hf hb key value freeValue
      exact ⟨h', b, by rw [run, hrun]; rfl, hb', hview⟩
  | inc key value =>
      obtain ⟨h', hrun, hb', hview⟩ := updateValue_spec hf hb key (· + value)
      exact ⟨h', b, by rw [run, petHtableInc, hrun]; rfl, hb', hview⟩
  | dec key value =>
      obtain ⟨h', hrun, hb', hview⟩ := updateValue_spec hf hb key (· - value)
      exact ⟨h', b, by rw [run, petHtableDec, hrun]; rfl, hb', hview⟩
  | search key => exact ⟨h, b, by rw [run, petHtableSearch_spec hb]; rfl, hb, rfl⟩
  | remove key freeKey =>
      obtain ⟨h', b', hrun, hb', hview⟩ := petHtableRemove_spec hf hb key freeKey
      exact ⟨h', b', by rw [run, hrun]; rfl, hb', hview⟩
  | count => exact ⟨h, b, rfl, hb, rfl⟩

end HtableCall

/-! ## Runs -/

/-- A table and the calls of its user, with their replies. -/
def htables (fns : KeyFns) (minSize : Nat) : Machine Hashtable (HtableCall × Reply) where
  init h := petCreateHtable minSize true true = .ok (some h)
  step h e h' := e.1.MemoryOk h ∧ e.1.run fns h = .ok (e.2, h')

/-- The calls on an abstract state, one after the other: the replies and the state at the end. -/
def replay {σ : Type} (apply : σ → HtableCall → Reply × σ) (s : σ) (calls : List HtableCall) :
    List Reply × σ :=
  calls.foldl (fun r call => (r.1 ++ [(apply r.2 call).1], (apply r.2 call).2)) ([], s)

theorem replay_concat {σ : Type} (apply : σ → HtableCall → Reply × σ) (s : σ)
    (calls : List HtableCall) (call : HtableCall) :
    replay apply s (calls ++ [call]) =
      ((replay apply s calls).1 ++ [(apply (replay apply s calls).2 call).1],
        (apply (replay apply s calls).2 call).2) := by
  rw [replay, List.foldl_append]
  rfl

/-- The stacks of a new table. -/
def newStacks (minSize : Nat) : Stacks := ⟨fun _ => [], 0, (findPrime minSize primes 0).1⟩

/-- What is known of a table after the calls of `es`. -/
def Refines (fns : KeyFns) (minSize : Nat) (es : List (HtableCall × Reply)) (h : Hashtable) :
    Prop :=
  ∃ b, IsTable fns h b ∧
    (es.map Prod.snd, view fns h b) =
      replay (fun s call => call.apply fns s) (newStacks minSize) (es.map Prod.fst)

theorem refines_of_reach {fns : KeyFns} (hf : fns.Lawful) {minSize : Nat}
    {es : List (HtableCall × Reply)} {h : Hashtable} (hr : (htables fns minSize).Reach es h) :
    Refines fns minSize es h := by
  refine hr.history ?_ ?_
  · intro h hinit
    have hmin : minSize ≤ 2 ^ 30 := by
      rw [← Nat.not_lt]
      intro hlt
      have hnone : petCreateHtable minSize true true = .ok none := if_pos hlt
      exact Option.some_ne_none _ (Except.ok.inj (hinit.symm.trans hnone))
    obtain rfl := Option.some.inj (Except.ok.inj ((petCreateHtable_eq hmin).symm.trans hinit))
    exact ⟨_, newHtable_isTable fns hmin, rfl⟩
  · rintro es h ⟨call, reply⟩ h' - ⟨b, hb, hreplay⟩ ⟨hmem, hrun⟩
    obtain ⟨h₁, b₁, hrun₁, hb₁, hview₁⟩ := call.run_spec hf hb hmem
    obtain ⟨hreply, rfl⟩ := Prod.mk.inj (Except.ok.inj (hrun₁.symm.trans hrun))
    refine ⟨b₁, hb₁, ?_⟩
    -- the replies and the stacks after one more call, from those before it
    have hreply' : reply = (call.apply fns (view fns h b)).1 := hreply.symm
    rw [List.map_append, List.map_append, List.map_singleton, List.map_singleton, replay_concat,
      ← hreplay, hview₁, hreply']

/-- Pointers as keys. -/
def ptrKeys : KeyFns := ⟨petHashPtr, (· == ·)⟩

theorem ptrKeys_lawful : ptrKeys.Lawful where
  refl := fun k => beq_self_eq_true k
  symm := fun k l h => by
    rw [beq_iff_eq.1 h]
    exact beq_self_eq_true l
  trans := fun k l m hkl hlm => by
    rw [beq_iff_eq.1 hkl]
    exact hlm
  hash := fun k l h => by rw [beq_iff_eq.1 h]

/-- A finite map, as the user of a table sees it. -/
structure FinMap where
  lookup : BitVec 64 → Option (BitVec 64)
  count : BitVec 32

namespace FinMap

/-- The value of a key is changed by `f`. -/
def change (fns : KeyFns) (m : FinMap) (key : BitVec 64) (f : BitVec 64 → BitVec 64) :
    Reply × FinMap :=
  if m.lookup key = none then (.status 0, m)
  else (.status (-1),
    { m with lookup := fun k => if fns.eqFn k key then (m.lookup k).map f else m.lookup k })

/-- A call on a finite map. -/
def apply (fns : KeyFns) (m : FinMap) : HtableCall → Reply × FinMap
  | .insert a key value =>
      if a.newEntry = 0 then (.status 0, m)
      else (.status (-1), ⟨fun k => if fns.eqFn k key then some value else m.lookup k, m.count + 1⟩)
  | .change key value _ => m.change fns key fun _ => value
  | .inc key value => m.change fns key (· + value)
  | .dec key value => m.change fns key (· - value)
  | .search key => (.value ((m.lookup key).getD 0), m)
  | .remove key _ =>
      if m.lookup key = none then (.value 0, m)
      else (.value ((m.lookup key).getD 0),
        ⟨fun k => if fns.eqFn k key then none else m.lookup k, m.count - 1⟩)
  | .count => (.count m.count, m)

/-- The stacks have at most one value each. -/
structure Shows (s : Stacks) (m : FinMap) : Prop where
  values : ∀ k, s.values k = (m.lookup k).toList
  count : s.count = m.count

variable {fns : KeyFns} {s : Stacks} {m : FinMap}

theorem Shows.eq_nil_iff (h : Shows s m) (key : BitVec 64) :
    s.values key = [] ↔ m.lookup key = none := by
  rw [h.values, Option.toList_eq_nil_iff]

/-- A stack with one value at most is the same when turned over. -/
theorem Shows.grow (h : Shows s m) : Shows s.grow m where
  values := by
    intro k
    show (s.values k).reverse = _
    rw [h.values]
    cases m.lookup k <;> rfl
  count := h.count

theorem Shows.change (h : Shows s m) (key : BitVec 64) (f : BitVec 64 → BitVec 64) :
    Reply.status (s.change fns key f).1 = (m.change fns key f).1 ∧
      Shows (s.change fns key f).2 (m.change fns key f).2 := by
  by_cases hnone : m.lookup key = none
  · rw [Stacks.change, FinMap.change, if_pos hnone, if_pos ((h.eq_nil_iff key).2 hnone)]
    exact ⟨rfl, h⟩
  · rw [Stacks.change, FinMap.change, if_neg hnone, if_neg fun hnil =>
      hnone ((h.eq_nil_iff key).1 hnil)]
    refine ⟨rfl, fun k => ?_, h.count⟩
    show (if fns.eqFn k key then (s.values k).modifyHead f else s.values k) =
      (if fns.eqFn k key then (m.lookup k).map f else m.lookup k).toList
    rw [h.values]
    cases fns.eqFn k key <;> cases m.lookup k <;> rfl

/-- A call does the same to both, if a key that is inserted is new. -/
theorem Shows.apply (h : Shows s m) {call : HtableCall}
    (hnew : ∀ a key value, call = .insert a key value → ∀ k, fns.eqFn k key = true →
      s.values k = []) :
    (call.apply fns s).1 = (m.apply fns call).1 ∧ Shows (call.apply fns s).2
      (m.apply fns call).2 := by
  cases call with
  | insert a key value =>
      have hgrown : Shows (if s.Grows a then s.grow else s) m := by
        by_cases hgrows : s.Grows a
        · rw [if_pos hgrows]
          exact h.grow
        · rw [if_neg hgrows]
          exact h
      by_cases hnull : a.newEntry = 0
      · rw [HtableCall.apply, Stacks.insert, FinMap.apply, if_pos hnull, if_pos hnull]
        exact ⟨rfl, hgrown⟩
      · rw [HtableCall.apply, Stacks.insert, FinMap.apply, if_neg hnull, if_neg hnull]
        refine ⟨rfl, fun k => ?_, ?_⟩
        · show onKey fns (if s.Grows a then s.grow else s).values key (value :: ·) k =
            (if fns.eqFn k key then some value else m.lookup k).toList
          rw [onKey, hgrown.values]
          cases hk : fns.eqFn k key with
          | false => rfl
          | true =>
              have hnone := (h.eq_nil_iff k).1 (hnew a key value rfl k hk)
              rw [hnone]
              rfl
        · exact congrArg (· + 1) h.count
  | change key value freeValue => exact h.change key _
  | inc key value => exact h.change key _
  | dec key value => exact h.change key _
  | search key =>
      refine ⟨?_, h⟩
      show Reply.value ((s.values key).headD 0) = .value ((m.lookup key).getD 0)
      rw [h.values]
      cases m.lookup key <;> rfl
  | remove key freeKey =>
      by_cases hnone : m.lookup key = none
      · rw [HtableCall.apply, Stacks.remove, FinMap.apply, if_pos hnone,
          if_pos ((h.eq_nil_iff key).2 hnone)]
        exact ⟨rfl, h⟩
      · rw [HtableCall.apply, Stacks.remove, FinMap.apply, if_neg hnone,
          if_neg fun hnil => hnone ((h.eq_nil_iff key).1 hnil)]
        refine ⟨?_, fun k => ?_, congrArg (· - 1) h.count⟩
        · show Reply.value ((s.values key).headD 0) = .value ((m.lookup key).getD 0)
          rw [h.values]
          cases m.lookup key <;> rfl
        · show (if fns.eqFn k key then (s.values k).tail else s.values k) =
            (if fns.eqFn k key then none else m.lookup k).toList
          rw [h.values]
          cases fns.eqFn k key <;> cases m.lookup k <;> rfl
  | count => exact ⟨congrArg Reply.count h.count, h⟩

end FinMap

/-- A key is inserted only if no entry has it. -/
def insertsNewKey (fns : KeyFns) (h : Hashtable) (e : HtableCall × Reply) : Prop :=
  ∀ a key value, e.1 = .insert a key value → ∀ p ∈ h.live, fns.eqFn key (h.entry p).key = false

/-- No entry has a key equal to this one. -/
theorem stack_eq_nil {fns : KeyFns} (hf : fns.Lawful) {h : Hashtable} {b : Nat → List Nat}
    (hb : Buckets fns h b) {key : BitVec 64}
    (habsent : ∀ p ∈ h.live, fns.eqFn key (h.entry p).key = false) : stack fns h b key = [] := by
  rw [stack, List.map_eq_nil_iff, List.filter_eq_nil_iff]
  intro p hp
  have hlive := hb.mem_live (hb.indexFor_lt _) hp
  rw [hb.matches_eq hf hlive, habsent p hlive]
  exact Bool.false_ne_true

/-- What is known of a table in which every key was inserted once. -/
def RefinesMap (fns : KeyFns) (es : List (HtableCall × Reply)) (h : Hashtable) : Prop :=
  ∃ b, IsTable fns h b ∧
    FinMap.Shows (view fns h b) (replay (FinMap.apply fns) ⟨fun _ => none, 0⟩ (es.map Prod.fst)).2 ∧
    es.map Prod.snd = (replay (FinMap.apply fns) ⟨fun _ => none, 0⟩ (es.map Prod.fst)).1

/-- For a user who inserts only new keys a table is a finite map, and no call goes wrong. -/
theorem htable_refines_map {fns : KeyFns} (hf : fns.Lawful) {minSize : Nat}
    {es : List (HtableCall × Reply)} {h : Hashtable}
    (hr : ((htables fns minSize).guard (insertsNewKey fns)).Reach es h) :
    es.map Prod.snd = (replay (FinMap.apply fns) ⟨fun _ => none, 0⟩ (es.map Prod.fst)).1 ∧
    ∀ call : HtableCall, call.MemoryOk h → ∃ reply h', call.run fns h = .ok (reply, h') := by
  have hinv : RefinesMap fns es h := by
    refine hr.history ?_ ?_
    · intro h hinit
      obtain ⟨b, hb, hreplay⟩ := refines_of_reach hf (.init hinit)
      have hview : view fns h b = newStacks minSize := congrArg Prod.snd hreplay
      refine ⟨b, hb, ?_, rfl⟩
      rw [hview]
      exact ⟨fun _ => rfl, rfl⟩
    · rintro es h ⟨call, reply⟩ h' - ⟨b, hb, hshows, hreplay⟩ ⟨hnew, hmem, hrun⟩
      obtain ⟨h₁, b₁, hrun₁, hb₁, hview₁⟩ := call.run_spec hf hb hmem
      obtain ⟨hreply, rfl⟩ := Prod.mk.inj (Except.ok.inj (hrun₁.symm.trans hrun))
      -- where a key is pushed, its stack is empty, and a stack of one value is a map
      have hempty : ∀ a key value, call = .insert a key value → ∀ k, fns.eqFn k key = true →
          (view fns h b).values k = [] := fun a key value heq k hk =>
        (hb.stack_congr hf hk).trans (stack_eq_nil hf hb.toBuckets (hnew a key value heq))
      obtain ⟨hsame, hshows'⟩ := hshows.apply hempty
      have hreply' : reply = (call.apply fns (view fns h b)).1 := hreply.symm
      refine ⟨b₁, hb₁, ?_, ?_⟩
      · rw [List.map_append, List.map_singleton, replay_concat, hview₁]
        exact hshows'
      · rw [List.map_append, List.map_append, List.map_singleton, List.map_singleton, replay_concat,
          ← hreplay, hreply', hsame]
  obtain ⟨b, hb, -, hreplies⟩ := hinv
  refine ⟨hreplies, fun call hmem => ?_⟩
  obtain ⟨h', -, hrun, -⟩ := call.run_spec hf hb hmem
  exact ⟨_, h', hrun⟩

/-- A key is removed and inserted again. -/
theorem htable_refines_map_reinsert :
    ∃ h, ((htables ptrKeys 0).guard (insertsNewKey ptrKeys)).Reach
      [(.insert ⟨true, none, 16⟩ 5 7, .status (-1)), (.remove 5 false, .value 7),
        (.insert ⟨true, none, 16⟩ 5 8, .status (-1)), (.search 5, .value 8)] h ∧
      [Reply.status (-1), Reply.value 7, Reply.status (-1), Reply.value 8] =
        (replay (FinMap.apply ptrKeys) ⟨fun _ => none, 0⟩
          [.insert ⟨true, none, 16⟩ 5 7, .remove 5 false, .insert ⟨true, none, 16⟩ 5 8,
            .search 5]).1 := by
  have hnone : ∀ {h : Hashtable}, h.live = [] → ∀ e, insertsNewKey ptrKeys h e := by
    intro h hlive e a key value _ p hp
    rw [hlive] at hp
    exact absurd hp List.not_mem_nil
  have hrun : ((htables ptrKeys 0).guard (insertsNewKey ptrKeys)).Reach
      ([] ++ [(HtableCall.insert ⟨true, none, 16⟩ 5 7, Reply.status (-1))]
        ++ [(HtableCall.remove 5 false, Reply.value 7)]
        ++ [(HtableCall.insert ⟨true, none, 16⟩ 5 8, Reply.status (-1))]
        ++ [(HtableCall.search 5, Reply.value 8)]) _ :=
    .step (.step (.step (.step (.init rfl)
      ⟨hnone rfl _, ⟨fun h => Bool.noConfusion h, List.not_mem_nil⟩, rfl⟩)
      ⟨fun _ _ _ h => HtableCall.noConfusion h, trivial, rfl⟩)
      ⟨hnone rfl _, ⟨fun h => Bool.noConfusion h, List.not_mem_nil⟩, rfl⟩)
      ⟨fun _ _ _ h => HtableCall.noConfusion h, trivial, rfl⟩
  exact ⟨_, hrun, (htable_refines_map ptrKeys_lawful hrun).1⟩

end PetKernel.HashTable
