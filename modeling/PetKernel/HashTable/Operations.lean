import PetKernel.HashTable.Growth

/-!
# What the functions of the hash table do

A table is seen as a stack of values for every key, together with `entry_count` and `prime_index`
(`view`). The comparison of the keys has to be an equivalence relation, and keys that are equal have
to have the same hash value (`KeyFns.Lawful`).

Each function of the source keeps the invariant of the table, ends without a fault, and does to the
stacks what the function of the same name on `Stacks` does: insertion pushes a value, removal pops
one, a change or an increment concerns the value on top. An insertion that makes the table grow
first turns all stacks over, also when there is then no memory for the new entry.
-/

set_option autoImplicit false

namespace PetKernel.HashTable

open PetKernel.Library

/-! ## Keys -/

/-- The comparison is an equivalence relation that the hash function respects. -/
structure KeyFns.Lawful (fns : KeyFns) : Prop where
  refl : ∀ k, fns.eqFn k k = true
  symm : ∀ k l, fns.eqFn k l = true → fns.eqFn l k = true
  trans : ∀ k l m, fns.eqFn k l = true → fns.eqFn l m = true → fns.eqFn k m = true
  hash : ∀ k l, fns.eqFn k l = true → fns.hashFn k = fns.hashFn l

namespace KeyFns.Lawful

variable {fns : KeyFns} {k l : BitVec 64}

theorem doHash_eq (hf : fns.Lawful) (heq : fns.eqFn k l = true) : doHash fns k = doHash fns l := by
  rw [doHash, doHash, hf.hash k l heq]

/-- Keys that are equal are equal to the same keys. -/
theorem eqFn_congr_left (hf : fns.Lawful) (heq : fns.eqFn k l = true) (m : BitVec 64) :
    fns.eqFn k m = fns.eqFn l m := by
  rw [Bool.eq_iff_iff]
  exact ⟨hf.trans l k m (hf.symm k l heq), hf.trans k l m heq⟩

theorem eqFn_congr_right (hf : fns.Lawful) (heq : fns.eqFn k l = true) (m : BitVec 64) :
    fns.eqFn m k = fns.eqFn m l := by
  rw [Bool.eq_iff_iff]
  exact ⟨fun h => hf.trans m k l h heq, fun h => hf.trans m l k h (hf.symm k l heq)⟩

end KeyFns.Lawful

/-! ## Stacks of values -/

/-- A table as its user sees it. -/
structure Stacks where
  values : BitVec 64 → List (BitVec 64)
  count : BitVec 32
  level : Nat

/-- The stacks of the keys that are equal to `key` are changed. -/
def onKey (fns : KeyFns) (s : BitVec 64 → List (BitVec 64)) (key : BitVec 64)
    (f : List (BitVec 64) → List (BitVec 64)) : BitVec 64 → List (BitVec 64) :=
  fun k => if fns.eqFn k key then f (s k) else s k

namespace Stacks

/-- The larger table. -/
def grow (s : Stacks) : Stacks :=
  { s with values := fun k => (s.values k).reverse, level := s.level + 1 }

/-- One more entry makes the table grow. -/
def Grows (s : Stacks) (a : Allocs) : Prop :=
  loadFactors.getD s.level 0 < (s.count + 1).toNat ∧ s.level ≠ primeTableLen - 1 ∧ a.newTable = true

instance (s : Stacks) (a : Allocs) : Decidable (s.Grows a) :=
  inferInstanceAs (Decidable (_ ∧ _ ∧ _))

def insert (fns : KeyFns) (a : Allocs) (s : Stacks) (key value : BitVec 64) : Int × Stacks :=
  let s' := if s.Grows a then s.grow else s
  if a.newEntry = 0 then (0, s')
  else (-1, { s' with values := onKey fns s'.values key (value :: ·), count := s.count + 1 })

/-- The value of a key is changed by `f`. -/
def change (fns : KeyFns) (s : Stacks) (key : BitVec 64) (f : BitVec 64 → BitVec 64) :
    Int × Stacks :=
  if s.values key = [] then (0, s)
  else (-1, { s with values := onKey fns s.values key (List.modifyHead f) })

def search (s : Stacks) (key : BitVec 64) : BitVec 64 := (s.values key).headD 0

def remove (fns : KeyFns) (s : Stacks) (key : BitVec 64) : BitVec 64 × Stacks :=
  if s.values key = [] then (0, s)
  else ((s.values key).headD 0,
    { s with values := onKey fns s.values key List.tail, count := s.count - 1 })

end Stacks

/-- The stacks of a table. -/
def view (fns : KeyFns) (h : Hashtable) (b : Nat → List Nat) : Stacks :=
  ⟨stack fns h b, h.entryCount, h.primeIndex⟩

section Stack

variable {fns : KeyFns} {h : Hashtable} {b : Nat → List Nat} {key : BitVec 64} {us vs : List Nat}
  {p : Nat}

/-- An entry of the table matches a key if its key is equal to it. -/
theorem Buckets.matches_eq (hf : fns.Lawful) (hb : Buckets fns h b) {q : Nat} (hq : q ∈ h.live)
    (k : BitVec 64) : Matches fns h k q = fns.eqFn k (h.entry q).key := by
  rw [Matches, hb.hash q hq]
  cases heq : fns.eqFn k (h.entry q).key with
  | false => exact decide_eq_false fun hc => Bool.false_ne_true hc.2
  | true => exact decide_eq_true ⟨hf.doHash_eq heq, rfl⟩

/-- Equal keys have the same slot and the same entries. -/
theorem Buckets.stack_congr (hf : fns.Lawful) (hb : Buckets fns h b) {k l : BitVec 64}
    (heq : fns.eqFn k l = true) : stack fns h b k = stack fns h b l := by
  have hslot : slotOf fns h k = slotOf fns h l := by rw [slotOf, slotOf, hf.doHash_eq heq]
  have hfilter : (b (slotOf fns h l)).filter (Matches fns h k) =
      (b (slotOf fns h l)).filter (Matches fns h l) := by
    refine List.filter_congr fun q hq => ?_
    have hlive := hb.mem_live (hb.indexFor_lt _) hq
    rw [hb.matches_eq hf hlive, hb.matches_eq hf hlive, hf.eqFn_congr_left heq]
  rw [stack, stack, hslot, hfilter]

/-- The entry found for a key matches the keys that are equal to it. -/
theorem FoundAt.matches_iff (hf : fns.Lawful) (hb : Buckets fns h b)
    (hfound : FoundAt fns h b key us p vs)
    (k : BitVec 64) : Matches fns h k p = fns.eqFn k key := by
  have hlive := hb.mem_live (hb.indexFor_lt _) hfound.mem
  have hmatch := hfound.isMatch
  rw [hb.matches_eq hf hlive] at hmatch ⊢
  exact (hf.eqFn_congr_right hmatch k).symm

/-- The chain of a key without its first entry: the top of the stack is gone, for this key only. -/
theorem stack_unlink (hf : fns.Lawful) (hb : Buckets fns h b) {h' : Hashtable}
    (hb' : Buckets fns h' (Function.update b (slotOf fns h key) (us ++ vs)))
    (hentry : h'.entry = h.entry) (hlen : h'.tableLength = h.tableLength)
    (hfound : FoundAt fns h b key us p vs) :
    stack fns h' (Function.update b (slotOf fns h key) (us ++ vs)) =
      onKey fns (stack fns h b) key List.tail := by
  have hmatches : ∀ k, Matches fns h' k = Matches fns h k := by
    intro k
    funext q
    rw [Matches, Matches, hentry]
  have hslot : ∀ k, slotOf fns h' k = slotOf fns h k := by
    intro k
    rw [slotOf, slotOf, hlen]
  have hother : ∀ k, fns.eqFn k key = false →
      stack fns h' (Function.update b (slotOf fns h key) (us ++ vs)) k = stack fns h b k := by
    intro k hk
    have hp : Matches fns h k p = false := (hfound.matches_iff hf hb k).trans hk
    rw [stack, stack, hslot, hmatches, hentry]
    by_cases hki : slotOf fns h k = slotOf fns h key
    · rw [hki, Function.update_self, hfound.chain, List.filter_append, List.filter_append,
        List.filter_cons_of_neg (by rw [hp]; exact Bool.false_ne_true)]
    · rw [Function.update_of_ne hki]
  have hself : stack fns h' (Function.update b (slotOf fns h key) (us ++ vs)) key =
      (stack fns h b key).tail := by
    have hus : us.filter (Matches fns h key) = [] :=
      List.filter_eq_nil_iff.2 fun q hq => by
        rw [hfound.before q hq]
        exact Bool.false_ne_true
    rw [hfound.stack_eq, List.tail_cons, stack, hslot, hmatches, hentry, Function.update_self,
      List.filter_append, hus, List.nil_append]
  funext k
  rw [onKey]
  cases hk : fns.eqFn k key with
  | false => exact hother k hk
  | true =>
      rw [if_pos rfl, hb'.stack_congr hf hk, hself, hb.stack_congr hf hk]

/-- The value of the entry found is changed: this is the value on top of the stack, for this key
only. -/
theorem stack_writeValue (hf : fns.Lawful) (hb : Buckets fns h b) (f : BitVec 64 → BitVec 64)
    {h' : Hashtable} (hb' : Buckets fns h' b)
    (hentry : h'.entry =
      Function.update h.entry p { h.entry p with value := f (h.entry p).value })
    (hlen : h'.tableLength = h.tableLength) (hfound : FoundAt fns h b key us p vs) :
    stack fns h' b = onKey fns (stack fns h b) key (List.modifyHead f) := by
  have hdata : ∀ q, (h'.entry q).key = (h.entry q).key ∧ (h'.entry q).hash = (h.entry q).hash := by
    intro q
    rw [hentry]
    by_cases hqp : q = p
    · rw [hqp, Function.update_self]
      exact ⟨rfl, rfl⟩
    · rw [Function.update_of_ne hqp]
      exact ⟨rfl, rfl⟩
  have hmatches : ∀ k, Matches fns h' k = Matches fns h k := by
    intro k
    funext q
    rw [Matches, Matches, (hdata q).1, (hdata q).2]
  have hslot : ∀ k, slotOf fns h' k = slotOf fns h k := by
    intro k
    rw [slotOf, slotOf, hlen]
  have hvalue : ∀ l : List Nat, p ∉ l →
      l.map (fun q => (h'.entry q).value) = l.map fun q => (h.entry q).value := by
    intro l hpl
    refine List.map_congr_left fun q hq => ?_
    rw [hentry, Function.update_of_ne]
    rintro rfl
    exact hpl hq
  have hother : ∀ k, fns.eqFn k key = false → stack fns h' b k = stack fns h b k := by
    intro k hk
    rw [stack, stack, hslot, hmatches]
    refine hvalue _ fun hmem => ?_
    have hp := (List.mem_filter.1 hmem).2
    rw [hfound.matches_iff hf hb, hk] at hp
    exact Bool.false_ne_true hp
  have hself : stack fns h' b key = (stack fns h b key).modifyHead f := by
    have hfound' : FoundAt fns h' b key us p vs := by
      refine ⟨?_, ?_, ?_⟩
      · rw [hslot]
        exact hfound.chain
      · rw [hmatches]
        exact hfound.before
      · rw [hmatches]
        exact hfound.isMatch
    have hnodup := hb.chains.nodup _ (hb.indexFor_lt (doHash fns key))
    have hpvs : p ∉ vs := by
      have hmid : (us ++ p :: vs).Nodup := hfound.chain ▸ hnodup
      exact fun hmem => (List.nodup_cons.1 (List.nodup_middle.1 hmid)).1
        (List.mem_append_right us hmem)
    have htail : p ∉ vs.filter (Matches fns h key) := fun hmem => hpvs (List.mem_filter.1 hmem).1
    rw [hfound'.stack_eq, hfound.stack_eq, hmatches, hvalue _ htail, hentry, Function.update_self]
    rfl
  funext k
  rw [onKey]
  cases hk : fns.eqFn k key with
  | false => exact hother k hk
  | true => rw [if_pos rfl, hb'.stack_congr hf hk, hself, hb.stack_congr hf hk]

end Stack

/-! ## Insertion -/

section Insert

variable {fns : KeyFns} {h : Hashtable} {b : Nat → List Nat} {p : Nat}

/-- The table with a new entry `p` at the front of the chain of its key. -/
def Hashtable.pushEntry (fns : KeyFns) (h : Hashtable) (p : Nat) (key value : BitVec 64) :
    Hashtable :=
  { h with
    entry := Function.update h.entry p ⟨key, value, doHash fns key⟩
    next := Function.update h.next p (h.table.ptr (slotOf fns h key))
    live := p :: h.live
    table := { h.table with ptr := Function.update h.table.ptr (slotOf fns h key) p } }

/-- The chains with a new entry. -/
def pushChain (fns : KeyFns) (h : Hashtable) (b : Nat → List Nat) (p : Nat) (key : BitVec 64) :
    Nat → List Nat :=
  Function.update b (slotOf fns h key) (p :: b (slotOf fns h key))

theorem Buckets.pushEntry (hb : Buckets fns h b) (hp : p ≠ 0) (hfresh : p ∉ h.live)
    (key value : BitVec 64) :
    Buckets fns (h.pushEntry fns p key value) (pushChain fns h b p key) := by
  have hi : slotOf fns h key < h.tableLength := hb.indexFor_lt _
  have hmem : ∀ j q, q ∈ pushChain fns h b p key j ↔ (j = slotOf fns h key ∧ q = p) ∨ q ∈ b j :=
    fun j q => ChainArray.mem_update_cons
  have hentry : ∀ q ∈ h.live, (h.pushEntry fns p key value).entry q = h.entry q := by
    intro q hq
    refine Function.update_of_ne ?_ _ _
    rintro rfl
    exact hfresh hq
  have hentryp : (h.pushEntry fns p key value).entry p = ⟨key, value, doHash fns key⟩ :=
    Function.update_self ..
  refine ⟨hb.chains.push hi hp (hb.outside_of_not_live hfresh), hb.size, hb.prime, hb.limit,
    ?_, ?_, ?_, List.nodup_cons.2 ⟨hfresh, hb.nodup⟩⟩
  · intro j q hj hq
    rcases (hmem j q).1 hq with ⟨rfl, rfl⟩ | hq
    · rw [hentryp]
      rfl
    · rw [hentry q (hb.mem_live hj hq)]
      exact hb.index j q hj hq
  · intro q hq
    rcases List.mem_cons.1 hq with rfl | hq
    · rw [hentryp]
    · rw [hentry q hq]
      exact hb.hash q hq
  · intro q
    show q ∈ p :: h.live ↔ ∃ j, j < h.tableLength ∧ q ∈ pushChain fns h b p key j
    rw [List.mem_cons, hb.live]
    constructor
    · rintro (rfl | ⟨j, hj, hq⟩)
      · exact ⟨_, hi, (hmem _ _).2 (Or.inl ⟨rfl, rfl⟩)⟩
      · exact ⟨j, hj, (hmem j q).2 (Or.inr hq)⟩
    · rintro ⟨j, hj, hq⟩
      rcases (hmem j q).1 hq with ⟨-, rfl⟩ | hq
      · exact Or.inl rfl
      · exact Or.inr ⟨j, hj, hq⟩

/-- A new entry is pushed on the stack of its key. -/
theorem stack_pushEntry (hf : fns.Lawful) (hb : Buckets fns h b) (hfresh : p ∉ h.live)
    (key value : BitVec 64) :
    stack fns (h.pushEntry fns p key value) (pushChain fns h b p key) =
      onKey fns (stack fns h b) key (value :: ·) := by
  have hentry : ∀ j q, j < h.tableLength → q ∈ b j →
      (h.pushEntry fns p key value).entry q = h.entry q := by
    intro j q hj hq
    refine Function.update_of_ne ?_ _ _
    rintro rfl
    exact hfresh (hb.mem_live hj hq)
  have hentryp : (h.pushEntry fns p key value).entry p = ⟨key, value, doHash fns key⟩ :=
    Function.update_self ..
  -- the old entries of a chain give the old stack
  have hold : ∀ k, ((b (slotOf fns h k)).filter
      (Matches fns (h.pushEntry fns p key value) k)).map
        (fun q => ((h.pushEntry fns p key value).entry q).value) = stack fns h b k := by
    intro k
    have hk : slotOf fns h k < h.tableLength := hb.indexFor_lt _
    have hfilter : (b (slotOf fns h k)).filter (Matches fns (h.pushEntry fns p key value) k) =
        (b (slotOf fns h k)).filter (Matches fns h k) :=
      List.filter_congr fun q hq => by rw [Matches, Matches, hentry _ q hk hq]
    rw [hfilter, stack]
    exact List.map_congr_left fun q hq => by rw [hentry _ q hk (List.mem_filter.1 hq).1]
  funext k
  rw [onKey, ← hold k]
  show ((pushChain fns h b p key (slotOf fns h k)).filter _).map _ = _
  cases hk : fns.eqFn k key with
  | true =>
      have hslot : slotOf fns h k = slotOf fns h key := by rw [slotOf, slotOf, hf.doHash_eq hk]
      have hmatch : Matches fns (h.pushEntry fns p key value) k p = true := by
        rw [Matches, hentryp]
        exact decide_eq_true ⟨hf.doHash_eq hk, hk⟩
      rw [if_pos rfl, pushChain, hslot, Function.update_self, List.filter_cons_of_pos hmatch,
        List.map_cons, hentryp]
  | false =>
      have hmatch : ¬ Matches fns (h.pushEntry fns p key value) k p = true := by
        rw [Matches, hentryp, decide_eq_true_eq]
        rintro ⟨-, hc⟩
        exact Bool.false_ne_true (hk.symm.trans hc)
      rw [if_neg Bool.false_ne_true, pushChain]
      by_cases hslot : slotOf fns h k = slotOf fns h key
      · rw [hslot, Function.update_self, List.filter_cons_of_neg hmatch]
      · rw [Function.update_of_ne hslot]

/-- The end of `pet_htable_insert`. -/
theorem linkFront_calloc (hb : Buckets fns h b) (p : Nat) (key value : BitVec 64) :
    ({ h.calloc p with
      entry := Function.update (h.calloc p).entry p ⟨key, value, doHash fns key⟩ } :
        Hashtable).linkFront (slotOf fns h key) p = .ok (h.pushEntry fns p key value) := by
  have hi : slotOf fns h key < h.table.size := by
    rw [hb.size]
    exact hb.indexFor_lt _
  refine (Hashtable.linkFront_eq (h := { h.calloc p with
    entry := Function.update (h.calloc p).entry p ⟨key, value, doHash fns key⟩ }) hi
    List.mem_cons_self).trans ?_
  simp only [Hashtable.calloc, Function.update_idem]
  rfl

/-- `entry_count` is not part of the chains. -/
theorem Buckets.withCount (hb : Buckets fns h b) (n : BitVec 32) :
    Buckets fns { h with entryCount := n } b :=
  ⟨hb.chains, hb.size, hb.prime, hb.limit, hb.index, hb.hash, hb.live, hb.nodup⟩

/-- The first half of `pet_htable_insert`: the table grows if it has to. -/
theorem growIfFull_spec (hb : Buckets fns h b) {a : Allocs}
    (halloc : a.newTable = false → a.realloc = none) :
    ∃ h' b', growIfFull a { h with entryCount := h.entryCount + 1 } = .ok h' ∧
      Buckets fns h' b' ∧ h'.live = h.live ∧ h'.entryCount = h.entryCount + 1 ∧
      (⟨stack fns h' b', h.entryCount, h'.primeIndex⟩ : Stacks) =
        if (view fns h b).Grows a then (view fns h b).grow else view fns h b := by
  have hlimit : loadFactors.getD h.primeIndex 0 = h.loadLimit := by
    rw [List.getD_eq_getElem?_getD, hb.limit]
    rfl
  have hgrows_iff : (view fns h b).Grows a ↔ h.loadLimit < (h.entryCount + 1).toNat ∧
      h.primeIndex ≠ primeTableLen - 1 ∧ a.newTable = true := by
    rw [← hlimit]
    rfl
  have hb₁ := hb.withCount (h.entryCount + 1)
  by_cases hgrows : (view fns h b).Grows a
  · rw [if_pos hgrows]
    obtain ⟨hfull, hmax, hnewTable⟩ := hgrows_iff.1 hgrows
    obtain ⟨h', b', heq, hb', he⟩ := hashtableExpand_grows hb₁ hmax hnewTable
    have hgrow : growIfFull a { h with entryCount := h.entryCount + 1 } = .ok h' := by
      rw [growIfFull, if_pos hfull, heq]
      rfl
    have hstack : stack fns h' b' = fun k => (stack fns h b k).reverse :=
      funext fun k => stack_of_expanded he k
    refine ⟨h', b', hgrow, hb', he.live, he.count, ?_⟩
    rw [hstack, he.primeIndex]
    rfl
  · rw [if_neg hgrows]
    refine ⟨{ h with entryCount := h.entryCount + 1 }, b, ?_, hb₁, rfl, rfl, rfl⟩
    by_cases hfull : h.loadLimit < (h.entryCount + 1).toNat
    · have hstays := hashtableExpand_stays (h := { h with entryCount := h.entryCount + 1 }) halloc
        fun hc => hgrows (hgrows_iff.2 ⟨hfull, hc⟩)
      rw [growIfFull, if_pos hfull, hstays]
      rfl
    · rw [growIfFull, if_neg hfull]

/-- What `pet_htable_insert` does to the stacks. -/
theorem petHtableInsert_spec (hf : fns.Lawful) (hb : IsTable fns h b) {a : Allocs}
    (halloc : a.newTable = false → a.realloc = none) (hfresh : a.newEntry ∉ h.live)
    (key value : BitVec 64) :
    ∃ h' b', petHtableInsert fns a h key value =
        .ok (((view fns h b).insert fns a key value).1, h') ∧
      IsTable fns h' b' ∧ view fns h' b' = ((view fns h b).insert fns a key value).2 := by
  obtain ⟨h₁, b₁, hexpand, hb₁, hlive, hcount, hview⟩ := growIfFull_spec hb.toBuckets halloc
  rw [petHtableInsert, hexpand, Stacks.insert, ← hview]
  by_cases hnull : a.newEntry = 0
  · -- no memory for the entry: the count is put back, the growth is not
    have hback : h₁.entryCount - 1 = h.entryCount := by
      rw [hcount, BitVec.add_sub_cancel]
    refine ⟨{ h₁ with entryCount := h₁.entryCount - 1 }, b₁, ?_, ⟨hb₁.withCount _, ?_⟩, ?_⟩
    · simp only [bind, Except.bind, if_pos hnull]
      rfl
    · show h₁.entryCount - 1 = BitVec.ofNat 32 h₁.live.length
      rw [hback, hlive]
      exact hb.count
    · rw [if_pos hnull]
      show (⟨_, h₁.entryCount - 1, _⟩ : Stacks) = _
      rw [hback]
      rfl
  · have hfresh₁ : a.newEntry ∉ h₁.live := hlive ▸ hfresh
    refine ⟨h₁.pushEntry fns a.newEntry key value, pushChain fns h₁ b₁ a.newEntry key, ?_,
      ⟨hb₁.pushEntry hnull hfresh₁ key value, ?_⟩, ?_⟩
    · have hlink := linkFront_calloc hb₁ a.newEntry key value
      simp only [bind, Except.bind, if_neg hnull]
      exact congrArg (· >>= fun h' => pure ((-1 : Int), h')) hlink
    · show h₁.entryCount = BitVec.ofNat 32 (h₁.live.length + 1)
      rw [hcount, hlive, hb.count, BitVec.ofNat_add]
      rfl
    · rw [if_neg hnull]
      show (⟨stack fns (h₁.pushEntry fns a.newEntry key value) _, h₁.entryCount,
        h₁.primeIndex⟩ : Stacks) = _
      rw [stack_pushEntry hf hb₁ hfresh₁, hcount]
      rfl

end Insert

/-! ## Changes, searches and removals -/

section Key

variable {fns : KeyFns} {h : Hashtable} {b : Nat → List Nat}

/-- The value of the entry found is written. -/
theorem writeValue_spec (hf : fns.Lawful) (hb : IsTable fns h b) {key : BitVec 64}
    {us vs : List Nat} {p : Nat} (hfound : FoundAt fns h b key us p vs) (f : BitVec 64 → BitVec 64)
    (freed : List (BitVec 64)) :
    ∃ h', ({ h with freed := freed } : Hashtable).writeValue p (f (h.entry p).value) = .ok h' ∧
      IsTable fns h' b ∧ view fns h' b = ((view fns h b).change fns key f).2 := by
  have hi : slotOf fns h key < h.tableLength := hb.indexFor_lt _
  have hlive : p ∈ h.live := hb.mem_live hi hfound.mem
  refine ⟨_, Hashtable.writeValue_of_mem (h := { h with freed := freed }) hlive _, ?_⟩
  have hdata : ∀ q, (Function.update h.entry p { h.entry p with
        value := f (h.entry p).value } q).key = (h.entry q).key ∧
      (Function.update h.entry p { h.entry p with value := f (h.entry p).value } q).hash =
        (h.entry q).hash := by
    intro q
    by_cases hqp : q = p
    · rw [hqp, Function.update_self]
      exact ⟨rfl, rfl⟩
    · rw [Function.update_of_ne hqp]
      exact ⟨rfl, rfl⟩
  have hb' : Buckets fns { h with
      freed := freed
      entry := Function.update h.entry p { h.entry p with value := f (h.entry p).value } } b := by
    refine ⟨hb.chains, hb.size, hb.prime, hb.limit, ?_, ?_, hb.live, hb.nodup⟩
    · intro j q hj hq
      exact (congrArg (indexFor h.tableLength) (hdata q).2).trans (hb.index j q hj hq)
    · intro q hq
      exact ((hdata q).2.trans (hb.hash q hq)).trans (congrArg (doHash fns) (hdata q).1.symm)
  refine ⟨⟨hb', hb.count⟩, ?_⟩
  have hne : ¬ (view fns h b).values key = [] := by
    show ¬ stack fns h b key = []
    rw [hfound.stack_eq]
    exact List.cons_ne_nil _ _
  rw [Stacks.change, if_neg hne, view, stack_writeValue hf hb.toBuckets f hb' rfl rfl hfound]
  rfl

/-- The reply of a change. -/
theorem change_found {key : BitVec 64} {us vs : List Nat} {p : Nat}
    (hfound : FoundAt fns h b key us p vs) (f : BitVec 64 → BitVec 64) :
    ((view fns h b).change fns key f).1 = -1 := by
  have hne : ¬ (view fns h b).values key = [] := by
    show ¬ stack fns h b key = []
    rw [hfound.stack_eq]
    exact List.cons_ne_nil _ _
  rw [Stacks.change, if_neg hne]

theorem change_notFound {key : BitVec 64} (hnone : NotFound fns h b key)
    (f : BitVec 64 → BitVec 64) :
    (view fns h b).change fns key f = (0, view fns h b) := if_pos hnone.stack_eq

/-- What `pet_htable_change` does to the stacks. -/
theorem petHtableChange_spec (hf : fns.Lawful) (hb : IsTable fns h b) (key value : BitVec 64)
    (freeValue : Bool) :
    ∃ h', petHtableChange fns h key value freeValue =
        .ok (((view fns h b).change fns key fun _ => value).1, h') ∧
      IsTable fns h' b ∧ view fns h' b = ((view fns h b).change fns key fun _ => value).2 := by
  rcases findKey_spec hb.toBuckets key with ⟨us, p, vs, hfound, hfind⟩ | ⟨hnone, entryPtr, hfind⟩
  · have hi : slotOf fns h key < h.tableLength := hb.indexFor_lt _
    have hlive : p ∈ h.live := hb.mem_live hi hfound.mem
    have hne : ¬ p = 0 := hb.ne_null hi hfound.mem
    obtain ⟨h', hwrite, hspec⟩ := writeValue_spec hf hb hfound (fun _ => value)
      (h.freeIf freeValue (h.entry p).value).freed
    refine ⟨h', ?_, hspec⟩
    have hfree : h.freeIf freeValue (h.entry p).value =
        { h with freed := (h.freeIf freeValue (h.entry p).value).freed } := by
      cases freeValue <;> rfl
    rw [petHtableChange, hfind, change_found hfound]
    simp only [bind, Except.bind, if_neg hne, Hashtable.read_of_mem hlive]
    rw [hfree, hwrite]
    rfl
  · refine ⟨h, ?_, hb, ?_⟩
    · rw [petHtableChange, hfind, change_notFound hnone]
      rfl
    · rw [change_notFound hnone]

/-- What `pet_htable_inc` and `pet_htable_dec` do to the stacks. -/
theorem updateValue_spec (hf : fns.Lawful) (hb : IsTable fns h b) (key : BitVec 64)
    (f : BitVec 64 → BitVec 64) :
    ∃ h', updateValue fns h key f = .ok (((view fns h b).change fns key f).1, h') ∧
      IsTable fns h' b ∧ view fns h' b = ((view fns h b).change fns key f).2 := by
  rcases findKey_spec hb.toBuckets key with ⟨us, p, vs, hfound, hfind⟩ | ⟨hnone, entryPtr, hfind⟩
  · have hi : slotOf fns h key < h.tableLength := hb.indexFor_lt _
    have hlive : p ∈ h.live := hb.mem_live hi hfound.mem
    have hne : ¬ p = 0 := hb.ne_null hi hfound.mem
    obtain ⟨h', hwrite, hspec⟩ := writeValue_spec hf hb hfound f h.freed
    refine ⟨h', ?_, hspec⟩
    rw [updateValue, hfind, change_found hfound]
    simp only [bind, Except.bind, if_neg hne, Hashtable.read_of_mem hlive]
    rw [hwrite]
    rfl
  · refine ⟨h, ?_, hb, ?_⟩
    · rw [updateValue, hfind, change_notFound hnone]
      rfl
    · rw [change_notFound hnone]

/-- What `pet_htable_search` returns. -/
theorem petHtableSearch_spec (hb : IsTable fns h b) (key : BitVec 64) :
    petHtableSearch fns h key = .ok ((view fns h b).search key) := by
  rcases findKey_spec hb.toBuckets key with ⟨us, p, vs, hfound, hfind⟩ | ⟨hnone, entryPtr, hfind⟩
  · have hi : slotOf fns h key < h.tableLength := hb.indexFor_lt _
    have hne : ¬ p = 0 := hb.ne_null hi hfound.mem
    have htop : (view fns h b).search key = (h.entry p).value := by
      show (stack fns h b key).headD 0 = _
      rw [hfound.stack_eq]
      rfl
    rw [petHtableSearch, hfind, htop]
    simp only [bind, Except.bind, if_neg hne, Hashtable.read_of_mem (hb.mem_live hi hfound.mem)]
    rfl
  · have htop : (view fns h b).search key = 0 := by
      show (stack fns h b key).headD 0 = _
      rw [hnone.stack_eq]
      rfl
    rw [petHtableSearch, hfind, htop]
    rfl

/-- An entry is taken out of its chain and freed. -/
theorem Buckets.dropEntry {i p : Nat} {us vs : List Nat} (hb : Buckets fns h b)
    (hi : i < h.tableLength) (heq : b i = us ++ p :: vs) {next : Nat → Nat} {ptr : Nat → Nat}
    (hc : ChainArray next (fun _ => 0) ptr h.tableLength (Function.update b i (us ++ vs)))
    (freed : List (BitVec 64)) (n : BitVec 32) :
    Buckets fns { h with
      next := next
      table := { h.table with ptr := ptr }
      live := h.live.erase p
      freed := freed
      entryCount := n } (Function.update b i (us ++ vs)) := by
  have hmem : ∀ j q, j < h.tableLength →
      (q ∈ Function.update b i (us ++ vs) j ↔ q ∈ b j ∧ q ≠ p) :=
    fun j q hj => hb.chains.mem_update_append hi heq hj
  refine ⟨hc, hb.size, hb.prime, hb.limit, ?_, ?_, ?_, hb.nodup.erase p⟩
  · exact fun j q hj hq => hb.index j q hj ((hmem j q hj).1 hq).1
  · exact fun q hq => hb.hash q (List.mem_of_mem_erase hq)
  · intro q
    show q ∈ h.live.erase p ↔ ∃ j, j < h.tableLength ∧ q ∈ Function.update b i (us ++ vs) j
    rw [hb.nodup.mem_erase_iff, hb.live]
    constructor
    · rintro ⟨hqp, j, hj, hq⟩
      exact ⟨j, hj, (hmem j q hj).2 ⟨hq, hqp⟩⟩
    · rintro ⟨j, hj, hq⟩
      obtain ⟨hq, hqp⟩ := (hmem j q hj).1 hq
      exact ⟨hqp, j, hj, hq⟩

/-- One entry less. -/
theorem IsTable.count_erase (hb : IsTable fns h b) {p : Nat} (hp : p ∈ h.live) :
    h.entryCount - 1 = BitVec.ofNat 32 (h.live.erase p).length := by
  have hlen := List.length_erase_add_one hp
  rw [hb.count, ← hlen, BitVec.ofNat_add]
  exact BitVec.add_sub_cancel _ _

/-- What `pet_htable_remove` does to the stacks. -/
theorem petHtableRemove_spec (hf : fns.Lawful) (hb : IsTable fns h b) (key : BitVec 64)
    (freeKey : Bool) :
    ∃ h' b', petHtableRemove fns h key freeKey = .ok (((view fns h b).remove fns key).1, h') ∧
      IsTable fns h' b' ∧ view fns h' b' = ((view fns h b).remove fns key).2 := by
  rcases findKey_spec hb.toBuckets key with ⟨us, p, vs, hfound, hfind⟩ | ⟨hnone, entryPtr, hfind⟩
  · have hi : slotOf fns h key < h.tableLength := hb.indexFor_lt _
    have hlive : p ∈ h.live := hb.mem_live hi hfound.mem
    have hne : ¬ p = 0 := hb.ne_null hi hfound.mem
    obtain ⟨next, ptr, hstore, -, hc⟩ := store_unlink hb.chains hi hb.size
      (fun q hq => hb.mem_live hi hq) hfound.chain
    have hb' := hb.toBuckets.dropEntry hi hfound.chain hc
      (h.freeIf freeKey (h.entry p).key).freed (h.entryCount - 1)
    have hstack : ¬ (view fns h b).values key = [] := by
      show ¬ stack fns h b key = []
      rw [hfound.stack_eq]
      exact List.cons_ne_nil _ _
    have hremove : (view fns h b).remove fns key =
        ((h.entry p).value, ⟨onKey fns (stack fns h b) key List.tail, h.entryCount - 1,
          h.primeIndex⟩) := by
      rw [Stacks.remove, if_neg hstack]
      show ((stack fns h b key).headD 0, _) = _
      rw [hfound.stack_eq]
      rfl
    refine ⟨_, _, ?_, ⟨hb', hb.count_erase hlive⟩, ?_⟩
    · have hfree : ∀ g : Hashtable, g.freeIf freeKey (h.entry p).key =
          { g with freed := (g.freeIf freeKey (h.entry p).key).freed } := by
        intro g
        cases freeKey <;> rfl
      rw [petHtableRemove, hfind, hremove]
      simp only [bind, Except.bind, if_neg hne, Hashtable.readNext_of_mem hlive, hstore,
        Hashtable.read, if_pos hlive]
      rw [hfree]
      simp only [Hashtable.freeEntry, if_pos hlive]
      cases freeKey <;> rfl
    · rw [hremove, view, stack_unlink hf hb.toBuckets hb' rfl rfl hfound]
  · have hremove : (view fns h b).remove fns key = (0, view fns h b) := if_pos hnone.stack_eq
    refine ⟨h, b, ?_, hb, ?_⟩
    · rw [petHtableRemove, hfind, hremove]
      rfl
    · rw [hremove]

end Key

end PetKernel.HashTable
