import PetKernel.HashTable.Chains

/-!
# The growth of the hash table

`hashtable_expand` moves the entries to a larger array, one after the other from the front of the
old chains to the front of the new ones. `Moving` is the invariant of its two loops: two arrays of
chains that share the links, so that an entry is in one of the two. For every hash value the entries
with this value are moved in their order, which reverses it (`Moving.order`). So the table that
comes out has the same entries, and the values of every key are found in the opposite order
(`stack_of_expanded`).

The loops after `realloc` move entries within one array (`rehash_spec`). They put every entry into
its slot, but the new slots are not cleared before: the chains of these slots end in whatever stood
there. If `memset` does not stop the call, then what comes out is no table
(`realloc_branch_leaves_ends`).
-/

set_option autoImplicit false

namespace PetKernel.HashTable

open PetKernel.Library

/-- The entries with the hash value `x` of a chain. -/
def withHash (h : Hashtable) (x : BitVec 32) (l : List Nat) : List Nat :=
  l.filter fun p => (h.entry p).hash = x

theorem mem_withHash {h : Hashtable} {x : BitVec 32} {l : List Nat} {p : Nat} :
    p ∈ withHash h x l ↔ p ∈ l ∧ (h.entry p).hash = x := by
  rw [withHash, List.mem_filter, decide_eq_true_iff]

theorem withHash_cons_self (h : Hashtable) (p : Nat) (l : List Nat) :
    withHash h (h.entry p).hash (p :: l) = p :: withHash h (h.entry p).hash l :=
  List.filter_cons_of_pos (decide_eq_true rfl)

theorem withHash_cons_of_ne {h : Hashtable} {x : BitVec 32} {p : Nat} (hne : (h.entry p).hash ≠ x)
    (l : List Nat) : withHash h x (p :: l) = withHash h x l :=
  List.filter_cons_of_neg (by simpa using hne)

/-- A change in a chain that does not concern the entries with the hash. -/
theorem withHash_update {h : Hashtable} {x : BitVec 32} {b : Nat → List Nat} {i : Nat}
    {l : List Nat} (hl : withHash h x l = withHash h x (b i)) (j : Nat) :
    withHash h x (Function.update b i l j) = withHash h x (b j) := by
  by_cases hji : j = i
  · rw [hji, Function.update_self, hl]
  · rw [Function.update_of_ne hji]

/-! ## Moving to a new array -/

/-- Some entries of the table `h₀` with the chains `b₀` have been moved to the new array `t`. The
chains `b` are what is left of the old ones, and `c` are the new ones. -/
structure Moving (h₀ : Hashtable) (b₀ : Nat → List Nat) (newSize : Nat) (h : Hashtable) (t : Slots)
    (b c : Nat → List Nat) : Prop where
  same : h = { h₀ with next := h.next, table := h.table }
  old : ChainArray h.next (fun _ => 0) h.table.ptr h₀.tableLength b
  new : ChainArray h.next (fun _ => 0) t.ptr newSize c
  old_size : h.table.size = h₀.tableLength
  new_size : t.size = newSize
  index : ∀ j p, j < newSize → p ∈ c j → indexFor newSize (h₀.entry p).hash = j
  old_sub : ∀ i p, i < h₀.tableLength → p ∈ b i → p ∈ b₀ i
  apart : ∀ i p, i < h₀.tableLength → p ∈ b i → Outside newSize c p
  order : ∀ x, withHash h₀ x (b₀ (indexFor h₀.tableLength x)) =
    (withHash h₀ x (c (indexFor newSize x))).reverse ++
      withHash h₀ x (b (indexFor h₀.tableLength x))

namespace Moving

variable {fns : KeyFns} {h₀ h : Hashtable} {b₀ b c : Nat → List Nat} {newSize i p : Nat} {t : Slots}
  {vs : List Nat}

theorem entry_eq (hm : Moving h₀ b₀ newSize h t b c) : h.entry = h₀.entry := by rw [hm.same]

theorem live_eq (hm : Moving h₀ b₀ newSize h t b c) : h.live = h₀.live := by rw [hm.same]

/-- Nothing has been moved yet. -/
theorem start (hb : Buckets fns h₀ b₀) (newSize : Nat) :
    Moving h₀ b₀ newSize h₀ (Slots.calloc newSize) b₀ fun _ => [] where
  same := rfl
  old := hb.chains
  new := ChainArray.empty h₀.next (fun _ => 0) newSize
  old_size := hb.size
  new_size := rfl
  index := fun _ _ _ hp => absurd hp List.not_mem_nil
  old_sub := fun _ _ _ hp => hp
  apart := fun _ _ _ _ _ _ => List.not_mem_nil
  order := fun _ => rfl

/-- The first entry of an old chain is moved to the front of its new chain. -/
theorem move (hb : Buckets fns h₀ b₀) (hnew : 0 < newSize) (hm : Moving h₀ b₀ newSize h t b c)
    (hi : i < h₀.tableLength) (heq : b i = p :: vs) :
    Moving h₀ b₀ newSize
      { h with
        next := Function.update h.next p (t.ptr (indexFor newSize (h₀.entry p).hash))
        table := { h.table with ptr := Function.update h.table.ptr i (h.next p) } }
      { t with ptr := Function.update t.ptr (indexFor newSize (h₀.entry p).hash) p }
      (Function.update b i vs)
      (Function.update c (indexFor newSize (h₀.entry p).hash)
        (p :: c (indexFor newSize (h₀.entry p).hash))) := by
  have hp : p ∈ b i := heq ▸ List.mem_cons_self
  have hout : Outside newSize c p := hm.apart i p hi hp
  have hj : indexFor newSize (h₀.entry p).hash < newSize := Nat.mod_lt _ hnew
  have hpi : indexFor h₀.tableLength (h₀.entry p).hash = i := hb.index i p hi (hm.old_sub i p hi hp)
  -- the entry is in none of the old chains any more
  have hgone : ∀ k q, k < h₀.tableLength → q ∈ Function.update b i vs k → q ∈ b k ∧ q ≠ p :=
    fun k q hk hq => (hm.old.mem_update_append hi (show b i = [] ++ p :: vs from heq) hk).1 hq
  refine ⟨?_, ?_, hm.new.push hj (fun hnull => hm.old.nonnil i hi (hnull ▸ hp)) hout, hm.old_size,
    hm.new_size, ?_, ?_, ?_, ?_⟩
  · rw [hm.same]
  · exact (hm.old.pop hi heq).congr (fun _ _ => rfl) fun k q hk hq =>
      Function.update_of_ne (hgone k q hk hq).2 _ _
  · intro j q hjlt hq
    rcases ChainArray.mem_update_cons.1 hq with ⟨rfl, rfl⟩ | hq
    · rfl
    · exact hm.index j q hjlt hq
  · exact fun k q hk hq => hm.old_sub k q hk (hgone k q hk hq).1
  · intro k q hk hq j hjlt hqc
    obtain ⟨hqb, hne⟩ := hgone k q hk hq
    rcases ChainArray.mem_update_cons.1 hqc with ⟨-, hqp⟩ | hqc
    · exact hne hqp
    · exact hm.apart k q hk hqb j hjlt hqc
  · intro x
    have horder := hm.order x
    by_cases hx : (h₀.entry p).hash = x
    · -- the entry goes from the front of one list to the front of the other
      subst hx
      rw [hpi] at horder ⊢
      rw [heq, withHash_cons_self] at horder
      rw [Function.update_self, Function.update_self, withHash_cons_self, List.reverse_cons,
        List.append_assoc, List.singleton_append]
      exact horder
    · have hvs : withHash h₀ x vs = withHash h₀ x (b i) := by
        rw [heq, withHash_cons_of_ne hx]
      rw [withHash_update hvs, withHash_update (withHash_cons_of_ne hx _)]
      exact horder

end Moving

section Loops

variable {fns : KeyFns} {h₀ : Hashtable} {b₀ : Nat → List Nat} {newSize i : Nat}

/-- The inner loop empties a chain. -/
theorem drain_spec (hb : Buckets fns h₀ b₀) (hnew : 0 < newSize) (hi : i < h₀.tableLength) :
    ∀ (vs : List Nat) (n : Nat) (h : Hashtable) (t : Slots) (b c : Nat → List Nat),
      Moving h₀ b₀ newSize h t b c → b i = vs → vs.length < n →
      ∃ h' t' c', drain newSize i n h t = .ok (h', t') ∧
        Moving h₀ b₀ newSize h' t' (Function.update b i []) c' := by
  intro vs
  -- on the entries that are still in the chain, for any state of the two arrays
  induction vs with
  | nil =>
      intro n h t b c hm heq hn
      obtain ⟨n, rfl⟩ := Nat.exists_eq_succ_of_ne_zero (Nat.ne_of_gt hn)
      have hnull : h.table.ptr i = 0 := by rw [hm.old.head i hi, heq, List.headD_nil]
      refine ⟨h, t, c, ?_, ?_⟩
      · rw [drain, Slots.read_of_lt (hm.old_size.symm ▸ hi), hnull]
        rfl
      · rwa [← heq, Function.update_eq_self]
  | cons p vs ih =>
      intro n h t b c hm heq hn
      obtain ⟨n, rfl⟩ := Nat.exists_eq_succ_of_ne_zero (Nat.ne_of_gt (Nat.zero_lt_of_lt hn))
      have hp : p ∈ b i := heq ▸ List.mem_cons_self
      have hne : ¬ p = 0 := fun hnull => hm.old.nonnil i hi (hnull ▸ hp)
      have hlive : p ∈ h.live := hm.live_eq ▸ hb.mem_live hi (hm.old_sub i p hi hp)
      have hfirst : h.table.ptr i = p := by rw [hm.old.head i hi, heq, List.headD_cons]
      have hisize : i < h.table.size := hm.old_size.symm ▸ hi
      have hj : indexFor newSize (h.entry p).hash < t.size := hm.new_size.symm ▸ Nat.mod_lt _ hnew
      obtain ⟨h', t', c', hdrain, hm'⟩ := ih n _ _ _ _ (hm.move hb hnew hi heq)
        (Function.update_self i vs b) (Nat.lt_of_succ_lt_succ hn)
      refine ⟨h', t', c', ?_, ?_⟩
      · rw [drain, Slots.read_of_lt hisize, hfirst]
        simp only [bind, Except.bind, if_neg hne, Hashtable.readNext_of_mem hlive,
          Hashtable.writeSlot_of_lt hisize, Hashtable.read, Hashtable.writeNext, if_pos hlive,
          Slots.read_of_lt hj, Slots.write_of_lt hj]
        rw [← hm.entry_eq] at hdrain
        exact hdrain
      · rwa [Function.update_idem] at hm'

/-- The outer loop empties all chains. -/
theorem transfer_spec (hb : Buckets fns h₀ b₀) (hnew : 0 < newSize) :
    ∀ (n i : Nat) (h : Hashtable) (t : Slots) (b c : Nat → List Nat),
      Moving h₀ b₀ newSize h t b c → i + n = h₀.tableLength → (∀ j, j < i → b j = []) →
      ∃ h' t' b' c', transfer newSize n i h t = .ok (h', t') ∧
        Moving h₀ b₀ newSize h' t' b' c' ∧ ∀ j, j < h₀.tableLength → b' j = [] := by
  intro n
  induction n with
  | zero =>
      intro i h t b c hm hin hempty
      exact ⟨h, t, b, c, rfl, hm, fun j hj => hempty j (by omega)⟩
  | succ n ih =>
      intro i h t b c hm hin hempty
      have hi : i < h₀.tableLength := by omega
      have hlen : (b i).length < h.live.length + 1 := by
        have hsub : b i ⊆ h₀.live := fun p hp => hb.mem_live hi (hm.old_sub i p hi hp)
        have hle := ((hm.old.nodup i hi).subperm hsub).length_le
        rw [hm.live_eq]
        exact Nat.lt_succ_of_le hle
      obtain ⟨h₁, t₁, c₁, hdrain, hm₁⟩ := drain_spec hb hnew hi (b i) _ h t b c hm rfl hlen
      obtain ⟨h', t', b', c', htransfer, hm', hall⟩ := ih (i + 1) h₁ t₁ _ c₁ hm₁ (by omega) (by
        intro j hj
        by_cases hji : j = i
        · rw [hji, Function.update_self]
        · rw [Function.update_of_ne hji]
          exact hempty j (by omega))
      refine ⟨h', t', b', c', ?_, hm', hall⟩
      rw [transfer, hdrain]
      exact htransfer

end Loops

/-! ## The larger table -/

/-- The table `h'` has the entries of `h` in a larger array, for each hash value in the opposite
order. -/
structure Expanded (h : Hashtable) (b : Nat → List Nat) (h' : Hashtable) (b' : Nat → List Nat) :
    Prop where
  entry : h'.entry = h.entry
  live : h'.live = h.live
  freed : h'.freed = h.freed
  count : h'.entryCount = h.entryCount
  primeIndex : h'.primeIndex = h.primeIndex + 1
  order : ∀ x, withHash h x (b' (indexFor h'.tableLength x)) =
    (withHash h x (b (indexFor h.tableLength x))).reverse

/-- Nothing is left in the old array: the new one makes a table. -/
theorem Moving.buckets {fns : KeyFns} {h₀ h : Hashtable} {b₀ b c : Nat → List Nat}
    {newSize limit : Nat} {t : Slots} (hb : Buckets fns h₀ b₀) (hm : Moving h₀ b₀ newSize h t b c)
    (hall : ∀ j, j < h₀.tableLength → b j = []) (hprime : primes[h₀.primeIndex + 1]? = some newSize)
    (hlimit : loadFactors[h₀.primeIndex + 1]? = some limit) :
    Buckets fns { h with
      table := t
      tableLength := newSize
      loadLimit := limit
      primeIndex := h₀.primeIndex + 1 } c ∧
    ∀ x, withHash h₀ x (c (indexFor newSize x)) =
      (withHash h₀ x (b₀ (indexFor h₀.tableLength x))).reverse := by
  have horder : ∀ x, withHash h₀ x (c (indexFor newSize x)) =
      (withHash h₀ x (b₀ (indexFor h₀.tableLength x))).reverse := by
    intro x
    have hx := hm.order x
    have hnil : withHash h₀ x [] = [] := rfl
    rw [hall _ (hb.indexFor_lt x), hnil, List.append_nil] at hx
    rw [hx, List.reverse_reverse]
  have hentry := hm.entry_eq
  have hlive := hm.live_eq
  refine ⟨⟨hm.new, hm.new_size, hprime, hlimit, ?_, ?_, ?_, ?_⟩, horder⟩
  · intro j p hj hp
    show indexFor newSize (h.entry p).hash = j
    rw [hentry]
    exact hm.index j p hj hp
  · intro p hp
    show (h.entry p).hash = doHash fns (h.entry p).key
    rw [hentry]
    exact hb.hash p (hlive ▸ hp)
  · -- an entry is found under its hash value, in the old chains as in the new ones
    intro p
    show p ∈ h.live ↔ ∃ j, j < newSize ∧ p ∈ c j
    have hmem : p ∈ c (indexFor newSize (h₀.entry p).hash) ↔
        p ∈ b₀ (indexFor h₀.tableLength (h₀.entry p).hash) := by
      have hx := congrArg (p ∈ ·) (horder (h₀.entry p).hash)
      simpa [mem_withHash] using hx
    rw [hlive]
    constructor
    · intro hp
      exact ⟨_, Nat.mod_lt _ (primes_pos hprime), hmem.2 (hb.mem_chain hp)⟩
    · rintro ⟨j, hj, hp⟩
      rw [← hm.index j p hj hp] at hp
      exact hb.mem_live (hb.indexFor_lt _) (hmem.1 hp)
  · show h.live.Nodup
    rw [hlive]
    exact hb.nodup

theorem Buckets.primeIndex_lt {fns : KeyFns} {h : Hashtable} {b : Nat → List Nat}
    (hb : Buckets fns h b) : h.primeIndex < primeTableLen :=
  (List.getElem?_eq_some_iff.1 hb.prime).1

/-- `hashtable_expand` with memory for a larger array. -/
theorem hashtableExpand_grows {fns : KeyFns} {h : Hashtable} {b : Nat → List Nat} {a : Allocs}
    (hb : Buckets fns h b) (hmax : h.primeIndex ≠ primeTableLen - 1)
    (hnewTable : a.newTable = true) :
    ∃ h' b', hashtableExpand a h = .ok (-1, h') ∧ Buckets fns h' b' ∧ Expanded h b h' b' := by
  have hlt : h.primeIndex + 1 < primeTableLen := by
    have := hb.primeIndex_lt
    omega
  have hprime : primes[h.primeIndex + 1]? = some (primes.getD (h.primeIndex + 1) 0) :=
    getElem?_eq_some_getD hlt
  have hlimit : loadFactors[h.primeIndex + 1]? = some (loadFactors.getD (h.primeIndex + 1) 0) :=
    getElem?_eq_some_getD hlt
  obtain ⟨h', t', b', c', htransfer, hm, hall⟩ := transfer_spec hb (primes_pos hprime)
    h.tableLength 0 h _ b _ (Moving.start hb (primes.getD (h.primeIndex + 1) 0))
    (Nat.zero_add _) fun j hj => absurd hj (Nat.not_lt_zero j)
  obtain ⟨hbuckets, horder⟩ := hm.buckets hb hall hprime hlimit
  refine ⟨_, c', ?_, hbuckets, ?_⟩
  · rw [hashtableExpand, if_neg hmax, hnewTable]
    simp only [htransfer, bind, Except.bind, if_true, loadFactor, hlimit, pure, Except.pure]
  · rw [hm.same]
    exact ⟨rfl, rfl, rfl, rfl, rfl, horder⟩

/-- `hashtable_expand` at the last prime or without memory leaves the table as it is. -/
theorem hashtableExpand_stays {h : Hashtable} {a : Allocs}
    (halloc : a.newTable = false → a.realloc = none)
    (hstays : ¬ (h.primeIndex ≠ primeTableLen - 1 ∧ a.newTable = true)) :
    hashtableExpand a h = .ok (0, h) := by
  by_cases hmax : h.primeIndex = primeTableLen - 1
  · rw [hashtableExpand, if_pos hmax]
  · have hnewTable : a.newTable = false := by
      rw [← Bool.not_eq_true]
      exact fun htrue => hstays ⟨hmax, htrue⟩
    rw [hashtableExpand, if_neg hmax, hnewTable, halloc hnewTable]
    rfl

/-- The values of every key are found in the opposite order afterwards. -/
theorem stack_of_expanded {fns : KeyFns} {h h' : Hashtable} {b b' : Nat → List Nat}
    (he : Expanded h b h' b') (key : BitVec 64) :
    stack fns h' b' key = (stack fns h b key).reverse := by
  -- only entries with the hash value of the key match
  have hfilter : ∀ l : List Nat, l.filter (Matches fns h key) =
      (withHash h (doHash fns key) l).filter (Matches fns h key) := by
    intro l
    rw [withHash, List.filter_filter]
    refine List.filter_congr fun p _ => ?_
    by_cases hhash : (h.entry p).hash = doHash fns key
    · rw [decide_eq_true hhash, Bool.and_true]
    · rw [decide_eq_false hhash, Bool.and_false, Matches, decide_eq_false]
      exact fun hc => hhash hc.1.symm
  have hmatches : Matches fns h' key = Matches fns h key := by
    funext p
    rw [Matches, Matches, he.entry]
  rw [stack, stack, slotOf, slotOf, hmatches, he.entry, hfilter, he.order, List.filter_reverse,
    List.map_reverse, ← hfilter]

/-! ## Moving within one array -/

section InPlace

variable {fns : KeyFns} {h₀ : Hashtable} {newSize : Nat} {ends : Nat → Nat}

/-- The entries of the table `h₀` in an array of `newSize` slots, with chains that end in `ends`.
Only the chains of the slots from `i` to `last` may have entries that belong to another slot. -/
structure InPlace (h₀ : Hashtable) (newSize : Nat) (ends : Nat → Nat) (last i : Nat) (h : Hashtable)
    (c : Nat → List Nat) : Prop where
  same : h = { h₀ with next := h.next, table := h.table }
  chains : ChainArray h.next ends h.table.ptr newSize c
  size : h.table.size = newSize
  live : ∀ p, p ∈ h₀.live ↔ ∃ j, j < newSize ∧ p ∈ c j
  placed : ∀ j p, j < newSize → (j < i ∨ last ≤ j) → p ∈ c j →
    indexFor newSize (h₀.entry p).hash = j

namespace InPlace

variable {last i p : Nat} {h : Hashtable} {c : Nat → List Nat} {us vs : List Nat}

theorem mem_live (hm : InPlace h₀ newSize ends last i h c) {j : Nat} (hj : j < newSize)
    (hp : p ∈ c j) : p ∈ h.live := by
  rw [hm.same]
  exact (hm.live p).2 ⟨j, hj, hp⟩

theorem entry_eq (hm : InPlace h₀ newSize ends last i h c) : h.entry = h₀.entry := by rw [hm.same]

/-- An entry that belongs to another slot is moved there. -/
theorem move (hm : InPlace h₀ newSize ends last i h c) (hends : ∀ j, ends j ∉ h₀.live)
    (hi : i < newSize) (heq : c i = us ++ p :: vs) (hne : indexFor newSize (h₀.entry p).hash ≠ i)
    {next : Nat → Nat} {ptr : Nat → Nat}
    (hc : ChainArray next ends ptr newSize (Function.update c i (us ++ vs))) :
    InPlace h₀ newSize ends last i
      { h with
        next := Function.update next p (ptr (indexFor newSize (h₀.entry p).hash))
        table := { h.table with
          ptr := Function.update ptr (indexFor newSize (h₀.entry p).hash) p } }
      (Function.update (Function.update c i (us ++ vs)) (indexFor newSize (h₀.entry p).hash)
        (p :: c (indexFor newSize (h₀.entry p).hash))) := by
  have hp : p ∈ c i := heq ▸ List.mem_append_right us List.mem_cons_self
  have hj : indexFor newSize (h₀.entry p).hash < newSize := Nat.mod_lt _ (Nat.zero_lt_of_lt hi)
  have hout : Outside newSize (Function.update c i (us ++ vs)) p := fun k hk hmem =>
    ((hm.chains.mem_update_append hi heq hk).1 hmem).2 rfl
  have hlive : p ∈ h₀.live := (hm.live p).2 ⟨i, hi, hp⟩
  have hpush := hc.push hj (fun hend => hends _ (hend ▸ hlive)) hout
  have hsame : Function.update c i (us ++ vs) (indexFor newSize (h₀.entry p).hash) =
      c (indexFor newSize (h₀.entry p).hash) := Function.update_of_ne hne _ _
  -- the entries of the chains after the move
  have hmem : ∀ k q, k < newSize → (q ∈ Function.update (Function.update c i (us ++ vs))
      (indexFor newSize (h₀.entry p).hash) (p :: c (indexFor newSize (h₀.entry p).hash)) k ↔
      (k = indexFor newSize (h₀.entry p).hash ∧ q = p) ∨ (q ∈ c k ∧ q ≠ p)) := by
    intro k q hk
    rw [← hsame, ChainArray.mem_update_cons, hm.chains.mem_update_append hi heq hk]
  rw [hsame] at hpush
  refine ⟨?_, hpush, hm.size, ?_, ?_⟩
  · rw [hm.same]
  · intro q
    rw [hm.live]
    constructor
    · rintro ⟨k, hk, hq⟩
      by_cases hqp : q = p
      · exact ⟨_, hj, (hmem _ q hj).2 (Or.inl ⟨rfl, hqp⟩)⟩
      · exact ⟨k, hk, (hmem k q hk).2 (Or.inr ⟨hq, hqp⟩)⟩
    · rintro ⟨k, hk, hq⟩
      rcases (hmem k q hk).1 hq with ⟨-, rfl⟩ | ⟨hq, -⟩
      · exact ⟨i, hi, hp⟩
      · exact ⟨k, hk, hq⟩
  · intro k q hk hrange hq
    rcases (hmem k q hk).1 hq with ⟨rfl, rfl⟩ | ⟨hq, -⟩
    · rfl
    · exact hm.placed k q hk hrange hq

end InPlace

/-- The inner loop leaves in the chain of a slot what belongs there. -/
theorem rehashChain_spec {last i : Nat} (hends : ∀ j, ends j ∉ h₀.live) (hnull : 0 ∉ h₀.live)
    (hi : i < newSize) (hend : ends i = 0) :
    ∀ (vs us : List Nat) (n : Nat) (h : Hashtable) (c : Nat → List Nat),
      InPlace h₀ newSize ends last i h c → c i = us ++ vs → vs.length < n →
      (∀ p ∈ us, indexFor newSize (h₀.entry p).hash = i) →
      ∃ h' c', rehashChain newSize i n h (ptrAfter i us) = .ok h' ∧
        InPlace h₀ newSize ends last (i + 1) h' c' := by
  intro vs
  -- on the part of the chain that was not looked at yet; the entries `us` before it stay
  induction vs with
  | nil =>
      intro us n h c hm heq hn hus
      obtain ⟨n, rfl⟩ := Nat.exists_eq_succ_of_ne_zero (Nat.ne_of_gt hn)
      refine ⟨h, c, ?_, hm.same, hm.chains, hm.size, hm.live, ?_⟩
      · rw [rehashChain, load_ptrAfter hm.chains hi hm.size (fun q hq => hm.mem_live hi hq) heq,
          hend]
        rfl
      · intro j p hj hrange hp
        by_cases hji : j = i
        · subst hji
          rw [heq, List.append_nil] at hp
          exact hus p hp
        · exact hm.placed j p hj (by omega) hp
  | cons p vs ih =>
      intro us n h c hm heq hn hus
      obtain ⟨n, rfl⟩ := Nat.exists_eq_succ_of_ne_zero (Nat.ne_of_gt (Nat.zero_lt_of_lt hn))
      have hp : p ∈ c i := heq ▸ List.mem_append_right us List.mem_cons_self
      have hlive := hm.mem_live hi hp
      have hne : ¬ p = 0 := by
        rintro rfl
        exact hnull ((hm.live 0).2 ⟨i, hi, hp⟩)
      have hload := load_ptrAfter hm.chains hi hm.size (fun q hq => hm.mem_live hi hq) heq
      rw [List.headD_cons] at hload
      have hj : indexFor newSize (h₀.entry p).hash < h.table.size := by
        rw [hm.size]
        exact Nat.mod_lt _ (Nat.zero_lt_of_lt hi)
      by_cases hindex : i = indexFor newSize (h₀.entry p).hash
      · -- the entry stays, and the place moves on to its link
        obtain ⟨h', c', hchain, hm'⟩ := ih (us ++ [p]) n h c hm (by simpa using heq)
          (Nat.lt_of_succ_lt_succ hn) (by
            intro q hq
            rcases List.mem_append.1 hq with hq | hq
            · exact hus q hq
            · rw [List.mem_singleton.1 hq]
              exact hindex.symm)
        rw [ptrAfter_concat] at hchain
        refine ⟨h', c', ?_, hm'⟩
        rw [rehashChain, hload]
        simp only [bind, Except.bind, if_neg hne, Hashtable.read_of_mem hlive, hm.entry_eq,
          if_pos hindex]
        exact hchain
      · -- the entry is linked in front of another chain, and the place stays
        obtain ⟨next, ptr, hstore, -, hc⟩ :=
          store_unlink hm.chains hi hm.size (fun q hq => hm.mem_live hi hq) heq
        obtain ⟨h', c', hchain, hm'⟩ := ih us n _ _ (hm.move hends hi heq (Ne.symm hindex) hc)
          (by rw [Function.update_of_ne hindex, Function.update_self])
          (Nat.lt_of_succ_lt_succ hn) hus
        refine ⟨h', c', ?_, hm'⟩
        rw [rehashChain, hload]
        have hlink : ({ h with next := next, table := { h.table with
            ptr := ptr } } : Hashtable).linkFront
            (indexFor newSize (h₀.entry p).hash) p = _ := Hashtable.linkFront_eq hj hlive
        simp only [bind, Except.bind, if_neg hne, Hashtable.read_of_mem hlive, hm.entry_eq,
          if_neg hindex, Hashtable.readNext_of_mem hlive, hstore] at hlink ⊢
        rw [hlink]
        rw [hm.entry_eq] at hchain
        exact hchain

/-- The outer loop, for the slots from the `i`-th on. -/
theorem rehash_spec {last : Nat} (hends : ∀ j, ends j ∉ h₀.live) (hnull : 0 ∉ h₀.live)
    (hle : last ≤ newSize) (hold : ∀ j, j < last → ends j = 0) :
    ∀ (n i : Nat) (h : Hashtable) (c : Nat → List Nat), InPlace h₀ newSize ends last i h c →
      i + n = last →
      ∃ h' c', rehash newSize n i h = .ok h' ∧ InPlace h₀ newSize ends last last h' c' := by
  intro n
  induction n with
  | zero =>
      intro i h c hm hin
      rw [Nat.add_zero] at hin
      exact ⟨h, c, rfl, hin ▸ hm⟩
  | succ n ih =>
      intro i h c hm hin
      have hi : i < newSize := by omega
      have hlen : (c i).length < h.live.length + 1 := by
        have hsub : c i ⊆ h.live := fun p hp => hm.mem_live hi hp
        exact Nat.lt_succ_of_le ((hm.chains.nodup i hi).subperm hsub).length_le
      obtain ⟨h₁, c₁, hchain, hm₁⟩ := rehashChain_spec hends hnull hi (hold i (by omega))
        (c i) [] _ h c hm rfl hlen
        fun p hp => absurd hp List.not_mem_nil
      obtain ⟨h', c', hrehash, hm'⟩ := ih (i + 1) h₁ c₁ hm₁ (by omega)
      refine ⟨h', c', ?_, hm'⟩
      rw [rehash]
      exact (congrArg (· >>= rehash newSize n (i + 1)) hchain).trans hrehash

/-- Where the chains end after `realloc`: those of the slots that were added end in what stood
there. -/
def endsAfter (h : Hashtable) (rest : Nat → Nat) (j : Nat) : Nat :=
  if j < h.tableLength then 0 else rest j

/-- The entries of a table in the larger array. -/
theorem InPlace.start {b : Nat → List Nat} {rest : Nat → Nat} (hb : Buckets fns h₀ b)
    (hle : h₀.tableLength ≤ newSize) :
    InPlace h₀ newSize (endsAfter h₀ rest) h₀.tableLength 0
      { h₀ with table := h₀.table.realloc newSize rest }
      fun j => if j < h₀.tableLength then b j else [] := by
  refine ⟨rfl, hb.chains.extend (fun j hj => ?_) (fun j hj => if_pos hj) (fun j hge => ?_), rfl,
    fun p => ?_, fun j p _ hrange hp => ?_⟩
  · exact if_pos (hb.size ▸ hj)
  · have hj : ¬ j < h₀.tableLength := Nat.not_lt.2 hge
    rw [endsAfter, if_neg hj]
    exact if_neg (hb.size ▸ hj)
  · rw [hb.live]
    constructor
    · rintro ⟨j, hj, hp⟩
      exact ⟨j, Nat.lt_of_lt_of_le hj hle, ChainArray.mem_extend.2 ⟨hj, hp⟩⟩
    · rintro ⟨j, -, hp⟩
      exact ⟨j, ChainArray.mem_extend.1 hp⟩
  · have hj := (ChainArray.mem_extend.1 hp).1
    omega

end InPlace

/-! ## The branch with `realloc` -/

theorem primes_lt_next : ∀ k, k < primeTableLen - 1 → primes.getD k 0 < primes.getD (k + 1) 0 := by
  decide

/-- The larger array that the branch with `realloc` leaves: every entry of `h` is in the chain `c`
of its slot, and the chains of the slots that were added end in what stood there. -/
structure Stretched (h : Hashtable) (rest : Nat → Nat) (h' : Hashtable) (c : Nat → List Nat) :
    Prop where
  entry : h'.entry = h.entry
  live : h'.live = h.live
  length : h'.tableLength = primes.getD (h.primeIndex + 1) 0
  size : h'.table.size = h'.tableLength
  chains : ChainArray h'.next (endsAfter h rest) h'.table.ptr h'.tableLength c
  index : ∀ j p, j < h'.tableLength → p ∈ c j → indexFor h'.tableLength (h'.entry p).hash = j
  mem : ∀ p, p ∈ h'.live ↔ ∃ j, j < h'.tableLength ∧ p ∈ c j

section Realloc

variable {fns : KeyFns} {h h' : Hashtable} {b c : Nat → List Nat}

/-- The loop over a chain that does not end in the null pointer, when no entry has the key. -/
theorem find_dangling {key : BitVec 64} {hashValue : BitVec 32} {q : Nat} (hq : q ≠ 0)
    (hdead : q ∉ h.live) (habsent : ∀ p ∈ h.live, fns.eqFn key (h.entry p).key = false)
    (hnull : 0 ∉ h.live) : ∀ (vs : List Nat) (n : Nat) (entryPtr : EntryPtr),
      Linked h.next q vs → (∀ p ∈ vs, p ∈ h.live) → vs.length < n →
      find fns h key hashValue n entryPtr (vs.headD q) = .error (.dangling q) := by
  intro vs
  induction vs with
  | nil =>
      intro n entryPtr _ _ hn
      obtain ⟨n, rfl⟩ := Nat.exists_eq_succ_of_ne_zero (Nat.ne_of_gt hn)
      rw [List.headD_nil, find, if_neg hq, Hashtable.read, if_neg hdead]
      rfl
  | cons p vs ih =>
      intro n entryPtr hlinked hlive hn
      obtain ⟨n, rfl⟩ := Nat.exists_eq_succ_of_ne_zero (Nat.ne_of_gt (Nat.zero_lt_of_lt hn))
      obtain ⟨hp, hvs⟩ := List.forall_mem_cons.1 hlive
      have hne : ¬ p = 0 := fun heq => hnull (heq ▸ hp)
      have hrest := ih n (.link p) hlinked.2 hvs (Nat.lt_of_succ_lt_succ hn)
      rw [List.headD_cons, find, if_neg hne, Hashtable.read_of_mem hp, Hashtable.readNext_of_mem hp,
        hlinked.1]
      simp only [bind, Except.bind, habsent p hp, Bool.false_eq_true, and_false, if_false, hrest]

/-- A search for a key that the table does not have, in a slot that was added and was not null. -/
theorem Stretched.search_dangling {rest : Nat → Nat} (hs : Stretched h rest h' c)
    (hnull : 0 ∉ h.live)
    {key : BitVec 64} (hlen : 0 < h'.tableLength) (hslot : h.tableLength ≤ slotOf fns h' key)
    (hq : rest (slotOf fns h' key) ≠ 0) (hdead : rest (slotOf fns h' key) ∉ h.live)
    (habsent : ∀ p ∈ h.live, fns.eqFn key (h.entry p).key = false) :
    petHtableSearch fns h' key = .error (.dangling (rest (slotOf fns h' key))) := by
  have hi : slotOf fns h' key < h'.tableLength := Nat.mod_lt _ hlen
  have hend : endsAfter h rest (slotOf fns h' key) = rest (slotOf fns h' key) :=
    if_neg (Nat.not_lt.2 hslot)
  have hmem : ∀ p ∈ c (slotOf fns h' key), p ∈ h'.live := fun p hp => (hs.mem p).2 ⟨_, hi, hp⟩
  have hfuel : (c (slotOf fns h' key)).length < h'.live.length + 1 :=
    Nat.lt_succ_of_le ((hs.chains.nodup _ hi).subperm fun p hp => hmem p hp).length_le
  have hlinked := hs.chains.linked _ hi
  have hread := Slots.read_of_lt (t := h'.table) (hs.size.symm ▸ hi)
  rw [hend] at hlinked
  rw [hs.chains.head _ hi, hend] at hread
  have hfind := @find_dangling fns h' key (doHash fns key) _ hq (hs.live ▸ hdead)
    (by rwa [hs.live, hs.entry]) (hs.live ▸ hnull) _ _ (.slot (slotOf fns h' key)) hlinked
    hmem hfuel
  have hkey : findKey fns h' key = .error (.dangling (rest (slotOf fns h' key))) := by
    show (h'.table.read (slotOf fns h' key) >>= find fns h' key (doHash fns key)
      (h'.live.length + 1) (.slot (slotOf fns h' key))) = _
    rw [hread]
    exact hfind
  rw [petHtableSearch, hkey]
  rfl

/-- The loops after `realloc`. -/
theorem rehash_stretched {rest : Nat → Nat} (hb : Buckets fns h b)
    (hrest : ∀ j, rest j ∉ h.live) {newSize : Nat} (hlt : h.tableLength < newSize)
    (hnew : newSize = primes.getD (h.primeIndex + 1) 0) (limit : Nat) :
    ∃ h₁ c, rehash newSize h.tableLength 0 { h with table := h.table.realloc newSize rest } =
      .ok h₁ ∧ Stretched h rest { h₁ with
        tableLength := newSize
        loadLimit := limit
        primeIndex := h.primeIndex + 1 } c := by
  have hends : ∀ j, endsAfter h rest j ∉ h.live := by
    intro j
    rw [endsAfter]
    split
    · exact hb.null_not_live
    · exact hrest j
  obtain ⟨h₁, c, hrehash, hm⟩ := rehash_spec hends hb.null_not_live (Nat.le_of_lt hlt)
    (fun j hj => if_pos hj) h.tableLength 0 _ _ (InPlace.start hb (Nat.le_of_lt hlt))
    (Nat.zero_add _)
  have hentry : h₁.entry = h.entry := hm.entry_eq
  have hlive : h₁.live = h.live := by rw [hm.same]
  refine ⟨h₁, c, hrehash, hentry, hlive, hnew, hm.size, hm.chains, ?_, ?_⟩
  · intro j p hj hp
    show indexFor newSize (h₁.entry p).hash = j
    rw [hentry]
    exact hm.placed j p hj (Nat.lt_or_ge j h.tableLength) hp
  · intro p
    show p ∈ h₁.live ↔ _
    rw [hlive]
    exact hm.live p

/-- `hashtable_expand` when `calloc` fails and `realloc` does not. It passes what stands in the
first slot that was added to `memset`. If this is not the address of memory that can be written,
then the call ends in a fault. Otherwise it returns an array with every entry in its slot, in which
the chains of the slots that were added end in what stood there. The first of them does not end in
the null pointer, so that every search there for a key that the table does not have takes memory for
an entry that is none. -/
theorem realloc_branch_leaves_ends {a : Allocs} {added : Added} (hb : Buckets fns h b)
    (hmax : h.primeIndex ≠ primeTableLen - 1) (hcalloc : a.newTable = false)
    (hrealloc : a.realloc = some added) (hrest : ∀ j, added.rest j ∉ h.live)
    (hnull : added.writable 0 = false) :
    ((¬ ∀ k, k < primes.getD (h.primeIndex + 1) 0 - h.tableLength →
        added.writable (added.rest h.tableLength + k) = true) →
      hashtableExpand a h = .error (.wild (added.rest h.tableLength))) ∧
    ((∀ k, k < primes.getD (h.primeIndex + 1) 0 - h.tableLength →
        added.writable (added.rest h.tableLength + k) = true) →
      added.rest h.tableLength ≠ 0 ∧
      ∃ h' c, hashtableExpand a h = .ok (-1, h') ∧ Stretched h added.rest h' c ∧
        ∀ key, h.tableLength ≤ slotOf fns h' key → added.rest (slotOf fns h' key) ≠ 0 →
          (∀ p ∈ h.live, fns.eqFn key (h.entry p).key = false) →
          petHtableSearch fns h' key = .error (.dangling (added.rest (slotOf fns h' key)))) := by
  have hk : h.primeIndex < primeTableLen - 1 := by
    have := hb.primeIndex_lt
    omega
  have hk' : h.primeIndex + 1 < primeTableLen := by omega
  have hlt : h.tableLength < primes.getD (h.primeIndex + 1) 0 := by
    have hnext := primes_lt_next h.primeIndex hk
    have hold : primes.getD h.primeIndex 0 = h.tableLength := by
      rw [List.getD_eq_getElem?_getD, hb.prime]
      rfl
    omega
  have hread : (h.table.realloc (primes.getD (h.primeIndex + 1) 0) added.rest).read h.tableLength =
      .ok (added.rest h.tableLength) := by
    have hnot : ¬ h.tableLength < h.table.size := by
      rw [hb.size]
      exact Nat.lt_irrefl _
    rw [Slots.read_of_lt hlt]
    exact congrArg Except.ok (if_neg hnot)
  -- the length of the `memset` is in bytes, and its address is the word in the first new slot
  constructor
  · intro hwild
    rw [hashtableExpand, if_neg hmax, hcalloc, hrealloc]
    simp only [bind, Except.bind, Bool.false_eq_true, if_false, hread, memset, if_neg hwild]
  · intro hwritable
    refine ⟨fun hzero => ?_, ?_⟩
    · -- the null page cannot be written
      have hfirst := hwritable 0 (by omega)
      rw [hzero, hnull] at hfirst
      cases hfirst
    · obtain ⟨h₁, c, hrehash, hs⟩ := rehash_stretched hb hrest hlt rfl
        (loadFactors.getD (h.primeIndex + 1) 0)
      refine ⟨_, c, ?_, hs, fun key hslot hq habsent => ?_⟩
      · rw [hashtableExpand, if_neg hmax, hcalloc, hrealloc]
        simp only [bind, Except.bind, Bool.false_eq_true, if_false, hread, memset, if_pos hwritable,
          hrehash, loadFactor, getElem?_eq_some_getD (l := loadFactors) hk']
        rfl
      · exact hs.search_dangling hb.null_not_live (Nat.zero_lt_of_lt hlt) hslot hq (hrest _) habsent

end Realloc

/-- A new table that has no memory to grow but by `realloc`: the word that was never set is 0 in one
case, and the address of a page that can be written in the other. -/
theorem realloc_branch_leaves_ends_new :
    hashtableExpand ⟨false, some ⟨fun _ => 0, fun _ => false⟩, 16⟩ (newHtable 0) =
      .error (.wild 0) ∧
    ∃ h' c, hashtableExpand ⟨false, some ⟨fun _ => 4096, fun p => 4096 ≤ p⟩, 16⟩ (newHtable 0) =
        .ok (-1, h') ∧ Stretched (newHtable 0) (fun _ => 4096) h' c := by
  have hb : IsTable ⟨petHashPtr, (· == ·)⟩ (newHtable 0) _ := newHtable_isTable _ (Nat.zero_le _)
  have hzero := realloc_branch_leaves_ends
    (a := ⟨false, some ⟨fun _ => 0, fun _ => false⟩, 16⟩) hb.toBuckets (by decide) rfl rfl
    (fun _ => List.not_mem_nil) rfl
  have hpage := realloc_branch_leaves_ends
    (a := ⟨false, some ⟨fun _ => 4096, fun p => 4096 ≤ p⟩, 16⟩) hb.toBuckets (by decide) rfl rfl
    (fun _ => List.not_mem_nil) rfl
  refine ⟨hzero.1 fun hall => absurd (hall 0 (by decide)) Bool.false_ne_true, ?_⟩
  obtain ⟨-, h', c, hexpand, hs, -⟩ := hpage.2 fun k _ => decide_eq_true (Nat.le_add_right 4096 k)
  exact ⟨h', c, hexpand, hs⟩

end PetKernel.HashTable
