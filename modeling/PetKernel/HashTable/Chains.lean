import PetKernel.HashTable.Table

/-!
# The chains of the hash table

`Buckets fns h b` says that the slots of the table hold the chains `b`: every entry that is
allocated is in the chain of the slot that its hash value gives, and the length of the array and the
load limit are those of the prime index. `IsTable` adds that `entry_count` counts the entries.

The values of a key form a stack, the value that `pet_htable_search` finds first (`stack`).
`find_spec` is what the loop over a chain finds, and `store_unlink` what happens when the place that
points to an entry is made to point to the next one.
-/

set_option autoImplicit false

namespace PetKernel.HashTable

open PetKernel.Library

/-! ## Accesses that succeed -/

section Access

variable {h : Hashtable} {t : Slots} {i p : Nat}

theorem Slots.read_of_lt (hi : i < t.size) : t.read i = .ok (t.ptr i) := if_pos hi

theorem Slots.write_of_lt (hi : i < t.size) (p : Nat) :
    t.write i p = .ok { t with ptr := Function.update t.ptr i p } := if_pos hi

namespace Hashtable

theorem read_of_mem (hp : p ∈ h.live) : h.read p = .ok (h.entry p) := if_pos hp

theorem readNext_of_mem (hp : p ∈ h.live) : h.readNext p = .ok (h.next p) := if_pos hp

theorem writeNext_of_mem (hp : p ∈ h.live) (q : Nat) :
    h.writeNext p q = .ok { h with next := Function.update h.next p q } := if_pos hp

theorem writeValue_of_mem (hp : p ∈ h.live) (value : BitVec 64) :
    h.writeValue p value =
      .ok { h with entry := Function.update h.entry p { h.entry p with value := value } } :=
  if_pos hp

theorem writeSlot_of_lt (hi : i < h.table.size) (p : Nat) :
    h.writeSlot i p =
      .ok { h with table := { h.table with ptr := Function.update h.table.ptr i p } } := by
  rw [writeSlot, Slots.write_of_lt hi]
  rfl

theorem linkFront_eq (hi : i < h.table.size) (hp : p ∈ h.live) :
    h.linkFront i p = .ok { h with
      next := Function.update h.next p (h.table.ptr i)
      table := { h.table with ptr := Function.update h.table.ptr i p } } := by
  rw [linkFront, Slots.read_of_lt hi]
  simp only [bind, Except.bind, writeNext_of_mem hp]
  exact writeSlot_of_lt (h := { h with next := Function.update h.next p (h.table.ptr i) }) hi p

end Hashtable

end Access

/-! ## The invariant -/

/-- The slots of the table hold the chains `b`. -/
structure Buckets (fns : KeyFns) (h : Hashtable) (b : Nat → List Nat) : Prop where
  chains : ChainArray h.next (fun _ => 0) h.table.ptr h.tableLength b
  size : h.table.size = h.tableLength
  prime : primes[h.primeIndex]? = some h.tableLength
  limit : loadFactors[h.primeIndex]? = some h.loadLimit
  index : ∀ i p, i < h.tableLength → p ∈ b i → indexFor h.tableLength (h.entry p).hash = i
  hash : ∀ p ∈ h.live, (h.entry p).hash = doHash fns (h.entry p).key
  live : ∀ p, p ∈ h.live ↔ ∃ i, i < h.tableLength ∧ p ∈ b i
  nodup : h.live.Nodup

/-- A table: chains, and the number of their entries as a number of 32 bits. -/
structure IsTable (fns : KeyFns) (h : Hashtable) (b : Nat → List Nat) :
    Prop extends Buckets fns h b where
  count : h.entryCount = BitVec.ofNat 32 h.live.length

/-- The entry is one for the key. -/
def Matches (fns : KeyFns) (h : Hashtable) (key : BitVec 64) (p : Nat) : Bool :=
  doHash fns key = (h.entry p).hash ∧ fns.eqFn key (h.entry p).key

/-- The slot of a key. -/
def slotOf (fns : KeyFns) (h : Hashtable) (key : BitVec 64) : Nat :=
  indexFor h.tableLength (doHash fns key)

/-- The values of a key, in the order in which its entries are found. -/
def stack (fns : KeyFns) (h : Hashtable) (b : Nat → List Nat) (key : BitVec 64) :
    List (BitVec 64) :=
  ((b (slotOf fns h key)).filter (Matches fns h key)).map fun p => (h.entry p).value

/-- The place that points to what comes after `us` in the chain of the slot `i`. -/
def ptrAfter (i : Nat) (us : List Nat) : EntryPtr :=
  match us.getLast? with
  | none => .slot i
  | some p => .link p

theorem ptrAfter_concat (i : Nat) (us : List Nat) (p : Nat) : ptrAfter i (us ++ [p]) = .link p := by
  rw [ptrAfter, List.getLast?_concat]

theorem primes_pos {k n : Nat} (h : primes[k]? = some n) : 0 < n := by
  have hpos : ∀ m ∈ primes, 0 < m := by decide
  exact hpos n (List.mem_of_getElem? h)

namespace Buckets

variable {fns : KeyFns} {h : Hashtable} {b : Nat → List Nat} {i p : Nat} {us vs : List Nat}

theorem length_pos (hb : Buckets fns h b) : 0 < h.tableLength := primes_pos hb.prime

theorem indexFor_lt (hb : Buckets fns h b) (x : BitVec 32) :
    indexFor h.tableLength x < h.tableLength :=
  Nat.mod_lt _ hb.length_pos

theorem mem_live (hb : Buckets fns h b) (hi : i < h.tableLength) (hp : p ∈ b i) : p ∈ h.live :=
  (hb.live p).2 ⟨i, hi, hp⟩

theorem ne_null (hb : Buckets fns h b) (hi : i < h.tableLength) (hp : p ∈ b i) : p ≠ 0 := by
  rintro rfl
  exact hb.chains.nonnil i hi hp

theorem null_not_live (hb : Buckets fns h b) : 0 ∉ h.live := by
  intro hmem
  obtain ⟨i, hi, hp⟩ := (hb.live 0).1 hmem
  exact hb.chains.nonnil i hi hp

/-- An entry is in the chain that its hash value gives. -/
theorem mem_chain (hb : Buckets fns h b) (hp : p ∈ h.live) :
    p ∈ b (indexFor h.tableLength (h.entry p).hash) := by
  obtain ⟨i, hi, hmem⟩ := (hb.live p).1 hp
  rw [hb.index i p hi hmem]
  exact hmem

theorem outside_of_not_live (hb : Buckets fns h b) (hp : p ∉ h.live) :
    Outside h.tableLength b p := fun _ hi hmem => hp (hb.mem_live hi hmem)

/-- No chain is longer than there are entries. -/
theorem length_le (hb : Buckets fns h b) (hi : i < h.tableLength) :
    (b i).length ≤ h.live.length := by
  have hsub : b i ⊆ h.live := fun p hp => hb.mem_live hi hp
  exact ((hb.chains.nodup i hi).subperm hsub).length_le

theorem read_slot (hb : Buckets fns h b) (hi : i < h.tableLength) :
    h.table.read i = .ok ((b i).headD 0) := by
  rw [Slots.read_of_lt (hb.size.symm ▸ hi), hb.chains.head i hi]

theorem readNext_eq (hb : Buckets fns h b) (hi : i < h.tableLength) (heq : b i = us ++ p :: vs) :
    h.readNext p = .ok (vs.headD 0) := by
  have hp : p ∈ h.live := hb.mem_live hi (heq ▸ by simp)
  rw [Hashtable.readNext_of_mem hp, hb.chains.next_eq hi heq]

end Buckets

/-! ## Creation -/

/-- The first prime that is larger than the size asked for. -/
theorem findPrime_spec (minSize : Nat) : ∀ (ps : List Nat) (k : Nat), (∃ p ∈ ps, minSize < p) →
    ∃ j p, ps[j]? = some p ∧ minSize < p ∧ findPrime minSize ps k = (k + j, p) := by
  intro ps
  induction ps with
  | nil =>
      rintro k ⟨p, hp, -⟩
      exact absurd hp List.not_mem_nil
  | cons q ps ih =>
      rintro k ⟨p, hp, hlt⟩
      by_cases hq : minSize < q
      · exact ⟨0, q, rfl, hq, by rw [findPrime, if_pos hq, Nat.add_zero]⟩
      · have hps : p ∈ ps := by
          rcases List.mem_cons.1 hp with rfl | hps
          · exact absurd hlt hq
          · exact hps
        obtain ⟨j, r, hj, hr, hfind⟩ := ih (k + 1) ⟨p, hps, hlt⟩
        exact ⟨j + 1, r, hj, hr, by rw [findPrime, if_neg hq, hfind, Nat.add_right_comm,
          Nat.add_assoc]⟩

theorem getElem?_eq_some_getD {l : List Nat} {k : Nat} (hk : k < l.length) :
    l[k]? = some (l.getD k 0) := by
  rw [List.getD_eq_getElem?_getD, List.getElem?_eq_getElem hk]
  rfl

/-- The table that `pet_create_htable` makes. -/
def newHtable (minSize : Nat) : Hashtable where
  entry := fun _ => ⟨0, 0, 0⟩
  next := fun _ => 0
  live := []
  freed := []
  table := Slots.calloc (findPrime minSize primes 0).2
  tableLength := (findPrime minSize primes 0).2
  entryCount := 0
  loadLimit := loadFactors.getD (findPrime minSize primes 0).1 0
  primeIndex := (findPrime minSize primes 0).1

/-- The prime for a size that `pet_create_htable` accepts. -/
theorem findPrime_primes {minSize : Nat} (hmin : minSize ≤ 2 ^ 30) :
    minSize < (findPrime minSize primes 0).2 ∧
      primes[(findPrime minSize primes 0).1]? = some (findPrime minSize primes 0).2 ∧
      loadFactors[(findPrime minSize primes 0).1]? =
        some (loadFactors.getD (findPrime minSize primes 0).1 0) := by
  obtain ⟨j, p, hj, hp, hfind⟩ := findPrime_spec minSize primes 0 ⟨1610612741, by decide, by omega⟩
  rw [Nat.zero_add] at hfind
  have hlt : j < primeTableLen := (List.getElem?_eq_some_iff.1 hj).1
  rw [hfind]
  exact ⟨hp, hj, getElem?_eq_some_getD hlt⟩

theorem petCreateHtable_eq {minSize : Nat} (hmin : minSize ≤ 2 ^ 30) :
    petCreateHtable minSize true true = .ok (some (newHtable minSize)) := by
  rw [petCreateHtable, if_neg (Nat.not_lt.2 hmin), if_neg (by decide)]
  simp only [loadFactor, (findPrime_primes hmin).2.2]
  rfl

/-- A new table is empty. -/
theorem newHtable_isTable (fns : KeyFns) {minSize : Nat} (hmin : minSize ≤ 2 ^ 30) :
    IsTable fns (newHtable minSize) fun _ => [] := by
  obtain ⟨-, hprime, hlimit⟩ := findPrime_primes hmin
  refine ⟨⟨ChainArray.empty _ (fun _ => 0) _, rfl, hprime, hlimit, ?_, ?_, ?_, List.nodup_nil⟩, rfl⟩
  · exact fun _ _ _ hq => absurd hq List.not_mem_nil
  · exact fun _ hq => absurd hq List.not_mem_nil
  · intro q
    refine iff_of_false List.not_mem_nil ?_
    rintro ⟨i, -, hq⟩
    exact List.not_mem_nil hq

/-! ## Looking for a key -/

section Find

variable {fns : KeyFns} {h : Hashtable} {b : Nat → List Nat} {i : Nat}

/-- A turn of the loop at an entry. -/
theorem find_cons (hb : Buckets fns h b) (hi : i < h.tableLength) {us vs : List Nat} {p n : Nat}
    (heq : b i = us ++ p :: vs) (key : BitVec 64) (entryPtr : EntryPtr) :
    find fns h key (doHash fns key) (n + 1) entryPtr p =
      if Matches fns h key p then .ok (entryPtr, p)
      else find fns h key (doHash fns key) n (.link p) (vs.headD 0) := by
  have hmem : p ∈ b i := heq ▸ by simp
  have hne : ¬ p = 0 := hb.ne_null hi hmem
  rw [find, if_neg hne, Hashtable.read_of_mem (hb.mem_live hi hmem), hb.readNext_eq hi heq]
  simp only [Matches, bind, Except.bind, pure, Except.pure, decide_eq_true_eq]

/-- What the loop finds in the rest `vs` of a chain. -/
theorem find_spec (hb : Buckets fns h b) (hi : i < h.tableLength) (key : BitVec 64) :
    ∀ (vs us : List Nat) (n : Nat), b i = us ++ vs → vs.length < n →
      (∃ xs p ys, vs = xs ++ p :: ys ∧ (∀ q ∈ xs, Matches fns h key q = false) ∧
        Matches fns h key p = true ∧
        find fns h key (doHash fns key) n (ptrAfter i us) (vs.headD 0) =
          .ok (ptrAfter i (us ++ xs), p)) ∨
      ((∀ q ∈ vs, Matches fns h key q = false) ∧ ∃ entryPtr,
        find fns h key (doHash fns key) n (ptrAfter i us) (vs.headD 0) = .ok (entryPtr, 0)) := by
  intro vs
  induction vs with
  | nil =>
      intro us n _ hn
      obtain ⟨n, rfl⟩ := Nat.exists_eq_succ_of_ne_zero (Nat.ne_of_gt hn)
      exact Or.inr ⟨fun q hq => absurd hq List.not_mem_nil, ptrAfter i us, if_pos rfl⟩
  | cons p vs ih =>
      intro us n heq hn
      obtain ⟨n, rfl⟩ := Nat.exists_eq_succ_of_ne_zero (Nat.ne_of_gt (Nat.zero_lt_of_lt hn))
      have hturn := find_cons (n := n) hb hi heq key (ptrAfter i us)
      cases hmatch : Matches fns h key p with
      | true =>
          rw [hmatch, if_pos rfl] at hturn
          refine Or.inl ⟨[], p, vs, rfl, fun q hq => absurd hq List.not_mem_nil, hmatch, ?_⟩
          rw [List.append_nil]
          exact hturn
      | false =>
          rw [hmatch, if_neg Bool.false_ne_true, ← ptrAfter_concat i us p] at hturn
          rw [List.headD_cons, hturn]
          rcases ih (us ++ [p]) n (by simpa using heq) (Nat.lt_of_succ_lt_succ hn) with
            ⟨xs, q, ys, rfl, hxs, hq, hfind⟩ | ⟨hvs, hfind⟩
          · refine Or.inl ⟨p :: xs, q, ys, rfl, ?_, hq, ?_⟩
            · exact List.forall_mem_cons.2 ⟨hmatch, hxs⟩
            · rw [hfind, List.append_assoc, List.singleton_append]
          · exact Or.inr ⟨List.forall_mem_cons.2 ⟨hmatch, hvs⟩, hfind⟩

/-- The entry that is found for a key: the first one in its chain. -/
structure FoundAt (fns : KeyFns) (h : Hashtable) (b : Nat → List Nat) (key : BitVec 64)
    (us : List Nat) (p : Nat) (vs : List Nat) : Prop where
  chain : b (slotOf fns h key) = us ++ p :: vs
  before : ∀ q ∈ us, Matches fns h key q = false
  isMatch : Matches fns h key p = true

/-- No entry is found for a key. -/
def NotFound (fns : KeyFns) (h : Hashtable) (b : Nat → List Nat) (key : BitVec 64) : Prop :=
  ∀ q ∈ b (slotOf fns h key), Matches fns h key q = false

theorem findKey_spec (hb : Buckets fns h b) (key : BitVec 64) :
    (∃ us p vs, FoundAt fns h b key us p vs ∧
      findKey fns h key = .ok (ptrAfter (slotOf fns h key) us, p)) ∨
    (NotFound fns h b key ∧ ∃ entryPtr, findKey fns h key = .ok (entryPtr, 0)) := by
  have hi : slotOf fns h key < h.tableLength := hb.indexFor_lt _
  have hfind : findKey fns h key = find fns h key (doHash fns key) (h.live.length + 1)
      (ptrAfter (slotOf fns h key) []) ((b (slotOf fns h key)).headD 0) := by
    show (h.table.read (slotOf fns h key) >>= find fns h key (doHash fns key) (h.live.length + 1)
      (.slot (slotOf fns h key))) = _
    rw [hb.read_slot hi]
    rfl
  rw [hfind]
  rcases find_spec hb hi key (b (slotOf fns h key)) [] (h.live.length + 1) rfl
    (Nat.lt_succ_of_le (hb.length_le hi)) with ⟨us, p, vs, heq, hus, hp, hres⟩ | ⟨hnone, hres⟩
  · exact Or.inl ⟨us, p, vs, ⟨heq, hus, hp⟩, hres⟩
  · exact Or.inr ⟨hnone, hres⟩

/-- The value of the entry found is on top of the stack. -/
theorem FoundAt.stack_eq {key : BitVec 64} {us vs : List Nat} {p : Nat}
    (hf : FoundAt fns h b key us p vs) :
    stack fns h b key =
      (h.entry p).value :: (vs.filter (Matches fns h key)).map fun q => (h.entry q).value := by
  have hus : us.filter (Matches fns h key) = [] := by
    rw [List.filter_eq_nil_iff]
    intro q hq
    rw [hf.before q hq]
    exact Bool.false_ne_true
  rw [stack, hf.chain, List.filter_append, hus, List.nil_append,
    List.filter_cons_of_pos hf.isMatch, List.map_cons]

theorem NotFound.stack_eq {key : BitVec 64} (hf : NotFound fns h b key) :
    stack fns h b key = [] := by
  rw [stack, List.map_eq_nil_iff, List.filter_eq_nil_iff]
  intro q hq
  rw [hf q hq]
  exact Bool.false_ne_true

theorem FoundAt.mem {key : BitVec 64} {us vs : List Nat} {p : Nat}
    (hf : FoundAt fns h b key us p vs) : p ∈ b (slotOf fns h key) := by
  rw [hf.chain]
  exact List.mem_append_right us List.mem_cons_self

end Find

/-! ## The place that points to an entry -/

section EntryPtr

variable {h : Hashtable} {b : Nat → List Nat} {ends : Nat → Nat} {n i p : Nat} {us vs : List Nat}

/-- What the place after `us` points to. -/
theorem load_ptrAfter (hc : ChainArray h.next ends h.table.ptr n b) (hi : i < n)
    (hsize : h.table.size = n) (hlive : ∀ q ∈ b i, q ∈ h.live) (heq : b i = us ++ vs) :
    h.load (ptrAfter i us) = .ok (vs.headD (ends i)) := by
  rcases List.eq_nil_or_concat us with rfl | ⟨us', u, rfl⟩
  · have hread : h.load (ptrAfter i []) = .ok (h.table.ptr i) := Slots.read_of_lt (hsize.symm ▸ hi)
    rw [hread, hc.head i hi, heq, List.nil_append]
  · rw [List.concat_eq_append] at heq ⊢
    have hmid : b i = us' ++ u :: vs := by
      rw [heq, List.append_assoc, List.singleton_append]
    have hu : u ∈ h.live := hlive u (hmid ▸ List.mem_append_right us' List.mem_cons_self)
    rw [ptrAfter_concat, ← hc.next_eq hi hmid]
    exact Hashtable.readNext_of_mem hu

/-- The place that points to an entry is made to point to the next one. The link of the entry itself
is left alone. -/
theorem store_unlink (hc : ChainArray h.next ends h.table.ptr n b) (hi : i < n)
    (hsize : h.table.size = n) (hlive : ∀ q ∈ b i, q ∈ h.live) (heq : b i = us ++ p :: vs) :
    ∃ next ptr, h.store (ptrAfter i us) (h.next p) =
        .ok { h with next := next, table := { h.table with ptr := ptr } } ∧ next p = h.next p ∧
      ChainArray next ends ptr n (Function.update b i (us ++ vs)) := by
  rcases List.eq_nil_or_concat us with rfl | ⟨us', u, rfl⟩
  · refine ⟨h.next, _, Hashtable.writeSlot_of_lt (hsize.symm ▸ hi) _, rfl, ?_⟩
    exact hc.pop hi heq
  · rw [List.concat_eq_append] at heq ⊢
    have hfront : u ∈ us' ++ [u] := List.mem_append_right us' (List.mem_singleton_self u)
    have hne : p ≠ u := by
      have hnodup := hc.nodup i hi
      rw [heq] at hnodup
      rintro rfl
      exact List.disjoint_of_nodup_append hnodup hfront List.mem_cons_self
    refine ⟨Function.update h.next u (h.next p), h.table.ptr, ?_, Function.update_of_ne hne _ _, ?_⟩
    · rw [ptrAfter_concat]
      exact Hashtable.writeNext_of_mem (hlive u (heq ▸ List.mem_append_left _ hfront)) _
    · -- the same chain, written with its first node in front
      obtain ⟨w, ws, hw⟩ : ∃ w ws, us' ++ [u] = w :: ws := by
        cases us' with
        | nil => exact ⟨u, [], rfl⟩
        | cons w ws => exact ⟨w, ws ++ [u], rfl⟩
      have hlast : ws.getLastD w = u := by
        have hgl : (us' ++ [u]).getLastD 0 = u := List.getLastD_concat
        rwa [hw, List.getLastD_cons] at hgl
      rw [hw] at heq ⊢
      have hun := hc.unlink hi heq
      rwa [hlast] at hun

end EntryPtr

end PetKernel.HashTable
