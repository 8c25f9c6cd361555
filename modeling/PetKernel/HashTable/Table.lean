import PetKernel.Library.ChainArray
import PetKernel.Library.Machine

/-!
# The hash table of the thread library

`user_threads/pet_hashtable.c` keeps entries in chains, one for each slot of an array whose length
is a prime. The entries are objects on a heap that are linked by `next`, with `0` as the null
pointer. An entry that was freed can not be used again, and neither can a slot beyond the end of an
array: such a step is a `Fault`, so that a call that returns has made none. What `calloc` and
`realloc` return is an argument of the functions, and so is the contents of the memory that
`realloc` adds.

`find` is the loop that the functions for one key share. It keeps the place that points to the
current entry, which is a slot of the array or the field `next` of an entry (`EntryPtr`).

When `calloc` has no memory for a larger array, `hashtable_expand` enlarges the old one with
`realloc` and then passes the contents of the first new slot, which nobody has written, to `memset`
as the address to clear. Whether memory can be written there is an argument as well. If it can, then
`memset` clears memory that has nothing to do with the table, and the new slots stay as they are.
-/

set_option autoImplicit false

namespace PetKernel.HashTable

open PetKernel.Library

/-! ## Hash functions -/

/-- The functions a table is created with. -/
structure KeyFns where
  hashFn : BitVec 64 → BitVec 32
  eqFn : BitVec 64 → BitVec 64 → Bool

/-- `do_hash`. -/
def doHash (fns : KeyFns) (key : BitVec 64) : BitVec 32 :=
  let i := fns.hashFn key
  let i := i + ~~~(i <<< 9)
  let i := i ^^^ ((i >>> 14) ||| (i <<< 18))
  let i := i + (i <<< 4)
  i ^^^ ((i >>> 10) ||| (i <<< 22))

/-- `pet_hash_ptr`. -/
def petHashPtr (val : BitVec 64) : BitVec 32 :=
  let n := val <<< 18
  let hash := val - n
  let n := n <<< 33
  let hash := hash - n
  let n := n <<< 3
  let hash := hash + n
  let n := n <<< 3
  let hash := hash - n
  let n := n <<< 4
  let hash := hash + n
  let n := n <<< 2
  let hash := hash + n
  (hash >>> 32).setWidth 32

/-- `indexFor`. -/
def indexFor (tableLength : Nat) (hashValue : BitVec 32) : Nat := hashValue.toNat % tableLength

def primes : List Nat :=
  [53, 97, 193, 389,
   769, 1543, 3079, 6151,
   12289, 24593, 49157, 98317,
   196613, 393241, 786433, 1572869,
   3145739, 6291469, 12582917, 25165843,
   50331653, 100663319, 201326611, 402653189,
   805306457, 1610612741]

def loadFactors : List Nat :=
  [35, 64, 126, 253,
   500, 1003, 2002, 3999,
   7988, 15986, 31953, 63907,
   127799, 255607, 511182, 1022365,
   2044731, 4089455, 8178897, 16357798,
   32715575, 65431158, 130862298, 261724573,
   523449198, 1046898282]

def primeTableLen : Nat := primes.length

/-! ## Memory -/

/-- How a call goes wrong. -/
inductive Fault where
  /-- An entry is used that is not allocated. -/
  | dangling (p : Nat)
  /-- An array is used beyond its end. -/
  | bounds (i : Nat)
  /-- Memory is written that can not be written, or that is part of the table. -/
  | wild (p : Nat)
  /-- A loop takes more turns than there are entries. -/
  | endless
deriving DecidableEq, Repr

/-- An array of pointers to entries. -/
structure Slots where
  ptr : Nat → Nat
  size : Nat

namespace Slots

def read (t : Slots) (i : Nat) : Except Fault Nat :=
  if i < t.size then .ok (t.ptr i) else .error (.bounds i)

def write (t : Slots) (i p : Nat) : Except Fault Slots :=
  if i < t.size then .ok { t with ptr := Function.update t.ptr i p } else .error (.bounds i)

/-- `calloc` of an array. -/
def calloc (size : Nat) : Slots := ⟨fun _ => 0, size⟩

/-- `realloc` of an array to a larger size, when `rest` stands in the memory that is added. -/
def realloc (t : Slots) (size : Nat) (rest : Nat → Nat) : Slots :=
  ⟨fun i => if i < t.size then t.ptr i else rest i, size⟩

end Slots

/-- `memset(p, 0, n)`, where `writable` are the addresses of memory that can be written and does not
belong to the table. -/
def memset (writable : Nat → Bool) (p n : Nat) : Except Fault Unit :=
  if ∀ k, k < n → writable (p + k) = true then .ok () else .error (.wild p)

/-- `struct hash_entry` without its link. -/
structure HashEntry where
  key : BitVec 64
  value : BitVec 64
  hash : BitVec 32
deriving DecidableEq, Repr

/-- `struct hashtable` with the entries on the heap: `live` are those that are allocated, and
`freed` the keys and values that were passed to `free` so far. -/
structure Hashtable where
  entry : Nat → HashEntry
  next : Nat → Nat
  live : List Nat
  freed : List (BitVec 64)
  table : Slots
  tableLength : Nat
  entryCount : BitVec 32
  loadLimit : Nat
  primeIndex : Nat

/-- A pointer to a pointer to an entry. -/
inductive EntryPtr where
  /-- `&(htable->table[i])`. -/
  | slot (i : Nat)
  /-- `&(p->next)`. -/
  | link (p : Nat)
deriving DecidableEq, Repr

namespace Hashtable

/-- The fields of an entry are read. -/
def read (h : Hashtable) (p : Nat) : Except Fault HashEntry :=
  if p ∈ h.live then .ok (h.entry p) else .error (.dangling p)

def readNext (h : Hashtable) (p : Nat) : Except Fault Nat :=
  if p ∈ h.live then .ok (h.next p) else .error (.dangling p)

def writeNext (h : Hashtable) (p q : Nat) : Except Fault Hashtable :=
  if p ∈ h.live then .ok { h with next := Function.update h.next p q } else .error (.dangling p)

def writeValue (h : Hashtable) (p : Nat) (value : BitVec 64) : Except Fault Hashtable :=
  if p ∈ h.live then
    .ok { h with entry := Function.update h.entry p { h.entry p with value := value } }
  else .error (.dangling p)

def writeSlot (h : Hashtable) (i p : Nat) : Except Fault Hashtable := do
  return { h with table := ← h.table.write i p }

/-- `*entry_ptr`. -/
def load (h : Hashtable) : EntryPtr → Except Fault Nat
  | .slot i => h.table.read i
  | .link p => h.readNext p

/-- `*entry_ptr = q`. -/
def store (h : Hashtable) (entryPtr : EntryPtr) (q : Nat) : Except Fault Hashtable :=
  match entryPtr with
  | .slot i => h.writeSlot i q
  | .link p => h.writeNext p q

/-- `p->next = table[i]` and `table[i] = p`. -/
def linkFront (h : Hashtable) (i p : Nat) : Except Fault Hashtable := do
  let h ← h.writeNext p (← h.table.read i)
  h.writeSlot i p

/-- `calloc` of an entry, when it returns `p`. -/
def calloc (h : Hashtable) (p : Nat) : Hashtable :=
  { h with
    entry := Function.update h.entry p ⟨0, 0, 0⟩
    next := Function.update h.next p 0
    live := p :: h.live }

def freeEntry (h : Hashtable) (p : Nat) : Except Fault Hashtable :=
  if p ∈ h.live then .ok { h with live := h.live.erase p } else .error (.dangling p)

/-- `free` of a key or of a value, if the flag is set. -/
def freeIf (h : Hashtable) (flag : Bool) (p : BitVec 64) : Hashtable :=
  if flag then { h with freed := h.freed ++ [p] } else h

end Hashtable

/-! ## Creation and growth -/

/-- The loop of `pet_create_htable` over the primes: `prime_index` and `size`. -/
def findPrime (minSize : Nat) : List Nat → Nat → Nat × Nat
  | [], primeIndex => (primeIndex, 53)
  | prime :: rest, primeIndex =>
      if minSize < prime then (primeIndex, prime) else findPrime minSize rest (primeIndex + 1)

/-- `load_factors[i]`. -/
def loadFactor (i : Nat) : Except Fault Nat :=
  match loadFactors[i]? with
  | some limit => .ok limit
  | none => .error (.bounds i)

/-- `pet_create_htable`; the flags say whether the two calls of `calloc` succeed. -/
def petCreateHtable (minSize : Nat) (htable table : Bool) : Except Fault (Option Hashtable) :=
  if 2 ^ 30 < minSize then .ok none
  else if htable = false ∨ table = false then .ok none
  else do
    let (primeIndex, size) := findPrime minSize primes 0
    return some {
      entry := fun _ => ⟨0, 0, 0⟩
      next := fun _ => 0
      live := []
      freed := []
      table := Slots.calloc size
      tableLength := size
      entryCount := 0
      loadLimit := ← loadFactor primeIndex
      primeIndex := primeIndex }

/-- The inner loop of `hashtable_expand`: the chain of the slot `i` is moved to the new array. -/
def drain (newSize i : Nat) : Nat → Hashtable → Slots → Except Fault (Hashtable × Slots)
  | 0, _, _ => .error .endless
  | n + 1, h, newTable => do
      let tmpEntry ← h.table.read i
      if tmpEntry = 0 then return (h, newTable)
      else do
        let h ← h.writeSlot i (← h.readNext tmpEntry)
        let index := indexFor newSize (← h.read tmpEntry).hash
        let h ← h.writeNext tmpEntry (← newTable.read index)
        drain newSize i n h (← newTable.write index tmpEntry)

/-- The outer loop of `hashtable_expand`, for the `n` slots from the `i`-th on. -/
def transfer (newSize : Nat) : Nat → Nat → Hashtable → Slots → Except Fault (Hashtable × Slots)
  | 0, _, h, newTable => .ok (h, newTable)
  | n + 1, i, h, newTable => do
      let (h, newTable) ← drain newSize i (h.live.length + 1) h newTable
      transfer newSize n (i + 1) h newTable

/-- The inner loop of `hashtable_expand` after `realloc`: the entries of the slot `i` that belong to
another slot are moved there. -/
def rehashChain (newSize i : Nat) : Nat → Hashtable → EntryPtr → Except Fault Hashtable
  | 0, _, _ => .error .endless
  | n + 1, h, entryPtr => do
      let tmpEntry ← h.load entryPtr
      if tmpEntry = 0 then return h
      else do
        let index := indexFor newSize (← h.read tmpEntry).hash
        if i = index then rehashChain newSize i n h (.link tmpEntry)
        else do
          let h ← h.store entryPtr (← h.readNext tmpEntry)
          let h ← h.linkFront index tmpEntry
          rehashChain newSize i n h entryPtr

/-- The outer loop of `hashtable_expand` after `realloc`, for the `n` slots from the `i`-th on. -/
def rehash (newSize : Nat) : Nat → Nat → Hashtable → Except Fault Hashtable
  | 0, _, h => .ok h
  | n + 1, i, h => do
      let h ← rehashChain newSize i (h.live.length + 1) h (.slot i)
      rehash newSize n (i + 1) h

/-- What `hashtable_expand` finds when `realloc` has made the array larger: what stands in the
slots, and the memory outside of the table that can be written. -/
structure Added where
  rest : Nat → Nat
  writable : Nat → Bool

/-- What the allocations of a call of `pet_htable_insert` return: whether `calloc` has memory for a
larger array, the memory that `realloc` adds, if it does, and the new entry. -/
structure Allocs where
  newTable : Bool
  realloc : Option Added
  newEntry : Nat

/-- `hashtable_expand`. -/
def hashtableExpand (a : Allocs) (h : Hashtable) : Except Fault (Int × Hashtable) :=
  if h.primeIndex = primeTableLen - 1 then .ok (0, h)
  else do
    let primeIndex := h.primeIndex + 1
    let newSize := primes.getD primeIndex 0
    if a.newTable then do
      let (h, newTable) ← transfer newSize h.tableLength 0 h (Slots.calloc newSize)
      return (-1, { h with
        table := newTable
        tableLength := newSize
        loadLimit := ← loadFactor primeIndex
        primeIndex := primeIndex })
    else match a.realloc with
      | none => return (0, h)
      | some added => do
          let h := { h with table := h.table.realloc newSize added.rest }
          memset added.writable (← h.table.read h.tableLength) (newSize - h.tableLength)
          let h ← rehash newSize h.tableLength 0 h
          return (-1, { h with
            tableLength := newSize
            loadLimit := ← loadFactor primeIndex
            primeIndex := primeIndex })

/-! ## The functions for one key -/

/-- The table is made larger if it has too many entries; what `hashtable_expand` returns is
ignored. -/
def growIfFull (a : Allocs) (h : Hashtable) : Except Fault Hashtable :=
  if h.loadLimit < h.entryCount.toNat then Prod.snd <$> hashtableExpand a h else .ok h

/-- `pet_htable_insert`. -/
def petHtableInsert (fns : KeyFns) (a : Allocs) (h : Hashtable) (key value : BitVec 64) :
    Except Fault (Int × Hashtable) := do
  let h ← growIfFull a { h with entryCount := h.entryCount + 1 }
  if a.newEntry = 0 then return (0, { h with entryCount := h.entryCount - 1 })
  else do
    let h := h.calloc a.newEntry
    let hashValue := doHash fns key
    let index := indexFor h.tableLength hashValue
    let h := { h with entry := Function.update h.entry a.newEntry ⟨key, value, hashValue⟩ }
    return (-1, ← h.linkFront index a.newEntry)

/-- The loop over a chain that looks for a key, from the entry `cursor` that `entryPtr` points to.
The entry found is the null pointer at the end of the chain. -/
def find (fns : KeyFns) (h : Hashtable) (key : BitVec 64) (hashValue : BitVec 32) :
    Nat → EntryPtr → Nat → Except Fault (EntryPtr × Nat)
  | 0, _, _ => .error .endless
  | n + 1, entryPtr, cursor =>
      if cursor = 0 then .ok (entryPtr, 0)
      else do
        let e ← h.read cursor
        -- Check hash value to short circuit heavier comparison
        if hashValue = e.hash ∧ fns.eqFn key e.key then return (entryPtr, cursor)
        else find fns h key hashValue n (.link cursor) (← h.readNext cursor)

/-- The entry for a key and the place that points to it. -/
def findKey (fns : KeyFns) (h : Hashtable) (key : BitVec 64) : Except Fault (EntryPtr × Nat) := do
  let hashValue := doHash fns key
  let index := indexFor h.tableLength hashValue
  find fns h key hashValue (h.live.length + 1) (.slot index) (← h.table.read index)

/-- `pet_htable_change`. -/
def petHtableChange (fns : KeyFns) (h : Hashtable) (key value : BitVec 64) (freeValue : Bool) :
    Except Fault (Int × Hashtable) := do
  let (_, tmpEntry) ← findKey fns h key
  if tmpEntry = 0 then return (0, h)
  else do
    let h := h.freeIf freeValue (← h.read tmpEntry).value
    return (-1, ← h.writeValue tmpEntry value)

/-- The value of a key is changed by `f`. -/
def updateValue (fns : KeyFns) (h : Hashtable) (key : BitVec 64) (f : BitVec 64 → BitVec 64) :
    Except Fault (Int × Hashtable) := do
  let (_, tmpEntry) ← findKey fns h key
  if tmpEntry = 0 then return (0, h)
  else return (-1, ← h.writeValue tmpEntry (f (← h.read tmpEntry).value))

/-- `pet_htable_inc`. -/
def petHtableInc (fns : KeyFns) (h : Hashtable) (key value : BitVec 64) :
    Except Fault (Int × Hashtable) :=
  updateValue fns h key (· + value)

/-- `pet_htable_dec`. -/
def petHtableDec (fns : KeyFns) (h : Hashtable) (key value : BitVec 64) :
    Except Fault (Int × Hashtable) :=
  updateValue fns h key (· - value)

/-- `pet_htable_search`. -/
def petHtableSearch (fns : KeyFns) (h : Hashtable) (key : BitVec 64) :
    Except Fault (BitVec 64) := do
  let (_, cursor) ← findKey fns h key
  if cursor = 0 then return 0 else return (← h.read cursor).value

/-- `pet_htable_remove`. -/
def petHtableRemove (fns : KeyFns) (h : Hashtable) (key : BitVec 64) (freeKey : Bool) :
    Except Fault (BitVec 64 × Hashtable) := do
  let (entryPtr, cursor) ← findKey fns h key
  if cursor = 0 then return (0, h)
  else do
    let h ← h.store entryPtr (← h.readNext cursor)
    let h := { h with entryCount := h.entryCount - 1 }
    let e ← h.read cursor
    let h := h.freeIf freeKey e.key
    return (e.value, ← h.freeEntry cursor)

/-- `pet_htable_count`. -/
def petHtableCount (h : Hashtable) : BitVec 32 := h.entryCount

/-! ## The end of a table -/

/-- The loop of `pet_free_htable` over a chain. -/
def freeChain (freeValues freeKeys : Bool) : Nat → Hashtable → Nat → Except Fault Hashtable
  | 0, _, _ => .error .endless
  | n + 1, h, cursor =>
      if cursor = 0 then .ok h
      else do
        let tmp := cursor
        let cursor ← h.readNext tmp
        let e ← h.read tmp
        let h := h.freeIf freeKeys e.key
        let h := h.freeIf freeValues e.value
        freeChain freeValues freeKeys n (← h.freeEntry tmp) cursor

/-- The loop of `pet_free_htable` over the `n` slots from the `i`-th on. -/
def freeSlots (freeValues freeKeys : Bool) : Nat → Nat → Hashtable → Except Fault Hashtable
  | 0, _, h => .ok h
  | n + 1, i, h => do
      let h ← freeChain freeValues freeKeys (h.live.length + 1) h (← h.table.read i)
      freeSlots freeValues freeKeys n (i + 1) h

/-- `pet_free_htable`: what is left on the heap when the array has been freed as well. -/
def petFreeHtable (h : Hashtable) (freeValues freeKeys : Bool) : Except Fault Hashtable := do
  let h ← freeSlots freeValues freeKeys h.tableLength 0 h
  return { h with table := ⟨h.table.ptr, 0⟩ }

end PetKernel.HashTable
