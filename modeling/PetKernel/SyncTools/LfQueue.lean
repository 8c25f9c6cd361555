import PetKernel.Library.Threads

/-!
# The lock-free queue

A model of `lf_queue_init`, `lf_enqueue` and `lf_dequeue` of `sync_tools/locking.c`. Every load,
store and compare-and-swap is a step of its own, and so are `malloc` and `free`. `malloc` returns
any address that is not in use, and `free` leaves the contents of the node as they are.

The state has three logs that the code does not have. `nodes` has the nodes in the order in which
they were linked, with the values that were enqueued; it starts with the two nodes of
`lf_queue_init`. `takes` has one entry for each successful compare-and-swap of `head`, with the
value that the call returned, once it has returned. `done` has the entry of `nodes` of each call of
`lf_enqueue` that has returned.
-/

set_option autoImplicit false

namespace PetKernel.SyncTools

open PetKernel.Library

/-! ## The code -/

/-- `compare_and_swap_ptr` on a word that holds `old`: the value returned, and what the word then
holds. -/
def compareAndSwapPtr (old expected new : Nat) : Nat × Nat :=
  (old, if old = expected then new else old)

/-- The queue, the fields of the nodes, what `malloc` and `free` know, and the logs. -/
structure LfQueue where
  head : Nat
  tail : Nat
  value : Nat → BitVec 32
  next : Nat → Nat
  live : List Nat
  freed : List Nat
  nodes : List (Nat × BitVec 32)
  takes : List (Option (BitVec 32))
  done : List (Option Nat)

/-- `lf_queue_init`, when `malloc` returns `h` and `t` and the memory has the given contents. -/
def lfQueueInit (h t : Nat) (value : Nat → BitVec 32) (next : Nat → Nat) : LfQueue where
  head := h
  tail := t
  value := value
  next := Function.update (Function.update next h t) t 0
  live := [h, t]
  freed := []
  nodes := [(h, value h), (t, value t)]
  takes := []
  done := []

/-- What a call returned: nothing (`lf_enqueue`), 0, or 1 with a value in `*val`. -/
inductive LfReturn where
  | enqueued
  | empty
  | value (v : BitVec 32)
deriving DecidableEq, Repr

/-- The steps of `lf_enqueue`: `malloc`, the stores of `value` and `next`, the load of `tail`, the
compare-and-swap of `p->next`, the test of `succ`, the load of `p->next` and the compare-and-swap of
`tail` when it has failed, and the last compare-and-swap of `tail`. -/
inductive EnqPc where
  | malloc
  | value (q : Nat)
  | next (q : Nat)
  | loadTail (q : Nat)
  | link (q p : Nat)
  | check (q p : Nat)
  | helpLoad (q p : Nat)
  | helpSwing (q p r : Nat)
  | swing (q p : Nat)
deriving DecidableEq, Repr

/-- The steps of `lf_dequeue`: the load of `head`, the test of `p->next`, its load for the
compare-and-swap of `head`, the compare-and-swap, the two loads of `p->next->value`, and `free`.
After the compare-and-swap `succ` is set when there is an entry of `takes` that belongs to it. -/
inductive DeqPc where
  | loadHead
  | testNext (p : Nat)
  | loadNext (p : Nat)
  | swap (p n : Nat)
  | loadNode (p : Nat) (succ : Option Nat)
  | loadValue (p m : Nat) (succ : Option Nat)
  | free (p : Nat) (val : BitVec 32) (take : Nat)
deriving DecidableEq, Repr

/-- A thread: outside, with what its last call returned, in a call of `lf_enqueue`, with the entry
of `nodes` that it has made, or in a call of `lf_dequeue`. -/
inductive LfThread where
  | idle (last : Option LfReturn)
  | enq (val : BitVec 32) (entry : Option Nat) (pc : EnqPc)
  | deq (pc : DeqPc)
deriving DecidableEq, Repr

/-- A choice that the code leaves open: the next call, or the address that a step gets from `malloc`
when it calls it. -/
inductive LfChoice where
  | enqueue (val : BitVec 32)
  | dequeue
  | step (addr : Nat)
deriving DecidableEq, Repr

/-- One step of `lf_enqueue`. -/
def lfEnqueue (s : LfQueue) (val : BitVec 32) (entry : Option Nat) (pc : EnqPc) (addr : Nat) :
    Option (LfQueue × LfThread) :=
  match pc with
  | .malloc =>
      if addr = 0 ∨ addr ∈ s.live then none
      else some ({ s with live := addr :: s.live, freed := s.freed.filter (· ≠ addr) },
        .enq val entry (.value addr))
  | .value q => some ({ s with value := Function.update s.value q val }, .enq val entry (.next q))
  | .next q => some ({ s with next := Function.update s.next q 0 }, .enq val entry (.loadTail q))
  | .loadTail q => some (s, .enq val entry (.link q s.tail))
  | .link q p =>
      let (old, new) := compareAndSwapPtr (s.next p) 0 q
      some ({ s with
          next := Function.update s.next p new
          nodes := if old = 0 then s.nodes ++ [(q, val)] else s.nodes },
        .enq val (if old = 0 then some s.nodes.length else entry) (.check q p))
  | .check q p =>
      some (s, .enq val entry (if q = s.next p then .swing q p else .helpLoad q p))
  | .helpLoad q p => some (s, .enq val entry (.helpSwing q p (s.next p)))
  | .helpSwing q p r =>
      some ({ s with tail := (compareAndSwapPtr s.tail p r).2 }, .enq val entry (.loadTail q))
  | .swing q p =>
      some ({ s with tail := (compareAndSwapPtr s.tail p q).2, done := s.done ++ [entry] },
        .idle (some .enqueued))

/-- One step of `lf_dequeue`. -/
def lfDequeue (s : LfQueue) (pc : DeqPc) : LfQueue × LfThread :=
  match pc with
  | .loadHead => (s, .deq (.testNext s.head))
  | .testNext p =>
      (s, if s.next p = 0 then .idle (some .empty) else .deq (.loadNext p))
  | .loadNext p => (s, .deq (.swap p (s.next p)))
  | .swap p n =>
      let (old, new) := compareAndSwapPtr s.head p n
      ({ s with head := new, takes := if old = p then s.takes ++ [none] else s.takes },
        .deq (.loadNode p (if old = p then some s.takes.length else none)))
  | .loadNode p succ => (s, .deq (.loadValue p (s.next p) succ))
  | .loadValue p m succ =>
      match succ with
      | some take => (s, .deq (.free p (s.value m) take))
      | none => (s, .deq .loadHead)
  | .free p val take =>
      ({ s with
          live := s.live.filter (· ≠ p)
          freed := p :: s.freed
          takes := s.takes.set take (some val) },
        .idle (some (.value val)))

/-- One step of a thread that calls `lf_enqueue` and `lf_dequeue` as it likes. -/
def lfNext (s : LfQueue) (t : LfThread) (a : LfChoice) : Option (LfQueue × LfThread) :=
  match t, a with
  | .idle _, .enqueue val => some (s, .enq val none .malloc)
  | .idle _, .dequeue => some (s, .deq .loadHead)
  | .enq val entry pc, .step addr => lfEnqueue s val entry pc addr
  | .deq pc, .step _ => some (lfDequeue s pc)
  | _, _ => none

/-- The threads `ι` that use one queue. -/
def lfQueues (ι : Type) [DecidableEq ι] (q₀ : LfQueue) :
    Machine (Threads ι LfQueue LfThread) (ι × LfChoice) :=
  interleave (fun s => s = ⟨q₀, fun _ => .idle none⟩) lfNext

/-- What a step of a thread is: the beginning of a call, or a step of the call that it is in. -/
theorem lfNext_cases {q : LfQueue} {t : LfThread} {a : LfChoice} {r : LfQueue × LfThread}
    (h : lfNext q t a = some r) :
    (∃ last val, t = .idle last ∧ a = .enqueue val ∧ r = (q, .enq val none .malloc)) ∨
      (∃ last, t = .idle last ∧ a = .dequeue ∧ r = (q, .deq .loadHead)) ∨
      (∃ val entry pc addr, t = .enq val entry pc ∧ a = .step addr ∧
        lfEnqueue q val entry pc addr = some r) ∨
      ∃ pc addr, t = .deq pc ∧ a = .step addr ∧ r = lfDequeue q pc := by
  cases t with
  | idle last =>
      cases a with
      | enqueue val => exact Or.inl ⟨last, val, rfl, rfl, (Option.some.inj h).symm⟩
      | dequeue => exact Or.inr (Or.inl ⟨last, rfl, rfl, (Option.some.inj h).symm⟩)
      | step addr => cases h
  | enq val entry pc =>
      cases a with
      | step addr => exact Or.inr (Or.inr (Or.inl ⟨val, entry, pc, addr, rfl, rfl, h⟩))
      | _ => cases h
  | deq pc =>
      cases a with
      | step addr =>
          exact Or.inr (Or.inr (Or.inr ⟨pc, addr, rfl, rfl, (Option.some.inj h).symm⟩))
      | _ => cases h

end PetKernel.SyncTools
