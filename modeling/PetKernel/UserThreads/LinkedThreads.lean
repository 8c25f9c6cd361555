import PetKernel.UserThreads.PetList
import PetKernel.UserThreads.Reclaim

/-!
# The thread library on its intrusive lists

In `PetThread` the lists of the scheduler are lists of descriptors. In `user_threads/pet_thread.c`
they are rings of `struct list_head`s: `ready_list` and `blocked_list`, in which the member `list`
of a descriptor is an entry of at most one of the two, and for every descriptor its
`waiting_for_me_list`, whose entries are in objects `struct waiting_thread` of `malloc`. Here the
functions of the source are modelled on a heap of such links, with the calls of `pet_list.h` that
the source makes. A link that is followed to memory that is not allocated, or to a poison value, is
a fault, as are a failed assertion and an object that is passed to `free` twice.

`free` of a descriptor takes the two `struct list_head`s in it away. Its other fields can be read
on, as `get_thread` does through `stopped`; and `malloc` returns memory that was not used before.

`Refines` relates a state of this model with a state of `PetThread`. A call of the repository's
programs keeps it, unless it is a join that names a freed thread (`JoinsFreed`): the call on links
ends without a fault and returns what the call on lists returns (`petCall_refines`). A join that
names a freed thread faults at the links of the descriptor (`petCall_joinsFreed`). So the library
that works on links is the library that works on lists up to the first such join
(`linked_library_refines`), and the objects `struct waiting_thread` are freed once and not before
the thread is woken (`waiting_threads_freed_once`).
-/

set_option autoImplicit false

namespace PetKernel.UserThreads.Linked

open PetKernel.Library

/-! ## The state -/

/-- The addresses of the `struct list_head`s of the library, and the other values of a link. -/
inductive Addr where
  | readyList
  | blockedList
  /-- `&thread->list`. -/
  | list (thread : ThreadPtr)
  /-- `&thread->waiting_for_me_list`. -/
  | waitingForMeList (thread : ThreadPtr)
  /-- The member `list` of the `w`-th `struct waiting_thread`. -/
  | waiter (w : Nat)
  | null
  | poison1
  | poison2
deriving DecidableEq, Repr

instance : ListPoison Addr := ⟨.poison1, .poison2⟩

/-- What ends the program. -/
inductive LinkedFault where
  | fault (f : Fault)
  | list (f : ListFault Addr)
  /-- The assertion of `pet_thread_create`. -/
  | createdListInitialised
  /-- An entry of a `waiting_for_me_list` is not in a `struct waiting_thread`. -/
  | badEntry (a : Addr)
  | doubleFree (a : Addr)
deriving DecidableEq, Repr

/-- The fields of `struct pet_thread` other than its links. -/
structure LinkedThread where
  id : PetThreadId
  state : ThreadRunState
  returnReciever : VoidPtr
deriving DecidableEq, Repr

/-- The state of the library. The objects `struct waiting_thread` are counted; `waiter w` is the
member `thread` of the `w`-th one, and `freedWaiters` are those that were passed to `free`. -/
structure LinkedSched where
  threadIdCount : Nat
  thread : ThreadPtr → LinkedThread
  heap : ListHeap Addr
  waiterCount : Nat
  waiter : Nat → ThreadPtr
  running : ThreadPtr
  stopped : Option ThreadPtr
  suspended : ThreadPtr → Option Frame
  freed : List ThreadPtr
  freedWaiters : List Nat

/-- The library after `pet_thread_init`. The links of the master thread are null. -/
def petThreadInit : LinkedSched where
  threadIdCount := 1
  thread p := ⟨petMasterThreadId, if p = masterDummyThread then .running else .stopped, 0⟩
  heap :=
    { live := [.readyList, .blockedList, .list masterDummyThread,
      .waitingForMeList masterDummyThread]
      next := fun a => if a = .readyList ∨ a = .blockedList then a else .null
      prev := fun a => if a = .readyList ∨ a = .blockedList then a else .null }
  waiterCount := 0
  waiter _ := masterDummyThread
  running := masterDummyThread
  stopped := none
  suspended _ := none
  freed := []
  freedWaiters := []

def assert (c : Prop) [Decidable c] (a : Assertion) : Except LinkedFault Unit :=
  if c then .ok () else .error (.fault (.assertion a))

/-- What a function of `pet_list.h` returns. -/
def ofList {β : Type} : Except (ListFault Addr) β → Except LinkedFault β
  | .ok b => .ok b
  | .error f => .error (.list f)

/-- `list_entry(a, struct pet_thread, list)`. -/
def Addr.threadOf : Addr → ThreadPtr
  | .list p => p
  | _ => masterDummyThread

namespace LinkedSched

def setState (t : LinkedSched) (p : ThreadPtr) (st : ThreadRunState) : LinkedSched :=
  { t with thread := Function.update t.thread p { t.thread p with state := st } }

def setReturnReciever (t : LinkedSched) (p : ThreadPtr) (v : VoidPtr) : LinkedSched :=
  { t with thread := Function.update t.thread p { t.thread p with returnReciever := v } }

/-- A function of `pet_list.h` is called. -/
def onHeap (t : LinkedSched) (f : ListHeap Addr → Except (ListFault Addr) (ListHeap Addr)) :
    Except LinkedFault LinkedSched := do
  let heap ← ofList (f t.heap)
  return { t with heap := heap }

def listDel (t : LinkedSched) (entry : Addr) : Except LinkedFault LinkedSched :=
  t.onHeap fun h => h.listDel entry

def listAddTail (t : LinkedSched) (new head : Addr) : Except LinkedFault LinkedSched :=
  t.onHeap fun h => h.listAddTail new head

/-- `malloc` of a `struct pet_thread`, and the fields that `pet_thread_create` sets. -/
def mallocThread (t : LinkedSched) : LinkedSched :=
  { t with
    threadIdCount := t.threadIdCount + 1
    thread := Function.update t.thread t.threadIdCount ⟨threadIdOfCount t.threadIdCount, .ready, 0⟩
    suspended := Function.update t.suspended t.threadIdCount none
    heap := { t.heap with
      live := .list t.threadIdCount :: .waitingForMeList t.threadIdCount :: t.heap.live } }

/-- `malloc` of a `struct waiting_thread`, and `w_t->thread = thread`. -/
def mallocWaiter (t : LinkedSched) (thread : ThreadPtr) : LinkedSched :=
  { t with
    heap := { t.heap with live := .waiter t.waiterCount :: t.heap.live }
    waiterCount := t.waiterCount + 1
    waiter := Function.update t.waiter t.waiterCount thread }

/-- `free` of a `struct waiting_thread`. -/
def freeWaiter (t : LinkedSched) (w : Nat) : Except LinkedFault LinkedSched :=
  if .waiter w ∈ t.heap.live then
    .ok { t with
      heap := { t.heap with live := t.heap.live.erase (.waiter w) }
      freedWaiters := t.freedWaiters ++ [w] }
  else .error (.doubleFree (.waiter w))

/-- `free` of a `struct pet_thread`. -/
def freeThread (t : LinkedSched) (p : ThreadPtr) : Except LinkedFault LinkedSched :=
  if .list p ∈ t.heap.live then
    .ok { t with
      heap := { t.heap with
        live := t.heap.live.filter fun a => a ≠ .list p ∧ a ≠ .waitingForMeList p }
      freed := t.freed ++ [p] }
  else .error (.doubleFree (.list p))

def readNext (t : LinkedSched) (a : Addr) : Except LinkedFault Addr := ofList (t.heap.readNext a)

def suspend (t : LinkedSched) (p : ThreadPtr) (fr : Frame) : LinkedSched :=
  { t with suspended := Function.update t.suspended p (some fr) }

end LinkedSched

/-! ## The functions of the source -/

/-- The loop of `get_thread` over one of the two lists. -/
def findThread (t : LinkedSched) (head : Addr) (id : PetThreadId) :
    Except LinkedFault (Option ThreadPtr) := do
  let found ← ofList (t.heap.listFindEntry head fun pos => (t.thread pos.threadOf).id = id)
  return found.map Addr.threadOf

/-- `get_thread`. -/
def getThread (t : LinkedSched) (id : PetThreadId) : Except LinkedFault (Option ThreadPtr) :=
  if id = petMasterThreadId then .ok (some masterDummyThread)
  else if (t.thread t.running).id = id then .ok (some t.running)
  else if t.stopped.any fun p => (t.thread p).id = id then .ok t.stopped
  else do
    match ← findThread t .readyList id with
    | some p => return some p
    | none => findThread t .blockedList id

/-- `pet_thread_cleanup`. -/
def petThreadCleanup (t : LinkedSched) (prevId : PetThreadId) : Except LinkedFault LinkedSched := do
  match ← getThread t prevId with
  | none => .error (.fault .nullThread)
  | some prevThread =>
      if (t.thread prevThread).state = .stopped then t.freeThread prevThread else return t

def returnFrom (t : LinkedSched) (fr : Frame) : Return where
  thread := t.running
  call := fr.call
  ret := fr.ret
  out :=
    match fr.call with
    | .join _ => some (t.thread t.running).returnReciever
    | _ => none

def resume (t : LinkedSched) : LinkedSched × Option Return :=
  match t.suspended t.running with
  | none => (t, none)
  | some fr =>
      ({ t with suspended := Function.update t.suspended t.running none }, some (returnFrom t fr))

/-- `__switch_to_stack`. -/
def switchToStack (t : LinkedSched) (oldThread : ThreadPtr) (fr : Frame) :
    Except LinkedFault (LinkedSched × Option Return) := do
  let t₁ ← petThreadCleanup (t.suspend oldThread fr) (t.thread oldThread).id
  return resume t₁

/-- The `switch` of `__thread_invoker`. -/
def enqueueOld (t : LinkedSched) (oldThread : ThreadPtr) : Except LinkedFault LinkedSched :=
  match (t.thread oldThread).state with
  | .running => do
      let t₁ ← if oldThread ≠ masterDummyThread then t.listAddTail (.list oldThread) .readyList
        else .ok t
      return t₁.setState oldThread .ready
  | .blocked => t.listAddTail (.list oldThread) .blockedList
  | .stopped => .ok { t with stopped := some oldThread }
  | .ready => .ok t

def unlinkTarget (t : LinkedSched) (thread : ThreadPtr) : Except LinkedFault LinkedSched :=
  if thread ≠ masterDummyThread then t.listDel (.list thread) else .ok t

/-- `__thread_invoker`. -/
def threadInvoker (t : LinkedSched) (thread : ThreadPtr) (fr : Frame) :
    Except LinkedFault (LinkedSched × Option Return) := do
  assert ((t.thread thread).state = .ready) .invokerTargetReady
  assert ((t.thread t.running).state ≠ .ready) .invokerRunningNotReady
  let oldThread := t.running
  let t₁ ← unlinkTarget { t with running := thread } thread
  let t₂ ← enqueueOld t₁ oldThread
  switchToStack (t₂.setState thread .running) oldThread fr

/-- `pet_thread_schedule`. The loop over the ready list is left in its first turn. -/
def petThreadSchedule (t : LinkedSched) (call : Call) :
    Except LinkedFault (LinkedSched × Option Return) := do
  let empty ← ofList (t.heap.listEmpty .readyList)
  if empty ∧ t.running ≠ masterDummyThread then
    threadInvoker t masterDummyThread ⟨call, if call = .schedule then 9 else 0⟩
  else do
    match ← ofList (t.heap.listFindEntry .readyList fun _ => true) with
    | none => return (t, some (returnFrom t ⟨call, 0⟩))
    | some pos => do
        assert ((t.thread pos.threadOf).state = .ready) .scheduleReady
        threadInvoker t pos.threadOf ⟨call, 0⟩

/-- `pet_thread_create`. -/
def petThreadCreate (t : LinkedSched) : Except LinkedFault (LinkedSched × Return) := do
  let newThread := t.threadIdCount
  let t₁ ← t.mallocThread.onHeap fun h => h.listHeadInit (.waitingForMeList newThread)
  let next ← ofList (t₁.heap.readNext (.waitingForMeList newThread))
  let prev ← ofList (t₁.heap.readPrev (.waitingForMeList newThread))
  if next = prev ∧ next = .waitingForMeList newThread then do
    let t₂ ← t₁.listAddTail (.list newThread) .readyList
    return (t₂, ⟨t.running, .create, 0, some (threadIdOfCount newThread)⟩)
  else .error .createdListInitialised

/-- `__yield_to`. -/
def yieldTo (t : LinkedSched) (tgtThread : Option ThreadPtr) (call : Call) :
    Except LinkedFault (LinkedSched × Option Return) :=
  match tgtThread with
  | none => petThreadSchedule t call
  | some tgt =>
      if (t.thread tgt).state ≠ .ready then petThreadSchedule t call
      else threadInvoker t tgt ⟨call, 0⟩

/-- `pet_thread_yield_to`. -/
def petThreadYieldTo (t : LinkedSched) (id : PetThreadId) :
    Except LinkedFault (LinkedSched × Option Return) := do
  let tgtThread ← getThread t id
  yieldTo t tgtThread (.yieldTo id)

/-- `pet_thread_run`. -/
def petThreadRun (t : LinkedSched) : Except LinkedFault (LinkedSched × Option Return) :=
  petThreadSchedule t .run

/-- `pet_thread_join`. -/
def petThreadJoin (t : LinkedSched) (id : PetThreadId) :
    Except LinkedFault (LinkedSched × Option Return) := do
  match ← getThread t id with
  | none => return (t, some ⟨t.running, .join id, -1, none⟩)
  | some thread => do
      assert ((t.thread t.running).state = .running) .joinRunning
      let t₁ := (t.setState t.running .blocked).mallocWaiter t.running
      let t₂ ← t₁.listAddTail (.waiter t.waiterCount) (.waitingForMeList thread)
      petThreadSchedule t₂ (.join id)

/-- The body of the loop of `__quarantine`. -/
def wakeWaiter (retVal : VoidPtr) (pos : Addr) (t : LinkedSched) : Except LinkedFault LinkedSched :=
  match pos with
  | .waiter w => do
      assert ((t.thread (t.waiter w)).state = .blocked) .quarantineWaiterBlocked
      let t₁ := (t.setReturnReciever (t.waiter w) retVal).setState (t.waiter w) .ready
      let t₂ ← t₁.listDel (.list (t.waiter w))
      let t₃ ← t₂.listAddTail (.list (t.waiter w)) .readyList
      let t₄ ← t₃.listDel pos
      t₄.freeWaiter w
  | _ => .error (.badEntry pos)

/-- The loop of `__quarantine`, which is safe against the removal of `pos`. -/
def wakeWaiters (retVal : VoidPtr) (t : LinkedSched) : Except LinkedFault LinkedSched := do
  let head := Addr.waitingForMeList t.running
  let pos ← t.readNext head
  let n ← t.readNext pos
  forEachSafeLoop (.list .endless) LinkedSched.readNext
    (wakeWaiter retVal) head t.heap.live.length t pos n

/-- The first half of `__quarantine`. -/
def checkWaiters (retVal : VoidPtr) (t : LinkedSched) : Except LinkedFault LinkedSched := do
  if ← ofList (t.heap.listEmpty (.waitingForMeList t.running)) then return t
  else do
    let t₁ ← wakeWaiters retVal t
    let empty ← ofList (t₁.heap.listEmpty (.waitingForMeList t₁.running))
    assert empty .quarantineListEmpty
    return t₁

/-- `__quarantine`. -/
def quarantine (t : LinkedSched) (retVal : VoidPtr) (call : Call) :
    Except LinkedFault (LinkedSched × Option Return) := do
  let t₁ ← checkWaiters retVal t
  assert ((t₁.thread t₁.running).state = .running) .quarantineRunning
  assert (t₁.running ≠ masterDummyThread) .quarantineNotMaster
  petThreadSchedule (t₁.setState t₁.running .stopped) call

/-- The running thread makes `call`. -/
def petCall (t : LinkedSched) : Call → Except LinkedFault (LinkedSched × Option Return)
  | .create => do
      let r ← petThreadCreate t
      return (r.1, some r.2)
  | .schedule => petThreadSchedule t .schedule
  | .yieldTo id => petThreadYieldTo t id
  | .run => petThreadRun t
  | .join id => petThreadJoin t id
  | .exit .petThreadExit v => quarantine t v (.exit .petThreadExit v)
  | .exit .captureReturn v => quarantine t v (.exit .captureReturn v)

/-- The library as a machine. -/
def linkedThreads : Machine LinkedSched Event where
  init t := t = petThreadInit
  step t e u := e.caller = t.running ∧ petCall t e.call = .ok (u, e.returned)

/-! ## Refinement -/

/-- A thread that was created and not freed. -/
def Present (s : Sched) (p : ThreadPtr) : Prop := Created s p ∧ p ∉ s.freed

/-- The lists that the heap is to hold: the threads that are ready and blocked, and for each of the
created threads, apart from those that are `gone`, the objects `ws p` that wait for it. -/
def schedLists (ready blocked : List ThreadPtr) (count : Nat) (gone : List ThreadPtr)
    (ws : ThreadPtr → List Nat) : Lists Addr
  | .readyList => some (ready.map .list)
  | .blockedList => some (blocked.map .list)
  | .waitingForMeList p =>
      if (p ≠ masterDummyThread ∧ p < count) ∧ p ∉ gone then some ((ws p).map .waiter) else none
  | _ => none

/-- Nothing is linked to a thread: it is on neither of the two lists, and no thread waits for it. -/
structure Unlinked (s : Sched) (p : ThreadPtr) : Prop where
  present : Present s p
  not_ready : p ∉ s.readyList
  not_blocked : p ∉ s.blockedList
  no_waiters : (s.thread p).waitingForMeList = []

/-- The state of the library on links stands for the state on lists. -/
structure Refines (ws : ThreadPtr → List Nat) (t : LinkedSched) (s : Sched) : Prop where
  threadIdCount : t.threadIdCount = s.threadIdCount
  thread : ∀ p, t.thread p = ⟨(s.thread p).id, (s.thread p).state, (s.thread p).returnReciever⟩
  running : t.running = s.running
  stopped : t.stopped = s.stopped
  suspended : t.suspended = s.suspended
  freed : t.freed = s.freed
  holds : t.heap.Holds (schedLists s.readyList s.blockedList s.threadIdCount s.freed ws)
  waiting : ∀ p, (ws p).map t.waiter = (s.thread p).waitingForMeList
  allocated : ∀ p, p < s.threadIdCount → p ∉ s.freed → .list p ∈ t.heap.live
  gone : ∀ p ∈ s.freed, p < s.threadIdCount ∧ .waitingForMeList p ∉ t.heap.live
  present : ∀ p, ws p ≠ [] → Present s p
  accounted : ∀ w, w < t.waiterCount ↔ w ∈ t.freedWaiters ∨ ∃ p, w ∈ ws p
  freed_once : t.freedWaiters.Nodup ∧ ∀ w ∈ t.freedWaiters, ∀ p, w ∉ ws p

section Lists

variable {ready blocked gone : List ThreadPtr} {count : Nat} {ws : ThreadPtr → List Nat}
  {p : ThreadPtr} {w : Nat}

theorem schedLists_ready : schedLists ready blocked count gone ws .readyList =
    some (ready.map .list) := rfl

theorem schedLists_blocked : schedLists ready blocked count gone ws .blockedList =
    some (blocked.map .list) :=
  rfl

theorem update_readyList (ready' : List ThreadPtr) :
    Function.update (schedLists ready blocked count gone ws) .readyList (some (ready'.map .list)) =
      schedLists ready' blocked count gone ws := by
  funext a
  cases a <;> rfl

theorem update_blockedList (blocked' : List ThreadPtr) :
    Function.update (schedLists ready blocked count gone ws) .blockedList
      (some (blocked'.map .list)) = schedLists ready blocked' count gone ws := by
  funext a
  cases a <;> rfl

theorem list_injective : Function.Injective Addr.list := fun _ _ => Addr.list.inj

/-- A thread is taken off the list that it is in. -/
theorem unlink_list : (schedLists ready blocked count gone ws).unlink (.list p) =
    schedLists (ready.erase p) (blocked.erase p) count gone ws := by
  funext a
  cases a with
  | readyList => exact congrArg some (List.map_erase list_injective ready).symm
  | blockedList => exact congrArg some (List.map_erase list_injective blocked).symm
  | waitingForMeList q =>
      simp only [Lists.unlink, schedLists]
      split
      · have hnot : Addr.list p ∉ (ws q).map Addr.waiter := by simp
        exact congrArg some (List.erase_of_not_mem hnot)
      · rfl
  | _ => rfl

/-- The objects that wait for one thread change. -/
theorem update_waitingForMeList (hp : (p ≠ masterDummyThread ∧ p < count) ∧ p ∉ gone)
    (l : List Nat) :
    Function.update (schedLists ready blocked count gone ws) (.waitingForMeList p)
    (some (l.map .waiter)) =
      schedLists ready blocked count gone (Function.update ws p l) := by
  funext a
  by_cases ha : a = .waitingForMeList p
  · subst ha
    simp only [Function.update_self, schedLists, if_pos hp]
  · rw [Function.update_of_ne ha]
    cases a with
    | waitingForMeList q =>
        have hq : q ≠ p := fun heq => ha (heq ▸ rfl)
        simp only [schedLists, Function.update_of_ne hq]
    | _ => rfl

/-- A thread is created, for which nothing waits. -/
theorem update_created (hpos : count ≠ masterDummyThread) (hgone : count ∉ gone)
    (hws : ws count = []) :
    Function.update (schedLists ready blocked count gone ws) (.waitingForMeList count) (some []) =
      schedLists ready blocked (count + 1) gone ws := by
  funext a
  by_cases ha : a = .waitingForMeList count
  · subst ha
    have hnew : (count ≠ masterDummyThread ∧ count < count + 1) ∧ count ∉ gone :=
      ⟨⟨hpos, Nat.lt_succ_self count⟩, hgone⟩
    simp only [Function.update_self, schedLists, if_pos hnew, hws]
    rfl
  · rw [Function.update_of_ne ha]
    cases a with
    | waitingForMeList q =>
        have hq : q ≠ count := fun heq => ha (heq ▸ rfl)
        have hiff : q < count + 1 ↔ q < count := Nat.lt_succ_iff_lt_or_eq.trans (or_iff_left hq)
        simp only [schedLists, hiff]
    | _ => rfl

theorem schedLists_waiting (hp : (p ≠ masterDummyThread ∧ p < count) ∧ p ∉ gone) :
    schedLists ready blocked count gone ws (.waitingForMeList p) = some ((ws p).map .waiter) :=
  if_pos hp

/-- The lists of the scheduler are the two global ones and those of the threads. -/
theorem schedLists_cases {head : Addr} {l : List Addr}
    (hl : schedLists ready blocked count gone ws head = some l) :
    (head = .readyList ∧ l = ready.map .list) ∨ (head = .blockedList ∧ l = blocked.map .list) ∨
      ∃ q, head = .waitingForMeList q ∧ ((q ≠ masterDummyThread ∧ q < count) ∧ q ∉ gone) ∧
        l = (ws q).map .waiter := by
  cases head with
  | readyList => exact Or.inl ⟨rfl, (Option.some.inj hl).symm⟩
  | blockedList => exact Or.inr (Or.inl ⟨rfl, (Option.some.inj hl).symm⟩)
  | waitingForMeList q =>
      obtain ⟨hq, hl⟩ := Option.ite_none_right_eq_some.1 hl
      exact Or.inr (Or.inr ⟨q, rfl, hq, (Option.some.inj hl).symm⟩)
  | _ => cases hl

/-- Heads of lists are not entries. -/
theorem not_entry_waitingForMeList (q : ThreadPtr) (head : Addr) (l : List Addr)
    (hl : schedLists ready blocked count gone ws head = some l) : .waitingForMeList q ∉ l := by
  rcases schedLists_cases hl with ⟨-, rfl⟩ | ⟨-, rfl⟩ | ⟨q', -, -, rfl⟩
  · simp
  · simp
  · simp

theorem loose_list (hready : p ∉ ready) (hblocked : p ∉ blocked) :
    Loose (schedLists ready blocked count gone ws) (.list p) := by
  intro head l hl
  rcases schedLists_cases hl with ⟨rfl, rfl⟩ | ⟨rfl, rfl⟩ | ⟨q, rfl, -, rfl⟩
  · simpa using hready
  · simpa using hblocked
  · simp

/-- A freed descriptor is the head of no list. -/
theorem loose_gone (hp : p ∈ gone) :
    Loose (schedLists ready blocked count gone ws) (.waitingForMeList p) := by
  intro head l hl hmem
  rcases List.mem_cons.1 hmem with rfl | hentry
  · rw [schedLists, if_neg fun hpresent => hpresent.2 hp] at hl
    cases hl
  · exact not_entry_waitingForMeList p head l hl hentry

theorem schedLists_gone : schedLists ready blocked count (gone ++ [p]) ws =
    Function.update (schedLists ready blocked count gone ws) (.waitingForMeList p) none := by
  funext a
  by_cases ha : a = .waitingForMeList p
  · subst ha
    rw [Function.update_self, schedLists, if_neg fun hpresent => hpresent.2 (by simp)]
  · rw [Function.update_of_ne ha]
    cases a with
    | waitingForMeList q =>
        have hq : q ≠ p := fun heq => ha (heq ▸ rfl)
        simp only [schedLists, List.mem_append, List.mem_singleton, hq, or_false]
    | _ => rfl

theorem loose_waiter (hw : ∀ p, w ∉ ws p) :
    Loose (schedLists ready blocked count gone ws) (.waiter w) := by
  intro head l hl
  rcases schedLists_cases hl with ⟨rfl, rfl⟩ | ⟨rfl, rfl⟩ | ⟨q, rfl, -, rfl⟩
  · simp
  · simp
  · simpa using hw q

end Lists

/-- The objects that wait, when one more is added to the list of a thread. -/
theorem exists_mem_update_concat {ws : ThreadPtr → List Nat} {p : ThreadPtr} {w n : Nat} :
    (∃ a, w ∈ Function.update ws p (ws p ++ [n]) a) ↔ (∃ a, w ∈ ws a) ∨ w = n := by
  constructor
  · rintro ⟨a, ha⟩
    by_cases hap : a = p
    · subst hap
      rw [Function.update_self, List.mem_append, List.mem_singleton] at ha
      exact ha.imp (fun hmem => ⟨a, hmem⟩) fun heq => heq
    · rw [Function.update_of_ne hap] at ha
      exact Or.inl ⟨a, ha⟩
  · rintro (⟨a, ha⟩ | rfl)
    · by_cases hap : a = p
      · subst hap
        exact ⟨a, by rw [Function.update_self]; exact List.mem_append_left _ ha⟩
      · exact ⟨a, by rwa [Function.update_of_ne hap]⟩
    · refine ⟨p, ?_⟩
      rw [Function.update_self]
      exact List.mem_append_right _ (List.mem_singleton_self _)

/-- The objects that wait, when the first one is taken off the list of a thread. -/
theorem exists_mem_iff_update_tail {ws : ThreadPtr → List Nat} {p : ThreadPtr} {w x : Nat}
    {rest : List Nat} (hws : ws p = w :: rest) :
    (∃ a, x ∈ ws a) ↔ (∃ a, x ∈ Function.update ws p rest a) ∨ x = w := by
  constructor
  · rintro ⟨a, ha⟩
    by_cases hap : a = p
    · subst hap
      rw [hws] at ha
      rcases List.mem_cons.1 ha with heq | hmem
      · exact Or.inr heq
      · exact Or.inl ⟨a, by rwa [Function.update_self]⟩
    · exact Or.inl ⟨a, by rwa [Function.update_of_ne hap]⟩
  · rintro (⟨a, ha⟩ | rfl)
    · by_cases hap : a = p
      · subst hap
        rw [Function.update_self] at ha
        exact ⟨a, hws ▸ List.mem_cons_of_mem w ha⟩
      · rw [Function.update_of_ne hap] at ha
        exact ⟨a, ha⟩
    · exact ⟨p, hws ▸ List.mem_cons_self⟩

/-! ## What the steps of the source do -/

/-- The parts of a sequence that ends without a fault. -/
theorem ok_of_bind {ε α β : Type} {x : Except ε α} {f : α → Except ε β} {b : β}
    (h : (x >>= f) = .ok b) : ∃ a, x = .ok a ∧ f a = .ok b := by
  cases x with
  | error e => cases h
  | ok a => exact ⟨a, rfl, h⟩

theorem of_assert {c : Prop} [Decidable c] {a : Assertion} {u : Unit}
    (h : UserThreads.assert c a = .ok u) : c := by
  by_contra hc
  rw [UserThreads.assert, if_neg hc] at h
  cases h

theorem assert_of {c : Prop} [Decidable c] (a : Assertion) (h : c) : assert c a = .ok () := if_pos h

theorem onHeap_of_gives (t : LinkedSched)
    (f : ListHeap Addr → Except (ListFault Addr) (ListHeap Addr)) {live : List Addr}
    {lists : Lists Addr} (h : ListHeap.Gives (f t.heap) live lists) :
    ∃ heap, t.onHeap f = .ok { t with heap := heap } ∧ heap.live = live ∧ heap.Holds lists := by
  obtain ⟨heap, hf, hlive, hh⟩ := h
  refine ⟨heap, ?_, hlive, hh⟩
  simp only [LinkedSched.onHeap, hf, ofList]
  rfl

namespace Refines

variable {ws : ThreadPtr → List Nat} {t : LinkedSched} {s s' : Sched} {p : ThreadPtr}

/-- Nothing waits for a thread that was not created. -/
theorem nil_of_le (h : Refines ws t s) (hp : s.threadIdCount ≤ p) : ws p = [] := by
  by_contra hne
  exact Nat.not_lt.2 hp (h.present p hne).1.2

theorem count_not_freed (h : Refines ws t s) : s.threadIdCount ∉ s.freed := fun hmem =>
  Nat.lt_irrefl _ (h.gone _ hmem).1

theorem state (h : Refines ws t s) (p : ThreadPtr) : (t.thread p).state = (s.thread p).state := by
  rw [h.thread p]

theorem id (h : Refines ws t s) (p : ThreadPtr) : (t.thread p).id = (s.thread p).id := by
  rw [h.thread p]

/-- Only fields of descriptors change. -/
theorem of_thread (h : Refines ws t s) {f : ThreadPtr → LinkedThread} {g : ThreadPtr → PetThread}
    (hthread : ∀ p, f p = ⟨(g p).id, (g p).state, (g p).returnReciever⟩)
    (hwaiting : ∀ p, (g p).waitingForMeList = (s.thread p).waitingForMeList) :
    Refines ws { t with thread := f } { s with thread := g } :=
  { h with thread := hthread, waiting := fun p => (h.waiting p).trans (hwaiting p).symm }

theorem setState (h : Refines ws t s) (p : ThreadPtr) (st : ThreadRunState) :
    Refines ws (t.setState p st) (s.setState p st) := by
  refine h.of_thread (fun q => ?_) fun q => ?_
  · simp only [Function.update_apply, h.thread]
    split <;> rfl
  · simp only [Function.update_apply]
    split
    · next heq => rw [heq]
    · rfl

theorem setReturnReciever (h : Refines ws t s) (p : ThreadPtr) (v : VoidPtr) :
    Refines ws (t.setReturnReciever p v) (s.setReturnReciever p v) := by
  refine h.of_thread (fun q => ?_) fun q => ?_
  · simp only [Function.update_apply, h.thread]
    split <;> rfl
  · simp only [Function.update_apply]
    split
    · next heq => rw [heq]
    · rfl

theorem of_running (h : Refines ws t s) (run : ThreadPtr) :
    Refines ws { t with running := run } { s with running := run } :=
  { h with running := rfl }

theorem of_stopped (h : Refines ws t s) (stop : Option ThreadPtr) :
    Refines ws { t with stopped := stop } { s with stopped := stop } :=
  { h with stopped := rfl }

theorem of_suspended (h : Refines ws t s) {f g : ThreadPtr → Option Frame} (heq : f = g) :
    Refines ws { t with suspended := f } { s with suspended := g } :=
  { h with suspended := heq }

/-- Only the heap and the two lists change. -/
theorem of_heap (h : Refines ws t s) {heap : ListHeap Addr} (hlive : heap.live = t.heap.live)
    {ready blocked : List ThreadPtr}
    (hh : heap.Holds (schedLists ready blocked s.threadIdCount s.freed ws)) :
    Refines ws { t with heap := heap } { s with readyList := ready, blockedList := blocked } :=
  { h with
    holds := hh
    allocated := fun q hq hpresent => hlive ▸ h.allocated q hq hpresent
    gone := fun q hq => hlive ▸ h.gone q hq }

/-! ### The two lists -/

theorem ready_nodup (h : Refines ws t s) : s.readyList.Nodup :=
  (List.nodup_cons.1 (h.holds.ring schedLists_ready).nodup).2.of_map _

theorem blocked_nodup (h : Refines ws t s) : s.blockedList.Nodup :=
  (List.nodup_cons.1 (h.holds.ring schedLists_blocked).nodup).2.of_map _

/-- A thread is not in both lists. -/
theorem not_blocked_of_ready (h : Refines ws t s) (hp : p ∈ s.readyList) : p ∉ s.blockedList := by
  intro hblocked
  have hne : Addr.readyList ≠ Addr.blockedList := Addr.noConfusion
  exact h.holds.apart schedLists_ready schedLists_blocked hne
    (List.mem_cons_of_mem _ (List.mem_map_of_mem hp))
    (List.mem_cons_of_mem _ (List.mem_map_of_mem hblocked))

/-- `list_del` on lists takes the thread off whichever list it is in. -/
theorem listDel_eq (h : Refines ws t s) (hdel : s.listDel p = .ok s') :
    (p ∈ s.readyList ∨ p ∈ s.blockedList) ∧
      s' = { s with readyList := s.readyList.erase p, blockedList := s.blockedList.erase p } := by
  unfold Sched.listDel at hdel
  split at hdel
  · next hready =>
      cases hdel
      rw [List.erase_of_not_mem (h.not_blocked_of_ready hready)]
      exact ⟨Or.inl hready, rfl⟩
  · next hready =>
      split at hdel
      · next hblocked =>
          cases hdel
          rw [List.erase_of_not_mem hready]
          exact ⟨Or.inr hblocked, rfl⟩
      · cases hdel

/-- `list_del` takes a thread off its list. -/
theorem listDel (h : Refines ws t s) (hdel : s.listDel p = .ok s') :
    ∃ t', t.listDel (.list p) = .ok t' ∧ Refines ws t' s' ∧ p ∉ s'.readyList ∧ p ∉ s'.blockedList ∧
      Addr.list p ∈ t'.heap.live := by
  obtain ⟨hmem, rfl⟩ := h.listDel_eq hdel
  obtain ⟨head, l, hl, hp⟩ : ∃ head l,
      schedLists s.readyList s.blockedList s.threadIdCount s.freed ws head = some l ∧
      Addr.list p ∈ l := by
    rcases hmem with hready | hblocked
    · exact ⟨.readyList, _, rfl, List.mem_map_of_mem hready⟩
    · exact ⟨.blockedList, _, rfl, List.mem_map_of_mem hblocked⟩
  have hgives := h.holds.listDel hl hp
  rw [unlink_list] at hgives
  obtain ⟨heap, heq, hlive, hh⟩ := onHeap_of_gives t (fun h => h.listDel (.list p)) hgives
  refine ⟨_, heq, h.of_heap hlive hh, h.ready_nodup.not_mem_erase,
    h.blocked_nodup.not_mem_erase, ?_⟩
  exact hlive ▸ h.holds.entry_mem hl hp

theorem listAddTail_ready (h : Refines ws t s) (hlive : Addr.list p ∈ t.heap.live)
    (hready : p ∉ s.readyList) (hblocked : p ∉ s.blockedList) :
    ∃ t', t.listAddTail (.list p) .readyList = .ok t' ∧
      Refines ws t' { s with readyList := s.readyList ++ [p] } := by
  have hgives := h.holds.listAddTail schedLists_ready (loose_list hready hblocked) hlive
  have hmap : s.readyList.map Addr.list ++ [Addr.list p] =
    (s.readyList ++ [p]).map Addr.list := by simp
  rw [hmap, update_readyList] at hgives
  obtain ⟨heap, heq, hsame, hh⟩ :=
    onHeap_of_gives t (fun h => h.listAddTail (.list p) .readyList) hgives
  exact ⟨_, heq, h.of_heap hsame hh⟩

theorem listAddTail_blocked (h : Refines ws t s) (hlive : Addr.list p ∈ t.heap.live)
    (hready : p ∉ s.readyList) (hblocked : p ∉ s.blockedList) :
    ∃ t', t.listAddTail (.list p) .blockedList = .ok t' ∧
      Refines ws t' { s with blockedList := s.blockedList ++ [p] } := by
  have hgives := h.holds.listAddTail schedLists_blocked (loose_list hready hblocked) hlive
  have hmap : s.blockedList.map Addr.list ++ [Addr.list p] =
      (s.blockedList ++ [p]).map Addr.list := by
    simp
  rw [hmap, update_blockedList] at hgives
  obtain ⟨heap, heq, hsame, hh⟩ :=
    onHeap_of_gives t (fun h => h.listAddTail (.list p) .blockedList) hgives
  exact ⟨_, heq, h.of_heap hsame hh⟩

/-! ### Looking up a thread -/

theorem findThread (h : Refines ws t s) {head : Addr} {l : List ThreadPtr}
    (hl : schedLists s.readyList s.blockedList s.threadIdCount s.freed ws head =
      some (l.map Addr.list))
    (id : PetThreadId) :
    Linked.findThread t head id = .ok (l.find? fun p => (s.thread p).id = id) := by
  simp only [Linked.findThread, h.holds.listFindEntry hl, ofList, bind, Except.bind, List.find?_map,
    Option.map_map, h.id]
  have hid : Addr.threadOf ∘ Addr.list = fun p => p := rfl
  rw [hid, Option.map_id']
  rfl

theorem getThread (h : Refines ws t s) (id : PetThreadId) :
    Linked.getThread t id = .ok (UserThreads.getThread s id) := by
  unfold Linked.getThread UserThreads.getThread
  simp only [h.findThread schedLists_ready, h.findThread schedLists_blocked, h.running,
    h.stopped, h.id]
  split
  · rfl
  · split
    · rfl
    · split
      · rfl
      · simp only [bind, Except.bind]
        cases hfind : s.readyList.find? fun p => (s.thread p).id = id with
        | none => rfl
        | some p => rfl

/-! ### Switching -/

/-- A descriptor is freed. -/
theorem freeThread (h : Refines ws t s) (hp : Unlinked s p) :
    ∃ t', t.freeThread p = .ok t' ∧ Refines ws t' { s with freed := s.freed ++ [p] } := by
  have hws : ws p = [] := List.map_eq_nil_iff.1 ((h.waiting p).trans hp.no_waiters)
  refine ⟨_, if_pos (h.allocated p hp.present.1.2 hp.present.2), ?_⟩
  exact { h with
    freed := congrArg (· ++ [p]) h.freed
    holds := by
      refine ListHeap.Holds.free (schedLists_gone ▸ h.holds.forget _) fun a ha hnot => ?_
      -- what is taken away are the two members of the descriptor
      rw [List.mem_filter, decide_eq_true_eq, not_and, not_and_or, not_not, not_not] at hnot
      rcases hnot ha with rfl | rfl
      · exact loose_list hp.not_ready hp.not_blocked
      · exact loose_gone (List.mem_append_right _ (List.mem_singleton_self p))
    allocated := fun q hq hpresent => by
      rw [List.mem_append, List.mem_singleton, not_or] at hpresent
      have hne : Addr.list q ≠ .list p ∧ Addr.list q ≠ .waitingForMeList p :=
        ⟨fun heq => hpresent.2 (Addr.list.inj heq), Addr.noConfusion⟩
      exact List.mem_filter.2 ⟨h.allocated q hq hpresent.1, decide_eq_true hne⟩
    gone := fun q hq => by
      rcases List.mem_append.1 hq with hq | hq
      · exact ⟨(h.gone q hq).1, fun hmem => (h.gone q hq).2 (List.mem_of_mem_filter hmem)⟩
      · rw [List.mem_singleton] at hq
        subst hq
        exact ⟨hp.present.1.2, by simp⟩
    present := fun q hq => by
      refine ⟨(h.present q hq).1, fun hmem => ?_⟩
      rcases List.mem_append.1 hmem with hmem | hmem
      · exact (h.present q hq).2 hmem
      · exact hq (List.mem_singleton.1 hmem ▸ hws) }

theorem petThreadCleanup (h : Refines ws t s) {id : PetThreadId}
    (hfree : ∀ p, UserThreads.getThread s id = some p → (s.thread p).state = .stopped →
      Unlinked s p)
    (hx : UserThreads.petThreadCleanup s id = .ok s') :
    ∃ t', Linked.petThreadCleanup t id = .ok t' ∧ Refines ws t' s' := by
  unfold UserThreads.petThreadCleanup at hx
  simp only [Linked.petThreadCleanup, h.getThread id, bind, Except.bind]
  cases hget : UserThreads.getThread s id with
  | none =>
      rw [hget] at hx
      cases hx
  | some p =>
      rw [hget] at hx
      simp only [h.state p]
      simp only at hx
      by_cases hst : (s.thread p).state = .stopped
      · rw [if_pos hst] at hx ⊢
        cases hx
        exact h.freeThread (hfree p hget hst)
      · rw [if_neg hst] at hx ⊢
        cases hx
        exact ⟨_, rfl, h⟩

theorem returnFrom (h : Refines ws t s) (fr : Frame) :
    Linked.returnFrom t fr = UserThreads.returnFrom s fr := by
  obtain ⟨call, ret⟩ := fr
  cases call with
  | join id => simp only [Linked.returnFrom, UserThreads.returnFrom, h.running, h.thread]
  | _ => simp only [Linked.returnFrom, UserThreads.returnFrom, h.running]

theorem resume (h : Refines ws t s) : (Linked.resume t).2 = (UserThreads.resume s).2 ∧
    Refines ws (Linked.resume t).1 (UserThreads.resume s).1 := by
  unfold Linked.resume UserThreads.resume
  have hsame : t.suspended t.running = s.suspended s.running := by rw [h.suspended, h.running]
  rw [hsame]
  cases s.suspended s.running with
  | none => exact ⟨rfl, h⟩
  | some fr =>
      refine ⟨congrArg some (h.returnFrom fr), h.of_suspended ?_⟩
      rw [h.suspended, h.running]

theorem switchToStack (h : Refines ws t s) {old : ThreadPtr} {fr : Frame}
    {r : Sched × Option Return}
    (hfree : ∀ p, UserThreads.getThread (s.suspend old fr) (s.thread old).id = some p →
      ((s.suspend old fr).thread p).state = .stopped → Unlinked (s.suspend old fr) p)
    (hx : UserThreads.switchToStack s old fr = .ok r) :
    ∃ t', Linked.switchToStack t old fr = .ok (t', r.2) ∧ Refines ws t' r.1 := by
  obtain ⟨s₁, hclean, hres⟩ := ok_of_bind hx
  cases hres
  have hsusp : Refines ws (t.suspend old fr) (s.suspend old fr) :=
    h.of_suspended (by rw [h.suspended])
  obtain ⟨t₁, hclean', h₁⟩ := hsusp.petThreadCleanup hfree hclean
  refine ⟨_, ?_, h₁.resume.2⟩
  simp only [Linked.switchToStack, h.id old, hclean', bind, Except.bind]
  rw [← h₁.resume.1]
  rfl

theorem unlinkTarget (h : Refines ws t s) {tgt : ThreadPtr}
    (hx : UserThreads.unlinkTarget s tgt = .ok s') :
    ∃ t', Linked.unlinkTarget t tgt = .ok t' ∧ Refines ws t' s' ∧
      s'.readyList ⊆ s.readyList ∧ s'.blockedList ⊆ s.blockedList ∧
      s'.threadIdCount = s.threadIdCount ∧ s'.freed = s.freed := by
  unfold UserThreads.unlinkTarget at hx
  unfold Linked.unlinkTarget
  by_cases hm : tgt ≠ masterDummyThread
  · rw [if_pos hm] at hx ⊢
    obtain ⟨t', hdel, h', -⟩ := h.listDel hx
    obtain ⟨-, rfl⟩ := h.listDel_eq hx
    exact ⟨t', hdel, h', List.erase_subset, List.erase_subset, rfl, rfl⟩
  · rw [if_neg hm] at hx ⊢
    cases hx
    exact ⟨t, rfl, h, List.Subset.refl _, List.Subset.refl _, rfl, rfl⟩

/-- The thread that is left is put in the queue of its state. It was in none before. -/
theorem enqueueOld (h : Refines ws t s) (old : ThreadPtr) (hlive : .list old ∈ t.heap.live)
    (hready : old ∉ s.readyList) (hblocked : old ∉ s.blockedList) :
    ∃ t', Linked.enqueueOld t old = .ok t' ∧ Refines ws t' (UserThreads.enqueueOld s old) := by
  unfold Linked.enqueueOld UserThreads.enqueueOld
  rw [h.state old]
  cases (s.thread old).state with
  | running =>
      by_cases hm : old ≠ masterDummyThread
      · obtain ⟨t', hadd, h'⟩ := h.listAddTail_ready hlive hready hblocked
        simp only [if_pos hm, hadd, bind, Except.bind]
        exact ⟨_, rfl, h'.setState old .ready⟩
      · simp only [if_neg hm, bind, Except.bind]
        exact ⟨_, rfl, h.setState old .ready⟩
  | blocked => exact h.listAddTail_blocked hlive hready hblocked
  | stopped => exact ⟨_, rfl, h.of_stopped _⟩
  | ready => exact ⟨t, rfl, h⟩

end Refines

/-- The library looks for a thread to run. The one that is left was not freed yet, and if it has
exited, then its waiters have been woken. -/
structure Leaving (s : Sched) : Prop extends Core s where
  unfreed : s.running ∉ s.freed
  no_waiters : (s.thread s.running).state = .stopped → (s.thread s.running).waitingForMeList = []

theorem Leaving.of_settled {s : Sched} (h : Settled s) (hunfreed : s.running ∉ s.freed) :
    Leaving s where
  toCore := h.toCore
  unfreed := hunfreed
  no_waiters hst := by
    rw [h.running_running] at hst
    cases hst

theorem Leaving.not_ready {s : Sched} (h : Leaving s) : s.running ∉ s.readyList := fun hmem =>
  h.running_state ((h.mem_ready _).1 hmem).2

theorem Leaving.not_blocked {s : Sched} (h : Leaving s) : s.running ∉ s.blockedList := fun hmem =>
  ((h.mem_blocked _).1 hmem).1 rfl

/-- What `pet_thread_cleanup` frees is linked nowhere. -/
theorem Leaving.unlinked {s : Sched} (h : Leaving s) {tgt : ThreadPtr} (ht : Target s tgt)
    {fr : Frame} {p : ThreadPtr}
    (hget : UserThreads.getThread (switched s tgt fr) (threadIdOfCount s.running) = some p)
    (hst : ((switched s tgt fr).thread p).state = .stopped) : Unlinked (switched s tgt fr) p := by
  have hsettled : Settled (switched s tgt fr) := settled_switched h.toCore ht
  obtain rfl : s.running = p :=
    Option.some.inj ((getThread_known hsettled.idsOk (known_switched_old h.toCore)).symm.trans hget)
  have hstopped : (s.thread s.running).state = .stopped := by
    rw [switched_state_old h.toCore ht] at hst
    split at hst
    · cases hst
    · exact hst
  have hmaster : s.running ≠ masterDummyThread := fun hm => h.master_not_stopped (hm ▸ hstopped)
  -- a thread on one of the two lists is ready or blocked, and this one is stopped
  refine ⟨⟨⟨hmaster, h.running_lt⟩, h.unfreed⟩, fun hmem => ?_, fun hmem => ?_,
    h.no_waiters hstopped⟩
  · have hready := ((hsettled.mem_ready _).1 hmem).2
    rw [hst] at hready
    cases hready
  · have hblocked := ((hsettled.mem_blocked _).1 hmem).2.2
    rw [hst] at hblocked
    cases hblocked

namespace Refines

variable {ws : ThreadPtr → List Nat} {t : LinkedSched} {s : Sched} {r : Sched × Option Return}

theorem threadInvoker (h : Refines ws t s) (hl : Leaving s) {tgt : ThreadPtr} (ht : Target s tgt)
    {fr : Frame} (hx : UserThreads.threadInvoker s tgt fr = .ok r) :
    ∃ t', Linked.threadInvoker t tgt fr = .ok (t', r.2) ∧ Refines ws t' r.1 := by
  obtain ⟨_, hready, hx⟩ := ok_of_bind hx
  obtain ⟨_, hrunning, hx⟩ := ok_of_bind hx
  obtain ⟨s₁, hunlink, hx⟩ := ok_of_bind hx
  have hready' : (t.thread tgt).state = .ready := (h.state tgt).trans (of_assert hready)
  have hrunning' : (t.thread s.running).state ≠ .ready := by
    rw [h.state]
    exact of_assert hrunning
  obtain ⟨t₁, hunlink', h₁, hsub, hsub', hcount, hfreed⟩ := (h.of_running tgt).unlinkTarget hunlink
  obtain ⟨t₂, henqueue, h₂⟩ := h₁.enqueueOld s.running
    (h₁.allocated _ (hcount ▸ hl.running_lt) (hfreed ▸ hl.unfreed))
    (fun hmem => hl.not_ready (hsub hmem)) (fun hmem => hl.not_blocked (hsub' hmem))
  -- at the switch the bookkeeping is that of `switched`
  obtain rfl := Except.ok.inj ((unlinkTarget_eq hl.toCore ht).symm.trans hunlink)
  obtain ⟨t₃, hswitch, h₃⟩ := (h₂.setState tgt .running).switchToStack
    (fun p hget hst => by
      rw [enqueueOld_eq] at hget hst ⊢
      rw [enqueueOld_id hl.toCore ht] at hget
      exact hl.unlinked ht hget hst) hx
  refine ⟨t₃, ?_, h₃⟩
  simp only [Linked.threadInvoker, assert_of _ hready', assert_of _ hrunning', hunlink', h.running,
    henqueue, bind, Except.bind]
  exact hswitch

theorem petThreadSchedule (h : Refines ws t s) (hl : Leaving s) {call : Call}
    (hx : UserThreads.petThreadSchedule s call = .ok r) :
    ∃ t', Linked.petThreadSchedule t call = .ok (t', r.2) ∧ Refines ws t' r.1 := by
  have hempty := h.holds.listEmpty schedLists_ready
  have hfirst := h.holds.listFindEntry schedLists_ready fun _ => true
  unfold UserThreads.petThreadSchedule at hx
  simp only [Linked.petThreadSchedule, hempty, hfirst, ofList, bind, Except.bind, h.running]
  cases hready : s.readyList with
  | nil =>
      rw [hready] at hx
      by_cases hm : s.running = masterDummyThread
      · rw [if_neg fun hc => hc.2 hm] at hx ⊢
        cases hx
        exact ⟨t, congrArg (fun ret => Except.ok (t, some ret)) (h.returnFrom _), h⟩
      · rw [if_pos ⟨rfl, hm⟩] at hx ⊢
        exact h.threadInvoker hl (Target.master hl.toCore hm) hx
  | cons pos l =>
      rw [hready] at hx
      rw [if_neg fun hc => List.cons_ne_nil _ _ hc.1] at hx
      obtain ⟨_, hpos, hx⟩ := ok_of_bind hx
      have hpos' : (t.thread (Addr.list pos).threadOf).state = .ready :=
        (h.state pos).trans (of_assert hpos)
      rw [if_neg (by simp)]
      simp only [List.map_cons, List.find?_cons_of_pos, assert_of _ hpos']
      exact h.threadInvoker hl (Target.of_mem_ready hl.toCore (hready ▸ List.mem_cons_self)) hx

theorem yieldTo (h : Refines ws t s) (hl : Leaving s) {tgt : Option ThreadPtr} {call : Call}
    (hlt : ∀ p ∈ tgt, p < s.threadIdCount) (hx : UserThreads.yieldTo s tgt call = .ok r) :
    ∃ t', Linked.yieldTo t tgt call = .ok (t', r.2) ∧ Refines ws t' r.1 := by
  cases tgt with
  | none => exact h.petThreadSchedule hl hx
  | some p =>
      unfold UserThreads.yieldTo at hx
      unfold Linked.yieldTo
      simp only [h.state p]
      simp only at hx
      by_cases hst : (s.thread p).state ≠ .ready
      · rw [if_pos hst] at hx ⊢
        exact h.petThreadSchedule hl hx
      · rw [if_neg hst] at hx ⊢
        exact h.threadInvoker hl ⟨hlt p rfl, not_not.1 hst⟩ hx

/-! ### Creating a thread -/

/-- The descriptor is initialised, before it is put on the ready list. -/
theorem mallocThread (h : Refines ws t s) (hpos : 0 < s.threadIdCount) :
    ∃ heap, (t.mallocThread.onHeap fun h => h.listHeadInit (.waitingForMeList s.threadIdCount)) =
        .ok { t.mallocThread with heap := heap } ∧
      Refines ws { t.mallocThread with heap := heap } { s with
        threadIdCount := s.threadIdCount + 1
        thread := Function.update s.thread s.threadIdCount ⟨threadIdOfCount s.threadIdCount,
          .ready, [], 0⟩
        suspended := Function.update s.suspended s.threadIdCount none } := by
  have hws : ws s.threadIdCount = [] := h.nil_of_le (Nat.le_refl _)
  have hsub : t.heap.live ⊆ t.mallocThread.heap.live := fun a ha =>
    List.mem_cons_of_mem _ (List.mem_cons_of_mem _ ha)
  have hnew : Addr.waitingForMeList s.threadIdCount ∈ t.mallocThread.heap.live := by
    simp [LinkedSched.mallocThread, h.threadIdCount]
  have hholds : t.mallocThread.heap.Holds
      (schedLists s.readyList s.blockedList s.threadIdCount s.freed ws) := h.holds.of_live hsub
  have hgives := hholds.initListHead hnew (not_entry_waitingForMeList s.threadIdCount)
  rw [update_created (Nat.ne_of_gt hpos) h.count_not_freed hws] at hgives
  obtain ⟨heap, heq, hlive, hh⟩ := onHeap_of_gives t.mallocThread
    (fun h => h.listHeadInit (.waitingForMeList s.threadIdCount)) hgives
  refine ⟨heap, heq, ?_⟩
  exact {
    threadIdCount := congrArg (· + 1) h.threadIdCount
    thread := fun p => by
      simp only [LinkedSched.mallocThread, h.threadIdCount, Function.update_apply, h.thread]
      split <;> rfl
    running := h.running
    stopped := h.stopped
    suspended := by simp only [LinkedSched.mallocThread, h.suspended, h.threadIdCount]
    freed := h.freed
    holds := hh
    waiting := fun p => by
      simp only [Function.update_apply]
      split
      · next heq => rw [heq, hws]; rfl
      · exact h.waiting p
    allocated := fun p hp hunfreed => by
      rw [hlive]
      rcases Nat.lt_succ_iff_lt_or_eq.1 hp with hlt | rfl
      · exact hsub (h.allocated p hlt hunfreed)
      · simp [LinkedSched.mallocThread, h.threadIdCount]
    gone := fun p hp => by
      have hne : p ≠ s.threadIdCount := Nat.ne_of_lt (h.gone p hp).1
      refine ⟨Nat.lt_succ_of_lt (h.gone p hp).1, ?_⟩
      rw [hlive]
      simp [LinkedSched.mallocThread, h.threadIdCount, hne, (h.gone p hp).2]
    present := fun p hp =>
      ⟨⟨(h.present p hp).1.1, Nat.lt_succ_of_lt (h.present p hp).1.2⟩, (h.present p hp).2⟩
    accounted := h.accounted
    freed_once := h.freed_once }

theorem petThreadCreate (h : Refines ws t s) (hpos : 0 < s.threadIdCount)
    (hready : s.threadIdCount ∉ s.readyList) (hblocked : s.threadIdCount ∉ s.blockedList) :
    ∃ t', Linked.petThreadCreate t = .ok (t', (UserThreads.petThreadCreate s).2) ∧
      Refines ws t' (UserThreads.petThreadCreate s).1 := by
  obtain ⟨heap, hinit, h₁⟩ := h.mallocThread hpos
  obtain ⟨t₂, hadd, h₂⟩ := h₁.listAddTail_ready
    (h₁.allocated s.threadIdCount (Nat.lt_succ_self _) h.count_not_freed) hready hblocked
  refine ⟨t₂, ?_, h₂⟩
  have hpresent : (s.threadIdCount ≠ masterDummyThread ∧ s.threadIdCount < s.threadIdCount + 1) ∧
      s.threadIdCount ∉ s.freed := ⟨⟨Nat.ne_of_gt hpos, Nat.lt_succ_self _⟩, h.count_not_freed⟩
  have hwaiting := @schedLists_waiting s.readyList s.blockedList _ _ ws _ hpresent
  have hnext := h₁.holds.readNext_head hwaiting
  have hprev := h₁.holds.readPrev_head hwaiting
  rw [h.nil_of_le (Nat.le_refl _)] at hnext hprev
  simp only [Linked.petThreadCreate, h.threadIdCount, hinit, hnext, hprev, hadd, ofList, bind,
    Except.bind, h.running]
  exact if_pos ⟨rfl, rfl⟩

/-! ### Waiting for a thread -/

/-- An object that is linked is allocated, and was not freed. -/
theorem lt_of_mem (h : Refines ws t s) {p : ThreadPtr} {w : Nat} (hw : w ∈ ws p) :
    w < t.waiterCount :=
  (h.accounted w).2 (Or.inr ⟨p, hw⟩)

/-- The waiting list of a thread that was not freed changes, and with it the memory of the objects
that wait. -/
theorem setWaiting (h : Refines ws t s) {p : ThreadPtr} (hp : Present s p) {l : List Nat}
    {heap : ListHeap Addr} {waiter : Nat → ThreadPtr} {waiterCount : Nat} {freedWaiters : List Nat}
    (hholds : heap.Holds (schedLists s.readyList s.blockedList s.threadIdCount s.freed
      (Function.update ws p l)))
    (hwaiter : ∀ a, (ws a).map waiter = (ws a).map t.waiter)
    (hlist : ∀ a, Addr.list a ∈ t.heap.live → Addr.list a ∈ heap.live)
    (hgone : ∀ a, Addr.waitingForMeList a ∈ heap.live → Addr.waitingForMeList a ∈ t.heap.live)
    (haccounted : ∀ w, w < waiterCount ↔ w ∈ freedWaiters ∨ ∃ a, w ∈ Function.update ws p l a)
    (honce : freedWaiters.Nodup ∧ ∀ w ∈ freedWaiters, ∀ a, w ∉ Function.update ws p l a) :
    Refines (Function.update ws p l)
      { t with
        heap := heap
        waiter := waiter
        waiterCount := waiterCount
        freedWaiters := freedWaiters }
      (s.setWaiting p (l.map waiter)) where
  threadIdCount := h.threadIdCount
  thread a := by
    rw [Sched.setWaiting_thread]
    split
    · exact h.thread a
    · exact h.thread a
  running := h.running
  stopped := h.stopped
  suspended := h.suspended
  freed := h.freed
  holds := hholds
  waiting a := by
    rw [Sched.setWaiting_thread]
    by_cases ha : a = p
    · subst ha
      rw [Function.update_self, if_pos rfl]
    · rw [Function.update_of_ne ha, if_neg ha]
      exact (hwaiter a).trans (h.waiting a)
  allocated a ha hunfreed := hlist a (h.allocated a ha hunfreed)
  gone a ha := ⟨(h.gone a ha).1, fun hmem => (h.gone a ha).2 (hgone a hmem)⟩
  present a ha := by
    by_cases hap : a = p
    · exact hap ▸ hp
    · rw [Function.update_of_ne hap] at ha
      exact h.present a ha
  accounted := haccounted
  freed_once := honce

/-- `pet_thread_join` puts a new object at the end of the list of the thread that is joined. -/
theorem addWaiter (h : Refines ws t s) {p : ThreadPtr} (hp : Present s p) (q : ThreadPtr) :
    ∃ t', (t.mallocWaiter q).listAddTail (.waiter t.waiterCount) (.waitingForMeList p) = .ok t' ∧
      Refines (Function.update ws p (ws p ++ [t.waiterCount])) t'
        (s.setWaiting p ((s.thread p).waitingForMeList ++ [q])) := by
  have hnot : ∀ p, t.waiterCount ∉ ws p := fun p hw => Nat.lt_irrefl _ (h.lt_of_mem hw)
  have hholds : (t.mallocWaiter q).heap.Holds
      (schedLists s.readyList s.blockedList s.threadIdCount s.freed ws) :=
    h.holds.of_live (List.subset_cons_self _ _)
  have hgives := hholds.listAddTail (schedLists_waiting hp) (loose_waiter hnot) List.mem_cons_self
  have hmap : (ws p).map Addr.waiter ++ [Addr.waiter t.waiterCount] =
      (ws p ++ [t.waiterCount]).map Addr.waiter := by simp
  rw [hmap, update_waitingForMeList hp] at hgives
  obtain ⟨heap, heq, hlive, hh⟩ := onHeap_of_gives (t.mallocWaiter q)
    (fun h => h.listAddTail (.waiter t.waiterCount) (.waitingForMeList p)) hgives
  -- the objects that were there before keep their threads
  have hsame : ∀ p, (ws p).map (Function.update t.waiter t.waiterCount q) = (ws p).map t.waiter :=
    fun p => List.map_congr_left fun w hw => Function.update_of_ne
      (Nat.ne_of_lt (h.lt_of_mem hw)) _ _
  have hlast : (ws p ++ [t.waiterCount]).map (Function.update t.waiter t.waiterCount q) =
      (s.thread p).waitingForMeList ++ [q] := by
    rw [List.map_append, hsame, h.waiting, List.map_singleton, Function.update_self]
  refine ⟨_, heq, hlast ▸ h.setWaiting hp hh hsame (fun a ha => ?_) (fun a ha => ?_) (fun w => ?_)
    ⟨h.freed_once.1, fun w hw a hmem => ?_⟩⟩
  · exact hlive ▸ List.mem_cons_of_mem _ ha
  · exact (List.mem_cons.1 (hlive ▸ ha)).resolve_left Addr.noConfusion
  · rw [exists_mem_update_concat, ← or_assoc]
    exact Nat.lt_succ_iff_lt_or_eq.trans (or_congr_left (h.accounted w))
  · rcases exists_mem_update_concat.1 ⟨a, hmem⟩ with ⟨b, hb⟩ | rfl
    · exact h.freed_once.2 w hw b hb
    · exact Nat.lt_irrefl _ ((h.accounted _).2 (Or.inl hw))

/-- An object waits for one thread, once. -/
theorem waiter_unique (h : Refines ws t s) {p : ThreadPtr} {w : Nat} {rest : List Nat}
    (hws : ws p = w :: rest) (a : ThreadPtr) : w ∉ Function.update ws p rest a := by
  have hp : Present s p := h.present p (hws ▸ List.cons_ne_nil w rest)
  have hlist := @schedLists_waiting s.readyList s.blockedList _ _ ws p hp
  rw [hws] at hlist
  intro hmem
  by_cases ha : a = p
  · subst ha
    rw [Function.update_self] at hmem
    have hnodup := ((List.nodup_cons.1 (h.holds.ring hlist).nodup).2.of_map _)
    exact (List.nodup_cons.1 hnodup).1 hmem
  · rw [Function.update_of_ne ha] at hmem
    have hapresent : Present s a := h.present a (List.ne_nil_of_mem hmem)
    have hne : Addr.waitingForMeList a ≠ Addr.waitingForMeList p := fun heq =>
      ha (Addr.waitingForMeList.inj heq)
    exact h.holds.apart (schedLists_waiting hapresent) hlist hne
      (List.mem_cons_of_mem _ (List.mem_map_of_mem hmem))
      (List.mem_cons_of_mem _ List.mem_cons_self)

/-- `__quarantine` takes the first object off the list and frees it. -/
theorem removeWaiter (h : Refines ws t s) {p : ThreadPtr} {w : Nat} {rest : List Nat}
    (hws : ws p = w :: rest) :
    ∃ t' t'', t.listDel (.waiter w) = .ok t' ∧ t'.freeWaiter w = .ok t'' ∧
      Refines (Function.update ws p rest) t''
        (s.setWaiting p (s.thread p).waitingForMeList.tail) := by
  have hp : Present s p := h.present p (hws ▸ List.cons_ne_nil w rest)
  have hlist := @schedLists_waiting s.readyList s.blockedList _ _ ws p hp
  rw [hws, List.map_cons] at hlist
  have hgives := h.holds.listDel hlist List.mem_cons_self
  rw [ListHeap.unlink_of_mem h.holds.toRings hlist List.mem_cons_self, List.erase_cons_head,
    update_waitingForMeList hp] at hgives
  obtain ⟨heap, heq, hlive, hh⟩ := onHeap_of_gives t (fun h => h.listDel (.waiter w)) hgives
  have hmem : Addr.waiter w ∈ heap.live := hlive ▸ h.holds.entry_mem hlist List.mem_cons_self
  have hunique := h.waiter_unique hws
  have htail : rest.map t.waiter = (s.thread p).waitingForMeList.tail := by
    rw [← h.waiting, hws]
    rfl
  have hholds : ListHeap.Holds { heap with live := heap.live.erase (.waiter w) }
      (schedLists s.readyList s.blockedList s.threadIdCount s.freed
        (Function.update ws p rest)) := by
    refine hh.free fun a ha hnot => ?_
    have heq : a = .waiter w := by
      by_contra hne
      exact hnot ((List.mem_erase_of_ne hne).2 ha)
    exact heq ▸ loose_waiter hunique
  refine ⟨_, _, heq, if_pos hmem, htail ▸ h.setWaiting hp hholds (fun _ => rfl) (fun a ha => ?_)
    (fun a ha => ?_) (fun x => ?_) ⟨?_, fun x hx a hxa => ?_⟩⟩
  · have hne : Addr.list a ≠ Addr.waiter w := Addr.noConfusion
    exact (List.mem_erase_of_ne hne).2 (hlive ▸ ha)
  · exact hlive ▸ List.mem_of_mem_erase ha
  · rw [List.mem_append, List.mem_singleton, or_assoc, or_comm (a := x = w),
      ← exists_mem_iff_update_tail hws]
    exact h.accounted x
  · refine List.nodup_append'.2 ⟨h.freed_once.1, List.nodup_singleton w, fun x hx hxw => ?_⟩
    rw [List.mem_singleton] at hxw
    subst hxw
    exact h.freed_once.2 x hx p (hws ▸ List.mem_cons_self)
  · rcases List.mem_append.1 hx with hx | hx
    · obtain ⟨b, hb⟩ := (exists_mem_iff_update_tail hws).2 (Or.inl ⟨a, hxa⟩)
      exact h.freed_once.2 x hx b hb
    · rw [List.mem_singleton] at hx
      subst hx
      exact hunique a hxa

theorem waitingOn (h : Refines ws t s) {p : ThreadPtr} (hp : Present s p) :
    ∃ ws' t', ((t.setState s.running .blocked).mallocWaiter s.running).listAddTail
        (.waiter t.waiterCount) (.waitingForMeList p) = .ok t' ∧
      Refines ws' t' (UserThreads.waitingOn s p) := by
  obtain ⟨t', hadd, h'⟩ := (h.setState s.running .blocked).addWaiter hp s.running
  have hsame : ((s.setState s.running .blocked).thread p).waitingForMeList =
      (s.thread p).waitingForMeList := by
    rw [Sched.setState_thread]
    split <;> rfl
  rw [hsame] at h'
  exact ⟨_, t', hadd, h'⟩

/-- `pet_thread_join`, for a thread that is found and not freed. -/
theorem petThreadJoin (h : Refines ws t s) {p : ThreadPtr} {id : PetThreadId} (hp : Present s p)
    (hget : UserThreads.getThread s id = some p) (hrun : (s.thread s.running).state = .running)
    (hl : Leaving (UserThreads.waitingOn s p))
    (hx : UserThreads.petThreadSchedule (UserThreads.waitingOn s p) (.join id) = .ok r) :
    ∃ ws' t', Linked.petThreadJoin t id = .ok (t', r.2) ∧ Refines ws' t' r.1 := by
  obtain ⟨ws₁, t₁, hadd, h₁⟩ := h.waitingOn hp
  obtain ⟨t₂, hsched, h₂⟩ := h₁.petThreadSchedule hl hx
  refine ⟨ws₁, t₂, ?_, h₂⟩
  have hrun' : (t.thread s.running).state = .running := (h.state _).trans hrun
  simp only [Linked.petThreadJoin, h.getThread id, hget, h.running, assert_of _ hrun', hadd, bind,
    Except.bind]
  exact hsched

/-- `pet_thread_join`, for a thread that is found and was freed. -/
theorem petThreadJoin_freed (h : Refines ws t s) {p : ThreadPtr} {id : PetThreadId}
    (hp : p ∈ s.freed)
    (hget : UserThreads.getThread s id = some p) (hrun : (s.thread s.running).state = .running) :
    Linked.petThreadJoin t id = .error (.list (.pageFault (.waitingForMeList p))) := by
  have hrun' : (t.thread s.running).state = .running := (h.state _).trans hrun
  have hdead : Addr.waitingForMeList p ∉
      ((t.setState s.running .blocked).mallocWaiter s.running).heap.live := fun hmem =>
    (h.gone p hp).2 ((List.mem_cons.1 hmem).resolve_left Addr.noConfusion)
  simp only [Linked.petThreadJoin, h.getThread id, hget, h.running, assert_of _ hrun', bind,
    Except.bind,
    LinkedSched.listAddTail, LinkedSched.onHeap, ListHeap.listAddTail, ListHeap.readPrev,
    if_neg hdead, ofList]

/-! ### Exiting -/

theorem waitingForMeList_of_woken (s : Sched) (p q : ThreadPtr) (v : VoidPtr) :
    (((s.setReturnReciever p v).setState p .ready).thread q).waitingForMeList =
      (s.thread q).waitingForMeList := by
  rw [Sched.setState_thread]
  by_cases hq : q = p
  · subst hq
    simp [Sched.setReturnReciever]
  · simp [Sched.setReturnReciever, hq]

/-- The waiters that are still to be woken are the entries `rest`; to wake them leads to `fin`. -/
def Waking (v : VoidPtr) (fin : Sched) (rest : List Addr) (t : LinkedSched) : Prop :=
  ∃ ws s, Refines ws t s ∧ s.running = fin.running ∧ Present s fin.running ∧
    rest = (ws fin.running).map .waiter ∧
    UserThreads.wakeWaiters v (s.thread fin.running).waitingForMeList s = .ok fin

/-- The body of the loop. -/
theorem wakeWaiter {v : VoidPtr} {fin : Sched} {pos : Addr} {rest : List Addr}
    (h : Waking v fin (pos :: rest) t) :
    ∃ t', Linked.wakeWaiter v pos t = .ok t' ∧ Waking v fin rest t' := by
  obtain ⟨ws, s, h, hrunning, hpresent, hrest, hwake⟩ := h
  obtain ⟨w, ns, hws, rfl, rfl⟩ := List.map_eq_cons_iff.1 hrest.symm
  have hwaiting := h.waiting fin.running
  rw [hws, List.map_cons] at hwaiting
  rw [← hwaiting] at hwake
  obtain ⟨_, hblocked, hwake⟩ := ok_of_bind hwake
  obtain ⟨s₂, hdel, hwake⟩ := ok_of_bind hwake
  have hblocked' : (t.thread (t.waiter w)).state = .blocked :=
    (h.state _).trans (of_assert hblocked)
  have h₁ := (h.setReturnReciever (t.waiter w) v).setState (t.waiter w) .ready
  obtain ⟨t₂, hdel', h₂, hready, hnot, hlive⟩ := h₁.listDel hdel
  obtain ⟨t₃, hadd, h₃⟩ := h₂.listAddTail_ready hlive hready hnot
  obtain ⟨t₄, t₅, hremove, hfree, h₅⟩ := h₃.removeWaiter hws
  obtain ⟨-, rfl⟩ := h₁.listDel_eq hdel
  refine ⟨t₅, ?_, ?_⟩
  -- the calls of the body one after the other, and then what is left to wake
  · simp only [Linked.wakeWaiter, assert_of _ hblocked', hdel', hadd, hremove, bind, Except.bind]
    exact hfree
  · have htail : (((s.setReturnReciever (t.waiter w) v).setState (t.waiter w) .ready).thread
        fin.running).waitingForMeList.tail = ns.map t.waiter := by
      rw [waitingForMeList_of_woken, ← hwaiting, List.tail_cons]
    rw [htail] at h₅
    refine ⟨_, _, h₅, hrunning, hpresent, ?_, ?_⟩
    · rw [Function.update_self]
    · rw [Sched.setWaiting_thread, if_pos rfl, ← hwake]
      exact congrArg (fun q => UserThreads.wakeWaiters v (ns.map t.waiter) (Sched.setWaiting _ q _))
        hrunning.symm

/-- When no entry is left, the waiters have been woken. -/
theorem of_waking {v : VoidPtr} {fin : Sched} (h : Waking v fin [] t) :
    ∃ ws, Refines ws t fin ∧ ws fin.running = [] := by
  obtain ⟨ws, s, h, -, -, hnil, hwake⟩ := h
  have hws : ws fin.running = [] := List.map_eq_nil_iff.1 hnil.symm
  have hwaiting := h.waiting fin.running
  rw [hws, List.map_nil] at hwaiting
  rw [← hwaiting] at hwake
  cases hwake
  exact ⟨ws, h, hws⟩

/-- The loop of `__quarantine`. -/
theorem wakeWaiters (h : Refines ws t s) {v : VoidPtr} {fin : Sched} (hp : Present s s.running)
    (hrunning : s.running = fin.running)
    (hx : UserThreads.wakeWaiters v (s.thread s.running).waitingForMeList s = .ok fin) :
    ∃ ws' t', Linked.wakeWaiters v t = .ok t' ∧ Refines ws' t' fin ∧ ws' fin.running = [] := by
  rw [hrunning] at hp hx
  have hlist := @schedLists_waiting s.readyList s.blockedList _ _ ws _ hp
  have hnot : ∀ (l : List Addr) (u : LinkedSched), Waking v fin l u →
      .waitingForMeList fin.running ∉ l := by
    rintro l u ⟨ws, s, h, -, hp, rfl, -⟩
    simp
  have hlink : ∀ (l : List Addr) (u : LinkedSched), Waking v fin l u →
      u.readNext (l.headD (.waitingForMeList fin.running)) =
        .ok (l.tail.headD (.waitingForMeList fin.running)) := by
    rintro l u ⟨ws, s, h, -, hp, rfl, -⟩
    rw [LinkedSched.readNext, h.holds.readNext_first (schedLists_waiting hp)]
    rfl
  -- the loop has read the link of `pos` before the body takes `pos` off the list and frees it
  obtain ⟨t', hloop, hfin⟩ := forEachSafeLoop_rule hnot hlink
    (fun pos l u (hu : Waking v fin (pos :: l) u) => wakeWaiter hu) _ t t.heap.live.length
    (h.holds.length_lt hlist) ⟨ws, s, h, hrunning, hp, rfl, hx⟩
  obtain ⟨ws', h', hnil⟩ := of_waking hfin
  refine ⟨ws', t', ?_, h', hnil⟩
  simp only [Linked.wakeWaiters, LinkedSched.readNext, h.running, hrunning,
    h.holds.readNext_head hlist, h.holds.readNext_first hlist, ofList, bind, Except.bind]
  exact hloop

/-- The first half of `__quarantine`. -/
theorem checkWaiters (h : Refines ws t s) {v : VoidPtr} {fin : Sched} (hp : Present s s.running)
    (hx : UserThreads.wakeWaiters v (s.thread s.running).waitingForMeList s = .ok fin)
    (hrunning : s.running = fin.running) (hpf : Present fin fin.running) :
    ∃ ws' t', Linked.checkWaiters v t = .ok t' ∧ Refines ws' t' fin := by
  have hlist := @schedLists_waiting s.readyList s.blockedList _ _ ws _ hp
  by_cases hnil : ws s.running = []
  · -- nothing waits
    have hwaiting := h.waiting s.running
    rw [hnil, List.map_nil] at hwaiting
    rw [← hwaiting] at hx
    cases hx
    rw [hnil] at hlist
    refine ⟨ws, t, ?_, h⟩
    simp only [Linked.checkWaiters, h.running, h.holds.listEmpty hlist, ofList, bind, Except.bind]
    rfl
  · -- when the loop is done, the second test of `list_empty` finds that nothing waits any more
    obtain ⟨ws', t', hwake, h', hnil'⟩ := h.wakeWaiters hp hrunning hx
    have hlist' := @schedLists_waiting fin.readyList fin.blockedList _ _ ws' _ hpf
    rw [hnil'] at hlist'
    refine ⟨ws', t', ?_, h'⟩
    have hfalse : ¬ decide ((ws s.running).map Addr.waiter = []) = true := by simpa using hnil
    simp only [Linked.checkWaiters, h.running, h.holds.listEmpty hlist, ofList, bind, Except.bind,
      if_neg hfalse, hwake, h'.running, h'.holds.listEmpty hlist']
    rfl

/-- `__quarantine`. -/
theorem quarantine (h : Refines ws t s) (hs : Settled s) (hr : s.running ≠ masterDummyThread)
    (hunfreed : s.running ∉ s.freed) {v : VoidPtr} {call : Call}
    (hx : UserThreads.petThreadSchedule (retired s v) call = .ok r) :
    ∃ ws' t', Linked.quarantine t v call = .ok (t', r.2) ∧ Refines ws' t' r.1 := by
  have hpresent : Present s s.running := ⟨⟨hr, hs.running_lt⟩, hunfreed⟩
  obtain ⟨ws₁, t₁, hcheck, h₁⟩ := h.checkWaiters hpresent (hs.wakeWaiters v) rfl hpresent
  have hrunning : t₁.running = s.running := h₁.running
  have hl : Leaving (retired s v) :=
    ⟨core_retired hs hr, hunfreed, fun _ => by
      show ((retired s v).thread s.running).waitingForMeList = []
      simp [retired, woken, Sched.setState]⟩
  obtain ⟨t₂, hsched, h₂⟩ := (h₁.setState s.running .stopped).petThreadSchedule hl hx
  refine ⟨ws₁, t₂, ?_, h₂⟩
  have hrun : (t₁.thread s.running).state = .running := by
    rw [h₁.state]
    simp [woken, hs.running_not_waiting, hs.running_running]
  simp only [Linked.quarantine, hcheck, hrunning, assert_of _ hrun, assert_of _ hr, bind,
    Except.bind]
  exact hsched

end Refines

/-- The call is a join that names a thread whose descriptor was freed. `get_thread` still finds the
one that exited last. -/
def JoinsFreed (s : Sched) : Call → Prop
  | .join id => ∃ p ∈ s.freed, UserThreads.getThread s id = some p
  | _ => False

instance (s : Sched) : (call : Call) → Decidable (JoinsFreed s call)
  | .join id => inferInstanceAs (Decidable (∃ p ∈ s.freed, UserThreads.getThread s id = some p))
  | .create => .isFalse id
  | .schedule => .isFalse id
  | .yieldTo _ => .isFalse id
  | .run => .isFalse id
  | .exit _ _ => .isFalse id

section OneCall

variable {ws : ThreadPtr → List Nat} {t : LinkedSched} {s : Sched} {r : Sched × Option Return}
  {call : Call}

/-- Such a join follows the links of the freed descriptor. -/
theorem petCall_joinsFreed (h : Refines ws t s) (hs : Settled s) (hjoin : JoinsFreed s call) :
    ∃ p ∈ s.freed, petCall t call = .error (.list (.pageFault (.waitingForMeList p))) := by
  cases call with
  | join id =>
      obtain ⟨p, hp, hget⟩ := hjoin
      exact ⟨p, hp, h.petThreadJoin_freed hp hget hs.running_running⟩
  | _ => exact hjoin.elim

/-- Every other call does on links what it does on lists. -/
theorem petCall_refines (h : Refines ws t s) (hs : Settled s) (hunfreed : s.running ∉ s.freed)
    (ha : Admissible s call) (hjoin : ¬ JoinsFreed s call)
    (hx : UserThreads.petCall s call = .ok r) :
    ∃ ws' t', petCall t call = .ok (t', r.2) ∧ Refines ws' t' r.1 := by
  have hl := Leaving.of_settled hs hunfreed
  cases call with
  | create =>
      cases hx
      obtain ⟨t', hcreate, h'⟩ := h.petThreadCreate hs.pos
        (fun hmem => Nat.lt_irrefl _ ((hs.mem_ready _).1 hmem).1.2)
        (fun hmem => Nat.lt_irrefl _ ((hs.mem_blocked _).1 hmem).2.1)
      refine ⟨ws, t', ?_, h'⟩
      simp only [petCall, hcreate, bind, Except.bind]
      rfl
  | schedule => exact ⟨ws, h.petThreadSchedule hl hx⟩
  | run => exact ⟨ws, h.petThreadSchedule hl hx⟩
  | yieldTo id =>
      obtain ⟨t', hyield, h'⟩ := h.yieldTo hl
        (fun p hp => hs.idsOk.known_lt p (getThread_sound hs.idsOk hp).1) hx
      refine ⟨ws, t', ?_, h'⟩
      simp only [petCall, petThreadYieldTo, h.getThread id, bind, Except.bind]
      exact hyield
  | join id =>
      obtain ⟨hid, hmaster⟩ := ha
      cases hget : UserThreads.getThread s id with
      | none =>
          simp only [UserThreads.petCall, UserThreads.petThreadJoin, hget] at hx
          cases hx
          refine ⟨ws, t, ?_, h⟩
          simp only [petCall, petThreadJoin, h.getThread id, hget, h.running, bind, Except.bind]
          rfl
      | some p =>
          obtain ⟨hknown, hidp⟩ := getThread_sound hs.idsOk hget
          have hp : Created s p := by
            refine ⟨?_, hs.idsOk.known_lt p hknown⟩
            rintro rfl
            exact hid hidp
          have hr : s.running ≠ masterDummyThread := by
            intro hr
            rw [hmaster hr] at hget
            cases hget
          have hl' : Leaving (UserThreads.waitingOn s p) := by
            refine ⟨(Prepared.join hget hp hr).core hs, hunfreed, fun hst => ?_⟩
            have hblocked : ((UserThreads.waitingOn s p).thread s.running).state = .blocked :=
              (waitingOn_state s.running).trans (if_pos rfl)
            cases hblocked.symm.trans hst
          exact h.petThreadJoin ⟨hp, fun hfreed => hjoin ⟨p, hfreed, hget⟩⟩
            hget hs.running_running hl'
            ((petThreadJoin_eq hs.running_running hget hp.1).symm.trans hx)
  | exit path v =>
      have heq := @quarantine_eq s v hs ha
      cases path with
      | petThreadExit => exact h.quarantine hs ha hunfreed ((heq _).symm.trans hx)
      | captureReturn => exact h.quarantine hs ha hunfreed ((heq _).symm.trans hx)

end OneCall

/-! ## Runs -/

theorem refines_init : Refines (fun _ => []) petThreadInit UserThreads.petThreadInit where
  threadIdCount := rfl
  thread _ := rfl
  running := rfl
  stopped := rfl
  suspended := rfl
  freed := rfl
  holds := by
    have hcases : ∀ {head l}, schedLists [] [] 1 [] (fun _ => []) head = some l →
        (head = .readyList ∨ head = .blockedList) ∧ l = [] := by
      intro head l hl
      rcases schedLists_cases hl with ⟨hhead, rfl⟩ | ⟨hhead, rfl⟩ | ⟨q, -, hq, -⟩
      · exact ⟨Or.inl hhead, rfl⟩
      · exact ⟨Or.inr hhead, rfl⟩
      · -- the only thread is that of the master, which has no list
        exact absurd (Nat.lt_one_iff.1 hq.1.2) hq.1.1
    refine ⟨⟨fun {head l} hl => ?_, fun {a b l m} hl hm hne => ?_⟩, fun {head l} hl => ?_⟩
    · obtain ⟨hhead, rfl⟩ := hcases hl
      exact ⟨⟨if_pos hhead, trivial⟩, ⟨if_pos hhead, trivial⟩, List.nodup_singleton head⟩
    · obtain ⟨-, rfl⟩ := hcases hl
      obtain ⟨-, rfl⟩ := hcases hm
      simpa using hne.symm
    · obtain ⟨rfl | rfl, rfl⟩ := hcases hl
      · simp [petThreadInit]
      · simp [petThreadInit]
  waiting p := by simp [UserThreads.petThreadInit]
  allocated p hp _ := by
    have hzero : p = 0 := Nat.lt_one_iff.1 hp
    subst hzero
    simp [petThreadInit]
  gone p hp := absurd hp List.not_mem_nil
  present p hp := absurd rfl hp
  accounted w := by simp [petThreadInit]
  freed_once := by simp [petThreadInit]

theorem clients_reclaimInv {es : List Event} {s : Sched} (h : clients.Reach es s) :
    ReclaimInv es s := by
  refine Machine.Reach.history (I := ReclaimInv) (fun s hs => ?_)
    (fun es s e s' _ hinv hstep => ?_) h
  · have hs : s = UserThreads.petThreadInit := hs
    subst hs
    exact ⟨runInv_petThreadInit, rfl, List.nodup_nil⟩
  · exact hinv.step (hstep.1.admissible hinv.settled.toCore) hstep.2

/-- The library as its clients use it, up to a join that names a freed thread. -/
def timelyClients : Machine Sched Event := clients.guard fun s e => ¬ JoinsFreed s e.call

section Runs

variable {es : List Event} {s s' : Sched} {t t' : LinkedSched} {ws : ThreadPtr → List Nat}
  {e : Event}

/-- One step. -/
theorem Refines.step (h : Refines ws t s) (hinv : ReclaimInv es s)
    (hstep : timelyClients.step s e s') :
    ∃ ws' t', linkedThreads.step t e t' ∧ Refines ws' t' s' := by
  obtain ⟨hjoin, hclient, hcaller, hcall⟩ := hstep
  have hs := hinv.settled
  have hunfreed : s.running ∉ s.freed := hinv.not_mem_freed (by rw [hs.running_running]; decide)
  obtain ⟨ws', t', hlinked, h'⟩ :=
    petCall_refines h hs hunfreed (hclient.admissible hs.toCore) hjoin hcall
  exact ⟨ws', t', ⟨hcaller.trans h.running.symm, hlinked⟩, h'⟩

/-- In every such run on lists, the same calls on links end without a fault. -/
theorem refines_of_reach (h : timelyClients.Reach es s) :
    ∃ ws t, linkedThreads.Reach es t ∧ Refines ws t s := by
  refine Machine.Reach.history (I := fun es s => ∃ ws t, linkedThreads.Reach es t ∧ Refines ws t s)
    (fun s hs => ?_) (fun es s e s' hreach hrel hstep => ?_) h
  · have hs : s = UserThreads.petThreadInit := hs
    subst hs
    exact ⟨_, _, .init rfl, refines_init⟩
  · obtain ⟨ws, t, ht, hrel⟩ := hrel
    obtain ⟨ws', t', hlinked, hrel'⟩ := hrel.step (clients_reclaimInv hreach.of_guard) hstep
    exact ⟨ws', t', ht.step hlinked, hrel'⟩

/-- A run that goes through on lists and on links. -/
theorem refines_of_runs (h : clients.Reach es s) (ht : linkedThreads.Reach es t) :
    ∃ ws, Refines ws t s := by
  induction h generalizing t with
  | init hs =>
      have hs : _ = UserThreads.petThreadInit := hs
      subst hs
      generalize hes : [] = fs at ht
      cases ht with
      | init ht =>
          have ht : t = petThreadInit := ht
          subst ht
          exact ⟨_, refines_init⟩
      | step _ _ => simp at hes
  | @step es s s' e hreach hstep ih =>
      obtain ⟨u, hu, hlinked⟩ := ht.last_step
      obtain ⟨ws, hrel⟩ := ih hu
      have hinv := clients_reclaimInv hreach
      by_cases hjoin : JoinsFreed s e.call
      · -- on links such a join does not go through
        obtain ⟨p, -, hfault⟩ := petCall_joinsFreed hrel hinv.settled hjoin
        cases hfault.symm.trans hlinked.2
      · obtain ⟨ws', t', hstep', hrel'⟩ := hrel.step hinv ⟨hjoin, hstep⟩
        cases hlinked.2.symm.trans hstep'.2
        exact ⟨ws', hrel'⟩

/-- The library on its intrusive lists is the library on lists, up to a join that names a freed
thread. When the programs of the repository make their calls, no link to freed memory, to a poison
value or to null is followed and no assertion fails: the calls return the same values to the same
threads, and a walk over a list finds the threads that the model on lists has there, in that order.
A join that names a freed thread follows the links of its descriptor. -/
theorem linked_library_refines (h : timelyClients.Reach es s) :
    ∃ t, linkedThreads.Reach es t ∧ t.running = s.running ∧
      (∀ p, (t.thread p).state = (s.thread p).state ∧
        (t.thread p).returnReciever = (s.thread p).returnReciever) ∧
      t.heap.listForEach .readyList = .ok (s.readyList.map .list) ∧
      t.heap.listForEach .blockedList = .ok (s.blockedList.map .list) ∧
      (∀ p, Present s p → ∃ l : List Nat,
        t.heap.listForEach (.waitingForMeList p) = .ok (l.map .waiter) ∧
          l.map t.waiter = (s.thread p).waitingForMeList) ∧
      ∀ call, JoinsFreed s call →
        ∃ p ∈ s.freed, petCall t call = .error (.list (.pageFault (.waitingForMeList p))) := by
  obtain ⟨ws, t, ht, hrel⟩ := refines_of_reach h
  have hs := (clients_runInv h.of_guard).settled
  refine ⟨t, ht, hrel.running, fun p => ⟨hrel.state p, ?_⟩, hrel.holds.listForEach schedLists_ready,
    hrel.holds.listForEach schedLists_blocked, fun p hp => ⟨ws p, ?_, hrel.waiting p⟩,
    fun call hjoin => petCall_joinsFreed hrel hs hjoin⟩
  · rw [hrel.thread p]
  · exact hrel.holds.listForEach (schedLists_waiting hp)

end Runs

/-- Three threads, of which one waits for another until that one exits. The third one comes too
late. -/
theorem linked_library_refines_three_threads : ∃ es s t, timelyClients.Reach es s ∧
    linkedThreads.Reach es t ∧ t.heap.listForEach .readyList = .ok [.list 1] ∧
    t.heap.listForEach .blockedList = .ok [] ∧
    ClientCall s (.join 2) ∧
    petCall t (.join 2) = .error (.list (.pageFault (.waitingForMeList 2))) := by
  have hreach : timelyClients.Reach _ _ := (reach_replay
    (fun s e => ClientCall s e.call ∧ ¬ JoinsFreed s e.call)
    [.create, .create, .create, .run, .join 2, .exit .captureReturn 7] (by decide)).guard_guard
  obtain ⟨t, ht, -, -, hready, hblocked, -, hlate⟩ := linked_library_refines hreach
  obtain ⟨p, hp, hfault⟩ := hlate (.join 2) (by decide)
  have hp : p ∈ [2] := hp
  obtain rfl := List.mem_singleton.1 hp
  exact ⟨_, _, t, hreach, ht, hready, hblocked, by decide, hfault⟩

/-- The objects `struct waiting_thread` that were not freed. -/
def LinkedSched.waiting (t : LinkedSched) : List Nat :=
  (List.range t.waiterCount).filter fun w => w ∉ t.freedWaiters

theorem Refines.mem_waiting {ws : ThreadPtr → List Nat} {t : LinkedSched} {s : Sched}
    (h : Refines ws t s) (w : Nat) : w ∈ t.waiting ↔ ∃ p, w ∈ ws p := by
  simp only [LinkedSched.waiting, List.mem_filter, List.mem_range, decide_eq_true_eq]
  constructor
  · rintro ⟨hlt, hnot⟩
    exact ((h.accounted w).1 hlt).resolve_left hnot
  · rintro ⟨p, hw⟩
    exact ⟨h.lt_of_mem hw, fun hfreed => h.freed_once.2 w hfreed p hw⟩

/-- Two objects that were not freed are for different threads. -/
theorem Refines.waiter_inj {ws : ThreadPtr → List Nat} {t : LinkedSched} {s : Sched}
    (h : Refines ws t s) (hs : Core s) {v w : Nat} (hv : v ∈ t.waiting) (hw : w ∈ t.waiting)
    (heq : t.waiter v = t.waiter w) : v = w := by
  obtain ⟨p, hp⟩ := (h.mem_waiting v).1 hv
  obtain ⟨q, hq⟩ := (h.mem_waiting w).1 hw
  have hvp : t.waiter v ∈ (s.thread p).waitingForMeList := h.waiting p ▸ List.mem_map_of_mem hp
  have hwq : t.waiter w ∈ (s.thread q).waitingForMeList := h.waiting q ▸ List.mem_map_of_mem hq
  have hpq : p = q := hs.waiting_unique p q (t.waiter v) hvp (heq ▸ hwq)
  subst hpq
  have hnodup : ((ws p).map t.waiter).Nodup := h.waiting p ▸ hs.waiting_nodup p
  exact List.inj_on_of_nodup_map hnodup hp hq heq

theorem Refines.mem_map_waiting {ws : ThreadPtr → List Nat} {t : LinkedSched} {s : Sched}
    (h : Refines ws t s) (hs : Settled s) {p : ThreadPtr} :
    p ∈ t.waiting.map t.waiter ↔ p ∈ s.blockedList := by
  constructor
  · intro hmem
    obtain ⟨w, hw, rfl⟩ := List.mem_map.1 hmem
    obtain ⟨q, hq⟩ := (h.mem_waiting w).1 hw
    have hwq : t.waiter w ∈ (s.thread q).waitingForMeList := h.waiting q ▸ List.mem_map_of_mem hq
    obtain ⟨hlt, hblocked⟩ := hs.waiting_blocked q _ hwq
    refine (hs.mem_blocked _).2 ⟨fun heq => ?_, hlt, hblocked⟩
    rw [heq, hs.running_running] at hblocked
    cases hblocked
  · intro hmem
    obtain ⟨-, hlt, hblocked⟩ := (hs.mem_blocked p).1 hmem
    obtain ⟨q, -, hq⟩ := hs.blocked_waits p hlt hblocked
    rw [← h.waiting q] at hq
    obtain ⟨w, hw, rfl⟩ := List.mem_map.1 hq
    exact List.mem_map_of_mem ((h.mem_waiting w).2 ⟨q, hw⟩)

theorem Refines.waiterCount_eq {ws : ThreadPtr → List Nat} {t : LinkedSched} {s : Sched}
    (h : Refines ws t s) : t.waiterCount = t.freedWaiters.length + t.waiting.length := by
  have hfreed : ((List.range t.waiterCount).filter fun w => !decide (w ∉ t.freedWaiters)).Perm
      t.freedWaiters := by
    refine (List.perm_ext_iff_of_nodup (List.nodup_range.filter _) h.freed_once.1).2 fun w => ?_
    have hlt : w ∈ t.freedWaiters → w < t.waiterCount := fun hw => (h.accounted w).2 (Or.inl hw)
    simpa using hlt
  have hsplit := @List.length_eq_length_filter_add _ (List.range t.waiterCount)
    fun w => decide (w ∉ t.freedWaiters)
  rw [hfreed.length_eq, List.length_range, Nat.add_comm] at hsplit
  exact hsplit

/-- Every `struct waiting_thread` is freed at most once, and those that are not freed are one for
each blocked thread. -/
theorem waiting_threads_freed_once {es : List Event} {s : Sched} {t : LinkedSched}
    (h : clients.Reach es s) (ht : linkedThreads.Reach es t) :
    t.freedWaiters.Nodup ∧ (t.waiting.map t.waiter).Perm s.blockedList ∧
      t.waiterCount = t.freedWaiters.length + s.blockedList.length := by
  obtain ⟨ws, hrel⟩ := refines_of_runs h ht
  have hs := (clients_runInv h).settled
  have hperm : (t.waiting.map t.waiter).Perm s.blockedList := by
    refine (List.perm_ext_iff_of_nodup ?_ hs.blocked_nodup).2 fun p => ?_
    · exact (List.nodup_map_iff_inj_on (List.nodup_range.filter _)).2
        fun v hv w hw heq => hrel.waiter_inj hs.toCore hv hw heq
    · exact hrel.mem_map_waiting hs
  refine ⟨hrel.freed_once.1, hperm, ?_⟩
  rw [← hperm.length_eq, List.length_map]
  exact hrel.waiterCount_eq

/-- The object of the first join was freed when the thread exited, and that of the second is in
use. -/
theorem waiting_threads_freed_once_two_joins :
    ∃ es s t, clients.Reach es s ∧ linkedThreads.Reach es t ∧
    s.blockedList = [3] ∧ (t.waiting.map t.waiter).Perm [3] ∧
    t.waiterCount = t.freedWaiters.length + 1 := by
  have hreach : timelyClients.Reach _ _ := (reach_replay
    (fun s e => ClientCall s e.call ∧ ¬ JoinsFreed s e.call)
    [.create, .create, .create, .run, .join 2, .exit .captureReturn 7, .join 1]
    (by decide)).guard_guard
  obtain ⟨-, t, ht, -⟩ := refines_of_reach hreach
  obtain ⟨-, hperm, hcount⟩ := waiting_threads_freed_once hreach.of_guard ht
  exact ⟨_, _, t, hreach.of_guard, ht, rfl, hperm, hcount⟩

end PetKernel.UserThreads.Linked
