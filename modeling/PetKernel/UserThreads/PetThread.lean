import PetKernel.Library.Machine

/-!
# The user-level thread library

A model of `user_threads/pet_thread.c`. The state holds what the file keeps in static variables and
in thread descriptors: `thread_id_count`, `ready_list`, `blocked_list`, `running`, `stopped` and,
for each descriptor, its `id`, `state`, `waiting_for_me_list` and `return_reciever`. The two
intrusive lists are lists of descriptors; `list_del` takes a descriptor off the list that it is
linked in.

A library call of the running thread either returns to it or ends in `__switch_to_stack`. In the
second case control comes back in another thread, inside the call which that thread was switched out
of, or at the start of its function. `suspended` remembers that call, and `petCall` gives the state
in which user code runs again together with the `Return` it sees. A failed `assert`, a null
descriptor and a `list_del` of an unlinked descriptor end the program (`Fault`).

`free` of a descriptor leaves its contents readable, as `get_thread` expects of `stopped`. What
follows when the memory is used again is in `Reuse` and `LostWaiters`, and what follows when the
links in it are gone in `LinkedThreads`.
-/

set_option autoImplicit false

namespace PetKernel.UserThreads

open PetKernel.Library

/-- `thread_run_state_t`. -/
inductive ThreadRunState where
  | stopped
  | running
  | ready
  | blocked
deriving DecidableEq, Repr

/-- `pet_thread_id_t`, a `uintptr_t`. -/
abbrev PetThreadId := BitVec 64

/-- A `void *`, as passed to `pet_thread_exit` and delivered by `pet_thread_join`. -/
abbrev VoidPtr := BitVec 64

/-- `PET_MASTER_THREAD_ID`. -/
def petMasterThreadId : PetThreadId := 0

/-- The address of a thread descriptor: `0` is `&master_dummy_thread` and `n + 1` is the descriptor
that the `n`-th call of `pet_thread_create` takes from `malloc`. -/
abbrev ThreadPtr := Nat

/-- `&master_dummy_thread`. -/
abbrev masterDummyThread : ThreadPtr := 0

/-- `(pet_thread_id_t)thread_id_count` for the `int` that has been incremented to `n`. -/
def threadIdOfCount (n : Nat) : PetThreadId := (BitVec.ofNat 32 n).signExtend 64

/-- The fields of `struct pet_thread` that the scheduler reads. A `struct waiting_thread` is a link
to the waiting descriptor, so a chain of them is a list of descriptors. -/
structure PetThread where
  id : PetThreadId
  state : ThreadRunState
  waitingForMeList : List ThreadPtr
  returnReciever : VoidPtr
deriving DecidableEq, Repr

/-- The two ways in which a thread ends: it calls `pet_thread_exit`, or its function returns to
`__capture_return`. -/
inductive ExitPath where
  | petThreadExit
  | captureReturn
deriving DecidableEq, Repr

/-- The calls that user code makes; a return from the thread function counts as one. -/
inductive Call where
  | create
  | schedule
  | yieldTo (id : PetThreadId)
  | run
  | join (id : PetThreadId)
  | exit (path : ExitPath) (retVal : VoidPtr)
deriving DecidableEq, Repr

/-- A call that is suspended in `__switch_to_stack`, with the value it will return. -/
structure Frame where
  call : Call
  ret : Int
deriving DecidableEq, Repr

/-- A call that has returned to user code in `thread`, with its value and its out parameter: the new
id for `pet_thread_create`, `*ret_val` for `pet_thread_join`. -/
structure Return where
  thread : ThreadPtr
  call : Call
  ret : Int
  out : Option VoidPtr
deriving DecidableEq, Repr

/-- The assertions of `pet_thread.c`. -/
inductive Assertion where
  | quarantineWaiterBlocked
  | quarantineListEmpty
  | quarantineRunning
  | quarantineNotMaster
  | joinRunning
  | invokerTargetReady
  | invokerRunningNotReady
  | scheduleReady
deriving DecidableEq, Repr

/-- What ends the program: a failed assertion, a null descriptor in `pet_thread_cleanup`, a
`list_del` of a descriptor that is on no list, or a list head that was never initialised. -/
inductive Fault where
  | assertion (a : Assertion)
  | nullThread
  | notLinked
  | uninitialisedList
deriving DecidableEq, Repr

/-- The state of the library. `freed` lists the descriptors passed to `free`, in order. -/
@[ext]
structure Sched where
  threadIdCount : Nat
  thread : ThreadPtr → PetThread
  readyList : List ThreadPtr
  blockedList : List ThreadPtr
  running : ThreadPtr
  stopped : Option ThreadPtr
  suspended : ThreadPtr → Option Frame
  freed : List ThreadPtr

/-- The library after `pet_thread_init`. -/
def petThreadInit : Sched where
  threadIdCount := 1
  thread p := ⟨petMasterThreadId, if p = masterDummyThread then .running else .stopped, [], 0⟩
  readyList := []
  blockedList := []
  running := masterDummyThread
  stopped := none
  suspended _ := none
  freed := []

/-- `assert(c)`. -/
def assert (c : Prop) [Decidable c] (a : Assertion) : Except Fault Unit :=
  if c then .ok () else .error (.assertion a)

namespace Sched

/-- `p->state = st`. -/
def setState (s : Sched) (p : ThreadPtr) (st : ThreadRunState) : Sched :=
  { s with thread := Function.update s.thread p { s.thread p with state := st } }

/-- `p->return_reciever = v`. -/
def setReturnReciever (s : Sched) (p : ThreadPtr) (v : VoidPtr) : Sched :=
  { s with thread := Function.update s.thread p { s.thread p with returnReciever := v } }

/-- `p->waiting_for_me_list = ws`. -/
def setWaiting (s : Sched) (p : ThreadPtr) (ws : List ThreadPtr) : Sched :=
  { s with thread := Function.update s.thread p { s.thread p with waitingForMeList := ws } }

/-- `list_del(&p->list)`: takes `p` off the list that it is linked in. -/
def listDel (s : Sched) (p : ThreadPtr) : Except Fault Sched :=
  if p ∈ s.readyList then .ok { s with readyList := s.readyList.erase p }
  else if p ∈ s.blockedList then .ok { s with blockedList := s.blockedList.erase p }
  else .error .notLinked

/-- `p` is left inside the call `fr`. -/
def suspend (s : Sched) (p : ThreadPtr) (fr : Frame) : Sched :=
  { s with suspended := Function.update s.suspended p (some fr) }

end Sched

/-- `get_thread`. -/
def getThread (s : Sched) (id : PetThreadId) : Option ThreadPtr :=
  if id = petMasterThreadId then some masterDummyThread
  else if (s.thread s.running).id = id then some s.running
  else if s.stopped.any fun p => (s.thread p).id = id then s.stopped
  else (s.readyList.find? fun p => (s.thread p).id = id).or
    (s.blockedList.find? fun p => (s.thread p).id = id)

/-- `pet_thread_cleanup`, on the stack of the thread that is switched to. -/
def petThreadCleanup (s : Sched) (prevId : PetThreadId) : Except Fault Sched :=
  match getThread s prevId with
  | none => .error .nullThread
  | some prevThread =>
      if (s.thread prevThread).state = .stopped then
        .ok { s with freed := s.freed ++ [prevThread] }
      else .ok s

/-- What a call of the running thread returns once control is back in it. `pet_thread_join` reads
`return_reciever` only then. -/
def returnFrom (s : Sched) (fr : Frame) : Return where
  thread := s.running
  call := fr.call
  ret := fr.ret
  out :=
    match fr.call with
    | .join _ => some (s.thread s.running).returnReciever
    | _ => none

/-- The running thread goes on after `__switch_to_stack`: it returns from the call that it was
suspended in, or enters its function when it runs for the first time. -/
def resume (s : Sched) : Sched × Option Return :=
  match s.suspended s.running with
  | none => (s, none)
  | some fr =>
      ({ s with suspended := Function.update s.suspended s.running none }, some (returnFrom s fr))

/-- `__switch_to_stack` from `oldThread`, which is inside the call `fr`. -/
def switchToStack (s : Sched) (oldThread : ThreadPtr) (fr : Frame) :
    Except Fault (Sched × Option Return) := do
  let s₁ ← petThreadCleanup (s.suspend oldThread fr) (s.thread oldThread).id
  return resume s₁

/-- The `switch` of `__thread_invoker`: puts `oldThread` in the appropriate queue. -/
def enqueueOld (s : Sched) (oldThread : ThreadPtr) : Sched :=
  match (s.thread oldThread).state with
  | .running =>
      (if oldThread ≠ masterDummyThread then { s with readyList := s.readyList ++ [oldThread] }
        else s).setState oldThread .ready
  | .blocked => { s with blockedList := s.blockedList ++ [oldThread] }
  | .stopped => { s with stopped := some oldThread }
  | .ready => s

/-- The step of `__thread_invoker` that takes `thread` out of the ready list. The master thread is
never taken off a list. -/
def unlinkTarget (s : Sched) (thread : ThreadPtr) : Except Fault Sched :=
  if thread ≠ masterDummyThread then s.listDel thread else .ok s

/-- `__thread_invoker(thread)` inside the call `fr` of the running thread. -/
def threadInvoker (s : Sched) (thread : ThreadPtr) (fr : Frame) :
    Except Fault (Sched × Option Return) := do
  assert ((s.thread thread).state = .ready) .invokerTargetReady
  assert ((s.thread s.running).state ≠ .ready) .invokerRunningNotReady
  let oldThread := s.running
  let s₁ ← unlinkTarget { s with running := thread } thread
  switchToStack ((enqueueOld s₁ oldThread).setState thread .running) oldThread fr

/-- `pet_thread_schedule()` inside the call `call`. Only a direct call of `pet_thread_schedule`
looks at the value it returns: `9` after the master thread was invoked for want of a ready one. -/
def petThreadSchedule (s : Sched) (call : Call) : Except Fault (Sched × Option Return) :=
  if s.readyList = [] ∧ s.running ≠ masterDummyThread then
    threadInvoker s masterDummyThread ⟨call, if call = .schedule then 9 else 0⟩
  else
    match s.readyList with
    | [] => .ok (s, some (returnFrom s ⟨call, 0⟩))
    | pos :: _ => do
        assert ((s.thread pos).state = .ready) .scheduleReady
        threadInvoker s pos ⟨call, 0⟩

/-- `pet_thread_create`, as far as the scheduler is concerned. -/
def petThreadCreate (s : Sched) : Sched × Return :=
  let newThread := s.threadIdCount
  ({ s with
      threadIdCount := s.threadIdCount + 1
      thread := Function.update s.thread newThread ⟨threadIdOfCount newThread, .ready, [], 0⟩
      suspended := Function.update s.suspended newThread none
      readyList := s.readyList ++ [newThread] },
    ⟨s.running, .create, 0, some (threadIdOfCount newThread)⟩)

/-- `__yield_to`. -/
def yieldTo (s : Sched) (tgtThread : Option ThreadPtr) (call : Call) :
    Except Fault (Sched × Option Return) :=
  match tgtThread with
  | none => petThreadSchedule s call
  | some tgt =>
      if (s.thread tgt).state ≠ .ready then petThreadSchedule s call
      else threadInvoker s tgt ⟨call, 0⟩

/-- `pet_thread_yield_to`. -/
def petThreadYieldTo (s : Sched) (id : PetThreadId) : Except Fault (Sched × Option Return) :=
  yieldTo s (getThread s id) (.yieldTo id)

/-- `pet_thread_run`. -/
def petThreadRun (s : Sched) : Except Fault (Sched × Option Return) :=
  petThreadSchedule s .run

/-- `pet_thread_join`. The `waiting_for_me_list` of the master thread is never initialised, so a
join on it follows null links. -/
def petThreadJoin (s : Sched) (id : PetThreadId) : Except Fault (Sched × Option Return) :=
  match getThread s id with
  | none => .ok (s, some ⟨s.running, .join id, -1, none⟩)
  | some thread => do
      assert ((s.thread s.running).state = .running) .joinRunning
      let s₁ := s.setState s.running .blocked
      if thread = masterDummyThread then .error .uninitialisedList
      else
        petThreadSchedule
          (s₁.setWaiting thread ((s₁.thread thread).waitingForMeList ++ [s₁.running])) (.join id)

/-- The loop of `__quarantine` over the waiters of the running thread. -/
def wakeWaiters (retVal : VoidPtr) : List ThreadPtr → Sched → Except Fault Sched
  | [], s => .ok s
  | w :: ws, s => do
      assert ((s.thread w).state = .blocked) .quarantineWaiterBlocked
      let s₁ := (s.setReturnReciever w retVal).setState w .ready
      let s₂ ← s₁.listDel w
      let s₃ := { s₂ with readyList := s₂.readyList ++ [w] }
      wakeWaiters retVal ws (s₃.setWaiting s₃.running ws)

/-- `__quarantine` inside the call `call`. -/
def quarantine (s : Sched) (retVal : VoidPtr) (call : Call) :
    Except Fault (Sched × Option Return) := do
  let s₁ ← wakeWaiters retVal (s.thread s.running).waitingForMeList s
  assert ((s₁.thread s₁.running).waitingForMeList = []) .quarantineListEmpty
  assert ((s₁.thread s₁.running).state = .running) .quarantineRunning
  assert (s₁.running ≠ masterDummyThread) .quarantineNotMaster
  petThreadSchedule (s₁.setState s₁.running .stopped) call

/-- `pet_thread_exit`. -/
def petThreadExit (s : Sched) (retVal : VoidPtr) : Except Fault (Sched × Option Return) :=
  quarantine s retVal (.exit .petThreadExit retVal)

/-- `__capture_return`, which moves the value that the thread function left in `%rax` to `%rdi`. -/
def captureReturn (s : Sched) (rax : VoidPtr) : Except Fault (Sched × Option Return) :=
  quarantine s rax (.exit .captureReturn rax)

/-- The running thread makes `call`. -/
def petCall (s : Sched) : Call → Except Fault (Sched × Option Return)
  | .create => let r := petThreadCreate s; .ok (r.1, some r.2)
  | .schedule => petThreadSchedule s .schedule
  | .yieldTo id => petThreadYieldTo s id
  | .run => petThreadRun s
  | .join id => petThreadJoin s id
  | .exit .petThreadExit v => petThreadExit s v
  | .exit .captureReturn v => captureReturn s v

/-- One call as a step: who made it, and what returned to user code at its end. -/
structure Event where
  caller : ThreadPtr
  call : Call
  returned : Option Return
deriving DecidableEq, Repr

/-- The library as a machine: the running thread makes one call after the other. -/
def petThreads : Machine Sched Event where
  init s := s = petThreadInit
  step s e t := e.caller = s.running ∧ petCall s e.call = .ok (t, e.returned)

end PetKernel.UserThreads
