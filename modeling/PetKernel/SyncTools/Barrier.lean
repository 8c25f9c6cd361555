import PetKernel.Library.Threads

/-!
# The barrier

A model of `barrier_wait` of `sync_tools/locking.c`. Every load, store and locked instruction is a
step of its own; `bar->iterations++` is a load and a store.

The invariant `BarrierInv` has the number `φ` of phases that are over as a ghost. Relative to `φ` a
thread has not yet arrived, has arrived, or is late: it has arrived in the phase before and has not
seen `iterations` change. Either the phase is `Gathering`, and `cur_count` counts the arrivals, or
all have arrived and it is `ClosedBy` the last one, which resets `cur_count` and increments
`iterations`. Nobody else can arrive in between, since all have.

`barrier_phases` is the result, for every number of phases, also when `iterations` wraps.
-/

set_option autoImplicit false

namespace PetKernel.SyncTools

open PetKernel.Library

/-! ## The code -/

/-- `struct barrier`. -/
structure Barrier where
  iterations : BitVec 32
  curCount : BitVec 32
  initCount : BitVec 32
deriving DecidableEq, Repr

/-- `barrier_init`. -/
def barrierInit (count : BitVec 32) : Barrier := ⟨0, 0, count⟩

/-- `atomic_add_ret_prev`: the value returned, and what the word then holds. -/
def atomicAddRetPrev (value incVal : BitVec 32) : BitVec 32 × BitVec 32 := (value, value + incVal)

/-- Where a thread is: outside of `barrier_wait`, or at one of its steps, with `my_iter`, `prev` or
the loaded value of `iterations` where it is still needed. -/
inductive BarrierPc where
  | idle
  | loadIter
  | add (myIter : BitVec 32)
  | test (myIter prev : BitVec 32)
  | reset
  | incLoad
  | incStore (v : BitVec 32)
  | spin (myIter : BitVec 32)
deriving DecidableEq, Repr

/-- A thread; `calls` is the number of calls of `barrier_wait` that it has entered. -/
structure BarrierThread where
  pc : BarrierPc
  calls : Nat
deriving DecidableEq, Repr

/-- One step of a thread that calls `barrier_wait` again and again. -/
def barrierNext (bar : Barrier) (t : BarrierThread) (_ : Unit) : Option (Barrier × BarrierThread) :=
  match t.pc with
  | .idle => some (bar, ⟨.loadIter, t.calls + 1⟩)
  | .loadIter => some (bar, { t with pc := .add bar.iterations })
  | .add myIter =>
      let (prev, curCount) := atomicAddRetPrev bar.curCount 1
      some ({ bar with curCount := curCount }, { t with pc := .test myIter prev })
  | .test myIter prev =>
      some (bar, { t with pc := if prev = bar.initCount - 1 then .reset else .spin myIter })
  | .reset => some ({ bar with curCount := 0 }, { t with pc := .incLoad })
  | .incLoad => some (bar, { t with pc := .incStore bar.iterations })
  | .incStore v => some ({ bar with iterations := v + 1 }, { t with pc := .idle })
  | .spin myIter =>
      some (bar, { t with pc := if bar.iterations = myIter + 1 then .idle else .spin myIter })

/-- The threads `ι` at a barrier that has been initialised for their number. -/
def barriers (ι : Type) [DecidableEq ι] [Fintype ι] :
    Machine (Threads ι Barrier BarrierThread) (ι × Unit) :=
  interleave (fun s => s = ⟨barrierInit (BitVec.ofNat 32 (Fintype.card ι)), fun _ => ⟨.idle, 0⟩⟩)
    barrierNext

namespace BarrierThread

/-- The number of calls of `barrier_wait` from which the thread has returned. -/
def returned (t : BarrierThread) : Nat :=
  match t.pc with
  | .idle => t.calls
  | _ => t.calls - 1

/-- The thread has made the increment of `cur_count` of its current call. -/
def counted (t : BarrierThread) : Bool :=
  match t.pc with
  | .test _ _ | .reset | .incLoad | .incStore _ | .spin _ => true
  | _ => false

/-- The number of increments of `cur_count` that the thread has made. -/
def arrivals (t : BarrierThread) : Nat :=
  match t.pc with
  | .loadIter | .add _ => t.calls - 1
  | _ => t.calls

/-! ## Threads relative to a phase -/

/-- The thread has arrived in the phase after the first `φ`. -/
def arrived (φ : Nat) (t : BarrierThread) : Bool := t.counted ∧ t.calls = φ + 1

/-- The thread is the last one of `n`, and has not yet incremented `iterations`. -/
def closing (n : Nat) (t : BarrierThread) : Bool :=
  match t.pc with
  | .test _ prev => prev = BitVec.ofNat 32 n - 1
  | .reset | .incLoad | .incStore _ => true
  | _ => false

/-- The value of `cur_count` while the last one of `n` threads is at its steps. -/
def curCount (n : Nat) (t : BarrierThread) : BitVec 32 :=
  match t.pc with
  | .incLoad | .incStore _ => 0
  | _ => BitVec.ofNat 32 n

/-- What holds of a thread when `φ` phases are over. -/
def Ok (n φ : Nat) (t : BarrierThread) : Prop :=
  match t.pc with
  | .idle => t.calls = φ
  | .loadIter | .reset | .incLoad => t.calls = φ + 1
  | .add m => t.calls = φ + 1 ∧ m = BitVec.ofNat 32 φ
  | .test m prev => (t.calls = φ + 1 ∧ m = BitVec.ofNat 32 φ) ∨
      (t.calls = φ ∧ m + 1 = BitVec.ofNat 32 φ ∧ prev ≠ BitVec.ofNat 32 n - 1)
  | .incStore v => t.calls = φ + 1 ∧ v = BitVec.ofNat 32 φ
  | .spin m => (t.calls = φ + 1 ∧ m = BitVec.ofNat 32 φ) ∨
      (t.calls = φ ∧ m + 1 = BitVec.ofNat 32 φ)

variable {n φ : Nat} {t : BarrierThread}

theorem arrived_iff : t.arrived φ = true ↔ t.counted = true ∧ t.calls = φ + 1 := by
  simp [arrived]

theorem arrived_eq_false (h : t.calls = φ) : t.arrived φ = false := by
  simp [arrived, h]

theorem arrivals_of_counted (h : t.counted = true) : t.arrivals = t.calls := by
  obtain ⟨pc, calls⟩ := t
  cases pc with
  | loadIter => cases h
  | add m => cases h
  | _ => rfl

/-- Who closes the phase has arrived in it. -/
theorem Ok.arrived_of_closing (h : t.Ok n φ) (hclosing : t.closing n = true) :
    t.arrived φ = true := by
  obtain ⟨pc, calls⟩ := t
  rw [arrived_iff]
  cases pc with
  | test m prev =>
      rcases h with ⟨hcalls, -⟩ | ⟨-, -, hprev⟩
      · exact ⟨rfl, hcalls⟩
      · exact absurd (of_decide_eq_true hclosing) hprev
  | reset => exact ⟨rfl, h⟩
  | incLoad => exact ⟨rfl, h⟩
  | incStore v => exact ⟨rfl, h.1⟩
  | _ => cases hclosing

/-- A thread that has arrived and does not close is late in the next phase. -/
theorem Ok.late (h : t.Ok n φ) (harrived : t.arrived φ = true) (hclosing : t.closing n = false) :
    t.Ok n (φ + 1) := by
  obtain ⟨pc, calls⟩ := t
  obtain ⟨hcounted, hcalls⟩ := arrived_iff.1 harrived
  simp only at hcalls
  cases pc with
  | test m prev =>
      rcases h with ⟨-, hm⟩ | ⟨hold, -⟩
      · refine Or.inr ⟨hcalls, ?_, of_decide_eq_false hclosing⟩
        rw [hm, BitVec.ofNat_add]
        rfl
      · simp only at hold
        omega
  | spin m =>
      rcases h with ⟨-, hm⟩ | ⟨hold, -⟩
      · refine Or.inr ⟨hcalls, ?_⟩
        rw [hm, BitVec.ofNat_add]
        rfl
      · simp only at hold
        omega
  | idle => cases hcounted
  | loadIter => cases hcounted
  | add m => cases hcounted
  | _ => cases hclosing

/-- Every thread has entered the calls of all phases that are over, and has returned from no
other. -/
theorem Ok.bounds (h : t.Ok n φ) : t.returned ≤ φ ∧ φ ≤ t.calls := by
  obtain ⟨pc, calls⟩ := t
  cases pc <;> simp only [Ok, returned] at h ⊢ <;> omega

end BarrierThread

/-! ## The invariant -/

section Invariant

variable {ι : Type} [Fintype ι] {φ : Nat} {s : Threads ι Barrier BarrierThread} {i : ι}
  {x : BarrierThread}

/-- Not all have arrived: `cur_count` is the number of those that have. -/
structure Gathering (φ : Nat) (curCount : BitVec 32) (loc : ι → BarrierThread) : Prop where
  not_closing : ∀ i, (loc i).closing (Fintype.card ι) = false
  curCount : curCount = BitVec.ofNat 32 (count (BarrierThread.arrived φ) loc)
  lt : count (BarrierThread.arrived φ) loc < Fintype.card ι

/-- All have arrived, and thread `i` was the last: `cur_count` holds all arrivals until `i` resets
it. -/
structure ClosedBy (φ : Nat) (curCount : BitVec 32) (loc : ι → BarrierThread) (i : ι) : Prop where
  closing : (loc i).closing (Fintype.card ι) = true
  unique : ∀ j, (loc j).closing (Fintype.card ι) = true → j = i
  all : ∀ j, (loc j).arrived φ = true
  curCount : curCount = (loc i).curCount (Fintype.card ι)

/-- The barrier after `φ` phases. -/
structure BarrierInv (φ : Nat) (s : Threads ι Barrier BarrierThread) : Prop where
  initCount : s.shared.initCount = BitVec.ofNat 32 (Fintype.card ι)
  iterations : s.shared.iterations = BitVec.ofNat 32 φ
  ok : ∀ i, (s.loc i).Ok (Fintype.card ι) φ
  phase : Gathering φ s.shared.curCount s.loc ∨ ∃ i, ClosedBy φ s.shared.curCount s.loc i

theorem BarrierInv.ok_of (h : BarrierInv φ s) {x₀ : BarrierThread} (hloc : s.loc i = x₀) :
    x₀.Ok (Fintype.card ι) φ := hloc ▸ h.ok i

/-- A thread that has not arrived keeps the phase from being closed. -/
theorem BarrierInv.gathering (h : BarrierInv φ s) (hi : (s.loc i).arrived φ = false) :
    Gathering φ s.shared.curCount s.loc := by
  rcases h.phase with hg | ⟨k, hk⟩
  · exact hg
  · have hall := hk.all i
    rw [hi] at hall
    cases hall

/-- A thread at a step of the last one is the last one. -/
theorem BarrierInv.closedBy (h : BarrierInv φ s) {x₀ : BarrierThread} (hloc : s.loc i = x₀)
    (hi : x₀.closing (Fintype.card ι) = true) : ClosedBy φ s.shared.curCount s.loc i := by
  subst hloc
  rcases h.phase with hg | ⟨k, hk⟩
  · have hno := hg.not_closing i
    rw [hi] at hno
    cases hno
  · rw [hk.unique i hi]
    exact hk

variable [DecidableEq ι] {loc : ι → BarrierThread} {curCount : BitVec 32}

theorem BarrierInv.ok_update (h : BarrierInv φ s) (hx : x.Ok (Fintype.card ι) φ) (j : ι) :
    (Function.update s.loc i x j).Ok (Fintype.card ι) φ :=
  (Function.forall_update_iff s.loc fun _ t => t.Ok (Fintype.card ι) φ).2 ⟨hx, fun j _ => h.ok j⟩ j

/-- A step by which no thread arrives, while not all have arrived. -/
theorem Gathering.quiet (h : Gathering φ curCount loc) (harrived : x.arrived φ = (loc i).arrived φ)
    (hclosing : x.closing (Fintype.card ι) = false) :
    Gathering φ curCount (Function.update loc i x) := by
  have hcount := count_update_of_eq harrived
  refine ⟨?_, ?_, ?_⟩
  · exact (Function.forall_update_iff loc fun _ t => t.closing _ = false).2
      ⟨hclosing, fun j _ => h.not_closing j⟩
  · rw [hcount]
    exact h.curCount
  · rw [hcount]
    exact h.lt

/-- A step of another thread than the last one, when all have arrived. -/
theorem ClosedBy.quiet {k : ι} (h : ClosedBy φ curCount loc k)
    (harrived : x.arrived φ = (loc i).arrived φ) (hi : (loc i).closing (Fintype.card ι) = false)
    (hclosing : x.closing (Fintype.card ι) = false) :
    ClosedBy φ curCount (Function.update loc i x) k := by
  have hne : k ≠ i := by
    rintro rfl
    rw [h.closing] at hi
    cases hi
  refine ⟨?_, ?_, ?_, ?_⟩
  · rw [Function.update_of_ne hne]
    exact h.closing
  · refine (Function.forall_update_iff loc fun j t => t.closing _ = true → j = k).2
      ⟨fun hyes => ?_, fun j _ => h.unique j⟩
    rw [hclosing] at hyes
    cases hyes
  · exact (Function.forall_update_iff loc fun _ t => t.arrived φ = true).2
      ⟨harrived.trans (h.all i), fun j _ => h.all j⟩
  · rw [Function.update_of_ne hne]
    exact h.curCount

/-- A step from `x₀` to `x` that changes nothing shared, of a thread that is not the last one. -/
theorem BarrierInv.quiet (h : BarrierInv φ s) {x₀ : BarrierThread} (hloc : s.loc i = x₀)
    (hx : x.Ok (Fintype.card ι) φ) (harrived : x.arrived φ = x₀.arrived φ)
    (hi : x₀.closing (Fintype.card ι) = false) (hclosing : x.closing (Fintype.card ι) = false) :
    BarrierInv φ ⟨s.shared, Function.update s.loc i x⟩ := by
  subst hloc
  refine ⟨h.initCount, h.iterations, h.ok_update hx, ?_⟩
  rcases h.phase with hg | ⟨k, hk⟩
  · exact Or.inl (hg.quiet harrived hclosing)
  · exact Or.inr ⟨k, hk.quiet harrived hi hclosing⟩

/-- The increment of `cur_count`: the thread arrives, and it is the last one if it has seen the
count of all others. -/
theorem Gathering.add (h : Gathering φ curCount loc) (hcard : Fintype.card ι < 2 ^ 32)
    {m : BitVec 32} {calls : Nat} (hi : (loc i).arrived φ = false) (hcalls : calls = φ + 1) :
    Gathering φ (curCount + 1) (Function.update loc i ⟨.test m curCount, calls⟩) ∨
      ClosedBy φ (curCount + 1) (Function.update loc i ⟨.test m curCount, calls⟩) i := by
  have hcount : count (BarrierThread.arrived φ)
      (Function.update loc i ⟨.test m curCount, calls⟩) = count (BarrierThread.arrived φ) loc + 1 :=
    count_update_enter hi (BarrierThread.arrived_iff.2 ⟨rfl, hcalls⟩)
  have hcur : curCount + 1 = BitVec.ofNat 32 (count (BarrierThread.arrived φ) loc + 1) := by
    rw [h.curCount, BitVec.ofNat_add]
    rfl
  by_cases hlast : curCount = BitVec.ofNat 32 (Fintype.card ι) - 1
  · have hall : count (BarrierThread.arrived φ) loc + 1 = Fintype.card ι := by
      have hlt := h.lt
      have htoNat := congrArg BitVec.toNat (hcur.symm.trans (congrArg (· + 1) hlast))
      rw [BitVec.sub_add_cancel, BitVec.toNat_ofNat, BitVec.toNat_ofNat] at htoNat
      omega
    refine Or.inr ⟨?_, ?_, ?_, ?_⟩
    · rw [Function.update_self]
      exact decide_eq_true hlast
    · refine (Function.forall_update_iff loc fun j t => t.closing _ = true → j = i).2
        ⟨fun _ => rfl, fun j _ hyes => ?_⟩
      rw [h.not_closing j] at hyes
      cases hyes
    · exact count_eq_card_iff.1 (hcount.trans hall)
    · rw [Function.update_self]
      exact hcur.trans (congrArg _ hall)
  · refine Or.inl ⟨?_, ?_, ?_⟩
    · exact (Function.forall_update_iff loc fun _ t => t.closing _ = false).2
        ⟨decide_eq_false hlast, fun j _ => h.not_closing j⟩
    · rw [hcount]
      exact hcur
    · rw [hcount]
      refine Nat.lt_of_le_of_ne h.lt fun hall => hlast ?_
      rw [eq_comm, BitVec.sub_eq_iff_eq_add, ← hall, hcur]

/-- A step of the last thread from `x₀` to `x`, before its increment of `iterations`. -/
theorem BarrierInv.close (h : BarrierInv φ s) {x₀ : BarrierThread} (hloc : s.loc i = x₀)
    (hi : x₀.closing (Fintype.card ι) = true) (hx : x.Ok (Fintype.card ι) φ)
    (hclosing : x.closing (Fintype.card ι) = true) (hcur : curCount = x.curCount (Fintype.card ι)) :
    BarrierInv φ ⟨{ s.shared with curCount := curCount }, Function.update s.loc i x⟩ := by
  have hc := h.closedBy hloc hi
  refine ⟨h.initCount, h.iterations, h.ok_update hx, Or.inr ⟨i, ?_⟩⟩
  show ClosedBy φ curCount (Function.update s.loc i x) i
  refine ⟨?_, ?_, ?_, ?_⟩
  · rw [Function.update_self]
    exact hclosing
  · exact (Function.forall_update_iff s.loc fun j t => t.closing _ = true → j = i).2
      ⟨fun _ => rfl, fun j _ => hc.unique j⟩
  · exact (Function.forall_update_iff s.loc fun _ t => t.arrived φ = true).2
      ⟨hx.arrived_of_closing hclosing, fun j _ => hc.all j⟩
  · rw [Function.update_self]
    exact hcur

/-- The last thread has left: nobody has arrived in the next phase. -/
theorem ClosedBy.open (h : ClosedBy φ 0 loc i) {calls : Nat} :
    Gathering (φ + 1) 0 (Function.update loc i ⟨.idle, calls⟩) := by
  have hnone : count (BarrierThread.arrived (φ + 1)) (Function.update loc i ⟨.idle, calls⟩) =
      0 := by
    refine count_eq_zero_iff.2 ((Function.forall_update_iff loc
      fun _ t => t.arrived (φ + 1) = false).2 ⟨rfl, fun j _ => ?_⟩)
    have hcalls := (BarrierThread.arrived_iff.1 (h.all j)).2
    simp [BarrierThread.arrived, hcalls]
  refine ⟨?_, ?_, ?_⟩
  · exact (Function.forall_update_iff loc fun _ t => t.closing _ = false).2
      ⟨rfl, fun j hj => Bool.eq_false_iff.2 fun hyes => hj (h.unique j hyes)⟩
  · rw [hnone]
    rfl
  · rw [hnone]
    exact Fintype.card_pos_iff.2 ⟨i⟩

/-- A step of the last thread that leaves `cur_count` as it is. -/
theorem BarrierInv.close_quiet (h : BarrierInv φ s) {x₀ : BarrierThread} (hloc : s.loc i = x₀)
    (hi : x₀.closing (Fintype.card ι) = true) (hx : x.Ok (Fintype.card ι) φ)
    (hclosing : x.closing (Fintype.card ι) = true)
    (hcur : x₀.curCount (Fintype.card ι) = x.curCount (Fintype.card ι)) :
    BarrierInv φ ⟨s.shared, Function.update s.loc i x⟩ := by
  apply h.close hloc hi hx hclosing
  rw [(h.closedBy hloc hi).curCount, hloc]
  exact hcur

/-- The increment of `iterations`: the phase is over. -/
theorem BarrierInv.open (h : BarrierInv φ s) {v : BitVec 32} {calls : Nat}
    (hloc : s.loc i = ⟨.incStore v, calls⟩) :
    BarrierInv (φ + 1) ⟨{ s.shared with iterations := v + 1 },
      Function.update s.loc i ⟨.idle, calls⟩⟩ := by
  obtain ⟨hcalls, hv⟩ : calls = φ + 1 ∧ v = BitVec.ofNat 32 φ := h.ok_of hloc
  have hc := h.closedBy hloc rfl
  have hzero : s.shared.curCount = 0 := by
    rw [hc.curCount, hloc]
    rfl
  refine ⟨h.initCount, ?_, ?_, Or.inl ?_⟩
  · show v + 1 = _
    rw [hv, BitVec.ofNat_add]
    rfl
  · refine (Function.forall_update_iff s.loc fun _ t => t.Ok _ (φ + 1)).2 ⟨hcalls, fun j hj => ?_⟩
    exact (h.ok j).late (hc.all j) (Bool.eq_false_iff.2 fun hyes => hj (hc.unique j hyes))
  · show Gathering (φ + 1) s.shared.curCount _
    rw [hzero] at hc ⊢
    exact hc.open

/-- The last thread finds that it is the last one, and every other thread goes on to spin. -/
theorem BarrierInv.test (h : BarrierInv φ s) {m prev : BitVec 32} {calls : Nat}
    (hloc : s.loc i = ⟨.test m prev, calls⟩) :
    BarrierInv φ ⟨s.shared, Function.update s.loc i
      ⟨if prev = s.shared.initCount - 1 then .reset else .spin m, calls⟩⟩ := by
  have hok : (calls = φ + 1 ∧ m = BitVec.ofNat 32 φ) ∨ (calls = φ ∧ m + 1 = BitVec.ofNat 32 φ ∧
      prev ≠ BitVec.ofNat 32 (Fintype.card ι) - 1) := h.ok_of hloc
  rw [h.initCount]
  by_cases hlast : prev = BitVec.ofNat 32 (Fintype.card ι) - 1
  · rw [if_pos hlast]
    refine h.close_quiet hloc (decide_eq_true hlast) ?_ rfl rfl
    rcases hok with ⟨hcalls, -⟩ | ⟨-, -, hne⟩
    · exact hcalls
    · exact absurd hlast hne
  · rw [if_neg hlast]
    refine h.quiet hloc ?_ rfl (decide_eq_false hlast) rfl
    exact hok.imp id fun hlate => ⟨hlate.1, hlate.2.1⟩

/-- A turn of the spin loop. -/
theorem BarrierInv.spin (h : BarrierInv φ s) {m : BitVec 32} {calls : Nat}
    (hloc : s.loc i = ⟨.spin m, calls⟩) :
    BarrierInv φ ⟨s.shared, Function.update s.loc i
      ⟨if s.shared.iterations = m + 1 then .idle else .spin m, calls⟩⟩ := by
  have hok : (calls = φ + 1 ∧ m = BitVec.ofNat 32 φ) ∨ (calls = φ ∧ m + 1 = BitVec.ofNat 32 φ) :=
    h.ok_of hloc
  by_cases hends : s.shared.iterations = m + 1
  · rw [if_pos hends]
    -- the phase of the call is over, since `m` is not `m + 1`
    have hlate : calls = φ := by
      rcases hok with ⟨-, hm⟩ | ⟨hcalls, -⟩
      · rw [h.iterations, ← hm] at hends
        exact absurd hends (by simp)
      · exact hcalls
    refine h.quiet hloc hlate ?_ rfl rfl
    rw [BarrierThread.arrived_eq_false hlate, BarrierThread.arrived_eq_false hlate]
  · rw [if_neg hends]
    exact h.quiet hloc hok rfl rfl rfl

/-- A step keeps the invariant, and the last step of a phase ends it. -/
theorem BarrierInv.step (h : BarrierInv φ s) (hcard : Fintype.card ι < 2 ^ 32) {a : Unit}
    {r : Barrier × BarrierThread} (hnext : barrierNext s.shared (s.loc i) a = some r) :
    ∃ φ', BarrierInv φ' ⟨r.1, Function.update s.loc i r.2⟩ := by
  obtain ⟨⟨pc, calls⟩, hloc⟩ : ∃ x₀, s.loc i = x₀ := ⟨_, rfl⟩
  have hok := h.ok_of hloc
  rw [hloc] at hnext
  cases pc with
  | idle =>
      cases hnext
      exact ⟨φ, h.quiet hloc (congrArg (· + 1) hok) rfl rfl rfl⟩
  | loadIter =>
      cases hnext
      exact ⟨φ, h.quiet hloc ⟨hok, h.iterations⟩ rfl rfl rfl⟩
  | add m =>
      cases hnext
      have hi : (s.loc i).arrived φ = false := by
        rw [hloc]
        rfl
      refine ⟨φ, h.initCount, h.iterations, h.ok_update (Or.inl hok), ?_⟩
      rcases (h.gathering hi).add hcard hi hok.1 with hg | hc
      · exact Or.inl hg
      · exact Or.inr ⟨i, hc⟩
  | test m prev =>
      cases hnext
      exact ⟨φ, h.test hloc⟩
  | reset =>
      cases hnext
      exact ⟨φ, h.close hloc rfl hok rfl rfl⟩
  | incLoad =>
      cases hnext
      exact ⟨φ, h.close_quiet hloc rfl ⟨hok, h.iterations⟩ rfl rfl⟩
  | incStore v =>
      cases hnext
      exact ⟨φ + 1, h.open hloc⟩
  | spin m =>
      cases hnext
      exact ⟨φ, h.spin hloc⟩

theorem barriers_inv [Nonempty ι] (hcard : Fintype.card ι < 2 ^ 32) {es : List (ι × Unit)}
    (hrun : (barriers ι).Reach es s) : ∃ φ, BarrierInv φ s := by
  refine hrun.invariant (I := fun s => ∃ φ, BarrierInv φ s) ?_ ?_
  · rintro s rfl
    have hnone : count (BarrierThread.arrived 0) (fun _ : ι => ⟨.idle, 0⟩) = 0 :=
      count_eq_zero_iff.2 fun _ => rfl
    refine ⟨0, rfl, rfl, fun _ => rfl, Or.inl ⟨fun _ => rfl, ?_, ?_⟩⟩
    · rw [hnone]
      rfl
    · rw [hnone]
      exact Fintype.card_pos
  · rintro s ⟨i, a⟩ t ⟨φ, h⟩ ⟨r, hnext, rfl⟩
    exact h.step hcard hnext

/-- The phases of a barrier, for any number of calls of `barrier_wait` in any interleaving. No
thread has returned from a call that another one has not entered. A thread in the spin loop finds in
`iterations` its `my_iter` or `my_iter + 1`. And when `cur_count` is about to be reset it holds one
arrival of each thread, made in the call of the same number: none is of the next phase. -/
theorem barrier_phases [Nonempty ι] (hcard : Fintype.card ι < 2 ^ 32) (es : List (ι × Unit))
    (s : Threads ι Barrier BarrierThread) (hrun : (barriers ι).Reach es s) :
    (∀ i j, (s.loc i).returned ≤ (s.loc j).calls) ∧
      (∀ i m, (s.loc i).pc = .spin m → s.shared.iterations = m ∨ s.shared.iterations = m + 1) ∧
      ∀ i, (s.loc i).pc = .reset →
        s.shared.curCount = BitVec.ofNat 32 (Fintype.card ι) ∧
          ∀ j, (s.loc j).arrivals = (s.loc i).calls := by
  obtain ⟨φ, h⟩ := barriers_inv hcard hrun
  refine ⟨fun i j => ?_, fun i m hpc => ?_, fun i hpc => ?_⟩
  · exact (h.ok i).bounds.1.trans (h.ok j).bounds.2
  · have hok := h.ok i
    rw [BarrierThread.Ok, hpc] at hok
    rcases hok with ⟨-, hm⟩ | ⟨-, hm⟩
    · exact Or.inl (h.iterations.trans hm.symm)
    · exact Or.inr (h.iterations.trans hm.symm)
  · have hc := h.closedBy (i := i) rfl (by simp [BarrierThread.closing, hpc])
    refine ⟨?_, fun j => ?_⟩
    · rw [hc.curCount, BarrierThread.curCount, hpc]
    · obtain ⟨hcounted, hcalls⟩ := BarrierThread.arrived_iff.1 (hc.all j)
      rw [(BarrierThread.arrived_iff.1 (hc.all i)).2, ← hcalls]
      exact BarrierThread.arrivals_of_counted hcounted

end Invariant

/-- Two threads: the first one spins, and the second one is about to reset `cur_count`. -/
theorem barrier_phases_at_reset :
    ∃ es s, (barriers (Fin 2)).Reach es s ∧ (s.loc 0).pc = .spin 0 ∧ (s.loc 1).pc = .reset ∧
      s.shared.curCount = 2 ∧ (s.loc 0).arrivals = (s.loc 1).calls := by
  have hrun : ∃ s, runThreads barrierNext (fun _ (_ : Fin 2 × Unit) => True)
      [(0, ()), (0, ()), (1, ()), (1, ()), (0, ()), (0, ()), (1, ()), (1, ())]
      ⟨barrierInit (BitVec.ofNat 32 (Fintype.card (Fin 2))), fun _ => ⟨.idle, 0⟩⟩ = some s ∧
      (s.loc 0).pc = .spin 0 ∧ (s.loc 1).pc = .reset := ⟨_, rfl, by decide⟩
  obtain ⟨s, hsome, hspin, hreset⟩ := hrun
  have hreach := (reach_of_runThreads (barriers (Fin 2)).init rfl hsome).of_guard
  have h := (barrier_phases (by decide) _ s hreach).2.2 1 hreset
  exact ⟨_, s, hreach, hspin, hreset, h.1, h.2 0⟩

end PetKernel.SyncTools
