import PetKernel.SyncTools.Barrier
import PetKernel.SyncTools.RwLock

/-!
# Rounds that are kept apart by a barrier

A model of `ex2_fn` of `sync_tools/driver.c`. Each thread goes through rounds: it checks that
`global_value` is `num_threads * i`, waits at the barrier, adds one, and waits at the barrier again.
The check needs both waits. The first one keeps the increments of a round from the checks of the
same round, and the second one from the checks of the next round.

The barrier of a run is a run of the machine of `Barrier`, so that its invariant is at hand
(`Ex2Inv.barrier`). A thread knows from the number of its calls of `barrier_wait` how often it has
incremented the value, up to one (`Ex2Thread.Ok.adds_bounds`), and at a check there is no doubt left
(`Ex2Inv.adds_eq`). `barrier_test_passes` is the result: no check fails, and no thread can be left
waiting.
-/

set_option autoImplicit false

namespace PetKernel.SyncTools

open PetKernel.Library

/-! ## The code -/

/-- The barrier and `global_value`. -/
structure Ex2Shared where
  bar : Barrier
  globalValue : BitVec 32
deriving DecidableEq, Repr

/-- Where a thread of `ex2_fn` is: at the check, in the first call of `barrier_wait`, at
`atomic_add`, in the second call, or at the end. -/
inductive Ex2Site where
  | test
  | first
  | add
  | second
  | done
deriving DecidableEq, Repr

/-- A thread of `ex2_fn`; `ret` is set when a check has failed. -/
structure Ex2Thread where
  site : Ex2Site
  i : Nat
  bar : BarrierThread
  ret : Bool
deriving DecidableEq, Repr

/-- The test of the loop. -/
def ex2Loop (iterations i : Nat) : Ex2Site := if i < iterations then .test else .done

/-- One step of `ex2_fn`. -/
def ex2Next (numThreads iterations : Nat) (g : Ex2Shared) (t : Ex2Thread) (_ : Unit) :
    Option (Ex2Shared × Ex2Thread) :=
  match t.site with
  | .test =>
      some (g, { t with
        site := .first
        ret := t.ret || g.globalValue ≠ BitVec.ofNat 32 (numThreads * t.i) })
  | .first =>
      (barrierNext g.bar t.bar ()).map fun (bar, x) =>
        ({ g with bar := bar },
          { t with bar := x, site := if x.pc = .idle then .add else .first })
  | .add => some ({ g with globalValue := atomicAdd g.globalValue 1 }, { t with site := .second })
  | .second =>
      (barrierNext g.bar t.bar ()).map fun (bar, x) =>
        ({ g with bar := bar },
          if x.pc = .idle then { t with bar := x, site := ex2Loop iterations (t.i + 1), i := t.i +
            1 }
          else { t with bar := x })
  | .done => none

/-- The threads `ι` in `ex2_fn`, with a barrier for their number. -/
def ex2Threads (ι : Type) [DecidableEq ι] [Fintype ι] (iterations : Nat) :
    Machine (Threads ι Ex2Shared Ex2Thread) (ι × Unit) :=
  interleave (fun s => s = ⟨⟨barrierInit (BitVec.ofNat 32 (Fintype.card ι)), 0⟩,
    fun _ => ⟨ex2Loop iterations 0, 0, ⟨.idle, 0⟩, false⟩⟩) (ex2Next (Fintype.card ι) iterations)

/-! ## Threads -/

/-- A step of `barrier_wait` begins a call, or is one of a call that has begun. -/
theorem barrierNext_calls {bar : Barrier} {t : BarrierThread} {r : Barrier × BarrierThread}
    (h : barrierNext bar t () = some r) :
    (t.pc = .idle ∧ r.2.pc ≠ .idle ∧ r.2.calls = t.calls + 1) ∨
      (t.pc ≠ .idle ∧ r.2.calls = t.calls) := by
  obtain ⟨pc, calls⟩ := t
  cases pc with
  | idle =>
      cases h
      exact Or.inl ⟨rfl, BarrierPc.noConfusion, rfl⟩
  | _ =>
      cases h
      exact Or.inr ⟨BarrierPc.noConfusion, rfl⟩

/-- The thread is at its call of `barrier_wait` after `c` others: about to enter it, or in it. -/
def BarrierThread.AtCall (c : Nat) (x : BarrierThread) : Prop :=
  (x.pc = .idle ∧ x.calls = c) ∨ (x.pc ≠ .idle ∧ x.calls = c + 1)

/-- A step in a call either ends it or does not. -/
theorem BarrierThread.AtCall.step {c : Nat} {bar : Barrier} {x : BarrierThread}
    {r : Barrier × BarrierThread} (h : x.AtCall c) (hnext : barrierNext bar x () = some r) :
    r.2.calls = c + 1 := by
  rcases barrierNext_calls hnext with ⟨hpc, -, hone⟩ | ⟨hpc, hsame⟩
  · rcases h with ⟨-, hx⟩ | ⟨hx, -⟩
    · exact hone.trans (congrArg (· + 1) hx)
    · exact absurd hpc hx
  · rcases h with ⟨hx, -⟩ | ⟨-, hx⟩
    · exact absurd hx hpc
    · exact hsame.trans hx

namespace Ex2Thread

/-- The number of increments that the thread has made. -/
def adds (t : Ex2Thread) : Nat :=
  match t.site with
  | .second => t.i + 1
  | _ => t.i

/-- The calls of `barrier_wait` fit the place of the thread. -/
def Ok (iterations : Nat) (t : Ex2Thread) : Prop :=
  match t.site with
  | .test => t.bar.pc = .idle ∧ t.bar.calls = 2 * t.i ∧ t.i < iterations
  | .first => t.bar.AtCall (2 * t.i) ∧ t.i < iterations
  | .add => t.bar.pc = .idle ∧ t.bar.calls = 2 * t.i + 1 ∧ t.i < iterations
  | .second => t.bar.AtCall (2 * t.i + 1) ∧ t.i < iterations
  | .done => t.bar.pc = .idle ∧ t.bar.calls = 2 * t.i ∧ t.i = iterations

variable {iterations : Nat} {t : Ex2Thread}

theorem returned_of_idle {b : BarrierThread} (h : b.pc = .idle) : b.returned = b.calls := by
  rw [BarrierThread.returned, h]

theorem returned_of_ne_idle {b : BarrierThread} (h : b.pc ≠ .idle) : b.returned = b.calls - 1 := by
  obtain ⟨pc, calls⟩ := b
  cases pc with
  | idle => exact absurd rfl h
  | _ => rfl

/-- What the calls of `barrier_wait` say about the increments. -/
theorem Ok.adds_bounds (h : t.Ok iterations) :
    2 * t.adds ≤ t.bar.returned + 1 ∧ t.bar.calls ≤ 2 * t.adds + 1 := by
  obtain ⟨site, i, bar, ret⟩ := t
  cases site with
  | test =>
      obtain ⟨hpc, hcalls, -⟩ := h
      rw [returned_of_idle hpc]
      simp only [adds] at hcalls ⊢
      omega
  | first =>
      obtain ⟨⟨hpc, hcalls⟩ | ⟨hpc, hcalls⟩, -⟩ := h
      · rw [returned_of_idle hpc]
        simp only [adds] at hcalls ⊢
        omega
      · rw [returned_of_ne_idle hpc]
        simp only [adds] at hcalls ⊢
        omega
  | add =>
      obtain ⟨hpc, hcalls, -⟩ := h
      rw [returned_of_idle hpc]
      simp only [adds] at hcalls ⊢
      omega
  | second =>
      obtain ⟨⟨hpc, hcalls⟩ | ⟨hpc, hcalls⟩, -⟩ := h
      · rw [returned_of_idle hpc]
        simp only [adds] at hcalls ⊢
        omega
      · rw [returned_of_ne_idle hpc]
        simp only [adds] at hcalls ⊢
        omega
  | done =>
      obtain ⟨hpc, hcalls, -⟩ := h
      rw [returned_of_idle hpc]
      simp only [adds] at hcalls ⊢
      omega

/-- A thread calls `barrier_wait` twice in a round. -/
theorem Ok.calls_le (h : t.Ok iterations) : t.bar.calls ≤ 2 * iterations := by
  obtain ⟨site, i, bar, ret⟩ := t
  cases site <;> simp only [Ok, BarrierThread.AtCall] at h ⊢ <;> omega

/-- At the head of the loop. -/
theorem ok_ex2Loop {k : Nat} {bar : BarrierThread} {ret : Bool} (hidle : bar.pc = .idle)
    (hcalls : bar.calls = 2 * k) (hk : k ≤ iterations) :
    (Ex2Thread.mk (ex2Loop iterations k) k bar ret).Ok iterations := by
  by_cases hlt : k < iterations
  · rw [ex2Loop, if_pos hlt]
    exact ⟨hidle, hcalls, hlt⟩
  · rw [ex2Loop, if_neg hlt]
    exact ⟨hidle, hcalls, Nat.le_antisymm hk (Nat.not_lt.1 hlt)⟩

theorem adds_ex2Loop {k : Nat} {bar : BarrierThread} {ret : Bool} :
    (Ex2Thread.mk (ex2Loop iterations k) k bar ret).adds = k := by
  by_cases hlt : k < iterations
  · rw [ex2Loop, if_pos hlt]
    rfl
  · rw [ex2Loop, if_neg hlt]
    rfl

end Ex2Thread

/-! ## The invariant -/

section Invariant

variable {ι : Type} [Fintype ι] {iterations : Nat} {s : Threads ι Ex2Shared Ex2Thread} {i : ι}

/-- What the threads do at the barrier. -/
def atBarrier (s : Threads ι Ex2Shared Ex2Thread) : Threads ι Barrier BarrierThread :=
  ⟨s.shared.bar, fun i => (s.loc i).bar⟩

/-- The barrier is in order, the threads are where their calls say, the value counts the increments,
and no check has failed. -/
structure Ex2Inv (iterations : Nat) (s : Threads ι Ex2Shared Ex2Thread) : Prop where
  barrier : ∃ φ, BarrierInv φ (atBarrier s)
  ok : ∀ i, (s.loc i).Ok iterations
  value : s.shared.globalValue = BitVec.ofNat 32 (total Ex2Thread.adds s.loc)
  ret : ∀ i, (s.loc i).ret = false

/-- At a check all threads have made the same number of increments. -/
theorem Ex2Inv.adds_eq (h : Ex2Inv iterations s) (hidle : (s.loc i).bar.pc = .idle)
    (hcalls : (s.loc i).bar.calls = 2 * (s.loc i).i) (j : ι) : (s.loc j).adds = (s.loc i).i := by
  obtain ⟨φ, hbar⟩ := h.barrier
  have hi : (s.loc i).bar.returned ≤ φ ∧ φ ≤ (s.loc i).bar.calls := (hbar.ok i).bounds
  have hj : (s.loc j).bar.returned ≤ φ ∧ φ ≤ (s.loc j).bar.calls := (hbar.ok j).bounds
  have hadds := (h.ok j).adds_bounds
  rw [Ex2Thread.returned_of_idle hidle] at hi
  omega

theorem Ex2Inv.value_eq (h : Ex2Inv iterations s) (hidle : (s.loc i).bar.pc = .idle)
    (hcalls : (s.loc i).bar.calls = 2 * (s.loc i).i) :
    s.shared.globalValue = BitVec.ofNat 32 (Fintype.card ι * (s.loc i).i) := by
  have hsum : total Ex2Thread.adds s.loc = Fintype.card ι * (s.loc i).i := by
    rw [total, Finset.sum_congr rfl fun j _ => h.adds_eq hidle hcalls j, Finset.sum_const,
      Finset.card_univ, smul_eq_mul]
  rw [h.value, hsum]

variable [DecidableEq ι]

omit [Fintype ι] in
/-- The barrier as it is after a step of a thread. -/
theorem atBarrier_update (g : Ex2Shared) (x : Ex2Thread) :
    atBarrier ⟨g, Function.update s.loc i x⟩ =
      ⟨g.bar, Function.update (atBarrier s).loc i x.bar⟩ := by
  have hloc : (fun j => (Function.update s.loc i x j).bar) =
      Function.update (fun j => (s.loc j).bar) i x.bar :=
    Function.comp_update Ex2Thread.bar s.loc i x
  exact congrArg (Threads.mk g.bar) hloc

/-- A step that neither fails a check nor touches the value. -/
theorem Ex2Inv.update (h : Ex2Inv iterations s) {g : Ex2Shared} {x : Ex2Thread}
    (hbar : ∃ φ, BarrierInv φ ⟨g.bar, Function.update (atBarrier s).loc i x.bar⟩)
    (hok : x.Ok iterations) (hret : x.ret = false)
    (hvalue : g.globalValue + BitVec.ofNat 32 (s.loc i).adds =
      s.shared.globalValue + BitVec.ofNat 32 x.adds) :
    Ex2Inv iterations ⟨g, Function.update s.loc i x⟩ := by
  refine ⟨?_, ?_, ?_, ?_⟩
  · rw [atBarrier_update]
    exact hbar
  · exact (Function.forall_update_iff s.loc fun _ t => t.Ok iterations).2 ⟨hok, fun j _ => h.ok j⟩
  · have hsum := congrArg (BitVec.ofNat 32) (total_update Ex2Thread.adds s.loc i x)
    rw [BitVec.ofNat_add, BitVec.ofNat_add, ← h.value, ← hvalue] at hsum
    exact (BitVec.add_left_inj _).1 hsum.symm
  · exact (Function.forall_update_iff s.loc fun _ t => t.ret = false).2 ⟨hret, fun j _ => h.ret j⟩

/-- A step outside of `barrier_wait`. -/
theorem Ex2Inv.same_bar (h : Ex2Inv iterations s) {x : BarrierThread} (hx : x = (s.loc i).bar) :
    ∃ φ, BarrierInv φ ⟨s.shared.bar, Function.update (atBarrier s).loc i x⟩ := by
  obtain ⟨φ, hbar⟩ := h.barrier
  have hself : Function.update (atBarrier s).loc i x = (atBarrier s).loc := by
    rw [hx]
    exact Function.update_eq_self i (atBarrier s).loc
  rw [hself]
  exact ⟨φ, hbar⟩

/-- A step in `barrier_wait`. -/
theorem Ex2Inv.wait (hcard : Fintype.card ι < 2 ^ 32) (h : Ex2Inv iterations s)
    {b : Barrier × BarrierThread} (hb : barrierNext s.shared.bar (s.loc i).bar () = some b) :
    ∃ φ, BarrierInv φ ⟨b.1, Function.update (atBarrier s).loc i b.2⟩ := by
  obtain ⟨φ, hbar⟩ := h.barrier
  exact hbar.step hcard hb

/-- Every step of `ex2_fn`. -/
theorem Ex2Inv.step (hcard : Fintype.card ι < 2 ^ 32) (h : Ex2Inv iterations s)
    {r : Ex2Shared × Ex2Thread}
    (hnext : ex2Next (Fintype.card ι) iterations s.shared (s.loc i) () = some r) :
    Ex2Inv iterations ⟨r.1, Function.update s.loc i r.2⟩ := by
  obtain ⟨⟨site, k, bar, ret⟩, hloc⟩ : ∃ x, s.loc i = x := ⟨_, rfl⟩
  have hok : (Ex2Thread.mk site k bar ret).Ok iterations := hloc ▸ h.ok i
  have hret : ret = false := by
    have hi := h.ret i
    rw [hloc] at hi
    exact hi
  have hbar : (s.loc i).bar = bar := congrArg Ex2Thread.bar hloc
  rw [hloc] at hnext
  cases site with
  | test =>
      have hvalue : s.shared.globalValue = BitVec.ofNat 32 (Fintype.card ι * k) := by
        have hcheck := h.value_eq (i := i)
        rw [hloc] at hcheck
        exact hcheck hok.1 hok.2.1
      cases hnext
      refine h.update (h.same_bar hbar.symm) ⟨Or.inl ⟨hok.1, hok.2.1⟩, hok.2.2⟩ ?_ ?_
      · simp [hvalue, hret]
      · rw [hloc]
        rfl
  | first =>
      obtain ⟨⟨b, x⟩, hb, rfl⟩ := Option.map_eq_some_iff.1 hnext
      have hcalls : x.calls = 2 * k + 1 := hok.1.step hb
      by_cases hidle : x.pc = .idle
      · simp only [if_pos hidle]
        refine h.update (h.wait hcard (hbar ▸ hb)) ⟨hidle, hcalls, hok.2⟩ hret ?_
        rw [hloc]
        rfl
      · simp only [if_neg hidle]
        refine h.update (h.wait hcard (hbar ▸ hb)) ⟨Or.inr ⟨hidle, hcalls⟩, hok.2⟩ hret ?_
        rw [hloc]
        rfl
  | add =>
      cases hnext
      refine h.update (h.same_bar hbar.symm) ⟨Or.inl ⟨hok.1, hok.2.1⟩, hok.2.2⟩ hret ?_
      rw [hloc]
      simp only [Ex2Thread.adds, atomicAdd]
      rw [BitVec.ofNat_add, BitVec.add_assoc, BitVec.add_comm (1 : BitVec 32)]
      rfl
  | second =>
      obtain ⟨⟨b, x⟩, hb, rfl⟩ := Option.map_eq_some_iff.1 hnext
      have hcalls : x.calls = 2 * k + 1 + 1 := hok.1.step hb
      by_cases hidle : x.pc = .idle
      · simp only [if_pos hidle]
        refine h.update (h.wait hcard (hbar ▸ hb)) (Ex2Thread.ok_ex2Loop hidle hcalls hok.2) hret ?_
        rw [hloc, Ex2Thread.adds_ex2Loop]
        rfl
      · simp only [if_neg hidle]
        refine h.update (h.wait hcard (hbar ▸ hb)) ⟨Or.inr ⟨hidle, hcalls⟩, hok.2⟩ hret ?_
        rw [hloc]
        rfl
  | done => cases hnext

theorem ex2Threads_inv [Nonempty ι] (hcard : Fintype.card ι < 2 ^ 32) {es : List (ι × Unit)}
    (hrun : (ex2Threads ι iterations).Reach es s) : Ex2Inv iterations s := by
  refine hrun.invariant ?_ ?_
  · rintro s rfl
    refine ⟨barriers_inv hcard (.init rfl), fun i => ?_, ?_, fun i => rfl⟩
    · exact Ex2Thread.ok_ex2Loop rfl rfl (Nat.zero_le _)
    · have hsum : total Ex2Thread.adds
          (fun _ : ι => ⟨ex2Loop iterations 0, 0, ⟨.idle, 0⟩, false⟩) = 0 :=
        Finset.sum_eq_zero fun i _ => Ex2Thread.adds_ex2Loop
      rw [hsum]
      rfl
  · rintro s ⟨i, a⟩ t h ⟨r, hnext, rfl⟩
    exact h.step hcard hnext

/-! ## Progress -/

/-- How many more steps a call of `barrier_wait` takes at most, turns of the spin loop apart. -/
def BarrierPc.rank : BarrierPc → Nat
  | .idle => 8
  | .loadIter => 7
  | .add _ => 6
  | .test _ _ => 5
  | .reset => 4
  | .incLoad => 3
  | .incStore _ => 2
  | .spin _ => 1

theorem BarrierPc.rank_pos (pc : BarrierPc) : 0 < pc.rank := by
  cases pc <;> exact Nat.succ_pos _

/-- How many more steps `ex2_fn` takes at most, turns of the spin loop apart. -/
def Ex2Thread.rank (iterations : Nat) (t : Ex2Thread) : Nat :=
  match t.site with
  | .test => 18 * (iterations - t.i)
  | .first => 18 * (iterations - (t.i + 1)) + (9 + t.bar.pc.rank)
  | .add => 18 * (iterations - (t.i + 1)) + 9
  | .second => 18 * (iterations - (t.i + 1)) + t.bar.pc.rank
  | .done => 0

/-- The thread spins, and the phase of its call is not over. -/
def BarrierThread.Spins (φ : Nat) (x : BarrierThread) : Prop := ∃ m, x = ⟨.spin m, φ + 1⟩

omit [DecidableEq ι] in
/-- A thread that does not spin comes forward in its call, or returns. -/
theorem BarrierInv.forward {φ : Nat} {s : Threads ι Barrier BarrierThread} (h : BarrierInv φ s)
    (hspins : ¬ (s.loc i).Spins φ) :
    ∃ r, barrierNext s.shared (s.loc i) () = some r ∧
      (r.2.pc = .idle ∨ r.2.pc.rank < (s.loc i).pc.rank) := by
  obtain ⟨⟨pc, calls⟩, hloc⟩ : ∃ x, s.loc i = x := ⟨_, rfl⟩
  have hok := h.ok_of hloc
  rw [hloc] at hspins ⊢
  cases pc with
  | test m prev =>
      refine ⟨_, rfl, Or.inr ?_⟩
      show (if prev = s.shared.initCount - 1 then BarrierPc.reset else .spin m).rank < 5
      split <;> simp [BarrierPc.rank]
  | spin m =>
      rcases hok with ⟨hcalls, -⟩ | ⟨-, hm⟩
      · exact absurd ⟨m, congrArg (BarrierThread.mk (.spin m)) hcalls⟩ hspins
      · refine ⟨_, rfl, Or.inl ?_⟩
        exact if_pos (h.iterations.trans hm.symm)
  | incStore v => exact ⟨_, rfl, Or.inl rfl⟩
  | idle => exact ⟨_, rfl, Or.inr (Nat.lt_succ_self _)⟩
  | loadIter => exact ⟨_, rfl, Or.inr (Nat.lt_succ_self _)⟩
  | add m => exact ⟨_, rfl, Or.inr (Nat.lt_succ_self _)⟩
  | reset => exact ⟨_, rfl, Or.inr (Nat.lt_succ_self _)⟩
  | incLoad => exact ⟨_, rfl, Or.inr (Nat.lt_succ_self _)⟩

omit [DecidableEq ι] in
/-- A thread that is not at its end and does not spin comes forward. -/
theorem Ex2Inv.forward {φ : Nat} (h : Ex2Inv iterations s) (hbar : BarrierInv φ (atBarrier s))
    (hdone : (s.loc i).site ≠ .done) (hspins : ¬ (s.loc i).bar.Spins φ) :
    ∃ r, ex2Next (Fintype.card ι) iterations s.shared (s.loc i) () = some r ∧
      r.2.rank iterations < (s.loc i).rank iterations := by
  obtain ⟨⟨b, x⟩, hb, hrank⟩ :
      ∃ r, barrierNext s.shared.bar (s.loc i).bar () = some r ∧
        (r.2.pc = .idle ∨ r.2.pc.rank < (s.loc i).bar.pc.rank) := hbar.forward hspins
  have hok := h.ok i
  obtain ⟨⟨site, k, bar, ret⟩, hloc⟩ : ∃ x, s.loc i = x := ⟨_, rfl⟩
  rw [hloc] at hdone hok hb hrank ⊢
  have hpos : 0 < bar.pc.rank := bar.pc.rank_pos
  cases site with
  | test =>
      have hk : k < iterations := hok.2.2
      have hpc : bar.pc.rank = 8 := congrArg BarrierPc.rank hok.1
      refine ⟨_, rfl, ?_⟩
      simp only [Ex2Thread.rank, hpc]
      omega
  | first =>
      refine ⟨_, Option.map_eq_some_iff.2 ⟨_, hb, rfl⟩, ?_⟩
      by_cases hidle : x.pc = .idle
      · simp only [Ex2Thread.rank, if_pos hidle]
        omega
      · have hless := hrank.resolve_left hidle
        simp only [Ex2Thread.rank, if_neg hidle] at hless ⊢
        omega
  | add =>
      have hpc : bar.pc.rank = 8 := congrArg BarrierPc.rank hok.1
      refine ⟨_, rfl, ?_⟩
      simp only [Ex2Thread.rank, hpc]
      omega
  | second =>
      refine ⟨_, Option.map_eq_some_iff.2 ⟨_, hb, rfl⟩, ?_⟩
      by_cases hidle : x.pc = .idle
      · simp only [if_pos hidle]
        by_cases hlt : k + 1 < iterations
        · simp only [Ex2Thread.rank, ex2Loop, if_pos hlt]
          omega
        · simp only [Ex2Thread.rank, ex2Loop, if_neg hlt]
          omega
      · have hless := hrank.resolve_left hidle
        simp only [Ex2Thread.rank, if_neg hidle] at hless ⊢
        omega
  | done => exact absurd rfl hdone

omit [DecidableEq ι] in
/-- Not all threads spin. -/
theorem BarrierInv.exists_not_spins [Nonempty ι] {φ : Nat} {s : Threads ι Barrier BarrierThread}
    (h : BarrierInv φ s) : ∃ i, ¬ (s.loc i).Spins φ := by
  by_contra hall
  rw [not_exists] at hall
  have hspins : ∀ i, ∃ m, s.loc i = ⟨.spin m, φ + 1⟩ := fun i => not_not.1 (hall i)
  rcases h.phase with hg | ⟨i, hc⟩
  · have hcount : count (BarrierThread.arrived φ) s.loc = Fintype.card ι := by
      rw [count_eq_card_iff]
      intro i
      obtain ⟨m, hm⟩ := hspins i
      rw [hm]
      exact BarrierThread.arrived_iff.2 ⟨rfl, rfl⟩
    exact absurd hcount (Nat.ne_of_lt hg.lt)
  · obtain ⟨m, hm⟩ := hspins i
    have hclosing := hc.closing
    rw [hm] at hclosing
    cases hclosing

omit [DecidableEq ι] in
/-- As long as not all threads are at their ends, one of them can come forward. -/
theorem Ex2Inv.exists_forward (h : Ex2Inv iterations s) (hbusy : ∃ i, (s.loc i).site ≠ .done) :
    ∃ i r, ex2Next (Fintype.card ι) iterations s.shared (s.loc i) () = some r ∧
      r.2.rank iterations < (s.loc i).rank iterations := by
  obtain ⟨φ, hbar⟩ := h.barrier
  obtain ⟨k, hk⟩ := hbusy
  by_cases hkspins : (s.loc k).bar.Spins φ
  · obtain ⟨m, hm⟩ := hkspins
    have : Nonempty ι := ⟨k⟩
    obtain ⟨j, hj⟩ := hbar.exists_not_spins
    -- a thread at its end has made the last call, so that nobody can be in the next one
    have hjdone : (s.loc j).site ≠ .done := by
      intro hdone
      have hjok := h.ok j
      rw [Ex2Thread.Ok, hdone] at hjok
      obtain ⟨hjidle, hjcalls, hjend⟩ := hjok
      have hjphase : (s.loc j).bar.returned ≤ φ := (hbar.ok j).bounds.1
      have hkcalls := (h.ok k).calls_le
      rw [Ex2Thread.returned_of_idle hjidle] at hjphase
      rw [hm] at hkcalls
      simp only at hkcalls
      omega
    obtain ⟨r, hr⟩ := h.forward hbar hjdone hj
    exact ⟨j, r, hr⟩
  · obtain ⟨r, hr⟩ := h.forward hbar hk hkspins
    exact ⟨k, r, hr⟩

/-- All threads can come to their ends. -/
theorem Ex2Inv.path_to_done (hcard : Fintype.card ι < 2 ^ 32) (h : Ex2Inv iterations s) :
    ∃ fs t, (ex2Threads ι iterations).Path s fs t ∧ Ex2Inv iterations t ∧
      ∀ i, (t.loc i).site = .done := by
  refine Machine.path_of_measure (fun s => total (Ex2Thread.rank iterations) s.loc)
    (fun s hs hbusy => ?_) h
  obtain ⟨i, r, hnext, hless⟩ := hs.exists_forward (not_forall.1 hbusy)
  refine ⟨(i, ()), _, ⟨r, hnext, rfl⟩, hs.step hcard hnext, ?_⟩
  exact total_update_lt (fun j _ => Nat.le_refl _) hless

/-- What `ex2_fn` is a test of, in every interleaving. No check fails: at the check of round `i` the
value is `num_threads * i`. The threads cannot be stuck in `barrier_wait`: whatever has happened,
they can all come to their ends. And then the value is `num_threads * iterations`. -/
theorem barrier_test_passes [Nonempty ι] (hcard : Fintype.card ι < 2 ^ 32) (es : List (ι × Unit))
    (s : Threads ι Ex2Shared Ex2Thread) (hrun : (ex2Threads ι iterations).Reach es s) :
    (∀ i, (s.loc i).ret = false) ∧
      (∃ fs t, (ex2Threads ι iterations).Path s fs t ∧ ∀ i, (t.loc i).site = .done) ∧
      ((∀ i, (s.loc i).site = .done) →
        s.shared.globalValue = BitVec.ofNat 32 (Fintype.card ι * iterations)) := by
  have h := ex2Threads_inv hcard hrun
  refine ⟨h.ret, ?_, fun hdone => ?_⟩
  · obtain ⟨fs, t, hpath, -, hdone⟩ := h.path_to_done hcard
    exact ⟨fs, t, hpath, hdone⟩
  · obtain ⟨i⟩ := ‹Nonempty ι›
    have hok := h.ok i
    rw [Ex2Thread.Ok, hdone i] at hok
    obtain ⟨hidle, hcalls, hend⟩ := hok
    rw [h.value_eq hidle hcalls, hend]

end Invariant

/-- Two threads in their second round: the first one is about to check, and the second one still has
to leave the spin loop of the first round. -/
theorem barrier_test_passes_second_round :
    ∃ es s, (ex2Threads (Fin 2) 2).Reach es s ∧ (s.loc 0).site = .test ∧ (s.loc 0).i = 1 ∧
      (s.loc 1).site = .second ∧ (s.loc 1).i = 0 ∧ (∀ i, (s.loc i).ret = false) := by
  have hrun : ∃ s, runThreads (ex2Next (Fintype.card (Fin 2)) 2) (fun _ (_ : Fin 2 × Unit) => True)
      (List.replicate 6 (1, ()) ++ List.replicate 8 (0, ()) ++ List.replicate 6 (1, ()) ++
        List.replicate 8 (0, ()))
      ⟨⟨barrierInit (BitVec.ofNat 32 (Fintype.card (Fin 2))), 0⟩,
        fun _ => ⟨ex2Loop 2 0, 0, ⟨.idle, 0⟩, false⟩⟩ = some s ∧
      (s.loc 0).site = .test ∧ (s.loc 0).i = 1 ∧ (s.loc 1).site = .second ∧ (s.loc 1).i = 0 :=
    ⟨_, rfl, by decide⟩
  obtain ⟨s, hsome, hsite, hround, hother, hfirst⟩ := hrun
  have hreach := (reach_of_runThreads (ex2Threads (Fin 2) 2).init rfl hsome).of_guard
  exact ⟨_, s, hreach, hsite, hround, hother, hfirst,
    (barrier_test_passes (by decide) _ s hreach).1⟩

end PetKernel.SyncTools
