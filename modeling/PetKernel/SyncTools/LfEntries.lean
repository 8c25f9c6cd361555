import PetKernel.SyncTools.LfEnqueue

/-!
# The log of the lock-free queue

The nodes that have been linked and the calls that have returned are kept in logs. `EntryInv` says
that each call of `lf_enqueue` links its node once (`EntryInv.enqueue`). `EnqFrame` says what a step
of `lf_enqueue` leaves alone (`lfEnqueue_frame`), which is what dequeuers rely on.
-/

set_option autoImplicit false

namespace PetKernel.SyncTools

open PetKernel.Library

/-! ## The entries of the log -/

section Entries

variable {ι : Type} {s : Threads ι LfQueue LfThread} {i : ι} {q' : LfQueue} {x : LfThread}

/-- The entries of `nodes` after those of `lf_queue_init` and the calls of `lf_enqueue` that have
linked their node are in bijection: every entry belongs to one call, which has returned or is under
way. -/
structure EntryInv (s : Threads ι LfQueue LfThread) : Prop where
  two_le : 2 ≤ s.shared.nodes.length
  done : ∀ o ∈ s.shared.done, ∃ k, o = some k ∧ 2 ≤ k ∧ k < s.shared.nodes.length
  done_nodup : s.shared.done.Nodup
  entry : ∀ i k, (s.loc i).entry = some k →
    2 ≤ k ∧ k < s.shared.nodes.length ∧ some k ∉ s.shared.done
  entry_inj : ∀ i j k, (s.loc i).entry = some k → (s.loc j).entry = some k → i = j
  all : ∀ k, 2 ≤ k → k < s.shared.nodes.length →
    some k ∈ s.shared.done ∨ ∃ i, (s.loc i).entry = some k

variable [DecidableEq ι]

/-- A step that makes no entry and does not return from `lf_enqueue`. -/
theorem EntryInv.keep (h : EntryInv s) (hnodes : q'.nodes = s.shared.nodes)
    (hdone : q'.done = s.shared.done) (hentry : x.entry = (s.loc i).entry) :
    EntryInv ⟨q', Function.update s.loc i x⟩ := by
  have hsame : ∀ j, (Function.update s.loc i x j).entry = (s.loc j).entry :=
    (Function.forall_update_iff s.loc fun j t => t.entry = (s.loc j).entry).2
      ⟨hentry, fun _ _ => rfl⟩
  refine ⟨?_, ?_, ?_, ?_, ?_, ?_⟩
  · rw [hnodes]
    exact h.two_le
  · rw [hnodes, hdone]
    exact h.done
  · rw [hdone]
    exact h.done_nodup
  · rw [hnodes, hdone]
    exact fun j k hk => h.entry j k (hsame j ▸ hk)
  · exact fun j l k hj hl => h.entry_inj j l k (hsame j ▸ hj) (hsame l ▸ hl)
  · rw [hnodes, hdone]
    intro k hk hlt
    rcases h.all k hk hlt with hdone | ⟨j, hj⟩
    · exact Or.inl hdone
    · exact Or.inr ⟨j, (hsame j).trans hj⟩

/-- A call links its node: it makes the last entry. -/
theorem EntryInv.link (h : EntryInv s) {e : Nat × BitVec 32}
    (hnodes : q'.nodes = s.shared.nodes ++ [e]) (hdone : q'.done = s.shared.done)
    (hold : (s.loc i).entry = none) (hentry : x.entry = some s.shared.nodes.length) :
    EntryInv ⟨q', Function.update s.loc i x⟩ := by
  have hlen : q'.nodes.length = s.shared.nodes.length + 1 := by
    rw [hnodes, List.length_append]
    rfl
  have htwo := h.two_le
  have hcases : ∀ j k, (Function.update s.loc i x j).entry = some k →
      (j = i ∧ k = s.shared.nodes.length) ∨ (s.loc j).entry = some k := by
    refine (Function.forall_update_iff s.loc fun j t => ∀ k, t.entry = some k →
      (j = i ∧ k = s.shared.nodes.length) ∨ (s.loc j).entry = some k).2
      ⟨fun k hk => Or.inl ⟨rfl, ?_⟩, fun _ _ _ => Or.inr⟩
    rw [hentry] at hk
    exact (Option.some.inj hk).symm
  refine ⟨?_, ?_, ?_, ?_, ?_, ?_⟩
  · rw [hlen]
    omega
  · rw [hlen, hdone]
    intro o ho
    obtain ⟨k, rfl, hk, hlt⟩ := h.done o ho
    exact ⟨k, rfl, hk, Nat.lt_succ_of_lt hlt⟩
  · rw [hdone]
    exact h.done_nodup
  · rw [hlen, hdone]
    intro j k hk
    rcases hcases j k hk with ⟨-, rfl⟩ | hk
    · refine ⟨htwo, Nat.lt_succ_self _, fun hmem => ?_⟩
      obtain ⟨n, hn, -, hlt⟩ := h.done _ hmem
      cases hn
      exact absurd hlt (Nat.lt_irrefl _)
    · obtain ⟨hge, hlt, hnot⟩ := h.entry j k hk
      exact ⟨hge, Nat.lt_succ_of_lt hlt, hnot⟩
  · intro j l k hj hl
    rcases hcases j k hj with ⟨rfl, rfl⟩ | hj
    · rcases hcases l _ hl with ⟨rfl, -⟩ | hl
      · rfl
      · exact absurd (h.entry l _ hl).2.1 (Nat.lt_irrefl _)
    · rcases hcases l k hl with ⟨-, rfl⟩ | hl
      · exact absurd (h.entry j _ hj).2.1 (Nat.lt_irrefl _)
      · exact h.entry_inj j l k hj hl
  · rw [hlen, hdone]
    intro k hk hlt
    rcases Nat.lt_succ_iff_lt_or_eq.1 hlt with hlt | rfl
    · rcases h.all k hk hlt with hmem | ⟨j, hj⟩
      · exact Or.inl hmem
      · have hji : j ≠ i := by
          rintro rfl
          rw [hold] at hj
          cases hj
        exact Or.inr ⟨j, (congrArg LfThread.entry (Function.update_of_ne hji x s.loc)).trans hj⟩
    · exact Or.inr ⟨i, (congrArg LfThread.entry (Function.update_self i x s.loc)).trans hentry⟩

/-- A call that has linked its node returns. -/
theorem EntryInv.finish (h : EntryInv s) {k : Nat} (hnodes : q'.nodes = s.shared.nodes)
    (hdone : q'.done = s.shared.done ++ [some k]) (hold : (s.loc i).entry = some k)
    (hentry : x.entry = none) : EntryInv ⟨q', Function.update s.loc i x⟩ := by
  obtain ⟨hge, hlt, hnot⟩ := h.entry i k hold
  have hcases : ∀ j n, (Function.update s.loc i x j).entry = some n →
      j ≠ i ∧ (s.loc j).entry = some n := by
    refine (Function.forall_update_iff s.loc fun j t => ∀ n, t.entry = some n →
      j ≠ i ∧ (s.loc j).entry = some n).2 ⟨fun n hn => ?_, fun j hj n hn => ⟨hj, hn⟩⟩
    rw [hentry] at hn
    cases hn
  refine ⟨?_, ?_, ?_, ?_, ?_, ?_⟩
  · rw [hnodes]
    exact h.two_le
  · rw [hnodes, hdone]
    intro o ho
    rcases List.mem_append.1 ho with ho | ho
    · exact h.done o ho
    · exact ⟨k, List.mem_singleton.1 ho, hge, hlt⟩
  · rw [hdone, ← List.concat_eq_append]
    exact h.done_nodup.concat hnot
  · rw [hnodes, hdone]
    intro j n hn
    obtain ⟨hj, hn⟩ := hcases j n hn
    obtain ⟨hnge, hnlt, hnnot⟩ := h.entry j n hn
    refine ⟨hnge, hnlt, ?_⟩
    rw [List.mem_append, List.mem_singleton]
    refine not_or.2 ⟨hnnot, fun heq => hj (h.entry_inj j i k ?_ hold)⟩
    rw [hn, heq]
  · exact fun j l n hj hl => h.entry_inj j l n (hcases j n hj).2 (hcases l n hl).2
  · rw [hnodes, hdone]
    intro n hn hnlt
    rcases h.all n hn hnlt with hmem | ⟨j, hj⟩
    · exact Or.inl (List.mem_append_left _ hmem)
    · rcases eq_or_ne j i with rfl | hji
      · refine Or.inl (List.mem_append_right _ (List.mem_singleton.2 ?_))
        rw [← hj, hold]
      · exact Or.inr ⟨j, (congrArg LfThread.entry (Function.update_of_ne hji x s.loc)).trans hj⟩

/-- Every step of `lf_enqueue`. -/
theorem EntryInv.enqueue (h : EntryInv s) {val : BitVec 32} {entry : Option Nat} {pc : EnqPc}
    {addr : Nat} {r : LfQueue × LfThread} (hloc : s.loc i = .enq val entry pc)
    (hok : EnqOk s.shared (s.loc i)) (hnext : lfEnqueue s.shared val entry pc addr = some r) :
    EntryInv ⟨r.1, Function.update s.loc i r.2⟩ := by
  have hentry : (s.loc i).entry = entry := by rw [hloc]; rfl
  rw [hloc] at hok
  cases pc with
  | malloc =>
      rw [lfEnqueue] at hnext
      split at hnext
      · cases hnext
      · cases hnext
        exact h.keep rfl rfl hentry.symm
  | link q p =>
      obtain ⟨rfl, -⟩ := hok
      by_cases hlast : s.shared.next p = 0
      · simp only [lfEnqueue, compareAndSwapPtr, if_pos hlast] at hnext
        cases hnext
        exact h.link rfl rfl hentry rfl
      · simp only [lfEnqueue, compareAndSwapPtr, if_neg hlast] at hnext
        cases hnext
        exact h.keep rfl rfl hentry.symm
  | swing q p =>
      cases hnext
      obtain ⟨-, -, k, rfl, -⟩ := hok
      exact h.finish rfl rfl hentry rfl
  | _ =>
      cases hnext
      exact h.keep rfl rfl hentry.symm

omit [DecidableEq ι] in
theorem entryInv_init (h t : Nat) (value : Nat → BitVec 32) (next : Nat → Nat) :
    EntryInv ⟨lfQueueInit h t value next, fun _ : ι => .idle none⟩ := by
  refine ⟨le_rfl, fun _ ho => ?_, List.nodup_nil, fun _ _ hk => ?_, fun _ _ _ hk => ?_,
    fun k hk hlt => ?_⟩
  · cases ho
  · cases hk
  · cases hk
  · exact absurd hlt (Nat.not_lt.2 hk)

/-- Every step of `lf_dequeue`. -/
theorem EntryInv.dequeue (h : EntryInv s) {pc : DeqPc} (hloc : s.loc i = .deq pc) :
    EntryInv ⟨(lfDequeue s.shared pc).1, Function.update s.loc i (lfDequeue s.shared pc).2⟩ := by
  have hentry : (s.loc i).entry = none := by rw [hloc]; rfl
  cases pc with
  | testNext p =>
      rw [lfDequeue]
      split
      · exact h.keep rfl rfl hentry.symm
      · exact h.keep rfl rfl hentry.symm
  | loadValue p m succ =>
      cases succ with
      | none => exact h.keep rfl rfl hentry.symm
      | some take => exact h.keep rfl rfl hentry.symm
  | _ => exact h.keep rfl rfl hentry.symm

end Entries

/-! ## What enqueuers leave alone -/

theorem LfThread.enq_ne_deq {val : BitVec 32} {entry : Option Nat} {pc : EnqPc} (dpc : DeqPc) :
    LfThread.enq val entry pc ≠ .deq dpc := by
  intro h
  cases h

theorem LfThread.idle_ne_deq {last : Option LfReturn} (dpc : DeqPc) :
    LfThread.idle last ≠ .deq dpc := by
  intro h
  cases h

/-- A step of a thread from `t` to `x` that leaves the side of the dequeuers alone. It writes to no
node but the pending one, apart from `next` fields that are NULL; it adds no other node to the
chain; and it gets a node only from `malloc`. -/
structure EnqFrame (t : LfThread) (q : LfQueue) (x : LfThread) (q' : LfQueue) : Prop where
  head : q'.head = q.head
  takes : q'.takes = q.takes
  nodes : q.nodes <+: q'.nodes
  value : ∀ a, t.pending ≠ some a → q'.value a = q.value a
  next : ∀ a, t.pending ≠ some a → q.next a ≠ 0 → q'.next a = q.next a
  live : q.live ⊆ q'.live
  freed : ∀ a ∈ q.freed, a ∈ q'.live ∨ a ∈ q'.freed
  reused : ∀ a ∈ q'.freed, a ∈ q.freed ∧ (a ∉ q.live → a ∉ q'.live)
  chain : ∀ base, ∀ a ∈ q'.chain base, a ∈ q.chain base ∨ t.pending = some a
  pending : ∀ a, x.pending = some a → t.pending = some a ∨ a ∉ q.live
  outside : ∀ pc, x ≠ .deq pc

/-- A step that changes nothing but `tail` and the log of returns. -/
theorem enqFrame_of_same {q : LfQueue} (tail : Nat) (done : List (Option Nat)) {t x : LfThread}
    (hpending : ∀ a, x.pending = some a → t.pending = some a) (houtside : ∀ pc, x ≠ .deq pc) :
    EnqFrame t q x { q with tail := tail, done := done } where
  head := rfl
  takes := rfl
  nodes := List.prefix_rfl
  value _ _ := rfl
  next _ _ _ := rfl
  live := List.Subset.refl _
  freed _ := Or.inr
  reused _ ha := ⟨ha, id⟩
  chain _ _ := Or.inl
  pending a ha := Or.inl (hpending a ha)
  outside := houtside

theorem lfEnqueue_frame {q : LfQueue} {val : BitVec 32} {entry : Option Nat} {pc : EnqPc}
    {addr : Nat} {r : LfQueue × LfThread} (hok : EnqOk q (.enq val entry pc))
    (hnext : lfEnqueue q val entry pc addr = some r) : EnqFrame (.enq val entry pc) q r.2 r.1 := by
  cases pc with
  | malloc =>
      obtain rfl : entry = none := hok
      rw [lfEnqueue] at hnext
      split at hnext
      · cases hnext
      next haddr =>
        cases hnext
        refine ⟨rfl, rfl, List.prefix_rfl, fun _ _ => rfl, fun _ _ _ => rfl,
          List.subset_cons_self _ _, fun a ha => ?_, fun a ha => ?_, fun _ _ => Or.inl,
          fun a ha => ?_, LfThread.enq_ne_deq⟩
        · rcases eq_or_ne a addr with rfl | hne
          · exact Or.inl List.mem_cons_self
          · exact Or.inr (List.mem_filter.2 ⟨ha, by simpa using hne⟩)
        · obtain ⟨ha, hne⟩ := List.mem_filter.1 ha
          refine ⟨ha, fun hout hmem => ?_⟩
          rcases List.mem_cons.1 hmem with heq | hmem
          · simp [heq] at hne
          · exact hout hmem
        · cases ha
          exact Or.inr fun hmem => haddr (Or.inr hmem)
  | value b =>
      cases hnext
      obtain rfl : entry = none := hok
      refine ⟨rfl, rfl, List.prefix_rfl, fun a ha => ?_, fun _ _ _ => rfl, List.Subset.refl _,
        fun _ => Or.inr, fun _ ha => ⟨ha, id⟩, fun _ _ => Or.inl, fun _ => Or.inl,
        LfThread.enq_ne_deq⟩
      exact Function.update_of_ne (fun heq => ha (congrArg some heq.symm)) _ _
  | next b =>
      cases hnext
      obtain rfl : entry = none := hok.1
      refine ⟨rfl, rfl, List.prefix_rfl, fun _ _ => rfl, fun a ha _ => ?_, List.Subset.refl _,
        fun _ => Or.inr, fun _ ha => ⟨ha, id⟩, fun _ _ => Or.inl, fun _ => Or.inl,
        LfThread.enq_ne_deq⟩
      exact Function.update_of_ne (fun heq => ha (congrArg some heq.symm)) _ _
  | loadTail b =>
      cases hnext
      obtain rfl : entry = none := hok.1
      exact enqFrame_of_same q.tail q.done (fun _ => id) LfThread.enq_ne_deq
  | link b p =>
      obtain rfl : entry = none := hok.1
      by_cases hlast : q.next p = 0
      · simp only [lfEnqueue, compareAndSwapPtr, if_pos hlast] at hnext
        cases hnext
        refine ⟨rfl, rfl, List.prefix_append _ _, fun _ _ => rfl, fun a _ ha => ?_,
          List.Subset.refl _, fun _ => Or.inr, fun _ ha => ⟨ha, id⟩, fun base a ha => ?_,
          fun a ha => ?_, LfThread.enq_ne_deq⟩
        · have hne : a ≠ p := fun heq => ha (heq ▸ hlast)
          exact Function.update_of_ne hne _ _
        · rw [LfQueue.chain, List.map_append, List.drop_append] at ha
          rcases List.mem_append.1 ha with ha | ha
          · exact Or.inl ha
          · exact Or.inr (congrArg some (List.mem_singleton.1 (List.mem_of_mem_drop ha)).symm)
        · cases ha
      · simp only [lfEnqueue, compareAndSwapPtr, if_neg hlast, Function.update_eq_self] at hnext
        cases hnext
        exact enqFrame_of_same q.tail q.done (fun _ => id) LfThread.enq_ne_deq
  | check b p =>
      cases hnext
      refine enqFrame_of_same q.tail q.done (fun a ha => ?_) LfThread.enq_ne_deq
      dsimp only at ha
      split at ha
      · cases entry <;> cases ha
      · cases entry <;> exact ha
  | helpLoad b p =>
      cases hnext
      exact enqFrame_of_same q.tail q.done (fun _ ha => by cases entry <;> exact ha)
        LfThread.enq_ne_deq
  | helpSwing b p n =>
      cases hnext
      exact enqFrame_of_same _ q.done (fun _ ha => by cases entry <;> exact ha) LfThread.enq_ne_deq
  | swing b p =>
      cases hnext
      exact enqFrame_of_same _ _ (fun _ ha => by cases ha) LfThread.idle_ne_deq

/-- What `malloc` returns was not in use, and it is now. -/
theorem lfEnqueue_malloc {q : LfQueue} {val : BitVec 32} {entry : Option Nat} {addr : Nat}
    {r : LfQueue × LfThread} (hnext : lfEnqueue q val entry .malloc addr = some r) :
    addr ∉ q.live ∧ addr ∈ r.1.live := by
  rw [lfEnqueue] at hnext
  split at hnext
  · cases hnext
  next haddr =>
    cases hnext
    exact ⟨fun hmem => haddr (Or.inr hmem), List.mem_cons_self⟩

/-! ## Entries of a log that are filled later -/

/-- An entry without a value is added. -/
theorem getElem?_append_none {α : Type} {l : List (Option α)} {k : Nat} {o : Option α}
    (h : (l ++ [none])[k]? = some o) : l[k]? = some o ∨ (k = l.length ∧ o = none) := by
  rcases Nat.lt_or_ge k l.length with hlt | hge
  · rw [List.getElem?_append_left hlt] at h
    exact Or.inl h
  · rw [List.getElem?_append_right hge, List.getElem?_singleton] at h
    split at h
    next hk => exact Or.inr ⟨by omega, (Option.some.inj h).symm⟩
    next => cases h

/-- An entry gets its value. -/
theorem getElem?_set_some {α : Type} {l : List (Option α)} {n k : Nat} {v : α} {o : Option α}
    (h : (l.set n (some v))[k]? = some o) : (k = n ∧ o = some v) ∨ (k ≠ n ∧ l[k]? = some o) := by
  rcases eq_or_ne n k with rfl | hne
  · rw [List.getElem?_set_self'] at h
    cases hold : l[n]? with
    | none =>
        rw [hold] at h
        cases h
    | some w =>
        rw [hold] at h
        exact Or.inl ⟨rfl, (Option.some.inj h).symm⟩
  · rw [List.getElem?_set_ne hne] at h
    exact Or.inr ⟨hne.symm, h⟩

end PetKernel.SyncTools
