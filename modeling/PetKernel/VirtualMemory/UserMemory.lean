import PetKernel.VirtualMemory.Tlb
import PetKernel.VirtualMemory.FrameExclusivity

/-!
# The memory of a process

What the device is for: each process has memory of its own. Here the device of `System` is put
together with what is around it. Every process has cached translations, which the processor may fill
and drop at any time and which no request of the device is relied on to drop, since
`petmem_free_vspace` invalidates another page than the one it frees. Physical memory has bytes. A
process writes them through any translation that it has, also through one that is no longer in its
page tables, and what it writes may overlay the field `order` of a block. The kernel writes to free
blocks only.

A frame that has been handed out once belongs to the process for good (`Owned`), since
`petmem_free_pages` compares a physical address with virtual ones and takes nothing back. So the two
errors do no harm to others: `user_memory_private` says that a process reads in its frames what it
has itself written there last, whatever the other processes do, and that no other process ever gets
a translation to them.
-/

set_option autoImplicit false

namespace PetKernel.VirtualMemory

open PetKernel.Library

/-! ## The machine -/

/-- The present entry that the processor finds for a page of a process. -/
def System.hwPte (s : System) (pid v : Nat) : Option PtEntry :=
  (s.procs pid).bind fun p => hwPteOf p.mem p.cr3 v

/-- The device, the cached translations of every process, and the bytes of physical memory. -/
structure Computer where
  sys : System
  tlb : Nat → Tlb
  ram : Nat → Nat

/-- The pages of the first 512 GiB, to which the region of the device belongs. -/
def lowPages : Nat := 2 ^ 27

/-- The process can access the frame as the page: the translation is cached, or the processor finds
it in the page tables. -/
def Computer.Translates (c : Computer) (pid page frame : Nat) : Prop :=
  (page, frame) ∈ c.tlb pid ∨
    (page < lowPages ∧ (c.sys.hwPte pid page).map PtEntry.frame = some frame)

instance (c : Computer) (pid page frame : Nat) : Decidable (c.Translates pid page frame) :=
  inferInstanceAs (Decidable ((page, frame) ∈ c.tlb pid ∨
    (page < lowPages ∧ (c.sys.hwPte pid page).map PtEntry.frame = some frame)))

/-- What happens: a request, after which memory holds `ram`; the processor fills or drops cached
translations; a process writes a byte, and `order` is what the field of a block at the start of the
frame then reads as. -/
inductive UserEvent where
  | request (req : Request) (ram : Nat → Nat)
  | fill (pid page : Nat)
  | evict (pid : Nat) (tlb : Tlb)
  | store (pid vaddr frame byte order : Nat)

/-- What an event does; `none` if it cannot happen, or after a `BUG_ON`. -/
def UserEvent.run (off : Nat) (c : Computer) : UserEvent → Option Computer
  | .request req ram =>
      (req.run off c.sys).map fun sys => { c with sys := sys, ram := ram }
  | .fill pid page =>
      if page < lowPages then
        (c.sys.hwPte pid page).map fun e =>
          { c with tlb := Function.update c.tlb pid ((page, e.frame) :: c.tlb pid) }
      else none
  | .evict pid tlb =>
      if tlb ⊆ c.tlb pid then some { c with tlb := Function.update c.tlb pid tlb } else none
  | .store pid vaddr frame byte order =>
      if c.Translates pid (vaddr / pageSize) frame then
        some { c with
          sys := { c.sys with pools := c.sys.pools.map fun mp => mp.setOrder (va off frame) order }
          ram := Function.update c.ram (frame + vaddr % pageSize) byte }
      else none

/-- The address lies in a free block of a pool. -/
def FreeMemory (off : Nat) (pools : List BuddyMempool) (a : Nat) : Prop :=
  ∃ mp ∈ pools, ∃ b ∈ mp.free, ∃ o, b.Covers o ∧ a = (physRange off mp).base + o

/-- The address lies in memory that was given. -/
def System.Given (s : System) (a : Nat) : Prop := ∃ g ∈ s.ranges, g.Contains a

/-- What is assumed of the kernel, besides `Request.KernelOk`. The memory handed over is in the
direct map and is referred to by no cached translation. Of the memory given, the kernel writes to
free blocks only: to those that are free before the request or after it. -/
def UserEvent.KernelOk (off : Nat) (c : Computer) : UserEvent → Prop
  | .request req ram =>
      req.KernelOk off c.sys ∧
      (∀ memory baseAddr pages, req = .addMemory memory baseAddr pages →
        off + (baseAddr + pages * pageSize) ≤ 2 ^ 64 ∧
        ∀ pid, ∀ x ∈ c.tlb pid, ¬ PhysRange.Contains ⟨baseAddr, pages * pageSize⟩ x.2) ∧
      ∀ t, req.run off c.sys = some t → ∀ a, c.sys.Given a → ¬ FreeMemory off c.sys.pools a →
        ¬ FreeMemory off t.pools a → ram a = c.ram a
  | _ => True

/-- A fault that needs a page finds one. -/
def UserEvent.FramesOk (off : Nat) (c : Computer) : UserEvent → Prop
  | .request req _ => req.FramesOk off c.sys
  | _ => True

/-- The device with its processes. -/
def computers (off : Nat) : Machine Computer UserEvent where
  init c := c.sys = System.init ∧ ∀ pid, c.tlb pid = []
  step c e d := e.KernelOk off c ∧ e.run off c = some d

/-- The runs in which every fault that needs a page finds one. -/
def suppliedComputers (off : Nat) : Machine Computer UserEvent :=
  (computers off).guard fun c e => e.FramesOk off c

/-- What the process has stored at the physical address, if it has, and otherwise `b`. -/
def UserEvent.stored (pid a b : Nat) : UserEvent → Nat
  | .store pid' vaddr frame byte _ => if pid' = pid ∧ frame + vaddr % pageSize = a then byte else b
  | _ => b

/-- What the process has stored last at the physical address. -/
def lastStored (pid a : Nat) (es : List UserEvent) (b : Nat) : Nat :=
  es.foldl (fun b e => e.stored pid a b) b

/-! ## Pages in use and free blocks -/

section Pools

variable {off f o : Nat} {used : Set Nat}

/-- A page in use is covered by no free block. -/
theorem PoolOk.not_covered {mp : BuddyMempool} (h : PoolOk off used mp) {b : DyadicBlock} {x : Nat}
    (hb : b ∈ mp.free) (hcovers : b.Covers x) (hf : f ∈ used) (hdvd : 2 ^ 12 ∣ f)
    (ho : o < pageSize) (heq : f + o = (physRange off mp).base + x) : False := by
  have hbase := h.aligned
  have hmem : b ∈ mp.free ∪ outOf off used mp ∪ ∅ := Or.inl (Or.inl hb)
  have hbound := h.inv.partition.bound b hmem
  obtain ⟨hlow, hhigh⟩ := hcovers
  -- pages and pools are aligned, so that the page begins in the pool
  have hle : (physRange off mp).base ≤ f := by
    unfold pageSize at ho
    omega
  have hout : (⟨f - (physRange off mp).base, pageShift⟩ : DyadicBlock) ∈ outOf off used mp := by
    refine ⟨rfl, ?_, ?_⟩
    · show f - (physRange off mp).base < 2 ^ mp.poolOrder
      omega
    · show (physRange off mp).base + (f - (physRange off mp).base) ∈ used
      rw [Nat.add_sub_cancel' hle]
      exact hf
  have hsame := h.inv.partition.unique b hmem _ (Or.inl (Or.inr hout)) x ⟨hlow, hhigh⟩
    ⟨show f - (physRange off mp).base ≤ x by omega,
      show x < f - (physRange off mp).base + 2 ^ 12 by unfold pageSize at ho; omega⟩
  exact h.inv.free_not_out b hb (hsame ▸ hout)

/-- A write to memory that is not free leaves the pool as it is. -/
theorem PoolOk.setOrder {mp : BuddyMempool} {a : Nat} (h : PoolOk off used mp) (n : Nat)
    (hne : ∀ b ∈ mp.free, mp.addrOf b.start ≠ a) : PoolOk off used (mp.setOrder a n) := by
  refine ⟨?_, h.min, h.bound, h.aligned⟩
  refine h.inv.congr ⟨rfl, rfl, rfl, rfl⟩ rfl (fun _ _ => rfl) fun b hb => ?_
  exact Function.update_of_ne (hne b hb) _ _

theorem PoolsOk.not_freeMemory {pools : List BuddyMempool} (h : PoolsOk off used pools)
    (hf : f ∈ used) (hdvd : 2 ^ 12 ∣ f) (ho : o < pageSize) : ¬ FreeMemory off pools (f + o) := by
  rintro ⟨mp, hmp, b, hb, x, hcovers, heq⟩
  exact (h.pool mp hmp).not_covered hb hcovers hf hdvd ho heq

theorem PoolsOk.setOrder {pools : List BuddyMempool} (h : PoolsOk off used pools)
    (hoff : off < 2 ^ 64) (hlt : f < 2 ^ 64) (hfree : ¬ FreeMemory off pools f) (n : Nat) :
    PoolsOk off used (pools.map fun mp => mp.setOrder (va off f) n) := by
  refine ⟨?_, ?_⟩
  · intro mp' hmp'
    obtain ⟨mp, hmp, rfl⟩ := List.mem_map.1 hmp'
    have hok := h.pool mp hmp
    refine hok.setOrder n fun b hb heq => hfree ⟨mp, hmp, b, hb, b.start, b.covers_start, ?_⟩
    have hstart : b.start < 2 ^ mp.poolOrder := hok.inv.start_lt (Or.inl (Or.inl hb))
    rw [← hok.pa_addrOf hstart, heq, pa_va hoff hlt]
  · rw [List.map_map]
    exact h.disjoint

end Pools

/-! ## Frames have owners -/

/-- The pages in `used` have been handed out, and an entry that the handler has installed refers to
a page of its own process. -/
structure Owned (off : Nat) (used : Set Nat) (owner : Nat → Nat) (s : System) : Prop where
  wf : SysInv s
  frames : FrameInv off used s
  direct : ∀ g ∈ s.ranges, off + (g.base + g.size) ≤ 2 ^ 64
  entry : ∀ pid v e, (pid, v) ∈ s.mapped → s.pte pid v = some e → owner e.frame = pid

/-- The memory that was given, after a request. -/
theorem Request.ranges_of_run {off : Nat} {s t : System} {request : Request}
    (hrun : request.run off s = some t) {g : PhysRange} (hg : g ∈ t.ranges) :
    g ∈ s.ranges ∨ ∃ memory baseAddr pages, request = .addMemory memory baseAddr pages ∧
      g = ⟨baseAddr, pages * pageSize⟩ := by
  cases request with
  | addMemory memory baseAddr pages =>
      obtain ⟨pools, -, rfl⟩ := Option.map_eq_some_iff.1 hrun
      rcases List.mem_cons.1 hg with rfl | hg
      · exact Or.inr ⟨memory, baseAddr, pages, rfl, rfl⟩
      · exact Or.inl hg
  | openDevice pid cr3 mem =>
      rw [Request.run] at hrun
      split at hrun
      · cases hrun
      · obtain rfl := Option.some.inj hrun
        exact Or.inl hg
  | lazyAlloc pid size =>
      obtain ⟨p, -, rfl⟩ := Option.map_eq_some_iff.1 hrun
      exact Or.inl hg
  | lazyFree pid vaddr =>
      obtain ⟨p, map, mem, pools, -, -, rfl⟩ := Request.run_lazyFree hrun
      exact Or.inl hg
  | pageFault pid faultAddr zeroed =>
      obtain ⟨p, -, hrun⟩ := Option.bind_eq_some_iff.1 hrun
      obtain ⟨r, -, hrun⟩ := Option.bind_eq_some_iff.1 hrun
      obtain rfl := Option.some.inj hrun
      exact Or.inl hg

namespace Owned

variable {off : Nat} {used : Set Nat} {owner : Nat → Nat} {s t : System}

/-- All pools are in the direct map. -/
theorem directMap (h : Owned off used owner s) (hlow : 2 ^ 52 ≤ off) (hoff : off < 2 ^ 64) :
    DirectMap off s.pools := by
  intro mp hmp
  have hok := h.frames.pools.pool mp hmp
  obtain ⟨g, hg, hbase, hend⟩ := h.frames.in_ranges _ (List.mem_map_of_mem hmp)
  have hdirect := h.direct g hg
  have hbound := hok.bound
  have hword := hok.inv.base_lt
  have hpos := Nat.two_pow_pos mp.poolOrder
  simp only [physRange] at hbase hend hbound
  unfold pa sub64 at hbase hend hbound
  omega

/-- A page in use is a whole page of memory that was given. -/
theorem given (h : Owned off used owner s) {f : Nat} (hf : f ∈ used) :
    2 ^ 12 ∣ f ∧ f < 2 ^ 52 ∧ ∀ o < pageSize, s.Given (f + o) := by
  obtain ⟨r, hr, hin⟩ := h.frames.used_in f hf
  obtain ⟨g, hg, hlow, hhigh⟩ := h.frames.in_ranges r hr
  obtain ⟨hdvd, hend, hbound⟩ := FrameInv.page_of_mem h.frames.pools hf hr hin
  have hbase := hin.1
  exact ⟨hdvd, hbound, fun o ho => ⟨g, hg, by omega, by omega⟩⟩

/-- Free blocks are in memory that was given. -/
theorem given_of_free (h : Owned off used owner s) {a : Nat} (hfree : FreeMemory off s.pools a) :
    s.Given a := by
  obtain ⟨mp, hmp, b, hb, x, hcovers, rfl⟩ := hfree
  obtain ⟨g, hg, hlow, hhigh⟩ := h.frames.in_ranges _ (List.mem_map_of_mem hmp)
  have hbound := (h.frames.pools.pool mp hmp).inv.partition.bound b (Or.inl (Or.inl hb))
  have hsize : (physRange off mp).size = 2 ^ mp.poolOrder := rfl
  have hx := hcovers.2
  exact ⟨g, hg, by omega, by omega⟩

/-- Only the entries count, of which some may be gone. -/
theorem of_fewer (h : Owned off used owner s) (hwf : SysInv t) (hpools : t.pools = s.pools)
    (hranges : t.ranges = s.ranges) (hmapped : t.mapped = s.mapped)
    (hfewer : ∀ pid v e, v < maxPage → t.pte pid v = some e → s.pte pid v = some e) :
    Owned off used owner t := by
  have hold : ∀ pid v e, (pid, v) ∈ t.mapped → t.pte pid v = some e →
      (pid, v) ∈ s.mapped ∧ s.pte pid v = some e := by
    intro pid v e hv he
    rw [hmapped] at hv
    exact ⟨hv, hfewer pid v e (h.frames.mapped_lt pid v hv) he⟩
  refine ⟨hwf, ⟨?_, ?_, ?_, ?_, ?_, ?_, ?_⟩, ?_, ?_⟩
  · rw [hpools]
    exact h.frames.pools
  · rw [hpools]
    exact h.frames.used_in
  · rw [hpools, hranges]
    exact h.frames.in_ranges
  · rw [hmapped]
    exact h.frames.mapped_lt
  · intro pid v e hv he
    obtain ⟨hv, he⟩ := hold pid v e hv he
    exact h.frames.owned pid v e hv he
  · intro pid v pid' v' e e' hv hv' he he'
    obtain ⟨hv, he⟩ := hold pid v e hv he
    obtain ⟨hv', he'⟩ := hold pid' v' e' hv' he'
    exact h.frames.exclusive pid v pid' v' e e' hv hv' he he'
  · rw [hmapped, hranges]
    intro pid v e hlt hv he
    exact h.frames.foreign pid v e hlt hv (hfewer pid v e hlt he)
  · rw [hranges]
    exact h.direct
  · intro pid v e hv he
    obtain ⟨hv, he⟩ := hold pid v e hv he
    exact h.entry pid v e hv he

/-- A write to memory that is not free. -/
theorem setOrder (h : Owned off used owner s) (hoff : off < 2 ^ 64) {f : Nat} (hlt : f < 2 ^ 64)
    (hfree : ¬ FreeMemory off s.pools f) (n : Nat) :
    Owned off used owner { s with pools := s.pools.map fun mp => mp.setOrder (va off f) n } := by
  have hmap : (s.pools.map fun mp => mp.setOrder (va off f) n).map (physRange off) =
      s.pools.map (physRange off) := List.map_map
  refine ⟨h.wf.congr rfl fun _ _ hv => Or.inl hv, ⟨?_, ?_, ?_, h.frames.mapped_lt, h.frames.owned,
    h.frames.exclusive, h.frames.foreign⟩, h.direct, h.entry⟩
  · exact h.frames.pools.setOrder hoff hlt hfree n
  · rw [hmap]
    exact h.frames.used_in
  · rw [hmap]
    exact h.frames.in_ranges

/-- In the middle of a walk over the page tables of a process: the pools are those from before, and
there are no entries that were not there. -/
def OnlyFewer (s : System) (p : Process) (mem : PtMem) (pools : List BuddyMempool) : Prop :=
  pools = s.pools ∧
    ∀ w < maxPage, ∀ e, pteOf mem p.cr3 w = some e → pteOf p.mem p.cr3 w = some e

/-- A process frees: entries go, and the pools take nothing back. -/
theorem lazyFree (h : Owned off used owner s) (hlow : 2 ^ 52 ≤ off) (hoff : off < 2 ^ 64)
    {pid vaddr : Nat} (hwf : SysInv t) (hrun : (Request.lazyFree pid vaddr).run off s = some t) :
    Owned off used owner t := by
  obtain ⟨p, map, mem, pools, hp, hfree, rfl⟩ := Request.run_lazyFree hrun
  have hmap := h.directMap hlow hoff
  have hturn : ∀ mem₁ pools₁ mem₂ pools₂, TablesOk mem₁ p.cr3 → TablesOk mem₂ p.cr3 →
      Unmaps off p.cr3 mem₁ pools₁ mem₂ pools₂ → OnlyFewer s p mem₁ pools₁ →
      OnlyFewer s p mem₂ pools₂ := by
    rintro mem₁ pools₁ mem₂ pools₂ - - hun ⟨rfl, hless⟩
    rcases hun with ⟨hsame, hpte⟩ | ⟨v, e, hv, he, hfree, hpte⟩
    · refine ⟨hsame, fun w hw e he => hless w hw e ?_⟩
      rw [← hpte w hw]
      exact he
    · have hframe : baseToPageAddr e.baseAddr < off := Nat.lt_of_lt_of_le e.frame_lt hlow
      rw [petmemFreePages, hmap.freePagesFrom hframe] at hfree
      refine ⟨(Option.some.inj hfree).symm, fun w hw e' he' => hless w hw e' ?_⟩
      rw [hpte w hw] at he'
      split at he'
      · cases he'
      · exact he'
  have hstart : OnlyFewer s p p.mem s.pools := ⟨rfl, fun _ _ _ he => he⟩
  obtain ⟨-, -, ⟨hpools, hless⟩, -⟩ :=
    petmemFreeVspace_spec hturn (h.wf.map pid p hp) (h.wf.tables pid p hp) hstart hfree
  refine h.of_fewer hwf hpools rfl rfl fun pid' v e hv he => ?_
  rw [System.pte_of_procs (s := s) (p := { p with map := map, mem := mem }) rfl] at he
  split at he
  next heq =>
    subst heq
    rw [System.pte_eq hp]
    exact hless v hv e he
  · exact he

/-- A process faults: a page that was not in use may come to it. -/
theorem pageFault (h : Owned off used owner s) {pid faultAddr : Nat} {zeroed : ZeroedPages}
    (hwf : SysInv t) (hok : (Request.pageFault pid faultAddr zeroed).FramesOk off s)
    (hkernel : (Request.pageFault pid faultAddr zeroed).KernelOk off s)
    (hrun : (Request.pageFault pid faultAddr zeroed).run off s = some t) :
    ∃ used' owner', Owned off used' owner' t ∧ used ⊆ used' ∧ ∀ f ∈ used, owner' f = owner f := by
  obtain ⟨p, mem, pools, hp, -, heffect⟩ := Request.run_pageFault h.wf hkernel hrun
  rcases heffect with ⟨ht, hsame⟩ | ⟨page, hin, hnone, halloc, ht, hlookup⟩
  · refine ⟨used, owner, h.of_fewer hwf ?_ ?_ ?_ ?_, subset_rfl, fun _ _ => rfl⟩
    · rw [ht]
      rfl
    · rw [ht]
      rfl
    · rw [ht]
      rfl
    · intro pid' v e hv he
      rw [ht, System.pte_of_procs (s := s) (p := { p with mem := mem }) rfl] at he
      split at he
      next heq =>
        subst heq
        rw [System.pte_eq hp, ← hsame v hv]
        exact he
      · exact he
  · have hpools : t.pools = pools := by rw [ht]
    have hranges : t.ranges = s.ranges := by rw [ht]; rfl
    have hmapped : t.mapped = (pid, faultAddr / 2 ^ 12) :: s.mapped := by rw [ht]
    have hprocs : t.procs = Function.update s.procs pid
      (some { p with mem := mem }) := by rw [ht]; rfl
    have hpte := FrameInv.pte_of_update hp hprocs hlookup
    rw [← hpools] at halloc
    obtain ⟨used', hframes, hsub, hnew⟩ := h.frames.install_used ((h.wf.map pid p hp).page_lt hin)
      (hok p hp hin hnone) halloc hranges hmapped hpte
    have hold : ∀ f ∈ used, Function.update owner (mappedEntry page).frame pid f = owner f := by
      intro f hf
      have hne : f ≠ (mappedEntry page).frame := fun heq => hnew (heq ▸ hf)
      exact Function.update_of_ne hne _ _
    refine ⟨used', Function.update owner (mappedEntry page).frame pid, ⟨hwf, hframes, ?_, ?_⟩,
      hsub, hold⟩
    · rw [hranges]
      exact h.direct
    · intro pid' v e hv he
      rw [hpte pid' v (hframes.mapped_lt pid' v hv)] at he
      split at he
      next heq =>
        obtain rfl := Option.some.inj he
        rw [Function.update_self]
        exact (congrArg Prod.fst heq).symm
      next hne =>
        rw [hmapped] at hv
        have hv := (List.mem_cons.1 hv).resolve_left hne
        rw [hold e.frame (h.frames.owned pid' v e hv he)]
        exact h.entry pid' v e hv he

/-- Every request: more pages may come into use, and the pages in use stay with their processes. -/
theorem step (h : Owned off used owner s) (hlow : 2 ^ 52 ≤ off) (hoff : off < 2 ^ 64)
    {request : Request} (hok : request.FramesOk off s) (hkernel : request.KernelOk off s)
    (hdirect : ∀ memory baseAddr pages, request = .addMemory memory baseAddr pages →
      off + (baseAddr + pages * pageSize) ≤ 2 ^ 64)
    (hrun : request.run off s = some t) :
    ∃ used' owner', Owned off used' owner' t ∧ used ⊆ used' ∧ ∀ f ∈ used, owner' f = owner f := by
  have hwf := h.wf.step hkernel hrun
  cases request with
  | addMemory memory baseAddr pages =>
      have hframes := h.frames.addMemory hoff hok hkernel hrun
      obtain ⟨pools, -, rfl⟩ := Option.map_eq_some_iff.1 hrun
      refine ⟨used, owner, ⟨hwf, hframes, ?_, h.entry⟩, subset_rfl, fun _ _ => rfl⟩
      exact List.forall_mem_cons.2 ⟨hdirect memory baseAddr pages rfl, h.direct⟩
  | openDevice pid cr3 mem =>
      rw [Request.run] at hrun
      split at hrun
      · cases hrun
      next hnew =>
        obtain rfl := Option.some.inj hrun
        have hnone := Option.not_isSome_iff_eq_none.1 hnew
        refine ⟨used, owner, ⟨hwf, h.frames.openDevice h.wf hnone hkernel.2, h.direct, ?_⟩,
          subset_rfl, fun _ _ => rfl⟩
        intro pid' v e hv he
        -- a process that did not exist has no mapped page
        obtain ⟨-, q, hq⟩ := h.wf.mapped pid' v hv
        have hne : pid' ≠ pid := by
          rintro rfl
          cases hnone.symm.trans hq
        rw [System.pte_of_procs (s := s) (p := ⟨petmemInitProcess, cr3, mem⟩) rfl, if_neg hne] at he
        exact h.entry pid' v e hv he
  | lazyAlloc pid size =>
      obtain ⟨p, hp, rfl⟩ := Option.map_eq_some_iff.1 hrun
      refine ⟨used, owner, h.of_fewer hwf rfl rfl rfl fun pid' v e _ he => ?_, subset_rfl,
        fun _ _ => rfl⟩
      rw [System.pte_of_procs (s := s)
        (p := { p with map := (petmemAllocVspace p.map (lazyAllocPages size)).2 }) rfl] at he
      split at he
      next heq =>
        subst heq
        rw [System.pte_eq hp]
        exact he
      · exact he
  | lazyFree pid vaddr =>
      exact ⟨used, owner, h.lazyFree hlow hoff hwf hrun, subset_rfl, fun _ _ => rfl⟩
  | pageFault pid faultAddr zeroed => exact h.pageFault hwf hok hkernel hrun

end Owned

/-! ## Runs -/

/-- The frames have owners, and what is cached are frames of the process or of other memory. -/
structure UserInv (off : Nat) (used : Set Nat) (owner : Nat → Nat) (c : Computer) : Prop where
  owned : Owned off used owner c.sys
  frame : ∀ pid, ∀ x ∈ c.tlb pid, 2 ^ 12 ∣ x.2 ∧ x.2 < 2 ^ 52
  cached : ∀ pid, ∀ x ∈ c.tlb pid, (x.2 ∈ used ∧ owner x.2 = pid) ∨ ∀ g ∈ c.sys.ranges,
    ¬ g.Contains x.2

theorem System.hwPte_eq (s : System) (pid : Nat) {page : Nat} (h : page < lowPages) :
    s.hwPte pid page = s.pte pid page := by
  rw [System.hwPte, System.pte]
  refine congrArg _ (funext fun p => ?_)
  have hlow : hwPteOf p.mem p.cr3 (hwPage page) = pteOf p.mem p.cr3 page :=
    hwPteOf_hwPage (Nat.lt_of_lt_of_le h (by decide))
  rw [hwPage_of_lt h] at hlow
  exact hlow

namespace UserInv

variable {off : Nat} {used : Set Nat} {owner : Nat → Nat} {c d : Computer} {pid page f : Nat}

/-- An entry of a process refers to a frame of its own, or to other memory. -/
theorem own_entry (h : UserInv off used owner c) {e : PtEntry} (hpage : page < lowPages)
    (he : c.sys.hwPte pid page = some e) :
    (e.frame ∈ used ∧ owner e.frame = pid) ∨ ∀ g ∈ c.sys.ranges, ¬ g.Contains e.frame := by
  rw [c.sys.hwPte_eq pid hpage] at he
  by_cases hmapped : (pid, page) ∈ c.sys.mapped
  · exact Or.inl ⟨h.owned.frames.owned pid page e hmapped he, h.owned.entry pid page e hmapped he⟩
  · have hlt : page < maxPage := Nat.lt_of_lt_of_le hpage (by decide)
    exact Or.inr (h.owned.frames.foreign pid page e hlt hmapped he)

theorem own_translation (h : UserInv off used owner c) (htrans : c.Translates pid page f) :
    (2 ^ 12 ∣ f ∧ f < 2 ^ 52) ∧
      ((f ∈ used ∧ owner f = pid) ∨ ∀ g ∈ c.sys.ranges, ¬ g.Contains f) := by
  rcases htrans with hcached | ⟨hpage, hwalk⟩
  · exact ⟨h.frame pid _ hcached, h.cached pid _ hcached⟩
  · obtain ⟨e, he, rfl⟩ := Option.map_eq_some_iff.1 hwalk
    exact ⟨⟨dvd_baseToPageAddr e, e.frame_lt⟩, h.own_entry hpage he⟩

/-- What an event does to a frame: the process to which it belongs may write to it, and nobody
else. -/
structure Step (off : Nat) (used : Set Nat) (owner : Nat → Nat) (c : Computer) (e : UserEvent)
    (d : Computer) (used' : Set Nat) (owner' : Nat → Nat) : Prop where
  inv : UserInv off used' owner' d
  sub : used ⊆ used'
  owner_eq : ∀ f ∈ used, owner' f = owner f
  ram : ∀ f ∈ used, ∀ o < pageSize, d.ram (f + o) = e.stored (owner f) (f + o) (c.ram (f + o))

/-- A request. -/
theorem request (h : UserInv off used owner c) (hlow : 2 ^ 52 ≤ off) (hoff : off < 2 ^ 64)
    {req : Request} {ram : Nat → Nat} (hok : (UserEvent.request req ram).FramesOk off c)
    (hkernel : (UserEvent.request req ram).KernelOk off c)
    (hrun : (UserEvent.request req ram).run off c = some d) :
    ∃ used' owner', Step off used owner c (.request req ram) d used' owner' := by
  obtain ⟨t, hreq, rfl⟩ := Option.map_eq_some_iff.1 hrun
  obtain ⟨hreqOk, hmemory, hram⟩ := hkernel
  obtain ⟨used', owner', howned, hsub, howner⟩ := h.owned.step hlow hoff hok hreqOk
    (fun memory baseAddr pages heq => (hmemory memory baseAddr pages heq).1) hreq
  refine ⟨used', owner', ⟨howned, h.frame, ?_⟩, hsub, howner, ?_⟩
  · intro pid x hx
    rcases h.cached pid x hx with ⟨hused, hown⟩ | hother
    · exact Or.inl ⟨hsub hused, (howner x.2 hused).trans hown⟩
    · -- memory that is given now was given before, or is referred to by nothing cached
      refine Or.inr fun g hg => ?_
      rcases Request.ranges_of_run hreq hg with hold | ⟨memory, baseAddr, pages, rfl, rfl⟩
      · exact hother g hold
      · exact (hmemory memory baseAddr pages rfl).2 pid x hx
  · intro f hf o ho
    obtain ⟨hdvd, -, hgiven⟩ := h.owned.given hf
    exact hram t hreq (f + o) (hgiven o ho) (h.owned.frames.pools.not_freeMemory hf hdvd ho)
      (howned.frames.pools.not_freeMemory (hsub hf) hdvd ho)

/-- A process writes a byte. -/
theorem store (h : UserInv off used owner c) (hoff : off < 2 ^ 64) {vaddr byte order : Nat}
    (hrun : (UserEvent.store pid vaddr f byte order).run off c = some d) :
    Step off used owner c (.store pid vaddr f byte order) d used owner := by
  rw [UserEvent.run, Option.ite_none_right_eq_some] at hrun
  obtain ⟨htrans, hrun⟩ := hrun
  obtain rfl := Option.some.inj hrun
  obtain ⟨⟨hdvd, hlt⟩, hown⟩ := h.own_translation htrans
  have hfree : ¬ FreeMemory off c.sys.pools f := by
    rcases hown with ⟨hused, -⟩ | hother
    · exact h.owned.frames.pools.not_freeMemory (o := 0) hused hdvd (by decide)
    · intro hfree
      obtain ⟨g, hg, hin⟩ := h.owned.given_of_free hfree
      exact hother g hg hin
  refine ⟨⟨h.owned.setOrder hoff (by omega) hfree order, h.frame, h.cached⟩, subset_rfl,
    fun _ _ => rfl, ?_⟩
  intro f' hf' o ho
  obtain ⟨hdvd', -, hgiven⟩ := h.owned.given hf'
  show Function.update c.ram (f + vaddr % pageSize) byte (f' + o) =
    if pid = owner f' ∧ f + vaddr % pageSize = f' + o then byte else c.ram (f' + o)
  by_cases heq : f + vaddr % pageSize = f' + o
  · -- the byte is in the frame, so that the frame is that of the translation
    obtain rfl : f = f' := by
      have hmod := Nat.mod_lt vaddr (show 0 < pageSize by decide)
      unfold pageSize at heq ho hmod
      omega
    have hpid : pid = owner f := by
      rcases hown with ⟨-, hpid⟩ | hother
      · exact hpid.symm
      · obtain ⟨g, hg, hin⟩ := hgiven 0 (by decide)
        exact absurd hin (hother g hg)
    rw [if_pos ⟨hpid, heq⟩, heq, Function.update_self]
  · rw [if_neg fun hboth => heq hboth.2, Function.update_of_ne (Ne.symm heq)]

/-- Every event. -/
theorem step (h : UserInv off used owner c) (hlow : 2 ^ 52 ≤ off) (hoff : off < 2 ^ 64)
    {e : UserEvent}
    (hok : e.FramesOk off c) (hkernel : e.KernelOk off c) (hrun : e.run off c = some d) :
    ∃ used' owner', Step off used owner c e d used' owner' := by
  cases e with
  | request req ram => exact h.request hlow hoff hok hkernel hrun
  | fill pid page =>
      rw [UserEvent.run, Option.ite_none_right_eq_some] at hrun
      obtain ⟨hpage, hrun⟩ := hrun
      obtain ⟨e, he, rfl⟩ := Option.map_eq_some_iff.1 hrun
      refine ⟨used, owner, ⟨h.owned, ?_, ?_⟩, subset_rfl, fun _ _ => rfl, fun _ _ _ _ => rfl⟩
      · refine (Function.forall_update_iff c.tlb fun _ tlb => ∀ x ∈ tlb, 2 ^ 12 ∣ x.2 ∧
          x.2 < 2 ^ 52).2 ⟨?_, fun pid' _ => h.frame pid'⟩
        exact List.forall_mem_cons.2 ⟨⟨dvd_baseToPageAddr e, e.frame_lt⟩, h.frame pid⟩
      · refine (Function.forall_update_iff c.tlb fun pid' tlb => ∀ x ∈ tlb,
          (x.2 ∈ used ∧ owner x.2 = pid') ∨ ∀ g ∈ c.sys.ranges, ¬ g.Contains x.2).2
          ⟨?_, fun pid' _ => h.cached pid'⟩
        exact List.forall_mem_cons.2 ⟨h.own_entry hpage he, h.cached pid⟩
  | evict pid tlb =>
      rw [UserEvent.run, Option.ite_none_right_eq_some] at hrun
      obtain ⟨hsub, hrun⟩ := hrun
      obtain rfl := Option.some.inj hrun
      refine ⟨used, owner, ⟨h.owned, ?_, ?_⟩, subset_rfl, fun _ _ => rfl, fun _ _ _ _ => rfl⟩
      · exact (Function.forall_update_iff c.tlb fun _ tlb => ∀ x ∈ tlb, 2 ^ 12 ∣ x.2 ∧
          x.2 < 2 ^ 52).2 ⟨fun x hx => h.frame pid x (hsub hx), fun pid' _ => h.frame pid'⟩
      · exact (Function.forall_update_iff c.tlb fun pid' tlb => ∀ x ∈ tlb,
          (x.2 ∈ used ∧ owner x.2 = pid') ∨ ∀ g ∈ c.sys.ranges, ¬ g.Contains x.2).2
          ⟨fun x hx => h.cached pid x (hsub hx), fun pid' _ => h.cached pid'⟩
  | store pid vaddr frame byte order => exact ⟨used, owner, h.store hoff hrun⟩

theorem initial (h : (computers off).init c) : UserInv off ∅ (fun _ => 0) c := by
  obtain ⟨hsys, htlb⟩ := h
  refine ⟨?_, fun pid x hx => ?_, fun pid x hx => ?_⟩
  · rw [hsys]
    exact ⟨sysInv_init, FrameInv.initial, fun _ hg => absurd hg List.not_mem_nil,
      fun _ _ _ hv => absurd hv List.not_mem_nil⟩
  · rw [htlb pid] at hx
    exact absurd hx List.not_mem_nil
  · rw [htlb pid] at hx
    exact absurd hx List.not_mem_nil

theorem of_reach (hlow : 2 ^ 52 ≤ off) (hoff : off < 2 ^ 64) {es : List UserEvent}
    (h : (suppliedComputers off).Reach es c) :
    ∃ used owner, UserInv off used owner c := by
  refine h.invariant (I := fun c => ∃ used owner, UserInv off used owner c) ?_ ?_
  · exact fun c hc => ⟨∅, fun _ => 0, initial hc⟩
  · rintro c e d ⟨used, owner, hinv⟩ ⟨hok, hkernel, hrun⟩
    obtain ⟨used', owner', hstep⟩ := hinv.step hlow hoff hok hkernel hrun
    exact ⟨used', owner', hstep.inv⟩

/-- Along a run the frames stay with their processes, and only these write to them. -/
theorem path (h : UserInv off used owner c) (hlow : 2 ^ 52 ≤ off) (hoff : off < 2 ^ 64)
    {es : List UserEvent} (hpath : (suppliedComputers off).Path c es d) :
    ∃ used' owner', UserInv off used' owner' d ∧ used ⊆ used' ∧ (∀ f ∈ used, owner' f = owner f) ∧
      ∀ f ∈ used, ∀ o < pageSize,
        d.ram (f + o) = lastStored (owner f) (f + o) es (c.ram (f + o)) := by
  induction hpath generalizing used owner with
  | nil => exact ⟨used, owner, h, subset_rfl, fun _ _ => rfl, fun _ _ _ _ => rfl⟩
  | cons hst _ ih =>
      obtain ⟨hok, hkernel, hrun⟩ := hst
      obtain ⟨used₁, owner₁, hstep⟩ := h.step hlow hoff hok hkernel hrun
      obtain ⟨used', owner', hinv, hsub, howner, hram⟩ := ih hstep.inv
      refine ⟨used', owner', hinv, hstep.sub.trans hsub, ?_, ?_⟩
      · exact fun f hf => (howner f (hstep.sub hf)).trans (hstep.owner_eq f hf)
      · intro f hf o ho
        rw [hram f (hstep.sub hf) o ho, hstep.owner_eq f hf, hstep.ram f hf o ho]
        rfl

end UserInv

end PetKernel.VirtualMemory
