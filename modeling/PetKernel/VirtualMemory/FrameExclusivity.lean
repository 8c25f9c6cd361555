import PetKernel.VirtualMemory.System

/-!
# Frames are not shared

Which physical frame may be referenced by which page table entry. `FramesExclusive` says that no two
entries that the handler has installed refer to the same frame, and that each of them refers to a
page of a range given by `ADD_MEMORY`.

It can fail: once a pool is exhausted, `petmem_alloc_pages` returns `__pa(NULL)`, again and again
(`exhausted_pool_shares_frame`). It holds in every run in which no page is asked of an exhausted
pool and in which no range is so large that the shift in `ADD_MEMORY` overflows
(`frames_exclusive_of_framesOk`). The proof keeps a set of pages in use (`FrameInv`), to which every
page that is mapped belongs and which the pools agree with; what a request may do to it is said once
for the removal of an entry (`FrameInv.unmap`) and once for the installation of one
(`FrameInv.install`).
-/

set_option autoImplicit false

namespace PetKernel.VirtualMemory

open PetKernel.Library

/-- The physical address of the page that an entry refers to. -/
def PtEntry.frame (e : PtEntry) : Nat := baseToPageAddr e.baseAddr

theorem PtEntry.frame_lt (e : PtEntry) : e.frame < 2 ^ 52 := by
  have hlt := e.baseAddr.isLt
  unfold PtEntry.frame baseToPageAddr
  omega

/-- No two entries that the handler has installed and that are present refer to the same frame, and
the frame is a page of a range that `ADD_MEMORY` was given. -/
def FramesExclusive (s : System) : Prop :=
  (∀ pid v pid' v' e e', (pid, v) ∈ s.mapped → (pid', v') ∈ s.mapped → s.pte pid v = some e →
    s.pte pid' v' = some e' → e.baseAddr = e'.baseAddr → (pid, v) = (pid', v')) ∧
  ∀ pid v e, (pid, v) ∈ s.mapped → s.pte pid v = some e →
    ∃ r ∈ s.ranges, r.base ≤ e.frame ∧ e.frame + pageSize ≤ r.base + r.size

/-- A fault that needs a page finds one in the pools, and a range has at most `2 ^ 31` pages. -/
def Request.FramesOk (off : Nat) (s : System) : Request → Prop
  | .addMemory _ _ pages => pages % 2 ^ 32 ≤ 2 ^ 31
  | .pageFault pid faultAddr _ => ∀ p, s.procs pid = some p → vaddrInMap faultAddr p.map = true →
      pteOf p.mem p.cr3 (faultAddr / 2 ^ 12) = none → AllocOk off s.pools
  | _ => True

/-! ## The entries of a system -/

theorem System.pte_eq {s : System} {pid : Nat} {p : Process} (h : s.procs pid = some p) (v : Nat) :
    s.pte pid v = pteOf p.mem p.cr3 v := by
  rw [System.pte, h, Option.bind_some]

/-- The entries of a system in which one process was set. -/
theorem System.pte_of_procs {s t : System} {pid : Nat} {p : Process}
    (h : t.procs = Function.update s.procs pid (some p)) (pid' v : Nat) :
    t.pte pid' v = if pid' = pid then pteOf p.mem p.cr3 v else s.pte pid' v := by
  rw [System.pte, h, Function.update_apply]
  split
  · rw [Option.bind_some]
  · rfl

/-! ## The invariant -/

/-- The pages in `used` are those that the pools have handed out. Every page that the handler has
mapped is one of them and is mapped once; other entries refer to no memory that was given. -/
structure FrameInv (off : Nat) (used : Set Nat) (s : System) : Prop where
  pools : PoolsOk off used s.pools
  used_in : ∀ page ∈ used, ∃ r ∈ s.pools.map (physRange off), r.Contains page
  in_ranges : ∀ r ∈ s.pools.map (physRange off), ∃ g ∈ s.ranges,
    g.base ≤ r.base ∧ r.base + r.size ≤ g.base + g.size
  mapped_lt : ∀ pid v, (pid, v) ∈ s.mapped → v < maxPage
  owned : ∀ pid v e, (pid, v) ∈ s.mapped → s.pte pid v = some e → e.frame ∈ used
  exclusive : ∀ pid v pid' v' e e', (pid, v) ∈ s.mapped → (pid', v') ∈ s.mapped →
    s.pte pid v = some e → s.pte pid' v' = some e' → e.frame = e'.frame → (pid, v) = (pid', v')
  foreign : ∀ pid v e, v < maxPage → (pid, v) ∉ s.mapped → s.pte pid v = some e →
    ∀ g ∈ s.ranges, ¬ g.Contains e.frame

namespace FrameInv

variable {off : Nat} {used : Set Nat} {s t : System}

/-- A page in use is a block of the pool in whose range it lies. -/
theorem page_of_mem (h : PoolsOk off used s.pools) {page : Nat} (hpage : page ∈ used)
    {r : PhysRange} (hr : r ∈ s.pools.map (physRange off)) (hin : r.Contains page) :
    2 ^ 12 ∣ page ∧ page + pageSize ≤ r.base + r.size ∧ page < 2 ^ 52 := by
  obtain ⟨mp, hmp, rfl⟩ := List.mem_map.1 hr
  have hok := h.pool mp hmp
  have hsum : (physRange off mp).base + (page - (physRange off mp).base) = page :=
    Nat.add_sub_cancel' hin.1
  have hlt : page - (physRange off mp).base < 2 ^ mp.poolOrder :=
    Nat.sub_lt_left_of_lt_add hin.1 hin.2
  -- blocks are aligned within the pool, and the pool is aligned to pages
  have hout : (⟨page - (physRange off mp).base, pageShift⟩ : DyadicBlock) ∈ outOf off used mp :=
    ⟨rfl, hlt, by rw [hsum]; exact hpage⟩
  have hmem : (⟨page - (physRange off mp).base, pageShift⟩ : DyadicBlock) ∈
      mp.free ∪ outOf off used mp ∪ ∅ := Or.inl (Or.inr hout)
  have hdvd : 2 ^ 12 ∣ page - (physRange off mp).base := hok.inv.partition.aligned _ hmem
  have hbound : page - (physRange off mp).base + 2 ^ 12 ≤ (physRange off mp).size :=
    hok.inv.partition.bound _ hmem
  have hphys := hok.bound
  refine ⟨?_, ?_, ?_⟩
  · rw [← hsum]
    exact Nat.dvd_add hok.aligned hdvd
  · unfold pageSize
    omega
  · omega

theorem framesExclusive (h : FrameInv off used s) : FramesExclusive s := by
  refine ⟨?_, ?_⟩
  · intro pid v pid' v' e e' hv hv' he he' hbase
    exact h.exclusive pid v pid' v' e e' hv hv' he he' (congrArg baseToPageAddr hbase)
  · intro pid v e hv he
    have hused := h.owned pid v e hv he
    obtain ⟨r, hr, hin⟩ := h.used_in _ hused
    obtain ⟨g, hg, hlow, hhigh⟩ := h.in_ranges r hr
    obtain ⟨-, hend, -⟩ := page_of_mem h.pools hused hr hin
    exact ⟨g, hg, hlow.trans hin.1, hend.trans hhigh⟩

/-- Only the pools, the ranges, the pages mapped and the entries count. -/
theorem congr (h : FrameInv off used s) (hpools : t.pools = s.pools) (hranges : t.ranges = s.ranges)
    (hmapped : t.mapped = s.mapped) (hpte : ∀ pid v, v < maxPage → t.pte pid v = s.pte pid v) :
    FrameInv off used t := by
  refine ⟨?_, ?_, ?_, ?_, ?_, ?_, ?_⟩
  · rw [hpools]
    exact h.pools
  · rw [hpools]
    exact h.used_in
  · rw [hpools, hranges]
    exact h.in_ranges
  · rw [hmapped]
    exact h.mapped_lt
  · rw [hmapped]
    intro pid v e hv he
    rw [hpte pid v (h.mapped_lt pid v hv)] at he
    exact h.owned pid v e hv he
  · rw [hmapped]
    intro pid v pid' v' e e' hv hv' he he'
    rw [hpte pid v (h.mapped_lt pid v hv)] at he
    rw [hpte pid' v' (h.mapped_lt pid' v' hv')] at he'
    exact h.exclusive pid v pid' v' e e' hv hv' he he'
  · rw [hmapped, hranges]
    intro pid v e hlt hv he
    rw [hpte pid v hlt] at he
    exact h.foreign pid v e hlt hv he

/-- A frame in the range of a pool belongs to an entry that the handler has installed. -/
theorem mapped_of_contains (h : FrameInv off used s) {pid v : Nat} {e : PtEntry} (hlt : v < maxPage)
    (he : s.pte pid v = some e) {r : PhysRange} (hr : r ∈ s.pools.map (physRange off))
    (hin : r.Contains e.frame) : (pid, v) ∈ s.mapped := by
  by_contra hv
  obtain ⟨g, hg, hlow, hhigh⟩ := h.in_ranges r hr
  exact h.foreign pid v e hlt hv he g hg ⟨hlow.trans hin.1, Nat.lt_of_lt_of_le hin.2 hhigh⟩

/-- An entry is removed and its page freed. -/
theorem unmap (h : FrameInv off used s) (hoff : off < 2 ^ 64) {pid v : Nat} {e : PtEntry}
    (hlt : v < maxPage) (he : s.pte pid v = some e)
    (hfree : petmemFreePages off s.pools e.frame 1 = some t.pools) (hranges : t.ranges = s.ranges)
    (hmapped : t.mapped = s.mapped)
    (hpte : ∀ pid' u, u < maxPage → t.pte pid' u = if (pid', u) = (pid, v) then none
      else s.pte pid' u) :
    ∃ used', FrameInv off used' t := by
  -- an entry that is still there was there before and is another one
  have hold : ∀ pid' u e', u < maxPage → t.pte pid' u = some e' →
      s.pte pid' u = some e' ∧ (pid', u) ≠ (pid, v) := by
    intro pid' u e' hu he'
    rw [hpte pid' u hu] at he'
    split at he'
    · cases he'
    next hne => exact ⟨he', hne⟩
  have hused : ∀ mp ∈ s.pools, (physRange off mp).Contains e.frame → e.frame ∈ used :=
    fun mp hmp hin => h.owned pid v e
      (h.mapped_of_contains hlt he (List.mem_map_of_mem hmp) hin) he
  rw [petmemFreePages, pageOrder_one] at hfree
  obtain ⟨hmap, hcases⟩ := h.pools.freePagesFrom hoff e.frame_lt hused hfree
  -- the pages in use afterwards
  obtain ⟨used', hok, hsub, hkeep⟩ : ∃ used', PoolsOk off used' t.pools ∧ used' ⊆ used ∧
      ∀ pid' u e', (pid', u) ∈ s.mapped → s.pte pid' u = some e' → (pid', u) ≠ (pid, v) →
        e'.frame ∈ used' := by
    rcases hcases with hok | ⟨hok, mp, hmp, hin⟩
    · exact ⟨used, hok, subset_rfl, fun pid' u e' hu he' _ => h.owned pid' u e' hu he'⟩
    · refine ⟨used \ {e.frame}, hok, fun _ hq => hq.1, fun pid' u e' hu he' hne => ?_⟩
      refine ⟨h.owned pid' u e' hu he', fun heq => hne ?_⟩
      have hv := h.mapped_of_contains hlt he (List.mem_map_of_mem hmp) hin
      exact h.exclusive pid' u pid v e' e hu hv he' he heq
  refine ⟨used', hok, ?_, ?_, ?_, ?_, ?_, ?_⟩
  · rw [hmap]
    exact fun page hpage => h.used_in page (hsub hpage)
  · rw [hmap, hranges]
    exact h.in_ranges
  · rw [hmapped]
    exact h.mapped_lt
  · rw [hmapped]
    intro pid' u e' hu he'
    obtain ⟨he'', hne⟩ := hold pid' u e' (h.mapped_lt pid' u hu) he'
    exact hkeep pid' u e' hu he'' hne
  · rw [hmapped]
    intro pid₁ u₁ pid₂ u₂ e₁ e₂ hu₁ hu₂ he₁ he₂
    exact h.exclusive pid₁ u₁ pid₂ u₂ e₁ e₂ hu₁ hu₂ (hold _ _ _ (h.mapped_lt _ _ hu₁) he₁).1
      (hold _ _ _ (h.mapped_lt _ _ hu₂) he₂).1
  · rw [hmapped, hranges]
    intro pid' u e' hu hnot he'
    exact h.foreign pid' u e' hu hnot (hold _ _ _ hu he').1

/-- An entry is installed for a page from the pools: a page that was not in use comes into use. -/
theorem install_used (h : FrameInv off used s) {pid v page : Nat} (hlt : v < maxPage)
    (hallocOk : AllocOk off s.pools)
    (halloc : petmemAllocPages off s.pools 1 = some (page, t.pools)) (hranges : t.ranges = s.ranges)
    (hmapped : t.mapped = (pid, v) :: s.mapped)
    (hpte : ∀ pid' u, u < maxPage → t.pte pid' u =
      if (pid', u) = (pid, v) then some (mappedEntry page) else s.pte pid' u) :
    ∃ used', FrameInv off used' t ∧ used ⊆ used' ∧ (mappedEntry page).frame ∉ used := by
  obtain ⟨page₁, pools₁, used', hrun, hok, hmap, hsub, hnot, hmem, hcome⟩ :=
    h.pools.allocPagesFrom hallocOk
  rw [petmemAllocPages, pageOrder_one] at halloc
  obtain ⟨rfl, rfl⟩ := Prod.mk.inj (Option.some.inj (hrun.symm.trans halloc))
  -- the page can be held by an entry
  obtain ⟨mp, hmp, hin⟩ := hcome page₁ hmem hnot
  have hr : physRange off mp ∈ t.pools.map (physRange off) := hmap ▸ List.mem_map_of_mem hmp
  obtain ⟨hdvd, -, hbound⟩ := page_of_mem hok hmem hr hin
  have hframe : (mappedEntry page₁).frame = page₁ := baseToPageAddr_pageToBaseAddr hdvd hbound
  -- an entry is the new one or was there before
  have hcase : ∀ pid' u e', u < maxPage → t.pte pid' u = some e' →
      ((pid', u) = (pid, v) ∧ e'.frame = page₁) ∨
      ((pid', u) ≠ (pid, v) ∧ s.pte pid' u = some e') := by
    intro pid' u e' hu he'
    rw [hpte pid' u hu] at he'
    split at he'
    next heq =>
      cases he'
      exact Or.inl ⟨heq, hframe⟩
    next hne => exact Or.inr ⟨hne, he'⟩
  have hlt' : ∀ pid' u, (pid', u) ∈ t.mapped → u < maxPage := by
    rw [hmapped]
    intro pid' u hu
    rcases List.mem_cons.1 hu with heq | hu
    · cases heq
      exact hlt
    · exact h.mapped_lt pid' u hu
  have hbefore : ∀ pid' u, (pid', u) ∈ t.mapped → (pid', u) ≠ (pid, v) → (pid', u) ∈ s.mapped := by
    rw [hmapped]
    intro pid' u hu hne
    exact (List.mem_cons.1 hu).resolve_left hne
  refine ⟨used', ⟨hok, ?_, ?_, hlt', ?_, ?_, ?_⟩, hsub, hframe.symm ▸ hnot⟩
  · intro q hq
    by_cases hqu : q ∈ used
    · rw [hmap]
      exact h.used_in q hqu
    · obtain ⟨mp', hmp', hin'⟩ := hcome q hq hqu
      exact ⟨_, hmap ▸ List.mem_map_of_mem hmp', hin'⟩
  · rw [hmap, hranges]
    exact h.in_ranges
  · intro pid' u e' hu he'
    rcases hcase pid' u e' (hlt' pid' u hu) he' with ⟨-, hf⟩ | ⟨hne, he''⟩
    · rw [hf]
      exact hmem
    · exact hsub (h.owned pid' u e' (hbefore pid' u hu hne) he'')
  · intro pid₁ u₁ pid₂ u₂ e₁ e₂ hu₁ hu₂ he₁ he₂ hsame
    rcases hcase pid₁ u₁ e₁ (hlt' _ _ hu₁) he₁ with ⟨heq₁, hf₁⟩ | ⟨hne₁, he₁'⟩ <;>
      rcases hcase pid₂ u₂ e₂ (hlt' _ _ hu₂) he₂ with ⟨heq₂, hf₂⟩ | ⟨hne₂, he₂'⟩
    · exact heq₁.trans heq₂.symm
    · -- the new page was not in use
      have hold := h.owned pid₂ u₂ e₂ (hbefore _ _ hu₂ hne₂) he₂'
      rw [← hsame, hf₁] at hold
      exact absurd hold hnot
    · have hold := h.owned pid₁ u₁ e₁ (hbefore _ _ hu₁ hne₁) he₁'
      rw [hsame, hf₂] at hold
      exact absurd hold hnot
    · exact h.exclusive pid₁ u₁ pid₂ u₂ e₁ e₂ (hbefore _ _ hu₁ hne₁)
        (hbefore _ _ hu₂ hne₂) he₁' he₂' hsame
  · rw [hranges]
    intro pid' u e' hu hnotm he'
    rw [hmapped] at hnotm
    have hne : (pid', u) ≠ (pid, v) := fun heq => hnotm (heq ▸ List.mem_cons_self)
    rcases hcase pid' u e' hu he' with ⟨heq, -⟩ | ⟨-, he''⟩
    · exact absurd heq hne
    · exact h.foreign pid' u e' hu (fun hm => hnotm (List.mem_cons_of_mem _ hm)) he''

/-- An entry is installed for a page from the pools. -/
theorem install (h : FrameInv off used s) {pid v page : Nat} (hlt : v < maxPage)
    (hallocOk : AllocOk off s.pools)
    (halloc : petmemAllocPages off s.pools 1 = some (page, t.pools)) (hranges : t.ranges = s.ranges)
    (hmapped : t.mapped = (pid, v) :: s.mapped)
    (hpte : ∀ pid' u, u < maxPage → t.pte pid' u =
      if (pid', u) = (pid, v) then some (mappedEntry page) else s.pte pid' u) :
    ∃ used', FrameInv off used' t := by
  obtain ⟨used', hinv, -⟩ := h.install_used hlt hallocOk halloc hranges hmapped hpte
  exact ⟨used', hinv⟩

/-- Memory is handed over. -/
theorem addMemory (h : FrameInv off used s) (hoff : off < 2 ^ 64) {memory : Nat → Nat}
    {baseAddr pages : Nat} (hpages : pages % 2 ^ 32 ≤ 2 ^ 31)
    (hkernel : (Request.addMemory memory baseAddr pages).KernelOk off s)
    (hrun : (Request.addMemory memory baseAddr pages).run off s = some t) :
    FrameInv off used t := by
  obtain ⟨hb, hbound, hdisj, hforeign⟩ := hkernel
  have hused : ∀ page ∈ used, ∃ mp ∈ s.pools, (physRange off mp).Contains page := by
    intro page hpage
    obtain ⟨r, hr, hin⟩ := h.used_in page hpage
    obtain ⟨mp, hmp, rfl⟩ := List.mem_map.1 hr
    exact ⟨mp, hmp, hin⟩
  -- the pools lie in the ranges given before, and these are elsewhere
  have hapart : ∀ mp ∈ s.pools,
      PhysRange.Disjoint ⟨baseAddr, pages * pageSize⟩ (physRange off mp) := by
    intro mp hmp page hnew hold
    obtain ⟨g, hg, hlow, hhigh⟩ := h.in_ranges _ (List.mem_map_of_mem hmp)
    exact hdisj g hg page hnew ⟨hlow.trans hold.1, Nat.lt_of_lt_of_le hold.2 hhigh⟩
  obtain ⟨new, hadd, hok, hwithin⟩ := h.pools.addMemory memory hoff hpages hb hbound hused hapart
  obtain ⟨pools, hadd', rfl⟩ := Option.map_eq_some_iff.1 hrun
  obtain rfl := Option.some.inj (hadd.symm.trans hadd')
  refine ⟨hok, ?_, ?_, h.mapped_lt, h.owned, h.exclusive, ?_⟩
  · intro page hpage
    obtain ⟨mp, hmp, hin⟩ := hused page hpage
    exact ⟨_, List.mem_map_of_mem (List.mem_append_right new hmp), hin⟩
  · intro r hr
    obtain ⟨mp, hmp, rfl⟩ := List.mem_map.1 hr
    rcases List.mem_append.1 hmp with hmp | hmp
    · exact ⟨_, List.mem_cons_self, hwithin mp hmp⟩
    · obtain ⟨g, hg, hle⟩ := h.in_ranges _ (List.mem_map_of_mem hmp)
      exact ⟨g, List.mem_cons_of_mem _ hg, hle⟩
  · intro pid v e hlt hv he g hg
    rcases List.mem_cons.1 hg with rfl | hg
    · exact hforeign pid v e hlt hv he
    · exact h.foreign pid v e hlt hv he g hg

/-- A process opens the device: its entries refer to none of the memory given. -/
theorem openDevice (h : FrameInv off used s) (hinv : SysInv s) {pid : Nat} {p : Process}
    (hnew : s.procs pid = none)
    (hforeign : ∀ v < maxPage, ∀ e, pteOf p.mem p.cr3 v = some e →
      ∀ g ∈ s.ranges, ¬ g.Contains e.frame) : FrameInv off used (s.setProc pid p) := by
  have hpte := System.pte_of_procs (t := s.setProc pid p) rfl
  -- a process that did not exist has no mapped page
  have hother : ∀ pid' v, (pid', v) ∈ s.mapped → (s.setProc pid p).pte pid' v = s.pte pid' v := by
    intro pid' v hv
    obtain ⟨-, q, hq⟩ := hinv.mapped pid' v hv
    rw [hpte, if_neg]
    rintro rfl
    rw [hnew] at hq
    cases hq
  refine ⟨h.pools, h.used_in, h.in_ranges, h.mapped_lt, ?_, ?_, ?_⟩
  · intro pid' v e hv he
    rw [hother pid' v hv] at he
    exact h.owned pid' v e hv he
  · intro pid₁ v₁ pid₂ v₂ e₁ e₂ hv₁ hv₂ he₁ he₂
    rw [hother pid₁ v₁ hv₁] at he₁
    rw [hother pid₂ v₂ hv₂] at he₂
    exact h.exclusive pid₁ v₁ pid₂ v₂ e₁ e₂ hv₁ hv₂ he₁ he₂
  · intro pid' v e hlt hv he
    rw [hpte] at he
    split at he
    · exact hforeign v hlt e he
    · exact h.foreign pid' v e hlt hv he

section OneProcess

variable {pid : Nat} {p q : Process}

/-- A process changes and keeps its entries. -/
theorem sameEntries (h : FrameInv off used s) (hp : s.procs pid = some p)
    (hprocs : t.procs = Function.update s.procs pid (some q)) (hpools : t.pools = s.pools)
    (hranges : t.ranges = s.ranges) (hmapped : t.mapped = s.mapped)
    (hsame : ∀ v < maxPage, pteOf q.mem q.cr3 v = pteOf p.mem p.cr3 v) : FrameInv off used t := by
  apply h.congr hpools hranges hmapped
  intro pid' v hv
  rw [System.pte_of_procs hprocs]
  split
  next heq =>
    subst heq
    rw [hsame v hv, System.pte_eq hp]
  · rfl

/-- An entry of one process changes. -/
theorem pte_of_update {v : Nat} {new : Option PtEntry} (hp : s.procs pid = some p)
    (hprocs : t.procs = Function.update s.procs pid (some q))
    (hlookup : ∀ u < maxPage, pteOf q.mem q.cr3 u = if u = v then new else pteOf p.mem p.cr3 u)
    (pid' u : Nat) (hu : u < maxPage) :
    t.pte pid' u = if (pid', u) = (pid, v) then new else s.pte pid' u := by
  rw [System.pte_of_procs hprocs]
  by_cases heq : pid' = pid
  · subst heq
    rw [if_pos rfl, hlookup u hu, System.pte_eq hp]
    simp only [Prod.mk.injEq, true_and]
  · rw [if_neg heq, if_neg fun hpair => heq (congrArg Prod.fst hpair)]

/-- The page tables of one process and the pools change as in a turn of the walk. -/
theorem unmaps (h : FrameInv off used s) (hoff : off < 2 ^ 64) (hp : s.procs pid = some p)
    (hprocs : t.procs = Function.update s.procs pid (some q)) (hcr3 : q.cr3 = p.cr3)
    (hranges : t.ranges = s.ranges) (hmapped : t.mapped = s.mapped)
    (hun : Unmaps off p.cr3 p.mem s.pools q.mem t.pools) : ∃ used', FrameInv off used' t := by
  rcases hun with ⟨hpools, hsame⟩ | ⟨v, e, hv, he, hfree, hlookup⟩
  · refine ⟨used, h.sameEntries hp hprocs hpools hranges hmapped fun v hv => ?_⟩
    rw [hcr3]
    exact hsame v hv
  · apply h.unmap hoff hv ((System.pte_eq hp v).trans he) hfree hranges hmapped
    apply pte_of_update hp hprocs
    intro u hu
    rw [hcr3]
    exact hlookup u hu

end OneProcess

/-- The system in the middle of a walk over the page tables of a process. -/
def during (s : System) (pid : Nat) (p : Process) (mem : PtMem) (pools : List BuddyMempool) :
    System :=
  { s.setProc pid { p with mem := mem } with pools := pools }

/-- A process frees: the invariant goes through the walk from turn to turn. -/
theorem lazyFree (h : FrameInv off used s) (hinv : SysInv s) (hoff : off < 2 ^ 64) {pid vaddr : Nat}
    (hrun : (Request.lazyFree pid vaddr).run off s = some t) : ∃ used', FrameInv off used' t := by
  obtain ⟨p, map, mem, pools, hp, hfree, rfl⟩ := Request.run_lazyFree hrun
  have hturn : ∀ mem pools mem' pools', TablesOk mem p.cr3 → TablesOk mem' p.cr3 →
      Unmaps off p.cr3 mem pools mem' pools' →
      (∃ used', FrameInv off used' (during s pid p mem pools)) →
      ∃ used', FrameInv off used' (during s pid p mem' pools') := by
    rintro mem pools mem' pools' - - hun ⟨used', h'⟩
    exact h'.unmaps hoff (s.setProc_self pid { p with mem := mem })
      (q := { p with mem := mem' }) (Function.update_idem _ _ _).symm rfl rfl rfl hun
  have hstart : FrameInv off used (during s pid p p.mem s.pools) :=
    h.sameEntries hp rfl rfl rfl rfl fun _ _ => rfl
  obtain ⟨-, -, ⟨used', h'⟩, -⟩ := petmemFreeVspace_spec hturn (hinv.map pid p hp)
    (hinv.tables pid p hp) ⟨used, hstart⟩ hfree
  refine ⟨used', h'.sameEntries (s.setProc_self pid { p with mem := mem })
    (q := { p with map := map, mem := mem }) (Function.update_idem _ _ _).symm rfl rfl rfl ?_⟩
  exact fun _ _ => rfl

/-- A process faults. -/
theorem pageFault (h : FrameInv off used s) (hinv : SysInv s) {pid faultAddr : Nat}
    {zeroed : ZeroedPages} (hok : (Request.pageFault pid faultAddr zeroed).FramesOk off s)
    (hkernel : (Request.pageFault pid faultAddr zeroed).KernelOk off s)
    (hrun : (Request.pageFault pid faultAddr zeroed).run off s = some t) :
    ∃ used', FrameInv off used' t := by
  obtain ⟨p, mem, pools, hp, -, heffect⟩ := Request.run_pageFault hinv hkernel hrun
  rcases heffect with ⟨ht, hsame⟩ | ⟨page, hin, hnone, halloc, ht, hlookup⟩
  · refine ⟨used, h.sameEntries hp (q := { p with mem := mem }) ?_ ?_ ?_ ?_ hsame⟩
      <;> rw [ht] <;> rfl
  · have hpools : t.pools = pools := by rw [ht]
    have hranges : t.ranges = s.ranges := by rw [ht]; rfl
    have hmapped : t.mapped = (pid, faultAddr / 2 ^ 12) :: s.mapped := by rw [ht]
    have hprocs : t.procs = Function.update s.procs pid
      (some { p with mem := mem }) := by rw [ht]; rfl
    rw [← hpools] at halloc
    apply h.install ((hinv.map pid p hp).page_lt hin) (hok p hp hin hnone) halloc hranges hmapped
    exact pte_of_update hp hprocs hlookup

theorem step (h : FrameInv off used s) (hinv : SysInv s) (hoff : off < 2 ^ 64) {request : Request}
    (hok : request.FramesOk off s) (hkernel : request.KernelOk off s)
    (hrun : request.run off s = some t) : ∃ used', FrameInv off used' t := by
  cases request with
  | addMemory memory baseAddr pages => exact ⟨used, h.addMemory hoff hok hkernel hrun⟩
  | openDevice pid cr3 mem =>
      rw [Request.run] at hrun
      split at hrun
      · cases hrun
      next hnew =>
        obtain rfl := Option.some.inj hrun
        exact ⟨used, h.openDevice hinv (Option.not_isSome_iff_eq_none.1 hnew) hkernel.2⟩
  | lazyAlloc pid size =>
      obtain ⟨p, hp, rfl⟩ := Option.map_eq_some_iff.1 hrun
      exact ⟨used, h.sameEntries hp rfl rfl rfl rfl fun _ _ => rfl⟩
  | lazyFree pid vaddr => exact h.lazyFree hinv hoff hrun
  | pageFault pid faultAddr zeroed => exact h.pageFault hinv hok hkernel hrun

theorem initial : FrameInv off ∅ System.init where
  pools := ⟨fun _ hmp => absurd hmp List.not_mem_nil, List.Pairwise.nil⟩
  used_in _ hpage := absurd hpage (Set.notMem_empty _)
  in_ranges _ hr := absurd hr List.not_mem_nil
  mapped_lt _ _ hv := absurd hv List.not_mem_nil
  owned _ _ _ hv := absurd hv List.not_mem_nil
  exclusive _ _ _ _ _ _ hv := absurd hv List.not_mem_nil
  foreign _ _ _ _ _ _ _ hg := absurd hg List.not_mem_nil

end FrameInv

/-- In every run in which a fault never asks exhausted pools for a page, no frame is shared and
every frame that is mapped was given by `ADD_MEMORY`. -/
theorem frames_exclusive_of_framesOk {off : Nat} (hoff : off < 2 ^ 64) {requests : List Request}
    {s : System}
    (h : ((petmem off).guard fun s request => request.FramesOk off s).Reach requests s) :
    FramesExclusive s := by
  have hframes : ∃ used, FrameInv off used s := by
    apply h.history (I := fun _ s => ∃ used, FrameInv off used s)
    · rintro s rfl
      exact ⟨∅, FrameInv.initial⟩
    · rintro _ s request t hreach ⟨used, hframes⟩ ⟨hok, hkernel, hrun⟩
      exact hframes.step (sysInv_of_reach hreach.of_guard) hoff hok hkernel hrun
  obtain ⟨used, hframes⟩ := hframes
  exact hframes.framesExclusive

/-- The table that CR3 of a process points to. -/
def cr3Of (pid : Nat) : Nat := 0x10000 * pid + 0x1000

/-- The pages that `get_zeroed_page` returns for the tables of a process, which are its own. -/
def tablePagesOf (pid : Nat) : ZeroedPages where
  pdpeTablePage := 0xffff880000002000 + 0x10000 * pid
  pdeTablePage := 0xffff880000003000 + 0x10000 * pid
  pteTablePage := 0xffff880000004000 + 0x10000 * pid

theorem tablePagesOf_ok {pid : Nat} (hpid : pid < 4) :
    (tablePagesOf pid).Ok 0xffff880000000000 emptyMem (cr3Of pid) := by
  have hpdpe : pa 0xffff880000000000 (tablePagesOf pid).pdpeTablePage = 0x2000 + 0x10000 * pid := by
    simp only [tablePagesOf, pa, sub64]
    omega
  have hpde : pa 0xffff880000000000 (tablePagesOf pid).pdeTablePage = 0x3000 + 0x10000 * pid := by
    simp only [tablePagesOf, pa, sub64]
    omega
  have hpte : pa 0xffff880000000000 (tablePagesOf pid).pteTablePage = 0x4000 + 0x10000 * pid := by
    simp only [tablePagesOf, pa, sub64]
    omega
  have hcr3 : cr3ToPml4e64 (cr3Of pid) = 0x1000 + 0x10000 * pid := by
    unfold cr3ToPml4e64 cr3Of
    omega
  constructor
  · exact freshPage_emptyMem (by omega) (by omega) (by omega)
  · exact freshPage_emptyMem (by omega) (by omega) (by omega)
  · exact freshPage_emptyMem (by omega) (by omega) (by omega)
  · omega
  · omega
  · omega

/-- Three processes allocate a page each and touch it, and one page of memory was given. -/
def threeTouches : List Request :=
  [.addMemory (fun _ => 0) 0x100000 1, .openDevice 1 (cr3Of 1) emptyMem,
    .openDevice 2 (cr3Of 2) emptyMem, .openDevice 3 (cr3Of 3) emptyMem, .lazyAlloc 1 4096,
    .lazyAlloc 2 4096, .lazyAlloc 3 4096, .pageFault 1 0x1000000000 (tablePagesOf 1),
    .pageFault 2 0x1000000000 (tablePagesOf 2), .pageFault 3 0x1000000000 (tablePagesOf 3)]

/-- The first process gets the page; the others both get the page at `__pa(NULL)`, which nobody
gave. -/
theorem exhausted_pool_shares_frame :
    ∃ s, (petmem 0xffff880000000000).Reach threeTouches s ∧
      (∃ e, (2, 0x1000000) ∈ s.mapped ∧ (3, 0x1000000) ∈ s.mapped ∧
        s.pte 2 0x1000000 = some e ∧ s.pte 3 0x1000000 = some e ∧ ∀ r ∈ s.ranges,
          ¬ r.Contains e.frame) ∧
      ¬ FramesExclusive s := by
  have hrun : ∃ s, (petmem 0xffff880000000000).Reach threeTouches s ∧
      ∃ e, (2, 0x1000000) ∈ s.mapped ∧ (3, 0x1000000) ∈ s.mapped ∧
        s.pte 2 0x1000000 = some e ∧ s.pte 3 0x1000000 = some e ∧
        ∀ r ∈ s.ranges, ¬ r.Contains e.frame := by
    refine ⟨_, (Machine.Reach.init rfl).append_path
      (.cons ⟨kernelOk_addMemory_init (by decide) (by decide), rfl⟩
      (.cons ⟨kernelOk_openDevice_emptyMem, rfl⟩ (.cons ⟨kernelOk_openDevice_emptyMem, rfl⟩
      (.cons ⟨kernelOk_openDevice_emptyMem, rfl⟩ (.cons ⟨trivial, rfl⟩ (.cons ⟨trivial, rfl⟩
      (.cons ⟨trivial, rfl⟩ (.cons ⟨?_, rfl⟩ (.cons ⟨?_, rfl⟩ (.cons ⟨?_, rfl⟩ .nil)))))))))),
      mappedEntry (pa 0xffff880000000000 0), by decide, by decide, rfl, rfl, by decide⟩
    -- the page tables of the process that faults are still empty
    all_goals
      intro p hp
      obtain rfl := Option.some.inj hp
      exact tablePagesOf_ok (by decide)
  obtain ⟨s, hreach, e, hv₂, hv₃, he₂, he₃, hrange⟩ := hrun
  refine ⟨s, hreach, ⟨e, hv₂, hv₃, he₂, he₃, hrange⟩, fun hex => ?_⟩
  exact absurd (hex.1 2 0x1000000 3 0x1000000 e e hv₂ hv₃ he₂ he₃ rfl) (by decide)

/-- Two processes allocate a page each and touch it, and two pages were given. -/
def twoTouches : List Request :=
  [.addMemory (fun _ => 0) 0x100000 2, .openDevice 1 (cr3Of 1) emptyMem,
    .openDevice 2 (cr3Of 2) emptyMem, .lazyAlloc 1 4096, .lazyAlloc 2 4096,
    .pageFault 1 0x1000000000 (tablePagesOf 1), .pageFault 2 0x1000000000 (tablePagesOf 2)]

/-- With a page for each, the two processes get different frames. -/
theorem frames_exclusive_two_touches :
    ∃ s, ((petmem 0xffff880000000000).guard
        fun s request => request.FramesOk 0xffff880000000000 s).Reach twoTouches s ∧
      s.mapped = [(2, 0x1000000), (1, 0x1000000)] ∧ s.pte 1 0x1000000 ≠ none ∧
      s.pte 2 0x1000000 ≠ none ∧ FramesExclusive s := by
  have hrun : ∃ s, ((petmem 0xffff880000000000).guard
        fun s request => request.FramesOk 0xffff880000000000 s).Reach twoTouches s ∧
      s.mapped = [(2, 0x1000000), (1, 0x1000000)] ∧ s.pte 1 0x1000000 ≠ none ∧
      s.pte 2 0x1000000 ≠ none := by
    refine ⟨_, (Machine.Reach.init rfl).append_path
      (.cons ⟨show 2 % 2 ^ 32 ≤ 2 ^ 31 by decide, kernelOk_addMemory_init (by decide) (by decide),
        rfl⟩
      (.cons ⟨trivial, kernelOk_openDevice_emptyMem, rfl⟩
      (.cons ⟨trivial, kernelOk_openDevice_emptyMem, rfl⟩ (.cons ⟨trivial, trivial, rfl⟩
      (.cons ⟨trivial, trivial, rfl⟩ (.cons ⟨fun _ _ _ _ => by decide, ?_, rfl⟩
      (.cons ⟨fun _ _ _ _ => by decide, ?_, rfl⟩ .nil))))))), rfl, by decide, by decide⟩
    all_goals
      intro p hp
      obtain rfl := Option.some.inj hp
      exact tablePagesOf_ok (by decide)
  obtain ⟨s, hreach, hmapped, he₁, he₂⟩ := hrun
  exact ⟨s, hreach, hmapped, he₁, he₂, frames_exclusive_of_framesOk (by decide) hreach⟩

end PetKernel.VirtualMemory
