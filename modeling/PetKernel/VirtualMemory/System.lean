import PetKernel.VirtualMemory.PageWalk
import PetKernel.VirtualMemory.PoolFrames

/-!
# The device

The requests of `virtual_memory/main.c` as a machine. The pools are shared; every process has opened
the device once and has its memory map and its page tables. Two components of `System` are not part
of the program's state: the ranges that `ADD_MEMORY` was given, and the pages for which the handler
has installed an entry.

`Request.KernelOk` is what is assumed of the kernel and of the administrator who hands over memory.
`sysInv_of_reach` is the invariant that needs nothing more: maps and page tables are well formed.
`MappedAllocated` says that what is mapped is allocated. It can fail, since `vaddr_in_map` takes the
address after the end of a node for one inside (`fault_at_end_maps_free_page`), and it holds in
every run without such a fault (`mapped_pages_allocated`).
-/

set_option autoImplicit false

namespace PetKernel.VirtualMemory

open PetKernel.Library

/-! ## The machine -/

/-- A process that has opened the device. -/
structure Process where
  map : MemMap
  cr3 : Nat
  mem : PtMem

/-- The state of the device. -/
structure System where
  pools : List BuddyMempool
  procs : Nat → Option Process
  /-- The ranges that `ADD_MEMORY` was given. -/
  ranges : List PhysRange
  /-- The processes and virtual pages for which the handler has installed an entry. -/
  mapped : List (Nat × Nat)

namespace System

/-- No process and no memory. -/
def init : System := ⟨[], fun _ => none, [], []⟩

def setProc (s : System) (pid : Nat) (p : Process) : System :=
  { s with procs := Function.update s.procs pid (some p) }

/-- The present entry of a process for a virtual page. -/
def pte (s : System) (pid v : Nat) : Option PtEntry :=
  (s.procs pid).bind fun p => pteOf p.mem p.cr3 v

end System

/-- The requests. `memory` and `mem` are what the memory holds that is handed over or that holds the
page tables of the process. -/
inductive Request where
  | addMemory (memory : Nat → Nat) (baseAddr pages : Nat)
  | openDevice (pid cr3 : Nat) (mem : PtMem)
  | lazyAlloc (pid size : Nat)
  | lazyFree (pid vaddr : Nat)
  | pageFault (pid faultAddr : Nat) (zeroed : ZeroedPages)

/-- What a request does; `none` after a `BUG_ON`. -/
def Request.run (off : Nat) (s : System) : Request → Option System
  | .addMemory memory baseAddr pages =>
      (VirtualMemory.addMemory off memory s.pools baseAddr pages).map fun pools =>
        { s with pools := pools, ranges := ⟨baseAddr, pages * pageSize⟩ :: s.ranges }
  | .openDevice pid cr3 mem =>
      if (s.procs pid).isSome then none else some (s.setProc pid ⟨petmemInitProcess, cr3, mem⟩)
  | .lazyAlloc pid size =>
      (s.procs pid).map fun p =>
        s.setProc pid { p with map := (petmemAllocVspace p.map (lazyAllocPages size)).2 }
  | .lazyFree pid vaddr => do
      let p ← s.procs pid
      let (map, mem, pools) ← petmemFreeVspace off p.map p.cr3 vaddr p.mem s.pools
      return { s.setProc pid { p with map := map, mem := mem } with pools := pools }
  | .pageFault pid faultAddr zeroed => do
      let p ← s.procs pid
      let (_, mem, pools) ← petmemHandlePagefault off p.map p.cr3 faultAddr zeroed p.mem s.pools
      let v := faultAddr / 2 ^ 12
      let mapped := if pteOf p.mem p.cr3 v = none ∧ pteOf mem p.cr3 v ≠ none then
        (pid, v) :: s.mapped else s.mapped
      return { s.setProc pid { p with mem := mem } with pools := pools, mapped := mapped }

/-- What is assumed of the kernel and of the memory handed over: `ADD_MEMORY` gives whole pages of
physical memory, of which nothing was given before and to which no other entry refers; a process
comes with page tables that form a tree and refer to none of the memory given; `get_zeroed_page`
returns fresh pages. -/
def Request.KernelOk (off : Nat) (s : System) : Request → Prop
  | .addMemory _ baseAddr pages =>
      2 ^ 12 ∣ baseAddr ∧ baseAddr + pages * pageSize ≤ 2 ^ 52 ∧
      (∀ r ∈ s.ranges, PhysRange.Disjoint ⟨baseAddr, pages * pageSize⟩ r) ∧
      ∀ pid v e, v < maxPage → (pid, v) ∉ s.mapped → s.pte pid v = some e →
        ¬ PhysRange.Contains ⟨baseAddr, pages * pageSize⟩ (baseToPageAddr e.baseAddr)
  | .openDevice _ cr3 mem =>
      TablesOk mem cr3 ∧ ∀ v < maxPage, ∀ e, pteOf mem cr3 v = some e →
        ∀ r ∈ s.ranges, ¬ r.Contains (baseToPageAddr e.baseAddr)
  | .pageFault pid _ zeroed => ∀ p, s.procs pid = some p → zeroed.Ok off p.mem p.cr3
  | _ => True

/-- The device: requests of any number of processes in any order. -/
def petmem (off : Nat) : Machine System Request where
  init s := s = System.init
  step s request t := request.KernelOk off s ∧ request.run off s = some t

/-! ## Well-formed maps and page tables -/

/-- Maps and page tables are well formed, and the handler installs entries only for pages that its
tables can hold, of processes that exist. -/
structure SysInv (s : System) : Prop where
  map : ∀ pid p, s.procs pid = some p → MapOk p.map
  tables : ∀ pid p, s.procs pid = some p → TablesOk p.mem p.cr3
  mapped : ∀ pid v, (pid, v) ∈ s.mapped → v < maxPage ∧ ∃ p, s.procs pid = some p

theorem System.setProc_self (s : System) (pid : Nat) (p : Process) :
    (s.setProc pid p).procs pid = some p :=
  Function.update_self _ _ _

theorem System.setProc_of_ne (s : System) {pid pid' : Nat} (p : Process) (h : pid' ≠ pid) :
    (s.setProc pid p).procs pid' = s.procs pid' :=
  Function.update_of_ne h _ _

/-- A process of the system in which `pid` was set. -/
theorem System.setProc_cases {s : System} {pid pid' : Nat} {p q : Process}
    (h : (s.setProc pid p).procs pid' = some q) :
    (pid' = pid ∧ q = p) ∨ (pid' ≠ pid ∧ s.procs pid' = some q) := by
  by_cases heq : pid' = pid
  · subst heq
    rw [s.setProc_self] at h
    exact Or.inl ⟨rfl, (Option.some.inj h).symm⟩
  · rw [s.setProc_of_ne p heq] at h
    exact Or.inr ⟨heq, h⟩

theorem SysInv.setProc {s : System} (h : SysInv s) {pid : Nat} {p : Process} (hmap : MapOk p.map)
    (htables : TablesOk p.mem p.cr3) : SysInv (s.setProc pid p) := by
  refine ⟨?_, ?_, ?_⟩
  · intro pid' q hq
    rcases System.setProc_cases hq with ⟨-, rfl⟩ | ⟨-, hq⟩
    · exact hmap
    · exact h.map pid' q hq
  · intro pid' q hq
    rcases System.setProc_cases hq with ⟨-, rfl⟩ | ⟨-, hq⟩
    · exact htables
    · exact h.tables pid' q hq
  · intro pid' v hv
    obtain ⟨hlt, q, hq⟩ := h.mapped pid' v hv
    refine ⟨hlt, ?_⟩
    by_cases heq : pid' = pid
    · exact ⟨p, heq ▸ s.setProc_self pid p⟩
    · exact ⟨q, (s.setProc_of_ne p heq).trans hq⟩

/-- The fields that the invariant does not mention. -/
theorem SysInv.congr {s t : System} (h : SysInv s) (hprocs : t.procs = s.procs)
    (hmapped : ∀ pid v, (pid, v) ∈ t.mapped →
      (pid, v) ∈ s.mapped ∨ (v < maxPage ∧ ∃ p, s.procs pid = some p)) : SysInv t := by
  refine ⟨?_, ?_, ?_⟩
  · rw [hprocs]
    exact h.map
  · rw [hprocs]
    exact h.tables
  · rw [hprocs]
    intro pid v hv
    exact (hmapped pid v hv).elim (h.mapped pid v) id

/-- The page of an address that the map accepts. -/
theorem MapOk.page_lt {map : MemMap} (h : MapOk map) {vaddr : Nat}
    (hin : vaddrInMap vaddr map = true) : vaddr / 2 ^ 12 < maxPage :=
  Nat.lt_of_lt_of_le (h.page_lt_region hin) (by decide)

section Run

variable {off : Nat} {s t : System}

/-- What a free does: the map and the page tables of one process change, and the pools. -/
theorem Request.run_lazyFree {pid vaddr : Nat}
    (h : (Request.lazyFree pid vaddr).run off s = some t) :
    ∃ p map mem pools, s.procs pid = some p ∧
      petmemFreeVspace off p.map p.cr3 vaddr p.mem s.pools = some (map, mem, pools) ∧
      t = { s.setProc pid { p with map := map, mem := mem } with pools := pools } := by
  obtain ⟨p, hp, h⟩ := Option.bind_eq_some_iff.1 h
  obtain ⟨⟨map, mem, pools⟩, hfree, h⟩ := Option.bind_eq_some_iff.1 h
  exact ⟨p, map, mem, pools, hp, hfree, (Option.some.inj h).symm⟩

/-- What a fault does: nothing that can be seen, or it installs one entry. -/
theorem Request.run_pageFault {pid faultAddr : Nat} {zeroed : ZeroedPages} (hinv : SysInv s)
    (hkernel : (Request.pageFault pid faultAddr zeroed).KernelOk off s)
    (h : (Request.pageFault pid faultAddr zeroed).run off s = some t) :
    ∃ p mem pools, s.procs pid = some p ∧ TablesOk mem p.cr3 ∧
      ((t = s.setProc pid { p with mem := mem } ∧
          ∀ w < maxPage, pteOf mem p.cr3 w = pteOf p.mem p.cr3 w) ∨
        ∃ page, vaddrInMap faultAddr p.map = true ∧ pteOf p.mem p.cr3 (faultAddr / 2 ^ 12) = none ∧
          petmemAllocPages off s.pools 1 = some (page, pools) ∧
          t = { s.setProc pid { p with mem := mem } with
            pools := pools
            mapped := (pid, faultAddr / 2 ^ 12) :: s.mapped } ∧
          ∀ w < maxPage, pteOf mem p.cr3 w =
            if w = faultAddr / 2 ^ 12 then some (mappedEntry page) else pteOf p.mem p.cr3 w) := by
  obtain ⟨p, hp, h⟩ := Option.bind_eq_some_iff.1 h
  obtain ⟨⟨r, mem, pools⟩, hfault, h⟩ := Option.bind_eq_some_iff.1 h
  have hpage : vaddrInMap faultAddr p.map = true → faultAddr / 2 ^ 12 < maxPage :=
    (hinv.map pid p hp).page_lt
  obtain ⟨htables, heffect⟩ := pteOf_petmemHandlePagefault (hinv.tables pid p hp) hpage
    (hkernel p hp) hfault
  replace h := (Option.some.inj h).symm
  refine ⟨p, mem, pools, hp, htables, ?_⟩
  rcases heffect with ⟨rfl, hsame, hv⟩ | ⟨page, hin, hnone, halloc, hpte⟩
  · left
    -- the page was mapped already or it was refused: nothing is added to `mapped`
    rw [if_neg fun hnew => hnew.2 (hv.trans hnew.1)] at h
    exact ⟨h, hsame⟩
  · right
    have hsome : pteOf mem p.cr3 (faultAddr / 2 ^ 12) ≠ none := by
      rw [hpte _ (hpage hin), if_pos rfl]
      exact Option.some_ne_none _
    rw [if_pos ⟨hnone, hsome⟩] at h
    exact ⟨page, hin, hnone, halloc, h, hpte⟩

theorem SysInv.step {request : Request} (hinv : SysInv s) (hkernel : request.KernelOk off s)
    (h : request.run off s = some t) : SysInv t := by
  cases request with
  | addMemory memory baseAddr pages =>
      obtain ⟨pools, -, rfl⟩ := Option.map_eq_some_iff.1 h
      exact hinv.congr rfl fun pid v hv => Or.inl hv
  | openDevice pid cr3 mem =>
      rw [Request.run] at h
      split at h
      · cases h
      · obtain rfl := Option.some.inj h
        exact hinv.setProc mapOk_petmemInitProcess hkernel.1
  | lazyAlloc pid size =>
      obtain ⟨p, hp, rfl⟩ := Option.map_eq_some_iff.1 h
      exact hinv.setProc ((hinv.map pid p hp).petmemAllocVspace _) (hinv.tables pid p hp)
  | lazyFree pid vaddr =>
      obtain ⟨p, map, mem, pools, hp, hfree, rfl⟩ := Request.run_lazyFree h
      -- nothing is asked of the pools here
      obtain ⟨hmap, htables, -, -⟩ := petmemFreeVspace_spec (I := fun _ _ => True)
        (fun _ _ _ _ _ _ _ _ => trivial) (hinv.map pid p hp) (hinv.tables pid p hp) trivial hfree
      exact (hinv.setProc hmap htables).congr rfl fun pid v hv => Or.inl hv
  | pageFault pid faultAddr zeroed =>
      obtain ⟨p, mem, pools, hp, htables, heffect⟩ := Request.run_pageFault hinv hkernel h
      have hset : SysInv (s.setProc pid { p with mem := mem }) :=
        hinv.setProc (hinv.map pid p hp) htables
      rcases heffect with ⟨rfl, -⟩ | ⟨page, hin, -, -, rfl, -⟩
      · exact hset
      · refine hset.congr rfl fun pid' v hv => ?_
        rcases List.mem_cons.1 hv with heq | hv
        · cases heq
          exact Or.inr ⟨(hinv.map pid p hp).page_lt hin, _, s.setProc_self pid _⟩
        · exact Or.inl hv

theorem sysInv_init : SysInv System.init :=
  ⟨fun _ _ hp => absurd hp (by simp [System.init]), fun _ _ hp => absurd hp (by simp [System.init]),
    fun _ _ hv => absurd hv List.not_mem_nil⟩

/-- Maps and page tables are well formed in every state of every run. -/
theorem sysInv_of_reach {requests : List Request} (h : (petmem off).Reach requests s) :
    SysInv s := by
  apply h.invariant (I := SysInv)
  · rintro s rfl
    exact sysInv_init
  · rintro s request t hinv ⟨hkernel, hrun⟩
    exact hinv.step hkernel hrun

/-! ## Mapped pages are allocated -/

/-- Every virtual page that the handler has mapped and that is still present lies inside an
allocated node of the map of its process. -/
def MappedAllocated (s : System) : Prop :=
  ∀ pid v p, (pid, v) ∈ s.mapped → s.procs pid = some p → pteOf p.mem p.cr3 v ≠ none →
    ∃ n ∈ p.map, n.allocated = true ∧ n.HoldsPage v

/-- A fault that the map accepts is at an address before the end of a node. -/
def Request.InsideNode (s : System) : Request → Prop
  | .pageFault pid faultAddr _ => ∀ p, s.procs pid = some p → AcceptsInside p.map faultAddr
  | _ => True

/-- A process changes: what is mapped for the others stays allocated. -/
theorem MappedAllocated.setProc {pid : Nat} {p : Process} (h : MappedAllocated s)
    (hp : ∀ v, (pid, v) ∈ s.mapped → pteOf p.mem p.cr3 v ≠ none →
      ∃ n ∈ p.map, n.allocated = true ∧ n.HoldsPage v) : MappedAllocated (s.setProc pid p) := by
  intro pid' v q hv hq hsome
  rcases System.setProc_cases hq with ⟨rfl, rfl⟩ | ⟨-, hq⟩
  · exact hp v hv hsome
  · exact h pid' v q hv hq hsome

theorem MappedAllocated.step {request : Request} (hinv : SysInv s) (h : MappedAllocated s)
    (hok : request.InsideNode s) (hkernel : request.KernelOk off s)
    (hrun : request.run off s = some t) : MappedAllocated t := by
  cases request with
  | addMemory memory baseAddr pages =>
      obtain ⟨pools, -, rfl⟩ := Option.map_eq_some_iff.1 hrun
      exact h
  | openDevice pid cr3 mem =>
      rw [Request.run] at hrun
      split at hrun
      · cases hrun
      next hnew =>
        obtain rfl := Option.some.inj hrun
        apply h.setProc
        intro v hv _
        -- a process that did not exist has no mapped page
        obtain ⟨-, p, hp⟩ := hinv.mapped pid v hv
        rw [hp] at hnew
        exact absurd rfl hnew
  | lazyAlloc pid size =>
      obtain ⟨p, hp, rfl⟩ := Option.map_eq_some_iff.1 hrun
      apply h.setProc
      intro v hv hsome
      obtain ⟨n, hn, halloc, hpage⟩ := h pid v p hv hp hsome
      exact ⟨n, mem_petmemAllocVspace hn halloc _, halloc, hpage⟩
  | lazyFree pid vaddr =>
      obtain ⟨p, map, mem, pools, hp, hfree, rfl⟩ := Request.run_lazyFree hrun
      obtain ⟨-, -, hless, hnodes⟩ := petmemFreeVspace_spec
        (I := fun mem _ => ∀ w < maxPage, pteOf p.mem p.cr3 w = none → pteOf mem p.cr3 w = none)
        (fun _ _ _ _ _ _ hun hI w hw hnone => hun.none hw (hI w hw hnone))
        (hinv.map pid p hp) (hinv.tables pid p hp) (fun _ _ hnone => hnone) hfree
      apply MappedAllocated.setProc (s := s) h
      intro v hv hsome
      have hlt := (hinv.mapped pid v hv).1
      obtain ⟨n, hn, halloc, hpage⟩ := h pid v p hv hp fun hnone => hsome (hless v hlt hnone)
      rcases hnodes n hn halloc with hn' | hgone
      · exact ⟨n, hn', halloc, hpage⟩
      · refine absurd (hgone v hpage.1 ?_) hsome
        have hend := hpage.2
        unfold pageSize at hend ⊢
        omega
  | pageFault pid faultAddr zeroed =>
      obtain ⟨p, mem, pools, hp, -, heffect⟩ := Request.run_pageFault hinv hkernel hrun
      rcases heffect with ⟨rfl, hsame⟩ | ⟨page, hin, -, -, rfl, hpte⟩
      · refine h.setProc fun v hv hsome => h pid v p hv hp ?_
        rw [← hsame v (hinv.mapped pid v hv).1]
        exact hsome
      · obtain ⟨n, hn, halloc, hle, hlt⟩ := hok p hp hin
        have hpage := ((hinv.map pid p hp).aligned n hn).holdsPage hle hlt
        intro pid' v q hv hq hsome
        rcases System.setProc_cases hq with ⟨rfl, rfl⟩ | ⟨hne, hq⟩
        · by_cases hvv : v = faultAddr / 2 ^ 12
          · subst hvv
            exact ⟨n, hn, halloc, hpage⟩
          · -- another page of the process, which was mapped before
            have hv' : (pid', v) ∈ s.mapped := by
              rcases List.mem_cons.1 hv with heq | hv
              · exact absurd (congrArg Prod.snd heq) hvv
              · exact hv
            apply h pid' v p hv' hp
            rw [hpte v (hinv.mapped pid' v hv').1, if_neg hvv] at hsome
            exact hsome
        · rcases List.mem_cons.1 hv with heq | hv
          · exact absurd (congrArg Prod.fst heq) hne
          · exact h pid' v q hv hq hsome

/-- In every run without a fault at the end of a node, what is mapped is allocated. -/
theorem mapped_pages_allocated {requests : List Request}
    (h : ((petmem off).guard fun s request => request.InsideNode s).Reach requests s) :
    MappedAllocated s := by
  apply h.history (I := fun _ s => MappedAllocated s)
  · rintro s rfl
    exact fun _ _ _ hv => absurd hv List.not_mem_nil
  · rintro _ s request t hreach hmapped ⟨hok, hkernel, hrun⟩
    -- a guarded run is a run of the device, so that the maps and the tables are well formed
    exact hmapped.step (sysInv_of_reach hreach.of_guard) hok hkernel hrun

end Run

/-! ## Processes without page tables -/

/-- `ADD_MEMORY` before any process. -/
theorem kernelOk_addMemory_init {off b pages : Nat} {memory : Nat → Nat} (hb : 2 ^ 12 ∣ b)
    (hbound : b + pages * pageSize ≤ 2 ^ 52) :
    (Request.addMemory memory b pages).KernelOk off System.init :=
  ⟨hb, hbound, fun _ hr => absurd hr List.not_mem_nil, fun _ _ _ _ _ he => absurd he (by simp
    [System.pte, System.init])⟩

/-- A process without page tables may open the device. -/
theorem kernelOk_openDevice_emptyMem {off pid cr3 : Nat} {s : System} :
    (Request.openDevice pid cr3 emptyMem).KernelOk off s :=
  ⟨tablesOk_emptyMem cr3, fun v _ e he => absurd he (by rw [pteOf_emptyMem]; simp)⟩

/-- A process allocates one page and then faults at the address after it. The map accepts the
address, and a page is mapped that belongs to no allocated node. -/
theorem fault_at_end_maps_free_page :
    ∃ s, (petmem 0xffff880000000000).Reach
        ([] ++ [.addMemory (fun _ => 0) 0x100000 4] ++ [.openDevice 1 0x1000 emptyMem] ++
          [.lazyAlloc 1 4096] ++ [.pageFault 1 0x1000001000 threePages]) s ∧
      ¬ MappedAllocated s := by
  refine ⟨_, .step (.step (.step (.step (.init rfl) ⟨?_, rfl⟩) ⟨kernelOk_openDevice_emptyMem, rfl⟩)
    ⟨trivial, rfl⟩) ⟨?_, rfl⟩, ?_⟩
  · exact kernelOk_addMemory_init (by decide) (by decide)
  · intro p hp
    obtain rfl := Option.some.inj hp
    exact threePages_ok
  · intro hmapped
    exact absurd (hmapped 1 0x1000001 _ (by decide) rfl (by decide)) (by decide)

/-- A fault inside the node: the page that is mapped is allocated. -/
theorem mapped_pages_allocated_one_page :
    ∃ s, ((petmem 0xffff880000000000).guard fun s request => request.InsideNode s).Reach
        ([] ++ [.addMemory (fun _ => 0) 0x100000 4] ++ [.openDevice 1 0x1000 emptyMem] ++
          [.lazyAlloc 1 4096] ++ [.pageFault 1 0x1000000fff threePages]) s ∧
      s.mapped = [(1, 0x1000000)] ∧ s.pte 1 0x1000000 ≠ none ∧ MappedAllocated s := by
  have hrun : ∃ s, ((petmem 0xffff880000000000).guard fun s request => request.InsideNode s).Reach
      ([] ++ [Request.addMemory (fun _ => 0) 0x100000 4] ++
        [Request.openDevice 1 0x1000 emptyMem] ++
        [Request.lazyAlloc 1 4096] ++ [Request.pageFault 1 0x1000000fff threePages]) s ∧
      s.mapped = [(1, 0x1000000)] ∧ s.pte 1 0x1000000 ≠ none := by
    refine ⟨_, .step (.step (.step (.step (.init rfl) ⟨trivial, ?_, rfl⟩)
      ⟨trivial, kernelOk_openDevice_emptyMem, rfl⟩) ⟨trivial, trivial, rfl⟩) ⟨?_, ?_, rfl⟩, rfl,
      by decide⟩
    · exact kernelOk_addMemory_init (by decide) (by decide)
    · intro p hp _
      obtain rfl := Option.some.inj hp
      decide
    · intro p hp
      obtain rfl := Option.some.inj hp
      exact threePages_ok
  obtain ⟨s, hreach, hmapped, hpte⟩ := hrun
  exact ⟨s, hreach, hmapped, hpte, mapped_pages_allocated hreach⟩

end PetKernel.VirtualMemory
