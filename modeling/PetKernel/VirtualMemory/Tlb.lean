import PetKernel.VirtualMemory.Processor
import PetKernel.VirtualMemory.System

/-!
# The translation lookaside buffer

The TLB keeps translations that user accesses have needed. It is a list of virtual pages with their
frames. `petmem_free_vspace` clears entries of the last level, and after each it calls
`invlpg((unsigned long)__va(addr))`, where `addr` is the physical address of the frame. So it drops
the entry of the page at which the kernel sees the frame, and not the one of the user page.

The machine `addressSpaces` runs the walk turn by turn, and user accesses may come at any time, also
between two turns. Without accesses the turns of a call are what `petmemFreeVspace` computes
(`path_of_petmemFreeVspace`). A page that is cached stays cached when it is freed
(`freed_page_stays_cached`). A turn keeps the TLB coherent if and only if the page whose entry it
clears is not cached, or is the very page that `invlpg` drops (`Coherent.turn_iff`), and then it is
coherent in every state of every run (`tlb_coherent_of_uncached`).
-/

set_option autoImplicit false

namespace PetKernel.VirtualMemory

open PetKernel.Library

/-! ## The machine -/

/-- The cached translations: virtual pages and their frames. -/
abbrev Tlb := List (Nat × Nat)

/-- `invlpg(a)` drops the entry of the page that contains `a`. -/
def invlpg (tlb : Tlb) (a : Nat) : Tlb := tlb.filter fun p => p.1 ≠ a / pageSize

/-- The address that a turn of the walk passes to `invlpg`: if it has come to a page that is
present, the source calls `invlpg(__va(actual_mem))` right after
`petmem_free_pages(actual_mem, 1)`. -/
def walkInvlpg (off cr3 : Nat) (w : Walk) : Option Nat := (turnFrame cr3 w).map (va off)

/-- What a turn of the walk does to the TLB. -/
def turnTlb (off cr3 : Nat) (w : Walk) (tlb : Tlb) : Tlb :=
  match walkInvlpg off cr3 w with
  | none => tlb
  | some a => invlpg tlb a

/-- An address space. Page tables and pools are kept in `walk`, together with the variables of the
loop of `petmem_free_vspace`; `toFree` is its `num_pages_to_free` while it runs. -/
structure AddressSpace where
  map : MemMap
  walk : Walk
  toFree : Option Nat
  tlb : Tlb

/-- The pages of user space. -/
def userPages : Nat := 2 ^ 35

/-- What happens to an address space. A call of `petmem_free_vspace` is split into its start, the
turns of the loop and its return. -/
inductive SpaceEvent where
  | allocVspace (numPages : Nat)
  | access (page : Nat)
  | pageFault (faultAddr : Nat) (zeroed : ZeroedPages)
  | freeVspace (vaddr : Nat)
  | turn
  | freeReturn

/-- What an event does; `none` if it cannot happen now, or after a `BUG_ON`. -/
def SpaceEvent.run (off cr3 : Nat) (s : AddressSpace) : SpaceEvent → Option AddressSpace
  | .allocVspace numPages =>
      if s.toFree = none then some { s with map := (petmemAllocVspace s.map numPages).2 } else none
  | .access page =>
      if page < userPages then
        (hwPteOf s.walk.mem cr3 page).map fun e =>
          { s with tlb := (page, baseToPageAddr e.baseAddr) :: s.tlb }
      else none
  | .pageFault faultAddr zeroed =>
      if s.toFree = none then
        (petmemHandlePagefault off s.map cr3 faultAddr zeroed s.walk.mem s.walk.pools).map fun r =>
          { s with walk := { s.walk with mem := r.2.1, pools := r.2.2 } }
      else none
  | .freeVspace vaddr =>
      if s.toFree = none then
        let r := petmemFreeMap s.map vaddr
        some { s with
          map := r.1
          toFree := some r.2
          walk := firstWalk vaddr s.walk.mem s.walk.pools }
      else none
  | .turn => do
      let numPagesToFree ← s.toFree
      if s.walk.numPagesFreed < numPagesToFree then
        (walkStep off cr3 s.walk).map fun w =>
          { s with walk := w, tlb := turnTlb off cr3 s.walk s.tlb }
      else none
  | .freeReturn => do
      let numPagesToFree ← s.toFree
      if s.walk.numPagesFreed < numPagesToFree then none else some { s with toFree := none }

/-- What is assumed of the kernel: `get_zeroed_page` returns fresh pages. -/
def SpaceEvent.KernelOk (off cr3 : Nat) (s : AddressSpace) : SpaceEvent → Prop
  | .pageFault _ zeroed =>
      zeroed.Ok off s.walk.mem cr3 ∧ NoHwTable s.walk.mem cr3 (zeroed.IsPage off)
  | _ => True

/-- One address space, with any page tables at the start and an empty TLB. -/
def addressSpaces (off cr3 : Nat) : Machine AddressSpace SpaceEvent where
  init s := s.map = petmemInitProcess ∧ HwTablesOk s.walk.mem cr3 ∧ s.toFree = none ∧ s.tlb = []
  step s e t := e.KernelOk off cr3 s ∧ e.run off cr3 s = some t

/-- Every cached translation is that of the page tables. -/
def Coherent (cr3 : Nat) (mem : PtMem) (tlb : Tlb) : Prop :=
  ∀ p ∈ tlb, ∃ e, hwPteOf mem cr3 p.1 = some e ∧ p.2 = baseToPageAddr e.baseAddr

/-- If a turn clears the entry of a page, then the page is not cached, or it is the page that
`invlpg` drops. -/
def TurnUncached (off cr3 : Nat) (w : Walk) (tlb : Tlb) : Prop :=
  ∀ a, walkInvlpg off cr3 w = some a → ∀ p ∈ tlb, p.1 = hwPage w.cursor → p.1 = a / pageSize

/-- The condition on an event. -/
def SpaceEvent.Uncached (off cr3 : Nat) (s : AddressSpace) : SpaceEvent → Prop
  | .turn => TurnUncached off cr3 s.walk s.tlb
  | _ => True

/-! ## A turn -/

section Turn

variable {off cr3 : Nat} {w w' : Walk} {tlb : Tlb}

/-- A turn calls `invlpg` for the frame of the page at the cursor, if there is one. -/
theorem walkInvlpg_eq (off cr3 : Nat) (w : Walk) :
    walkInvlpg off cr3 w = (pageTables.lookup w.mem (cr3ToPml4e64 cr3) w.path).map fun e =>
      va off (baseToPageAddr e.baseAddr) := by
  rw [walkInvlpg, turnFrame_eq, Option.map_map]
  rfl

theorem mem_turnTlb {p : Nat × Nat} : p ∈ turnTlb off cr3 w tlb ↔
    p ∈ tlb ∧ ∀ a, walkInvlpg off cr3 w = some a → p.1 ≠ a / pageSize := by
  rw [turnTlb]
  cases walkInvlpg off cr3 w with
  | none => simp
  | some a => simp [invlpg]

/-- A turn keeps the TLB coherent exactly if the page that it unmaps is not cached, or is the one
that `invlpg` drops. -/
theorem Coherent.turn_iff (h : Coherent cr3 w.mem tlb) (hlt : ∀ p ∈ tlb, p.1 < hwMaxPage)
    (htables : HwTablesOk w.mem cr3) (hr : w.InRange) (hstep : walkStep off cr3 w = some w') :
    Coherent cr3 w'.mem (turnTlb off cr3 w tlb) ↔ TurnUncached off cr3 w tlb := by
  obtain ⟨-, hpte⟩ := hwPteOf_walkStep htables hr hstep
  constructor
  · intro hcoh a ha p hp hpage
    by_contra hne
    -- the entry of the page is left behind
    have hmem : p ∈ turnTlb off cr3 w tlb := by
      refine mem_turnTlb.2 ⟨hp, fun a' ha' => ?_⟩
      obtain rfl := Option.some.inj (ha.symm.trans ha')
      exact hne
    obtain ⟨e, he, -⟩ := hcoh p hmem
    rw [hpte p.1 (hlt p hp), if_pos hpage] at he
    cases he
  · intro hun p hp
    obtain ⟨hp, hkept⟩ := mem_turnTlb.1 hp
    obtain ⟨e, he, hframe⟩ := h p hp
    refine ⟨e, ?_, hframe⟩
    rw [hpte p.1 (hlt p hp), if_neg]
    · exact he
    · intro hpage
      -- the page is present, so that the turn calls `invlpg`
      rw [hpage, hwPteOf_cursor hr] at he
      have ha : walkInvlpg off cr3 w = some (va off (baseToPageAddr e.baseAddr)) := by
        rw [walkInvlpg_eq, he]
        rfl
      exact hkept _ ha (hun _ ha p hp hpage)

end Turn

/-! ## Runs -/

/-- The map and the page tables of an address space are well formed. A walk that has something to
free goes on from its own invariant. -/
structure SpaceWf (cr3 : Nat) (s : AddressSpace) : Prop where
  map : MapOk s.map
  tables : HwTablesOk s.walk.mem cr3
  walk : ∀ n, s.toFree = some n → 0 < n → n ≤ 512 * 512 * 512 ∧ ∃ start, WalkInv cr3 start s.walk

namespace SpaceWf

variable {off cr3 : Nat} {s t : AddressSpace}

theorem inRange (h : SpaceWf cr3 s) {n : Nat} (hn : s.toFree = some n)
    (hlt : s.walk.numPagesFreed < n) : s.walk.InRange := by
  obtain ⟨hle, start, hinv⟩ := h.walk n hn (Nat.zero_lt_of_lt hlt)
  exact hinv.inRange (Nat.lt_of_lt_of_le hlt hle)

theorem of_init (off : Nat) (h : (addressSpaces off cr3).init s) : SpaceWf cr3 s := by
  obtain ⟨hmap, htables, hidle, -⟩ := h
  refine ⟨hmap ▸ mapOk_petmemInitProcess, htables, fun n hn => ?_⟩
  cases hidle.symm.trans hn

/-- Only an address in the map has pages to free. -/
theorem freeVspace (h : SpaceWf cr3 s) {vaddr : Nat}
    (hrun : (SpaceEvent.freeVspace vaddr).run off cr3 s = some t) : SpaceWf cr3 t := by
  rw [SpaceEvent.run, Option.ite_none_right_eq_some] at hrun
  obtain ⟨-, hrun⟩ := hrun
  obtain rfl := Option.some.inj hrun
  refine ⟨h.map.petmemFreeMap vaddr, h.tables, fun n hn hpos => ?_⟩
  obtain rfl := Option.some.inj hn
  have hin : vaddrInMap vaddr s.map = true := by
    by_contra hout
    rw [petmemFreeMap, if_neg hout] at hpos
    exact absurd hpos (Nat.lt_irrefl 0)
  have hvaddr : vaddr < 2 ^ 39 := Nat.lt_of_le_of_lt (h.map.vaddr_le hin) (by decide)
  exact ⟨(h.map.toFree_le vaddr).trans (by decide), _, walkInv_start hvaddr h.tables.tablesOk⟩

theorem step (h : SpaceWf cr3 s) {e : SpaceEvent} (hkernel : e.KernelOk off cr3 s)
    (hrun : e.run off cr3 s = some t) : SpaceWf cr3 t := by
  cases e with
  | allocVspace numPages =>
      rw [SpaceEvent.run, Option.ite_none_right_eq_some] at hrun
      obtain ⟨-, hrun⟩ := hrun
      obtain rfl := Option.some.inj hrun
      exact ⟨h.map.petmemAllocVspace numPages, h.tables, h.walk⟩
  | access page =>
      rw [SpaceEvent.run, Option.ite_none_right_eq_some] at hrun
      obtain ⟨e, -, rfl⟩ := Option.map_eq_some_iff.1 hrun.2
      exact ⟨h.map, h.tables, h.walk⟩
  | pageFault faultAddr zeroed =>
      rw [SpaceEvent.run, Option.ite_none_right_eq_some] at hrun
      obtain ⟨hidle, hrun⟩ := hrun
      obtain ⟨⟨r, mem, pools⟩, hfault, rfl⟩ := Option.map_eq_some_iff.1 hrun
      obtain ⟨htables, -⟩ := hwPteOf_petmemHandlePagefault h.tables h.map.page_lt_region hkernel.1
        hkernel.2 hfault
      refine ⟨h.map, htables, fun n hn => ?_⟩
      cases hidle.symm.trans hn
  | freeVspace vaddr => exact h.freeVspace hrun
  | turn =>
      obtain ⟨n, hn, hrun⟩ := Option.bind_eq_some_iff.1 hrun
      rw [Option.ite_none_right_eq_some] at hrun
      obtain ⟨hlt, hrun⟩ := hrun
      obtain ⟨w, hstep, rfl⟩ := Option.map_eq_some_iff.1 hrun
      have hr := h.inRange hn hlt
      refine ⟨h.map, (hwPteOf_walkStep h.tables hr hstep).1, fun n' hn' hpos => ?_⟩
      obtain ⟨hle, start, hinv⟩ := h.walk n' hn' hpos
      exact ⟨hle, start, hinv.step hr hstep⟩
  | freeReturn =>
      obtain ⟨n, -, hrun⟩ := Option.bind_eq_some_iff.1 hrun
      rw [Option.ite_none_left_eq_some] at hrun
      obtain rfl := Option.some.inj hrun.2
      exact ⟨h.map, h.tables, fun n hn => absurd hn.symm (Option.some_ne_none n)⟩

end SpaceWf

/-- The invariant of an address space: it is well formed, and its TLB agrees with the page
tables. -/
structure SpaceInv (cr3 : Nat) (s : AddressSpace) : Prop extends SpaceWf cr3 s where
  user : ∀ p ∈ s.tlb, p.1 < userPages
  coherent : Coherent cr3 s.walk.mem s.tlb

namespace SpaceInv

variable {off cr3 : Nat} {s t : AddressSpace}

theorem lt_hwMaxPage (h : SpaceInv cr3 s) : ∀ p ∈ s.tlb, p.1 < hwMaxPage :=
  fun p hp => Nat.lt_of_lt_of_le (h.user p hp) (by decide)

/-- A page that is cached by an access is mapped. -/
theorem access (h : SpaceInv cr3 s) {page : Nat}
    (hrun : (SpaceEvent.access page).run off cr3 s = some t) (hwf : SpaceWf cr3 t) :
    SpaceInv cr3 t := by
  rw [SpaceEvent.run, Option.ite_none_right_eq_some] at hrun
  obtain ⟨huser, hrun⟩ := hrun
  obtain ⟨e, he, rfl⟩ := Option.map_eq_some_iff.1 hrun
  refine ⟨hwf, ?_, ?_⟩
  · exact List.forall_mem_cons.2 ⟨huser, h.user⟩
  · exact List.forall_mem_cons.2 ⟨⟨e, he, rfl⟩, h.coherent⟩

/-- A fault maps a page that was not mapped, and hence not cached. -/
theorem pageFault (h : SpaceInv cr3 s) {faultAddr : Nat} {zeroed : ZeroedPages}
    (hkernel : (SpaceEvent.pageFault faultAddr zeroed).KernelOk off cr3 s)
    (hrun : (SpaceEvent.pageFault faultAddr zeroed).run off cr3 s = some t) (hwf : SpaceWf cr3 t) :
    SpaceInv cr3 t := by
  rw [SpaceEvent.run, Option.ite_none_right_eq_some] at hrun
  obtain ⟨-, hrun⟩ := hrun
  obtain ⟨⟨r, mem, pools⟩, hfault, rfl⟩ := Option.map_eq_some_iff.1 hrun
  obtain ⟨-, hpte⟩ := hwPteOf_petmemHandlePagefault h.tables h.map.page_lt_region hkernel.1
    hkernel.2 hfault
  refine ⟨hwf, h.user, fun p hp => ?_⟩
  obtain ⟨e, he, hframe⟩ := h.coherent p hp
  refine ⟨e, ?_, hframe⟩
  rcases hpte with hsame | ⟨page, -, hnone, -, hnew⟩
  · exact (hsame p.1 (h.lt_hwMaxPage p hp)).trans he
  · refine (hnew p.1 (h.lt_hwMaxPage p hp)).trans ?_
    rw [if_neg, he]
    intro heq
    rw [heq, hnone] at he
    cases he

theorem turn (h : SpaceInv cr3 s) (hun : SpaceEvent.turn.Uncached off cr3 s)
    (hrun : SpaceEvent.turn.run off cr3 s = some t) (hwf : SpaceWf cr3 t) : SpaceInv cr3 t := by
  obtain ⟨n, hn, hrun⟩ := Option.bind_eq_some_iff.1 hrun
  rw [Option.ite_none_right_eq_some] at hrun
  obtain ⟨hlt, hrun⟩ := hrun
  obtain ⟨w, hstep, rfl⟩ := Option.map_eq_some_iff.1 hrun
  refine ⟨hwf, fun p hp => h.user p (mem_turnTlb.1 hp).1, ?_⟩
  exact (h.coherent.turn_iff h.lt_hwMaxPage h.tables (h.toSpaceWf.inRange hn hlt) hstep).2 hun

theorem step (h : SpaceInv cr3 s) {e : SpaceEvent} (hun : e.Uncached off cr3 s)
    (hkernel : e.KernelOk off cr3 s) (hrun : e.run off cr3 s = some t) : SpaceInv cr3 t := by
  have hwf := h.toSpaceWf.step hkernel hrun
  cases e with
  | allocVspace numPages =>
      rw [SpaceEvent.run, Option.ite_none_right_eq_some] at hrun
      obtain rfl := Option.some.inj hrun.2
      exact ⟨hwf, h.user, h.coherent⟩
  | access page => exact h.access hrun hwf
  | pageFault faultAddr zeroed => exact h.pageFault hkernel hrun hwf
  | freeVspace vaddr =>
      rw [SpaceEvent.run, Option.ite_none_right_eq_some] at hrun
      obtain rfl := Option.some.inj hrun.2
      exact ⟨hwf, h.user, h.coherent⟩
  | turn => exact h.turn hun hrun hwf
  | freeReturn =>
      obtain ⟨n, -, hrun⟩ := Option.bind_eq_some_iff.1 hrun
      rw [Option.ite_none_left_eq_some] at hrun
      obtain rfl := Option.some.inj hrun.2
      exact ⟨hwf, h.user, h.coherent⟩

end SpaceInv

/-- In every run in which the walk unmaps no page that is cached, unless `invlpg` happens to drop
it, all cached translations are those of the page tables. So no page is cached that is not mapped,
in particular when `petmem_free_vspace` has returned. -/
theorem tlb_coherent_of_uncached {off cr3 : Nat} {events : List SpaceEvent} {s : AddressSpace}
    (h : ((addressSpaces off cr3).guard fun s e => e.Uncached off cr3 s).Reach events s) :
    ∀ p ∈ s.tlb, ∃ e, hwPteOf s.walk.mem cr3 p.1 = some e ∧ p.2 = baseToPageAddr e.baseAddr := by
  have hinv : SpaceInv cr3 s := by
    refine h.invariant ?_ fun s e t hs hst => hs.step hst.1 hst.2.1 hst.2.2
    intro s hinit
    refine ⟨.of_init off hinit, ?_, ?_⟩
    · rw [hinit.2.2.2]
      exact fun _ hp => absurd hp List.not_mem_nil
    · rw [hinit.2.2.2]
      exact fun _ hp => absurd hp List.not_mem_nil
  exact hinv.coherent

/-! ## The events of a call -/

section Calls

variable {off cr3 start numPagesToFree : Nat} {w' : Walk}

/-- The loop of `petmem_free_vspace` as turns and a return. -/
theorem path_of_walk (hfew : numPagesToFree ≤ 512 * 512 * 512) (map : MemMap) :
    ∀ {n : Nat} {w : Walk} (tlb : Tlb), WalkInv cr3 start w → numPagesToFree ≤ n + w.numPagesFreed →
    walk off cr3 numPagesToFree n w = some w' →
    ∃ k tlb', (addressSpaces off cr3).Path ⟨map, w, some numPagesToFree, tlb⟩
      (List.replicate k .turn ++ [.freeReturn]) ⟨map, w', none, tlb'⟩ := by
  -- the loop is done when the count is reached
  have hdone : ∀ {w : Walk} (tlb : Tlb), numPagesToFree ≤ w.numPagesFreed → w = w' →
      ∃ k tlb', (addressSpaces off cr3).Path ⟨map, w, some numPagesToFree, tlb⟩
        (List.replicate k .turn ++ [.freeReturn]) ⟨map, w', none, tlb'⟩ := by
    rintro w tlb hle rfl
    exact ⟨0, tlb, .cons ⟨trivial, if_neg (Nat.not_lt.2 hle)⟩ .nil⟩
  intro n
  induction n with
  | zero =>
      intro w tlb _ hfuel hwalk
      exact hdone tlb (by omega) (Option.some.inj hwalk)
  | succ n ih =>
      intro w tlb h hfuel hwalk
      rw [walk] at hwalk
      split at hwalk
      next hlt =>
        obtain ⟨w₁, hstep, hrest⟩ := Option.bind_eq_some_iff.1 hwalk
        have hr := h.inRange (by omega)
        have hcounts := (walkStep_spec h.tables hr hstep).counts
        obtain ⟨k, tlb', hpath⟩ := ih (turnTlb off cr3 w tlb) (h.step hr hstep) (by omega) hrest
        refine ⟨k + 1, tlb', .cons ⟨trivial, ?_⟩ hpath⟩
        show (if w.numPagesFreed < numPagesToFree then _ else none) = _
        rw [if_pos hlt, hstep]
        rfl
      next hge => exact hdone tlb (Nat.le_of_not_lt hge) (Option.some.inj hwalk)

/-- A call of `petmem_free_vspace` is a run of the machine. -/
theorem path_of_petmemFreeVspace {s : AddressSpace} (h : SpaceInv cr3 s) (hidle : s.toFree = none)
    {vaddr : Nat} {map : MemMap} {mem : PtMem} {pools : List BuddyMempool}
    (hfree : petmemFreeVspace off s.map cr3 vaddr s.walk.mem s.walk.pools =
      some (map, mem, pools)) :
    ∃ k t, (addressSpaces off cr3).Path s
        (.freeVspace vaddr :: (List.replicate k .turn ++ [.freeReturn])) t ∧
      t.map = map ∧ t.walk.mem = mem ∧ t.walk.pools = pools := by
  obtain ⟨w, hwalk, heq⟩ := Option.map_eq_some_iff.1 hfree
  cases heq
  replace hwalk : freePages off cr3 vaddr (petmemFreeMap s.map vaddr).2 s.walk.mem s.walk.pools =
    some w := hwalk
  -- the state in which the loop begins
  let s₁ : AddressSpace := ⟨(petmemFreeMap s.map vaddr).1,
    firstWalk vaddr s.walk.mem s.walk.pools, some (petmemFreeMap s.map vaddr).2, s.tlb⟩
  have hstart : (SpaceEvent.freeVspace vaddr).run off cr3 s = some s₁ := if_pos hidle
  obtain ⟨k, tlb, hpath⟩ : ∃ k tlb, (addressSpaces off cr3).Path s₁
      (List.replicate k .turn ++ [.freeReturn]) ⟨(petmemFreeMap s.map vaddr).1, w, none, tlb⟩ := by
    rcases Nat.eq_zero_or_pos (petmemFreeMap s.map vaddr).2 with hzero | hpos
    · rw [freePages, hzero] at hwalk
      obtain rfl := Option.some.inj hwalk
      exact ⟨0, s.tlb, .cons ⟨trivial, if_neg (Nat.not_lt.2 (Nat.le_of_eq hzero))⟩ .nil⟩
    · obtain ⟨hfew, start, hinv⟩ := (h.toSpaceWf.freeVspace hstart).walk _ rfl hpos
      exact path_of_walk hfew _ s.tlb hinv (Nat.le_refl _) hwalk
  exact ⟨k, _, .cons ⟨trivial, hstart⟩ hpath, rfl, rfl, rfl⟩

end Calls

/-! ## A new address space -/

/-- An address space without page tables, and one pool of a page. -/
def newSpace : AddressSpace :=
  ⟨petmemInitProcess, ⟨emptyMem, onePagePool, 0, 0, 0, 0, 0⟩, none, []⟩

theorem addressSpaces_init_newSpace (off : Nat) : (addressSpaces off 0x1000).init newSpace :=
  ⟨rfl, hwTablesOk_emptyMem _, rfl, rfl⟩

/-- Two allocations. The page of the first one is mapped and cached, the second is freed without
ever having been touched. -/
theorem tlb_coherent_untouched_page :
    ∃ s, ((addressSpaces 0xffff880000000000 0x1000).guard fun s e =>
        e.Uncached 0xffff880000000000 0x1000 s).Reach
      ([] ++ [SpaceEvent.allocVspace 1] ++ [SpaceEvent.pageFault 0x1000000000 threePages] ++
        [SpaceEvent.access 0x1000000] ++ [SpaceEvent.allocVspace 1] ++
        [SpaceEvent.freeVspace 0x1000001000] ++ [SpaceEvent.turn] ++ [SpaceEvent.freeReturn]) s ∧
      s.tlb = [(0x1000000, 0x100000)] ∧ hwPteOf s.walk.mem 0x1000 0x1000000 ≠ none := by
  have hrun : ∃ s, ((addressSpaces 0xffff880000000000 0x1000).guard fun s e =>
        e.Uncached 0xffff880000000000 0x1000 s).Reach
      ([] ++ [SpaceEvent.allocVspace 1] ++ [SpaceEvent.pageFault 0x1000000000 threePages] ++
        [SpaceEvent.access 0x1000000] ++ [SpaceEvent.allocVspace 1] ++
        [SpaceEvent.freeVspace 0x1000001000] ++ [SpaceEvent.turn] ++ [SpaceEvent.freeReturn]) s ∧
      s.tlb = [(0x1000000, 0x100000)] := by
    refine ⟨_, .step (.step (.step (.step (.step (.step (.step
      (.init (addressSpaces_init_newSpace 0xffff880000000000)) ⟨trivial, trivial, rfl⟩)
      ⟨trivial, ⟨threePages_ok, noHwTable_threePages⟩, rfl⟩) ⟨trivial, trivial, rfl⟩)
      ⟨trivial, trivial, rfl⟩) ⟨trivial, trivial, rfl⟩) ⟨?_, trivial, rfl⟩) ⟨trivial, trivial, rfl⟩,
        rfl⟩
    -- the second page is not present
    intro a ha
    exact absurd (Eq.symm ha) (Option.some_ne_none a)
  obtain ⟨s, hreach, htlb⟩ := hrun
  refine ⟨s, hreach, htlb, fun hnone => ?_⟩
  obtain ⟨e, he, -⟩ := tlb_coherent_of_uncached hreach (0x1000000, 0x100000) (by rw [htlb]; simp)
  cases hnone.symm.trans he

/-- A page is mapped, cached by an access and freed. The walk clears its entry and calls `invlpg`
for the page of the direct map, so that the translation of the user page stays cached. -/
theorem freed_page_stays_cached :
    ∃ s, (addressSpaces 0xffff880000000000 0x1000).Reach
      ([] ++ [SpaceEvent.allocVspace 1] ++ [SpaceEvent.pageFault 0x1000000000 threePages] ++
        [SpaceEvent.access 0x1000000] ++ [SpaceEvent.freeVspace 0x1000000000] ++
        [SpaceEvent.turn] ++ [SpaceEvent.freeReturn]) s ∧
      s.toFree = none ∧ (0x1000000, 0x100000) ∈ s.tlb ∧
      hwPteOf s.walk.mem 0x1000 0x1000000 = none := by
  refine ⟨_, .step (.step (.step (.step (.step (.step
    (.init (addressSpaces_init_newSpace 0xffff880000000000)) ⟨trivial, rfl⟩)
    ⟨⟨threePages_ok, noHwTable_threePages⟩, rfl⟩) ⟨trivial, rfl⟩) ⟨trivial, rfl⟩)
    ⟨trivial, rfl⟩) ⟨trivial, rfl⟩, rfl, ?_, rfl⟩
  decide

end PetKernel.VirtualMemory
