import PetKernel.Library.Machine
import PetKernel.Library.StackMachine

/-!
# The context switch

A model of `user_threads/pet_thread_hw.S` and of the stack that `pet_thread_create` prepares. The
frame of a thread that is not running is described three times in the source: by the order of the
pushes in `save_registers`, by the order of the pops in `restore_registers`, and by
`struct exec_ctx`, through which `pet_thread_create` writes the first frame. `saveRegisters_eq`,
`restoreRegisters_eq` and `execCtx_eq` say that the three agree.

`threads` runs any number of threads on one processor, each with a stack of its own. Between two
switches the running thread may change registers and memory, but neither the stacks nor the saved
stack pointers of others. `context_switch_fidelity` says in which state a switch resumes its target.
-/

set_option autoImplicit false

namespace PetKernel.UserThreads.Hw

open PetKernel.Library

/-! ## The code -/

/-- The general registers. -/
inductive Reg where
  | rax | rbx | rcx | rdx | rsi | rdi | rbp | rsp
  | r8 | r9 | r10 | r11 | r12 | r13 | r14 | r15
deriving DecidableEq, Repr

/-- The instructions of `pet_thread_hw.S`. -/
inductive Instr where
  | pushq (r : Reg)
  | popq (r : Reg)
  /-- `movq %src, %dst`. -/
  | movq (src dst : Reg)
  /-- `movq %src, (%dst)`. -/
  | store (src dst : Reg)
  /-- `movq (%src), %dst`. -/
  | load (src dst : Reg)
  | callPetThreadCleanup
  | ret
deriving DecidableEq, Repr

/-- `save_registers`. -/
def saveRegisters : List Instr :=
  [.pushq .rbx, .pushq .rcx, .pushq .rdx, .pushq .rdi, .pushq .rsi, .pushq .r8, .pushq .r9,
    .pushq .r10, .pushq .r11, .pushq .r12, .pushq .r13, .pushq .r14, .pushq .r15, .pushq .rbp]

/-- `restore_registers`. -/
def restoreRegisters : List Instr :=
  [.popq .rbp, .popq .r15, .popq .r14, .popq .r13, .popq .r12, .popq .r11, .popq .r10, .popq .r9,
    .popq .r8, .popq .rsi, .popq .rdi, .popq .rdx, .popq .rcx, .popq .rbx]

/-- `__switch_to_stack`. -/
def switchToStack : List Instr :=
  saveRegisters ++
    [.store .rsp .rsi, .load .rdi .rsp, .movq .rdx .rdi, .movq .rcx .rsi, .callPetThreadCleanup] ++
    restoreRegisters ++ [.ret]

/-- One instruction. `cleanup` is the effect of the call of `pet_thread_cleanup`. -/
def exec (cleanup : Cpu Reg → Cpu Reg) (c : Cpu Reg) : Instr → Cpu Reg
  | .pushq r => c.push .rsp r
  | .popq r => c.pop .rsp r
  | .movq src dst => c.setReg dst (c.reg src)
  | .store src dst => { c with mem := Function.update c.mem (c.reg dst) (c.reg src) }
  | .load src dst => c.setReg dst (c.mem (c.reg src))
  | .callPetThreadCleanup => cleanup c
  | .ret => c.ret .rsp

/-- `call __switch_to_stack`, with `ret` as the return address. -/
def callSwitchToStack (cleanup : Cpu Reg → Cpu Reg) (ret : Word) (c : Cpu Reg) : Cpu Reg :=
  switchToStack.foldl (exec cleanup) (c.pushWord .rsp ret)

/-! ## The frame -/

/-- A field of `struct exec_ctx`. -/
inductive CtxField where
  | reg (r : Reg)
  | rip
deriving DecidableEq, Repr

/-- The fields of `struct exec_ctx` in order; the structure is packed. -/
def execCtx : List CtxField :=
  [.reg .rbp, .reg .r15, .reg .r14, .reg .r13, .reg .r12, .reg .r11, .reg .r10, .reg .r9, .reg .r8,
    .reg .rsi, .reg .rdi, .reg .rdx, .reg .rcx, .reg .rbx, .rip]

/-- `&ctx->f`. -/
def fieldAddr (ctx : Word) (f : CtxField) : Word := wordAt ctx (execCtx.idxOf f)

/-- `STACK_SIZE`. -/
def stackSize : Nat := 4096 * 32

/-- `num_entries` of `pet_thread_create`. -/
def numEntries : Nat := stackSize / 8

/-- The memory after `pet_thread_create(func, arg)` has allocated the stack `stackBottom` and has
stored the stack pointer at `stackRsp`, the address of the field `stack_rsp` of the new thread. -/
def petThreadCreate (captureReturn stackBottom stackRsp func arg : Word) (m : WordMem) : WordMem :=
  let calloc : WordMem := fun a =>
    if stackBottom.toNat ≤ a.toNat ∧ a.toNat < stackBottom.toNat + stackSize then 0 else m a
  let initCtx := wordAt stackBottom (numEntries - 16)
  let m₁ := Function.update calloc (fieldAddr initCtx .rip) func
  let m₂ := Function.update m₁ (fieldAddr initCtx (.reg .rbp)) (wordAt stackBottom (numEntries - 1))
  let m₃ := Function.update m₂ (fieldAddr initCtx (.reg .rdi)) arg
  let m₄ := Function.update m₃ (wordAt stackBottom (numEntries - 1)) captureReturn
  Function.update m₄ stackRsp initCtx

/-- The registers of a frame, from the top of the stack. -/
def ctxRegs : List Reg :=
  [.rbp, .r15, .r14, .r13, .r12, .r11, .r10, .r9, .r8, .rsi, .rdi, .rdx, .rcx, .rbx]

theorem execCtx_eq : execCtx = ctxRegs.map .reg ++ [.rip] := rfl

theorem saveRegisters_eq : saveRegisters = ctxRegs.reverse.map .pushq := rfl

theorem restoreRegisters_eq : restoreRegisters = ctxRegs.map .popq := rfl

theorem mem_ctxRegs {r : Reg} (hax : r ≠ .rax) (hsp : r ≠ .rsp) : r ∈ ctxRegs := by
  cases r <;> first | exact absurd rfl hax | exact absurd rfl hsp | decide

theorem rsp_not_mem_ctxRegs : Reg.rsp ∉ ctxRegs := by decide

/-- The context of a thread that calls `__switch_to_stack` with the registers `regs` and the return
address `ret`. -/
def callCtx (regs : Reg → Word) (ret : Word) : CtxField → Word
  | .reg r => regs r
  | .rip => ret

/-- The context that `pet_thread_create` writes. -/
def initCtx (stackBottom func arg : Word) : CtxField → Word
  | .rip => func
  | .reg .rbp => wordAt stackBottom (numEntries - 1)
  | .reg .rdi => arg
  | .reg _ => 0

/-! ## Threads and their stacks -/

section Threads

variable {ι : Type}

/-- Where the stacks and the `stack_rsp` fields of the threads `ι` lie. -/
structure Layout (ι : Type) where
  stackBottom : ι → Word
  size : ι → Nat
  /-- `&thread->stack_rsp`. -/
  stackRsp : ι → Word
  no_wrap : ∀ i, (stackBottom i).toNat + size i ≤ 2 ^ 64
  disjoint : ∀ i j, i ≠ j → (stackBottom i).toNat + size i ≤ (stackBottom j).toNat ∨
    (stackBottom j).toNat + size j ≤ (stackBottom i).toNat
  stackRsp_inj : ∀ i j, stackRsp i = stackRsp j → i = j
  stackRsp_outside : ∀ i j, (stackRsp i).toNat < (stackBottom j).toNat ∨
    (stackBottom j).toNat + size j ≤ (stackRsp i).toNat

/-- The word at `a` belongs to the stack of `i`. -/
def Layout.InStack (L : Layout ι) (i : ι) (a : Word) : Prop :=
  (L.stackBottom i).toNat ≤ a.toNat ∧ a.toNat < (L.stackBottom i).toNat + L.size i

theorem Layout.InStack.unique {L : Layout ι} {i j : ι} {a : Word} (hi : L.InStack i a)
    (hj : L.InStack j a) : i = j := by
  by_contra hne
  have hd := L.disjoint i j hne
  have h1 := hi.1
  have h2 := hi.2
  have h3 := hj.1
  have h4 := hj.2
  omega

theorem Layout.InStack.ne_stackRsp {L : Layout ι} {j : ι} {a : Word} (hj : L.InStack j a) (i : ι) :
    a ≠ L.stackRsp i := by
  rintro rfl
  have ho := L.stackRsp_outside i j
  have h1 := hj.1
  have h2 := hj.2
  omega

/-- What `pet_thread_cleanup` may do on the stack of `j`: it returns with the stack pointer that it
was called with, it writes stack memory only below that, and it leaves the saved stack pointers
alone. -/
structure Cleanup (L : Layout ι) (j : ι) where
  run : Cpu Reg → Cpu Reg
  rsp_eq : ∀ c, (run c).reg .rsp = c.reg .rsp
  stack_eq : ∀ c i a, L.InStack i a → (i = j → (c.reg .rsp).toNat ≤ a.toNat) →
    (run c).mem a = c.mem a
  stackRsp_eq : ∀ c i, (run c).mem (L.stackRsp i) = c.mem (L.stackRsp i)

/-- How a thread that does not run was left: it has never run, or it called `__switch_to_stack` with
the registers `regs` and the return address `ret`. -/
inductive Suspended where
  | fresh (func arg : Word)
  | switched (regs : Reg → Word) (ret : Word)

/-- The processor, the running thread, and how the other threads were left. -/
structure State (ι : Type) where
  cpu : Cpu Reg
  current : ι
  suspended : ι → Option Suspended

/-- What happens: the running thread computes, creates the thread `j`, or calls `__switch_to_stack`
for `j`. -/
inductive Act (L : Layout ι) where
  | compute
  | create (j : ι) (func arg : Word)
  | switchTo (j : ι) (ret : Word) (cleanup : Cleanup L j)

/-- One step of the threads. A switch is called with the addresses of the two `stack_rsp` fields in
`%rdi` and `%rsi`, and with room for its frame on the stack of the caller. -/
def Step [DecidableEq ι] (L : Layout ι) (captureReturn : Word) (s : State ι) :
    Act L → State ι → Prop
  | .compute, t =>
      t.current = s.current ∧ t.suspended = s.suspended ∧
        (∀ i a, i ≠ s.current → L.InStack i a → t.cpu.mem a = s.cpu.mem a) ∧
        ∀ i, t.cpu.mem (L.stackRsp i) = s.cpu.mem (L.stackRsp i)
  | .create j func arg, t =>
      j ≠ s.current ∧ s.suspended j = none ∧ L.size j = stackSize ∧
        t.current = s.current ∧
        t.suspended = Function.update s.suspended j (some (.fresh func arg)) ∧
        t.cpu.mem =
          petThreadCreate captureReturn (L.stackBottom j) (L.stackRsp j) func arg s.cpu.mem
  | .switchTo j ret cleanup, t =>
      j ≠ s.current ∧ s.suspended j ≠ none ∧
        s.cpu.reg .rdi = L.stackRsp j ∧ s.cpu.reg .rsi = L.stackRsp s.current ∧
        (L.stackBottom s.current).toNat + 8 * execCtx.length ≤ (s.cpu.reg .rsp).toNat ∧
        (s.cpu.reg .rsp).toNat ≤ (L.stackBottom s.current).toNat + L.size s.current ∧
        t.cpu = callSwitchToStack cleanup.run ret s.cpu ∧
        t.current = j ∧
        t.suspended = Function.update
          (Function.update s.suspended s.current (some (.switched s.cpu.reg ret))) j none

/-- Any number of threads on one processor; `master` runs first. -/
def threads [DecidableEq ι] (L : Layout ι) (captureReturn : Word) (master : ι) :
    Machine (State ι) (Act L) where
  init s := s.current = master ∧ ∀ i, s.suspended i = none
  step := Step L captureReturn

/-! ## Frames in memory -/

/-- The words on the stack of a thread that was left, from its saved stack pointer on. -/
def Suspended.words (captureReturn stackBottom : Word) : Suspended → List Word
  | .fresh func arg => execCtx.map (initCtx stackBottom func arg) ++ [captureReturn]
  | .switched regs ret => execCtx.map (callCtx regs ret)

/-- The memory holds the frame of `j`, inside the stack of `j`. -/
structure Frame (L : Layout ι) (captureReturn : Word) (m : WordMem) (j : ι) (sus : Suspended) :
    Prop where
  words : HoldsAt m (m (L.stackRsp j)) (sus.words captureReturn (L.stackBottom j))
  lo : (L.stackBottom j).toNat ≤ (m (L.stackRsp j)).toNat
  hi : (m (L.stackRsp j)).toNat + 8 * (sus.words captureReturn (L.stackBottom j)).length ≤
    (L.stackBottom j).toNat + L.size j
  rsp : ∀ regs ret, sus = .switched regs ret → wordAt (m (L.stackRsp j)) 15 = regs .rsp

variable {L : Layout ι} {captureReturn : Word} {m m' : WordMem} {j : ι} {sus : Suspended}

/-- A frame survives every change of memory outside of it. -/
theorem Frame.congr (h : Frame L captureReturn m j sus)
    (hrsp : m' (L.stackRsp j) = m (L.stackRsp j))
    (hstack : ∀ a, L.InStack j a → (m (L.stackRsp j)).toNat ≤ a.toNat → m' a = m a) :
    Frame L captureReturn m' j sus := by
  constructor
  · rw [hrsp]
    apply h.words.congr
    intro k hk
    have hhi := h.hi
    have hlo := h.lo
    have hwrap := L.no_wrap j
    have hat : (wordAt (m (L.stackRsp j)) k).toNat = (m (L.stackRsp j)).toNat + 8 * k :=
      wordAt_toNat (by omega)
    refine hstack _ ⟨?_, ?_⟩ ?_ <;> omega
  · rw [hrsp]
    exact h.lo
  · rw [hrsp]
    exact h.hi
  · rw [hrsp]
    exact h.rsp

/-! ## The first frame of a thread -/

/-- The word `k` of the frame that `pet_thread_create` writes. -/
theorem petThreadCreate_apply {stackBottom stackRsp func arg : Word} {k : Nat}
    (hwrap : stackBottom.toNat + stackSize ≤ 2 ^ 64) (hk : k < 16)
    (hrsp : wordAt (wordAt stackBottom (numEntries - 16)) k ≠ stackRsp) :
    petThreadCreate captureReturn stackBottom stackRsp func arg m
        (wordAt (wordAt stackBottom (numEntries - 16)) k) =
      if k = 15 then captureReturn
      else if k = 10 then arg
      else if k = 0 then wordAt stackBottom (numEntries - 1)
      else if k = 14 then func
      else 0 := by
  have htop : wordAt stackBottom (numEntries - 1) =
      wordAt (wordAt stackBottom (numEntries - 16)) 15 := by
    rw [wordAt_wordAt]
    rfl
  have hzero : stackBottom.toNat ≤ (wordAt (wordAt stackBottom (numEntries - 16)) k).toNat ∧
      (wordAt (wordAt stackBottom (numEntries - 16)) k).toNat < stackBottom.toNat + stackSize := by
    have hn : numEntries - 16 = 16368 := by decide
    have hs : stackSize = 131072 := by decide
    rw [wordAt_wordAt, wordAt_toNat] <;> omega
  -- the words of the frame are at different addresses
  have hinj : ∀ i, i < 16 → (wordAt (wordAt stackBottom (numEntries - 16)) k =
      wordAt (wordAt stackBottom (numEntries - 16)) i ↔ k = i) := fun i hi =>
    wordAt_inj (by omega) (by omega)
  have hrip : fieldAddr (wordAt stackBottom (numEntries - 16)) .rip =
      wordAt (wordAt stackBottom (numEntries - 16)) 14 := rfl
  have hrbp : fieldAddr (wordAt stackBottom (numEntries - 16)) (.reg .rbp) =
      wordAt (wordAt stackBottom (numEntries - 16)) 0 := rfl
  have hrdi : fieldAddr (wordAt stackBottom (numEntries - 16)) (.reg .rdi) =
      wordAt (wordAt stackBottom (numEntries - 16)) 10 := rfl
  unfold petThreadCreate
  rw [hrip, hrbp, hrdi, htop]
  simp only [Function.update_apply, if_neg hrsp, hinj 15 (by decide), hinj 10 (by decide),
    hinj 0 (by decide), hinj 14 (by decide), if_pos hzero]

theorem petThreadCreate_rsp {stackBottom stackRsp func arg : Word} :
    petThreadCreate captureReturn stackBottom stackRsp func arg m stackRsp =
      wordAt stackBottom (numEntries - 16) :=
  Function.update_self _ _ _

/-- `pet_thread_create` writes the stack and the saved stack pointer of the new thread only. -/
theorem petThreadCreate_of_outside {stackBottom stackRsp func arg a : Word}
    (hwrap : stackBottom.toNat + stackSize ≤ 2 ^ 64)
    (ha : a.toNat < stackBottom.toNat ∨ stackBottom.toNat + stackSize ≤ a.toNat)
    (hrsp : a ≠ stackRsp) :
    petThreadCreate captureReturn stackBottom stackRsp func arg m a = m a := by
  have hn : numEntries = 16384 := by decide
  have hs : stackSize = 131072 := by decide
  have hne : ∀ k, k < numEntries → a ≠ wordAt stackBottom k := by
    rintro k hk rfl
    rw [wordAt_toNat (by omega)] at ha
    omega
  have hfield : ∀ f, a ≠ fieldAddr (wordAt stackBottom (numEntries - 16)) f := by
    intro f
    have hf : execCtx.idxOf f ≤ 15 := List.idxOf_le_length
    rw [fieldAddr, wordAt_wordAt]
    exact hne _ (by omega)
  unfold petThreadCreate
  rw [Function.update_of_ne hrsp, Function.update_of_ne (hne _ (by omega)),
    Function.update_of_ne (hfield _), Function.update_of_ne (hfield _),
    Function.update_of_ne (hfield _)]
  exact if_neg (by omega)

theorem frame_petThreadCreate (func arg : Word) (hsize : L.size j = stackSize) :
    Frame L captureReturn
      (petThreadCreate captureReturn (L.stackBottom j) (L.stackRsp j) func arg m) j
      (.fresh func arg) := by
  have hwrap := L.no_wrap j
  rw [hsize] at hwrap
  have hn : numEntries - 16 = 16368 := by decide
  have hs : stackSize = 131072 := by decide
  have hat : (wordAt (L.stackBottom j) (numEntries - 16)).toNat = (L.stackBottom j).toNat +
      130944 := by
    rw [wordAt_toNat] <;> omega
  constructor
  · rw [petThreadCreate_rsp]
    refine holdsAt_of_getElem? fun k hk => ?_
    have hk : k < 16 := hk
    have hrsp : wordAt (wordAt (L.stackBottom j) (numEntries - 16)) k ≠ L.stackRsp j := by
      refine Layout.InStack.ne_stackRsp (j := j) ⟨?_, ?_⟩ j <;>
        rw [wordAt_toNat (by omega), hat] <;> omega
    -- the sixteen words one after the other
    rw [petThreadCreate_apply hwrap hk hrsp]
    interval_cases k <;> rfl
  · rw [petThreadCreate_rsp, hat]
    omega
  · rw [petThreadCreate_rsp, hat]
    show _ + 8 * 16 ≤ _
    omega
  · intro regs ret hsus
    cases hsus

/-! ## One switch -/

/-- The processor after `save_registers`, at the start of which the return address is on the
stack. -/
def saved (ret : Word) (c : Cpu Reg) : Cpu Reg :=
  ctxRegs.reverse.foldl (Cpu.push .rsp) (c.pushWord .rsp ret)

/-- The processor when `pet_thread_cleanup` is called, on the stack of the target. -/
def onTarget (ret : Word) (c : Cpu Reg) : Cpu Reg :=
  let c₁ := saved ret c
  let m := Function.update c₁.mem (c₁.reg .rsi) (c₁.reg .rsp)
  ((Cpu.setReg { c₁ with mem := m } .rsp (m (c₁.reg .rdi))).setReg .rdi (c₁.reg .rdx)).setReg .rsi
    (c₁.reg .rcx)

/-- The processor after `restore_registers` and `ret`. -/
def restored (c : Cpu Reg) : Cpu Reg := (ctxRegs.foldl (Cpu.pop .rsp) c).ret .rsp

theorem foldl_pushq (cleanup : Cpu Reg → Cpu Reg) (rs : List Reg) (c : Cpu Reg) :
    (rs.map .pushq).foldl (exec cleanup) c = rs.foldl (Cpu.push .rsp) c := by
  rw [List.foldl_map]
  rfl

theorem foldl_popq (cleanup : Cpu Reg → Cpu Reg) (rs : List Reg) (c : Cpu Reg) :
    (rs.map .popq).foldl (exec cleanup) c = rs.foldl (Cpu.pop .rsp) c := by
  rw [List.foldl_map]
  rfl

theorem callSwitchToStack_eq (cleanup : Cpu Reg → Cpu Reg) (ret : Word) (c : Cpu Reg) :
    callSwitchToStack cleanup ret c =
      restored (cleanup (onTarget ret c)) := by
  unfold callSwitchToStack switchToStack onTarget restored
  rw [List.foldl_append, List.foldl_append, List.foldl_append, saveRegisters_eq, foldl_pushq,
    restoreRegisters_eq, foldl_popq, ← saved]
  generalize saved ret c = c₁
  simp only [List.foldl_cons, List.foldl_nil, exec]
  congr 4

section Saved

variable {c : Cpu Reg} {ret : Word}

theorem saved_rsp (ret : Word) : (saved ret c).reg .rsp = c.reg .rsp - 120 := by
  rw [saved, Cpu.pushes_sp, Cpu.pushWord_sp]
  show c.reg .rsp - 8 - 112 = c.reg .rsp - 120
  bv_omega

/-- After `save_registers` the context of the caller is on top of its stack. -/
theorem saved_spec : HoldsAt (saved ret c).mem ((saved ret c).reg .rsp)
      (execCtx.map (callCtx c.reg ret)) ∧ ∀ r, r ≠ .rsp → (saved ret c).reg r = c.reg r := by
  have hret : HoldsAt (c.pushWord .rsp ret).mem ((c.pushWord .rsp ret).reg .rsp) [ret] := by
    have hnil : HoldsAt c.mem (c.reg .rsp) [] := trivial
    rw [Cpu.pushWord_mem, Cpu.pushWord_sp]
    exact hnil.push ret (by decide)
  obtain ⟨hw, hreg⟩ := Cpu.pushes_spec ctxRegs.reverse (c.pushWord .rsp ret) [ret]
    (by decide) hret (show 8 * (14 + 1) < 2 ^ 64 by decide)
  refine ⟨hw, fun r hr => (hreg r hr).trans (Cpu.pushWord_reg c ret hr)⟩

theorem saved_mem {a : Word} (hroom : 120 ≤ (c.reg .rsp).toNat)
    (ha : a.toNat + 120 < (c.reg .rsp).toNat ∨ (c.reg .rsp).toNat ≤ a.toNat) :
    (saved ret c).mem a = c.mem a := by
  have h8 : (c.reg .rsp - 8).toNat = (c.reg .rsp).toNat - 8 := by bv_omega
  have hne : a ≠ c.reg .rsp - 8 := by
    rintro rfl
    omega
  have hlen : ctxRegs.reverse.length = 14 := by decide
  refine (Cpu.pushes_mem _ _ a ?_ ?_).trans (Function.update_of_ne hne _ _)
  · rw [Cpu.pushWord_sp, hlen]
    omega
  · rw [Cpu.pushWord_sp, hlen]
    omega

end Saved

/-- The caller of a switch has room for its frame. -/
structure Room (L : Layout ι) (i : ι) (c : Cpu Reg) : Prop where
  lo : (L.stackBottom i).toNat + 120 ≤ (c.reg .rsp).toNat
  hi : (c.reg .rsp).toNat ≤ (L.stackBottom i).toNat + L.size i

section Switch

variable {i : ι} {c : Cpu Reg} {ret : Word}

theorem onTarget_mem (hrsi : c.reg .rsi = L.stackRsp i) :
    (onTarget ret c).mem =
      Function.update (saved ret c).mem (L.stackRsp i) (c.reg .rsp - 120) := by
  show Function.update (saved ret c).mem ((saved ret c).reg .rsi) ((saved ret c).reg .rsp) = _
  rw [saved_rsp, saved_spec.2 .rsi (by decide), hrsi]

theorem onTarget_rsp (hrdi : c.reg .rdi = L.stackRsp j) :
    (onTarget ret c).reg .rsp = (onTarget ret c).mem (L.stackRsp j) := by
  show (onTarget ret c).mem ((saved ret c).reg .rdi) = _
  rw [saved_spec.2 .rdi (by decide), hrdi]

/-- Saving the caller leaves the frames of the others alone. -/
theorem Frame.onTarget (h : Frame L captureReturn c.mem j sus) (hroom : Room L i c)
    (hrsi : c.reg .rsi = L.stackRsp i) (hji : j ≠ i) :
    Frame L captureReturn (onTarget ret c).mem j sus := by
  have hlo := hroom.lo
  have hhi := hroom.hi
  have hmem : ∀ a, ¬ L.InStack i a → a ≠ L.stackRsp i → (Hw.onTarget ret c).mem a = c.mem a := by
    intro a ha hne
    rw [onTarget_mem hrsi, Function.update_of_ne hne]
    apply saved_mem (by omega)
    by_contra hcon
    exact ha ⟨by omega, by omega⟩
  refine h.congr (hmem _ ?_ ?_) fun a ha _ => hmem a ?_ (ha.ne_stackRsp i)
  · exact fun hin => hin.ne_stackRsp j rfl
  · exact fun he => hji (L.stackRsp_inj _ _ he)
  · exact fun hin => hji (ha.unique hin)

/-- The frame of the caller, with its saved stack pointer. -/
theorem frame_onTarget (hroom : Room L i c) (hrsi : c.reg .rsi = L.stackRsp i) :
    Frame L captureReturn (onTarget ret c).mem i (.switched c.reg ret) := by
  have hlo := hroom.lo
  have hhi := hroom.hi
  have hwrap := L.no_wrap i
  have hsp : (onTarget ret c).mem (L.stackRsp i) = c.reg .rsp - 120 := by
    rw [onTarget_mem hrsi, Function.update_self]
  have hsub : (c.reg .rsp - 120).toNat = (c.reg .rsp).toNat - 120 := by bv_omega
  constructor
  · rw [hsp, ← saved_rsp ret]
    apply saved_spec.1.congr
    intro k hk
    have hk : k < 15 := hk
    have hin : L.InStack i (wordAt ((saved ret c).reg .rsp) k) := by
      rw [saved_rsp]
      refine ⟨?_, ?_⟩ <;> rw [wordAt_toNat (by omega)] <;> omega
    rw [onTarget_mem hrsi, Function.update_of_ne (hin.ne_stackRsp i)]
  · rw [hsp]
    omega
  · rw [hsp]
    show _ + 8 * 15 ≤ _
    omega
  · rintro regs ret' hsus
    cases hsus
    rw [hsp, wordAt]
    show c.reg .rsp - 120 + 120 = c.reg .rsp
    bv_omega

end Switch

theorem restored_mem (c : Cpu Reg) : (restored c).mem = c.mem := by
  rw [restored, Cpu.ret_mem, Cpu.pops_mem]

/-- `restore_registers` and `ret` load the context that is on top of the stack. -/
theorem restored_spec {c : Cpu Reg} {ctx : CtxField → Word} {ws : List Word}
    (h : HoldsAt c.mem (c.reg .rsp) (execCtx.map ctx ++ ws)) :
    (∀ r ∈ ctxRegs, (restored c).reg r = ctx (.reg r)) ∧ (restored c).rip = ctx .rip ∧
      (restored c).reg .rsp = wordAt (c.reg .rsp) 15 ∧
      HoldsAt (restored c).mem ((restored c).reg .rsp) ws := by
  have hwords : execCtx.map ctx ++ ws =
      ctxRegs.map (fun r => ctx (.reg r)) ++ (ctx .rip :: ws) := by
    rw [execCtx_eq]
    simp
  rw [hwords] at h
  obtain ⟨hregs, hrest, hsp⟩ := Cpu.pops_spec ctxRegs c (fun r => ctx (.reg r))
    (ctx .rip :: ws) (by decide) rsp_not_mem_ctxRegs h
  rw [restored_mem, restored, Cpu.ret_sp, Cpu.ret_rip, Cpu.pops_mem]
  refine ⟨fun r hr => ?_, hrest.1, ?_, hrest.2⟩
  · have hne : r ≠ .rsp := fun he => rsp_not_mem_ctxRegs (he ▸ hr)
    rw [Cpu.ret_reg _ hne]
    exact hregs r hr
  · rw [hsp, ← wordAt_zero (wordAt (c.reg .rsp) ctxRegs.length + 8), wordAt_succ, wordAt_wordAt]
    rfl

section Runs

variable [DecidableEq ι] {s t : State ι} {master : ι}

/-- Every thread that was left has its frame in memory. -/
def Frames (L : Layout ι) (captureReturn : Word) (s : State ι) : Prop :=
  ∀ j sus, s.suspended j = some sus → j ≠ s.current ∧ Frame L captureReturn s.cpu.mem j sus

/-- A switch, seen from every thread that is left behind: its frame is there when
`pet_thread_cleanup` is called and still there when it returns. -/
theorem Frames.switchTo (h : Frames L captureReturn s) {ret : Word} {cleanup : Cleanup L j}
    (hst : Step L captureReturn s (.switchTo j ret cleanup) t) {k : ι}
    (hk : k = s.current ∧ sus = .switched s.cpu.reg ret ∨ s.suspended k = some sus) :
    Frame L captureReturn (onTarget ret s.cpu).mem k sus ∧
      Frame L captureReturn (cleanup.run (onTarget ret s.cpu)).mem k sus := by
  obtain ⟨hj, -, hrdi, hrsi, hlo, hhi, -, -, -⟩ := hst
  have hroom : Room L s.current s.cpu := ⟨hlo, hhi⟩
  have hframe : Frame L captureReturn (onTarget ret s.cpu).mem k sus := by
    rcases hk with ⟨rfl, rfl⟩ | hk
    · exact frame_onTarget hroom hrsi
    · exact (h k sus hk).2.onTarget hroom hrsi (h k sus hk).1
  refine ⟨hframe, hframe.congr (cleanup.stackRsp_eq _ k) fun a ha hsp => ?_⟩
  apply cleanup.stack_eq _ k a ha
  intro hkj
  subst hkj
  rw [onTarget_rsp hrdi]
  exact hsp

/-- `pet_thread_create` writes into the new stack only, and no suspended thread has its frame
there. -/
theorem Frames.create (h : Frames L captureReturn s) {j : ι} {func arg : Word}
    (hst : Step L captureReturn s (.create j func arg) t) : Frames L captureReturn t := by
  obtain ⟨hne, -, hsize, hcur, hsus, hmem⟩ := hst
  intro k sus hk
  rw [hsus] at hk
  rw [hcur, hmem]
  by_cases hkj : k = j
  · subst hkj
    rw [Function.update_self] at hk
    cases hk
    exact ⟨hne, frame_petThreadCreate func arg hsize⟩
  · rw [Function.update_of_ne hkj] at hk
    obtain ⟨hkne, hframe⟩ := h k sus hk
    have hwrap := L.no_wrap j
    rw [hsize] at hwrap
    have hstackRsp := L.stackRsp_outside k j
    rw [hsize] at hstackRsp
    refine ⟨hkne, hframe.congr (petThreadCreate_of_outside hwrap hstackRsp ?_) fun a ha _ =>
      petThreadCreate_of_outside hwrap ?_ (ha.ne_stackRsp j)⟩
    · exact fun he => hkj (L.stackRsp_inj _ _ he)
    · have hd := L.disjoint k j hkj
      have h1 := ha.1
      have h2 := ha.2
      omega

theorem Frames.step (h : Frames L captureReturn s) {a : Act L} (hst : Step L captureReturn s a t) :
    Frames L captureReturn t := by
  cases a with
  | compute =>
      obtain ⟨hcur, hsus, hstack, hrsp⟩ := hst
      intro j sus hj
      rw [hsus] at hj
      obtain ⟨hne, hframe⟩ := h j sus hj
      rw [hcur]
      exact ⟨hne, hframe.congr (hrsp j) fun a ha _ => hstack j a hne ha⟩
  | create j func arg =>
      exact h.create hst
  | switchTo j ret cleanup =>
      have hst' := hst
      obtain ⟨-, -, -, -, -, -, hcpu, hcur, hsus⟩ := hst'
      intro k sus hk
      rw [hsus] at hk
      have hkj : k ≠ j := by
        rintro rfl
        rw [Function.update_self] at hk
        cases hk
      rw [Function.update_of_ne hkj] at hk
      -- the thread that is left has its frame from this switch, the others from before
      have hleft : k = s.current ∧ sus = .switched s.cpu.reg ret ∨ s.suspended k = some sus := by
        by_cases hkc : k = s.current
        · subst hkc
          rw [Function.update_self] at hk
          cases hk
          exact Or.inl ⟨rfl, rfl⟩
        · rw [Function.update_of_ne hkc] at hk
          exact Or.inr hk
      rw [hcur]
      refine ⟨hkj, ?_⟩
      rw [hcpu, callSwitchToStack_eq, restored_mem]
      exact (h.switchTo hst hleft).2

theorem threads_frames {es : List (Act L)} (h : (threads L captureReturn master).Reach es s) :
    Frames L captureReturn s := by
  refine h.invariant (fun s hs j sus hj => ?_) fun s a t hs hst => hs.step hst
  rw [hs.2 j] at hj
  cases hj

/-- What a switch to `j` restores, by the way in which `j` was left. -/
theorem Frames.resumed (h : Frames L captureReturn s) {ret : Word} {cleanup : Cleanup L j}
    (hst : Step L captureReturn s (.switchTo j ret cleanup) t) (hj : s.suspended j = some sus)
    {ctx : CtxField → Word} {ws : List Word}
    (hwords : sus.words captureReturn (L.stackBottom j) = execCtx.map ctx ++ ws) :
    (∀ r ∈ ctxRegs, t.cpu.reg r = ctx (.reg r)) ∧ t.cpu.rip = ctx .rip ∧
      HoldsAt t.cpu.mem (t.cpu.reg .rsp) ws ∧
      ∀ regs ret', sus = .switched regs ret' → t.cpu.reg .rsp = regs .rsp := by
  obtain ⟨-, hframe⟩ := h.switchTo hst (Or.inr hj)
  obtain ⟨-, -, hrdi, -, -, -, hcpu, -, -⟩ := hst
  have hrsp : (cleanup.run (onTarget ret s.cpu)).reg .rsp =
      (cleanup.run (onTarget ret s.cpu)).mem (L.stackRsp j) := by
    rw [cleanup.rsp_eq, cleanup.stackRsp_eq, onTarget_rsp hrdi]
  have hhold := hframe.words
  rw [hwords, ← hrsp] at hhold
  obtain ⟨hregs, hrip, hsp, hws⟩ := restored_spec hhold
  rw [hcpu, callSwitchToStack_eq]
  refine ⟨hregs, hrip, hws, fun regs ret' hsus => ?_⟩
  rw [hsp, hrsp]
  exact hframe.rsp regs ret' hsus

/-- The action switches to `i`. -/
def Act.SwitchesTo (i : ι) : Act L → Prop
  | .switchTo j _ _ => j = i
  | _ => False

/-- A thread stays as it was left until there is a switch to it. -/
theorem suspended_step {i : ι} (hi : s.suspended i = some sus) (hne : i ≠ s.current) {a : Act L}
    (hst : Step L captureReturn s a t) (ha : ¬ a.SwitchesTo i) :
    t.suspended i = some sus ∧ i ≠ t.current := by
  cases a with
  | compute =>
      obtain ⟨hcur, hsus, -, -⟩ := hst
      rw [hcur, hsus]
      exact ⟨hi, hne⟩
  | create j func arg =>
      obtain ⟨-, hnone, -, hcur, hsus, -⟩ := hst
      have hij : i ≠ j := by
        rintro rfl
        rw [hi] at hnone
        cases hnone
      rw [hcur, hsus, Function.update_of_ne hij]
      exact ⟨hi, hne⟩
  | switchTo j ret cleanup =>
      obtain ⟨-, -, -, -, -, -, -, hcur, hsus⟩ := hst
      have hij : i ≠ j := fun he => ha he.symm
      rw [hcur, hsus, Function.update_of_ne hij, Function.update_of_ne hne]
      exact ⟨hi, hij⟩

theorem suspended_path {i : ι} {fs : List (Act L)}
    (hp : (threads L captureReturn master).Path s fs t) (hfs : ∀ a ∈ fs, ¬ a.SwitchesTo i)
    (hi : s.suspended i = some sus) (hne : i ≠ s.current) : t.suspended i = some sus := by
  induction hp with
  | nil => exact hi
  | cons hst _ ih =>
      rw [List.forall_mem_cons] at hfs
      obtain ⟨hi', hne'⟩ := suspended_step hi hne hst hfs.1
      exact ih hfs.2 hi' hne'

/-- In any run of any number of threads: when a switch resumes the thread `i`, every register but
`%rax` and the return address are those of the last call of `__switch_to_stack` in `i`; and the
first switch to a thread that was created with `func` and `arg` enters `func` with `arg` in `%rdi`
and the address of `__capture_return` on top of the stack. -/
theorem context_switch_fidelity {es fs : List (Act L)} {s₀ s₁ : State ι} {i : ι} {ret' : Word}
    {cleanup' : Cleanup L i} (h : (threads L captureReturn master).Reach es s₀)
    (hp : (threads L captureReturn master).Path s₁ fs s) (hfs : ∀ a ∈ fs, ¬ a.SwitchesTo i)
    (hst : (threads L captureReturn master).step s (.switchTo i ret' cleanup') t) :
    (∀ j ret (cleanup : Cleanup L j), i = s₀.current →
      (threads L captureReturn master).step s₀ (.switchTo j ret cleanup) s₁ →
        (∀ r, r ≠ .rax → t.cpu.reg r = s₀.cpu.reg r) ∧ t.cpu.rip = ret) ∧
    (∀ func arg, (threads L captureReturn master).step s₀ (.create i func arg) s₁ →
      t.cpu.rip = func ∧ t.cpu.reg .rdi = arg ∧ t.cpu.mem (t.cpu.reg .rsp) = captureReturn) := by
  refine ⟨fun j ret cleanup hi hst₀ => ?_, fun func arg hst₀ => ?_⟩
  · have hs := threads_frames ((h.step hst₀).append_path hp)
    obtain ⟨hj, -, -, -, -, -, -, hcur, hsus⟩ := hst₀
    have hij : i ≠ j := fun he => hj (he ▸ hi)
    -- nobody switches to the thread in between, so that it stays suspended as it was left
    have hleft : s.suspended i = some (.switched s₀.cpu.reg ret) := by
      refine suspended_path hp hfs ?_ (by rw [hcur]; exact hij)
      rw [hsus, Function.update_of_ne hij, hi, Function.update_self]
    have hwords : (Suspended.switched s₀.cpu.reg ret).words captureReturn (L.stackBottom i) =
        execCtx.map (callCtx s₀.cpu.reg ret) ++ [] := (List.append_nil _).symm
    obtain ⟨hregs, hrip, -, hrsp⟩ := hs.resumed hst hleft hwords
    refine ⟨fun r hr => ?_, hrip⟩
    by_cases hsp : r = .rsp
    · subst hsp
      exact hrsp _ _ rfl
    · exact hregs r (mem_ctxRegs hr hsp)
  · have hs := threads_frames ((h.step hst₀).append_path hp)
    obtain ⟨hne, -, -, hcur, hsus, -⟩ := hst₀
    have hleft : s.suspended i = some (.fresh func arg) := by
      refine suspended_path hp hfs ?_ (by rw [hcur]; exact hne)
      rw [hsus, Function.update_self]
    have hwords : (Suspended.fresh func arg).words captureReturn (L.stackBottom i) =
        execCtx.map (initCtx (L.stackBottom i) func arg) ++ [captureReturn] := rfl
    obtain ⟨hregs, hrip, htop, -⟩ := hs.resumed hst hleft hwords
    exact ⟨hrip, hregs .rdi (by decide), htop.1⟩

end Runs

/-- A `pet_thread_cleanup` that does nothing. -/
def Cleanup.skip (L : Layout ι) (j : ι) : Cleanup L j where
  run c := c
  rsp_eq _ := rfl
  stack_eq _ _ _ _ _ := rfl
  stackRsp_eq _ _ := rfl

end Threads

/-- The master thread (`false`) and one created thread (`true`). -/
def twoStacks : Layout Bool where
  stackBottom i := if i then 0x200000 else 0x100000
  size i := if i then stackSize else 0x2000
  stackRsp i := if i then 0x300018 else 0x400018
  no_wrap := by decide
  disjoint := by decide
  stackRsp_inj := by decide
  stackRsp_outside := by decide

/-- The master thread creates a thread and switches to it; the thread switches back. The first
switch enters the thread function, and the second one gives the master thread its registers back. -/
theorem context_switch_two_threads : ∃ s₀ s₁ s₂ s₃ t : State Bool, ∃ es,
    (threads twoStacks 0x9000 false).Reach es s₀ ∧
    (threads twoStacks 0x9000 false).step s₀ (.create true 0x5000 17) s₁ ∧
    (threads twoStacks 0x9000 false).step s₁ (.switchTo true 0x6000 (.skip _ _)) s₂ ∧
    (threads twoStacks 0x9000 false).step s₂ .compute s₃ ∧
    (threads twoStacks 0x9000 false).step s₃ (.switchTo false 0x7000 (.skip _ _)) t ∧
    s₂.cpu.rip = 0x5000 ∧ s₂.cpu.reg .rdi = 17 ∧ s₂.cpu.mem (s₂.cpu.reg .rsp) = 0x9000 ∧
    s₀.cpu.reg .rbx = 11 ∧ t.cpu.reg .rbx = 11 ∧ t.cpu.rip = 0x6000 := by
  let regs (target caller rsp : Word) : Reg → Word
    | .rdi => target
    | .rsi => caller
    | .rsp => rsp
    | _ => 11
  let s₀ : State Bool := ⟨⟨regs 0x300018 0x400018 0x101000, 0, fun _ => 0⟩, false, fun _ => none⟩
  let m₁ := petThreadCreate 0x9000 0x200000 0x300018 0x5000 17 s₀.cpu.mem
  let s₁ : State Bool := ⟨{ s₀.cpu with mem := m₁ }, false,
    Function.update s₀.suspended true (some (.fresh 0x5000 17))⟩
  let s₂ : State Bool := ⟨callSwitchToStack (fun c => c) 0x6000 s₁.cpu, true,
    Function.update (Function.update s₁.suspended false (some (.switched s₁.cpu.reg 0x6000)))
    true none⟩
  let s₃ : State Bool := ⟨⟨regs 0x400018 0x300018 0x201000, 0, s₂.cpu.mem⟩, true, s₂.suspended⟩
  let t : State Bool := ⟨callSwitchToStack (fun c => c) 0x7000 s₃.cpu, false,
    Function.update (Function.update s₃.suspended true (some (.switched s₃.cpu.reg 0x7000)))
    false none⟩
  have h₀ : (threads twoStacks 0x9000 false).Reach [] s₀ := .init ⟨rfl, fun _ => rfl⟩
  have h₁ : (threads twoStacks 0x9000 false).step s₀ (.create true 0x5000 17) s₁ :=
    ⟨by decide, rfl, rfl, rfl, rfl, rfl⟩
  have h₂ : (threads twoStacks 0x9000 false).step s₁ (.switchTo true 0x6000 (.skip _ _)) s₂ :=
    ⟨by decide, Option.some_ne_none _, rfl, rfl, by decide, by decide, rfl, rfl, rfl⟩
  have h₃ : (threads twoStacks 0x9000 false).step s₂ .compute s₃ :=
    ⟨rfl, rfl, fun _ _ _ _ => rfl, fun _ => rfl⟩
  have h₄ : (threads twoStacks 0x9000 false).step s₃ (.switchTo false 0x7000 (.skip _ _)) t :=
    ⟨by decide, Option.some_ne_none _, rfl, rfl, by decide, by decide, rfl, rfl, rfl⟩
  obtain ⟨hrip, hrdi, htop⟩ := (context_switch_fidelity h₀ .nil (by simp) h₂).2 _ _ h₁
  obtain ⟨hregs, hret⟩ := (context_switch_fidelity (h₀.step h₁) (.cons h₃ .nil)
    (by simp [Act.SwitchesTo]) h₄).1 _ _ _ rfl h₂
  exact ⟨s₀, s₁, s₂, s₃, t, [], h₀, h₁, h₂, h₃, h₄, hrip, hrdi, htop, rfl,
    hregs .rbx (by decide), hret⟩

end PetKernel.UserThreads.Hw
