import Mathlib

/-!
# Registers, word memory and a stack that grows downwards

A processor has registers of 64 bits, an instruction pointer, and a memory of 64-bit words, named by
their byte addresses. One register is the stack pointer. `HoldsAt m a vs` says that the words `vs`
stand one after the other from the address `a` on.

The two results about sequences of instructions are `Cpu.pushes_spec` (pushing registers leaves
their values on the stack in reverse order) and `Cpu.pops_spec` (popping registers loads them with
the words on the stack in order).
-/

set_option autoImplicit false

namespace PetKernel.Library

universe u

/-- A machine word. -/
abbrev Word := BitVec 64

/-- The contents of memory. -/
abbrev WordMem := Word → Word

/-- The address of the `k`-th word from `a` on. -/
def wordAt (a : Word) (k : Nat) : Word := a + BitVec.ofNat 64 (8 * k)

theorem wordAt_zero (a : Word) : wordAt a 0 = a := by
  simp [wordAt]

theorem wordAt_succ (a : Word) (k : Nat) : wordAt (a + 8) k = wordAt a (k + 1) := by
  have h : BitVec.ofNat 64 (8 * (k + 1)) = 8 + BitVec.ofNat 64 (8 * k) := by
    rw [Nat.mul_succ, Nat.add_comm, BitVec.ofNat_add]
    rfl
  rw [wordAt, wordAt, h, BitVec.add_assoc]

theorem wordAt_toNat {a : Word} {k : Nat} (h : a.toNat + 8 * k < 2 ^ 64) :
    (wordAt a k).toNat = a.toNat + 8 * k := by
  rw [wordAt, BitVec.toNat_add, BitVec.toNat_ofNat]
  omega

theorem wordAt_wordAt (a : Word) (j k : Nat) : wordAt (wordAt a j) k = wordAt a (j + k) := by
  rw [wordAt, wordAt, wordAt, Nat.mul_add, BitVec.ofNat_add, BitVec.add_assoc]

theorem wordAt_inj {a : Word} {j k : Nat} (hj : 8 * j < 2 ^ 64) (hk : 8 * k < 2 ^ 64) :
    wordAt a j = wordAt a k ↔ j = k := by
  refine ⟨fun h => ?_, fun h => h ▸ rfl⟩
  have hn := congrArg BitVec.toNat ((BitVec.add_right_inj a).1 h)
  rw [BitVec.toNat_ofNat, BitVec.toNat_ofNat, Nat.mod_eq_of_lt hj, Nat.mod_eq_of_lt hk] at hn
  omega

/-- The words `vs` stand in memory from `a` on. -/
def HoldsAt (m : WordMem) : Word → List Word → Prop
  | _, [] => True
  | a, v :: vs => m a = v ∧ HoldsAt m (a + 8) vs

theorem holdsAt_of_getElem? {m : WordMem} :
    ∀ {vs : List Word} {a : Word}, (∀ k, k < vs.length → vs[k]? = some (m (wordAt a k))) →
      HoldsAt m a vs
  | [], _, _ => trivial
  | v :: vs, a, h => by
      refine ⟨?_, holdsAt_of_getElem? fun k hk => ?_⟩
      · have h0 := h 0 (Nat.succ_pos _)
        rw [wordAt_zero] at h0
        exact (Option.some.inj h0).symm
      · rw [wordAt_succ]
        exact h (k + 1) (Nat.succ_lt_succ hk)

/-- Memory that agrees on the words from `a` on holds the same words. -/
theorem HoldsAt.congr {m m' : WordMem} :
    ∀ {vs : List Word} {a : Word}, HoldsAt m a vs →
      (∀ k, k < vs.length → m' (wordAt a k) = m (wordAt a k)) → HoldsAt m' a vs
  | [], _, _, _ => trivial
  | v :: vs, a, h, heq => by
      refine ⟨?_, h.2.congr fun k hk => ?_⟩
      · have h0 := heq 0 (Nat.succ_pos _)
        rw [wordAt_zero] at h0
        exact h0.trans h.1
      · rw [wordAt_succ]
        exact heq (k + 1) (Nat.succ_lt_succ hk)

/-- A word below the stack top is none of the words from the top on. -/
theorem wordAt_ne_pred {a : Word} {k : Nat} (h : 8 * (k + 1) < 2 ^ 64) : wordAt a k ≠ a - 8 := by
  intro heq
  have hk : BitVec.ofNat 64 (8 * k) = -8 := by
    have hsub : wordAt a k - a = a - 8 - a := by rw [heq]
    rw [wordAt] at hsub
    bv_omega
  have htoNat := congrArg BitVec.toNat hk
  rw [BitVec.toNat_ofNat, Nat.mod_eq_of_lt (by omega)] at htoNat
  have h8 : (-8 : Word).toNat = 2 ^ 64 - 8 := by decide
  omega

theorem HoldsAt.push {m : WordMem} {a : Word} {vs : List Word} (h : HoldsAt m a vs) (v : Word)
    (hlen : 8 * (vs.length + 1) < 2 ^ 64) :
    HoldsAt (Function.update m (a - 8) v) (a - 8) (v :: vs) := by
  refine ⟨Function.update_self _ _ _, ?_⟩
  rw [BitVec.sub_add_cancel]
  refine h.congr fun k hk => Function.update_of_ne (wordAt_ne_pred ?_) _ _
  omega

/-- A processor with registers `ρ`. -/
structure Cpu (ρ : Type u) where
  reg : ρ → Word
  rip : Word
  mem : WordMem

namespace Cpu

variable {ρ : Type u} [DecidableEq ρ]

/-- Loads a register. -/
def setReg (c : Cpu ρ) (r : ρ) (v : Word) : Cpu ρ :=
  { c with reg := Function.update c.reg r v }

/-- Pushes a word, with `sp` as stack pointer. -/
def pushWord (sp : ρ) (c : Cpu ρ) (v : Word) : Cpu ρ :=
  { c.setReg sp (c.reg sp - 8) with mem := Function.update c.mem (c.reg sp - 8) v }

/-- Pushes a register. -/
def push (sp : ρ) (c : Cpu ρ) (r : ρ) : Cpu ρ := c.pushWord sp (c.reg r)

/-- Pops a register. -/
def pop (sp : ρ) (c : Cpu ρ) (r : ρ) : Cpu ρ :=
  (c.setReg sp (c.reg sp + 8)).setReg r (c.mem (c.reg sp))

/-- Pops the instruction pointer. -/
def ret (sp : ρ) (c : Cpu ρ) : Cpu ρ :=
  { c.setReg sp (c.reg sp + 8) with rip := c.mem (c.reg sp) }

variable {sp : ρ}

@[simp]
theorem pushWord_mem (c : Cpu ρ) (v : Word) :
    (c.pushWord sp v).mem = Function.update c.mem (c.reg sp - 8) v := rfl

@[simp]
theorem pushWord_sp (c : Cpu ρ) (v : Word) : (c.pushWord sp v).reg sp = c.reg sp - 8 :=
  Function.update_self _ _ _

theorem pushWord_reg (c : Cpu ρ) (v : Word) {r : ρ} (h : r ≠ sp) :
    (c.pushWord sp v).reg r = c.reg r :=
  Function.update_of_ne h _ _

theorem pop_sp (c : Cpu ρ) {r : ρ} (h : r ≠ sp) : (c.pop sp r).reg sp = c.reg sp + 8 := by
  simp [pop, setReg, Function.update_of_ne h.symm]

theorem pop_self (c : Cpu ρ) (r : ρ) : (c.pop sp r).reg r = c.mem (c.reg sp) :=
  Function.update_self _ _ _

theorem pop_reg (c : Cpu ρ) {r q : ρ} (hq : q ≠ r) (hsp : q ≠ sp) :
    (c.pop sp r).reg q = c.reg q := by
  simp [pop, setReg, Function.update_of_ne hq, Function.update_of_ne hsp]

@[simp]
theorem ret_mem (c : Cpu ρ) : (c.ret sp).mem = c.mem := rfl

@[simp]
theorem ret_rip (c : Cpu ρ) : (c.ret sp).rip = c.mem (c.reg sp) := rfl

@[simp]
theorem ret_sp (c : Cpu ρ) : (c.ret sp).reg sp = c.reg sp + 8 :=
  Function.update_self _ _ _

theorem ret_reg (c : Cpu ρ) {r : ρ} (h : r ≠ sp) : (c.ret sp).reg r = c.reg r :=
  Function.update_of_ne h _ _

/-- What pushing the registers `rs` in order leaves behind, above the words `ws` that were on the
stack. -/
theorem pushes_spec :
    ∀ (rs : List ρ) (c : Cpu ρ) (ws : List Word), sp ∉ rs → HoldsAt c.mem (c.reg sp) ws →
      8 * (rs.length + ws.length) < 2 ^ 64 →
      HoldsAt (rs.foldl (push sp) c).mem ((rs.foldl (push sp) c).reg sp)
          (rs.reverse.map c.reg ++ ws) ∧
        (∀ r, r ≠ sp → (rs.foldl (push sp) c).reg r = c.reg r)
  | [], c, ws, _, hold, _ => ⟨hold, fun _ _ => rfl⟩
  | r :: rs, c, ws, hsp, hold, hlen => by
      rw [List.mem_cons, not_or] at hsp
      simp only [List.length_cons] at hlen
      have hpush : HoldsAt (c.push sp r).mem ((c.push sp r).reg sp) (c.reg r :: ws) := by
        rw [push, pushWord_mem, pushWord_sp]
        exact hold.push _ (by omega)
      obtain ⟨hw, hreg⟩ := pushes_spec rs (c.push sp r) (c.reg r :: ws) hsp.2 hpush
        (by simp only [List.length_cons]; omega)
      refine ⟨?_, fun q hq => (hreg q hq).trans (pushWord_reg c _ hq)⟩
      have hmap : rs.reverse.map (c.push sp r).reg = rs.reverse.map c.reg := by
        refine List.map_congr_left fun q hq => pushWord_reg c _ ?_
        rintro rfl
        exact hsp.2 (List.mem_reverse.1 hq)
      rw [hmap] at hw
      simpa using hw

/-- Pushing changes only the words that are pushed. -/
theorem pushes_mem :
    ∀ (rs : List ρ) (c : Cpu ρ) (a : Word), 8 * rs.length ≤ (c.reg sp).toNat →
      (a.toNat + 8 * rs.length < (c.reg sp).toNat ∨ (c.reg sp).toNat ≤ a.toNat) →
        (rs.foldl (push sp) c).mem a = c.mem a
  | [], _, _, _, _ => rfl
  | r :: rs, c, a, hroom, ha => by
      simp only [List.length_cons] at hroom ha
      have h8 : (c.reg sp - 8).toNat = (c.reg sp).toNat - 8 := by bv_omega
      have hne : a ≠ c.reg sp - 8 := by
        rintro rfl
        omega
      refine (pushes_mem rs (c.push sp r) a ?_ ?_).trans (Function.update_of_ne hne _ _)
      · rw [push, pushWord_sp]
        omega
      · rw [push, pushWord_sp]
        omega

theorem pushes_sp :
    ∀ (rs : List ρ) (c : Cpu ρ), (rs.foldl (push sp) c).reg sp =
      c.reg sp - BitVec.ofNat 64 (8 * rs.length)
  | [], c => by simp
  | r :: rs, c => by
      rw [List.foldl_cons, pushes_sp rs, push, pushWord_sp, List.length_cons, Nat.mul_succ,
        BitVec.ofNat_add]
      bv_omega

/-- Popping does not change memory. -/
theorem pops_mem : ∀ (rs : List ρ) (c : Cpu ρ), (rs.foldl (pop sp) c).mem = c.mem
  | [], _ => rfl
  | r :: rs, c => pops_mem rs (c.pop sp r)

/-- Popping changes only the registers that are popped and the stack pointer. -/
theorem pops_reg : ∀ (rs : List ρ) (c : Cpu ρ) {q : ρ}, q ∉ rs → q ≠ sp →
    (rs.foldl (pop sp) c).reg q = c.reg q
  | [], _, _, _, _ => rfl
  | r :: rs, c, q, hq, hsp => by
      rw [List.mem_cons, not_or] at hq
      exact (pops_reg rs (c.pop sp r) hq.2 hsp).trans (pop_reg c hq.1 hsp)

/-- What popping the registers `rs` in order loads from the stack. -/
theorem pops_spec :
    ∀ (rs : List ρ) (c : Cpu ρ) (f : ρ → Word) (ws : List Word), rs.Nodup → sp ∉ rs →
      HoldsAt c.mem (c.reg sp) (rs.map f ++ ws) →
      (∀ r ∈ rs, (rs.foldl (pop sp) c).reg r = f r) ∧
        HoldsAt c.mem ((rs.foldl (pop sp) c).reg sp) ws ∧
        (rs.foldl (pop sp) c).reg sp = wordAt (c.reg sp) rs.length
  | [], _, _, _, _, _, hold => ⟨nofun, hold, (wordAt_zero _).symm⟩
  | r :: rs, c, f, ws, hnd, hsp, hold => by
      rw [List.nodup_cons] at hnd
      rw [List.mem_cons, not_or] at hsp
      obtain ⟨hv, hold⟩ := hold
      have hrsp : r ≠ sp := Ne.symm hsp.1
      have hsp' : (c.pop sp r).reg sp = c.reg sp + 8 := pop_sp c hrsp
      obtain ⟨hregs, hws, hsp''⟩ := pops_spec rs (c.pop sp r) f ws hnd.2 hsp.2
        (by rw [hsp']; exact hold)
      refine ⟨fun q hq => ?_, hws, ?_⟩
      · rcases List.mem_cons.1 hq with rfl | hq
        · exact (pops_reg rs (c.pop sp q) hnd.1 hrsp).trans ((pop_self c q).trans hv)
        · exact hregs q hq
      · apply hsp''.trans
        rw [hsp', wordAt_succ]
        rfl

end Cpu

end PetKernel.Library
