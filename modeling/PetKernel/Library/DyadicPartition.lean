import Mathlib

/-!
# Partitions into dyadic blocks

A dyadic block is an interval of length `2 ^ order` that starts at a multiple of its length. Two
dyadic blocks that share a point are nested. `IsPartition N P` says that the blocks of `P` cover
every point below `2 ^ N` exactly once.

`IsPartition.replace` exchanges some blocks for others that cover the same points; a split into
halves and the merge of two buddies are instances of it. `IsPartition.buddy` is the fact on which
coalescing rests: in a partition, the buddy of a block is the start of a block that is not larger.
`IsPartition.exists_of_no_buddies` is what complete coalescing gives.
-/

set_option autoImplicit false

namespace PetKernel.Library

/-- The interval of length `2 ^ order` from `start` on. -/
@[ext]
structure DyadicBlock where
  start : Nat
  order : Nat
deriving DecidableEq, Repr

namespace DyadicBlock

/-- `x` lies in the block. -/
def Covers (b : DyadicBlock) (x : Nat) : Prop := b.start ≤ x ∧ x < b.start + 2 ^ b.order

/-- The block starts at a multiple of its length. -/
def Aligned (b : DyadicBlock) : Prop := 2 ^ b.order ∣ b.start

theorem covers_start (b : DyadicBlock) : b.Covers b.start :=
  ⟨Nat.le_refl _, Nat.lt_add_of_pos_right (Nat.two_pow_pos _)⟩

/-- An aligned block is determined by its order and any of its points. -/
theorem Covers.start_eq {b : DyadicBlock} {x : Nat} (h : b.Covers x) (ha : b.Aligned) :
    b.start = x / 2 ^ b.order * 2 ^ b.order := by
  obtain ⟨q, hq⟩ := ha
  have hdiv : x / 2 ^ b.order = q := by
    refine Nat.div_eq_of_lt_le ?_ ?_
    · rw [Nat.mul_comm, ← hq]
      exact h.1
    · rw [Nat.succ_mul, Nat.mul_comm, ← hq]
      exact h.2
  rw [hdiv, hq, Nat.mul_comm]

/-- Of two aligned blocks that share a point, the larger one contains the start of the smaller. -/
theorem Covers.covers_start_of_le {b c : DyadicBlock} {x : Nat} (hb : b.Covers x) (hc : c.Covers x)
    (hab : b.Aligned) (hac : c.Aligned) (hle : c.order ≤ b.order) : b.Covers c.start := by
  have hdvd : 2 ^ c.order ∣ b.start := (Nat.pow_dvd_pow 2 hle).trans hab
  refine ⟨?_, Nat.lt_of_le_of_lt hc.1 hb.2⟩
  -- the start of `b` is a multiple of the length of `c` and at most `x`
  rw [hc.start_eq hac]
  obtain ⟨q, hq⟩ := hdvd
  rw [hq, Nat.mul_comm]
  refine Nat.mul_le_mul_right _ ((Nat.le_div_iff_mul_le (Nat.two_pow_pos _)).2 ?_)
  rw [Nat.mul_comm, ← hq]
  exact hb.1

/-- Of two aligned blocks that share a point, the larger one contains the smaller. -/
theorem Covers.covers_of_le {b c : DyadicBlock} {x y : Nat} (hb : b.Covers x) (hc : c.Covers x)
    (hab : b.Aligned) (hac : c.Aligned) (hle : c.order ≤ b.order) (hy : c.Covers y) :
    b.Covers y := by
  have hstart := hb.covers_start_of_le hc hab hac hle
  have hend : c.start + 2 ^ c.order ≤ b.start + 2 ^ b.order := by
    -- both ends are multiples of the length of `c`
    obtain ⟨q, hq⟩ : 2 ^ c.order ∣ b.start + 2 ^ b.order :=
      Nat.dvd_add ((Nat.pow_dvd_pow 2 hle).trans hab) (Nat.pow_dvd_pow 2 hle)
    obtain ⟨r, hr⟩ := hac
    have hlt := hstart.2
    rw [hq, hr] at hlt ⊢
    have hrq : r < q := Nat.lt_of_mul_lt_mul_left hlt
    calc 2 ^ c.order * r + 2 ^ c.order = 2 ^ c.order * (r + 1) := (Nat.mul_succ _ _).symm
      _ ≤ 2 ^ c.order * q := Nat.mul_le_mul_left _ hrq
  exact ⟨hstart.1.trans hy.1, Nat.lt_of_lt_of_le hy.2 hend⟩

/-- A block and its two halves cover the same points. -/
theorem covers_halves (s k x : Nat) : (⟨s, k + 1⟩ : DyadicBlock).Covers x ↔
    (⟨s, k⟩ : DyadicBlock).Covers x ∨ (⟨s + 2 ^ k, k⟩ : DyadicBlock).Covers x := by
  have hpow : 2 ^ (k + 1) = 2 ^ k + 2 ^ k := by rw [Nat.pow_succ, Nat.mul_two]
  simp only [Covers, hpow]
  omega

end DyadicBlock

/-- The buddy of an aligned block is the other half of the block of the next order. -/
theorem xor_two_pow_cases {s k : Nat} (h : 2 ^ k ∣ s) :
    (2 ^ (k + 1) ∣ s ∧ s ^^^ 2 ^ k = s + 2 ^ k) ∨
      (2 ^ k ≤ s ∧ 2 ^ (k + 1) ∣ s - 2 ^ k ∧ s ^^^ 2 ^ k = s - 2 ^ k) := by
  obtain ⟨q, rfl⟩ := h
  have hxor : (2 ^ k * q) ^^^ 2 ^ k = 2 ^ k * (q ^^^ 1) := by
    have hshift := Nat.shiftLeft_xor_distrib (i := k) (a := q) (b := 1)
    simp only [Nat.shiftLeft_eq, Nat.one_mul] at hshift
    rw [Nat.mul_comm, ← hshift, Nat.mul_comm]
  rw [hxor, Nat.pow_succ]
  rcases Nat.even_or_odd q with heven | hodd
  · left
    refine ⟨Nat.mul_dvd_mul_left _ heven.two_dvd, ?_⟩
    rw [Nat.xor_one_of_even heven, Nat.mul_succ]
  · right
    obtain ⟨r, rfl⟩ := hodd
    have hr : (2 * r + 1) ^^^ 1 = 2 * r := by
      rw [Nat.xor_one_of_odd ⟨r, rfl⟩]
      rfl
    have hsub : 2 ^ k * (2 * r + 1) - 2 ^ k = 2 ^ k * (2 * r) := by
      rw [Nat.mul_succ (2 ^ k) (2 * r), Nat.add_sub_cancel]
    rw [hr, hsub]
    refine ⟨Nat.le_mul_of_pos_right _ (Nat.succ_pos _), ?_, rfl⟩
    exact Nat.mul_dvd_mul_left _ (Nat.dvd_mul_right 2 r)

/-- The buddy of the upper half is the lower half. -/
theorem add_two_pow_xor {s k : Nat} (h : 2 ^ (k + 1) ∣ s) : (s + 2 ^ k) ^^^ 2 ^ k = s := by
  have hpos := Nat.two_pow_pos k
  have hpow : 2 ^ (k + 1) = 2 ^ k + 2 ^ k := by rw [Nat.pow_succ, Nat.mul_two]
  rcases xor_two_pow_cases ((Nat.pow_dvd_pow 2 (Nat.le_succ k)).trans h) with ⟨-, hx⟩ |
    ⟨hle, hdvd, -⟩
  · rw [← hx, Nat.xor_assoc, Nat.xor_self, Nat.xor_zero]
  · -- `s` would be an odd multiple of `2 ^ k`
    have hdiff := Nat.dvd_sub h hdvd
    rw [Nat.sub_sub_self hle] at hdiff
    have hle := Nat.le_of_dvd hpos hdiff
    omega

/-- The start of a block and that of its buddy lie in one block of the next order. -/
theorem exists_parent {s k : Nat} (h : 2 ^ k ∣ s) :
    ∃ p, (⟨p, k + 1⟩ : DyadicBlock).Aligned ∧ (⟨p, k + 1⟩ : DyadicBlock).Covers s ∧
      (⟨p, k + 1⟩ : DyadicBlock).Covers (s ^^^ 2 ^ k) := by
  have hpos := Nat.two_pow_pos k
  have hpow : 2 ^ (k + 1) = 2 ^ k + 2 ^ k := by rw [Nat.pow_succ, Nat.mul_two]
  rcases xor_two_pow_cases h with ⟨hdvd, hx⟩ | ⟨hle, hdvd, hx⟩
  · refine ⟨s, hdvd, ⟨Nat.le_refl _, ?_⟩, ?_, ?_⟩ <;> simp only [hx, hpow] <;> omega
  · refine ⟨s - 2 ^ k, hdvd, ⟨Nat.sub_le _ _, ?_⟩, ?_, ?_⟩ <;> simp only [hx, hpow] <;> omega

/-- The blocks of `P` partition the points below `2 ^ N`. -/
structure IsPartition (N : Nat) (P : Set DyadicBlock) : Prop where
  aligned : ∀ b ∈ P, b.Aligned
  bound : ∀ b ∈ P, b.start + 2 ^ b.order ≤ 2 ^ N
  cover : ∀ x, x < 2 ^ N → ∃ b ∈ P, b.Covers x
  unique : ∀ b ∈ P, ∀ c ∈ P, ∀ x, b.Covers x → c.Covers x → b = c

namespace IsPartition

variable {N : Nat} {P : Set DyadicBlock}

/-- Blocks that start at the same point are equal. -/
theorem eq_of_start (h : IsPartition N P) {b c : DyadicBlock} (hb : b ∈ P) (hc : c ∈ P)
    (hs : b.start = c.start) : b = c :=
  h.unique b hb c hc b.start b.covers_start (hs ▸ c.covers_start)

/-- Some blocks are exchanged for others that cover the same points. -/
theorem replace (h : IsPartition N P) {R R' : Set DyadicBlock} (hR : R ⊆ P)
    (haligned : ∀ b ∈ R', b.Aligned) (hunique : ∀ b ∈ R', ∀ c ∈ R', ∀ x, b.Covers x →
      c.Covers x → b = c)
    (hsame : ∀ x, (∃ b ∈ R, b.Covers x) ↔ ∃ b ∈ R', b.Covers x) : IsPartition N (P \ R ∪ R') := by
  -- a block that stays shares no point with a new one
  have hapart : ∀ b ∈ P \ R, ∀ c ∈ R', ∀ x, b.Covers x → ¬ c.Covers x := by
    intro b hb c hc x hbx hcx
    obtain ⟨d, hd, hdx⟩ := (hsame x).2 ⟨c, hc, hcx⟩
    have hbd := h.unique b hb.1 d (hR hd) x hbx hdx
    exact hb.2 (hbd ▸ hd)
  refine ⟨?_, ?_, ?_, ?_⟩
  · rintro b (hb | hb)
    · exact h.aligned b hb.1
    · exact haligned b hb
  · rintro b (hb | hb)
    · exact h.bound b hb.1
    · -- the last point of a new block lies in an old one
      have hpos := Nat.two_pow_pos b.order
      obtain ⟨d, hd, hdx⟩ := (hsame (b.start + 2 ^ b.order - 1)).2
        ⟨b, hb, by omega, by omega⟩
      have hbound := h.bound d (hR hd)
      have hlt := hdx.2
      omega
  · intro x hx
    obtain ⟨b, hb, hbx⟩ := h.cover x hx
    by_cases hbR : b ∈ R
    · obtain ⟨c, hc, hcx⟩ := (hsame x).1 ⟨b, hbR, hbx⟩
      exact ⟨c, Or.inr hc, hcx⟩
    · exact ⟨b, Or.inl ⟨hb, hbR⟩, hbx⟩
  · rintro b (hb | hb) c (hc | hc) x hbx hcx
    · exact h.unique b hb.1 c hc.1 x hbx hcx
    · exact absurd hcx (hapart b hb c hc x hbx)
    · exact absurd hbx (hapart c hc b hb x hcx)
    · exact hunique b hb c hc x hbx hcx

/-- A block is split into its halves. -/
theorem split (h : IsPartition N P) {s k : Nat} (hb : ⟨s, k + 1⟩ ∈ P) :
    IsPartition N (P \ {⟨s, k + 1⟩} ∪ {⟨s, k⟩, ⟨s + 2 ^ k, k⟩}) := by
  have ha : 2 ^ (k + 1) ∣ s := h.aligned _ hb
  have ha' : 2 ^ k ∣ s := (Nat.pow_dvd_pow 2 (Nat.le_succ k)).trans ha
  refine h.replace (Set.singleton_subset_iff.2 hb) ?_ ?_ fun x => ?_
  · rintro b (rfl | rfl)
    · exact ha'
    · exact Nat.dvd_add ha' (Nat.dvd_refl _)
  · rintro b (rfl | rfl) c (rfl | rfl) x hbx hcx
    · rfl
    · exact absurd (Nat.lt_of_lt_of_le hbx.2 hcx.1) (Nat.lt_irrefl _)
    · exact absurd (Nat.lt_of_lt_of_le hcx.2 hbx.1) (Nat.lt_irrefl _)
    · rfl
  · simp only [Set.mem_singleton_iff, exists_eq_left, Set.mem_insert_iff, exists_eq_or_imp]
    exact DyadicBlock.covers_halves s k x

/-- Two halves are merged. -/
theorem merge (h : IsPartition N P) {s k : Nat} (ha : 2 ^ (k + 1) ∣ s) (hb : ⟨s, k⟩ ∈ P)
    (hc : ⟨s + 2 ^ k, k⟩ ∈ P) :
    IsPartition N (P \ {⟨s, k⟩, ⟨s + 2 ^ k, k⟩} ∪ {⟨s, k + 1⟩}) := by
  refine h.replace ?_ ?_ ?_ fun x => ?_
  · rintro b (rfl | rfl)
    · exact hb
    · exact hc
  · rintro b rfl
    exact ha
  · rintro b rfl c rfl x _ _
    rfl
  · simp only [Set.mem_singleton_iff, exists_eq_left, Set.mem_insert_iff, exists_eq_or_imp]
    exact (DyadicBlock.covers_halves s k x).symm

/-- The buddy of a block is the start of a block that is not larger. -/
theorem buddy (h : IsPartition N P) {s k : Nat} (hb : ⟨s, k⟩ ∈ P) (hk : k < N) :
    ∃ c ∈ P, c.start = s ^^^ 2 ^ k ∧ c.order ≤ k := by
  have ha : 2 ^ k ∣ s := h.aligned _ hb
  have hbound : s + 2 ^ k ≤ 2 ^ N := h.bound _ hb
  obtain ⟨p, hp, hsp, htp⟩ := exists_parent ha
  have hdvdt : 2 ^ k ∣ s ^^^ 2 ^ k := by
    rcases xor_two_pow_cases ha with ⟨-, hx⟩ | ⟨-, -, hx⟩ <;> rw [hx]
    · exact Nat.dvd_add ha (Nat.dvd_refl _)
    · exact Nat.dvd_sub ha (Nat.dvd_refl _)
  have htN : s ^^^ 2 ^ k < 2 ^ N := by
    refine Nat.xor_lt_two_pow ?_ (Nat.pow_lt_pow_right (by decide) hk)
    have hpos := Nat.two_pow_pos k
    omega
  obtain ⟨c, hc, hct⟩ := h.cover _ htN
  have hle : c.order ≤ k := by
    by_contra hgt
    -- a larger block would contain the whole of the parent, hence the block itself
    have hsc : c.Covers s :=
      hct.covers_of_le htp (h.aligned c hc) hp (Nat.succ_le_of_lt (Nat.lt_of_not_le hgt)) hsp
    have heq := h.unique c hc ⟨s, k⟩ hb s hsc (DyadicBlock.covers_start ⟨s, k⟩)
    rw [heq] at hgt
    exact hgt (Nat.le_refl _)
  refine ⟨c, hc, ?_, hle⟩
  rw [hct.start_eq (h.aligned c hc)]
  exact Nat.div_mul_cancel ((Nat.pow_dvd_pow 2 hle).trans hdvdt)

/-- A partition into two classes `F` and `O`, where `F` does not contain two buddies. A block `r`
that is disjoint from `O` then lies in one block of `F`: otherwise a smallest block of `F` inside
`r` would have its buddy in `F`. -/
theorem exists_of_no_buddies {F O : Set DyadicBlock} (h : IsPartition N (F ∪ O))
    (hF : ∀ b ∈ F, b.order < N → ⟨b.start ^^^ 2 ^ b.order, b.order⟩ ∉ F) {r : DyadicBlock}
    (hr : r.Aligned) (hbound : r.start + 2 ^ r.order ≤ 2 ^ N)
    (hO : ∀ c ∈ O, ∀ x, r.Covers x → ¬ c.Covers x) :
    ∃ b ∈ F, r.order ≤ b.order ∧ b.Covers r.start := by
  have hpos := Nat.two_pow_pos r.order
  have hrN : r.order ≤ N :=
    (Nat.pow_le_pow_iff_right (by decide)).1 ((Nat.le_add_left _ _).trans hbound)
  -- what starts inside `r` belongs to `F`
  have hmemF : ∀ c ∈ F ∪ O, r.Covers c.start → c ∈ F := fun c hc hrc =>
    hc.resolve_right fun hcO => hO c hcO c.start hrc c.covers_start
  obtain ⟨c, hc, hcr⟩ := h.cover r.start (by omega)
  have hcF : c ∈ F := hc.resolve_right fun hcO => hO c hcO r.start r.covers_start hcr
  rcases Nat.lt_or_ge c.order r.order with hlt | hge
  · exfalso
    have hinside : ∃ m, ∃ b ∈ F, b.order = m ∧ m < r.order ∧ r.Covers b.start :=
      ⟨c.order, c, hcF, rfl, hlt, r.covers_start.covers_start_of_le hcr hr (h.aligned c hc) hlt.le⟩
    classical
    obtain ⟨b, hb, hbm, hbr, hrb⟩ := Nat.find_spec hinside
    have hmin := fun m => Nat.find_min' hinside (m := m)
    rw [← hbm] at hbr hmin
    have hbN : b.order < N := Nat.lt_of_lt_of_le hbr hrN
    obtain ⟨d, hd, hdstart, hdle⟩ := h.buddy (Or.inl hb) hbN
    -- the parent of `b` and its buddy lies in `r`
    obtain ⟨p, hp, hpb, hpd⟩ := exists_parent (h.aligned b (Or.inl hb))
    have hrd : r.Covers d.start := by
      rw [hdstart]
      exact hrb.covers_of_le hpb hr hp (Nat.succ_le_of_lt hbr) hpd
    have hdF := hmemF d hd hrd
    have hdb : d.order = b.order :=
      Nat.le_antisymm hdle (hmin d.order ⟨d, hdF, rfl, Nat.lt_of_le_of_lt hdle hbr, hrd⟩)
    refine hF b hb hbN ?_
    rw [← hdstart, ← hdb]
    exact hdF
  · exact ⟨c, hcF, hge, hcr⟩

end IsPartition

end PetKernel.Library
