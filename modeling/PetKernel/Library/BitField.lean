import Mathlib

/-!
# Bit fields of a word

A field of a word is the range of bits `lo, …, lo + k - 1`. It is read with `BitVec.extractLsb'` and
written with `setField`. A field that has been written reads as what was written
(`extractLsb'_setField_self`), and the other fields are as before
(`extractLsb'_setField_of_disjoint`).
-/

set_option autoImplicit false

namespace PetKernel.Library

variable {n k : Nat}

/-- Write the field that starts at the bit `lo`. -/
def setField (w : BitVec n) (lo : Nat) (x : BitVec k) : BitVec n :=
  (w &&& ~~~((BitVec.allOnes k).setWidth n <<< lo)) ||| (x.setWidth n <<< lo)

theorem getLsbD_setField (w : BitVec n) (lo : Nat) (x : BitVec k) {i : Nat} (hi : i < n) :
    (setField w lo x).getLsbD i =
      if lo ≤ i ∧ i < lo + k then x.getLsbD (i - lo) else w.getLsbD i := by
  unfold setField
  simp only [BitVec.getLsbD_or, BitVec.getLsbD_and, BitVec.getLsbD_not, BitVec.getLsbD_shiftLeft,
    BitVec.getLsbD_setWidth, BitVec.getLsbD_allOnes]
  by_cases hlo : i < lo
  · simp [hlo, hi, Nat.not_le.2 hlo]
  · have hle : lo ≤ i := Nat.le_of_not_lt hlo
    have hn : i - lo < n := by omega
    by_cases hhi : i < lo + k
    · have hk : i - lo < k := by omega
      simp [hlo, hi, hle, hhi, hn, hk]
    · have hk : ¬ i - lo < k := by omega
      have hx : x.getLsbD (i - lo) = false := BitVec.getLsbD_of_ge _ _ (by omega)
      simp [hlo, hi, hle, hhi, hn, hk, hx]

theorem extractLsb'_setField_self {lo : Nat} (w : BitVec n) (x : BitVec k) (h : lo + k ≤ n) :
    (setField w lo x).extractLsb' lo k = x := by
  ext i hi
  rw [BitVec.getElem_extractLsb', getLsbD_setField _ _ _ (by omega), if_pos (by omega),
    Nat.add_sub_cancel_left, BitVec.getLsbD_eq_getElem]

theorem extractLsb'_setField_of_disjoint {lo lo' k' : Nat} (w : BitVec n) (x : BitVec k)
    (h : lo' + k' ≤ n) (hdisj : lo' + k' ≤ lo ∨ lo + k ≤ lo') :
    (setField w lo x).extractLsb' lo' k' = w.extractLsb' lo' k' := by
  ext i hi
  rw [BitVec.getElem_extractLsb', BitVec.getElem_extractLsb', getLsbD_setField _ _ _ (by omega),
    if_neg (by omega)]

end PetKernel.Library
