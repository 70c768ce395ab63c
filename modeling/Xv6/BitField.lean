import Mathlib

/-! Fields of a bit vector: the bits `[off, off + w)` read or overwritten as a number of `w` bits. A
record or an array in little-endian memory is a bit vector, and its members are fields. -/
namespace Xv6

variable {n w w' : ℕ}

def getField (x : BitVec n) (off w : ℕ) : BitVec w := x.extractLsb' off w

def setField (x : BitVec n) (off : ℕ) (v : BitVec w) : BitVec n :=
  (x &&& ~~~((BitVec.allOnes w).setWidth n <<< off)) ||| (v.setWidth n <<< off)

theorem getLsbD_getField (x : BitVec n) (off w i : ℕ) :
    (getField x off w).getLsbD i = (decide (i < w) && x.getLsbD (off + i)) :=
  BitVec.getLsbD_extractLsb' off w x i

theorem getLsbD_setField (x : BitVec n) (off : ℕ) (v : BitVec w) {i : ℕ} (hi : i < n) :
    (setField x off v).getLsbD i =
      if off ≤ i ∧ i < off + w then v.getLsbD (i - off) else x.getLsbD i := by
  have hmask : ((BitVec.allOnes w).setWidth n <<< off).getLsbD i =
      decide (off ≤ i ∧ i < off + w) := by
    rw [BitVec.getLsbD_shiftLeft, BitVec.getLsbD_setWidth, BitVec.getLsbD_allOnes]
    by_cases ho : off ≤ i
    · simp only [hi, decide_true, Bool.true_and, Nat.not_lt.mpr ho, decide_false, Bool.not_false,
        show i - off < n by omega, ho, true_and, decide_eq_decide]
      omega
    · simp [ho, Nat.lt_of_not_le ho]
  have hval : (v.setWidth n <<< off).getLsbD i =
      (decide (off ≤ i) && v.getLsbD (i - off)) := by
    rw [BitVec.getLsbD_shiftLeft, BitVec.getLsbD_setWidth]
    by_cases ho : off ≤ i
    · simp [hi, ho, Nat.not_lt.mpr ho, show i - off < n by omega]
    · simp [ho, Nat.lt_of_not_le ho]
  rw [setField, BitVec.getLsbD_or, BitVec.getLsbD_and, BitVec.getLsbD_not, hmask, hval]
  by_cases hin : off ≤ i ∧ i < off + w
  · simp [hin]
  · rw [if_neg hin]
    by_cases ho : off ≤ i
    · have hw : w ≤ i - off := by omega
      simp [hin, hi, BitVec.getLsbD_of_ge v _ hw]
    · simp [ho, hi]

@[simp] theorem getField_setField (x : BitVec n) (off : ℕ) (v : BitVec w) (h : off + w ≤ n) :
    getField (setField x off v) off w = v := by
  apply BitVec.eq_of_getLsbD_eq
  intro i hi
  rw [getLsbD_getField, getLsbD_setField x off v (by omega)]
  simp [hi]

theorem getField_setField_of_disjoint (x : BitVec n) (off off' : ℕ) (v : BitVec w)
    (h : off' + w' ≤ off ∨ off + w ≤ off') :
    getField (setField x off v) off' w' = getField x off' w' := by
  apply BitVec.eq_of_getLsbD_eq
  intro i hi
  rw [getLsbD_getField, getLsbD_getField]
  by_cases hn : off' + i < n
  · rw [getLsbD_setField x off v hn, if_neg (by omega)]
  · rw [BitVec.getLsbD_of_ge _ _ (by omega), BitVec.getLsbD_of_ge _ _ (by omega)]

theorem getField_getField (x : BitVec n) (off w off' w' : ℕ) (h : off' + w' ≤ w) :
    getField (getField x off w) off' w' = getField x (off + off') w' := by
  apply BitVec.eq_of_getLsbD_eq
  intro i hi
  rw [getLsbD_getField, getLsbD_getField, getLsbD_getField, Nat.add_assoc]
  simp [show off' + i < w by omega]

end Xv6
