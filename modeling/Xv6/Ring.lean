import Mathlib

/-! A ring buffer indexed by counters of `w` bits that wrap at `2 ^ w`; as the capacity `C` divides
`2 ^ w`, the wrap does not show in the index `counter % C`. -/
namespace Xv6

variable {α : Type*} {w C : ℕ}

/-- How many cells lie between the read counter `r` and the write counter `e`. -/
def ringCount (r e : BitVec w) : ℕ := (e - r).toNat

/-- The cells from `r` up to `e`, oldest first. -/
def ringContents (C : ℕ) (data : ℕ → α) (r e : BitVec w) : List α :=
  (List.range (ringCount r e)).map (fun k => data ((r.toNat + k) % C))

theorem ringCount_self (r : BitVec w) : ringCount r r = 0 := by
  simp [ringCount]

theorem ringCount_eq_zero {r e : BitVec w} : ringCount r e = 0 ↔ r = e := by
  constructor
  · intro h
    have h0 : e - r = 0#w := BitVec.eq_of_toNat_eq (by simpa [ringCount] using h)
    have he : e = r + (e - r) := by rw [BitVec.add_comm, BitVec.sub_add_cancel]
    rw [he, h0, BitVec.add_zero]
  · rintro rfl
    exact ringCount_self r

theorem ring_write_eq (r e : BitVec w) : e.toNat = (r.toNat + ringCount r e) % 2 ^ w := by
  unfold ringCount
  rw [← BitVec.toNat_add, BitVec.add_comm, BitVec.sub_add_cancel]

/-- The write index is `ringCount` cells after the read index. -/
theorem ring_write_index (hC : C ∣ 2 ^ w) (r e : BitVec w) :
    e.toNat % C = (r.toNat + ringCount r e) % C := by
  rw [ring_write_eq r e, Nat.mod_mod_of_dvd _ hC]

private theorem ring_one_toNat (h : 1 < 2 ^ w) : (1 : BitVec w).toNat = 1 := by
  change 1 % 2 ^ w = 1
  exact Nat.mod_eq_of_lt h

theorem ringCount_push {r e : BitVec w} (h : ringCount r e + 1 < 2 ^ w) :
    ringCount r (e + 1) = ringCount r e + 1 := by
  have hw : 1 < 2 ^ w := by omega
  have he : e + 1 - r = (e - r) + 1 := by
    rw [BitVec.sub_eq_add_neg, BitVec.sub_eq_add_neg, BitVec.add_assoc, BitVec.add_comm 1,
      ← BitVec.add_assoc]
  unfold ringCount at h ⊢
  rw [he, BitVec.toNat_add, ring_one_toNat hw, Nat.mod_eq_of_lt h]

theorem ringCount_pop {r e : BitVec w} (h : r ≠ e) :
    ringCount (r + 1) e + 1 = ringCount r e := by
  have hpos : 0 < ringCount r e := Nat.pos_of_ne_zero (fun h0 => h (ringCount_eq_zero.mp h0))
  have hlt : ringCount r e < 2 ^ w := (e - r).isLt
  have he : e - (r + 1) = (e - r) - 1 := by
    rw [BitVec.sub_eq_add_neg, BitVec.sub_eq_add_neg (e - r), BitVec.sub_eq_add_neg e r,
      BitVec.neg_add, BitVec.sub_eq_add_neg, BitVec.add_assoc]
  unfold ringCount at hpos hlt ⊢
  have h1 : (1 : BitVec w).toNat = 1 := ring_one_toNat (by omega)
  rw [he, BitVec.toNat_sub_of_le (by rw [BitVec.le_def, h1]; exact hpos), h1]
  omega

theorem ringContents_length (data : ℕ → α) (r e : BitVec w) :
    (ringContents C data r e).length = ringCount r e := by
  simp [ringContents]

/-- Storing at the write index appends, as long as a cell is free. -/
theorem ringContents_push (hC : C ∣ 2 ^ w) (hw : C < 2 ^ w) (data : ℕ → α) {r e : BitVec w} (a : α)
    (h : ringCount r e < C) :
    ringContents C (Function.update data (e.toNat % C) a) r (e + 1) =
      ringContents C data r e ++ [a] := by
  have hcount : ringCount r (e + 1) = ringCount r e + 1 := ringCount_push (by omega)
  unfold ringContents
  rw [hcount, List.range_succ, List.map_append, List.map_singleton, ring_write_index hC r e,
    Function.update_self]
  congr 1
  apply List.map_congr_left
  intro k hk
  have hk' : k < ringCount r e := List.mem_range.mp hk
  -- two cells less than `C` apart have different indices
  apply Function.update_of_ne
  intro heq
  have hmod : (r.toNat + k) ≡ (r.toNat + ringCount r e) [MOD C] := heq
  have hk2 := Nat.ModEq.add_left_cancel' _ hmod
  rw [Nat.ModEq, Nat.mod_eq_of_lt (by omega), Nat.mod_eq_of_lt h] at hk2
  omega

/-- Advancing the read counter removes the oldest cell. -/
theorem ringContents_pop (hC : C ∣ 2 ^ w) (data : ℕ → α) {r e : BitVec w} (h : r ≠ e) :
    ringContents C data r e = data (r.toNat % C) :: ringContents C data (r + 1) e := by
  unfold ringContents
  rw [← ringCount_pop h, List.range_succ_eq_map, List.map_cons, List.map_map]
  congr 1
  apply List.map_congr_left
  intro k _
  have hr : (r + 1).toNat % C = (r.toNat + 1) % C := by
    have hne : ringCount r e ≠ 0 := fun h0 => h (ringCount_eq_zero.mp h0)
    have hlt : ringCount r e < 2 ^ w := (e - r).isLt
    rw [BitVec.toNat_add, ring_one_toNat (by omega), Nat.mod_mod_of_dvd _ hC]
  show data ((r.toNat + (k + 1)) % C) = data (((r + 1).toNat + k) % C)
  congr 1
  rw [Nat.add_mod (r + 1).toNat, hr, ← Nat.add_mod]
  congr 1
  omega

theorem ringCount_split {r m e : BitVec w} (h : ringCount r m ≤ ringCount r e) :
    ringCount m e = ringCount r e - ringCount r m := by
  have he : e - m = (e - r) - (m - r) := by
    rw [BitVec.sub_eq_add_neg (e - r), BitVec.neg_sub, BitVec.sub_eq_add_neg, BitVec.sub_eq_add_neg e r,
      BitVec.add_assoc e, BitVec.add_comm (-m) r, ← BitVec.add_assoc (-r), BitVec.add_comm (-r) r,
      BitVec.add_right_neg, BitVec.zero_add]
  unfold ringCount at h ⊢
  rw [he, BitVec.toNat_sub_of_le (BitVec.le_def.mpr h)]

theorem ringCount_pred {r e : BitVec w} (h : r ≠ e) : ringCount r (e - 1) + 1 = ringCount r e := by
  have hpos : 0 < ringCount r e := Nat.pos_of_ne_zero (fun h0 => h (ringCount_eq_zero.mp h0))
  have hlt : ringCount r e < 2 ^ w := (e - r).isLt
  have hsub : e - 1 - r = (e - r) - 1 := by
    rw [BitVec.sub_eq_add_neg, BitVec.sub_eq_add_neg, BitVec.sub_eq_add_neg e r, BitVec.sub_eq_add_neg,
      BitVec.add_assoc, BitVec.add_comm (-1), ← BitVec.add_assoc]
  unfold ringCount at hpos hlt ⊢
  have h1 : (1 : BitVec w).toNat = 1 := ring_one_toNat (by omega)
  rw [hsub, BitVec.toNat_sub_of_le (by rw [BitVec.le_def, h1]; exact hpos), h1]
  omega

theorem ringContents_take (data : ℕ → α) {r m e : BitVec w} (h : ringCount r m ≤ ringCount r e) :
    ringContents C data r m = (ringContents C data r e).take (ringCount r m) := by
  unfold ringContents
  rw [← List.map_take, List.take_range, Nat.min_eq_left h]

theorem ringContents_last (hC : C ∣ 2 ^ w) (data : ℕ → α) {r e : BitVec w} (h : r ≠ e) :
    ringContents C data r e = ringContents C data r (e - 1) ++ [data ((e - 1).toNat % C)] := by
  unfold ringContents
  rw [← ringCount_pred h, List.range_succ, List.map_append, List.map_singleton, ring_write_index hC r (e - 1)]

end Xv6
