import Xv6.UserMem

/-! User memory as the user sees it: the byte at every virtual address, where a missing page reads
as zeros. Mapping a page of zeros does not show, and a store to one page shows there only. -/
namespace Xv6

section Bytes

/-- `((char*)p)[i]` -/
def byteAt (x : Page) (i : ℕ) : Byte := getField x (8 * i) 8

theorem byteAt_zero (i : ℕ) : byteAt 0 i = 0 := by
  simp [byteAt, getField]

theorem byteAt_setBytes (x : Page) (src : List Byte) {off i : ℕ} (hoff : off + src.length ≤ PGSIZE) :
    byteAt (setBytes x off src) i = if off ≤ i ∧ i < off + src.length then src.getD (i - off) 0 else byteAt x i := by
  induction src generalizing x off with
  | nil => rw [setBytes, if_neg (by rw [List.length_nil]; omega)]
  | cons c cs ih =>
    rw [List.length_cons] at hoff ⊢
    rw [setBytes, ih _ (by omega)]
    by_cases hi : i = off
    · subst hi
      rw [if_neg (by omega), if_pos (by omega), Nat.sub_self, List.getD_cons_zero, byteAt]
      rw [PGSIZE] at hoff
      exact getField_setField x (8 * i) c (by omega)
    · have hother : byteAt (setField x (8 * off) c) i = byteAt x i :=
        getField_setField_of_disjoint x (8 * off) (8 * i) c (by omega)
      rw [hother]
      by_cases hin : off + 1 ≤ i ∧ i < off + 1 + cs.length
      · rw [if_pos hin, if_pos (by omega), show i - off = i - (off + 1) + 1 by omega, List.getD_cons_succ]
      · rw [if_neg hin, if_neg (by omega)]

end Bytes

/-- The byte at the user address `va`. -/
def userByte (m : Mem) (L : ℕ → Pte) (va : ℕ) : Byte :=
  if L (va / PGSIZE) = 0 then 0 else byteAt (m.page (PTE2PA (L (va / PGSIZE)))) (va % PGSIZE)

section View

variable {lo p v : ℕ} {T R : Multiset ℕ} {L L' : ℕ → Pte} {m m₀ m' : Mem}

theorem page_lt_TFP {va : ℕ} (h : va < TRAPFRAME) : va / PGSIZE < TFP := by
  have hnum : TRAPFRAME = 2 ^ 38 - 8192 := rfl
  rw [TFP_eq, PGSIZE]
  omega

theorem userByte_congr (va : ℕ) (hL : L' (va / PGSIZE) = L (va / PGSIZE))
    (hp : L (va / PGSIZE) ≠ 0 → m'.page (PTE2PA (L (va / PGSIZE))) = m.page (PTE2PA (L (va / PGSIZE)))) :
    userByte m' L' va = userByte m L va := by
  rw [userByte, userByte, hL]
  split_ifs with h0
  · rfl
  · rw [hp h0]

theorem UserKept.ne_page (hk : UserKept lo m₀ p T L R m) {v w : ℕ} (hv : v < TFP) (hw : w < TFP) (hne : v ≠ w)
    (hLv : L v ≠ 0) (hLw : L w ≠ 0) : PTE2PA (L v) ≠ PTE2PA (L w) := by
  intro heq
  have hnd := (nodup_add.mp (nodup_add.mp hk.uses.nodup).2.1).1
  rw [leaves_unmap hw, target, if_neg hLw] at hnd
  refine Multiset.disjoint_left.mp (nodup_add.mp hnd).2.2 (Multiset.mem_singleton_self _) ?_
  have hmem := Xv6.mem_leaves (L := update L w 0) hv (by rwa [update_of_ne hne])
  rwa [update_of_ne hne, heq] at hmem

theorem UserKept.userByte_write (hk : UserKept lo m₀ p T L R m) (hv : v < TFP) (hL : L v ≠ 0) (x : Page) {va : ℕ}
    (hva : va < TRAPFRAME) :
    userByte (m.setPage (PTE2PA (L v)) x) L va =
      if va / PGSIZE = v then byteAt x (va % PGSIZE) else userByte m L va := by
  by_cases heq : va / PGSIZE = v
  · rw [if_pos heq, userByte, heq, if_neg hL, setPage_page, if_pos rfl]
  · rw [if_neg heq]
    refine userByte_congr va rfl (fun hne => ?_)
    rw [setPage_page, if_neg (hk.ne_page (page_lt_TFP hva) hv heq hne hL)]

/-- A new page of zeros looks like a page that is not there. -/
theorem Built.userByte_eq {a b : ℕ} {perm : Pte} (hz : ∀ w, a ≤ w → w < b → L w = 0)
    (hb : Built lo m₀ p T L L' a b (fun _ => some (perm, fun x => x = 0)) (leaves L + R) m) {va : ℕ}
    (hva : va < TRAPFRAME) : userByte m L' va = userByte m₀ L va := by
  by_cases hin : a ≤ va / PGSIZE ∧ va / PGSIZE < b
  · obtain ⟨-, hzero⟩ := hb.inside _ hin.1 hin.2 _ _ rfl
    rw [userByte, userByte, hz _ hin.1 hin.2, if_pos rfl, hzero, byteAt_zero, ite_self]
  · have hL : L' (va / PGSIZE) = L (va / PGSIZE) := hb.outside _ hin
    refine userByte_congr va hL (fun hne => hb.rest _ ?_)
    exact mem_add.mpr (.inl (Xv6.mem_leaves (page_lt_TFP hva) hne))

theorem Kept.userByte_eq (hk : Kept lo m₀ p T L (leaves L + R) m) {va : ℕ} (hva : va < TRAPFRAME) :
    userByte m L va = userByte m₀ L va := by
  refine userByte_congr va rfl (fun hne => hk.rest _ ?_)
  exact mem_add.mpr (.inl (Xv6.mem_leaves (page_lt_TFP hva) hne))

end View

end Xv6
