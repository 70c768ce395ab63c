import Xv6.Exec

/-! `memmove` of the kernel (kernel/string.c) and of the user library (user/ulib.c). The two loops and
what they copy are stated for any addresses with `+ 1` and `- 1`. -/
namespace Xv6

section Loops

variable {A B : Type*} [AddCommGroupWithOne A]

/-- The cells `d, …, d + n - 1` hold what `s, …, s + n - 1` held, and no other cell has changed. -/
structure Moved (m m' : A → B) (d s : A) (n : ℕ) : Prop where
  copied : ∀ i < n, m' (d + i) = m (s + i)
  kept : ∀ a, (∀ i < n, a ≠ d + i) → m' a = m a

theorem add_cast_succ (x : A) (i : ℕ) : x + 1 + (i : A) = x + (i + 1 : ℕ) := by
  rw [Nat.cast_succ, add_assoc, add_comm 1]

variable [DecidableEq A]

/-- `while(n-- > 0) *d++ = *s++;` -/
def copyUp (m : A → B) (d s : A) : ℕ → A → B
  | 0 => m
  | n + 1 => copyUp (update m d (m s)) (d + 1) (s + 1) n

/-- `while(n-- > 0) *--d = *--s;` -/
def copyDown (m : A → B) (d s : A) : ℕ → A → B
  | 0 => m
  | n + 1 => copyDown (update m (d - 1) (m (s - 1))) (d - 1) (s - 1) n

variable {m : A → B} {d s : A} {n : ℕ}

/-- Copying upwards is right if no cell is written before it is read. -/
theorem copyUp_moved (hd : ∀ j < n, ∀ i < j, d + i ≠ d + j) (hs : ∀ j < n, ∀ i < j, d + i ≠ s + j) :
    Moved m (copyUp m d s n) d s n := by
  induction n generalizing m d s with
  | zero => exact ⟨by simp, fun _ _ => rfl⟩
  | succ n ih =>
    -- the cell `d` is written first; the rest of the run neither reads nor writes it
    have hread : ∀ i < n, s + 1 + i ≠ d := by
      intro i hi h
      have hne := hs (i + 1) (Nat.succ_lt_succ hi) 0 (Nat.succ_pos i)
      rw [← add_cast_succ, h, Nat.cast_zero, add_zero] at hne
      exact hne rfl
    have hwrite : ∀ i < n, d ≠ d + 1 + i := by
      intro i hi h
      have hne := hd (i + 1) (Nat.succ_lt_succ hi) 0 (Nat.succ_pos i)
      rw [← add_cast_succ, ← h, Nat.cast_zero, add_zero] at hne
      exact hne rfl
    have hrest : Moved (update m d (m s)) (copyUp m d s (n + 1)) (d + 1) (s + 1) n := by
      refine ih (fun j hj i hi => ?_) (fun j hj i hi => ?_)
      · simpa only [add_cast_succ] using hd (j + 1) (Nat.succ_lt_succ hj) (i + 1) (Nat.succ_lt_succ hi)
      · simpa only [add_cast_succ] using hs (j + 1) (Nat.succ_lt_succ hj) (i + 1) (Nat.succ_lt_succ hi)
    refine ⟨fun i hi => ?_, fun a ha => ?_⟩
    · cases i with
      | zero =>
        rw [Nat.cast_zero, add_zero, add_zero, hrest.kept d hwrite, update_self]
      | succ i =>
        have hin := Nat.lt_of_succ_lt_succ hi
        rw [← add_cast_succ, ← add_cast_succ, hrest.copied i hin, update_of_ne (hread i hin)]
    · have ha0 : a ≠ d := by simpa using ha 0 (Nat.succ_pos n)
      rw [hrest.kept a fun i hi => by rw [add_cast_succ]; exact ha (i + 1) (Nat.succ_lt_succ hi),
        update_of_ne ha0]

/-- Copying downwards, from the ends of the two ranges. -/
theorem copyDown_moved (hd : ∀ j < n, ∀ i < j, d + i ≠ d + j) (hs : ∀ j < n, ∀ i < j, d + j ≠ s + i) :
    Moved m (copyDown m (d + n) (s + n) n) d s n := by
  induction n generalizing m with
  | zero => exact ⟨by simp, fun _ _ => rfl⟩
  | succ n ih =>
    have hrest : Moved (update m (d + n) (m (s + n))) (copyDown m (d + (n + 1 : ℕ)) (s + (n + 1 : ℕ)) (n + 1))
        d s n := by
      rw [copyDown, ← add_cast_succ, ← add_cast_succ, add_right_comm d, add_right_comm s,
        add_sub_cancel_right, add_sub_cancel_right]
      exact ih (fun j hj => hd j (Nat.lt_succ_of_lt hj)) (fun j hj => hs j (Nat.lt_succ_of_lt hj))
    refine ⟨fun i hi => ?_, fun a ha => ?_⟩
    · rcases Nat.lt_succ_iff_lt_or_eq.mp hi with hin | rfl
      · rw [hrest.copied i hin, update_of_ne (hs n (Nat.lt_succ_self n) i hin).symm]
      · rw [hrest.kept (d + i) fun j hj => (hd i (Nat.lt_succ_self i) j hj).symm, update_self]
    · rw [hrest.kept a fun i hi => ha i (Nat.lt_succ_of_lt hi), update_of_ne (ha n (Nat.lt_succ_self n))]

end Loops

abbrev Addr := BitVec 64

/-- The memory that a pointer of the kernel, or of a process, can name. -/
abbrev Ram := Addr → BitVec 8

/-- kernel/string.c; `n` is a `uint`. -/
def Kernel.memmove (m : Ram) (dst src : Addr) (n : BitVec 32) : Addr × Ram :=
  if n = 0 then (dst, m)
  else if src < dst ∧ dst < src + n.setWidth 64 then
    (dst, copyDown m (dst + n.setWidth 64) (src + n.setWidth 64) n.toNat)
  else (dst, copyUp m dst src n.toNat)

/-- user/ulib.c; `n` is an `int`, and a loop for a negative `n` ends at once. -/
def User.memmove (m : Ram) (vdst vsrc : Addr) (n : BitVec 32) : Addr × Ram :=
  if vdst < vsrc then (vdst, copyUp m vdst vsrc n.toInt.toNat)
  else (vdst, copyDown m (vdst + n.signExtend 64) (vsrc + n.signExtend 64) n.toInt.toNat)

theorem toNat_add_cast {x : Addr} {i : ℕ} (h : x.toNat + i < 2 ^ 64) : (x + (i : Addr)).toNat = x.toNat + i := by
  rw [BitVec.natCast_eq_ofNat, BitVec.toNat_add, BitVec.toNat_ofNat, Nat.add_mod_mod, Nat.mod_eq_of_lt h]

theorem addr_ne {x y : Addr} {i j : ℕ} (hx : x.toNat + i < 2 ^ 64) (hy : y.toNat + j < 2 ^ 64)
    (h : x.toNat + i ≠ y.toNat + j) : x + (i : Addr) ≠ y + (j : Addr) := by
  intro he
  have hnat := congrArg BitVec.toNat he
  rw [toNat_add_cast hx, toNat_add_cast hy] at hnat
  exact h hnat

section Moves

variable {m : Ram} {dst src : Addr} {n : ℕ} (hd : dst.toNat + n ≤ 2 ^ 64) (hs : src.toNat + n ≤ 2 ^ 64)
include hd hs

theorem copyUp_addr (h : dst.toNat ≤ src.toNat ∨ src.toNat + n ≤ dst.toNat) :
    Moved m (copyUp m dst src n) dst src n := by
  apply copyUp_moved
  · intro j hj i hi
    exact addr_ne (by omega) (by omega) (by omega)
  · intro j hj i hi
    exact addr_ne (by omega) (by omega) (by omega)

theorem copyDown_addr (h : src.toNat ≤ dst.toNat) :
    Moved m (copyDown m (dst + (n : Addr)) (src + (n : Addr)) n) dst src n := by
  apply copyDown_moved
  · intro j hj i hi
    exact addr_ne (by omega) (by omega) (by omega)
  · intro j hj i hi
    exact addr_ne (by omega) (by omega) (by omega)

end Moves

/-- However the ranges overlap: the destination gets what the source range held before the call. The
last byte of a range may be the last one of the address space; the kernel's `s + n` is 0 then. -/
theorem memmove_overlapping (m : Ram) (dst src : Addr) (n : BitVec 32)
    (hd : dst.toNat + n.toNat ≤ 2 ^ 64) (hs : src.toNat + n.toNat ≤ 2 ^ 64) :
    (∃ m', Kernel.memmove m dst src n = (dst, m') ∧ Moved m m' dst src n.toNat) ∧
    (0 ≤ n.toInt → ∃ m', User.memmove m dst src n = (dst, m') ∧ Moved m m' dst src n.toNat) := by
  have hcast : n.setWidth 64 = (n.toNat : Addr) := by
    rw [BitVec.natCast_eq_ofNat, BitVec.ofNat_toNat]
  constructor
  · rw [Kernel.memmove, hcast]
    split_ifs with h0 hlt
    · refine ⟨m, rfl, ?_⟩
      rw [h0]
      exact ⟨by simp, fun _ _ => rfl⟩
    · exact ⟨_, rfl, copyDown_addr hd hs (Nat.le_of_lt hlt.1)⟩
    · refine ⟨_, rfl, copyUp_addr hd hs ?_⟩
      -- where `src + n` is the end of the address space, `dst` is not above `src`
      by_contra hne
      have hend : (src + (n.toNat : Addr)).toNat = src.toNat + n.toNat := toNat_add_cast (by omega)
      refine hlt ⟨?_, ?_⟩
      · rw [BitVec.lt_def]
        omega
      · rw [BitVec.lt_def, hend]
        omega
  · intro hn
    have hmsb : n.msb = false := by
      rw [← Bool.not_eq_true, BitVec.msb_eq_toInt, decide_eq_true_eq]
      omega
    have hint : n.toInt.toNat = n.toNat := by
      rw [BitVec.toInt_eq_toNat_of_msb hmsb, Int.toNat_natCast]
    have hext : n.signExtend 64 = (n.toNat : Addr) := by
      rw [BitVec.signExtend_eq_setWidth_of_msb_false hmsb, hcast]
    rw [User.memmove, hint, hext]
    split_ifs with hlt
    · exact ⟨_, rfl, copyUp_addr hd hs (.inl (Nat.le_of_lt hlt))⟩
    · exact ⟨_, rfl, copyDown_addr hd hs (Nat.le_of_not_lt hlt)⟩

/-- Five bytes are moved up by two and, at the end of the address space, down by two. -/
theorem memmove_overlapping_five :
    (∃ m', Kernel.memmove (BitVec.setWidth 8) 0x1002 0x1000 5 = (0x1002, m') ∧ m' 0x1006 = 4 ∧ m' 0x1007 = 7) ∧
    ∃ m', User.memmove (BitVec.setWidth 8) (-7) (-5) 5 = (-7, m') ∧ m' (-3) = -1 ∧ m' (-2) = -2 := by
  obtain ⟨m₁, hm₁, h₁⟩ := (memmove_overlapping (BitVec.setWidth 8) 0x1002 0x1000 5 (by decide) (by decide)).1
  obtain ⟨m₂, hm₂, h₂⟩ :=
    (memmove_overlapping (BitVec.setWidth 8) (-7) (-5) 5 (by decide) (by decide)).2 (by decide)
  exact ⟨⟨m₁, hm₁, h₁.copied 4 (by decide), h₁.kept _ (by decide)⟩,
    m₂, hm₂, h₂.copied 4 (by decide), h₂.kept _ (by decide)⟩

end Xv6
