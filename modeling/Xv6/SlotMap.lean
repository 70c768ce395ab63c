import Mathlib

/-! An allocator with one bit for each resource, and the slots that resources are stored in. A slot
holds 0 or a resource; a resource is marked exactly if it is in a slot, and then in one only. -/
namespace Xv6

open Function (update update_self update_of_ne)

variable {ι : Type}

structure AllocMap (slot : ι → ℕ) (bit : ℕ → Bool) (R : ℕ → Prop) : Prop where
  inj : ∀ i j, slot i = slot j → slot i ≠ 0 → i = j
  range : ∀ i, slot i ≠ 0 → R (slot i)
  marked : ∀ b, R b → (bit b = true ↔ ∃ i, slot i = b)

namespace AllocMap

variable {slot slot' : ι → ℕ} {bit bit' : ℕ → Bool} {R : ℕ → Prop} {i : ι} {b : ℕ}

theorem congr (h : AllocMap slot bit R) (hslot : ∀ i, slot' i = slot i)
    (hbit : ∀ b, R b → bit' b = bit b) : AllocMap slot' bit' R := by
  have heq : slot' = slot := funext hslot
  subst heq
  refine ⟨h.inj, h.range, fun b hb => ?_⟩
  rw [hbit b hb]
  exact h.marked b hb

theorem bit_of_slot (h : AllocMap slot bit R) (hi : slot i ≠ 0) : bit (slot i) = true :=
  (h.marked _ (h.range i hi)).mpr ⟨i, rfl⟩

/-- A resource that is not marked is in no slot. -/
theorem slot_ne (h : AllocMap slot bit R) (hb : R b) (hfree : bit b = false) (i : ι) : slot i ≠ b := by
  intro hi
  rw [(h.marked b hb).mpr ⟨i, hi⟩] at hfree
  cases hfree

variable [DecidableEq ι]

/-- An unmarked resource is marked and stored in an empty slot. -/
theorem alloc (h : AllocMap slot bit R) (hzero : ¬ R 0) (hb : R b) (hfree : bit b = false)
    (hi : slot i = 0) (hbit : ∀ c, R c → bit' c = if c = b then true else bit c) :
    AllocMap (update slot i b) bit' R := by
  have hne : ∀ j, slot j ≠ b := h.slot_ne hb hfree
  have hother (j : ι) (hj : j ≠ i) : update slot i b j = slot j :=
    update_of_ne hj b slot
  have hself : update slot i b i = b := update_self i b slot
  constructor
  · intro j k heq hnz
    by_cases hj : j = i
    · by_cases hk : k = i
      · rw [hj, hk]
      · rw [hj, hself, hother k hk] at heq
        exact absurd heq.symm (hne k)
    · by_cases hk : k = i
      · rw [hk, hself, hother j hj] at heq
        exact absurd heq (hne j)
      · rw [hother j hj, hother k hk] at heq
        rw [hother j hj] at hnz
        exact h.inj j k heq hnz
  · intro j hnz
    by_cases hj : j = i
    · rw [hj, hself]
      exact hb
    · rw [hother j hj] at hnz ⊢
      exact h.range j hnz
  · intro c hc
    rw [hbit c hc]
    by_cases hcb : c = b
    · rw [if_pos hcb]
      exact ⟨fun _ => ⟨i, hself.trans hcb.symm⟩, fun _ => rfl⟩
    · rw [if_neg hcb, h.marked c hc]
      constructor
      · rintro ⟨j, hj⟩
        have hji : j ≠ i := by
          rintro rfl
          rw [hi] at hj
          exact hzero (hj ▸ hc)
        exact ⟨j, (hother j hji).trans hj⟩
      · rintro ⟨j, hj⟩
        have hji : j ≠ i := by
          rintro rfl
          exact hcb (hj.symm.trans hself)
        exact ⟨j, (hother j hji).symm.trans hj⟩

theorem free (h : AllocMap slot bit R) (hzero : ¬ R 0) (hi : slot i ≠ 0)
    (hbit : ∀ c, R c → bit' c = if c = slot i then false else bit c) :
    AllocMap (update slot i 0) bit' R := by
  have hother (j : ι) (hj : j ≠ i) : update slot i 0 j = slot j :=
    update_of_ne hj 0 slot
  have hself : update slot i 0 i = 0 := update_self i 0 slot
  have hne (j : ι) (hnz : update slot i 0 j ≠ 0) : j ≠ i := by
    rintro rfl
    exact hnz hself
  constructor
  · intro j k heq hnz
    have hj := hne j hnz
    have hk := hne k (heq ▸ hnz)
    rw [hother j hj, hother k hk] at heq
    rw [hother j hj] at hnz
    exact h.inj j k heq hnz
  · intro j hnz
    have hj := hne j hnz
    rw [hother j hj] at hnz ⊢
    exact h.range j hnz
  · intro c hc
    have hcz : c ≠ 0 := by
      rintro rfl
      exact hzero hc
    rw [hbit c hc]
    by_cases hcb : c = slot i
    · rw [if_pos hcb]
      refine ⟨fun h' => absurd h' (by decide), ?_⟩
      rintro ⟨j, hj⟩
      have hji := hne j (hj.symm ▸ hcz)
      rw [hother j hji] at hj
      exact absurd (h.inj j i (hj.trans hcb) (hj.symm ▸ hcz)) hji
    · rw [if_neg hcb, h.marked c hc]
      constructor
      · rintro ⟨j, hj⟩
        have hji : j ≠ i := by
          rintro rfl
          exact hcb hj.symm
        exact ⟨j, (hother j hji).trans hj⟩
      · rintro ⟨j, hj⟩
        have hji := hne j (hj.symm ▸ hcz)
        exact ⟨j, (hother j hji).symm.trans hj⟩

end AllocMap

end Xv6
