import Xv6.PageRange

/-! User memory: the functions of vm.c that map and unmap user pages, in terms of the PTEs `L` of a
page table. The page number of `TRAPFRAME` is `TFP`; the user pages are below it. -/
namespace Xv6

/-- `TRAPFRAME`, as a page number. -/
@[irreducible] def TFP : ℕ := TRAPFRAME / PGSIZE

theorem TFP_eq : TFP = 67108862 := by
  unfold TFP
  rfl

theorem pagesOf_le {sz : ℕ} (h : sz ≤ TRAPFRAME) : pagesOf sz ≤ TFP := by
  rw [TRAPFRAME, TRAMPOLINE, MAXVA, PGSIZE] at h
  rw [pagesOf, TFP_eq, PGSIZE]
  omega

theorem page_lt_maxva {v : ℕ} (h : v ≤ TFP + 1) : v * PGSIZE < MAXVA := by
  rw [TFP_eq] at h
  rw [PGSIZE, MAXVA]
  omega

section Flags

theorem PA2PTE_and {p : ℕ} {g : Pte} (hg : g < 1024#64) : PA2PTE p &&& g = 0 := by
  apply BitVec.eq_of_getLsbD_eq
  intro i hi
  rw [BitVec.getLsbD_and, PA2PTE, BitVec.getLsbD_shiftLeft]
  by_cases h : i < 10
  · simp [h]
  · have hbit : g.getLsbD i = false :=
      Nat.testBit_lt_two_pow (lt_of_lt_of_le (show g.toNat < 2 ^ 10 from hg)
        (Nat.pow_le_pow_right (by norm_num) (by omega)))
    simp [hbit]

theorem PA2PTE_or_and {p : ℕ} {f g : Pte} (hg : g < 1024#64) :
    (PA2PTE p ||| f) &&& g = f &&& g := by
  have hz := PA2PTE_and (p := p) hg
  apply BitVec.eq_of_getLsbD_eq
  intro i hi
  have hbit := congrArg (fun x => x.getLsbD i) hz
  simp only [BitVec.getLsbD_and, BitVec.getLsbD_or, Bool.and_or_distrib_right] at hbit ⊢
  rw [hbit]
  simp

end Flags

section Leaves

theorem sum_update_add {α M : Type*} [AddCommMonoid M] (s : Finset ℕ) (f : α → M) (L : ℕ → α)
    {v : ℕ} (e : α) (hv : v ∈ s) :
    ∑ x ∈ s, f (update L v e x) + f (L v) = f e + ∑ x ∈ s, f (L x) := by
  rw [← Finset.add_sum_erase _ _ hv, ← Finset.add_sum_erase s (fun x => f (L x)) hv,
    update_self]
  have hrest : ∑ x ∈ s.erase v, f (update L v e x) = ∑ x ∈ s.erase v, f (L x) :=
    Finset.sum_congr rfl (fun x hx => by rw [update_of_ne (Finset.ne_of_mem_erase hx)])
  rw [hrest, add_assoc, add_comm (f (L v))]

/-- The user pages that a page table maps. -/
@[irreducible] def leaves (L : ℕ → Pte) : Multiset ℕ := ∑ v ∈ Finset.range TFP, target (L v)

theorem leaves_eq (L : ℕ → Pte) : leaves L = ∑ v ∈ Finset.range TFP, target (L v) := by
  unfold leaves
  rfl

variable {L L' : ℕ → Pte} {v : ℕ} {e : Pte}

theorem leaves_congr (h : ∀ v < TFP, L' v = L v) : leaves L' = leaves L := by
  rw [leaves_eq, leaves_eq]
  exact Finset.sum_congr rfl (fun v hv => by rw [h v (Finset.mem_range.mp hv)])

theorem leaves_update (hv : v < TFP) :
    leaves (update L v e) + target (L v) = target e + leaves L := by
  rw [leaves_eq, leaves_eq]
  exact sum_update_add _ _ _ _ (Finset.mem_range.mpr hv)

theorem target_zero : target 0 = 0 := rfl

theorem leaves_unmap (hv : v < TFP) : leaves L = target (L v) + leaves (update L v 0) := by
  have h := leaves_update (L := L) (e := 0) hv
  rw [target_zero, zero_add] at h
  rw [← h, add_comm]

theorem leaves_update_above (hv : TFP ≤ v) : leaves (update L v e) = leaves L :=
  leaves_congr (fun x hx => update_of_ne (by omega) _ _)

theorem mem_leaves (hv : v < TFP) (hL : L v ≠ 0) : PTE2PA (L v) ∈ leaves L := by
  rw [leaves_unmap hv, target, if_neg hL]
  exact mem_add.mpr (.inl (Multiset.mem_singleton_self _))

theorem leaves_zero (h : ∀ v < TFP, L v = 0) : leaves L = 0 := by
  rw [leaves_eq]
  exact Finset.sum_eq_zero (fun v hv => by rw [h v (Finset.mem_range.mp hv), target_zero])

theorem leaves_clear {a b : ℕ} (hab : a ≤ b) (hb : b ≤ TFP) :
    leaves L = dataPages L a b + leaves (clear L a b) := by
  induction b, hab using Nat.le_induction with
  | base => rw [dataPages_empty L (le_refl a), clear_empty (le_refl a), zero_add]
  | succ b hab ih =>
    have hLb : clear L a b b = L b := clear_other (by omega)
    rw [ih (by omega), leaves_unmap (L := clear L a b) hb, hLb, ← clear_succ hab, dataPages_last L hab]
    abel

theorem card_leaves {a b : ℕ} (hb : b ≤ TFP) (h : ∀ v, a ≤ v → v < b → L v ≠ 0) :
    b - a ≤ (leaves L).card := by
  rw [leaves_eq, Multiset.card_sum]
  have hsub : Finset.Ico a b ⊆ Finset.range TFP := by
    intro v hv
    rw [Finset.mem_Ico] at hv
    exact Finset.mem_range.mpr (by omega)
  calc b - a = ∑ v ∈ Finset.Ico a b, 1 := by simp
    _ ≤ ∑ v ∈ Finset.Ico a b, (target (L v)).card := by
        refine Finset.sum_le_sum (fun v hv => ?_)
        rw [Finset.mem_Ico] at hv
        rw [target, if_neg (h v hv.1 hv.2), Multiset.card_singleton]
    _ ≤ ∑ v ∈ Finset.range TFP, (target (L v)).card :=
        Finset.sum_le_sum_of_subset hsub

end Leaves

/-- The owner of a page table with its user pages has worked on it, from `m` to `m'`: it is
now a table with the PTEs `L`, and the other pages `R` are as they were. -/
structure UserKept (lo : ℕ) (m : Mem) (p : ℕ) (T : Multiset ℕ) (L : ℕ → Pte) (R : Multiset ℕ)
    (m' : Mem) : Prop where
  tree : IsTree m'.page 2 p T L
  uses : Uses lo m' (T + (leaves L + R))
  rest : ∀ q ∈ R, m'.page q = m.page q

section Unmap

variable {lo p a b v : ℕ} {T T' R : Multiset ℕ} {L L' : ℕ → Pte} {m m₁ m' : Mem}
  {E : VmPanic → Mem → Prop}

theorem UserKept.refl (ht : IsTree m.page 2 p T L) (hs : Uses lo m (T + (leaves L + R))) :
    UserKept lo m p T L R m :=
  ⟨ht, hs, fun _ _ => rfl⟩

theorem UserKept.trans (h : UserKept lo m p T L R m₁) (h' : UserKept lo m₁ p T' L' R m') :
    UserKept lo m p T' L' R m' :=
  ⟨h'.tree, h'.uses, fun q hq => (h'.rest q hq).trans (h.rest q hq)⟩

theorem Kept.user (h : Kept lo m p T L (leaves L + R) m') : UserKept lo m p T L R m' :=
  ⟨h.tree, h.uses, fun q hq => h.rest q (mem_add.mpr (.inr hq))⟩

theorem TFP_lt_MAXVP : TFP + 1 < MAXVP := by
  rw [TFP_eq, MAXVP_eq]
  norm_num

theorem uses_range (hab : a ≤ b) (hb : b ≤ TFP) (hs : Uses lo m (T + (leaves L + R))) :
    Uses lo m (T + (dataPages L a b + (leaves (clear L a b) + R))) :=
  hs.perm (by rw [leaves_clear (L := L) hab hb, add_assoc])

theorem uvmunmap_spec {n : ℕ} (hn : a + n ≤ TFP) (ht : IsTree m.page 2 p T L)
    (hs : Uses lo m (T + (leaves L + R))) :
    wp (uvmunmap p (a * PGSIZE) n true) (fun _ m' => UserKept lo m p T (clear L a (a + n)) R m')
      E m := by
  have hmax := TFP_lt_MAXVP
  have hspec := unmapRange_spec (E := E) true (Nat.le_add_right a n) (by omega) ht
    (uses_range (Nat.le_add_right a n) hn hs)
  rw [Nat.add_sub_cancel_left] at hspec
  exact wp_imp hspec (fun _ _ hk => hk.user)

/-- `uvmunmap` of the trampoline or the trapframe, which are not freed. -/
theorem uvmunmap_special_spec (hv : v = TFP ∨ v = TFP + 1) (ht : IsTree m.page 2 p T L)
    (hs : Uses lo m (T + (leaves L + R))) :
    wp (uvmunmap p (v * PGSIZE) 1 false) (fun _ m' =>
      UserKept lo m p T (update L v 0) R m') E m := by
  have hmax := TFP_lt_MAXVP
  have hs' : Uses lo m (T + ((if false then dataPages L v (v + 1) else 0) + (leaves L + R))) := hs.perm (by simp)
  have hspec := unmapRange_spec (E := E) false (Nat.le_add_right v 1) (by omega) ht hs'
  rw [Nat.add_sub_cancel_left] at hspec
  refine wp_imp hspec ?_
  intro _ m₁ hk
  rw [clear_succ (le_refl v), clear_empty (le_refl v)] at hk
  refine ⟨hk.tree, ?_, fun q hq => hk.rest q (mem_add.mpr (.inr hq))⟩
  rw [leaves_update_above (by omega)]
  exact hk.uses

theorem uvmdealloc_spec {oldsz newsz : ℕ} (hold : oldsz ≤ TRAPFRAME)
    (ht : IsTree m.page 2 p T L) (hs : Uses lo m (T + (leaves L + R))) :
    wp (uvmdealloc p oldsz newsz) (fun r m' =>
      r = min oldsz newsz ∧
        UserKept lo m p T (clear L (pagesOf newsz) (pagesOf oldsz)) R m') E m := by
  have hmax : oldsz ≤ MAXVA := le_trans hold (by decide)
  have hs' : Uses lo m (T + (dataPages L (pagesOf newsz) (pagesOf oldsz) +
      (leaves (clear L (pagesOf newsz) (pagesOf oldsz)) + R))) := by
    rcases le_total (pagesOf newsz) (pagesOf oldsz) with hle | hle
    · exact uses_range hle (pagesOf_le hold) hs
    · refine hs.perm ?_
      rw [dataPages_empty L hle, clear_empty hle, zero_add]
  refine wp_imp (deallocRange_spec hmax ht hs') ?_
  rintro r m' ⟨hr, hk⟩
  exact ⟨hr, hk.user⟩

end Unmap

section Grow

variable {lo p o : ℕ} {T R : Multiset ℕ} {L L₀ : ℕ → Pte} {m m₀ : Mem} {xperm : Pte}

/-- `L` is `L₀` with the pages `[a, b)` mapped, all with the flags `perm`. -/
structure Filled (L₀ L : ℕ → Pte) (a b : ℕ) (perm : Pte) : Prop where
  inside : ∀ v, a ≤ v → v < b → ∃ q, L v = PA2PTE q ||| perm ||| PTE_V
  outside : ∀ v, ¬ (a ≤ v ∧ v < b) → L v = L₀ v

theorem Filled.empty (L : ℕ → Pte) (a : ℕ) (perm : Pte) : Filled L L a a perm :=
  ⟨fun v h1 h2 => absurd h2 (by omega), fun _ _ => rfl⟩

theorem Built.filled {a b : ℕ} (h : Built lo m₀ p T L₀ L a b (zeroPages xperm) R m) :
    Filled L₀ L a b (PTE_R ||| PTE_U ||| xperm) :=
  ⟨fun v h1 h2 => (h.inside v h1 h2 _ _ rfl).1, h.outside⟩

theorem Built.user {a b : ℕ} {F : ℕ → Option (Pte × (Page → Prop))} (hab : a ≤ b) (hb : b ≤ TFP)
    (hz : ∀ v, a ≤ v → v < b → L₀ v = 0) (h : Built lo m₀ p T L₀ L a b F (leaves L₀ + R) m) :
    UserKept lo m₀ p T L R m := by
  refine ⟨h.tree, h.uses.perm ?_, fun q hq => h.rest q (mem_add.mpr (.inr hq))⟩
  rw [leaves_clear (L := L) hab hb, h.clear_eq hz, add_assoc]

/-- `uvmalloc`: nothing is mapped above the old size. It panics only if the trapframe is in
the way, which takes more than `TFP - PHYSPAGES` pages below the old size. -/
theorem uvmalloc_spec {oldsz newsz : ℕ} (hx : xperm < 1024#64) (htf : Valid (L TFP))
    (hold : oldsz ≤ TRAPFRAME) (hz : ∀ v, pagesOf oldsz ≤ v → v < TFP → L v = 0)
    (hk : UserKept lo m₀ p T L R m) :
    wp (uvmalloc p oldsz newsz xperm)
      (fun r m' =>
        (r = oldsz ∧ newsz < oldsz ∧ UserKept lo m₀ p T L R m') ∨
        (r = newsz ∧ oldsz ≤ newsz ∧ pagesOf newsz ≤ TFP ∧ ∃ T' L',
          Filled L L' (pagesOf oldsz) (pagesOf newsz) (PTE_R ||| PTE_U ||| xperm) ∧
          UserKept lo m₀ p T' L' R m') ∨
        (r = 0 ∧ ∃ T', UserKept lo m₀ p T' L R m'))
      (fun e m' => e = .remap ∧ TFP < pagesOf newsz ∧ TFP ≤ pagesOf oldsz + PHYSPAGES ∧
        ∃ P, Uses lo m' P) m := by
  have hnum : TRAPFRAME = 2 ^ 38 - 8192 := rfl
  by_cases hlt : newsz < oldsz
  · rw [uvmalloc, if_pos hlt]
    exact .inl ⟨rfl, hlt, hk⟩
  · have hle : oldsz ≤ newsz := Nat.le_of_not_lt hlt
    have hmax := TFP_lt_MAXVP
    have hTFP := pagesOf_le hold
    have hstart : PGROUNDUP oldsz / PGSIZE = pagesOf oldsz := by rw [PGROUNDUP_eq (by omega), page_div]
    have hcount : pagesOf oldsz + newPages oldsz newsz = pagesOf newsz := by
      rw [newPages, PGROUNDUP_eq (by omega)]
      simp only [pagesOf, PGSIZE]
      omega
    -- the user pages are part of the rest
    have hspec := uvmalloc_built hx hle (⟨hk.tree, hk.uses, fun _ _ => rfl⟩ : Kept lo m p T L (leaves L + R) m)
    rw [hstart, hcount] at hspec
    refine wp_mono hspec ?_ ?_
    · rintro r m' (⟨rfl, hzero, T', L', hb⟩ | ⟨rfl, T', hk'⟩)
      · have hn : pagesOf r ≤ TFP := by
          by_contra hn
          rw [hzero TFP hTFP (by omega)] at htf
          exact not_valid_zero htf
        exact .inr (.inl ⟨rfl, hle, hn, T', L', hb.filled, hk.trans (hb.user (pagesOf_mono hle) hn hzero)⟩)
      · exact .inr (.inr ⟨rfl, T', hk.trans hk'.user⟩)
    · rintro e m' ⟨v, ⟨h1, h2, hzero, he⟩, hphys, hU⟩
      rw [hcount] at h2
      -- the trapframe is the first page in the way
      have hv : v ≤ TFP := by
        by_contra hv
        rw [hzero TFP hTFP (by omega)] at htf
        exact not_valid_zero htf
      obtain ⟨he, -, hval⟩ := he.resolve_right (by omega)
      have hTv : TFP ≤ v := by
        by_contra hlt
        rw [hz v h1 (by omega)] at hval
        exact not_valid_zero hval
      exact ⟨he, by omega, by omega, hU⟩

end Grow

end Xv6
