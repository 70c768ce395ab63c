import Xv6.PageTree

/-! Ranges of pages: taking the mappings of a range away, and mapping new pages one after the other
with a way back, as `uvmalloc` and `uvmcopy` do. The pages of other data are among the pages `R`. -/
namespace Xv6

section Numbers

/-- `MAXVA`, as a page number. -/
@[irreducible] def MAXVP : ℕ := MAXVA / PGSIZE

theorem MAXVP_eq : MAXVP = 67108864 := by
  unfold MAXVP
  rfl

/-- The number of pages of a process of size `sz`. -/
def pagesOf (sz : ℕ) : ℕ := (sz + (PGSIZE - 1)) / PGSIZE

theorem PGROUNDUP_eq {sz : ℕ} (h : sz ≤ 2 ^ 63) : PGROUNDUP sz = pagesOf sz * PGSIZE := by
  rw [PGROUNDUP, pagesOf, Nat.mod_eq_of_lt (by rw [PGSIZE]; omega)]

theorem pagesOf_mono {a b : ℕ} (h : a ≤ b) : pagesOf a ≤ pagesOf b :=
  Nat.div_le_div_right (Nat.add_le_add_right h _)

theorem pagesOf_mul (v : ℕ) : pagesOf (v * PGSIZE) = v := by
  rw [pagesOf, PGSIZE]
  omega

theorem page_div (v : ℕ) : v * PGSIZE / PGSIZE = v := Nat.mul_div_cancel v (by decide)

theorem page_mod (v : ℕ) : v * PGSIZE % PGSIZE = 0 := Nat.mul_mod_left v PGSIZE

theorem page_le_maxva {v : ℕ} (h : v ≤ MAXVP) : v * PGSIZE ≤ MAXVA := by
  rw [MAXVP_eq] at h
  rw [PGSIZE, MAXVA]
  omega

theorem page_lt_of_maxvp {v : ℕ} (h : v < MAXVP) : v * PGSIZE < MAXVA := by
  rw [MAXVP_eq] at h
  rw [PGSIZE, MAXVA]
  omega

theorem maxva_le_page {v : ℕ} (h : MAXVP ≤ v) : MAXVA ≤ v * PGSIZE := by
  rw [MAXVP_eq] at h
  rw [PGSIZE, MAXVA]
  omega

theorem lt_range_of_maxvp {v : ℕ} (h : v < MAXVP) : v < 512 ^ (2 + 1) := by
  rw [MAXVP_eq] at h
  omega

theorem intPages_eq {n : ℕ} (h : n < 2 ^ 31) : intPages n = n := by
  rw [intPages, BitVec.toNat_signExtend, BitVec.msb_eq_false_iff_two_mul_lt.mpr]
  · simp only [BitVec.toNat_setWidth, BitVec.toNat_ofNat, Bool.false_eq_true, if_false]
    omega
  · rw [BitVec.toNat_ofNat]
    omega

end Numbers

/-- `L` without the pages `[a, b)`. -/
def clear (L : ℕ → Pte) (a b : ℕ) : ℕ → Pte := fun v => if a ≤ v ∧ v < b then 0 else L v

/-- The physical pages that `[a, b)` is mapped to. -/
@[irreducible] def dataPages (L : ℕ → Pte) (a b : ℕ) : Multiset ℕ := ∑ v ∈ Finset.Ico a b, target (L v)

section Range

variable {L L' : ℕ → Pte} {a b v : ℕ}

theorem clear_empty (h : b ≤ a) : clear L a b = L := by
  funext v
  rw [clear, if_neg (by omega)]

theorem clear_succ (h : a ≤ b) : clear L a (b + 1) = update (clear L a b) b 0 := by
  funext v
  by_cases hv : v = b
  · subst hv
    rw [update_self, clear, if_pos (by omega)]
  · rw [update_of_ne hv, clear, clear]
    by_cases hin : a ≤ v ∧ v < b
    · rw [if_pos hin, if_pos (by omega)]
    · rw [if_neg hin, if_neg (by omega)]

theorem clear_other (h : ¬ (a ≤ v ∧ v < b)) : clear L a b v = L v := if_neg h

theorem dataPages_eq (L : ℕ → Pte) (a b : ℕ) : dataPages L a b = ∑ v ∈ Finset.Ico a b, target (L v) := by
  unfold dataPages
  rfl

theorem dataPages_empty (L : ℕ → Pte) (h : b ≤ a) : dataPages L a b = 0 := by
  rw [dataPages_eq, Finset.Ico_eq_empty_of_le h, Finset.sum_empty]

theorem dataPages_head (L : ℕ → Pte) (h : a < b) : dataPages L a b = target (L a) + dataPages L (a + 1) b := by
  rw [dataPages_eq, dataPages_eq, Finset.sum_eq_sum_Ico_succ_bot h]

theorem dataPages_last (L : ℕ → Pte) (h : a ≤ b) : dataPages L a (b + 1) = target (L b) + dataPages L a b := by
  rw [dataPages_eq, dataPages_eq, Finset.sum_Ico_succ_top h, add_comm]

theorem dataPages_congr (h : ∀ v, a ≤ v → v < b → L' v = L v) : dataPages L' a b = dataPages L a b := by
  rw [dataPages_eq, dataPages_eq]
  refine Finset.sum_congr rfl (fun v hv => ?_)
  rw [Finset.mem_Ico] at hv
  rw [h v hv.1 hv.2]

theorem mem_dataPages (h1 : a ≤ v) (h2 : v < b) (h : L v ≠ 0) : PTE2PA (L v) ∈ dataPages L a b := by
  rw [dataPages_eq, Multiset.mem_sum]
  refine ⟨v, Finset.mem_Ico.mpr ⟨h1, h2⟩, ?_⟩
  rw [target, if_neg h]
  exact Multiset.mem_singleton_self _

theorem card_dataPages (h : ∀ v, a ≤ v → v < b → L v ≠ 0) : (dataPages L a b).card = b - a := by
  rw [dataPages_eq, Multiset.card_sum]
  have hone : ∀ v ∈ Finset.Ico a b, (target (L v)).card = 1 := by
    intro v hv
    rw [Finset.mem_Ico] at hv
    rw [target, if_neg (h v hv.1 hv.2), Multiset.card_singleton]
  rw [Finset.sum_congr rfl hone, Finset.sum_const, Nat.card_Ico, smul_eq_mul, mul_one]

end Range

section Unmap

variable {lo p a b : ℕ} {T R : Multiset ℕ} {L : ℕ → Pte} {m : Mem} {E : VmPanic → Mem → Prop}

/-- `uvmunmap` of the pages `[a, b)`. With `do_free` their physical pages were in use. -/
theorem unmapRange_spec (doFree : Bool) (hab : a ≤ b) (hb : b ≤ MAXVP) (ht : IsTree m.page 2 p T L)
    (hs : Uses lo m (T + ((if doFree then dataPages L a b else 0) + R))) :
    wp (uvmunmap p (a * PGSIZE) (b - a) doFree) (fun _ m' => Kept lo m p T (clear L a b) R m') E m := by
  rw [uvmunmap, if_neg (by rw [page_mod]; simp)]
  -- before iteration `i` the pages `[a, a + i)` are gone and those from `a + i` on are still in use
  have hloop := wp_loop (E := E) (f := fun i => unmapPage p doFree (a * PGSIZE + i * PGSIZE))
    (I := fun i m' => IsTree m'.page 2 p T (clear L a (a + i)) ∧
      Uses lo m' (T + ((if doFree then dataPages L (a + i) b else 0) + R)) ∧ ∀ q ∈ R, m'.page q = m.page q)
    (b - a) 0 ?_ (s := m) ?_
  · refine wp_imp hloop ?_
    rintro _ m' ⟨ht', hs', hrest⟩
    rw [zero_add, Nat.add_sub_cancel' hab] at ht' hs'
    refine ⟨ht', hs'.perm ?_, hrest⟩
    rw [dataPages_empty L (le_refl b), ite_self, zero_add]
  · rintro i m₁ - hi ⟨ht₁, hs₁, hrest⟩
    have hlt : a + i < b := by omega
    have hentry : clear L a (a + i) (a + i) = L (a + i) := clear_other (by omega)
    rw [show a * PGSIZE + i * PGSIZE = (a + i) * PGSIZE by ring]
    have hspec := unmapPage_spec (E := E) doFree (page_lt_of_maxvp (by omega : a + i < MAXVP)) ht₁
      (R := (if doFree then dataPages L (a + i + 1) b else 0) + R) (by
        rw [page_div, hentry]
        refine hs₁.perm ?_
        rw [dataPages_head L hlt, ← add_assoc (ite _ _ _)]
        cases doFree <;> simp)
    refine wp_imp hspec ?_
    rintro _ m₂ hk
    rw [page_div, ← clear_succ (by omega), Nat.add_assoc] at hk
    refine ⟨hk.tree, hk.uses, fun q hq => ?_⟩
    rw [hk.rest q (mem_add.mpr (.inr hq)), hrest q hq]
  · rw [add_zero, clear_empty (le_refl a)]
    exact ⟨ht, hs, fun _ _ => rfl⟩

theorem deallocRange_spec {oldsz newsz : ℕ} (hold : oldsz ≤ MAXVA) (ht : IsTree m.page 2 p T L)
    (hs : Uses lo m (T + (dataPages L (pagesOf newsz) (pagesOf oldsz) + R))) :
    wp (uvmdealloc p oldsz newsz) (fun r m' => r = min oldsz newsz ∧
      Kept lo m p T (clear L (pagesOf newsz) (pagesOf oldsz)) R m') E m := by
  have hnum : MAXVA = 2 ^ 38 := rfl
  have hle : pagesOf oldsz ≤ MAXVP := by
    rw [pagesOf, MAXVP_eq, PGSIZE]
    omega
  have hkeep (h : pagesOf oldsz ≤ pagesOf newsz) :
      Kept lo m p T (clear L (pagesOf newsz) (pagesOf oldsz)) R m := by
    rw [clear_empty h]
    refine ⟨ht, hs.perm ?_, fun _ _ => rfl⟩
    rw [dataPages_empty L h, zero_add]
  rw [uvmdealloc]
  split_ifs with h1 h2
  · exact ⟨(Nat.min_eq_left h1).symm, hkeep (pagesOf_mono h1)⟩
  · have hm := pagesOf_mono (Nat.le_of_not_le h1)
    rw [PGROUNDUP_eq (by omega), PGROUNDUP_eq (by omega)] at h2 ⊢
    have hcount : intPages ((pagesOf oldsz * PGSIZE - pagesOf newsz * PGSIZE) / PGSIZE) =
        pagesOf oldsz - pagesOf newsz := by
      rw [← Nat.sub_mul, page_div, intPages_eq]
      rw [MAXVP_eq] at hle
      omega
    rw [wp_bind, hcount]
    refine wp_imp (unmapRange_spec true hm hle ht hs) ?_
    intro _ m' hk
    exact ⟨(Nat.min_eq_right (Nat.le_of_not_le h1)).symm, hk⟩
  · rw [PGROUNDUP_eq (by omega), PGROUNDUP_eq (by omega)] at h2
    exact ⟨(Nat.min_eq_right (Nat.le_of_not_le h1)).symm,
      hkeep (Nat.le_of_mul_le_mul_right (Nat.le_of_not_lt h2) (by decide))⟩

end Unmap

section Page

variable {lo p q : ℕ} {T S : Multiset ℕ} {L : ℕ → Pte} {m m₁ : Mem} {E : VmPanic → Mem → Prop}

theorem kalloc_fresh (x : Page) (ht : IsTree m.page 2 p T L) (hs : Uses lo m₁ (q ::ₘ (T + S)))
    (hpage : ∀ y, y ≠ q → m₁.page y = m.page y) :
    IsTree (m₁.setPage q x).page 2 p T L ∧ Uses lo (m₁.setPage q x) (T + (q ::ₘ S)) ∧
      ∀ y ∈ S, (m₁.setPage q x).page y = m.page y := by
  have hnot := (nodup_cons.mp hs.nodup).1
  have hsame {y : ℕ} (hy : y ∈ T + S) : (m₁.setPage q x).page y = m.page y := by
    have hyq : y ≠ q := by
      rintro rfl
      exact hnot hy
    rw [setPage_page, if_neg hyq, hpage y hyq]
  exact ⟨ht.frame (fun y hy => hsame (mem_add.mpr (.inl hy))),
    (hs.setPage).perm (Multiset.add_cons _ _ _), fun y hy => hsame (mem_add.mpr (.inr hy))⟩

theorem kfree_kept (hk : Kept lo m p T L (q ::ₘ S) m₁) :
    wp (kfree q) (fun _ m' => Kept lo m p T L S m') E m₁ := by
  have hs : Uses lo m₁ (q ::ₘ (T + S)) := hk.uses.perm (Multiset.add_cons _ _ _).symm
  have hnot := (nodup_cons.mp hs.nodup).1
  refine wp_imp (kfree_spec hs) ?_
  rintro _ m' ⟨hs', hpage⟩
  have hsame {y : ℕ} (hy : y ∈ T + S) : m'.page y = m₁.page y := by
    apply hpage y
    rintro rfl
    exact hnot hy
  refine ⟨hk.tree.frame (fun y hy => hsame (mem_add.mpr (.inl hy))), hs', fun y hy => ?_⟩
  rw [hsame (mem_add.mpr (.inr hy)), hk.rest y (mem_cons_of_mem hy)]

theorem pte_ne_zero (q : ℕ) (perm : Pte) : PA2PTE q ||| perm ||| PTE_V ≠ 0 := by
  intro h0
  exact not_valid_zero (h0 ▸ valid_or (PA2PTE q ||| perm))

theorem PTE2PA_new {perm : Pte} (hq : q < 2 ^ 54) (hperm : perm < 1024#64) :
    PTE2PA (PA2PTE q ||| perm ||| PTE_V) = q := by
  have hflags : perm ||| PTE_V < 1024#64 :=
    show (perm ||| PTE_V).toNat < 2 ^ 10 from
      (BitVec.toNat_or perm PTE_V).symm ▸ Nat.or_lt_two_pow hperm (by decide)
  rw [BitVec.or_assoc]
  exact PTE2PA_or hq hflags

end Page

/-- Page by page the range `[a, b)` has been mapped to new pages, from `m₀` to `m` and from the PTEs
`L₀` to `L`. `F v` has the flags for the page `v` and what its contents must satisfy; it is `none`
where nothing is mapped. -/
structure Built (lo : ℕ) (m₀ : Mem) (p : ℕ) (T : Multiset ℕ) (L₀ L : ℕ → Pte) (a b : ℕ)
    (F : ℕ → Option (Pte × (Page → Prop))) (R : Multiset ℕ) (m : Mem) : Prop where
  tree : IsTree m.page 2 p T L
  uses : Uses lo m (T + (dataPages L a b + R))
  rest : ∀ q ∈ R, m.page q = m₀.page q
  outside : ∀ v, ¬ (a ≤ v ∧ v < b) → L v = L₀ v
  hole : ∀ v, a ≤ v → v < b → F v = none → L v = 0
  inside : ∀ v, a ≤ v → v < b → ∀ perm P, F v = some (perm, P) →
    (∃ q, L v = PA2PTE q ||| perm ||| PTE_V) ∧ P (m.page (PTE2PA (L v)))

namespace Built

variable {lo p a b q : ℕ} {T T' R : Multiset ℕ} {L₀ L : ℕ → Pte} {m₀ m m₁ m' : Mem} {perm : Pte} {P : Page → Prop}
  {F : ℕ → Option (Pte × (Page → Prop))} {E : VmPanic → Mem → Prop}

theorem empty (a : ℕ) (F : ℕ → Option (Pte × (Page → Prop))) (hk : Kept lo m₀ p T L R m) :
    Built lo m₀ p T L L a a F R m := by
  refine ⟨hk.tree, hk.uses.perm ?_, hk.rest, fun _ _ => rfl, fun v h1 h2 => absurd h2 (by omega),
    fun v h1 h2 => absurd h2 (by omega)⟩
  rw [dataPages_empty L (le_refl a), zero_add]

section

variable (h : Built lo m₀ p T L₀ L a b F R m)
include h

theorem skip (hab : a ≤ b) (hF : F b = none) (hz : L₀ b = 0) :
    Built lo m₀ p T L₀ L a (b + 1) F R m := by
  have hLb : L b = 0 := (h.outside b (by omega)).trans hz
  refine ⟨h.tree, h.uses.perm ?_, h.rest, fun v hv => h.outside v (by omega), fun v h1 h2 hv => ?_,
    fun v h1 h2 perm P hv => ?_⟩
  · rw [dataPages_last L hab, hLb, target, if_pos rfl, zero_add]
  · by_cases hvb : v = b
    · rw [hvb, hLb]
    · exact h.hole v h1 (by omega) hv
  · by_cases hvb : v = b
    · rw [hvb, hF] at hv
      cases hv
    · exact h.inside v h1 (by omega) perm P hv

theorem frame (ht : IsTree m'.page 2 p T' L)
    (hs : Uses lo m' (T' + (dataPages L a b + R))) (hrest : ∀ q ∈ dataPages L a b + R, m'.page q = m.page q) :
    Built lo m₀ p T' L₀ L a b F R m' := by
  refine ⟨ht, hs, fun q hq => ?_, h.outside, h.hole, fun v h1 h2 perm P hv => ?_⟩
  · rw [hrest q (mem_add.mpr (.inr hq)), h.rest q hq]
  · obtain ⟨⟨q, hq⟩, hP⟩ := h.inside v h1 h2 perm P hv
    refine ⟨⟨q, hq⟩, ?_⟩
    rw [hrest]
    · exact hP
    · apply mem_add.mpr
      left
      apply mem_dataPages h1 h2
      rw [hq]
      exact pte_ne_zero q perm

theorem map (hab : a ≤ b) (hF : F b = some (perm, P)) (hperm : perm < 1024#64)
    (hL : L b = 0) (hsame : ∀ y ∈ dataPages L a b + R, m₁.page y = m.page y) (hP : P (m₁.page q))
    (hk : Kept lo m₁ p T' (update L b (PA2PTE q ||| perm ||| PTE_V)) (q ::ₘ (dataPages L a b + R)) m') :
    Built lo m₀ p T' L₀ (update L b (PA2PTE q ||| perm ||| PTE_V)) a (b + 1) F R m' := by
  have hq := hk.uses.bounds (mem_add.mpr (.inr (mem_cons_self q _)))
  have hpa : PTE2PA (PA2PTE q ||| perm ||| PTE_V) = q := PTE2PA_new (lt_trans hq.2 (by decide)) hperm
  have hsame' : ∀ y ∈ dataPages L a b + R, m'.page y = m.page y := by
    intro y hy
    rw [hk.rest y (mem_cons_of_mem hy), hsame y hy]
  have hother : ∀ v, a ≤ v → v < b → update L b (PA2PTE q ||| perm ||| PTE_V) v = L v := by
    intro v h1 h2
    exact update_of_ne (by omega) _ _
  refine ⟨hk.tree, hk.uses.perm ?_, fun y hy => ?_, fun v hv => ?_, fun v h1 h2 hv => ?_, fun v h1 h2 perm' P' hv => ?_⟩
  · rw [dataPages_last _ hab, update_self, target, if_neg (pte_ne_zero q perm), hpa,
      dataPages_congr hother, Multiset.singleton_add, Multiset.cons_add]
  · rw [hsame' y (mem_add.mpr (.inr hy)), h.rest y hy]
  · rw [update_of_ne (by omega)]
    exact h.outside v (by omega)
  · have hvb : v ≠ b := by
      rintro rfl
      rw [hF] at hv
      cases hv
    rw [update_of_ne hvb]
    exact h.hole v h1 (by omega) hv
  · by_cases hvb : v = b
    · subst hvb
      rw [hF] at hv
      cases hv
      rw [update_self, hpa, hk.rest q (mem_cons_self q _)]
      exact ⟨⟨q, rfl⟩, hP⟩
    · have hlt : v < b := by omega
      obtain ⟨⟨q', hq'⟩, hP'⟩ := h.inside v h1 hlt perm' P' hv
      rw [update_of_ne hvb, hsame']
      · exact ⟨⟨q', hq'⟩, hP'⟩
      · apply mem_add.mpr
        left
        apply mem_dataPages h1 hlt
        rw [hq']
        exact pte_ne_zero q' perm'

theorem clear_eq (hz : ∀ v, a ≤ v → v < b → L₀ v = 0) : clear L a b = L₀ := by
  funext v
  rw [clear]
  split_ifs with hv
  · rw [hz v hv.1 hv.2]
  · exact h.outside v hv

theorem undo (hz : ∀ v, a ≤ v → v < b → L₀ v = 0)
    (hk : Kept lo m p T (clear L a b) R m') : Kept lo m₀ p T L₀ R m' := by
  rw [h.clear_eq hz] at hk
  exact ⟨hk.tree, hk.uses, fun q hq => (hk.rest q hq).trans (h.rest q hq)⟩

theorem ne_zero {v : ℕ} (h1 : a ≤ v) (h2 : v < b) (hF : F v = some (perm, P)) :
    L v ≠ 0 := by
  obtain ⟨⟨q, hq⟩, -⟩ := h.inside v h1 h2 perm P hF
  rw [hq]
  exact pte_ne_zero q perm

theorem le_physpages (hF : ∀ v, a ≤ v → v < b → F v ≠ none) :
    b ≤ a + PHYSPAGES := by
  have hcard : (dataPages L a b).card = b - a := by
    apply card_dataPages
    intro v h1 h2
    obtain ⟨⟨perm, P⟩, hv⟩ := Option.ne_none_iff_exists'.mp (hF v h1 h2)
    exact h.ne_zero h1 h2 hv
  have hle := h.uses.card_le
  rw [Multiset.card_add, Multiset.card_add] at hle
  omega

end

end Built

section Alloc

variable {lo p o c : ℕ} {T R : Multiset ℕ} {L₀ L : ℕ → Pte} {m₀ m : Mem} {perm xperm : Pte} {P : Page → Prop}
  {F : ℕ → Option (Pte × (Page → Prop))} {E : VmPanic → Mem → Prop}

theorem flags_or_lt (hx : xperm < 1024#64) : PTE_R ||| PTE_U ||| xperm < 1024#64 :=
  show (PTE_R ||| PTE_U ||| xperm).toNat < 2 ^ 10 from
    (BitVec.toNat_or _ xperm).symm ▸ Nat.or_lt_two_pow (by decide) hx

/-- What `uvmalloc` puts at every page. -/
def zeroPages (xperm : Pte) : ℕ → Option (Pte × (Page → Prop)) := fun _ =>
  some (PTE_R ||| PTE_U ||| xperm, fun x => x = 0)

/-- Where mapping the pages from `c` on stops with a panic, at the page `v`: it is mapped already, or
there is no such page. -/
def Blocked (L₀ : ℕ → Pte) (c n v : ℕ) (e : VmPanic) : Prop :=
  c ≤ v ∧ v < c + n ∧ (∀ x, c ≤ x → x < v → L₀ x = 0) ∧ (e = .remap ∧ v < MAXVP ∧ Valid (L₀ v) ∨ e = .walk ∧ MAXVP ≤ v)

theorem Blocked.succ {n v : ℕ} {e : VmPanic} (h : Blocked L₀ (c + 1) n v e) (hc : L₀ c = 0) :
    Blocked L₀ c (n + 1) v e := by
  obtain ⟨h1, h2, h3, h4⟩ := h
  refine ⟨by omega, by omega, fun x hx1 hx2 => ?_, h4⟩
  by_cases hxc : x = c
  · rw [hxc, hc]
  · exact h3 x (by omega) hx2

theorem mapNew_spec {q : ℕ} {m₁ : Mem} (hb : Built lo m₀ p T L₀ L o c F R m) (hoc : o ≤ c)
    (hF : F c = some (perm, P)) (hperm : perm < 1024#64) (ht : IsTree m₁.page 2 p T L)
    (hs : Uses lo m₁ (T + (q ::ₘ (dataPages L o c + R)))) (hsame : ∀ y ∈ dataPages L o c + R, m₁.page y = m.page y)
    (hP : P (m₁.page q)) :
    wp (mappages p (c * PGSIZE) PGSIZE q perm)
      (fun ok m' =>
        (ok = true ∧ c < MAXVP ∧ L₀ c = 0 ∧ ∃ T',
          Built lo m₀ p T' L₀ (update L c (PA2PTE q ||| perm ||| PTE_V)) o (c + 1) F R m') ∨
        (ok = false ∧ ∃ T', Kept lo m₁ p T' L (q ::ₘ (dataPages L o c + R)) m'))
      (fun e m' => (e = .remap ∧ c < MAXVP ∧ Valid (L₀ c) ∨ e = .walk ∧ MAXVP ≤ c) ∧ ∃ P, Uses lo m' P) m₁ := by
  have hLc : L c = L₀ c := hb.outside c (by omega)
  rcases Nat.lt_or_ge c MAXVP with hlt | hge
  · have hspec := mappages_spec q perm (page_lt_of_maxvp hlt) (page_mod c) ht hs
    rw [page_div] at hspec
    refine wp_mono hspec ?_ ?_
    · rintro ok m' (⟨hok, hz, T', hk⟩ | h)
      · exact .inl ⟨hok, hlt, hLc.symm.trans hz, T', hb.map hoc hF hperm hz hsame hP hk⟩
      · exact .inr h
    · rintro e m' ⟨he, hv, hU⟩
      exact ⟨.inl ⟨he, hlt, hLc ▸ hv⟩, hU⟩
  · have heq := mappages_eq (p := p) c q perm one_pos
    rw [Nat.one_mul] at heq
    rw [heq, mapLoop.eq_def]
    simp only [wp_bind, walk, if_pos (maxva_le_page hge), wp_throw]
    exact ⟨.inr ⟨trivial, hge⟩, _, hs⟩

theorem allocLoop_built (hx : xperm < 1024#64) (n : ℕ) (hoc : o ≤ c) (hc : c ≤ MAXVP ∨ c = o)
    (hz : ∀ v, o ≤ v → v < c → L₀ v = 0) (hb : Built lo m₀ p T L₀ L o c (zeroPages xperm) R m) :
    wp (allocLoop p (o * PGSIZE) xperm n (c * PGSIZE))
      (fun ok m' =>
        (ok = true ∧ (c + n ≤ MAXVP ∨ n = 0) ∧ (∀ v, c ≤ v → v < c + n → L₀ v = 0) ∧
          ∃ T' L', Built lo m₀ p T' L₀ L' o (c + n) (zeroPages xperm) R m') ∨
        (ok = false ∧ ∃ T', Kept lo m₀ p T' L₀ R m'))
      (fun e m' => ∃ v, Blocked L₀ c n v e ∧ v ≤ o + PHYSPAGES ∧ ∃ P, Uses lo m' P) m := by
  -- undoing what was mapped so far
  have hundo {L : ℕ → Pte} {T : Multiset ℕ} {m : Mem} {c : ℕ} (hc : c ≤ MAXVP ∨ c = o)
      (hz : ∀ v, o ≤ v → v < c → L₀ v = 0) (hb : Built lo m₀ p T L₀ L o c (zeroPages xperm) R m)
      (E : VmPanic → Mem → Prop) :
      wp (do let _ ← uvmdealloc p (c * PGSIZE) (o * PGSIZE); pure false : Vm Bool)
        (fun ok m' => ok = false ∧ ∃ T', Kept lo m₀ p T' L₀ R m') E m := by
    have hs : Uses lo m (T + (dataPages L (pagesOf (o * PGSIZE)) (pagesOf (c * PGSIZE)) + R)) := by
      rw [pagesOf_mul, pagesOf_mul]
      exact hb.uses
    rw [wp_bind]
    rcases hc with hc | rfl
    · refine wp_imp (deallocRange_spec (page_le_maxva hc) hb.tree hs) ?_
      rintro _ m' ⟨-, hk⟩
      rw [pagesOf_mul, pagesOf_mul] at hk
      exact ⟨rfl, T, hb.undo hz hk⟩
    · rw [uvmdealloc, if_pos (le_refl _), wp_pure]
      refine ⟨rfl, T, hb.undo hz ⟨?_, hb.uses.perm ?_, fun _ _ => rfl⟩⟩
      · rw [clear_empty (le_refl c)]
        exact hb.tree
      · rw [dataPages_empty L (le_refl c), zero_add]
  induction n generalizing c L T m with
  | zero => exact .inl ⟨rfl, .inr rfl, fun v h1 h2 => absurd h2 (by omega), T, L, hb⟩
  | succ n ih =>
    rw [allocLoop]
    refine wp_seq (kalloc_spec hb.uses) ?_
    rintro _ m₁ (⟨rfl, hs₁, hpage⟩ | ⟨q, rfl, hs₁, -, hpage⟩)
    · have hb₁ : Built lo m₀ p T L₀ L o c (zeroPages xperm) R m₁ :=
        hb.frame (by rw [hpage]; exact hb.tree) hs₁ (fun _ _ => by rw [hpage])
      exact wp_imp (hundo hc hz hb₁ _) (fun _ _ h => .inr h)
    · simp only [wp_bind, wp_writePage]
      obtain ⟨ht₂, hs₂, hsame⟩ := kalloc_fresh 0 hb.tree hs₁ hpage
      have hzero : (m₁.setPage q 0).page q = 0 := by rw [setPage_page, if_pos rfl]
      refine wp_mono (mapNew_spec hb hoc rfl (flags_or_lt hx) ht₂ hs₂ hsame hzero) ?_ ?_
      · rintro ok m₃ (⟨rfl, hlt, h0, T', hb₃⟩ | ⟨rfl, T', hk₃⟩)
        · have hz' : ∀ v, o ≤ v → v < c + 1 → L₀ v = 0 := by
            intro v h1 h2
            by_cases hvc : v = c
            · rw [hvc, h0]
            · exact hz v h1 (by omega)
          have hih := ih (c := c + 1) (by omega) (.inl hlt) hz' hb₃
          rw [show (c + 1) * PGSIZE = c * PGSIZE + PGSIZE by ring,
            show c + 1 + n = c + (n + 1) by omega] at hih
          refine wp_mono hih ?_ ?_
          · rintro ok m₄ (⟨rfl, hmax, hall, h⟩ | h)
            · refine .inl ⟨rfl, .inl (by omega), fun v h1 h2 => ?_, h⟩
              by_cases hvc : v = c
              · rw [hvc, h0]
              · exact hall v (by omega) h2
            · exact .inr h
          · rintro e m₄ ⟨v, hbl, hU⟩
            exact ⟨v, hbl.succ h0, hU⟩
        · rw [if_neg (by simp)]
          refine wp_seq (kfree_kept hk₃) ?_
          intro _ m₄ hk₄
          have hb₄ : Built lo m₀ p T' L₀ L o c (zeroPages xperm) R m₄ :=
            hb.frame hk₄.tree hk₄.uses (fun y hy => (hk₄.rest y hy).trans (hsame y hy))
          exact wp_imp (hundo hc hz hb₄ _) (fun _ _ h => .inr h)
      · rintro e m₃ ⟨he, hU⟩
        refine ⟨c, ⟨le_refl c, by omega, fun x h1 h2 => absurd h2 (by omega), he⟩, ?_, hU⟩
        apply hb.le_physpages
        intro v _ _ hv
        cases hv

theorem PGROUNDUP_div (sz : ℕ) : PGROUNDUP sz / PGSIZE * PGSIZE = PGROUNDUP sz := by
  rw [PGROUNDUP, page_div]

/-- The number of pages that `uvmalloc` maps, from `PGROUNDUP(oldsz)` on. -/
def newPages (oldsz newsz : ℕ) : ℕ := (newsz - PGROUNDUP oldsz + (PGSIZE - 1)) / PGSIZE

/-- `uvmalloc` maps all new pages, or leaves the table as it was. -/
theorem uvmalloc_built {oldsz newsz : ℕ} (hx : xperm < 1024#64) (hle : oldsz ≤ newsz)
    (hk : Kept lo m₀ p T L R m) :
    wp (uvmalloc p oldsz newsz xperm)
      (fun r m' =>
        (r = newsz ∧ (∀ v, PGROUNDUP oldsz / PGSIZE ≤ v → v < PGROUNDUP oldsz / PGSIZE + newPages oldsz newsz → L v = 0) ∧
          ∃ T' L', Built lo m₀ p T' L L' (PGROUNDUP oldsz / PGSIZE)
            (PGROUNDUP oldsz / PGSIZE + newPages oldsz newsz) (zeroPages xperm) R m') ∨
        (r = 0 ∧ ∃ T', Kept lo m₀ p T' L R m'))
      (fun e m' => ∃ v, Blocked L (PGROUNDUP oldsz / PGSIZE) (newPages oldsz newsz) v e ∧
        v ≤ PGROUNDUP oldsz / PGSIZE + PHYSPAGES ∧ ∃ P, Uses lo m' P) m := by
  have hspec := allocLoop_built hx (newPages oldsz newsz) (le_refl _) (.inr rfl)
    (fun v h1 h2 => absurd h2 (by omega)) (Built.empty (PGROUNDUP oldsz / PGSIZE) (zeroPages xperm) hk)
  rw [PGROUNDUP_div] at hspec
  rw [uvmalloc, if_neg (Nat.not_lt.mpr hle)]
  refine wp_seq hspec ?_
  rintro ok m' (⟨rfl, -, hzero, h⟩ | ⟨rfl, h⟩)
  · exact .inl ⟨rfl, hzero, h⟩
  · exact .inr ⟨rfl, h⟩

end Alloc

section Copy

variable {lo old new c : ℕ} {T S R : Multiset ℕ} {L₀ L M : ℕ → Pte} {m₀ m : Mem} {E : VmPanic → Mem → Prop}

theorem flags_lt (e : Pte) : PTE_FLAGS e < 1024#64 := by
  show (PTE_FLAGS e).toNat < 2 ^ 10
  rw [PTE_FLAGS, BitVec.toNat_and]
  exact lt_of_le_of_lt Nat.and_le_right (by decide)

/-- What `uvmcopy` puts at the page `v` of a new table, for the PTEs `M` of the old one: a page with
the same flags and, if the old page is among those that stay as they are, with its contents. -/
def copiedPages (M : ℕ → Pte) (R : Multiset ℕ) (m₀ : Mem) : ℕ → Option (Pte × (Page → Prop)) := fun v =>
  if M v = 0 then none
  else some (PTE_FLAGS (M v), fun x => PTE2PA (M v) ∈ R → x = m₀.page (PTE2PA (M v)))

/-- The loop of `uvmcopy`: the pages below `c` have been copied. -/
theorem copyLoop_built (n : ℕ) (hc : c ≤ MAXVP) (hz : ∀ v < c + n, v < MAXVP → L₀ v = 0)
    (hold : IsTree m₀.page 2 old S M)
    (hb : Built lo m₀ new T L₀ L 0 c (copiedPages M (S + R) m₀) (S + R) m) :
    wp (copyLoop old new n (c * PGSIZE))
      (fun ok m' =>
        (ok = true ∧ ∃ T' L', Built lo m₀ new T' L₀ L' 0 (c + n) (copiedPages M (S + R) m₀) (S + R) m') ∨
        (ok = false ∧ ∃ T', Kept lo m₀ new T' L₀ (S + R) m'))
      (fun e _ => e = .walk ∧ MAXVP < c + n) m := by
  -- undoing what was copied so far
  have hundo {L : ℕ → Pte} {T : Multiset ℕ} {m : Mem} {c : ℕ} (hc : c ≤ MAXVP) (hz : ∀ v < c, L₀ v = 0)
      (hb : Built lo m₀ new T L₀ L 0 c (copiedPages M (S + R) m₀) (S + R) m) (E : VmPanic → Mem → Prop) :
      wp (do uvmunmap new 0 (c * PGSIZE / PGSIZE) true; pure false : Vm Bool)
        (fun ok m' => ok = false ∧ ∃ T', Kept lo m₀ new T' L₀ (S + R) m') E m := by
    have hspec := unmapRange_spec (E := E) true zero_le hc hb.tree hb.uses
    rw [Nat.zero_mul, Nat.sub_zero] at hspec
    rw [wp_bind, page_div]
    refine wp_imp hspec ?_
    intro _ m' hk
    exact ⟨rfl, T, hb.undo (fun v _ hv => hz v hv) hk⟩
  induction n generalizing c L T m with
  | zero => exact .inl ⟨rfl, T, L, hb⟩
  | succ n ih =>
    -- on to the next page
    have hnext {T : Multiset ℕ} {L : ℕ → Pte} {m : Mem} (hlt : c < MAXVP)
        (hb : Built lo m₀ new T L₀ L 0 (c + 1) (copiedPages M (S + R) m₀) (S + R) m) :
        wp (copyLoop old new n (c * PGSIZE + PGSIZE))
          (fun ok m' =>
            (ok = true ∧ ∃ T' L', Built lo m₀ new T' L₀ L' 0 (c + (n + 1)) (copiedPages M (S + R) m₀) (S + R) m') ∨
            (ok = false ∧ ∃ T', Kept lo m₀ new T' L₀ (S + R) m'))
          (fun e _ => e = .walk ∧ MAXVP < c + (n + 1)) m := by
      have hih := ih (c := c + 1) hlt (fun v hv => hz v (by omega)) hb
      rw [show (c + 1) * PGSIZE = c * PGSIZE + PGSIZE by ring, show c + 1 + n = c + (n + 1) by omega] at hih
      exact hih
    rw [copyLoop, wp_bind]
    rcases Nat.lt_or_eq_of_le hc with hlt | rfl
    swap
    · rw [walk, if_pos (maxva_le_page (le_refl _)), wp_throw]
      exact ⟨rfl, by omega⟩
    have hzc : L₀ c = 0 := hz c (by omega) hlt
    have hold' : IsTree m.page 2 old S M :=
      hold.frame (fun q hq => hb.rest q (mem_add.mpr (.inl hq)))
    have hs : Uses lo m (S + (T + (dataPages L 0 c + R))) := hb.uses.perm (by abel)
    refine wp_imp (walk_spec false (page_lt_of_maxvp hlt) hold' hs) ?_
    rintro r m₁ ⟨S', hw⟩
    obtain ⟨rfl, rfl⟩ := hw.same rfl
    rw [page_div] at hw
    have hhole (h0 : M c = 0) : copiedPages M (S' + R) m₀ c = none := if_pos h0
    cases r with
    | none => exact hnext hlt (hb.skip zero_le (hhole (hw.missing rfl rfl)) hzc)
    | some ptr =>
      simp only [wp_bind, wp_load, (hw.ptr ptr rfl).load, wp_ite]
      by_cases hv : Valid (M c)
      swap
      · have h0 : M c = 0 := (hold.zero_or_valid (lt_range_of_maxvp hlt)).resolve_right hv
        rw [if_pos hv]
        exact hnext hlt (hb.skip zero_le (hhole h0) hzc)
      rw [if_neg (not_not.mpr hv)]
      have hne : M c ≠ 0 := by
        intro h0
        exact not_valid_zero (h0 ▸ hv)
      refine wp_imp (kalloc_spec hb.uses) ?_
      rintro _ m₂ (⟨rfl, hs₂, hpage⟩ | ⟨q, rfl, hs₂, hfresh, hpage⟩)
      · have hb₂ := hb.frame (by rw [hpage]; exact hb.tree) hs₂ (fun _ _ => by rw [hpage])
        exact wp_imp (hundo hc (fun v hv => hz v (by omega) (by omega)) hb₂ _) (fun _ _ h => .inr h)
      · simp only [wp_bind, wp_readPage, wp_writePage]
        obtain ⟨ht₃, hs₃, hsame⟩ := kalloc_fresh (m₂.page (PTE2PA (M c))) hb.tree hs₂ hpage
        have hcopy : PTE2PA (M c) ∈ S' + R →
            (m₂.setPage q (m₂.page (PTE2PA (M c)))).page q = m₀.page (PTE2PA (M c)) := by
          intro hmem
          rw [setPage_page, if_pos rfl, hpage, hb.rest _ hmem]
          rintro heq
          apply hfresh
          rw [← heq]
          exact mem_add.mpr (.inr (mem_add.mpr (.inr hmem)))
        refine wp_mono (mapNew_spec hb zero_le (if_neg hne) (flags_lt _) ht₃ hs₃ hsame hcopy) ?_ ?_
        · rintro ok m₄ (⟨rfl, -, -, T', hb₄⟩ | ⟨rfl, T', hk₄⟩)
          · exact hnext hlt hb₄
          · rw [if_neg (by simp)]
            refine wp_seq (kfree_kept hk₄) ?_
            intro _ m₅ hk₅
            have hb₅ := hb.frame hk₅.tree hk₅.uses (fun y hy => (hk₅.rest y hy).trans (hsame y hy))
            exact wp_imp (hundo hc (fun v hv => hz v (by omega) (by omega)) hb₅ _) (fun _ _ h => .inr h)
        · rintro e m₄ ⟨⟨-, -, hvalid⟩ | ⟨-, hmax⟩, -⟩
          · rw [hzc] at hvalid
            exact absurd hvalid not_valid_zero
          · omega

end Copy

end Xv6
