import Xv6.Kexec
import Xv6.UserCopy

/-! The address space of a process: what its page table holds besides the user pages, how it is made
and taken down, and that exec replaces it or leaves it as it was. -/
namespace Xv6

/-- The PTEs of a page table above the user memory. -/
structure Special (L : ℕ → Pte) (trapframe : ℕ) : Prop where
  trapframe : L TFP = PA2PTE trapframe ||| (PTE_R ||| PTE_W) ||| PTE_V
  trampoline : L (TFP + 1) &&& PTE_U = 0
  above : ∀ v, TFP + 1 < v → v < 512 ^ (2 + 1) → L v = 0

section Special

variable {L L' : ℕ → Pte} {tf n : ℕ}

theorem Special.valid (h : Special L tf) : Valid (L TFP) := by
  rw [h.trapframe]
  exact valid_or _

theorem Special.hidden (h : Special L tf) : Hidden L := by
  refine ⟨?_, h.trampoline⟩
  rw [h.trapframe, BitVec.or_assoc, PA2PTE_or_and (by decide)]
  decide

theorem Special.congr (h : Special L tf) (hL : ∀ v, TFP ≤ v → L' v = L v) : Special L' tf := by
  refine ⟨by rw [hL _ (le_refl _), h.trapframe], by rw [hL _ (Nat.le_succ _)]; exact h.trampoline,
    fun v h1 h2 => ?_⟩
  rw [hL v (by omega)]
  exact h.above v h1 h2

theorem Special.grown (h : Special L tf) (hg : Grown L L' n) : Special L' tf :=
  h.congr (fun _ hv => hg.above hv)

theorem Special.filled {a b : ℕ} {perm : Pte} (h : Special L tf) (hf : Filled L L' a b perm)
    (hb : b ≤ TFP) : Special L' tf :=
  h.congr (fun v hv => hf.outside v (by omega))

theorem Special.clear {a b : ℕ} (h : Special L tf) (hb : b ≤ TFP) : Special (clear L a b) tf :=
  h.congr (fun v hv => by rw [Xv6.clear, if_neg (by omega)])

end Special

section Make

variable {lo p tf sz : ℕ} {T R : Multiset ℕ} {L : ℕ → Pte} {m m₀ : Mem} {E : VmPanic → Mem → Prop}

theorem TRAMPOLINE_eq : TRAMPOLINE = (TFP + 1) * PGSIZE := by
  rw [TFP_eq]
  rfl

theorem TRAPFRAME_eq : TRAPFRAME = TFP * PGSIZE := by
  rw [TFP_eq]
  rfl

theorem unmap_trampoline_spec (ht : IsTree m.page 2 p T L)
    (hs : Uses lo m (T + (leaves L + R))) :
    wp (uvmunmap p TRAMPOLINE 1 false) (fun _ m' =>
      UserKept lo m p T (update L (TFP + 1) 0) R m') E m := by
  rw [TRAMPOLINE_eq]
  generalize hv : TFP + 1 = v
  exact uvmunmap_special_spec (.inr hv.symm) ht hs

theorem unmap_trapframe_spec (ht : IsTree m.page 2 p T L)
    (hs : Uses lo m (T + (leaves L + R))) :
    wp (uvmunmap p TRAPFRAME 1 false) (fun _ m' =>
      UserKept lo m p T (update L TFP 0) R m') E m := by
  rw [TRAPFRAME_eq]
  generalize hv : TFP = v
  exact uvmunmap_special_spec (.inl hv.symm) ht hs

theorem uvmfree_spec (hsz : sz ≤ TRAPFRAME)
    (hL : ∀ v, pagesOf sz ≤ v → v < 512 ^ (2 + 1) → L v = 0) (hk : UserKept lo m₀ p T L R m) :
    wp (uvmfree p sz) (fun _ m' => Uses lo m' R ∧ ∀ q ∈ R, m'.page q = m₀.page q) E m := by
  have hnum : TRAPFRAME = 2 ^ 38 - 8192 := rfl
  have hunmap : wp (if 0 < sz then uvmunmap p 0 (PGROUNDUP sz / PGSIZE) true else pure ())
      (fun _ m' => UserKept lo m₀ p T (clear L 0 (pagesOf sz)) R m') E m := by
    split_ifs with hpos
    · rw [PGROUNDUP_eq (by omega), page_div, show (0 : ℕ) = 0 * PGSIZE from rfl]
      refine wp_imp (uvmunmap_spec (by rw [zero_add]; exact pagesOf_le hsz) hk.tree hk.uses) ?_
      intro _ m' hk'
      rw [zero_add] at hk'
      exact hk.trans hk'
    · obtain rfl : sz = 0 := by omega
      rw [wp_pure, clear_empty (by rfl)]
      exact hk
  rw [uvmfree]
  refine wp_seq hunmap ?_
  intro _ m₁ hk₁
  have hz (v : ℕ) (hv : v < 512 ^ (2 + 1)) : clear L 0 (pagesOf sz) v = 0 := by
    rw [clear]
    split_ifs with h
    · rfl
    · exact hL v (by omega) hv
  have hs : Uses lo m₁ (T + R) := by
    refine hk₁.uses.perm ?_
    rw [leaves_zero (fun v hv => hz v (by rw [TFP_eq] at hv; omega)), zero_add]
  refine wp_imp (freewalk_spec hk₁.tree hz hs) ?_
  rintro _ m₂ ⟨hs₂, hpage⟩
  exact ⟨hs₂, fun q hq => (hpage q hq).trans (hk₁.rest q hq)⟩

theorem procFreepagetable_spec (hsz : sz ≤ TRAPFRAME) (hsp : Special L tf)
    (hL : ∀ v, pagesOf sz ≤ v → v < TFP → L v = 0) (hk : UserKept lo m₀ p T L R m) :
    wp (procFreepagetable p sz)
      (fun _ m' => Uses lo m' R ∧ ∀ q ∈ R, m'.page q = m₀.page q) E m := by
  rw [procFreepagetable]
  refine wp_seq (unmap_trampoline_spec hk.tree hk.uses) ?_
  intro _ m₁ hk₁
  refine wp_seq (unmap_trapframe_spec hk₁.tree hk₁.uses) ?_
  intro _ m₂ hk₂
  refine uvmfree_spec hsz (fun v h1 h2 => ?_) ((hk.trans hk₁).trans hk₂)
  by_cases hv : v = TFP
  · rw [hv, update_self]
  rw [update_of_ne hv]
  by_cases hv' : v = TFP + 1
  · rw [hv', update_self]
  rw [update_of_ne hv']
  by_cases hlt : v < TFP
  · exact hL v h1 hlt
  · exact hsp.above v (by omega) h2

/-- A new address space, or none and everything as before. -/
theorem procPagetable_spec (hs : Uses lo m R) :
    wp (procPagetable tf) (fun r m' =>
      (r = none ∧ Uses lo m' R ∧ ∀ q ∈ R, m'.page q = m.page q) ∨
      ∃ p T L, r = some p ∧ Special L tf ∧ (∀ v < TFP, L v = 0) ∧ UserKept lo m p T L R m') E m := by
  simp only [procPagetable, uvmcreate, wp_bind]
  refine wp_imp (kalloc_spec hs) ?_
  rintro _ m₁ (⟨rfl, hs₁, hpage⟩ | ⟨p, rfl, hs₁, hp, hpage⟩)
  · exact .inl ⟨rfl, hs₁, fun q _ => by rw [hpage]⟩
  simp only [wp_bind, wp_writePage, wp_pure, wp_get]
  have hz (v : ℕ) (_ : v < 512 ^ (2 + 1)) : (fun _ : ℕ => (0 : Pte)) v = 0 := rfl
  have htree : IsTree (m₁.setPage p 0).page 2 p {p} (fun _ => 0) :=
    isTree_zero (by rw [setPage_page, if_pos rfl]) hz
  have hne {q : ℕ} (hq : q ∈ R) : q ≠ p := by
    rintro rfl
    exact hp hq
  have hsame (q : ℕ) (hq : q ∈ R) : (m₁.setPage p 0).page q = m.page q := by
    rw [setPage_page, if_neg (hne hq), hpage q (hne hq)]
  have hs₂ : Uses lo (m₁.setPage p 0) ({p} + R) := hs₁.setPage
  -- giving up: the table is taken down again
  have hgiveup {T : Multiset ℕ} {m' : Mem} (hk : Kept lo (m₁.setPage p 0) p T (fun _ => 0) R m') :
      wp (do uvmfree p 0; pure none : Vm (Option ℕ)) (fun r m' =>
        (r = none ∧ Uses lo m' R ∧ ∀ q ∈ R, m'.page q = m.page q) ∨
        ∃ p T L, r = some p ∧ Special L tf ∧ (∀ v < TFP, L v = 0) ∧ UserKept lo m p T L R m')
        E m' := by
    have hku : UserKept lo m p T (fun _ => 0) R m' := by
      refine ⟨hk.tree, hk.uses.perm ?_, fun q hq => (hk.rest q hq).trans (hsame q hq)⟩
      rw [leaves_zero (fun _ _ => rfl), zero_add]
    refine wp_seq (uvmfree_spec zero_le (fun _ _ _ => rfl) hku) ?_
    rintro _ m₃ ⟨hs₃, hrest⟩
    exact .inl ⟨rfl, hs₃, hrest⟩
  have hmap := mappages_spec (m₁.setPage p 0).trampoline (PTE_R ||| PTE_X)
    (by decide : TRAMPOLINE < MAXVA) (by decide) htree hs₂
  rw [show TRAMPOLINE / PGSIZE = TFP + 1 by rw [TRAMPOLINE_eq, page_div]] at hmap
  refine wp_mono hmap ?_ ?_
  swap
  · rintro e m₃ ⟨-, hv, -⟩
    exact absurd hv not_valid_zero
  rintro ok m₃ (⟨rfl, -, T₃, hk₃⟩ | ⟨rfl, T₃, hk₃⟩)
  swap
  · exact hgiveup hk₃
  simp only [if_true, wp_bind]
  have hmap' := mappages_spec tf (PTE_R ||| PTE_W)
    (by decide : TRAPFRAME < MAXVA) (by decide) hk₃.tree hk₃.uses
  rw [show TRAPFRAME / PGSIZE = TFP by rw [TRAPFRAME_eq, page_div]] at hmap'
  refine wp_mono hmap' ?_ ?_
  swap
  · rintro e m₄ ⟨-, hv, -⟩
    rw [update_of_ne (by omega)] at hv
    exact absurd hv not_valid_zero
  rintro ok m₄ (⟨rfl, -, T₄, hk₄⟩ | ⟨rfl, T₄, hk₄⟩)
  · refine .inr ⟨p, T₄, _, rfl, ⟨update_self _ _ _, ?_, fun v h1 h2 => ?_⟩,
      fun v hv => ?_, hk₄.tree, ?_, ?_⟩
    · rw [update_of_ne (by omega), update_self, BitVec.or_assoc,
        PA2PTE_or_and (by decide)]
      decide
    · rw [update_of_ne (by omega), update_of_ne (by omega)]
    · rw [update_of_ne (by omega), update_of_ne (by omega)]
    · refine hk₄.uses.perm ?_
      rw [leaves_update_above (le_refl _), leaves_update_above (Nat.le_succ _),
        leaves_zero (fun _ _ => rfl), zero_add]
    · intro q hq
      rw [hk₄.rest q hq, hk₃.rest q hq, hsame q hq]
  · simp only [Bool.false_eq_true, if_false, wp_bind]
    refine wp_imp (unmap_trampoline_spec (R := R) hk₄.tree (hk₄.uses.perm ?_)) ?_
    · rw [leaves_update_above (Nat.le_succ _), leaves_zero (fun _ _ => rfl), zero_add]
    · intro _ m₅ hk₅
      have hidem : update (update (fun _ : ℕ => (0 : Pte)) (TFP + 1)
          (PA2PTE (m₁.setPage p 0).trampoline ||| (PTE_R ||| PTE_X) ||| PTE_V)) (TFP + 1) 0 =
          fun _ => 0 := by
        rw [update_idem]
        exact update_eq_self _ _
      rw [hidem] at hk₅
      exact hgiveup (T := T₄) ⟨hk₅.tree, hk₅.uses.perm (by
        rw [leaves_zero (fun _ _ => rfl), zero_add]), fun q hq => by
        rw [hk₅.rest q hq, hk₄.rest q hq, hk₃.rest q hq]⟩

end Make

/-- The PTEs of a process of size `sz`: nothing is mapped between its memory and the
trapframe. -/
structure Layout (L : ℕ → Pte) (trapframe sz : ℕ) : Prop where
  special : Special L trapframe
  empty : ∀ v, pagesOf sz ≤ v → v < TFP → L v = 0

/-- `A` are the pages of a process: page table, user memory and trapframe. -/
def Owns (m : Mem) (sp : Space) (tf : ℕ) (A : Multiset ℕ) : Prop :=
  ∃ T L, A = T + (leaves L + {tf}) ∧ IsTree m.page 2 sp.pagetable T L ∧ Layout L tf sp.sz

/-- A process has worked on its address space, from `m₀` to `m`: it has some pages of its own,
and the pages `R` of the others are as they were. -/
def Owned (lo : ℕ) (m₀ : Mem) (sp : Space) (tf : ℕ) (R : Multiset ℕ) (m : Mem) : Prop :=
  ∃ A, Owns m sp tf A ∧ Uses lo m (A + R) ∧ ∀ q ∈ R, m.page q = m₀.page q

section Owns

variable {lo tf : ℕ} {sp : Space} {A T R : Multiset ℕ} {L : ℕ → Pte} {m m₀ : Mem}

theorem Owns.frame {m' : Mem} (h : Owns m sp tf A) (hp : ∀ q ∈ A, m'.page q = m.page q) :
    Owns m' sp tf A := by
  obtain ⟨T, L, rfl, ht, hl⟩ := h
  exact ⟨T, L, rfl, ht.frame (fun q hq => hp q (mem_add.mpr (.inl hq))), hl⟩

theorem Owns.kept (h : Owns m sp tf A) (hs : Uses lo m (A + R)) :
    ∃ T L, Layout L tf sp.sz ∧ UserKept lo m sp.pagetable T L (tf ::ₘ R) m := by
  obtain ⟨T, L, rfl, ht, hl⟩ := h
  refine ⟨T, L, hl, .refl ht (hs.perm ?_)⟩
  rw [← Multiset.singleton_add]
  abel

theorem Owned.of_kept (hl : Layout L tf sp.sz)
    (hk : UserKept lo m₀ sp.pagetable T L (tf ::ₘ R) m) : Owned lo m₀ sp tf R m := by
  refine ⟨_, ⟨T, L, rfl, hk.tree, hl⟩, hk.uses.perm ?_,
    fun q hq => hk.rest q (mem_cons_of_mem hq)⟩
  rw [← Multiset.singleton_add]
  abel

theorem Owned.refl (h : Owns m sp tf A) (hs : Uses lo m (A + R)) : Owned lo m sp tf R m :=
  ⟨A, h, hs, fun _ _ => rfl⟩

theorem Layout.grown {L' : ℕ → Pte} {sz : ℕ} (h : Layout L tf sz)
    (hg : Grown L L' (pagesOf sz)) : Layout L' tf sz := by
  refine ⟨h.special.grown hg, fun v h1 h2 => ?_⟩
  rw [(hg v).resolve_right (by omega)]
  exact h.empty v h1 h2

end Owns

end Xv6
