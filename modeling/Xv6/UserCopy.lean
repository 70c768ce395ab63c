import Xv6.UserView

/-! Page faults on lazily allocated memory, and copying between the kernel and user space
(kernel/vm.c). -/
namespace Xv6

/-- `L'` is `L` with some more pages mapped, all of them below `n`. -/
def Grown (L L' : ℕ → Pte) (n : ℕ) : Prop :=
  ∀ v, L' v = L v ∨ L v = 0 ∧ v < n ∧ v < TFP

/-- The trampoline and the trapframe are not for the user. -/
def Hidden (L : ℕ → Pte) : Prop := L TFP &&& PTE_U = 0 ∧ L (TFP + 1) &&& PTE_U = 0

/-- The user may read the page `v`. -/
def UserPage (L : ℕ → Pte) (v : ℕ) : Prop := Valid (L v) ∧ L v &&& PTE_U ≠ 0

section Grown

variable {L L' L'' : ℕ → Pte} {n n' v : ℕ}

theorem Grown.refl (L : ℕ → Pte) (n : ℕ) : Grown L L n := fun _ => .inl rfl

theorem Grown.trans (h : Grown L L' n) (h' : Grown L' L'' n) : Grown L L'' n := by
  intro v
  rcases h' v with e' | ⟨z', h1, h2⟩
  · rcases h v with e | hz
    · exact .inl (e'.trans e)
    · exact .inr hz
  · rcases h v with e | hz
    · exact .inr ⟨e ▸ z', h1, h2⟩
    · exact .inr hz

theorem Grown.mono (h : Grown L L' n) (hn : n ≤ n') : Grown L L' n' :=
  fun v => (h v).imp_right (fun ⟨h0, h1, h2⟩ => ⟨h0, by omega, h2⟩)

theorem Grown.above (h : Grown L L' n) (hv : TFP ≤ v) : L' v = L v :=
  (h v).resolve_right (fun ⟨_, _, h2⟩ => by omega)

theorem Grown.mapped (h : Grown L L' n) (hv : L v ≠ 0) : L' v = L v :=
  (h v).resolve_right (fun h0 => hv h0.1)

theorem Grown.hidden (h : Grown L L' n) (hh : Hidden L) : Hidden L' := by
  rw [Hidden, h.above (le_refl TFP), h.above (Nat.le_succ TFP)]
  exact hh

theorem UserPage.ne_zero (h : UserPage L v) : L v ≠ 0 := by
  intro h0
  exact not_valid_zero (h0 ▸ h.1)

theorem Grown.userPage (h : Grown L L' n) (hv : UserPage L v) : UserPage L' v := by
  rw [UserPage, h.mapped hv.ne_zero]
  exact hv

theorem UserPage.mem_leaves (h : UserPage L v) (hh : Hidden L) (hv : v ≤ TFP + 1) :
    PTE2PA (L v) ∈ leaves L := by
  refine Xv6.mem_leaves ?_ h.ne_zero
  by_contra hn
  rcases (by omega : v = TFP ∨ v = TFP + 1) with rfl | rfl
  · exact h.2 hh.1
  · exact h.2 hh.2

end Grown

section Fault

variable {lo p va v n : ℕ} {cur : Space} {T R : Multiset ℕ} {L : ℕ → Pte} {m m₀ : Mem}
  {E : VmPanic → Mem → Prop}

theorem maxva_page (h : va < MAXVA) : va / PGSIZE ≤ TFP + 1 := by
  rw [MAXVA] at h
  rw [TFP_eq, PGSIZE]
  omega

theorem walkaddr_spec (ht : IsTree m.page 2 p T L) (hs : Uses lo m (T + R)) :
    wp (walkaddr p va) (fun r m' => m' = m ∧
      ((r = 0 ∧ ¬ (va < MAXVA ∧ UserPage L (va / PGSIZE))) ∨
        (va < MAXVA ∧ UserPage L (va / PGSIZE) ∧ r = PTE2PA (L (va / PGSIZE))))) E m := by
  rw [walkaddr]
  split_ifs with hva
  · exact ⟨rfl, .inl ⟨rfl, by omega⟩⟩
  · have hva' : va < MAXVA := Nat.lt_of_not_le hva
    refine wp_seq (walk_spec false hva' ht hs) ?_
    rintro r m₁ ⟨T', hw⟩
    obtain ⟨rfl, rfl⟩ := hw.same rfl
    cases r with
    | none => exact ⟨rfl, .inl ⟨rfl, fun h => h.2.ne_zero (hw.missing rfl rfl)⟩⟩
    | some ptr =>
      simp only [wp_bind, wp_load, (hw.ptr ptr rfl).load, wp_ite, wp_pure]
      by_cases h1 : Valid (L (va / PGSIZE))
      · rw [if_neg (not_not.mpr h1)]
        by_cases h2 : L (va / PGSIZE) &&& PTE_U = 0
        · rw [if_pos h2]
          exact ⟨trivial, .inl ⟨trivial, fun h => h.2.2 h2⟩⟩
        · rw [if_neg h2]
          exact ⟨trivial, .inr ⟨hva', ⟨h1, h2⟩, trivial⟩⟩
      · rw [if_pos h1]
        exact ⟨trivial, .inl ⟨trivial, fun h => h1 h.2.1⟩⟩

theorem ismapped_spec (hva : va < MAXVA) (ht : IsTree m.page 2 p T L) (hs : Uses lo m (T + R)) :
    wp (ismapped p va) (fun r m' => m' = m ∧ (r = false → L (va / PGSIZE) = 0)) E m := by
  rw [ismapped]
  refine wp_seq (walk_spec false hva ht hs) ?_
  rintro r m₁ ⟨T', hw⟩
  obtain ⟨rfl, rfl⟩ := hw.same rfl
  cases r with
  | none => exact ⟨rfl, fun _ => hw.missing rfl rfl⟩
  | some ptr =>
    simp only [wp_bind, wp_load, (hw.ptr ptr rfl).load, wp_pure]
    refine ⟨trivial, fun h => ?_⟩
    exact (ht.zero_or_valid (IsTree.le_range hva)).resolve_right (of_decide_eq_false h)

def faultPage : ℕ → Option (Pte × (Page → Prop)) := fun _ => some (PTE_W ||| PTE_U ||| PTE_R, fun x => x = 0)

theorem vmfault_built (hcur : cur.pagetable = p) (hsz : cur.sz ≤ TRAPFRAME) (hk : Kept lo m₀ p T L R m) :
    wp (vmfault cur p va) (fun r m' =>
      (r = 0 ∧ ∃ T', Kept lo m₀ p T' L R m') ∨
      (va / PGSIZE < pagesOf cur.sz ∧ L (va / PGSIZE) = 0 ∧ ∃ T' L', r = PTE2PA (L' (va / PGSIZE)) ∧
        Built lo m₀ p T' L L' (va / PGSIZE) (va / PGSIZE + 1) faultPage R m')) E m := by
  rw [vmfault]
  split_ifs with hva
  · exact .inl ⟨rfl, T, hk⟩
  have hpg : va / PGSIZE < pagesOf cur.sz := by
    rw [pagesOf, PGSIZE]
    omega
  have hTFP : va / PGSIZE < TFP := lt_of_lt_of_le hpg (pagesOf_le hsz)
  have hround : PGROUNDDOWN va < MAXVA := page_lt_maxva (by omega)
  have hdiv : PGROUNDDOWN va / PGSIZE = va / PGSIZE := page_div _
  simp only [wp_bind]
  refine wp_imp (ismapped_spec hround hk.tree hk.uses) ?_
  rintro (_ | _) m₁ ⟨rfl, hz⟩
  swap
  · exact .inl ⟨rfl, T, hk⟩
  have hz := hz rfl
  rw [hdiv] at hz
  simp only [Bool.false_eq_true, if_false, wp_bind]
  refine wp_imp (kalloc_spec hk.uses) ?_
  rintro _ m₂ (⟨rfl, hs₂, hpage⟩ | ⟨q, rfl, hs₂, -, hpage⟩)
  · exact .inl ⟨rfl, T, by rw [hpage]; exact hk.tree, hs₂, fun x hx => by rw [hpage]; exact hk.rest x hx⟩
  simp only [wp_bind, wp_writePage]
  obtain ⟨ht₃, hs₃, hsame⟩ := kalloc_fresh 0 hk.tree hs₂ hpage
  have hb := Built.empty (va / PGSIZE) faultPage hk
  have hnone := dataPages_empty L (le_refl (va / PGSIZE))
  rw [hcur]
  refine wp_mono (mapNew_spec (q := q) (c := va / PGSIZE) hb (le_refl _) rfl (by decide) ht₃ ?_ ?_ ?_) ?_ ?_
  · rw [hnone, zero_add]
    exact hs₃
  · rw [hnone, zero_add]
    exact hsame
  · rw [setPage_page, if_pos rfl]
  · rintro ok m₄ (⟨rfl, -, -, T', hb₄⟩ | ⟨rfl, T', hk₄⟩)
    · have hq := (hs₂.bounds (mem_cons_self q _)).2
      refine .inr ⟨hpg, hz, T', _, ?_, hb₄⟩
      rw [update_self, PTE2PA_new (lt_trans hq (by decide)) (by decide)]
    · rw [hnone, zero_add] at hk₄
      rw [if_neg (by simp)]
      refine wp_seq (kfree_kept hk₄) ?_
      intro _ m₅ hk₅
      exact .inl ⟨rfl, T', hk₅.tree, hk₅.uses, fun x hx => by rw [hk₅.rest x hx, hsame x hx, hk.rest x hx]⟩
  · rintro e m₄ ⟨⟨-, -, hvalid⟩ | ⟨-, hmax⟩, -⟩
    · rw [hz] at hvalid
      exact absurd hvalid not_valid_zero
    · have := TFP_lt_MAXVP
      omega

/-- Where a copy may touch a page `v`: it is in the memory of the running process, or it is
mapped already. -/
def Touchable (cur : Space) (p n : ℕ) (L : ℕ → Pte) (v : ℕ) : Prop :=
  (cur.pagetable = p ∧ cur.sz ≤ TRAPFRAME ∧ pagesOf cur.sz ≤ n) ∨ UserPage L v ∧ v ≤ TFP + 1

theorem Grown.touchable {L' : ℕ → Pte} (h : Grown L L' n) (ht : Touchable cur p n L v) :
    Touchable cur p n L' v :=
  ht.imp_right (fun ⟨hu, hv⟩ => ⟨h.userPage hu, hv⟩)

theorem UserKept.kept (hk : UserKept lo m₀ p T L R m) : Kept lo m p T L (leaves L + R) m :=
  ⟨hk.tree, hk.uses, fun _ _ => rfl⟩

/-- A page fault of the running process. Bringing in a page does not show. -/
theorem vmfault_spec (hcur : cur.pagetable = p) (hsz : cur.sz ≤ TRAPFRAME) (hk : UserKept lo m₀ p T L R m) :
    wp (vmfault cur p va) (fun r m' => ∃ T' L', Grown L L' (pagesOf cur.sz) ∧
      UserKept lo m₀ p T' L' R m' ∧ (∀ va < TRAPFRAME, userByte m' L' va = userByte m L va) ∧
      (r = 0 ∨ va / PGSIZE < TFP ∧ UserPage L' (va / PGSIZE) ∧ r = PTE2PA (L' (va / PGSIZE)))) E m := by
  refine wp_imp (vmfault_built hcur hsz hk.kept) ?_
  generalize va / PGSIZE = v
  rintro r m₂ (⟨rfl, T', hk₂⟩ | ⟨hpg, hz, T', L', hr, hb⟩)
  · exact ⟨T', L, .refl L _, hk.trans hk₂.user, fun va hva => hk₂.userByte_eq hva, .inl rfl⟩
  have hTFP : v < TFP := lt_of_lt_of_le hpg (pagesOf_le hsz)
  have hz' : ∀ w, v ≤ w → w < v + 1 → L w = 0 := by
    intro w h1 h2
    rw [show w = v by omega, hz]
  obtain ⟨⟨q, hq⟩, -⟩ := hb.inside v (le_refl v) (Nat.lt_succ_self v) _ _ rfl
  refine ⟨T', L', fun x => ?_, hk.trans (hb.user (Nat.le_succ v) hTFP hz'),
    fun va hva => hb.userByte_eq hz' hva, .inr ⟨hTFP, ⟨?_, ?_⟩, hr⟩⟩
  · by_cases hx : x = v
    · subst hx
      exact .inr ⟨hz, hpg, hTFP⟩
    · exact .inl (hb.outside x (by omega))
  · rw [hq]
    exact valid_or _
  · rw [hq, BitVec.or_assoc, PA2PTE_or_and (by decide)]
    decide

theorem faultIn_spec (hlo : 0 < lo) (hh : Hidden L) (ht : Touchable cur p n L v)
    (hk : UserKept lo m₀ p T L R m) :
    wp (faultIn cur p (v * PGSIZE)) (fun r m' => ∃ T' L', Grown L L' n ∧
      UserKept lo m₀ p T' L' R m' ∧ (∀ va < TRAPFRAME, userByte m' L' va = userByte m L va) ∧
      (r = 0 → ¬ (v ≤ TFP + 1 ∧ UserPage L v)) ∧ (r = 0 ∨ v ≤ TFP + 1 ∧ UserPage L' v ∧ r = PTE2PA (L' v))) E m := by
  rw [faultIn]
  refine wp_seq (walkaddr_spec hk.tree hk.uses) ?_
  rintro r m₁ ⟨rfl, hr⟩
  rw [page_div] at hr
  rcases hr with ⟨rfl, hn⟩ | ⟨hva, hu, rfl⟩
  · rw [if_pos rfl]
    rcases ht with ⟨hcur, hsz, hle⟩ | ⟨hu, hv⟩
    · refine wp_imp (vmfault_spec hcur hsz hk) ?_
      rintro r m₂ ⟨T', L', hg, hk₂, hview, hr⟩
      rw [page_div] at hr
      exact ⟨T', L', hg.mono hle, hk₂, hview, fun _ h => hn ⟨page_lt_maxva h.1, h.2⟩,
        hr.imp_right (fun ⟨h1, h2⟩ => ⟨by omega, h2⟩)⟩
    · exact absurd ⟨page_lt_maxva hv, hu⟩ hn
  · have hv := maxva_page hva
    rw [page_div] at hv
    have hmem := hu.mem_leaves hh hv
    have hb := hk.uses.bounds (mem_add.mpr (.inr (mem_add.mpr (.inl hmem))))
    rw [if_neg (by omega), wp_pure]
    exact ⟨T, L, .refl L n, hk, fun _ _ => rfl, fun h0 => (by omega), .inr ⟨hv, hu, rfl⟩⟩

end Fault

section Copy

variable {lo p n : ℕ} {cur : Space} {T R : Multiset ℕ} {L : ℕ → Pte} {m m₀ : Mem}
  {E : VmPanic → Mem → Prop}

/-- What is stored in a user page concerns nobody else. -/
theorem UserKept.write {q : ℕ} {x : Page} (hk : UserKept lo m₀ p T L R m) (hq : q ∈ leaves L) :
    UserKept lo m₀ p T L R (m.setPage q x) := by
  have hnd := hk.uses.nodup
  refine ⟨hk.tree.frame (fun y hy => ?_), hk.uses.setPage, fun y hy => ?_⟩
  · rw [setPage_page, if_neg]
    rintro rfl
    exact Multiset.disjoint_left.mp (nodup_add.mp hnd).2.2 hy
      (mem_add.mpr (.inl hq))
  · rw [setPage_page, if_neg, hk.rest y hy]
    rintro rfl
    exact Multiset.disjoint_left.mp
      (nodup_add.mp (nodup_add.mp hnd).2.1).2.2 hq hy

theorem UserPage.lt_TFP {v : ℕ} (h : UserPage L v) (hh : Hidden L) (hv : v ≤ TFP + 1) : v < TFP := by
  by_contra hn
  rcases (by omega : v = TFP ∨ v = TFP + 1) with rfl | rfl
  · exact h.2 hh.1
  · exact h.2 hh.2

/-- `V` with the bytes `src` stored from the address `dst` on. -/
def stored (V : ℕ → Byte) (dst : ℕ) (src : List Byte) : ℕ → Byte := fun va =>
  if dst ≤ va ∧ va < dst + src.length then src.getD (va - dst) 0 else V va

theorem stored_nil (V : ℕ → Byte) (dst : ℕ) : stored V dst [] = V := by
  funext va
  rw [stored, if_neg (by rw [List.length_nil]; omega)]

theorem stored_append (V : ℕ → Byte) (dst : ℕ) (src src' : List Byte) :
    stored (stored V dst src) (dst + src.length) src' = stored V dst (src ++ src') := by
  funext va
  rw [stored, stored, stored, List.length_append]
  by_cases h1 : dst + src.length ≤ va ∧ va < dst + src.length + src'.length
  · rw [if_pos h1, if_pos (by omega), List.getD_append_right _ _ _ _ (by omega), Nat.sub_add_eq]
  · rw [if_neg h1]
    by_cases h2 : dst ≤ va ∧ va < dst + src.length
    · rw [if_pos h2, if_pos (by omega), List.getD_append _ _ _ _ (by omega)]
    · rw [if_neg h2, if_neg (by omega)]

/-- What the user sees after the kernel's `memmove` into one page. -/
theorem UserKept.userByte_setBytes {dstva : ℕ} {src : List Byte} (hk : UserKept lo m₀ p T L R m)
    (hv : dstva / PGSIZE < TFP) (hL : L (dstva / PGSIZE) ≠ 0) (hfit : dstva % PGSIZE + src.length ≤ PGSIZE) {va : ℕ}
    (hva : va < TRAPFRAME) :
    userByte (m.setPage (PTE2PA (L (dstva / PGSIZE)))
      (setBytes (m.page (PTE2PA (L (dstva / PGSIZE)))) (dstva % PGSIZE) src)) L va =
      stored (userByte m L) dstva src va := by
  rw [hk.userByte_write hv hL _ hva, stored]
  have hdst := Nat.div_add_mod' dstva PGSIZE
  have hadr := Nat.div_add_mod' va PGSIZE
  have hlt : va % PGSIZE < PGSIZE := Nat.mod_lt _ (by decide)
  by_cases hpage : va / PGSIZE = dstva / PGSIZE
  · rw [if_pos hpage, byteAt_setBytes _ _ hfit]
    rw [hpage] at hadr
    by_cases hin : dstva % PGSIZE ≤ va % PGSIZE ∧ va % PGSIZE < dstva % PGSIZE + src.length
    · rw [if_pos hin, if_pos (by omega), show va - dstva = va % PGSIZE - dstva % PGSIZE by omega]
    · rw [if_neg hin, if_neg (by omega), userByte, hpage, if_neg hL]
  · rw [if_neg hpage, if_neg]
    rintro ⟨h1, h2⟩
    apply hpage
    apply Nat.div_eq_of_lt_le
    · omega
    · rw [Nat.succ_mul]
      omega

/-- `copyout` stores what it returns success for, and otherwise an initial part of it. -/
theorem copyoutLoop_spec (hlo : 0 < lo) (fuel : ℕ) {dstva : ℕ} {src : List Byte} (hh : Hidden L)
    (ht : ∀ v, dstva / PGSIZE ≤ v → v * PGSIZE < dstva + src.length → Touchable cur p n L v)
    (hfuel : src.length ≤ fuel) (hk : UserKept lo m₀ p T L R m) :
    wp (copyoutLoop cur p fuel dstva src) (fun ok m' => ∃ T' L', Grown L L' n ∧ UserKept lo m₀ p T' L' R m' ∧
      ∃ k, (ok = true → src.length ≤ k) ∧
        ∀ va < TRAPFRAME, userByte m' L' va = stored (userByte m L) dstva (src.take k) va) E m := by
  have hnothing : ∀ va < TRAPFRAME, userByte m L va = stored (userByte m L) dstva (src.take 0) va := by
    intro va _
    rw [List.take_zero, stored_nil]
  induction fuel generalizing dstva src L T m with
  | zero => exact ⟨T, L, .refl L n, hk, 0, fun _ => hfuel, hnothing⟩
  | succ fuel ih =>
    rw [copyoutLoop]
    split_ifs with hsrc hva
    · subst hsrc
      exact ⟨T, L, .refl L n, hk, 0, fun _ => le_refl _, hnothing⟩
    · exact ⟨T, L, .refl L n, hk, 0, (by simp), hnothing⟩
    · have hlen : 0 < src.length := List.length_pos_iff.mpr hsrc
      have hround : dstva / PGSIZE * PGSIZE ≤ dstva := Nat.div_mul_le_self _ _
      simp only [wp_bind]
      refine wp_imp (faultIn_spec hlo hh (ht _ (le_refl _) (by omega)) hk) ?_
      rintro r m₁ ⟨T₁, L₁, hg, hk₁, hview, -, hr⟩
      have hnothing₁ : ∀ va < TRAPFRAME, userByte m₁ L₁ va = stored (userByte m L) dstva (src.take 0) va := by
        intro va hva
        rw [hview va hva, ← hnothing va hva]
      simp only [wp_ite, wp_pure, wp_bind]
      split_ifs with h0
      · exact ⟨T₁, L₁, hg, hk₁, 0, (by simp), hnothing₁⟩
      obtain ⟨hv, hu, rfl⟩ := hr.resolve_left h0
      refine wp_imp (walk_spec false (page_lt_maxva hv) hk₁.tree hk₁.uses) ?_
      rintro r m₂ ⟨T₂, hw⟩
      obtain ⟨rfl, rfl⟩ := hw.same rfl
      rw [show PGROUNDDOWN dstva / PGSIZE = dstva / PGSIZE from page_div _] at hw
      cases r with
      | none => exact absurd (hw.missing rfl rfl) hu.ne_zero
      | some ptr =>
        simp only [wp_bind, wp_load, wp_ite, wp_pure, wp_readPage, wp_writePage]
        split_ifs with hwr
        · exact ⟨T₂, L₁, hg, hk₁, 0, (by simp), hnothing₁⟩
        have hoff : dstva - PGROUNDDOWN dstva = dstva % PGSIZE := by
          have h := Nat.div_add_mod' dstva PGSIZE
          rw [PGROUNDDOWN]
          omega
        have hmod : dstva % PGSIZE < PGSIZE := Nat.mod_lt _ (by decide)
        rw [hoff]
        generalize hcount : PGSIZE - dstva % PGSIZE = count
        have hmem := hu.mem_leaves (hg.hidden hh) hv
        have hfit : dstva % PGSIZE + (src.take count).length ≤ PGSIZE := by
          rw [List.length_take]
          omega
        have hstore : ∀ va < TRAPFRAME, userByte (m₂.setPage (PTE2PA (L₁ (dstva / PGSIZE)))
            (setBytes (m₂.page (PTE2PA (L₁ (dstva / PGSIZE)))) (dstva % PGSIZE) (src.take count))) L₁ va =
            stored (userByte m L) dstva (src.take count) va := by
          intro va hva
          rw [hk₁.userByte_setBytes (hu.lt_TFP (hg.hidden hh) hv) hu.ne_zero hfit hva, stored, stored, hview va hva]
        have hk₂ := hk₁.write (x := setBytes (m₂.page (PTE2PA (L₁ (dstva / PGSIZE)))) (dstva % PGSIZE)
          (src.take count)) hmem
        -- the rest starts at the next page
        have hrest : src.drop count ≠ [] → PGROUNDDOWN dstva + PGSIZE = dstva + (src.take count).length := by
          intro hne
          have h := Nat.div_add_mod' dstva PGSIZE
          rw [Ne, List.drop_eq_nil_iff] at hne
          rw [List.length_take, Nat.min_eq_left (by omega), PGROUNDDOWN]
          omega
        have hnext (v : ℕ) (h1 : (PGROUNDDOWN dstva + PGSIZE) / PGSIZE ≤ v)
            (h2 : v * PGSIZE < PGROUNDDOWN dstva + PGSIZE + (src.drop count).length) :
            dstva / PGSIZE ≤ v ∧ v * PGSIZE < dstva + src.length := by
          rw [List.length_drop] at h2
          rw [PGROUNDDOWN, PGSIZE] at h1 h2
          rw [PGSIZE] at hcount ⊢
          omega
        refine wp_imp (ih (hg.hidden hh) (fun v h1 h2 => hg.touchable (ht v (hnext v h1 h2).1 (hnext v h1 h2).2))
          ?_ hk₂ ?_) ?_
        · rw [List.length_drop]
          omega
        · intro va _
          rw [List.take_zero, stored_nil]
        · rintro ok m₃ ⟨T₃, L₃, hg₃, hk₃, k, hok, hview₃⟩
          refine ⟨T₃, L₃, hg.trans hg₃, hk₃, count + k, fun h => ?_, fun va hva => ?_⟩
          · have h := hok h
            rw [List.length_drop] at h
            omega
          · have htake : src.take (count + k) = src.take count ++ (src.drop count).take k := List.take_add
            rw [hview₃ va hva, htake, ← stored_append]
            by_cases hne : src.drop count = []
            · rw [hne, List.take_nil, stored_nil, stored_nil, hstore va hva]
            · rw [hrest hne, stored, stored, hstore va hva]

theorem copyout_spec (hlo : 0 < lo) {dstva : ℕ} {src : List Byte} (hh : Hidden L)
    (ht : ∀ v, dstva / PGSIZE ≤ v → v * PGSIZE < dstva + src.length → Touchable cur p n L v)
    (hk : UserKept lo m₀ p T L R m) :
    wp (copyout cur p dstva src) (fun ok m' => ∃ T' L', Grown L L' n ∧ UserKept lo m₀ p T' L' R m' ∧
      ∃ k, (ok = true → src.length ≤ k) ∧
        ∀ va < TRAPFRAME, userByte m' L' va = stored (userByte m L) dstva (src.take k) va) E m :=
  copyoutLoop_spec hlo _ hh ht (le_refl _) hk

/-- The bytes at the user addresses `[va, va + n)`. -/
def userBytes (m : Mem) (L : ℕ → Pte) (va n : ℕ) : List Byte := (List.range n).map (fun i => userByte m L (va + i))

theorem userBytes_add (m : Mem) (L : ℕ → Pte) (va n k : ℕ) :
    userBytes m L va (n + k) = userBytes m L va n ++ userBytes m L (va + n) k := by
  simp only [userBytes, List.range_add, List.map_append, List.map_map, Function.comp_def, Nat.add_assoc]

/-- The user may read the page `v`, which is not the trapframe or above it. -/
def Present (L : ℕ → Pte) (v : ℕ) : Prop := v < TFP ∧ UserPage L v

theorem UserPage.present {v : ℕ} (h : UserPage L v) (hh : Hidden L) (hv : v ≤ TFP + 1) : Present L v :=
  ⟨h.lt_TFP hh hv, h⟩

theorem sub_rounddown (va : ℕ) : va - PGROUNDDOWN va = va % PGSIZE := by
  have h := Nat.div_add_mod' va PGSIZE
  rw [PGROUNDDOWN]
  omega

theorem page_of_lt {va i : ℕ} (hi : i < PGSIZE - va % PGSIZE) : (va + i) / PGSIZE = va / PGSIZE := by
  have h := Nat.div_add_mod' va PGSIZE
  apply Nat.div_eq_of_lt_le
  · omega
  · rw [Nat.succ_mul]
    omega

theorem next_page (va : ℕ) : PGROUNDDOWN va + PGSIZE = va + (PGSIZE - va % PGSIZE) := by
  have h := Nat.div_add_mod' va PGSIZE
  have hmod : va % PGSIZE < PGSIZE := Nat.mod_lt _ (by decide)
  rw [PGROUNDDOWN]
  omega

theorem getBytes_eq {va k : ℕ} (hL : L (va / PGSIZE) ≠ 0) (hk : k ≤ PGSIZE - va % PGSIZE) :
    getBytes (m.page (PTE2PA (L (va / PGSIZE)))) (va % PGSIZE) k = userBytes m L va k := by
  apply List.map_congr_left
  intro i hi
  have hlt : i < PGSIZE - va % PGSIZE := (List.mem_range.mp hi).trans_le hk
  have hmod : (va + i) % PGSIZE = va % PGSIZE + i := by
    rw [Nat.add_mod, Nat.mod_eq_of_lt (show i < PGSIZE by omega), Nat.mod_eq_of_lt (by omega)]
  rw [userByte, page_of_lt hlt, if_neg hL, hmod]
  rfl

theorem addr_lt {va : ℕ} (h : va / PGSIZE < TFP) : va < TRAPFRAME := by
  have hnum : TRAPFRAME = 2 ^ 38 - 8192 := rfl
  rw [TFP_eq, PGSIZE] at h
  omega

theorem userBytes_congr {m' : Mem} {L' : ℕ → Pte} {va k : ℕ}
    (hview : ∀ va < TRAPFRAME, userByte m' L' va = userByte m L va) (h : ∀ i < k, (va + i) / PGSIZE < TFP) :
    userBytes m' L' va k = userBytes m L va k :=
  List.map_congr_left (fun i hi => hview _ (addr_lt (h i (List.mem_range.mp hi))))

theorem userBytes_split (m : Mem) (L : ℕ → Pte) {va len k : ℕ} (hk : min (PGSIZE - va % PGSIZE) len = k) :
    userBytes m L va len = userBytes m L va k ++ userBytes m L (va + (PGSIZE - va % PGSIZE)) (len - k) := by
  rcases Nat.le_total len (PGSIZE - va % PGSIZE) with hle | hle
  · rw [← hk, Nat.min_eq_right hle, Nat.sub_self]
    exact (List.append_nil _).symm
  · rw [Nat.min_eq_left hle] at hk
    rw [hk, ← userBytes_add, Nat.add_sub_of_le (by omega)]

theorem forall_split {P : ℕ → Prop} {va len k : ℕ} (hk : min (PGSIZE - va % PGSIZE) len = k) (h : P (va / PGSIZE))
    (hrest : ∀ i < len - k, P ((va + (PGSIZE - va % PGSIZE) + i) / PGSIZE)) : ∀ i < len, P ((va + i) / PGSIZE) := by
  intro i hi
  by_cases hlt : i < PGSIZE - va % PGSIZE
  · rwa [page_of_lt hlt]
  · have hsum : va + i = va + (PGSIZE - va % PGSIZE) + (i - (PGSIZE - va % PGSIZE)) := by omega
    rw [hsum]
    exact hrest _ (by omega)

/-- `copyin` returns the bytes of the range, the pages of which are then all there. It brings pages
in, which does not show, and it fails only where a page was not there. -/
theorem copyinLoop_spec (hlo : 0 < lo) (hcur : cur.pagetable = p) (hsz : cur.sz ≤ TRAPFRAME)
    (fuel : ℕ) {srcva len : ℕ} {dst : List Byte} (hfuel : len ≤ fuel) (hh : Hidden L) (hk : UserKept lo m₀ p T L R m) :
    wp (copyinLoop cur p fuel srcva len dst) (fun r m' => ∃ T' L', Grown L L' (pagesOf cur.sz) ∧
      UserKept lo m₀ p T' L' R m' ∧ (∀ va < TRAPFRAME, userByte m' L' va = userByte m L va) ∧
      (∀ bytes, r = some bytes →
        bytes = dst ++ userBytes m L srcva len ∧ ∀ i < len, Present L' ((srcva + i) / PGSIZE)) ∧
      (r = none → ∃ i < len, ¬ Present L ((srcva + i) / PGSIZE))) E m := by
  induction fuel generalizing srcva len dst L T m with
  | zero =>
    obtain rfl := Nat.le_zero.mp hfuel
    exact ⟨T, L, .refl L _, hk, fun _ _ => rfl, fun bytes h => ⟨(by cases h; exact (List.append_nil _).symm), by simp⟩, by simp⟩
  | succ fuel ih =>
    rw [copyinLoop]
    split_ifs with hlen
    · subst hlen
      exact ⟨T, L, .refl L _, hk, fun _ _ => rfl, fun bytes h => ⟨(by cases h; exact (List.append_nil _).symm), by simp⟩,
        by simp⟩
    · simp only [wp_bind]
      refine wp_imp (faultIn_spec hlo hh (.inl ⟨hcur, hsz, le_refl _⟩) hk) ?_
      rintro r m₁ ⟨T₁, L₁, hg, hk₁, hview, hr0, hr⟩
      have hh₁ := hg.hidden hh
      simp only [wp_ite, wp_pure, wp_bind, wp_readPage, sub_rounddown, next_page]
      split_ifs with h0
      · refine ⟨T₁, L₁, hg, hk₁, hview, by simp, fun _ => ⟨0, Nat.pos_of_ne_zero hlen, fun hp => hr0 h0 ?_⟩⟩
        exact ⟨Nat.le_of_lt (Nat.lt_succ_of_lt hp.1), hp.2⟩
      obtain ⟨hv, hu, rfl⟩ := hr.resolve_left h0
      have hpres := hu.present hh₁ hv
      have hmod : srcva % PGSIZE < PGSIZE := Nat.mod_lt _ (by decide)
      generalize hn : min (PGSIZE - srcva % PGSIZE) len = n
      have hbytes : getBytes (m₁.page (PTE2PA (L₁ (srcva / PGSIZE)))) (srcva % PGSIZE) n = userBytes m L srcva n := by
        rw [getBytes_eq hu.ne_zero (by omega)]
        apply userBytes_congr hview
        intro i hi
        rw [page_of_lt (by omega)]
        exact hpres.1
      refine wp_imp (ih (by omega) hh₁ hk₁) ?_
      rintro r m₂ ⟨T₂, L₂, hg₂, hk₂, hview₂, hsome, hnone⟩
      refine ⟨T₂, L₂, hg.trans hg₂, hk₂, fun va hva => (hview₂ va hva).trans (hview va hva), ?_, ?_⟩
      · intro bytes hr
        obtain ⟨rfl, hrest⟩ := hsome bytes hr
        refine ⟨?_, forall_split (P := Present L₂) hn ⟨hpres.1, hg₂.userPage hu⟩ hrest⟩
        rw [hbytes, userBytes_congr hview (fun i hi => (hrest i hi).1), userBytes_split m L hn, List.append_assoc]
      · intro hr
        obtain ⟨i, hi, hbad⟩ := hnone hr
        refine ⟨PGSIZE - srcva % PGSIZE + i, by omega, fun hp => hbad ?_⟩
        rw [← Nat.add_assoc] at hp
        exact ⟨hp.1, hg.userPage hp.2⟩

theorem copyin_spec (hlo : 0 < lo) (hcur : cur.pagetable = p) (hsz : cur.sz ≤ TRAPFRAME) (hh : Hidden L)
    (hk : UserKept lo m₀ p T L R m) (srcva len : ℕ) :
    wp (copyin cur p srcva len) (fun r m' => ∃ T' L', Grown L L' (pagesOf cur.sz) ∧
      UserKept lo m₀ p T' L' R m' ∧ (∀ va < TRAPFRAME, userByte m' L' va = userByte m L va) ∧
      (∀ bytes, r = some bytes → bytes = userBytes m L srcva len ∧ ∀ i < len, Present L' ((srcva + i) / PGSIZE)) ∧
      (r = none → ∃ i < len, ¬ Present L ((srcva + i) / PGSIZE))) E m :=
  copyinLoop_spec hlo hcur hsz _ (le_refl _) hh hk

/-- The string that begins at `va`: the page of each of its bytes, and of its NUL, is there. -/
structure StringAt (m : Mem) (L : ℕ → Pte) (va : ℕ) (str : List Byte) : Prop where
  bytes : str = userBytes m L va str.length
  nonzero : ∀ i < str.length, userByte m L (va + i) ≠ 0
  zero : userByte m L (va + str.length) = 0
  present : ∀ i < str.length + 1, Present L ((va + i) / PGSIZE)

theorem zero_mem_userBytes {va k : ℕ} : 0 ∈ userBytes m L va k ↔ ∃ i < k, userByte m L (va + i) = 0 := by
  simp only [userBytes, List.mem_map, List.mem_range]

theorem takeWhile_userBytes {va k j : ℕ} (hj : j < k) (hnz : ∀ i < j, userByte m L (va + i) ≠ 0)
    (hz : userByte m L (va + j) = 0) :
    (userBytes m L va k).takeWhile (fun c => decide (c ≠ 0)) = userBytes m L va j := by
  obtain ⟨d, rfl⟩ := Nat.exists_eq_add_of_lt hj
  have hhead : userBytes m L (va + j) (d + 1) = 0 :: userBytes m L (va + j + 1) d := by
    rw [Nat.add_comm d 1, userBytes_add]
    exact congrArg (· :: _) hz
  rw [Nat.add_assoc, userBytes_add, hhead, List.takeWhile_append_of_pos, List.takeWhile_cons_of_neg, List.append_nil]
  · exact fun h => of_decide_eq_true h rfl
  · intro c hc
    obtain ⟨i, hi, rfl⟩ := List.mem_map.mp hc
    exact decide_eq_true (hnz i (List.mem_range.mp hi))

theorem length_userBytes (m : Mem) (L : ℕ → Pte) (va k : ℕ) : (userBytes m L va k).length = k := by
  rw [userBytes, List.length_map, List.length_range]

theorem StringAt.eq {va j : ℕ} {str : List Byte} (h : StringAt m L va str) (hnz : ∀ i < j, userByte m L (va + i) ≠ 0)
    (hz : userByte m L (va + j) = 0) : str = userBytes m L va j := by
  have hlen : str.length = j := by
    rcases Nat.lt_trichotomy str.length j with hlt | heq | hlt
    · exact absurd h.zero (hnz _ hlt)
    · exact heq
    · exact absurd hz (h.nonzero _ hlt)
  rw [← hlen]
  exact h.bytes

theorem stringAt_add {va k : ℕ} (hnz : ∀ i < k, userByte m L (va + i) ≠ 0)
    (hp : ∀ i < k, Present L ((va + i) / PGSIZE)) (str : List Byte) :
    StringAt m L va str ↔ ∃ rest, str = userBytes m L va k ++ rest ∧ StringAt m L (va + k) rest := by
  constructor
  · intro h
    have hle : k ≤ str.length := not_lt.mp (fun hlt => hnz _ hlt h.zero)
    obtain ⟨d, hd⟩ := Nat.exists_eq_add_of_le hle
    have hz := h.zero
    rw [hd, ← Nat.add_assoc] at hz
    refine ⟨userBytes m L (va + k) d, ?_, ?_⟩
    · rw [← userBytes_add, ← hd]
      exact h.bytes
    · refine ⟨?_, ?_, ?_, ?_⟩ <;> rw [length_userBytes]
      · intro i hi
        rw [Nat.add_assoc]
        exact h.nonzero _ (by omega)
      · exact hz
      · intro i hi
        rw [Nat.add_assoc]
        exact h.present _ (by omega)
  · rintro ⟨rest, rfl, h⟩
    refine ⟨?_, ?_, ?_, ?_⟩ <;> rw [List.length_append, length_userBytes]
    · rw [userBytes_add, ← h.bytes]
    · intro i hi
      by_cases hlt : i < k
      · exact hnz i hlt
      · rw [show va + i = va + k + (i - k) by omega]
        exact h.nonzero _ (by omega)
    · rw [← Nat.add_assoc]
      exact h.zero
    · intro i hi
      by_cases hlt : i < k
      · exact hp i hlt
      · rw [show va + i = va + k + (i - k) by omega]
        exact h.present _ (by omega)

/-- `copyinstr` changes nothing and returns the string, if it has less than `max` bytes and the pages
up to its NUL are there. -/
theorem copyinstrLoop_spec (fuel : ℕ) {srcva max : ℕ} {dst : List Byte} (hfuel : max ≤ fuel) (hlo : 0 < lo) (hh : Hidden L)
    (ht : IsTree m.page 2 p T L) (hs : Uses lo m (T + (leaves L + R))) :
    wp (copyinstrLoop p fuel srcva max dst) (fun r m' => m' = m ∧
      ∀ out, r = some out ↔ ∃ str, out = dst ++ str ∧ str.length < max ∧ StringAt m L srcva str) E m := by
  induction fuel generalizing srcva max dst with
  | zero =>
    obtain rfl := Nat.le_zero.mp hfuel
    exact ⟨rfl, fun out => ⟨by simp, fun ⟨_, _, h, _⟩ => absurd h (Nat.not_lt_zero _)⟩⟩
  | succ fuel ih =>
    rw [copyinstrLoop]
    split_ifs with hmax
    · subst hmax
      exact ⟨rfl, fun out => ⟨by simp, fun ⟨_, _, h, _⟩ => absurd h (Nat.not_lt_zero _)⟩⟩
    · simp only [wp_bind]
      refine wp_imp (walkaddr_spec ht hs) ?_
      rintro r m₁ ⟨rfl, hr⟩
      rw [show PGROUNDDOWN srcva / PGSIZE = srcva / PGSIZE from page_div _] at hr
      simp only [wp_ite, wp_pure, wp_bind, wp_readPage, sub_rounddown, next_page]
      rcases hr with ⟨rfl, hn⟩ | ⟨hva, hu, rfl⟩
      · rw [if_pos rfl]
        refine ⟨trivial, fun out => ⟨by simp, fun ⟨str, _, _, h⟩ => ?_⟩⟩
        have hp := h.present 0 (Nat.succ_pos _)
        exact absurd ⟨page_lt_maxva (Nat.le_of_lt (Nat.lt_succ_of_lt hp.1)), hp.2⟩ hn
      have hv : srcva / PGSIZE ≤ TFP + 1 := by
        have h := maxva_page hva
        rwa [show PGROUNDDOWN srcva / PGSIZE = srcva / PGSIZE from page_div _] at h
      have hpres := hu.present hh hv
      have hb := hs.bounds (mem_add.mpr (.inr (mem_add.mpr (.inl (hu.mem_leaves hh hv)))))
      rw [if_neg (by omega)]
      have hmod : srcva % PGSIZE < PGSIZE := Nat.mod_lt _ (by decide)
      generalize hn : min (PGSIZE - srcva % PGSIZE) max = n
      rw [getBytes_eq hu.ne_zero (by omega)]
      simp only [List.contains_iff_mem]
      split_ifs with hmem
      · -- the string ends on this page
        have hex := zero_mem_userBytes.mp hmem
        obtain ⟨hj, hz⟩ := Nat.find_spec hex
        have hmin : ∀ i < Nat.find hex, userByte m₁ L (srcva + i) ≠ 0 := fun i hi h0 =>
          Nat.find_min hex hi ⟨hi.trans hj, h0⟩
        generalize Nat.find hex = j at hj hz hmin
        rw [takeWhile_userBytes hj hmin hz]
        refine ⟨trivial, fun out => ⟨fun h => ?_, fun ⟨str, hout, _, h⟩ => ?_⟩⟩
        · refine ⟨_, (Option.some.inj h).symm, by rw [length_userBytes]; omega, ?_⟩
          refine ⟨?_, ?_, ?_, ?_⟩ <;> rw [length_userBytes]
          · exact hmin
          · exact hz
          · intro i hi
            rwa [page_of_lt (by omega)]
        · rw [hout, h.eq hmin hz]
      · have hnz : ∀ i < n, userByte m₁ L (srcva + i) ≠ 0 := fun i hi h0 =>
          hmem (zero_mem_userBytes.mpr ⟨i, hi, h0⟩)
        refine wp_imp (ih (by omega)) ?_
        rintro r m₂ ⟨hm, hiff⟩
        refine ⟨hm, fun out => (hiff out).trans ?_⟩
        by_cases hlast : max ≤ PGSIZE - srcva % PGSIZE
        · rw [Nat.min_eq_right hlast] at hn
          subst hn
          refine iff_of_false (fun ⟨_, _, h, _⟩ => (by omega)) (fun ⟨str, _, hlt, h⟩ => hnz _ hlt h.zero)
        · rw [Nat.min_eq_left (by omega)] at hn
          rw [hn]
          have hp : ∀ i < n, Present L ((srcva + i) / PGSIZE) := by
            intro i hi
            rwa [page_of_lt (by omega)]
          simp only [stringAt_add hnz hp]
          constructor
          · rintro ⟨str, rfl, hlt, h⟩
            refine ⟨userBytes m₁ L srcva n ++ str, List.append_assoc _ _ _, ?_, str, rfl, h⟩
            rw [List.length_append, length_userBytes]
            omega
          · rintro ⟨_, rfl, hlt, str, rfl, h⟩
            rw [List.length_append, length_userBytes] at hlt
            exact ⟨str, (List.append_assoc _ _ _).symm, by omega, h⟩

theorem copyinstr_spec (hlo : 0 < lo) (hh : Hidden L) (ht : IsTree m.page 2 p T L)
    (hs : Uses lo m (T + (leaves L + R))) (srcva max : ℕ) :
    wp (copyinstr p srcva max) (fun r m' => m' = m ∧
      ∀ str, r = some str ↔ str.length < max ∧ StringAt m L srcva str) E m := by
  refine wp_imp (copyinstrLoop_spec max (le_refl _) hlo hh ht hs) ?_
  rintro r m' ⟨hm, hiff⟩
  refine ⟨hm, fun str => (hiff str).trans ?_⟩
  constructor
  · rintro ⟨_, rfl, h⟩
    exact h
  · intro h
    exact ⟨str, rfl, h⟩

theorem PTE2PA_clear (e : Pte) : PTE2PA (e &&& ~~~PTE_U) = PTE2PA e := by
  have hshift : (e &&& ~~~PTE_U) >>> 10 = e >>> 10 := by
    apply BitVec.eq_of_getLsbD_eq
    intro i _
    have hbit : PTE_U.getLsbD (10 + i) = false :=
      Nat.testBit_lt_two_pow (lt_of_lt_of_le (by decide : PTE_U.toNat < 2 ^ 10)
        (Nat.pow_le_pow_right (by norm_num) (by omega)))
    rw [BitVec.getLsbD_ushiftRight, BitVec.getLsbD_ushiftRight, BitVec.getLsbD_and,
      BitVec.getLsbD_not, hbit]
    by_cases h : 10 + i < 64
    · simp [h]
    · rw [BitVec.getLsbD_of_ge e _ (by omega), Bool.false_and]
  rw [PTE2PA, PTE2PA, hshift]

theorem uvmclear_spec {v : ℕ} (hv : v < TFP) (hL : L v ≠ 0) (hk : UserKept lo m₀ p T L R m) :
    wp (uvmclear p (v * PGSIZE)) (fun _ m' =>
      UserKept lo m₀ p T (update L v (L v &&& ~~~PTE_U)) R m') E m := by
  rw [uvmclear]
  refine wp_seq (walk_spec false (page_lt_maxva (by omega)) hk.tree hk.uses) ?_
  rintro r m₁ ⟨T₁, hw⟩
  obtain ⟨rfl, rfl⟩ := hw.same rfl
  rw [page_div] at hw
  cases r with
  | none => exact absurd (hw.missing rfl rfl) hL
  | some ptr =>
    simp only [wp_bind, wp_load, (hw.ptr ptr rfl).load, wp_store]
    have hrange : v < 512 ^ (2 + 1) := by
      rw [TFP_eq] at hv
      omega
    have hvalid : Valid (L v) := (hk.tree.zero_or_valid hrange).resolve_left hL
    have hvalid' : Valid (L v &&& ~~~PTE_U) := by
      rw [valid_iff] at hvalid ⊢
      simp [hvalid, PTE_U]
    have hk' := hw.store (.inr hvalid')
    refine ⟨hk'.tree, hk'.uses.perm ?_, fun q hq => ?_⟩
    · have hne : L v &&& ~~~PTE_U ≠ 0 := by
        intro h0
        exact not_valid_zero (h0 ▸ hvalid')
      have hu := leaves_update (L := L) (e := L v &&& ~~~PTE_U) hv
      rw [target, target, if_neg hne, if_neg hL, PTE2PA_clear, add_comm] at hu
      rw [(add_right_injective _ hu : leaves _ = leaves L)]
    · rw [hk'.rest q (mem_add.mpr (.inr hq)), hk.rest q hq]

end Copy

end Xv6
