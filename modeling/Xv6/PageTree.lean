import Xv6.Vm

/-! A page table in memory as a tree. `IsTree page l p T L` says that page `p` is a table of level
`l`, that `T` are the pages of its tables, and that `L v` is the PTE of the page number `v`, 0 where
a table is missing. The specifications are in terms of `T` and `L` only. -/
namespace Xv6

section Pte

theorem pte_setPte (x : Page) {i : ℕ} (e : Pte) (hi : i < 512) : pte (setPte x i e) i = e :=
  getField_setField x (64 * i) e (by omega)

theorem pte_setPte_of_ne (x : Page) {i j : ℕ} (e : Pte) (h : j ≠ i) :
    pte (setPte x i e) j = pte x j :=
  getField_setField_of_disjoint x (64 * i) (64 * j) e (by omega)

theorem pte_zero (i : ℕ) : pte 0 i = 0 := by
  simp [pte, getField]

theorem valid_iff (e : Pte) : Valid e ↔ e.getLsbD 0 = true := by
  rw [Valid, ← not_iff_comm]
  constructor
  · intro h
    apply BitVec.eq_of_getLsbD_eq
    intro i hi
    rcases Nat.eq_zero_or_pos i with rfl | hpos
    · simp_all [PTE_V]
    · simp [PTE_V, BitVec.getLsbD_one, Nat.pos_iff_ne_zero.mp hpos]
  · intro h hv
    have hbit := congrArg (fun x => x.getLsbD 0) h
    rw [BitVec.getLsbD_and, hv] at hbit
    cases hbit

theorem not_valid_zero : ¬ Valid 0 := by decide

theorem valid_or (e : Pte) : Valid (e ||| PTE_V) := by
  rw [valid_iff]
  simp [PTE_V]

theorem PTE2PA_or {p : ℕ} {f : Pte} (hp : p < 2 ^ 54) (hf : f < 1024#64) :
    PTE2PA (PA2PTE p ||| f) = p := by
  have hf' : f.toNat < 1024 := hf
  rw [PTE2PA, PA2PTE, BitVec.toNat_ushiftRight, BitVec.toNat_or, BitVec.toNat_shiftLeft,
    BitVec.toNat_ofNat, Nat.shiftRight_or_distrib]
  rw [Nat.mod_eq_of_lt (by omega : p < 2 ^ 64), Nat.shiftLeft_eq,
    Nat.mod_eq_of_lt (by omega : p * 2 ^ 10 < 2 ^ 64), ← Nat.shiftLeft_eq,
    Nat.shiftLeft_shiftRight, Nat.shiftRight_eq_div_pow, Nat.div_eq_of_lt (by omega), Nat.or_zero]

theorem inner_or {p : ℕ} : Inner (PA2PTE p ||| PTE_V) := by
  rw [Inner]
  apply BitVec.eq_of_getLsbD_eq
  intro i hi
  simp only [PA2PTE, PTE_V, PTE_R, PTE_W, PTE_X]
  by_cases h : i < 10
  · interval_cases i <;> simp
  · have : (2#64 ||| 4#64 ||| 8#64).getLsbD i = false := by
      rw [show (2#64 ||| 4#64 ||| 8#64) = 14#64 by decide, BitVec.getLsbD_ofNat]
      simp [hi]
      exact Nat.testBit_lt_two_pow (lt_of_lt_of_le (by norm_num : 14 < 2 ^ 10)
        (Nat.pow_le_pow_right (by norm_num) (by omega)))
    simp_all

end Pte

section Index

theorem px_split (l va : ℕ) : va / PGSIZE % 512 ^ (l + 2) =
    PX (l + 1) va * 512 ^ (l + 1) + va / PGSIZE % 512 ^ (l + 1) := by
  have hpx : PX (l + 1) va = va / PGSIZE / 512 ^ (l + 1) % 512 := by
    rw [PX, PGSIZE, Nat.div_div_eq_div_mul]
    congr 2
    rw [show 12 + 9 * (l + 1) = 12 + 9 * (l + 1) by rfl, pow_add, pow_mul]
    norm_num
  rw [hpx, show 512 ^ (l + 2) = 512 ^ (l + 1) * 512 by ring, Nat.mod_mul]
  ring

theorem px_zero (va : ℕ) : PX 0 va = va / PGSIZE % 512 ^ 1 := by
  rw [PX, PGSIZE]
  norm_num

theorem px_lt (l va : ℕ) : PX l va < 512 := Nat.mod_lt _ (by norm_num)

end Index

/-- The pages of a table and of the trees below its entries. -/
@[irreducible] def tables (p : ℕ) (K : ℕ → Multiset ℕ) : Multiset ℕ :=
  p ::ₘ ∑ i ∈ Finset.range 512, K i

theorem tables_eq (p : ℕ) (K : ℕ → Multiset ℕ) :
    tables p K = p ::ₘ ∑ i ∈ Finset.range 512, K i := by
  unfold tables
  rfl

theorem mem_tables {p q : ℕ} {K : ℕ → Multiset ℕ} :
    q ∈ tables p K ↔ q = p ∨ ∃ i < 512, q ∈ K i := by
  rw [tables_eq, Multiset.mem_cons, Multiset.mem_sum]
  simp only [Finset.mem_range]

/-- All of them but the tree below entry `i`. -/
@[irreducible] def others (p : ℕ) (K : ℕ → Multiset ℕ) (i : ℕ) : Multiset ℕ :=
  p ::ₘ ∑ j ∈ (Finset.range 512).erase i, K j

theorem others_eq (p : ℕ) (K : ℕ → Multiset ℕ) (i : ℕ) :
    others p K i = p ::ₘ ∑ j ∈ (Finset.range 512).erase i, K j := by
  unfold others
  rfl

theorem mem_others {p q i : ℕ} {K : ℕ → Multiset ℕ} :
    q ∈ others p K i ↔ q = p ∨ ∃ j < 512, j ≠ i ∧ q ∈ K j := by
  rw [others_eq, Multiset.mem_cons, Multiset.mem_sum]
  simp only [Finset.mem_erase, Finset.mem_range]
  tauto

theorem ne_root_of_nodup {p q i j : ℕ} {K : ℕ → Multiset ℕ} (h : (others p K i).Nodup)
    (hj : j < 512) (hji : j ≠ i) (hq : q ∈ K j) : q ≠ p := by
  rw [others_eq, nodup_cons, Multiset.mem_sum] at h
  rintro rfl
  exact h.1 ⟨j, Finset.mem_erase.mpr ⟨hji, Finset.mem_range.mpr hj⟩, hq⟩

theorem tables_split (p : ℕ) (K : ℕ → Multiset ℕ) {i : ℕ} (hi : i < 512) :
    tables p K = K i + others p K i := by
  rw [tables_eq, others_eq, ← Finset.add_sum_erase _ _ (Finset.mem_range.mpr hi),
    Multiset.add_cons]

theorem tables_update (p : ℕ) (K : ℕ → Multiset ℕ) {i : ℕ} (hi : i < 512) (M : Multiset ℕ) :
    tables p (update K i M) = M + others p K i := by
  have hrest : ∑ j ∈ (Finset.range 512).erase i, update K i M j =
      ∑ j ∈ (Finset.range 512).erase i, K j := by
    refine Finset.sum_congr rfl (fun j hj => ?_)
    rw [update_of_ne (Finset.ne_of_mem_erase hj)]
  rw [tables_split _ _ hi, update_self, others_eq, others_eq, hrest]

def IsTree (page : ℕ → Page) : ℕ → ℕ → Multiset ℕ → (ℕ → Pte) → Prop
  | 0, p, T, L => T = {p} ∧ ∀ i < 512, pte (page p) i = L i ∧ (L i = 0 ∨ Valid (L i))
  | l + 1, p, T, L => ∃ K : ℕ → Multiset ℕ, T = tables p K ∧
      ∀ i < 512,
        (¬ Valid (pte (page p) i) ∧ K i = 0 ∧ ∀ j < 512 ^ (l + 1), L (i * 512 ^ (l + 1) + j) = 0) ∨
        (Valid (pte (page p) i) ∧ Inner (pte (page p) i) ∧
          IsTree page l (PTE2PA (pte (page p) i)) (K i) (fun j => L (i * 512 ^ (l + 1) + j)))

section Tree

variable {page page' : ℕ → Page} {l p : ℕ} {T : Multiset ℕ} {L L' : ℕ → Pte}

theorem IsTree.root_mem (h : IsTree page l p T L) : p ∈ T := by
  cases l with
  | zero => rw [h.1]; exact Multiset.mem_singleton_self p
  | succ l =>
    obtain ⟨K, rfl, -⟩ := h
    exact mem_tables.mpr (.inl rfl)

/-- A tree depends on its own pages only. -/
theorem IsTree.frame (h : IsTree page l p T L) (hp : ∀ q ∈ T, page' q = page q) :
    IsTree page' l p T L := by
  induction l generalizing p T L with
  | zero =>
    obtain ⟨rfl, h⟩ := h
    refine ⟨rfl, ?_⟩
    rw [hp p (Multiset.mem_singleton_self p)]
    exact h
  | succ l ih =>
    obtain ⟨K, rfl, h⟩ := h
    refine ⟨K, rfl, ?_⟩
    rw [hp p (mem_tables.mpr (.inl rfl))]
    intro i hi
    refine (h i hi).imp_right (fun ⟨h1, h2, h3⟩ => ⟨h1, h2, ih h3 ?_⟩)
    intro q hq
    exact hp q (mem_tables.mpr (.inr ⟨i, hi, hq⟩))

theorem IsTree.congr (h : IsTree page l p T L) (hL : ∀ v < 512 ^ (l + 1), L' v = L v) :
    IsTree page l p T L' := by
  induction l generalizing p T L L' with
  | zero =>
    refine ⟨h.1, fun i hi => ?_⟩
    rw [hL i (by simpa using hi)]
    exact h.2 i hi
  | succ l ih =>
    obtain ⟨K, rfl, h⟩ := h
    refine ⟨K, rfl, fun i hi => ?_⟩
    have hlt (j : ℕ) (hj : j < 512 ^ (l + 1)) : i * 512 ^ (l + 1) + j < 512 ^ (l + 1 + 1) := by
      have : (i + 1) * 512 ^ (l + 1) ≤ 512 * 512 ^ (l + 1) := Nat.mul_le_mul_right _ hi
      rw [pow_succ 512 (l + 1)]
      linarith
    refine (h i hi).imp (fun ⟨h1, h2, h3⟩ => ⟨h1, h2, fun j hj => ?_⟩)
      (fun ⟨h1, h2, h3⟩ => ⟨h1, h2, ih h3 (fun j hj => hL _ (hlt j hj))⟩)
    rw [hL _ (hlt j hj)]
    exact h3 j hj

theorem IsTree.zero_or_valid (h : IsTree page l p T L) {v : ℕ} (hv : v < 512 ^ (l + 1)) :
    L v = 0 ∨ Valid (L v) := by
  induction l generalizing p T L v with
  | zero => exact (h.2 v (by simpa using hv)).2
  | succ l ih =>
    obtain ⟨K, rfl, h⟩ := h
    have hi : v / 512 ^ (l + 1) < 512 := by
      rw [Nat.div_lt_iff_lt_mul (by positivity)]
      rw [pow_succ] at hv
      linarith
    have hj : v % 512 ^ (l + 1) < 512 ^ (l + 1) := Nat.mod_lt _ (by positivity)
    have hv' : v / 512 ^ (l + 1) * 512 ^ (l + 1) + v % 512 ^ (l + 1) = v := Nat.div_add_mod' _ _
    rcases h _ hi with ⟨-, -, h3⟩ | ⟨-, -, h3⟩
    · rw [← hv']
      exact .inl (h3 _ hj)
    · have := ih h3 hj
      simpa only [hv'] using this

theorem isTree_zero (hp : page p = 0) (hL : ∀ v < 512 ^ (l + 1), L v = 0) :
    IsTree page l p {p} L := by
  cases l with
  | zero =>
    refine ⟨rfl, fun i hi => ?_⟩
    rw [hp, pte_zero, hL i (by simpa using hi)]
    exact ⟨rfl, .inl rfl⟩
  | succ l =>
    refine ⟨fun _ => 0, by simp [tables_eq], fun i hi => .inl ⟨?_, rfl, fun j hj => hL _ ?_⟩⟩
    · rw [hp, pte_zero]
      exact not_valid_zero
    · have : (i + 1) * 512 ^ (l + 1) ≤ 512 * 512 ^ (l + 1) := Nat.mul_le_mul_right _ hi
      rw [pow_succ 512 (l + 1)]
      linarith

end Tree

/-- A pointer to the PTE of page number `v`: writing through it changes that PTE only. -/
structure Ptr (page : ℕ → Page) (l p : ℕ) (T : Multiset ℕ) (L : ℕ → Pte) (v : ℕ)
    (ptr : ℕ × ℕ) : Prop where
  mem : ptr.1 ∈ T
  load : pte (page ptr.1) ptr.2 = L v
  store : ∀ e, e = 0 ∨ Valid e →
    IsTree (update page ptr.1 (setPte (page ptr.1) ptr.2 e)) l p T (update L v e)

theorem Ptr.frame {page page' : ℕ → Page} {l p v : ℕ} {T : Multiset ℕ} {L : ℕ → Pte}
    {ptr : ℕ × ℕ} (h : Ptr page l p T L v ptr) (hp : ∀ q ∈ T, page' q = page q) :
    Ptr page' l p T L v ptr := by
  refine ⟨h.mem, by rw [hp _ h.mem, h.load], fun e he => (h.store e he).frame (fun q hq => ?_)⟩
  rw [update_apply, update_apply, hp _ h.mem, hp q hq]

section Walk

variable {lo l p va : ℕ} {T R : Multiset ℕ} {L : ℕ → Pte} {m : Mem} {page page' : ℕ → Page}
  {E : VmPanic → Mem → Prop}

theorem isTree_entry {K : ℕ → Multiset ℕ} {i : ℕ} {M : Multiset ℕ} {L' : ℕ → Pte} (hi : i < 512)
    (h : ∀ j < 512, j ≠ i →
      (¬ Valid (pte (page p) j) ∧ K j = 0 ∧ ∀ x < 512 ^ (l + 1), L (j * 512 ^ (l + 1) + x) = 0) ∨
      (Valid (pte (page p) j) ∧ Inner (pte (page p) j) ∧
        IsTree page l (PTE2PA (pte (page p) j)) (K j) (fun x => L (j * 512 ^ (l + 1) + x))))
    (hroot : ∀ j < 512, j ≠ i → pte (page' p) j = pte (page p) j)
    (hkids : ∀ j < 512, j ≠ i → ∀ q ∈ K j, page' q = page q)
    (hv : Valid (pte (page' p) i)) (hin : Inner (pte (page' p) i))
    (ht : IsTree page' l (PTE2PA (pte (page' p) i)) M (fun x => L' (i * 512 ^ (l + 1) + x)))
    (hL : ∀ j < 512, j ≠ i → ∀ x < 512 ^ (l + 1),
      L' (j * 512 ^ (l + 1) + x) = L (j * 512 ^ (l + 1) + x)) :
    IsTree page' (l + 1) p (M + others p K i) L' := by
  refine ⟨update K i M, (tables_update p K hi M).symm, fun j hj => ?_⟩
  by_cases hji : j = i
  · subst hji
    rw [update_self]
    exact .inr ⟨hv, hin, ht⟩
  · rw [update_of_ne hji, hroot j hj hji]
    refine (h j hj hji).imp (fun ⟨h1, h2, h3⟩ => ⟨h1, h2, fun x hx => ?_⟩)
      (fun ⟨h1, h2, h3⟩ => ⟨h1, h2, (h3.frame (hkids j hj hji)).congr (hL j hj hji)⟩)
    rw [hL j hj hji x hx]
    exact h3 x hx

/-- What `walk` leaves behind: the same PTEs, in tables `T'` that may have grown out of free
pages; all other pages `R` in use as they were. -/
structure Walked (lo : ℕ) (m : Mem) (l p : ℕ) (T T' : Multiset ℕ) (L : ℕ → Pte) (R : Multiset ℕ)
    (v : ℕ) (alloc : Bool) (r : Option (ℕ × ℕ)) (m' : Mem) : Prop where
  tree : IsTree m'.page l p T' L
  uses : Uses lo m' (T' + R)
  rest : ∀ q ∈ R, m'.page q = m.page q
  missing : r = none → alloc = false → L v = 0
  same : alloc = false → m' = m ∧ T' = T
  ptr : ∀ ptr, r = some ptr → Ptr m'.page l p T' L v ptr

theorem walked_zero (ht : IsTree m.page 0 p T L) (hs : Uses lo m (T + R)) (alloc : Bool) :
    Walked lo m 0 p T T L R (va / PGSIZE % 512 ^ 1) alloc (some (p, PX 0 va)) m := by
  refine ⟨ht, hs, fun _ _ => rfl, by simp, fun _ => ⟨rfl, rfl⟩, ?_⟩
  rintro ptr ⟨⟩
  have hi := px_lt 0 va
  rw [← px_zero]
  refine ⟨ht.root_mem, (ht.2 _ hi).1, fun e he => ⟨ht.1, fun i hi' => ?_⟩⟩
  rw [update_self]
  by_cases h : i = PX 0 va
  · subst h
    rw [pte_setPte _ _ hi, update_self]
    exact ⟨rfl, he⟩
  · rw [pte_setPte_of_ne _ _ h, update_of_ne h]
    exact ht.2 i hi'

/-- From the tree below an entry to the tree above it. The entry may have been set just
before, in `m₁`. -/
theorem walked_succ {m₁ m' : Mem} {K : ℕ → Multiset ℕ} {M M' : Multiset ℕ} {i v c : ℕ}
    {alloc : Bool} {r : Option (ℕ × ℕ)} (hi : i < 512) (hv : v < 512 ^ (l + 1))
    (h : ∀ j < 512, j ≠ i →
      (¬ Valid (pte (m.page p) j) ∧ K j = 0 ∧ ∀ x < 512 ^ (l + 1), L (j * 512 ^ (l + 1) + x) = 0) ∨
      (Valid (pte (m.page p) j) ∧ Inner (pte (m.page p) j) ∧
        IsTree m.page l (PTE2PA (pte (m.page p) j)) (K j) (fun x => L (j * 512 ^ (l + 1) + x))))
    (he : Valid (pte (m₁.page p) i)) (hin : Inner (pte (m₁.page p) i))
    (hc : PTE2PA (pte (m₁.page p) i) = c)
    (hroot : ∀ j < 512, j ≠ i → pte (m₁.page p) j = pte (m.page p) j)
    (hrest : ∀ q ∈ others p K i + R, q ≠ p → m₁.page q = m.page q)
    (hsame : alloc = false → m₁ = m ∧ T = M + others p K i)
    (hw : Walked lo m₁ l c M M' (fun x => L (i * 512 ^ (l + 1) + x))
      (others p K i + R) v alloc r m') :
    Walked lo m (l + 1) p T (M' + others p K i) L R
      (i * 512 ^ (l + 1) + v) alloc r m' := by
  have hroot_mem : p ∈ others p K i := mem_others.mpr (.inl rfl)
  have hp' : m'.page p = m₁.page p := hw.rest p (mem_add.mpr (.inl hroot_mem))
  have hnd := hw.uses.nodup
  have hdisj {q : ℕ} (h1 : q ∈ others p K i) (h2 : q ∈ R) : False :=
    Multiset.disjoint_left.mp (nodup_add.mp (nodup_add.mp hnd).2.1).2.2 h1 h2
  have hkid {j q : ℕ} (hj : j < 512) (hji : j ≠ i) (hq : q ∈ K j) : q ∈ others p K i + R :=
    mem_add.mpr (.inl (mem_others.mpr (.inr ⟨j, hj, hji, hq⟩)))
  have hkids (j : ℕ) (hj : j < 512) (hji : j ≠ i) (q : ℕ) (hq : q ∈ K j) :
      m'.page q = m.page q := by
    rw [hw.rest q (hkid hj hji hq), hrest q (hkid hj hji hq)]
    exact ne_root_of_nodup (nodup_add.mp (nodup_add.mp hnd).2.1).1 hj hji hq
  have hentry : pte (m'.page p) i = pte (m₁.page p) i := by rw [hp']
  refine ⟨?_, ?_, ?_, hw.missing, ?_, ?_⟩
  · refine isTree_entry hi h (fun j hj hji => ?_) hkids (hentry ▸ he) (hentry ▸ hin) ?_
      (fun _ _ _ _ _ => rfl)
    · rw [hp', hroot j hj hji]
    · rw [hentry, hc]
      exact hw.tree
  · exact hw.uses.perm (add_assoc _ _ _)
  · intro q hq
    have hmem : q ∈ others p K i + R := mem_add.mpr (.inr hq)
    rw [hw.rest q hmem, hrest q hmem]
    rintro rfl
    exact hdisj hroot_mem hq
  · intro ha
    obtain ⟨h1, h2⟩ := hw.same ha
    obtain ⟨h3, h4⟩ := hsame ha
    exact ⟨h1.trans h3, by rw [h2, h4]⟩
  · intro ptr hr
    obtain ⟨hmem, hload, hstore⟩ := hw.ptr ptr hr
    have hne {q : ℕ} (hq : q ∈ others p K i + R) : q ≠ ptr.1 := by
      rintro rfl
      exact Multiset.disjoint_left.mp (nodup_add.mp hnd).2.2 hmem hq
    have hpne : p ≠ ptr.1 := hne (mem_add.mpr (.inl hroot_mem))
    refine ⟨mem_add.mpr (.inl hmem), hload, fun e hz => ?_⟩
    refine isTree_entry hi h (fun j hj hji => ?_) (fun j hj hji q hq => ?_) ?_ ?_ ?_ ?_
    · rw [update_of_ne hpne, hp', hroot j hj hji]
    · rw [update_of_ne (hne (hkid hj hji hq))]
      exact hkids j hj hji q hq
    · rw [update_of_ne hpne]
      exact hentry ▸ he
    · rw [update_of_ne hpne]
      exact hentry ▸ hin
    · rw [update_of_ne hpne, hentry, hc]
      have hL : (fun x => update L (i * 512 ^ (l + 1) + v) e (i * 512 ^ (l + 1) + x)) =
          update (fun x => L (i * 512 ^ (l + 1) + x)) v e := by
        funext x
        simp only [update_apply, Nat.add_left_cancel_iff]
      rw [hL]
      exact hstore e hz
    · intro j hj hji x hx
      refine update_of_ne (fun hjx => hji ?_) _ _
      have h1 : (j * 512 ^ (l + 1) + x) / 512 ^ (l + 1) = j := by
        rw [mul_comm, Nat.mul_add_div (by positivity), Nat.div_eq_of_lt hx, add_zero]
      have h2 : (i * 512 ^ (l + 1) + v) / 512 ^ (l + 1) = i := by
        rw [mul_comm, Nat.mul_add_div (by positivity), Nat.div_eq_of_lt hv, add_zero]
      rw [← h1, hjx, h2]

theorem walkFrom_spec (alloc : Bool) (ht : IsTree m.page l p T L) (hs : Uses lo m (T + R)) :
    wp (walkFrom va alloc l p) (fun r m' =>
      ∃ T', Walked lo m l p T T' L R (va / PGSIZE % 512 ^ (l + 1)) alloc r m') E m := by
  induction l generalizing p T L R m with
  | zero => exact ⟨T, walked_zero ht hs alloc⟩
  | succ l ih =>
    obtain ⟨K, rfl, h⟩ := ht
    have hi := px_lt (l + 1) va
    have hv : va / PGSIZE % 512 ^ (l + 1) < 512 ^ (l + 1) := Nat.mod_lt _ (by positivity)
    have hsplit := tables_split p K hi
    rw [px_split]
    simp only [walkFrom, wp_bind, wp_readPage, wp_ite]
    split_ifs with hval hal
    · -- the table below is there
      obtain ⟨_, hin, htree⟩ := (h _ hi).resolve_left (fun hn => hn.1 hval)
      refine wp_imp (ih htree (hs.perm (by rw [hsplit, add_assoc]))) ?_
      rintro r m' ⟨M', hw⟩
      exact ⟨_, walked_succ hi hv (fun j hj _ => h j hj) hval hin rfl (fun _ _ _ => rfl)
        (fun _ _ _ => rfl) (fun _ => ⟨rfl, hsplit⟩) hw⟩
    · -- it is missing, and a new one is put in
      obtain ⟨hK, hL⟩ : K (PX (l + 1) va) = 0 ∧
          ∀ j < 512 ^ (l + 1), L (PX (l + 1) va * 512 ^ (l + 1) + j) = 0 :=
        ((h _ hi).resolve_right (fun hn => hval hn.1)).2
      refine wp_imp (kalloc_spec hs) ?_
      rintro _ m₁ (⟨rfl, hs₁, hpage⟩ | ⟨q, rfl, hs₁, hq, hpage⟩)
      · refine ⟨tables p K, ⟨K, rfl, by rwa [hpage]⟩, hs₁, fun x _ => by rw [hpage], ?_, ?_, ?_⟩ <;>
          simp [hal]
      · simp only [wp_bind, wp_writePage, wp_readPage]
        have hpq : p ≠ q := by
          rintro rfl
          exact hq (mem_add.mpr (.inl (mem_tables.mpr (.inl rfl))))
        have hb := hs₁.bounds (mem_cons_self q _)
        have hroot : pte (((m₁.setPage q 0).setPage p (setPte ((m₁.setPage q 0).page p)
            (PX (l + 1) va) (PA2PTE q ||| PTE_V))).page p) (PX (l + 1) va) = PA2PTE q ||| PTE_V := by
          rw [setPage_page, if_pos rfl, pte_setPte _ _ hi]
        have hq' : ((m₁.setPage q 0).setPage p (setPte ((m₁.setPage q 0).page p)
            (PX (l + 1) va) (PA2PTE q ||| PTE_V))).page q = 0 := by
          rw [setPage_page, if_neg hpq.symm, setPage_page, if_pos rfl]
        have htree : IsTree _ l q {q} (fun x => L (PX (l + 1) va * 512 ^ (l + 1) + x)) :=
          isTree_zero hq' hL
        refine wp_imp (ih (R := others p K (PX (l + 1) va) + R) htree ?_) ?_
        · refine (hs₁.setPage.setPage).perm ?_
          rw [hsplit, hK, zero_add, Multiset.singleton_add]
        · rintro r m' ⟨M', hw⟩
          refine ⟨_, walked_succ hi hv (fun j hj _ => h j hj) ?_ ?_ ?_ ?_ ?_ ?_ hw⟩
          · rw [hroot]
            exact valid_or _
          · rw [hroot]
            exact inner_or
          · rw [hroot]
            exact PTE2PA_or (lt_trans hb.2 (by decide)) (by decide)
          · intro j hj hji
            rw [setPage_page, if_pos rfl, pte_setPte_of_ne _ _ hji, setPage_page, if_neg hpq,
              hpage p hpq]
          · intro x hx hxp
            have hxq : x ≠ q := by
              rintro rfl
              refine hq ?_
              rw [hsplit, hK, zero_add]
              exact hx
            rw [setPage_page, if_neg hxp, setPage_page, if_neg hxq, hpage x hxq]
          · simp [hal]
    · -- it is missing, and stays so
      have hL := ((h _ hi).resolve_right (fun hn => hval hn.1)).2.2
      exact ⟨tables p K, ⟨K, rfl, h⟩, hs, fun _ _ => rfl, fun _ _ => hL _ hv,
        fun _ => ⟨rfl, rfl⟩, by simp⟩

theorem walk_spec (alloc : Bool) (hva : va < MAXVA) (ht : IsTree m.page 2 p T L)
    (hs : Uses lo m (T + R)) :
    wp (walk p va alloc) (fun r m' =>
      ∃ T', Walked lo m 2 p T T' L R (va / PGSIZE) alloc r m') E m := by
  have hv : va / PGSIZE % 512 ^ (2 + 1) = va / PGSIZE := by
    refine Nat.mod_eq_of_lt ?_
    rw [MAXVA] at hva
    rw [PGSIZE]
    omega
  rw [walk, if_neg (by omega), ← hv]
  exact walkFrom_spec alloc ht hs

theorem wp_load {ptr : ℕ × ℕ} {Q : Pte → Mem → Prop} :
    wp (load ptr) Q E m = Q (pte (m.page ptr.1) ptr.2) m := rfl

theorem wp_store {ptr : ℕ × ℕ} {e : Pte} {Q : Unit → Mem → Prop} :
    wp (store ptr e) Q E m = Q () (m.setPage ptr.1 (setPte (m.page ptr.1) ptr.2 e)) := rfl

/-- A step of the program that owns the pages of a table keeps the other pages `R`. -/
structure Kept (lo : ℕ) (m : Mem) (p : ℕ) (T : Multiset ℕ) (L : ℕ → Pte) (R : Multiset ℕ)
    (m' : Mem) : Prop where
  tree : IsTree m'.page 2 p T L
  uses : Uses lo m' (T + R)
  rest : ∀ q ∈ R, m'.page q = m.page q

theorem Walked.kept {T' : Multiset ℕ} {v : ℕ} {alloc : Bool} {r : Option (ℕ × ℕ)} {m' : Mem}
    (h : Walked lo m 2 p T T' L R v alloc r m') : Kept lo m p T' L R m' :=
  ⟨h.tree, h.uses, h.rest⟩

theorem Walked.store {T' : Multiset ℕ} {v : ℕ} {alloc : Bool} {ptr : ℕ × ℕ} {m' : Mem} {e : Pte}
    (h : Walked lo m 2 p T T' L R v alloc (some ptr) m') (he : e = 0 ∨ Valid e) :
    Kept lo m p T' (update L v e) R
      (m'.setPage ptr.1 (setPte (m'.page ptr.1) ptr.2 e)) := by
  have hptr := h.ptr ptr rfl
  refine ⟨hptr.store e he, h.uses.setPage, fun q hq => ?_⟩
  rw [setPage_page, if_neg, h.rest q hq]
  rintro rfl
  exact Multiset.disjoint_left.mp (nodup_add.mp h.uses.nodup).2.2 hptr.mem hq

theorem IsTree.le_range (hva : va < MAXVA) : va / PGSIZE < 512 ^ (2 + 1) := by
  rw [MAXVA] at hva
  rw [PGSIZE]
  omega

/-- `L` with the pages `[v, v + n)` mapped to the physical pages from `pa` on. -/
def mapRange (L : ℕ → Pte) (v n pa : ℕ) (perm : Pte) : ℕ → Pte := fun x =>
  if v ≤ x ∧ x < v + n then PA2PTE (pa + (x - v)) ||| perm ||| PTE_V else L x

theorem mapRange_zero (L : ℕ → Pte) (v pa : ℕ) (perm : Pte) : mapRange L v 0 pa perm = L := by
  funext x
  rw [mapRange, if_neg (by omega)]

theorem mapRange_succ (L : ℕ → Pte) (v n pa : ℕ) (perm : Pte) :
    mapRange (update L v (PA2PTE pa ||| perm ||| PTE_V)) (v + 1) n (pa + 1) perm =
      mapRange L v (n + 1) pa perm := by
  funext x
  rw [mapRange, mapRange]
  by_cases hx : x = v
  · subst hx
    rw [if_neg (by omega), if_pos (by omega), update_self, Nat.sub_self, add_zero]
  · rw [update_of_ne hx]
    by_cases hin : v + 1 ≤ x ∧ x < v + 1 + n
    · rw [if_pos hin, if_pos (by omega), show pa + 1 + (x - (v + 1)) = pa + (x - v) by omega]
    · rw [if_neg hin, if_neg (by omega)]

/-- The loop of `mappages` maps the range or, if `walk` runs out of memory, an initial part of it.
It panics only where something is mapped already. -/
theorem mapLoop_spec (perm : Pte) (n : ℕ) {v pa : ℕ} (hv : (v + n) * PGSIZE ≤ MAXVA)
    (ht : IsTree m.page 2 p T L) (hs : Uses lo m (T + R)) :
    wp (mapLoop p perm n (v * PGSIZE) pa)
      (fun ok m' => ∃ k T', Kept lo m p T' (mapRange L v k pa perm) R m' ∧ (∀ x, v ≤ x → x < v + k → L x = 0) ∧
        (ok = true ∧ k = n ∨ ok = false ∧ k < n))
      (fun e m' => e = .remap ∧ (∃ x, v ≤ x ∧ x < v + n ∧ Valid (L x)) ∧ ∃ P, Uses lo m' P) m := by
  induction n generalizing v pa L T m with
  | zero =>
    refine ⟨0, T, ⟨?_, hs, fun _ _ => rfl⟩, fun x h1 h2 => absurd h2 (by omega), .inl ⟨rfl, rfl⟩⟩
    rw [mapRange_zero]
    exact ht
  | succ n ih =>
    have hpos : 0 < PGSIZE := by decide
    have hva : v * PGSIZE < MAXVA :=
      lt_of_lt_of_le (Nat.mul_lt_mul_of_pos_right (by omega : v < v + (n + 1)) hpos) hv
    have hdiv : v * PGSIZE / PGSIZE = v := Nat.mul_div_cancel v hpos
    rw [mapLoop]
    refine wp_seq (walk_spec true hva ht hs) ?_
    rw [hdiv]
    rintro (_ | ptr) m₁ ⟨T₁, hw⟩
    · refine ⟨0, T₁, ?_, fun x h1 h2 => absurd h2 (by omega), .inr ⟨rfl, Nat.succ_pos n⟩⟩
      rw [mapRange_zero]
      exact hw.kept
    · simp only [wp_bind, wp_load, wp_ite, wp_throw, (hw.ptr ptr rfl).load]
      split_ifs with hval
      · exact ⟨trivial, ⟨v, le_refl v, by omega, hval⟩, _, hw.uses⟩
      have hz : L v = 0 := by
        have hrange := IsTree.le_range hva
        rw [hdiv] at hrange
        exact (ht.zero_or_valid hrange).resolve_right hval
      rw [wp_store]
      have hk := hw.store (e := PA2PTE pa ||| perm ||| PTE_V) (.inr (valid_or _))
      rw [show v * PGSIZE + PGSIZE = (v + 1) * PGSIZE by ring]
      have hfit : (v + 1 + n) * PGSIZE ≤ MAXVA := by
        rw [show v + 1 + n = v + (n + 1) by omega]
        exact hv
      refine wp_mono (ih hfit hk.tree hk.uses) ?_ ?_
      · rintro ok m₂ ⟨k, T₂, hk₂, hzero, hok⟩
        rw [mapRange_succ] at hk₂
        refine ⟨k + 1, T₂, ⟨hk₂.tree, hk₂.uses, fun q hq => (hk₂.rest q hq).trans (hk.rest q hq)⟩,
          fun x h1 h2 => ?_, hok.imp (fun h => ⟨h.1, by omega⟩) (fun h => ⟨h.1, by omega⟩)⟩
        by_cases hx : x = v
        · rw [hx, hz]
        · have h0 := hzero x (by omega) (by omega)
          rwa [update_of_ne hx] at h0
      · rintro e m₂ ⟨he, ⟨x, h1, h2, hx⟩, hP⟩
        rw [update_of_ne (by omega)] at hx
        exact ⟨he, ⟨x, by omega, by omega, hx⟩, hP⟩

theorem mappages_eq {n : ℕ} (v pa : ℕ) (perm : Pte) (hn : 0 < n) :
    mappages p (v * PGSIZE) (n * PGSIZE) pa perm = mapLoop p perm n (v * PGSIZE) pa := by
  have hpos : 0 < PGSIZE := by decide
  rw [mappages, if_neg (by simp), if_neg (by simp), if_neg (Nat.mul_pos hn hpos).ne',
    Nat.mul_div_cancel n hpos]

/-- `mappages` of one page. It panics only where something is mapped already. -/
theorem mappages_spec (pa : ℕ) (perm : Pte) (hva : va < MAXVA) (hal : va % PGSIZE = 0)
    (ht : IsTree m.page 2 p T L) (hs : Uses lo m (T + R)) :
    wp (mappages p va PGSIZE pa perm)
      (fun ok m' =>
        (ok = true ∧ L (va / PGSIZE) = 0 ∧ ∃ T', Kept lo m p T'
          (update L (va / PGSIZE) (PA2PTE pa ||| perm ||| PTE_V)) R m') ∨
        (ok = false ∧ ∃ T', Kept lo m p T' L R m'))
      (fun e m' => e = .remap ∧ Valid (L (va / PGSIZE)) ∧ ∃ P, Uses lo m' P) m := by
  generalize hv : va / PGSIZE = v
  have hva' : v * PGSIZE = va := by
    rw [← hv]
    exact Nat.div_mul_cancel (Nat.dvd_of_mod_eq_zero hal)
  have hfit : (v + 1) * PGSIZE ≤ MAXVA := by
    rw [MAXVA] at hva ⊢
    rw [PGSIZE] at hva' ⊢
    omega
  have heq := mappages_eq (p := p) v pa perm one_pos
  rw [Nat.one_mul, hva'] at heq
  rw [heq, ← hva']
  refine wp_mono (mapLoop_spec perm 1 hfit ht hs) ?_ ?_
  · rintro ok m' ⟨k, T', hk, hz, ⟨rfl, rfl⟩ | ⟨rfl, hlt⟩⟩
    · rw [← mapRange_succ, mapRange_zero] at hk
      exact .inl ⟨rfl, hz v (le_refl v) (Nat.lt_succ_self v), T', hk⟩
    · rw [Nat.lt_one_iff.mp hlt, mapRange_zero] at hk
      exact .inr ⟨rfl, T', hk⟩
  · rintro e m' ⟨he, ⟨x, h1, h2, hx⟩, hP⟩
    rw [show x = v by omega] at hx
    exact ⟨he, hx, hP⟩

/-- The page that a PTE refers to. -/
def target (e : Pte) : Multiset ℕ := if e = 0 then 0 else {PTE2PA e}

/-- `uvmunmap` of one page. With `do_free` the page was in use as part of the mapping. -/
theorem unmapPage_spec (doFree : Bool) (hva : va < MAXVA) (ht : IsTree m.page 2 p T L)
    (hs : Uses lo m (T + ((if doFree then target (L (va / PGSIZE)) else 0) + R))) :
    wp (unmapPage p doFree va) (fun _ m' =>
      Kept lo m p T (update L (va / PGSIZE) 0) R m') E m := by
  simp only [unmapPage, wp_bind]
  refine wp_imp (walk_spec false hva ht hs) ?_
  rintro r m₁ ⟨T', hw⟩
  obtain ⟨rfl, rfl⟩ := hw.same rfl
  have hskip (hz : L (va / PGSIZE) = 0) :
      Kept lo m₁ p T' (update L (va / PGSIZE) 0) R m₁ := by
    rw [← hz, update_eq_self]
    refine ⟨ht, hs.perm ?_, fun _ _ => rfl⟩
    simp [target, hz]
  cases r with
  | none =>
    rw [wp_pure]
    exact hskip (hw.missing rfl rfl)
  | some ptr =>
    simp only [wp_bind, wp_load, wp_ite, (hw.ptr ptr rfl).load]
    by_cases hv : Valid (L (va / PGSIZE))
    swap
    · rw [if_pos hv, wp_pure]
      exact hskip ((ht.zero_or_valid (IsTree.le_range hva)).resolve_right hv)
    rw [if_neg (not_not.mpr hv)]
    cases doFree with
    | false =>
      simp only [Bool.false_eq_true, if_false, wp_pure, wp_store]
      have hk := hw.store (.inl rfl)
      refine ⟨hk.tree, ?_, fun q hq => hk.rest q (mem_add.mpr (.inr hq))⟩
      refine hk.uses.perm ?_
      simp
    | true =>
      have hne : L (va / PGSIZE) ≠ 0 := by
        intro h0
        rw [h0] at hv
        exact not_valid_zero hv
      have hs' : Uses lo m₁ (PTE2PA (L (va / PGSIZE)) ::ₘ (T' + R)) := by
        refine hs.perm ?_
        rw [if_pos rfl, target, if_neg hne, Multiset.singleton_add, Multiset.add_cons]
      refine wp_imp (kfree_spec hs') ?_
      rintro _ m₂ ⟨hs₂, hpage⟩
      rw [wp_store]
      have hsame {q : ℕ} (hq : q ∈ T' + R) : m₂.page q = m₁.page q := by
        refine hpage q ?_
        rintro rfl
        exact (nodup_cons.mp hs'.nodup).1 hq
      have hT (q : ℕ) (hq : q ∈ T') : m₂.page q = m₁.page q :=
        hsame (mem_add.mpr (.inl hq))
      have hw₂ : Walked lo m₂ 2 p T' T' L R (va / PGSIZE) false (some ptr) m₂ := by
        refine ⟨ht.frame hT, hs₂, fun _ _ => rfl, by simp, fun _ => ⟨rfl, rfl⟩, ?_⟩
        rintro _ ⟨⟩
        exact (hw.ptr ptr rfl).frame hT
      have hk := hw₂.store (.inl rfl)
      exact ⟨hk.tree, hk.uses, fun q hq => (hk.rest q hq).trans
        (hsame (mem_add.mpr (.inr hq)))⟩

end Walk

section Freewalk

variable {lo l p : ℕ} {T R : Multiset ℕ} {L : ℕ → Pte} {m : Mem} {E : VmPanic → Mem → Prop}

/-- The table and the trees below its entries from `i` on. -/
@[irreducible] def tablesFrom (p : ℕ) (K : ℕ → Multiset ℕ) (i : ℕ) : Multiset ℕ :=
  p ::ₘ ∑ j ∈ Finset.Ico i 512, K j

theorem tables_eq_from (p : ℕ) (K : ℕ → Multiset ℕ) : tables p K = tablesFrom p K 0 := by
  unfold tablesFrom
  rw [tables_eq, Finset.range_eq_Ico]

theorem tablesFrom_succ (p : ℕ) (K : ℕ → Multiset ℕ) {i : ℕ} (hi : i < 512) :
    tablesFrom p K i = K i + tablesFrom p K (i + 1) := by
  unfold tablesFrom
  rw [Finset.sum_eq_sum_Ico_succ_bot hi, Multiset.add_cons]

theorem tablesFrom_end (p : ℕ) (K : ℕ → Multiset ℕ) : tablesFrom p K 512 = {p} := by
  unfold tablesFrom
  rw [Finset.Ico_self, Finset.sum_empty, Multiset.cons_zero]

theorem mem_tablesFrom {p q i : ℕ} {K : ℕ → Multiset ℕ} :
    q ∈ tablesFrom p K i ↔ q = p ∨ ∃ j < 512, i ≤ j ∧ q ∈ K j := by
  unfold tablesFrom
  rw [Multiset.mem_cons, Multiset.mem_sum]
  simp only [Finset.mem_Ico]
  tauto

/-- `freewalk` of a tree without mappings gives back its tables, and nothing else. -/
theorem freewalk_spec (ht : IsTree m.page l p T L) (hL : ∀ v < 512 ^ (l + 1), L v = 0)
    (hs : Uses lo m (T + R)) :
    wp (freewalk (l + 1) p) (fun _ m' => Uses lo m' R ∧ ∀ q ∈ R, m'.page q = m.page q) E m := by
  induction l generalizing p T L R m with
  | zero =>
    obtain ⟨rfl, ht⟩ := ht
    rw [freewalk]
    refine wp_seq (wp_loop (I := fun _ m' => m' = m) 512 0 ?_ rfl) ?_
    · rintro j m' - hj rfl
      have hz : pte (m'.page p) j = 0 := by
        rw [(ht j (by omega)).1, hL j (by simpa using hj)]
      simp only [wp_bind, wp_readPage, hz, not_valid_zero, false_and, if_false, wp_pure]
    · rintro _ m' rfl
      refine wp_imp (kfree_spec hs) ?_
      rintro _ m₁ ⟨hs₁, hpage⟩
      refine ⟨hs₁, fun q hq => hpage q ?_⟩
      rintro rfl
      exact (nodup_cons.mp hs.nodup).1 hq
  | succ l ih =>
    obtain ⟨K, rfl, h⟩ := ht
    rw [tables_eq_from] at hs
    rw [freewalk, wp_bind]
    -- the trees below the entries before `i` are gone, the others are as they were
    refine wp_imp (wp_loop (I := fun i m' => Uses lo m' (tablesFrom p K i + R) ∧
      (∀ q ∈ R, m'.page q = m.page q) ∧ ∀ j < 512, i ≤ j →
        pte (m'.page p) j = pte (m.page p) j ∧ ∀ q ∈ K j, m'.page q = m.page q) 512 0 ?_
      ⟨hs, fun _ _ => rfl, fun _ _ _ => ⟨rfl, fun _ _ => rfl⟩⟩) ?_
    · rintro i m₁ - hi ⟨hs₁, hR, hrest⟩
      have hi : i < 512 := by omega
      obtain ⟨he, hK⟩ := hrest i hi (le_refl i)
      simp only [wp_bind, wp_readPage, he]
      rcases h i hi with ⟨hv, hk, -⟩ | ⟨hv, hin, htree⟩
      · rw [if_neg (fun hc => hv hc.1), if_neg hv, wp_pure]
        refine ⟨hs₁.perm ?_, hR, fun j hj hij => hrest j hj (by omega)⟩
        rw [tablesFrom_succ p K hi, hk, zero_add]
      · rw [if_pos ⟨hv, hin⟩]
        have hlt (j : ℕ) (hj : j < 512 ^ (l + 1)) :
            i * 512 ^ (l + 1) + j < 512 ^ (l + 1 + 1) := by
          have : (i + 1) * 512 ^ (l + 1) ≤ 512 * 512 ^ (l + 1) := Nat.mul_le_mul_right _ hi
          rw [pow_succ 512 (l + 1)]
          linarith
        have hs' : Uses lo m₁ (K i + (tablesFrom p K (i + 1) + R)) := by
          refine hs₁.perm ?_
          rw [tablesFrom_succ p K hi, add_assoc]
        refine wp_seq (ih (htree.frame hK) (fun j hj => hL _ (hlt j hj)) hs') ?_
        rintro _ m₂ ⟨hs₂, hpage⟩
        have hnd := hs₂.nodup
        have hpR : p ∉ R := fun hp => Multiset.disjoint_left.mp (nodup_add.mp hnd).2.2
          (mem_tablesFrom.mpr (.inl rfl)) hp
        have hp : m₂.page p = m₁.page p :=
          hpage p (mem_add.mpr (.inl (mem_tablesFrom.mpr (.inl rfl))))
        rw [wp_bind, wp_readPage, wp_writePage]
        refine ⟨hs₂.setPage, fun q hq => ?_, fun j hj hij => ⟨?_, fun q hq => ?_⟩⟩
        · have hqp : q ≠ p := by
            rintro rfl
            exact hpR hq
          rw [setPage_page, if_neg hqp, hpage q (mem_add.mpr (.inr hq)), hR q hq]
        · rw [setPage_page, if_pos rfl, pte_setPte_of_ne _ _ (by omega), hp]
          exact (hrest j hj (by omega)).1
        · have hmem : q ∈ tablesFrom p K (i + 1) := mem_tablesFrom.mpr (.inr ⟨j, hj, hij, hq⟩)
          have hqp : q ≠ p := by
            rintro rfl
            have hn := (nodup_add.mp hnd).1
            unfold tablesFrom at hn
            rw [nodup_cons, Multiset.mem_sum] at hn
            exact hn.1 ⟨j, Finset.mem_Ico.mpr ⟨hij, hj⟩, hq⟩
          rw [setPage_page, if_neg hqp, hpage q (mem_add.mpr (.inl hmem))]
          exact (hrest j hj (by omega)).2 q hq
    · rintro _ m₁ ⟨hs₁, hR, -⟩
      rw [tablesFrom_end, Multiset.singleton_add] at hs₁
      refine wp_imp (kfree_spec hs₁) ?_
      rintro _ m₂ ⟨hs₂, hpage⟩
      refine ⟨hs₂, fun q hq => ?_⟩
      rw [hpage q, hR q hq]
      rintro rfl
      exact (nodup_cons.mp hs₁.nodup).1 hq

end Freewalk

end Xv6
