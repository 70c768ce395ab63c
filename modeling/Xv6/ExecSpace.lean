import Xv6.ProcSpace

/-! Exec (kernel/exec.c): it loads a program into a new address space, and gives that to the process
and frees the old one, or frees the new one. It does not panic. -/
namespace Xv6

/-- The PTEs while the program is loaded: the pages below `n` are mapped for the user. -/
structure Image (L : ℕ → Pte) (tf n : ℕ) : Prop where
  special : Special L tf
  mapped : ∀ v < n, UserPage L v
  empty : ∀ v, n ≤ v → v < TFP → L v = 0

section Load

variable {lo p tf a b n sz : ℕ} {T R : Multiset ℕ} {L L' : ℕ → Pte} {m m₀ : Mem} {xperm : Pte}
  {file : ExecFile} {E : VmPanic → Mem → Prop}

theorem le_pagesOf (sz : ℕ) : sz ≤ pagesOf sz * PGSIZE := by
  rw [pagesOf, PGSIZE]
  omega

theorem le_trapframe (h : pagesOf sz ≤ TFP) : sz ≤ TRAPFRAME := by
  rw [TRAPFRAME_eq]
  exact le_trans (le_pagesOf sz) (Nat.mul_le_mul_right _ h)

/-- What is mapped is there: an image is not larger than the memory. -/
theorem Image.le_physpages (h : Image L tf n) (hn : n ≤ TFP) (hk : UserKept lo m₀ p T L R m) :
    n ≤ PHYSPAGES := by
  have hcard := card_leaves hn (fun v (_ : 0 ≤ v) hv => (h.mapped v hv).ne_zero)
  have hle := hk.uses.card_le
  rw [Multiset.card_add, Multiset.card_add] at hle
  omega

theorem Filled.userPage (h : Filled L L' a b (PTE_R ||| PTE_U ||| xperm)) {v : ℕ} (h1 : a ≤ v)
    (h2 : v < b) : UserPage L' v := by
  obtain ⟨q, hq⟩ := h.inside v h1 h2
  rw [UserPage, hq]
  refine ⟨valid_or _, fun h0 => ?_⟩
  have hbit := congrArg (fun x : Pte => x.getLsbD 4) h0
  simp [PTE_U, PTE_R] at hbit

theorem Image.filled (h : Image L tf a) (hf : Filled L L' a b (PTE_R ||| PTE_U ||| xperm))
    (hab : a ≤ b) (hb : b ≤ TFP) : Image L' tf b := by
  refine ⟨h.special.filled hf hb, fun v hv => ?_, fun v h1 h2 => ?_⟩
  · by_cases hva : a ≤ v
    · exact hf.userPage hva hv
    · rw [UserPage, hf.outside v (by omega)]
      exact h.mapped v (by omega)
  · rw [hf.outside v (by omega)]
    exact h.empty v (by omega) h2

theorem flags2perm_lt (flags : BitVec 32) : flags2perm flags < 1024#64 := by
  rw [flags2perm]
  split_ifs <;> decide

theorem uvmalloc_image_spec {oldsz newsz : ℕ} (hx : xperm < 1024#64) (hold : oldsz ≤ TRAPFRAME)
    (hi : Image L tf (pagesOf oldsz)) (hk : UserKept lo m₀ p T L R m) :
    wp (uvmalloc p oldsz newsz xperm) (fun r m' =>
      (r = 0 ∧ ∃ T', UserKept lo m₀ p T' L R m') ∨
      (r = max oldsz newsz ∧ r ≤ TRAPFRAME ∧ ∃ T' L', Image L' tf (pagesOf r) ∧
        Filled L L' (pagesOf oldsz) (pagesOf r) (PTE_R ||| PTE_U ||| xperm) ∧
        UserKept lo m₀ p T' L' R m')) E m := by
  refine wp_mono (uvmalloc_spec hx hi.special.valid hold hi.empty hk) ?_ ?_
  · rintro r m' (⟨rfl, hlt, hk'⟩ | ⟨rfl, hle, hTFP, T', L', hf, hk'⟩ | ⟨rfl, hk'⟩)
    · exact .inr ⟨by omega, hold, T, L, hi, .empty _ _ _, hk'⟩
    · exact .inr ⟨by omega, le_trapframe hTFP, T', L', hi.filled hf (pagesOf_mono hle) hTFP,
        hf, hk'⟩
    · exact .inl ⟨rfl, hk'⟩
  · rintro e m' ⟨-, -, hbig, -⟩
    have hle := hi.le_physpages (pagesOf_le hold) hk
    rw [TFP_eq] at hbig
    rw [PHYSPAGES] at hbig hle
    omega

theorem loadsegLoop_spec (hlo : 0 < lo) {va : ℕ} {offset : BitVec 32} (hi : Image L tf n)
    (hn : n ≤ TFP) (k i : ℕ) (hfit : va + i + k * PGSIZE ≤ n * PGSIZE)
    (hk : UserKept lo m₀ p T L R m) :
    wp (loadsegLoop p va file offset sz k i) (fun _ m' => UserKept lo m₀ p T L R m') E m := by
  induction k generalizing i m with
  | zero => exact hk
  | succ k ih =>
    have hpos : 0 < PGSIZE := by decide
    have hmax := page_lt_maxva (by omega : n ≤ TFP + 1)
    have hle : MAXVA ≤ 2 ^ 64 := by decide
    rw [Nat.succ_mul] at hfit
    have hpage : (va + i) / PGSIZE < n := by
      rw [Nat.div_lt_iff_lt_mul hpos]
      omega
    rw [loadsegLoop, wp_bind, Nat.mod_eq_of_lt (by omega)]
    refine wp_imp (walkaddr_spec hk.tree hk.uses) ?_
    rintro r m₁ ⟨rfl, ⟨rfl, hno⟩ | ⟨-, hu, rfl⟩⟩
    · exact absurd ⟨by omega, hi.mapped _ hpage⟩ hno
    · have hmem := hu.mem_leaves hi.special.hidden (by omega)
      have hb := hk.uses.bounds
        (mem_add.mpr (.inr (mem_add.mpr (.inl hmem))))
      rw [if_neg (by omega)]
      cases file.seg (offset + BitVec.ofNat 32 i) (min PGSIZE (sz - i)) with
      | none => exact hk
      | some bytes =>
        simp only [wp_bind, wp_readPage, wp_writePage]
        exact ih (i + PGSIZE) (by omega) (hk.write hmem)

theorem seg_fits {vaddr memsz filesz sz1 : ℕ} (hal : vaddr % PGSIZE = 0) (hfile : filesz ≤ memsz)
    (hsz : vaddr + memsz ≤ sz1) :
    vaddr + 0 + (filesz + (PGSIZE - 1)) / PGSIZE * PGSIZE ≤ pagesOf sz1 * PGSIZE := by
  rw [pagesOf]
  rw [PGSIZE] at hal ⊢
  omega

theorem loadLoop_spec (hlo : 0 < lo) (k : ℕ) {off : BitVec 32} (hsz : sz ≤ TRAPFRAME)
    (hi : Image L tf (pagesOf sz)) (hk : UserKept lo m₀ p T L R m) :
    wp (loadLoop p file k off sz) (fun r m' => r.2 ≤ TRAPFRAME ∧ ∃ T' L',
      Image L' tf (pagesOf r.2) ∧ UserKept lo m₀ p T' L' R m') E m := by
  induction k generalizing off sz L T m with
  | zero => exact ⟨hsz, T, L, hi, hk⟩
  | succ k ih =>
    rw [loadLoop]
    cases file.ph off with
    | none => exact ⟨hsz, T, L, hi, hk⟩
    | some ph =>
      simp only [wp_ite, wp_bind, wp_pure]
      split_ifs with htype hmem hwrap hal
      · exact ih hsz hi hk
      · exact ⟨hsz, T, L, hi, hk⟩
      · exact ⟨hsz, T, L, hi, hk⟩
      · exact ⟨hsz, T, L, hi, hk⟩
      · refine wp_imp (uvmalloc_image_spec (flags2perm_lt ph.flags) hsz hi hk) ?_
        rintro sz1 m₁ (⟨rfl, T₁, hk₁⟩ | ⟨hmax, hsz1, T₁, L₁, hi₁, -, hk₁⟩)
        · rw [if_pos rfl]
          exact ⟨hsz, T₁, L, hi, hk₁⟩
        by_cases h0 : sz1 = 0
        · -- an empty segment at address 0 counts as a failure
          obtain rfl : sz = 0 := by omega
          rw [if_pos h0]
          subst h0
          exact ⟨hsz, T₁, L₁, hi₁, hk₁⟩
        rw [if_neg h0, wp_bind]
        have hadd : (ph.vaddr + ph.memsz).toNat = ph.vaddr.toNat + ph.memsz.toNat := by
          have hle := BitVec.le_def.mp (BitVec.not_lt.mp hwrap)
          rw [BitVec.toNat_add] at hle ⊢
          omega
        have hfile : (ph.filesz.setWidth 32).toNat ≤ ph.memsz.toNat := by
          refine le_trans ?_ (BitVec.le_def.mp (BitVec.not_lt.mp hmem))
          rw [BitVec.toNat_setWidth]
          exact Nat.mod_le _ _
        have hfit := seg_fits (not_not.mp hal) hfile (by omega : _ ≤ sz1)
        refine wp_imp (loadsegLoop_spec hlo hi₁ (pagesOf_le hsz1) _ 0 hfit hk₁) ?_
        rintro (_ | _) m₂ hk₂
        · exact ⟨hsz1, T₁, L₁, hi₁, hk₂⟩
        · exact ih hsz1 hi₁ hk₂

end Load

section Stack

variable {lo p b t n : ℕ} {cur : Space} {T R : Multiset ℕ} {L L' : ℕ → Pte} {m m₀ : Mem}
  {E : VmPanic → Mem → Prop}

theorem Grown.zero (h : Grown L L' 0) : L' = L := by
  funext v
  exact (h v).resolve_right (fun hv => Nat.not_lt_zero v hv.2.1)

theorem copyout_stack_spec (hlo : 0 < lo) (hh : Hidden L) (ht : t ≤ TFP)
    (hst : ∀ v, b ≤ v → v < t → UserPage L v) {dstva : ℕ} {src : List Byte}
    (hdst : b * PGSIZE ≤ dstva) (hsrc : dstva + src.length ≤ t * PGSIZE)
    (hk : UserKept lo m₀ p T L R m) :
    wp (copyout cur p dstva src) (fun _ m' => ∃ T', UserKept lo m₀ p T' L R m') E m := by
  have htouch (v : ℕ) (h1 : dstva / PGSIZE ≤ v) (h2 : v * PGSIZE < dstva + src.length) :
      Touchable cur p 0 L v := by
    have hb : b ≤ v := le_trans ((Nat.le_div_iff_mul_le (by decide)).mpr hdst) h1
    have hv : v < t := Nat.lt_of_mul_lt_mul_right (lt_of_lt_of_le h2 hsrc)
    exact .inr ⟨hst v hb hv, by omega⟩
  refine wp_imp (copyout_spec hlo hh htouch hk) ?_
  rintro _ m' ⟨T', L', hg, hk', -⟩
  rw [hg.zero] at hk'
  exact ⟨T', hk'⟩

theorem sub64_eq {x y : ℕ} (h : y ≤ x) (hx : x < 2 ^ 64) : sub64 x y = x - y := by
  rw [sub64]
  omega

theorem push_fits {sp len : ℕ} (hb : 0 < b) (ht : t ≤ TFP) (hsp : b * PGSIZE ≤ sp)
    (htop : sp ≤ t * PGSIZE) (hlen : len ≤ PGSIZE) :
    sub64 sp len - sub64 sp len % 16 + len ≤ t * PGSIZE := by
  have hmax := page_lt_maxva (by omega : t ≤ TFP + 1)
  have hone : PGSIZE ≤ b * PGSIZE := Nat.le_mul_of_pos_left _ hb
  rw [MAXVA] at hmax
  rw [sub64_eq (by omega) (by omega)]
  omega

theorem pushArgs_spec (hlo : 0 < lo) (hh : Hidden L) (hb : 0 < b) (ht : t ≤ TFP)
    (hst : ∀ v, b ≤ v → v < t → UserPage L v) (argv : List (List Byte))
    (hargs : ∀ arg ∈ argv, arg.length < PGSIZE) {sp : ℕ} {ustack : List ℕ}
    (hsp : b * PGSIZE ≤ sp) (htop : sp ≤ t * PGSIZE) (hu : ustack.length ≤ MAXARG)
    (hk : UserKept lo m₀ p T L R m) :
    wp (pushArgs cur p (b * PGSIZE) argv sp ustack) (fun r m' =>
      (∀ sp' ustack', r = some (sp', ustack') → b * PGSIZE ≤ sp' ∧ sp' ≤ t * PGSIZE ∧
        ustack'.length = ustack.length + argv.length ∧ ustack'.length ≤ MAXARG) ∧
      ∃ T', UserKept lo m₀ p T' L R m') E m := by
  induction argv generalizing sp ustack T m with
  | nil =>
    refine ⟨fun sp' ustack' h => ?_, T, hk⟩
    cases h
    exact ⟨hsp, htop, rfl, hu⟩
  | cons arg argv ih =>
    have hlen := hargs arg List.mem_cons_self
    have hfit := push_fits hb ht hsp htop (by omega : arg.length + 1 ≤ PGSIZE)
    rw [pushArgs]
    simp only [wp_ite, wp_bind, wp_pure]
    split_ifs with hmany hlow
    · exact ⟨(by simp), T, hk⟩
    · exact ⟨(by simp), T, hk⟩
    · refine wp_imp (copyout_stack_spec hlo hh ht hst (Nat.le_of_not_lt hlow)
        (by rw [List.length_append]; exact hfit) hk) ?_
      rintro (_ | _) m₁ ⟨T₁, hk₁⟩
      · exact ⟨(by simp), T₁, hk₁⟩
      · have hu' : (ustack ++ [sub64 sp (arg.length + 1) - sub64 sp (arg.length + 1) % 16]).length =
            ustack.length + 1 := by simp
        refine wp_imp (ih (fun a ha => hargs a (List.mem_cons_of_mem _ ha))
          (Nat.le_of_not_lt hlow) (by omega) (by omega) hk₁) ?_
        rintro r m₂ ⟨hr, hk₂⟩
        refine ⟨fun sp' ustack' h => ?_, hk₂⟩
        obtain ⟨h1, h2, h3, h4⟩ := hr sp' ustack' h
        refine ⟨h1, h2, ?_, h4⟩
        rw [h3, hu', List.length_cons]
        omega

theorem length_flatMap_bytes64 (l : List ℕ) : (l.flatMap bytes64).length = 8 * l.length := by
  induction l with
  | nil => rfl
  | cons x l ih =>
    rw [List.flatMap_cons, List.length_append, ih, bytes64, List.length_map, List.length_range,
      List.length_cons]
    omega

theorem pushStack_spec (hlo : 0 < lo) (hh : Hidden L) (hb : 0 < b) (ht : t ≤ TFP)
    (hst : ∀ v, b ≤ v → v < t → UserPage L v) {argv : List (List Byte)}
    (hargs : ∀ arg ∈ argv, arg.length < PGSIZE) {sp : ℕ}
    (hsp : b * PGSIZE ≤ sp) (htop : sp ≤ t * PGSIZE) (hk : UserKept lo m₀ p T L R m) :
    wp (pushStack cur p (b * PGSIZE) argv sp) (fun _ m' => ∃ T', UserKept lo m₀ p T' L R m')
      E m := by
  rw [pushStack]
  refine wp_seq (pushArgs_spec hlo hh hb ht hst argv hargs hsp htop zero_le hk) ?_
  rintro r m₁ ⟨hr, T₁, hk₁⟩
  rcases r with _ | ⟨sp', ustack⟩
  · exact ⟨T₁, hk₁⟩
  obtain ⟨hsp', htop', hcount, hmany⟩ := hr sp' ustack rfl
  rw [List.length_nil, zero_add] at hcount
  have hlen : (argv.length + 1) * 8 ≤ PGSIZE := by
    rw [MAXARG] at hmany
    rw [PGSIZE]
    omega
  have hfit := push_fits hb ht hsp' htop' hlen
  simp only [wp_ite, wp_bind, wp_pure]
  split_ifs with hlow
  · exact ⟨T₁, hk₁⟩
  · refine wp_imp (copyout_stack_spec hlo hh ht hst (Nat.le_of_not_lt hlow) ?_ hk₁) ?_
    · rw [length_flatMap_bytes64, List.length_append, List.length_singleton, hcount]
      omega
    · rintro (_ | _) m₂ hk₂
      · exact hk₂
      · exact hk₂

end Stack

section Kexec

variable {lo p tf sz : ℕ} {cur : Space} {T T₀ S R : Multiset ℕ} {L L₀ : ℕ → Pte} {m m₀ : Mem}
  {argv : List (List Byte)} {E : VmPanic → Mem → Prop}

/-- `UserKept`, where the trapframe may have been written. -/
def KeptButTrapframe (lo : ℕ) (m₀ : Mem) (p tf : ℕ) (T : Multiset ℕ) (L : ℕ → Pte)
    (S : Multiset ℕ) (m : Mem) : Prop :=
  IsTree m.page 2 p T L ∧ Uses lo m (T + (leaves L + S)) ∧ ∀ q ∈ S, q ≠ tf → m.page q = m₀.page q

theorem setTrapframe_spec {off v : ℕ} (hmem : tf ∈ S) (hk : KeptButTrapframe lo m₀ p tf T L S m) :
    wp (setTrapframe tf off v) (fun _ m' => KeptButTrapframe lo m₀ p tf T L S m') E m := by
  obtain ⟨ht, hs, hrest⟩ := hk
  simp only [setTrapframe, wp_bind, wp_readPage, wp_writePage]
  refine ⟨ht.frame (fun q hq => ?_), hs.setPage, fun q hq hne => ?_⟩
  · rw [setPage_page, if_neg]
    rintro rfl
    exact Multiset.disjoint_left.mp (nodup_add.mp hs.nodup).2.2 hq
      (mem_add.mpr (.inr hmem))
  · rw [setPage_page, if_neg hne, hrest q hq hne]

theorem Image.layout (h : Image L tf (pagesOf sz)) : Layout L tf sz := ⟨h.special, h.empty⟩

theorem commit_spec (hcur : cur.sz ≤ TRAPFRAME) (h₀ : Layout L₀ tf cur.sz)
    (ht₀ : IsTree m₀.page 2 cur.pagetable T₀ L₀) (hl : Layout L tf sz)
    (hk : KeptButTrapframe lo m₀ p tf T L (T₀ + (leaves L₀ + tf ::ₘ R)) m) :
    wp (procFreepagetable cur.pagetable cur.sz) (fun _ m' =>
      Owned lo m₀ ⟨sz, p⟩ tf R m') E m := by
  obtain ⟨ht, hs, hrest⟩ := hk
  have hnd := (nodup_add.mp (nodup_add.mp hs.nodup).2.1).2.1
  have hne {q : ℕ} (hq : q ∈ T₀ ∨ q ∈ R) : q ≠ tf := by
    rintro rfl
    rcases hq with hq | hq
    · exact Multiset.disjoint_left.mp (nodup_add.mp hnd).2.2 hq (by simp)
    · have h := (nodup_add.mp (nodup_add.mp hnd).2.1).2.1
      exact (nodup_cons.mp h).1 hq
  have ht₁ : IsTree m.page 2 cur.pagetable T₀ L₀ :=
    ht₀.frame (fun q hq => hrest q (by simp [hq]) (hne (.inl hq)))
  have hs₁ : Uses lo m (T₀ + (leaves L₀ + (T + (leaves L + tf ::ₘ R)))) := hs.perm (by abel)
  refine wp_imp (procFreepagetable_spec hcur h₀.special h₀.empty (.refl ht₁ hs₁)) ?_
  rintro _ m' ⟨hs', hsame⟩
  have hk' : UserKept lo m p T L (tf ::ₘ R) m' :=
    ⟨ht.frame (fun q hq => hsame q (by simp [hq])), hs', fun q hq => hsame q
      (mem_add.mpr (.inr (mem_add.mpr (.inr hq))))⟩
  have hown : Owned lo m ⟨sz, p⟩ tf R m' := .of_kept hl hk'
  obtain ⟨A, hA, hsA, hsame'⟩ := hown
  exact ⟨A, hA, hsA, fun q hq =>
    (hsame' q hq).trans (hrest q (by simp [hq]) (hne (.inr hq)))⟩

theorem Layout.guard {v : ℕ} {e : Pte} (h : Layout L tf sz) (hv : v < pagesOf sz)
    (hsz : sz ≤ TRAPFRAME) : Layout (update L v e) tf sz := by
  have hle := pagesOf_le hsz
  refine ⟨h.special.congr (fun x hx => update_of_ne (by omega) _ _), fun x h1 h2 => ?_⟩
  rw [update_of_ne (by omega)]
  exact h.empty x h1 h2

theorem giveUp_spec (hsz : sz ≤ TRAPFRAME) (hl : Layout L tf sz) (hk : UserKept lo m₀ p T L S m) :
    wp (do procFreepagetable p sz; pure none : Vm (Option Space)) (fun r m' =>
      (r = none ∧ Uses lo m' S ∧ ∀ q ∈ S, m'.page q = m₀.page q) ∨
      ∃ sp : Space, r = some sp ∧ sp.sz ≤ TRAPFRAME ∧ Owned lo m₀ sp tf R m') E m := by
  refine wp_seq (procFreepagetable_spec hsz hl.special hl.empty hk) ?_
  rintro _ m' ⟨hs, hsame⟩
  exact .inl ⟨rfl, hs, hsame⟩

theorem kexecStack_spec (hlo : 0 < lo) {entry : BitVec 64}
    (hargs : ∀ arg ∈ argv, arg.length < PGSIZE) (hcur : cur.sz ≤ TRAPFRAME)
    (h₀ : Layout L₀ tf cur.sz) (ht₀ : IsTree m₀.page 2 cur.pagetable T₀ L₀)
    (hS : S = T₀ + (leaves L₀ + tf ::ₘ R)) (hsz : sz ≤ TRAPFRAME)
    (hi : Image L tf (pagesOf sz)) (hk : UserKept lo m₀ p T L S m) :
    wp (kexecStack cur tf p entry argv sz) (fun r m' =>
      (r = none ∧ Uses lo m' S ∧ ∀ q ∈ S, m'.page q = m₀.page q) ∨
      ∃ sp : Space, r = some sp ∧ sp.sz ≤ TRAPFRAME ∧ Owned lo m₀ sp tf R m') E m := by
  have hnum : TRAPFRAME = 2 ^ 38 - 8192 := rfl
  rw [kexecStack, PGROUNDUP_eq (by omega)]
  generalize hn : pagesOf sz = n at hi ⊢
  have hnsz : n * PGSIZE ≤ TRAPFRAME := by
    rw [TRAPFRAME_eq, ← hn]
    exact Nat.mul_le_mul_right _ (pagesOf_le hsz)
  rw [← pagesOf_mul n] at hi
  refine wp_seq (uvmalloc_image_spec (by decide) hnsz hi hk) ?_
  rintro sz1 m₁ (⟨rfl, T₁, hk₁⟩ | ⟨hmax, hsz1, T₁, L₁, hi₁, -, hk₁⟩)
  · rw [if_pos rfl]
    exact giveUp_spec hnsz hi.layout hk₁
  -- the new pages are the guard page `n` and the stack `[n + 1, n + 3)`
  obtain rfl : sz1 = (n + 3) * PGSIZE := by
    rw [hmax, USERSTACK, PGSIZE]
    omega
  have hn3 : n + 3 ≤ TFP := by
    have h := pagesOf_le hsz1
    rwa [pagesOf_mul] at h
  rw [if_neg (by rw [PGSIZE]; omega), wp_bind,
    show (n + 3) * PGSIZE - (USERSTACK + 1) * PGSIZE = n * PGSIZE by rw [USERSTACK, PGSIZE]; omega,
    show (n + 3) * PGSIZE - USERSTACK * PGSIZE = (n + 1) * PGSIZE by rw [USERSTACK, PGSIZE]; omega]
  have hl₁ := hi₁.layout
  rw [pagesOf_mul] at hi₁
  refine wp_imp (uvmclear_spec (by omega) (hi₁.mapped n (by omega)).ne_zero hk₁) ?_
  intro _ m₂ hk₂
  have hl₂ := hl₁.guard (v := n) (e := L₁ n &&& ~~~PTE_U) (by rw [pagesOf_mul]; omega) hsz1
  have hst (v : ℕ) (h1 : n + 1 ≤ v) (h2 : v < n + 3) :
      UserPage (update L₁ n (L₁ n &&& ~~~PTE_U)) v := by
    rw [UserPage, update_of_ne (by omega)]
    exact hi₁.mapped v h2
  refine wp_seq (pushStack_spec hlo hl₂.special.hidden (Nat.succ_pos n) hn3 hst hargs
    (Nat.mul_le_mul_right _ (by omega)) (le_refl _) hk₂) ?_
  rintro (_ | sp) m₃ ⟨T₃, hk₃⟩
  · exact giveUp_spec hsz1 hl₂ hk₃
  subst hS
  have hmem : tf ∈ T₀ + (leaves L₀ + tf ::ₘ R) := by simp
  have hkt : KeptButTrapframe lo m₀ p tf T₃ _ _ m₃ :=
    ⟨hk₃.tree, hk₃.uses, fun q hq _ => hk₃.rest q hq⟩
  refine wp_seq (setTrapframe_spec hmem hkt) ?_
  intro _ m₄ hk₄
  refine wp_seq (setTrapframe_spec hmem hk₄) ?_
  intro _ m₅ hk₅
  refine wp_seq (setTrapframe_spec hmem hk₅) ?_
  intro _ m₆ hk₆
  refine wp_seq (commit_spec hcur h₀ ht₀ hl₂ hk₆) ?_
  intro _ m₇ hown
  exact .inr ⟨_, rfl, hsz1, hown⟩

theorem kexec_spec (hlo : 0 < lo) {file : Option ExecFile} {A : Multiset ℕ}
    (hargs : ∀ arg ∈ argv, arg.length < PGSIZE) (hcur : cur.sz ≤ TRAPFRAME)
    (hA : Owns m cur tf A) (hs : Uses lo m (A + R)) :
    wp (kexec cur tf file argv) (fun r m' =>
      (r.getD cur).sz ≤ TRAPFRAME ∧ Owned lo m (r.getD cur) tf R m') E m := by
  obtain ⟨T₀, L₀, h₀, hk₀⟩ := hA.kept hs
  have hsame : (none.getD cur).sz ≤ TRAPFRAME ∧ Owned lo m (none.getD cur) tf R m :=
    ⟨hcur, .of_kept h₀ hk₀⟩
  -- the old address space is part of the rest
  have hback {m' : Mem} (hs' : Uses lo m' (T₀ + (leaves L₀ + tf ::ₘ R)))
      (hp : ∀ q ∈ T₀ + (leaves L₀ + tf ::ₘ R), m'.page q = m.page q) :
      Owned lo m cur tf R m' :=
    .of_kept h₀ ⟨hk₀.tree.frame (fun q hq => hp q (by simp [hq])), hs',
      fun q hq => hp q (mem_add.mpr (.inr (mem_add.mpr (.inr hq))))⟩
  rcases file with _ | file
  · exact hsame
  rw [kexec]
  cases file.elf with
  | none => exact hsame
  | some elf =>
    simp only [wp_ite, wp_bind, wp_pure]
    split_ifs with hmagic
    · exact hsame
    refine wp_imp (procPagetable_spec hk₀.uses) ?_
    rintro _ m₁ (⟨rfl, hs₁, hp₁⟩ | ⟨p, T, L, rfl, hsp, hz, hk₁⟩)
    · exact ⟨hcur, hback hs₁ hp₁⟩
    have hi : Image L tf (pagesOf 0) :=
      ⟨hsp, fun v hv => absurd hv (Nat.not_lt_zero v), fun v _ h2 => hz v h2⟩
    simp only [wp_bind]
    refine wp_imp (loadLoop_spec hlo _ zero_le hi hk₁) ?_
    rintro ⟨ok, sz⟩ m₂ ⟨hsz, T₂, L₂, hi₂, hk₂⟩
    have hfinish {r : Option Space} {m' : Mem}
        (h : (r = none ∧ Uses lo m' (T₀ + (leaves L₀ + tf ::ₘ R)) ∧
          ∀ q ∈ T₀ + (leaves L₀ + tf ::ₘ R), m'.page q = m.page q) ∨
          ∃ sp : Space, r = some sp ∧ sp.sz ≤ TRAPFRAME ∧ Owned lo m sp tf R m') :
        (r.getD cur).sz ≤ TRAPFRAME ∧ Owned lo m (r.getD cur) tf R m' := by
      rcases h with ⟨rfl, hs', hp'⟩ | ⟨sp, rfl, hsz', hown⟩
      · exact ⟨hcur, hback hs' hp'⟩
      · exact ⟨hsz', hown⟩
    cases ok with
    | false => exact wp_imp (giveUp_spec hsz hi₂.layout hk₂) (fun _ _ h => hfinish h)
    | true =>
      exact wp_imp (kexecStack_spec hlo hargs hcur h₀ hk₀.tree rfl hsz hi₂ hk₂)
        (fun _ _ h => hfinish h)

end Kexec

section SysExec

variable {lo tf : ℕ} {cur : Space} {R Q : Multiset ℕ} {m m₀ : Mem} {E : VmPanic → Mem → Prop}

def argPages (argv : List (ℕ × List Byte)) : Multiset ℕ := ↑(argv.map Prod.fst)

theorem argPages_snoc (argv : List (ℕ × List Byte)) (q : ℕ) (arg : List Byte) :
    argPages (argv ++ [(q, arg)]) = q ::ₘ argPages argv := by
  rw [argPages, argPages, List.map_append, ← Multiset.coe_add, add_comm]
  rfl

/-- While the arguments are fetched: the process has its address space and these pages. -/
def Fetched (lo : ℕ) (m₀ : Mem) (cur : Space) (tf : ℕ) (argv : List (ℕ × List Byte))
    (R : Multiset ℕ) (m : Mem) : Prop :=
  (∀ x ∈ argv, x.2.length < PGSIZE) ∧ ∃ A, Owns m cur tf A ∧
    Uses lo m (A + (argPages argv + R)) ∧ ∀ q ∈ R, m.page q = m₀.page q

theorem freeArgs_spec (argv : List (ℕ × List Byte)) (hs : Uses lo m (argPages argv + Q)) :
    wp (freeArgs argv) (fun _ m' => Uses lo m' Q ∧ ∀ q ∈ Q, m'.page q = m.page q) E m := by
  induction argv generalizing m with
  | nil => exact ⟨hs.perm (zero_add Q).symm, fun _ _ => rfl⟩
  | cons x argv ih =>
    have hs' : Uses lo m (x.1 ::ₘ (argPages argv + Q)) := hs.perm (Multiset.cons_add _ _ _).symm
    rw [freeArgs]
    refine wp_seq (kfree_spec hs') ?_
    rintro _ m₁ ⟨hs₁, hp₁⟩
    refine wp_imp (ih hs₁) ?_
    rintro _ m₂ ⟨hs₂, hp₂⟩
    refine ⟨hs₂, fun q hq => (hp₂ q hq).trans (hp₁ q ?_)⟩
    rintro rfl
    exact (nodup_cons.mp hs'.nodup).1 (mem_add.mpr (.inr hq))

theorem fetchaddr_spec (hlo : 0 < lo) (hcur : cur.sz ≤ TRAPFRAME) {addr : ℕ} {A : Multiset ℕ}
    (hA : Owns m cur tf A) (hs : Uses lo m (A + R)) :
    wp (fetchaddr cur addr) (fun _ m' => Owned lo m cur tf R m') E m := by
  rw [fetchaddr]
  split_ifs with hout
  · exact .refl hA hs
  · obtain ⟨T, L, hl, hk⟩ := hA.kept hs
    refine wp_seq (copyin_spec hlo rfl hcur hl.special.hidden hk _ _) ?_
    rintro r m' ⟨T', L', hg, hk', -⟩
    have hown : Owned lo m cur tf R m' := .of_kept (hl.grown hg) hk'
    cases r with
    | none => exact hown
    | some bytes => exact hown

theorem fetchstr_spec (hlo : 0 < lo) {addr max : ℕ} {A : Multiset ℕ} (hA : Owns m cur tf A)
    (hs : Uses lo m (A + R)) :
    wp (fetchstr cur addr max) (fun r m' => m' = m ∧ ∀ str, r = some str → str.length < max) E m := by
  obtain ⟨T, L, hl, hk⟩ := hA.kept hs
  refine wp_imp (copyinstr_spec hlo hl.special.hidden hk.tree hk.uses addr max) ?_
  rintro r m' ⟨hm, hstr⟩
  exact ⟨hm, fun str hr => ((hstr str).mp hr).1⟩

theorem fetchArgs_spec (hlo : 0 < lo) (hcur : cur.sz ≤ TRAPFRAME) {uargv : ℕ} (n i : ℕ)
    {argv : List (ℕ × List Byte)} (h : Fetched lo m₀ cur tf argv R m) :
    wp (fetchArgs cur uargv n i argv) (fun r m' => Fetched lo m₀ cur tf r.2 R m') E m := by
  induction n generalizing i argv m with
  | zero => exact h
  | succ n ih =>
    obtain ⟨hargs, A, hA, hs, hp⟩ := h
    rw [fetchArgs]
    refine wp_seq (fetchaddr_spec hlo hcur hA hs) ?_
    rintro r m₁ ⟨A₁, hA₁, hs₁, hp₁⟩
    have hp₁' (q : ℕ) (hq : q ∈ R) : m₁.page q = m₀.page q :=
      (hp₁ q (mem_add.mpr (.inr hq))).trans (hp q hq)
    have h₁ : Fetched lo m₀ cur tf argv R m₁ := ⟨hargs, A₁, hA₁, hs₁, hp₁'⟩
    cases r with
    | none => exact h₁
    | some uarg =>
      simp only [wp_ite, wp_pure, wp_bind]
      split_ifs with h0
      · exact h₁
      refine wp_imp (kalloc_spec hs₁) ?_
      rintro _ m₂ (⟨rfl, hs₂, hpage⟩ | ⟨q, rfl, hs₂, hq, hpage⟩)
      · exact ⟨hargs, A₁, hA₁.frame (fun x _ => by rw [hpage]), hs₂,
          fun x hx => by rw [hpage, hp₁' x hx]⟩
      have hA₂ : Owns m₂ cur tf A₁ := hA₁.frame (fun x hx => hpage x (by
        rintro rfl
        exact hq (mem_add.mpr (.inl hx))))
      have hne {x : ℕ} (hx : x ∈ R) : x ≠ q := by
        rintro rfl
        exact hq (mem_add.mpr (.inr (mem_add.mpr (.inr hx))))
      have hperm (arg : List Byte) :
          A₁ + (argPages (argv ++ [(q, arg)]) + R) = q ::ₘ (A₁ + (argPages argv + R)) := by
        rw [argPages_snoc, Multiset.cons_add, Multiset.add_cons]
      have hlen (arg : List Byte) (harg : arg.length < PGSIZE) :
          ∀ x ∈ argv ++ [(q, arg)], x.2.length < PGSIZE := by
        intro x hx
        rcases List.mem_append.mp hx with hx | hx
        · exact hargs x hx
        · rw [List.mem_singleton.mp hx]
          exact harg
      simp only [wp_bind]
      refine wp_imp (fetchstr_spec hlo hA₂ (hs₂.perm (hperm []))) ?_
      rintro r m₃ ⟨rfl, hstr⟩
      cases r with
      | none =>
        exact ⟨hlen [] (by decide), A₁, hA₂, hs₂.perm (hperm []),
          fun x hx => by rw [hpage x (hne hx), hp₁' x hx]⟩
      | some arg =>
        simp only [wp_bind, wp_readPage, wp_writePage]
        refine ih (i + 1) ⟨hlen arg (hstr arg rfl), A₁, hA₂.frame (fun x hx => ?_),
          (hs₂.perm (hperm arg)).setPage, fun x hx => ?_⟩
        · rw [setPage_page, if_neg]
          rintro rfl
          exact hq (mem_add.mpr (.inl hx))
        · rw [setPage_page, if_neg (hne hx), hpage x (hne hx), hp₁' x hx]

/-- The exec system call: every page it takes for the arguments is given back. -/
theorem sysExec_spec (hlo : 0 < lo) (hcur : cur.sz ≤ TRAPFRAME) {file : Option ExecFile}
    {upath uargv : ℕ} {A : Multiset ℕ} (hA : Owns m cur tf A) (hs : Uses lo m (A + R)) :
    wp (sysExec cur tf file upath uargv) (fun r m' =>
      (r.getD cur).sz ≤ TRAPFRAME ∧ Owned lo m (r.getD cur) tf R m') E m := by
  -- freeing the argument pages, whatever the address space is by then
  have hfree {argv : List (ℕ × List Byte)} {sp : Space} {m' : Mem} {B : Multiset ℕ}
      (hB : Owns m' sp tf B) (hs' : Uses lo m' (B + (argPages argv + R)))
      (hp : ∀ q ∈ R, m'.page q = m.page q) :
      wp (freeArgs argv) (fun _ m'' => Owned lo m sp tf R m'') E m' := by
    refine wp_imp (freeArgs_spec (Q := B + R) argv (hs'.perm (by abel))) ?_
    rintro _ m'' ⟨hs'', hp''⟩
    exact ⟨B, hB.frame (fun q hq => hp'' q (mem_add.mpr (.inl hq))), hs'',
      fun q hq => (hp'' q (mem_add.mpr (.inr hq))).trans (hp q hq)⟩
  rw [sysExec]
  refine wp_seq (fetchstr_spec hlo hA hs) ?_
  rintro r m₁ ⟨rfl, -⟩
  cases r with
  | none => exact ⟨hcur, .refl hA hs⟩
  | some path =>
    have h₀ : Fetched lo m₁ cur tf [] R m₁ :=
      ⟨fun x hx => absurd hx List.not_mem_nil, A, hA, hs.perm (by rw [argPages]; simp), fun _ _ => rfl⟩
    simp only [wp_bind]
    refine wp_imp (fetchArgs_spec hlo hcur MAXARG 0 h₀) ?_
    rintro ⟨ok, argv⟩ m₂ ⟨hargs, A₂, hA₂, hs₂, hp₂⟩
    cases ok with
    | false =>
      simp only [Bool.false_eq_true, if_false, wp_bind]
      refine wp_imp (hfree hA₂ hs₂ hp₂) ?_
      intro _ m₃ hown
      exact ⟨hcur, hown⟩
    | true =>
      simp only [if_true, wp_bind]
      refine wp_imp (kexec_spec hlo ?_ hcur hA₂ hs₂) ?_
      · intro arg harg
        obtain ⟨x, hx, rfl⟩ := List.mem_map.mp harg
        exact hargs x hx
      · rintro r m₃ ⟨hsz, A₃, hA₃, hs₃, hp₃⟩
        refine wp_seq (hfree hA₃ hs₃ fun q hq =>
          (hp₃ q (mem_add.mpr (.inr hq))).trans (hp₂ q hq)) ?_
        intro _ m₄ hown
        exact ⟨hsz, hown⟩

end SysExec

end Xv6
