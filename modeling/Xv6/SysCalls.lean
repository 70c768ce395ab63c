import Xv6.SysProc

/-! Each system call keeps the processes, the open files and the memory in order, and touches
nothing of a process that runs elsewhere. -/
namespace Xv6.UserVm

/-- What a call of the processes `I` leaves, from `s` to `s'`. -/
def Settled (lo : ℕ) (boot : Multiset ℕ) (I : ℕ → Prop) (A : ℕ → Multiset ℕ) (s s' : Sys) : Prop :=
  ∃ A', Acted lo boot I A s A' (fdCount s'.proc) s'

section Acted

variable {lo i : ℕ} {boot : Multiset ℕ} {I I' : ℕ → Prop} {A A₀ : ℕ → Multiset ℕ} {c : ℕ → ℕ} {s s₀ : Sys}

theorem Acted.mono (h : Acted lo boot I A₀ s₀ A c s) (hI : ∀ j < NPROC, I j → I' j) :
    Acted lo boot I' A₀ s₀ A c s :=
  ⟨h.toSysInv, fun j hj hn => h.pages j hj (fun h' => hn (hI j hj h')),
    fun j hj hn => h.others j hj (fun h' => hn (hI j hj h')), fun j hj hn => h.same j hj (fun h' => hn (hI j hj h'))⟩

theorem ProcOk.parent {m : Mem} {p p' : UProc} {B : Multiset ℕ} (h : ProcOk m p B)
    (hp : { p' with parent := p.parent } = p) : ProcOk m p' B := by
  rw [← hp] at h
  exact ⟨h.used, h.unused, h.closed, h.cwd, h.fds⟩

theorem Acted.parents {proc : ℕ → UProc} (h : Acted lo boot I A₀ s₀ A c s)
    (hp : ∀ j, { proc j with parent := (s.proc j).parent } = s.proc j) :
    Acted lo boot I A₀ s₀ A c { s with proc := proc } := by
  refine ⟨⟨fun j hj => (h.procs j hj).parent (hp j), h.files, h.uses⟩, h.pages, fun j hj hn => ?_, h.same⟩
  have hold := h.others j hj hn
  rw [← hp j] at hold
  exact hold

end Acted

section Space

variable {lo i : ℕ} {boot : Multiset ℕ} {I : ℕ → Prop} {A A₀ : ℕ → Multiset ℕ} {c : ℕ → ℕ} {s s₀ : Sys} {R : Multiset ℕ}
  {E : VmPanic → Sys → Prop}

theorem SysInv.owns (h : SysInv lo boot A c s) (hi : i < NPROC) (hr : (s.proc i).state = .RUNNABLE) :
    Owns s.mem (s.proc i).toSpace (s.proc i).trapframe (A i) ∧ (s.proc i).sz ≤ TRAPFRAME :=
  (h.procs i hi).used (by rw [hr]; decide)

/-- A program on the address space of one of the processes. -/
theorem Acted.vm_spec {α : Type} {m : Vm α} (h : Acted lo boot I A₀ s₀ A c s) (hi : i < NPROC) (hI : I i)
    (hu : (s.proc i).state ≠ .UNUSED)
    (hm : wp m (fun _ m' => Owned lo s.mem (s.proc i).toSpace (s.proc i).trapframe (rest boot A s i) m')
      (fun _ _ => False) s.mem) :
    wp (vm m) (fun _ s' => s'.proc = s.proc ∧ ∃ A', Acted lo boot I A₀ s₀ A' c s') E s := by
  rw [wp_vm]
  exact wp_mono hm (fun _ m' ho => ⟨rfl, h.worked hi hI hu ho⟩) (fun _ _ h => h.elim)

theorem settled_space {m : Mem} {sp : Space} (h : SysInv lo boot A (fdCount s.proc) s) (hi : i < NPROC) (hI : I i)
    (hu : (s.proc i).state ≠ .UNUSED) (hsz : sp.sz ≤ TRAPFRAME)
    (ho : Owned lo s.mem sp (s.proc i).trapframe (rest boot A s i) m) :
    Settled lo boot I A s { s with mem := m, proc := update s.proc i { s.proc i with toSpace := sp } } := by
  obtain ⟨A', hA'⟩ := (Acted.refl h I).owned hi hI hu hsz ho
  refine ⟨A', ?_⟩
  have hcount : fdCount (update s.proc i { s.proc i with toSpace := sp }) = fdCount s.proc := by
    refine fdCount_congr (fun j _ => ?_)
    by_cases hj : j = i
    · subst hj
      rw [update_self]
    · rw [update_of_ne hj]
  rw [hcount]
  exact hA'

theorem settled_sz {m : Mem} {sz : ℕ} (h : SysInv lo boot A (fdCount s.proc) s) (hi : i < NPROC) (hI : I i)
    (hu : (s.proc i).state ≠ .UNUSED) (hsz : sz ≤ TRAPFRAME)
    (ho : Owned lo s.mem ⟨sz, (s.proc i).pagetable⟩ (s.proc i).trapframe (rest boot A s i) m) :
    Settled lo boot I A s { s with mem := m, proc := update s.proc i { s.proc i with sz := sz } } :=
  settled_space h hi hI hu hsz ho

variable {sp : Space} {tf : ℕ} {X : Multiset ℕ} {m : Mem} {E' : VmPanic → Mem → Prop}

theorem vmfault_owned (hsz : sp.sz ≤ TRAPFRAME) (ho : Owns m sp tf X) (hs : Uses lo m (X + R)) (va : ℕ) :
    wp (vmfault sp sp.pagetable va) (fun _ m' => Owned lo m sp tf R m') E' m := by
  obtain ⟨T, L, hl, hk⟩ := ho.kept hs
  refine wp_imp (vmfault_spec rfl hsz hk) ?_
  rintro _ m' ⟨T', L', hg, hk', -⟩
  exact .of_kept (hl.grown hg) hk'

theorem copyin_owned (hlo : 0 < lo) (hsz : sp.sz ≤ TRAPFRAME) (ho : Owns m sp tf X) (hs : Uses lo m (X + R))
    (srcva len : ℕ) :
    wp (Xv6.copyin sp sp.pagetable srcva len) (fun _ m' => Owned lo m sp tf R m') E' m := by
  obtain ⟨T, L, hl, hk⟩ := ho.kept hs
  refine wp_imp (copyin_spec hlo rfl hsz hl.special.hidden hk srcva len) ?_
  rintro _ m' ⟨T', L', hg, hk', -⟩
  exact .of_kept (hl.grown hg) hk'

theorem copyout_owned (hlo : 0 < lo) (hsz : sp.sz ≤ TRAPFRAME) (ho : Owns m sp tf X) (hs : Uses lo m (X + R))
    (dstva : ℕ) (src : List Byte) :
    wp (Xv6.copyout sp sp.pagetable dstva src) (fun _ m' => Owned lo m sp tf R m') E' m := by
  obtain ⟨T, L, hl, hk⟩ := ho.kept hs
  refine wp_imp (copyout_spec hlo hl.special.hidden (fun _ _ _ => .inl ⟨rfl, hsz, le_refl _⟩) hk) ?_
  rintro _ m' ⟨T', L', hg, hk', -⟩
  exact .of_kept (hl.grown hg) hk'

theorem userStore_owned (ho : Owns m sp tf X) (hs : Uses lo m (X + R)) (va : ℕ) (c : Byte) :
    wp (userStore sp.pagetable va c) (fun _ m' => Owned lo m sp tf R m') E' m := by
  have hsame : Owned lo m sp tf R m := .refl ho hs
  obtain ⟨T, L, hl, hk⟩ := ho.kept hs
  rw [userStore]
  refine wp_seq (walkaddr_spec hk.tree hk.uses) ?_
  rintro r m₁ ⟨rfl, hr⟩
  rw [wp_ite]
  split_ifs with h0
  · exact hsame
  obtain ⟨hva, hu, rfl⟩ := hr.resolve_left (fun h => h0 h.1)
  refine wp_seq (walk_spec false hva hk.tree hk.uses) ?_
  rintro r m₂ ⟨T', hw⟩
  obtain ⟨rfl, rfl⟩ := hw.same rfl
  cases r with
  | none => exact hsame
  | some ptr =>
    simp only [wp_bind, wp_load, wp_ite, wp_pure, wp_readPage, wp_writePage]
    split_ifs with hw
    · exact hsame
    · exact .of_kept hl (hk.write (hu.mem_leaves hl.special.hidden (maxva_page hva)))

theorem le_trapframe_of_pages {sz : ℕ} (h : pagesOf sz ≤ TFP) : sz ≤ TRAPFRAME := by
  rw [pagesOf, TFP_eq, PGSIZE] at h
  have hnum : TRAPFRAME = 2 ^ 38 - 8192 := rfl
  omega

theorem addInt_zero {sz : ℕ} (h : sz < 2 ^ 64) : addInt sz 0 = sz := by
  simpa [addInt] using h

end Space

section Files

variable {lo i fd f f0 f1 : ℕ} {boot : Multiset ℕ} {I : ℕ → Prop} {A A₀ A' : ℕ → Multiset ℕ} {c : ℕ → ℕ} {s s₀ s₁ : Sys}
  {E : VmPanic → Sys → Prop}

theorem running_open (hr : (s.proc i).state = .RUNNABLE) :
    ¬ ((s.proc i).state = .UNUSED ∨ (s.proc i).state = .ZOMBIE) := by
  rw [hr]
  decide

theorem fdalloc_spec (i f : ℕ) : wp (fdalloc i f) (fun r s' => (r = none ∧ s' = s) ∨
    ∃ fd, r = some fd ∧ fd < NOFILE ∧ (s.proc i).ofile fd = none ∧ s' = s.setFd i fd (some f)) E s := by
  rw [fdalloc, wp_bind, wp_myproc]
  cases hfind : (List.range NOFILE).find? (fun fd => decide ((s.proc i).ofile fd = none)) with
  | none => exact .inl ⟨rfl, rfl⟩
  | some fd =>
    exact .inr ⟨fd, rfl, List.mem_range.mp (List.mem_of_find?_eq_some hfind),
      by simpa using List.find?_some hfind, rfl⟩

theorem setFd_state (s : Sys) (i fd : ℕ) (v : Option ℕ) (j : ℕ) :
    ((s.setFd i fd v).proc j).state = (s.proc j).state := by
  by_cases hj : j = i
  · subst hj
    simp [Sys.setFd]
  · simp [Sys.setFd, hj]

theorem setFd_ofile (s : Sys) (i fd : ℕ) (v : Option ℕ) (j : ℕ) : ((s.setFd i fd v).proc j).ofile =
    if j = i then update (s.proc i).ofile fd v else (s.proc j).ofile := by
  by_cases hj : j = i
  · subst hj
    simp [Sys.setFd]
  · simp [Sys.setFd, hj]

theorem closeBoth_spec (h0 : f0 < NFILE) (h1 : f1 < NFILE) (hne : f0 ≠ f1) (hc0 : fdCount s.proc f0 = 0)
    (hc1 : fdCount s.proc f1 = 0) (hof : ∀ j, (s₁.proc j).ofile = (s.proc j).ofile)
    (h : Acted lo boot I A s A' (update (update (fdCount s.proc) f0 1) f1 1) s₁) :
    wp (do fileclose f0; fileclose f1) (fun _ s' => Settled lo boot I A s s') E s₁ := by
  refine wp_seq (h.fileclose h0 (by simp [hne])) ?_
  rintro _ s₂ ⟨hproc₂, h₂⟩
  refine wp_imp (h₂.fileclose h1 (by simp [hne.symm])) ?_
  rintro _ s₃ ⟨hproc₃, h₃⟩
  refine ⟨A', ?_⟩
  convert h₃ using 1
  rw [hproc₃, hproc₂, fdCount_congr (fun j _ => hof j)]
  funext g
  by_cases hg1 : g = f1
  · subst hg1
    simp [hne.symm, hc1]
  · by_cases hg0 : g = f0
    · subst hg0
      simp [hg1, hc0]
    · simp [hg0, hg1]

end Files

section Procs

variable {lo i : ℕ} {boot : Multiset ℕ} {I : ℕ → Prop} {A : ℕ → Multiset ℕ} {s : Sys} {E : VmPanic → Sys → Prop}

theorem fdCount_setProc {proc : ℕ → UProc} {p : UProc} (hp : p.ofile = (proc i).ofile) :
    fdCount (update proc i p) = fdCount proc := by
  refine fdCount_congr (fun j _ => ?_)
  by_cases hj : j = i
  · subst hj
    rw [update_self, hp]
  · rw [update_of_ne hj]

theorem userinit_spec (hlo : 0 < lo) (h : SysInv lo boot A (fdCount s.proc) s)
    (hI : ∀ j < NPROC, (s.proc j).state = .UNUSED → I j) :
    wp userinit (fun _ s' => Settled lo boot I A s s')
      (fun e s' => e = .nullProc ∧ s'.mem.freedTwice = false) s := by
  refine wp_seq (allocproc_spec hlo (Acted.refl h I) hI) ?_
  rintro _ s₁ ⟨-, ⟨rfl, hacted, -⟩ | ⟨np, X, rfl, hnew, hacted⟩⟩
  · exact ⟨rfl, hacted.uses.once⟩
  simp only [idup, wp_bind, wp_modify, wp_pure, wp_setProc]
  have hold := hacted.procs np hnew.lt
  have hst : (s₁.proc np).state = .USED := by rw [hnew.proc, update_self]
  have hset := hacted.setProc (p := { s₁.proc np with cwd := some rootInode, state := .RUNNABLE }) hnew.lt
    (hI np hnew.lt hnew.unused) ⟨fun _ => hold.used (by rw [hst]; decide), by simp, fun h0 => ?_, fun _ => rfl, hold.fds⟩
  swap
  · rcases h0 with h0 | h0 <;> cases h0
  have hcount : fdCount s₁.proc = fdCount s.proc := by
    rw [hnew.proc]
    exact fdCount_setProc rfl
  rw [← hcount, ← fdCount_setProc (p := { s₁.proc np with cwd := some rootInode, state := .RUNNABLE }) rfl] at hset
  refine ⟨update A np X, ?_⟩
  simp only [update_self, update_idem]
  exact ⟨⟨hset.procs, hset.files, hset.uses⟩, hset.pages, hset.others, hset.same⟩

end Procs

section Calls

variable {lo i : ℕ} {boot : Multiset ℕ} {I : ℕ → Prop} {A : ℕ → Multiset ℕ} {s : Sys} {E : VmPanic → Sys → Prop}
  (h : SysInv lo boot A (fdCount s.proc) s) (hi : i < NPROC) (hI : I i) (hr : (s.proc i).state = .RUNNABLE)
include h hi hI hr

theorem onSpace_spec {α : Type} {m : Space → Vm α}
    (hm : wp (m (s.proc i).toSpace)
      (fun _ m' => Owned lo s.mem (s.proc i).toSpace (s.proc i).trapframe (rest boot A s i) m')
      (fun _ _ => False) s.mem) :
    wp (onSpace i m) (fun _ s' => Settled lo boot I A s s') E s := by
  rw [onSpace, wp_bind, wp_myproc, run]
  refine wp_seq ((Acted.refl h I).vm_spec hi hI (by rw [hr]; decide) hm) ?_
  rintro _ s' ⟨hproc, A', hA'⟩
  rw [wp_pure, Settled, hproc]
  exact ⟨A', hA'⟩

theorem growproc_spec (n : BitVec 32) :
    wp (growproc i n) (fun _ s' => Settled lo boot I A s s')
      (fun e s' => e = .remap ∧ (0 < n.toInt ∧ TRAPFRAME < addInt (s.proc i).sz n) ∧ s'.mem.freedTwice = false) s := by
  obtain ⟨ho, hsz⟩ := h.owns hi hr
  have hacted := Acted.refl h I
  have hu : (s.proc i).state ≠ .UNUSED := by rw [hr]; decide
  obtain ⟨T, L, hl, hk⟩ := ho.kept (h.uses_rest hi)
  have hend := hl.empty
  simp only [growproc, wp_bind, wp_myproc, wp_ite, wp_vm, wp_pure, wp_setProc]
  split_ifs with hpos hneg
  · refine wp_mono (uvmalloc_spec (by decide) hl.special.valid hsz hend hk) ?_ ?_
    · rintro r m (⟨rfl, hlt, hk'⟩ | ⟨rfl, hle, hn, T', L', hf, hk'⟩ | ⟨rfl, T', hk'⟩)
      · rw [if_neg (by omega)]
        exact settled_sz h hi hI hu hsz (.of_kept hl hk')
      · have hl' : Layout L' (s.proc i).trapframe (addInt (s.proc i).sz n) := by
          refine ⟨hl.special.filled hf hn, fun v h1 h2 => ?_⟩
          rw [hf.outside v (by omega)]
          exact hend v (le_trans (pagesOf_mono hle) h1) h2
        split_ifs with h0
        · have hsz0 : addInt (s.proc i).sz n = (s.proc i).sz := by omega
          rw [hsz0] at hl'
          obtain ⟨A', hA'⟩ := hacted.worked hi hI hu (.of_kept hl' hk')
          exact ⟨A', hA'⟩
        · exact settled_sz h hi hI hu (le_trapframe_of_pages hn) (Owned.of_kept hl' hk' : Owned lo _ ⟨_, _⟩ _ _ _)
      · rw [if_pos rfl]
        obtain ⟨A', hA'⟩ := hacted.worked hi hI hu (.of_kept hl hk')
        exact ⟨A', hA'⟩
    · rintro e m ⟨rfl, hn, -, P, hP⟩
      refine ⟨rfl, ⟨hpos, ?_⟩, hP.once⟩
      by_contra hle
      have := pagesOf_le (not_lt.mp hle)
      omega
  · refine wp_imp (uvmdealloc_spec hsz hk.tree hk.uses) ?_
    rintro r m ⟨rfl, hk'⟩
    refine settled_sz h hi hI hu (le_trans (min_le_left _ _) hsz)
      (Owned.of_kept ⟨hl.special.clear (pagesOf_le hsz), ?_⟩ hk' :
        Owned lo _ ⟨min (s.proc i).sz (addInt (s.proc i).sz n), _⟩ _ _ _)
    intro v h1 h2
    rw [clear]
    split_ifs with hv
    · rfl
    · refine hend v ?_ h2
      rcases le_total (s.proc i).sz (addInt (s.proc i).sz n) with hle | hle
      · rwa [min_eq_left hle] at h1
      · rw [min_eq_right hle] at h1
        by_contra hlt
        exact hv ⟨h1, not_le.mp hlt⟩
  · exact ⟨A, hacted⟩

theorem sysSbrk_spec (n : BitVec 32) (eager : Bool) :
    wp (sysSbrk i n eager)
      (fun _ s' => (s'.proc i).sz ≤ TRAPFRAME ∨ (0 < n.toInt → addInt (s.proc i).sz n ≤ TRAPFRAME) →
        Settled lo boot I A s s')
      (fun e s' => e = .remap ∧ (0 < n.toInt ∧ TRAPFRAME < addInt (s.proc i).sz n) ∧ s'.mem.freedTwice = false) s := by
  simp only [sysSbrk, wp_bind, wp_myproc, wp_ite, wp_pure, wp_setProc]
  split_ifs with hgrow hwrap
  · exact wp_imp (growproc_spec h hi hI hr n) (fun _ _ hs _ => hs)
  · exact fun _ => ⟨A, .refl h I⟩
  · -- a lazy one takes no pages
    intro hfits
    obtain ⟨⟨T, L, hA, ht, hl⟩, hold⟩ := h.owns hi hr
    have hsz : addInt (s.proc i).sz n ≤ TRAPFRAME := by
      simp only [update_self] at hfits
      rcases hfits with hsz | hfits
      · exact hsz
      by_cases hpos : 0 < n.toInt
      · exact hfits hpos
      · have hn : n = 0 := BitVec.eq_of_toInt_eq (le_antisymm (not_lt.mp hpos) (not_lt.mp (not_or.mp hgrow).2))
        rw [hn, addInt_zero (lt_of_le_of_lt hold (by decide))]
        exact hold
    refine settled_sz h hi hI (by rw [hr]; decide) hsz ⟨A i, ⟨T, L, hA, ht, hl.special, fun v h1 h2 => ?_⟩, h.uses_rest hi, fun _ _ => rfl⟩
    exact hl.empty v (le_trans (pagesOf_mono (not_lt.mp hwrap)) h1) h2

theorem execProc_spec {m : UProc → Vm (Option Space)}
    (hm : wp (m (s.proc i)) (fun r m' => (r.getD (s.proc i).toSpace).sz ≤ TRAPFRAME ∧
      Owned lo s.mem (r.getD (s.proc i).toSpace) (s.proc i).trapframe (rest boot A s i) m') (fun _ _ => False) s.mem) :
    wp (execProc i m) (fun _ s' => Settled lo boot I A s s') E s := by
  have hu : (s.proc i).state ≠ .UNUSED := by rw [hr]; decide
  rw [execProc, wp_bind, wp_myproc, wp_bind, wp_vm]
  refine wp_mono hm ?_ (fun _ _ h => h.elim)
  rintro (_ | sp) m' ⟨hsz, ho⟩
  · exact (Acted.refl h I).worked hi hI hu ho
  · exact settled_space h hi hI hu hsz ho

theorem sysClose_spec (fd : ℕ) : wp (sysClose i fd) (fun _ s' => Settled lo boot I A s s') E s := by
  simp only [sysClose, argfd, wp_bind, wp_myproc, wp_ite, wp_pure]
  split_ifs with hfd
  · exact ⟨A, .refl h I⟩
  cases hv : (s.proc i).ofile fd with
  | none => exact ⟨A, .refl h I⟩
  | some f =>
    have hfd' := not_le.mp hfd
    obtain ⟨hpos, hcount⟩ := fdCount_close hi hfd' hv
    rw [wp_bind]
    show wp (fileclose f) _ E (s.setFd i fd none)
    have hset := (Acted.refl h I).setFd hi hI (running_open hr) hfd' (v := none) (by simp)
    refine wp_imp (hset.fileclose ((h.procs i hi).fds fd f hv).2 hpos) ?_
    rintro _ s' ⟨hproc, hacted⟩
    rw [Settled, hproc]
    rw [← hcount] at hacted
    exact ⟨A, hacted⟩

theorem sysDup_spec (fd : ℕ) : wp (sysDup i fd) (fun _ s' => Settled lo boot I A s s') E s := by
  simp only [sysDup, argfd, wp_bind, wp_myproc, wp_ite, wp_pure]
  split_ifs with hfd
  · exact ⟨A, .refl h I⟩
  cases hv : (s.proc i).ofile fd with
  | none => exact ⟨A, .refl h I⟩
  | some f =>
    have hf := ((h.procs i hi).fds fd f hv).2
    refine wp_seq (fdalloc_spec i f) ?_
    rintro _ s₁ (⟨rfl, rfl⟩ | ⟨fd', rfl, hfd', hnone, rfl⟩)
    · exact ⟨A, .refl h I⟩
    have hset := (Acted.refl h I).setFd hi hI (running_open hr) hfd' (v := some f) (fun g hg => Option.some.inj hg ▸ hf)
    refine wp_imp (hset.filedup hf (fdCount_close hi (not_le.mp hfd) hv).1) ?_
    rintro _ s' ⟨hproc, -, hacted⟩
    rw [Settled, hproc]
    rw [← fdCount_open hi hfd' hnone f] at hacted
    exact ⟨A, hacted⟩

theorem sysOpenFile_spec (device : Bool) : wp (sysOpenFile i device) (fun _ s' => Settled lo boot I A s s') E s := by
  refine wp_seq (filealloc_spec h.kept) ?_
  rintro _ s₁ (⟨rfl, rfl⟩ | ⟨f, rfl, hf, hc, ht, hfile, hk⟩)
  · exact ⟨A, .refl h I⟩
  have hacted := (Acted.refl h I).files_kept hk
  refine wp_seq (fdalloc_spec i f) ?_
  rintro _ s₂ (⟨rfl, rfl⟩ | ⟨fd, rfl, hfd, hnone, rfl⟩)
  · refine wp_imp (hacted.fileclose hf (by simp)) ?_
    rintro _ s' ⟨hproc, h'⟩
    refine ⟨A, ?_⟩
    rw [hproc, hk.proc]
    rwa [update_self, Nat.sub_self, update_idem, ← hc, update_eq_self] at h'
  · have hset := hacted.setFd hi hI (running_open (by rw [hk.proc, hr])) hfd (v := some f)
      (fun g hg => Option.some.inj hg ▸ hf)
    have hnot : (s₁.file f).type ≠ .FD_PIPE := by
      rw [hfile, update_self, ht]
      decide
    have hcount := fdCount_open hi hfd hnone f
    rw [show fdCount s₁.proc = fdCount s.proc by rw [hk.proc], hc] at hcount
    have htype : (if device then FileType.FD_DEVICE else .FD_INODE) ≠ .FD_PIPE := by cases device <;> decide
    rw [wp_setFile]
    have hpipe : pipeSet (update s₁.file f
        { s₁.file f with type := if device then .FD_DEVICE else .FD_INODE }) = pipeSet s₁.file := by
      ext pi
      rw [mem_pipeSet, mem_pipeSet]
      simp only [isEnd_setType hnot htype]
    refine ⟨A, ⟨hset.procs, ?_, ?_⟩, hset.pages, hset.others, hset.same⟩
    · show FileInv _ _ (fdCount (update s₁.proc i _))
      rw [hcount]
      exact hset.files.setType hnot htype (by simp)
    · exact hset.uses.perm (congrArg (fun Z : Finset ℕ => procPages A + boot + Z.val) hpipe)

theorem sysPipe_spec (hlo : 0 < lo) (fdarray : ℕ) : wp (sysPipe i fdarray) (fun _ s' => Settled lo boot I A s s') E s := by
  refine wp_seq (pipealloc_spec h.kept) ?_
  rintro _ s₁ (⟨rfl, hk⟩ | ⟨f0, f1, rfl, h0, h1, hne, hc0, hc1, hk⟩)
  · refine ⟨A, ?_⟩
    rw [hk.proc]
    exact (Acted.refl h I).files_kept hk
  have hacted₁ := (Acted.refl h I).files_kept hk
  have hr₁ : (s₁.proc i).state = .RUNNABLE := by rw [hk.proc, hr]
  refine wp_seq (fdalloc_spec i f0) ?_
  rintro _ s₂ (⟨rfl, rfl⟩ | ⟨fd0, rfl, hfd0, hnone0, rfl⟩)
  · exact closeBoth_spec h0 h1 hne hc0 hc1 (fun j => by rw [hk.proc]) hacted₁
  have hacted₂ := hacted₁.setFd hi hI (running_open hr₁) hfd0 (v := some f0) (fun g hg => Option.some.inj hg ▸ h0)
  have hr₂ : ((s₁.setFd i fd0 (some f0)).proc i).state = .RUNNABLE := by rw [setFd_state, hr₁]
  refine wp_seq (fdalloc_spec i f1) ?_
  rintro _ s₃ (⟨rfl, rfl⟩ | ⟨fd1, rfl, hfd1, hnone1, rfl⟩)
  · refine wp_seq (P := fun _ s' => s' = (s₁.setFd i fd0 (some f0)).setFd i fd0 none) rfl ?_
    rintro _ _ rfl
    refine closeBoth_spec h0 h1 hne hc0 hc1 (fun j => ?_) (hacted₂.setFd hi hI (running_open hr₂) hfd0 (by simp))
    rw [setFd_ofile, setFd_ofile, setFd_ofile, if_pos rfl, update_idem, ← hk.proc]
    split_ifs with hj
    · rw [hj, ← hnone0, update_eq_self]
    · rfl
  have hacted₃ := hacted₂.setFd hi hI (running_open hr₂) hfd1 (v := some f1) (fun g hg => Option.some.inj hg ▸ h1)
  have hr₃ : (((s₁.setFd i fd0 (some f0)).setFd i fd1 (some f1)).proc i).state = .RUNNABLE := by
    rw [setFd_state, hr₂]
  have hcount : fdCount ((s₁.setFd i fd0 (some f0)).setFd i fd1 (some f1)).proc =
      update (update (fdCount s.proc) f0 1) f1 1 := by
    have hcount0 : fdCount (s₁.setFd i fd0 (some f0)).proc = update (fdCount s.proc) f0 1 := by
      rw [Sys.setFd, fdCount_open hi hfd0 hnone0, hk.proc, hc0]
    rw [Sys.setFd, fdCount_open hi hfd1 hnone1, hcount0, update_of_ne hne.symm, hc1]
  have hof (j : ℕ) : ((((s₁.setFd i fd0 (some f0)).setFd i fd1 (some f1)).setFd i fd0 none).setFd i fd1 none |>.proc j).ofile =
      (s.proc j).ofile := by
    have hne' : fd1 ≠ fd0 := by
      rintro rfl
      simp [setFd_ofile] at hnone1
    simp only [setFd_ofile, if_true, ← hk.proc]
    split_ifs with hj
    · rw [setFd_ofile, if_pos rfl, update_of_ne hne'] at hnone1
      funext k
      by_cases hk1 : k = fd1
      · subst hk1
        simp [hj, hnone1]
      · by_cases hk0 : k = fd0
        · subst hk0
          simp [hk1, hj, hnone0]
        · simp [hk1, hk0, hj]
    · rfl
  generalize (s₁.setFd i fd0 (some f0)).setFd i fd1 (some f1) = s₃ at *
  -- from here on only memory changes, until the descriptors are closed again
  have hcopy {s₄ : Sys} {A₄ : ℕ → Multiset ℕ} (h₄ : Acted lo boot I A s A₄ (fdCount s₃.proc) s₄)
      (hp₄ : s₄.proc = s₃.proc) (dstva : ℕ) (src : List Byte) :
      wp (vm (Xv6.copyout (s₃.proc i).toSpace (s₃.proc i).pagetable dstva src)) (fun _ s' => s'.proc = s₃.proc ∧
        ∃ A', Acted lo boot I A s A' (fdCount s₃.proc) s') E s₄ := by
    have hr₄ : (s₄.proc i).state = .RUNNABLE := by rw [hp₄, hr₃]
    obtain ⟨ho, hsz⟩ := h₄.owns hi hr₄
    have hspec := h₄.vm_spec (E := E) hi hI (by rw [hr₄]; decide)
      (copyout_owned hlo hsz ho (h₄.uses_rest hi) dstva src)
    rwa [hp₄] at hspec
  rw [← hcount] at hacted₃
  rw [wp_bind, wp_myproc]
  refine wp_seq (hcopy hacted₃ rfl fdarray _) ?_
  rintro ok0 s₄ ⟨hp₄, A₄, h₄⟩
  refine wp_seq (P := fun _ s' => s'.proc = s₃.proc ∧ ∃ A', Acted lo boot I A s A' (fdCount s₃.proc) s') ?_ ?_
  · cases ok0 with
    | false => exact ⟨hp₄, A₄, h₄⟩
    | true => exact hcopy h₄ hp₄ _ _
  rintro ok s₅ ⟨hp₅, A₅, h₅⟩
  have hr₅ : (s₅.proc i).state = .RUNNABLE := by rw [hp₅, hr₃]
  cases ok with
  | true =>
    refine ⟨A₅, ?_⟩
    rw [hp₅]
    exact h₅
  | false =>
    refine wp_seq (P := fun _ s' => s' = s₅.setFd i fd0 none) rfl ?_
    rintro _ _ rfl
    refine wp_seq (P := fun _ s' => s' = (s₅.setFd i fd0 none).setFd i fd1 none) rfl ?_
    rintro _ _ rfl
    rw [hcount] at h₅
    refine closeBoth_spec h0 h1 hne hc0 hc1 (fun j => ?_) ((h₅.setFd hi hI (running_open hr₅) hfd0 (v := none)
      (by simp)).setFd hi hI (running_open (by rw [setFd_state, hr₅])) hfd1 (v := none) (by simp))
    rw [← hof j]
    simp only [setFd_ofile, hp₅]

theorem kexit_spec (status : BitVec 32) :
    wp (kexit i status) (fun _ s' => Settled lo boot I A s s') (fun e s' => e = .initExiting ∧ s' = s) s := by
  rw [kexit, wp_bind, wp_get, wp_ite]
  split_ifs with hinit
  · exact ⟨rfl, rfl⟩
  let J (fd : ℕ) (s' : Sys) : Prop := Acted lo boot I A s A (fdCount s'.proc) s' ∧
    (s'.proc i).state = .RUNNABLE ∧ ∀ k < fd, (s'.proc i).ofile k = none
  have hloop {f : ℕ → Os Unit} (hf : ∀ fd s', fd < NOFILE → J fd s' →
      wp (f fd) (fun _ s' => J (fd + 1) s') (fun e s' => e = .initExiting ∧ s' = s) s') :
      wp (loop f NOFILE 0) (fun _ s' => J NOFILE s') (fun e s' => e = .initExiting ∧ s' = s) s := by
    have h := wp_loop (I := J) NOFILE 0 (fun fd s' _ hfd => hf fd s' (by rwa [zero_add] at hfd)) ⟨.refl h I, hr, by simp⟩
    rwa [zero_add] at h
  refine wp_seq (hloop ?_) ?_
  · rintro fd s₁ hfd ⟨hacted, hr₁, hclosed⟩
    rw [wp_bind, wp_myproc]
    cases hv : (s₁.proc i).ofile fd with
    | none =>
      refine ⟨hacted, hr₁, fun k hk => ?_⟩
      rcases Nat.lt_succ_iff_lt_or_eq.mp hk with hk | rfl
      · exact hclosed k hk
      · exact hv
    | some f =>
      obtain ⟨hpos, hcount⟩ := fdCount_close hi hfd hv
      refine wp_seq (hacted.fileclose ((hacted.procs i hi).fds fd f hv).2 hpos) ?_
      rintro _ s₂ ⟨hproc, h₂⟩
      rw [← hcount, ← hproc] at h₂
      have hr₂ : (s₂.proc i).state = .RUNNABLE := by rw [hproc, hr₁]
      refine ⟨h₂.setFd (v := none) hi hI (running_open hr₂) hfd (by simp), ?_, fun k hk => ?_⟩
      · exact (setFd_state s₂ i fd none i).trans hr₂
      · show ((s₂.setFd i fd none).proc i).ofile k = none
        rw [setFd_ofile, if_pos rfl, hproc]
        by_cases hkf : k = fd
        · rw [hkf, update_self]
        · rw [update_of_ne hkf]
          exact hclosed k (by omega)
  rintro _ s₁ ⟨hacted, hr₁, hclosed⟩
  have hproc := hacted.procs i hi
  have hof (fd : ℕ) : (s₁.proc i).ofile fd = none := by
    cases hv : (s₁.proc i).ofile fd with
    | none => rfl
    | some f => exact hv.symm.trans (hclosed fd (hproc.fds fd f hv).1)
  obtain ⟨ip, hip⟩ := Option.isSome_iff_exists.mp (hproc.cwd hr₁)
  simp only [wp_bind, wp_myproc, hip, iput, reparent, wp_modify, wp_setProc]
  -- the process is a zombie; then some parents change
  have hzombie := hacted.setProc (p := { s₁.proc i with cwd := none, xstate := status, state := .ZOMBIE }) hi hI
    ⟨fun _ => hproc.used (by rw [hr₁]; decide), by simp, fun _ => hof, by simp, hproc.fds⟩
  rw [← fdCount_setProc (p := { s₁.proc i with cwd := none, xstate := status, state := .ZOMBIE }) rfl] at hzombie
  have hparents (proc : ℕ → UProc) (hp : ∀ j, { proc j with parent := (update s₁.proc i
      { s₁.proc i with cwd := none, xstate := status, state := .ZOMBIE } j).parent } =
      update s₁.proc i { s₁.proc i with cwd := none, xstate := status, state := .ZOMBIE } j) (iref : ℕ → ℕ) :
      Settled lo boot I A s { s₁ with proc := proc, iref := iref } := by
    have h' := hzombie.parents hp
    refine ⟨A, ?_⟩
    have hof' (j : ℕ) : (proc j).ofile = _ := (congrArg UProc.ofile (hp j) :)
    rw [fdCount_congr (fun j _ => hof' j)]
    exact ⟨⟨h'.procs, h'.files, h'.uses⟩, h'.pages, h'.others, h'.same⟩
  refine hparents _ (fun j => ?_) _
  by_cases hj : j = i
  · subst hj
    simp only [update_self]
    split_ifs <;> rfl
  · simp only [update_of_ne hj]
    split_ifs <;> rfl

theorem kwait_spec (hlo : 0 < lo) (hz : ∀ j < NPROC, (s.proc j).state = .ZOMBIE → I j) (addr : ℕ) :
    wp (kwait i addr) (fun _ s' => Settled lo boot I A s s') E s := by
  rw [kwait, wp_bind, wp_get]
  cases hfind : (List.range NPROC).find? (fun j => decide ((s.proc j).parent = some i ∧ (s.proc j).state = .ZOMBIE)) with
  | none => exact ⟨A, .refl h I⟩
  | some j =>
    have hj : j < NPROC := List.mem_range.mp (List.mem_of_find?_eq_some hfind)
    have hzombie : (s.proc j).state = .ZOMBIE := by
      have hfound := List.find?_some hfind
      simp only [decide_eq_true_eq] at hfound
      exact hfound.2
    obtain ⟨ho, hsz⟩ := h.owns hi hr
    refine wp_seq (P := fun _ s' => s'.proc = s.proc ∧ ∃ A', Acted lo boot I A s A' (fdCount s.proc) s') ?_ ?_
    · split_ifs
      · exact (Acted.refl h I).vm_spec hi hI (by rw [hr]; decide)
          (copyout_owned hlo hsz ho (h.uses_rest hi) addr _)
      · exact ⟨rfl, A, .refl h I⟩
    rintro ok s₁ ⟨hproc, A₁, h₁⟩
    cases ok with
    | false =>
      refine ⟨A₁, ?_⟩
      rw [hproc]
      exact h₁
    | true =>
      have hzombie₁ : (s₁.proc j).state = .ZOMBIE := by rw [hproc, hzombie]
      obtain ⟨ho₁, hsz₁⟩ := (h₁.procs j hj).used (by rw [hzombie₁]; decide)
      refine wp_imp (freeproc_spec hlo ho₁ hsz₁ (h₁.uses_rest hj)) ?_
      intro _ s₂ hf
      have hof := (h₁.procs j hj).closed (.inr hzombie₁)
      have hfreed := h₁.freed hj (hz j hj hzombie) hof ⟨s₁.mem, s₁.proc j, by rw [update_eq_self], fun _ _ => rfl⟩ hf
      obtain ⟨m, rfl, -, -⟩ := hf
      refine ⟨update A₁ j 0, ?_⟩
      rw [fdCount_setProc (p := (s₁.proc j).emptied) rfl, show fdCount s₁.proc = fdCount s.proc by rw [hproc]]
      exact hfreed

end Calls

end Xv6.UserVm
