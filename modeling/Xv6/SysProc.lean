import Xv6.SysInv

/-! Making and taking down processes: `allocproc` and `freeproc`, for the system calls that use
them. -/
namespace Xv6.UserVm

/-- What `freeproc` leaves of a process. -/
def UProc.emptied (p : UProc) : UProc :=
  { p with trapframe := 0, pagetable := 0, sz := 0, parent := none, xstate := 0, state := .UNUSED }

theorem ProcOk.emptied {m : Mem} {p : UProc} (h : ∀ fd, p.ofile fd = none) : ProcOk m p.emptied 0 := by
  refine ⟨fun hu => absurd rfl hu, fun _ => ⟨rfl, rfl, rfl, rfl⟩, fun _ => h, fun hr => ?_, fun fd f hf => ?_⟩
  · cases hr
  · rw [show p.emptied.ofile fd = none from h fd] at hf
    cases hf

/-- The process `i` is gone, and the pages in use are `R`. -/
def Freed (lo i : ℕ) (R : Multiset ℕ) (s s' : Sys) : Prop :=
  ∃ m, s' = { s with mem := m, proc := update s.proc i (s.proc i).emptied } ∧
    Uses lo m R ∧ ∀ q ∈ R, m.page q = s.mem.page q

section Free

variable {lo i : ℕ} {X R : Multiset ℕ} {s : Sys} {E : VmPanic → Sys → Prop}

theorem freeproc_nothing (htf : (s.proc i).trapframe = 0) (hpt : (s.proc i).pagetable = 0)
    (hs : Uses lo s.mem R) : wp (freeproc i) (fun _ s' => Freed lo i R s s') E s := by
  simp only [freeproc, wp_bind, wp_myproc, htf, hpt, ne_eq, not_true_eq_false, if_false, wp_pure, wp_setProc]
  exact ⟨s.mem, rfl, hs, fun _ _ => rfl⟩

theorem freeproc_trapframe (hlo : 0 < lo) (hpt : (s.proc i).pagetable = 0)
    (hs : Uses lo s.mem ((s.proc i).trapframe ::ₘ R)) :
    wp (freeproc i) (fun _ s' => Freed lo i R s s') E s := by
  have htf : (s.proc i).trapframe ≠ 0 := by
    have hb := hs.bounds (mem_cons_self _ R)
    omega
  simp only [freeproc, wp_bind, wp_myproc, hpt, ne_eq, htf, not_true_eq_false, not_false_eq_true, if_false, if_true,
    wp_pure, wp_setProc, wp_vm]
  refine wp_imp (kfree_spec hs) ?_
  rintro _ m ⟨hs', hpage⟩
  refine ⟨m, rfl, hs', fun q hq => hpage q ?_⟩
  rintro rfl
  exact (nodup_cons.mp hs.nodup).1 hq

theorem freeproc_spec (hlo : 0 < lo) (ho : Owns s.mem (s.proc i).toSpace (s.proc i).trapframe X)
    (hsz : (s.proc i).sz ≤ TRAPFRAME) (hs : Uses lo s.mem (X + R)) :
    wp (freeproc i) (fun _ s' => Freed lo i R s s') E s := by
  obtain ⟨T, L, rfl, htree, hl⟩ := ho
  have hs' : Uses lo s.mem ((s.proc i).trapframe ::ₘ (T + (leaves L + R))) := by
    refine hs.perm ?_
    rw [← Multiset.singleton_add]
    abel
  have htf : (s.proc i).trapframe ≠ 0 := by
    have hb := hs'.bounds (mem_cons_self _ _)
    omega
  have hpt : (s.proc i).pagetable ≠ 0 := by
    have hb := hs'.bounds (mem_cons_of_mem (mem_add.mpr (.inl htree.root_mem)))
    omega
  simp only [freeproc, wp_bind, wp_myproc, ne_eq, htf, hpt, not_false_eq_true, if_true, wp_setProc, wp_vm]
  refine wp_imp (kfree_spec hs') ?_
  rintro _ m₁ ⟨hs₁, hpage⟩
  -- the trapframe is not a page of the table
  have hne {q : ℕ} (hq : q ∈ T + (leaves L + R)) : m₁.page q = s.mem.page q := by
    refine hpage q ?_
    rintro rfl
    exact (nodup_cons.mp hs'.nodup).1 hq
  have hk : UserKept lo s.mem (s.proc i).pagetable T L R m₁ :=
    ⟨htree.frame (fun q hq => hne (mem_add.mpr (.inl hq))), hs₁,
      fun q hq => hne (mem_add.mpr (.inr (mem_add.mpr (.inr hq))))⟩
  refine wp_imp (procFreepagetable_spec hsz hl.special hl.empty hk) ?_
  rintro _ m₂ ⟨hs₂, hrest⟩
  exact ⟨m₂, rfl, hs₂, hrest⟩

end Free

/-- Only memory and the process table have changed. -/
structure SameFiles (s s' : Sys) : Prop where
  file : s'.file = s.file
  pipe : s'.pipe = s.pipe
  iref : s'.iref = s.iref
  initproc : s'.initproc = s.initproc
  first : s'.first = s.first

theorem SameFiles.trans {s s₁ s₂ : Sys} (h : SameFiles s s₁) (h' : SameFiles s₁ s₂) : SameFiles s s₂ :=
  ⟨h'.file.trans h.file, h'.pipe.trans h.pipe, h'.iref.trans h.iref, h'.initproc.trans h.initproc,
    h'.first.trans h.first⟩

section Alloc

variable {lo i : ℕ} {boot : Multiset ℕ} {I : ℕ → Prop} {A A₀ : ℕ → Multiset ℕ} {c : ℕ → ℕ} {s s₀ s₁ s' : Sys}
  {E : VmPanic → Sys → Prop}

theorem Freed.sameFiles {R : Multiset ℕ} (h : Freed lo i R s s') : SameFiles s s' := by
  obtain ⟨m, rfl, -, -⟩ := h
  exact ⟨rfl, rfl, rfl, rfl, rfl⟩

theorem Acted.freed (h : Acted lo boot I A₀ s₀ A c s) (hi : i < NPROC) (hI : I i)
    (hof : ∀ fd, (s₁.proc i).ofile fd = none)
    (hs₁ : ∃ m p, s₁ = { s with mem := m, proc := update s.proc i p } ∧
      ∀ q ∈ rest boot A s i, m.page q = s.mem.page q)
    (hf : Freed lo i (rest boot A s i) s₁ s') : Acted lo boot I A₀ s₀ (update A i 0) c s' := by
  obtain ⟨m, p, rfl, hpage⟩ := hs₁
  obtain ⟨m', rfl, hs, hrest⟩ := hf
  simp only [update_self, update_idem] at hof ⊢
  exact h.put hi hI (.emptied hof) (hs.perm (zero_add _)) (fun q hq => (hrest q hq).trans (hpage q hq))

/-- The process `np` is new, with an address space of its own in the pages `X`. -/
structure NewProc (s : Sys) (np : ℕ) (X : Multiset ℕ) (s' : Sys) : Prop where
  lt : np < NPROC
  unused : (s.proc np).state = .UNUSED
  proc : s'.proc = update s.proc np { s.proc np with
    state := .USED, trapframe := (s'.proc np).trapframe, pagetable := (s'.proc np).pagetable }
  space : ∃ T L, X = T + (leaves L + {(s'.proc np).trapframe}) ∧
    IsTree s'.mem.page 2 (s'.proc np).pagetable T L ∧ Special L (s'.proc np).trapframe ∧ ∀ v < TFP, L v = 0

theorem allocproc_spec (hlo : 0 < lo) (h : Acted lo boot I A₀ s₀ A c s)
    (hI : ∀ j < NPROC, (s.proc j).state = .UNUSED → I j) :
    wp allocproc (fun r s' => SameFiles s s' ∧
      ((r = none ∧ Acted lo boot I A₀ s₀ A c s' ∧ ∀ j, (s'.proc j).state = (s.proc j).state) ∨
      ∃ np X, r = some np ∧ NewProc s np X s' ∧ Acted lo boot I A₀ s₀ (update A np X) c s')) E s := by
  rw [allocproc, wp_bind, wp_get]
  cases hfind : (List.range NPROC).find? (fun i => decide ((s.proc i).state = .UNUSED)) with
  | none => exact ⟨⟨rfl, rfl, rfl, rfl, rfl⟩, .inl ⟨rfl, h, fun _ => rfl⟩⟩
  | some i =>
    have hi : i < NPROC := List.mem_range.mp (List.mem_of_find?_eq_some hfind)
    have hu : (s.proc i).state = .UNUSED := by simpa using List.find?_some hfind
    have hIi := hI i hi hu
    have hold := h.procs i hi
    obtain ⟨hA, htf0, hpt0, hsz0⟩ := hold.unused hu
    have hof := hold.closed (.inl hu)
    have hs : Uses lo s.mem (rest boot A s i) := by
      refine (h.uses_rest hi).perm ?_
      rw [hA, zero_add]
    have hback {s₁ s' : Sys} (hf : Freed lo i (rest boot A s i) s₁ s') (m : Mem) (p : UProc)
        (hs₁ : s₁ = { s with mem := m, proc := update s.proc i p })
        (hof₁ : p.ofile = (s.proc i).ofile)
        (hpage : ∀ q ∈ rest boot A s i, m.page q = s.mem.page q) :
        SameFiles s s' ∧ Acted lo boot I A₀ s₀ A c s' ∧ ∀ j, (s'.proc j).state = (s.proc j).state := by
      have hacted := h.freed hi hIi (by rw [hs₁]; simpa [hof₁] using hof) ⟨m, p, hs₁, hpage⟩ hf
      rw [← hA, update_eq_self] at hacted
      refine ⟨?_, hacted, fun j => ?_⟩
      · have hsame : SameFiles s s₁ := by
          subst hs₁
          exact ⟨rfl, rfl, rfl, rfl, rfl⟩
        exact hsame.trans hf.sameFiles
      · obtain ⟨m', rfl, -, -⟩ := hf
        subst hs₁
        by_cases hj : j = i
        · subst hj
          simp [UProc.emptied, hu]
        · simp [hj]
    simp only [wp_bind, wp_setProc, wp_vm]
    refine wp_imp (kalloc_spec hs) ?_
    rintro _ m₁ (⟨rfl, hs₁, hpage⟩ | ⟨tf, rfl, hs₁, hfresh, hpage⟩)
    · simp only [wp_bind, wp_setProc]
      refine wp_imp (freeproc_nothing (by simp) (by simp [hpt0]) hs₁) ?_
      intro _ s' hf
      obtain ⟨hsame, hacted, hst⟩ := hback hf m₁ _ (by simp only [update_idem]; rfl) (by simp)
        (fun q _ => by rw [hpage])
      exact ⟨hsame, .inl ⟨rfl, hacted, hst⟩⟩
    have hpage₁ (q : ℕ) (hq : q ∈ rest boot A s i) : m₁.page q = s.mem.page q := by
      refine hpage q ?_
      rintro rfl
      exact hfresh hq
    simp only [wp_bind, wp_setProc, wp_vm, update_self]
    refine wp_imp (procPagetable_spec hs₁) ?_
    rintro _ m₂ (⟨rfl, hs₂, hrest⟩ | ⟨p, T, L, rfl, hsp, hz, hk⟩)
    · simp only [wp_bind, wp_setProc]
      refine wp_imp (freeproc_trapframe hlo (by simp) (R := rest boot A s i) (by simpa using hs₂)) ?_
      intro _ s' hf
      obtain ⟨hsame, hacted, hst⟩ := hback hf m₂ _ (by simp only [update_idem]; rfl) (by simp)
        (fun q hq => (hrest q (mem_cons_of_mem hq)).trans (hpage₁ q hq))
      exact ⟨hsame, .inl ⟨rfl, hacted, hst⟩⟩
    · simp only [wp_setProc, wp_pure, wp_bind, update_self, update_idem]
      refine ⟨⟨rfl, rfl, rfl, rfl, rfl⟩, .inr ⟨i, T + (leaves L + {tf}), rfl, ⟨hi, hu, by simp, ?_⟩, ?_⟩⟩
      · simp only [update_self]
        exact ⟨T, L, rfl, hk.tree, hsp, hz⟩
      · have hsz : pagesOf (s.proc i).sz = 0 := by rw [hsz0]; rfl
        refine h.put hi hIi ⟨fun _ => ⟨⟨T, L, rfl, hk.tree, hsp, fun v _ h2 => hz v h2⟩, ?_⟩, by simp, fun _ => hof, by simp,
          hold.fds⟩ (hk.uses.perm ?_) (fun q hq => (hk.rest q (mem_cons_of_mem hq)).trans (hpage₁ q hq))
        · show (s.proc i).sz ≤ TRAPFRAME
          rw [hsz0]
          exact zero_le
        · rw [← Multiset.singleton_add]
          abel

end Alloc

end Xv6.UserVm
