import Xv6.SysFile
import Xv6.ExecSpace

/-! What holds of processes, open files and memory between two system calls, and during one: every
page is free, or in the page table, the memory or the trapframe of one process, or a pipe, or it was
taken when the kernel started. -/
namespace Xv6.UserVm

section Descriptors

def fdRefs (ofile : ℕ → Option ℕ) (f : ℕ) : ℕ :=
  ∑ fd ∈ Finset.range NOFILE, if ofile fd = some f then 1 else 0

/-- How many descriptors refer to the file `f`. -/
def fdCount (proc : ℕ → UProc) (f : ℕ) : ℕ := ∑ i ∈ Finset.range NPROC, fdRefs (proc i).ofile f

variable {proc proc' : ℕ → UProc} {p : UProc} {ofile : ℕ → Option ℕ} {i fd f g : ℕ} {v : Option ℕ}

theorem fdCount_congr (h : ∀ i < NPROC, (proc' i).ofile = (proc i).ofile) :
    fdCount proc' = fdCount proc := by
  funext f
  refine Finset.sum_congr rfl (fun i hi => ?_)
  rw [h i (Finset.mem_range.mp hi)]

theorem fdRefs_update (ofile : ℕ → Option ℕ) (v : Option ℕ) (f : ℕ) (hfd : fd < NOFILE) :
    fdRefs (update ofile fd v) f + (if ofile fd = some f then 1 else 0) =
      (if v = some f then 1 else 0) + fdRefs ofile f :=
  sum_update_add _ (fun w => if w = some f then 1 else 0) ofile v (Finset.mem_range.mpr hfd)

theorem fdCount_update (proc : ℕ → UProc) (p : UProc) (f : ℕ) (hi : i < NPROC) :
    fdCount (update proc i p) f + fdRefs (proc i).ofile f =
      fdRefs p.ofile f + fdCount proc f :=
  sum_update_add _ (fun q : UProc => fdRefs q.ofile f) proc p (Finset.mem_range.mpr hi)

theorem fdCount_open (hi : i < NPROC) (hfd : fd < NOFILE) (hnone : (proc i).ofile fd = none) (g : ℕ) :
    fdCount (update proc i { proc i with ofile := update (proc i).ofile fd (some g) }) =
      update (fdCount proc) g (fdCount proc g + 1) := by
  generalize hp : { proc i with ofile := update (proc i).ofile fd (some g) } = p
  funext f
  have hcount := fdCount_update proc p f hi
  rw [show p.ofile = update (proc i).ofile fd (some g) by rw [← hp]] at hcount
  have hrefs := fdRefs_update (proc i).ofile (some g) f hfd
  rw [hnone, if_neg (by simp)] at hrefs
  by_cases hf : f = g
  · subst hf
    rw [if_pos rfl] at hrefs
    rw [update_self]
    omega
  · rw [if_neg (by simpa using fun h => hf h.symm)] at hrefs
    rw [update_of_ne hf]
    omega

theorem fdCount_close (hi : i < NPROC) (hfd : fd < NOFILE) (hsome : (proc i).ofile fd = some g) :
    0 < fdCount proc g ∧
    fdCount (update proc i { proc i with ofile := update (proc i).ofile fd none }) =
      update (fdCount proc) g (fdCount proc g - 1) := by
  generalize hp : { proc i with ofile := update (proc i).ofile fd none } = p
  have hcount (f : ℕ) := fdCount_update proc p f hi
  rw [show p.ofile = update (proc i).ofile fd none by rw [← hp]] at hcount
  have hrefs (f : ℕ) := fdRefs_update (proc i).ofile none f hfd
  constructor
  · have hg := hrefs g
    rw [hsome, if_pos rfl, if_neg (Option.some_ne_none g).symm] at hg
    have hg' := hcount g
    omega
  · funext f
    have hf' := hrefs f
    rw [hsome, if_neg (Option.some_ne_none f).symm] at hf'
    by_cases hf : f = g
    · subst hf
      rw [if_pos rfl] at hf'
      rw [update_self]
      have := hcount f
      omega
    · rw [if_neg (by simpa using fun h => hf h.symm)] at hf'
      rw [update_of_ne hf]
      have := hcount f
      omega

end Descriptors

section Pages

@[irreducible] def procPages (A : ℕ → Multiset ℕ) : Multiset ℕ := ∑ i ∈ Finset.range NPROC, A i

/-- The pages of the processes other than `i`. -/
@[irreducible] def otherPages (A : ℕ → Multiset ℕ) (i : ℕ) : Multiset ℕ :=
  ∑ j ∈ (Finset.range NPROC).erase i, A j

variable {A : ℕ → Multiset ℕ} {X : Multiset ℕ} {i j q : ℕ}

theorem procPages_split (hi : i < NPROC) : procPages A = A i + otherPages A i := by
  rw [procPages, otherPages, Finset.add_sum_erase _ _ (Finset.mem_range.mpr hi)]

theorem otherPages_update : otherPages (update A i X) i = otherPages A i := by
  rw [otherPages, otherPages]
  refine Finset.sum_congr rfl (fun j hj => ?_)
  rw [update_of_ne (Finset.ne_of_mem_erase hj)]

theorem procPages_update (hi : i < NPROC) :
    procPages (update A i X) = X + otherPages A i := by
  rw [procPages_split hi, update_self, otherPages_update]

theorem mem_otherPages (hj : j < NPROC) (hji : j ≠ i) (hq : q ∈ A j) : q ∈ otherPages A i := by
  rw [otherPages, Multiset.mem_sum]
  exact ⟨j, Finset.mem_erase.mpr ⟨hji, Finset.mem_range.mpr hj⟩, hq⟩

theorem otherPages_split (hj : j < NPROC) (hji : j ≠ i) : ∃ Q, otherPages A i = A j + Q := by
  rw [otherPages]
  exact ⟨_, (Finset.add_sum_erase _ _ (Finset.mem_erase.mpr ⟨hji, Finset.mem_range.mpr hj⟩)).symm⟩

theorem mem_procPages (hj : j < NPROC) (hq : q ∈ A j) : q ∈ procPages A := by
  rw [procPages, Multiset.mem_sum]
  exact ⟨j, Finset.mem_range.mpr hj, hq⟩

end Pages

/-- The pages of the process `p` are `A`. -/
structure ProcOk (m : Mem) (p : UProc) (A : Multiset ℕ) : Prop where
  used : p.state ≠ .UNUSED → Owns m p.toSpace p.trapframe A ∧ p.sz ≤ TRAPFRAME
  unused : p.state = .UNUSED → A = 0 ∧ p.trapframe = 0 ∧ p.pagetable = 0 ∧ p.sz = 0
  closed : p.state = .UNUSED ∨ p.state = .ZOMBIE → ∀ fd, p.ofile fd = none
  cwd : p.state = .RUNNABLE → p.cwd.isSome
  fds : ∀ fd f, p.ofile fd = some f → fd < NOFILE ∧ f < NFILE

/-- The pages of process `i` are `A i`, and there are `c f` references to the file `f`. -/
structure SysInv (lo : ℕ) (boot : Multiset ℕ) (A : ℕ → Multiset ℕ) (c : ℕ → ℕ) (s : Sys) : Prop where
  procs : ∀ i < NPROC, ProcOk s.mem (s.proc i) (A i)
  files : FileInv s.file s.pipe c
  uses : Uses lo s.mem (procPages A + boot + (pipeSet s.file).val)

/-- The processes `I` have done something, from `s₀` to `s`: the others are as they were, but for
their parents. -/
structure Acted (lo : ℕ) (boot : Multiset ℕ) (I : ℕ → Prop) (A₀ : ℕ → Multiset ℕ) (s₀ : Sys)
    (A : ℕ → Multiset ℕ) (c : ℕ → ℕ) (s : Sys) : Prop extends SysInv lo boot A c s where
  pages : ∀ j < NPROC, ¬ I j → A j = A₀ j
  others : ∀ j < NPROC, ¬ I j → { s.proc j with parent := (s₀.proc j).parent } = s₀.proc j
  same : ∀ j < NPROC, ¬ I j → ∀ q ∈ A j, s.mem.page q = s₀.mem.page q

section Acted

variable {lo i : ℕ} {boot : Multiset ℕ} {I : ℕ → Prop} {A A₀ : ℕ → Multiset ℕ} {c c' : ℕ → ℕ}
  {s s₀ s' : Sys}

theorem Acted.refl (h : SysInv lo boot A c s) (I : ℕ → Prop) : Acted lo boot I A s A c s :=
  ⟨h, fun _ _ _ => rfl, fun _ _ _ => rfl, fun _ _ _ _ _ => rfl⟩

theorem ProcOk.frame {m m' : Mem} {p : UProc} {B : Multiset ℕ} (h : ProcOk m p B)
    (hp : ∀ q ∈ B, m'.page q = m.page q) : ProcOk m' p B :=
  ⟨fun hu => ⟨(h.used hu).1.frame hp, (h.used hu).2⟩, h.unused, h.closed, h.cwd, h.fds⟩

/-- The pages of the others, for the process `i`. -/
def rest (boot : Multiset ℕ) (A : ℕ → Multiset ℕ) (s : Sys) (i : ℕ) : Multiset ℕ :=
  otherPages A i + boot + (pipeSet s.file).val

theorem SysInv.uses_rest (h : SysInv lo boot A c s) (hi : i < NPROC) :
    Uses lo s.mem (A i + rest boot A s i) := by
  refine h.uses.perm ?_
  rw [procPages_split hi, rest]
  abel

theorem Acted.files_kept (h : Acted lo boot I A₀ s₀ A c s)
    (hk : FileKept lo (procPages A + boot) s c' s') : Acted lo boot I A₀ s₀ A c' s' := by
  have hpage (j : ℕ) (hj : j < NPROC) (q : ℕ) (hq : q ∈ A j) : s'.mem.page q = s.mem.page q :=
    hk.pages q (mem_add.mpr (.inl (mem_procPages hj hq)))
  refine ⟨⟨fun j hj => ?_, hk.files, hk.uses⟩, h.pages, fun j hj hI => ?_, fun j hj hI q hq => ?_⟩
  · rw [hk.proc]
    exact (h.procs j hj).frame (hpage j hj)
  · rw [hk.proc]
    exact h.others j hj hI
  · rw [hpage j hj q hq]
    exact h.same j hj hI q hq

theorem SysInv.kept (h : SysInv lo boot A c s) : FileKept lo (procPages A + boot) s c s :=
  ⟨h.files, h.uses, fun _ _ => rfl, rfl, rfl, rfl, rfl⟩

theorem Acted.put {m : Mem} {p : UProc} {X : Multiset ℕ} (h : Acted lo boot I A₀ s₀ A c s)
    (hi : i < NPROC) (hI : I i) (hp : ProcOk m p X) (hs : Uses lo m (X + rest boot A s i))
    (hrest : ∀ q ∈ rest boot A s i, m.page q = s.mem.page q) :
    Acted lo boot I A₀ s₀ (update A i X) c
      { s with mem := m, proc := update s.proc i p } := by
  have hne {j : ℕ} (hj : ¬ I j) : j ≠ i := by
    rintro rfl
    exact hj hI
  have hpage {j q : ℕ} (hj : j < NPROC) (hji : j ≠ i) (hq : q ∈ A j) : m.page q = s.mem.page q :=
    hrest q (by simp [rest, mem_otherPages hj hji hq])
  refine ⟨⟨fun j hj => ?_, h.files, hs.perm ?_⟩, fun j hj hnI => ?_, fun j hj hnI => ?_,
    fun j hj hnI q hq => ?_⟩
  · by_cases hji : j = i
    · subst hji
      simpa using hp
    · simp only [update_of_ne hji]
      exact (h.procs j hj).frame (fun q hq => hpage hj hji hq)
  · show procPages (update A i X) + boot + (pipeSet s.file).val = _
    rw [procPages_update hi, rest]
    abel
  · rw [update_of_ne (hne hnI)]
    exact h.pages j hj hnI
  · simp only [update_of_ne (hne hnI)]
    exact h.others j hj hnI
  · rw [update_of_ne (hne hnI)] at hq
    exact (hpage hj (hne hnI) hq).trans (h.same j hj hnI q hq)

theorem Acted.owned {m : Mem} {sp : Space} (h : Acted lo boot I A₀ s₀ A c s) (hi : i < NPROC)
    (hI : I i) (hu : (s.proc i).state ≠ .UNUSED) (hsz : sp.sz ≤ TRAPFRAME)
    (ho : Owned lo s.mem sp (s.proc i).trapframe (rest boot A s i) m) :
    ∃ A', Acted lo boot I A₀ s₀ A' c
      { s with mem := m, proc := update s.proc i { s.proc i with toSpace := sp } } := by
  obtain ⟨X, hX, hs, hrest⟩ := ho
  have hold := h.procs i hi
  exact ⟨_, h.put hi hI ⟨fun _ => ⟨hX, hsz⟩, fun h0 => absurd h0 hu, hold.closed, hold.cwd, hold.fds⟩
    hs hrest⟩

theorem Acted.worked {m : Mem} (h : Acted lo boot I A₀ s₀ A c s) (hi : i < NPROC)
    (hI : I i) (hu : (s.proc i).state ≠ .UNUSED)
    (ho : Owned lo s.mem (s.proc i).toSpace (s.proc i).trapframe (rest boot A s i) m) :
    ∃ A', Acted lo boot I A₀ s₀ A' c { s with mem := m } := by
  obtain ⟨A', hA'⟩ := h.owned hi hI hu ((h.procs i hi).used hu).2 ho
  have hsame : update s.proc i { s.proc i with toSpace := (s.proc i).toSpace } = s.proc :=
    update_eq_self _ _
  rw [hsame] at hA'
  exact ⟨A', hA'⟩

/-- The descriptors of one of the processes have changed, or its place in the process table. -/
theorem Acted.setProc {p : UProc} (h : Acted lo boot I A₀ s₀ A c s) (hi : i < NPROC) (hI : I i)
    (hp : ProcOk s.mem p (A i)) :
    Acted lo boot I A₀ s₀ A c { s with proc := update s.proc i p } := by
  have hup := h.put hi hI hp (h.uses_rest hi) (fun _ _ => rfl)
  rwa [update_eq_self] at hup

/-- `p->ofile[fd] = v` -/
def Sys.setFd (s : Sys) (i fd : ℕ) (v : Option ℕ) : Sys :=
  let p := { s.proc i with ofile := update (s.proc i).ofile fd v }
  { s with proc := update s.proc i p }

theorem Acted.setFd {fd : ℕ} {v : Option ℕ} (h : Acted lo boot I A₀ s₀ A c s) (hi : i < NPROC) (hI : I i)
    (hst : ¬ ((s.proc i).state = .UNUSED ∨ (s.proc i).state = .ZOMBIE)) (hfd : fd < NOFILE)
    (hv : ∀ f, v = some f → f < NFILE) : Acted lo boot I A₀ s₀ A c (s.setFd i fd v) := by
  have hold := h.procs i hi
  refine h.setProc hi hI ⟨hold.used, hold.unused, fun h0 => absurd h0 hst, hold.cwd, fun k f hk => ?_⟩
  by_cases hkfd : k = fd
  · subst hkfd
    exact ⟨hfd, hv f (by simpa using hk)⟩
  · simp only [update_of_ne hkfd] at hk
    exact hold.fds k f hk

theorem Acted.fileclose {f : ℕ} {E : VmPanic → Sys → Prop} (h : Acted lo boot I A₀ s₀ A c s) (hf : f < NFILE)
    (hc : 0 < c f) : wp (UserVm.fileclose f) (fun _ s' => s'.proc = s.proc ∧
      Acted lo boot I A₀ s₀ A (update c f (c f - 1)) s') E s :=
  wp_imp (fileclose_spec h.kept hf hc) (fun _ _ hk => ⟨hk.proc, h.files_kept hk⟩)

theorem Acted.filedup {f : ℕ} {E : VmPanic → Sys → Prop} (h : Acted lo boot I A₀ s₀ A c s) (hf : f < NFILE)
    (hc : 0 < c f) : wp (UserVm.filedup f) (fun _ s' => s'.proc = s.proc ∧
      (∀ q ∈ procPages A, s'.mem.page q = s.mem.page q) ∧
      Acted lo boot I A₀ s₀ A (update c f (c f + 1)) s') E s :=
  wp_imp (filedup_spec h.kept hf hc) (fun _ _ hk => ⟨hk.proc,
    fun q hq => hk.pages q (mem_add.mpr (.inl hq)), h.files_kept hk⟩)

end Acted

end Xv6.UserVm
