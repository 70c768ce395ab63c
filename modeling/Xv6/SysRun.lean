import Xv6.SysCalls
import Xv6.Fork

/-! Runs of the system calls: where the pages are, who refers to the open files, how large a process
can get, and that a process sees nothing of what the others do. -/
namespace Xv6.UserVm

/-- The processes that the call may concern. -/
def Touches (s : Sys) (c : Call) (j : ℕ) : Prop := c.proc = some j ∨ (s.proc j).state ≠ .RUNNABLE

/-- A process that grows stays below its trapframe. -/
def Fits (s : Sys) : Call → Prop
  | .sbrk i n _ => 0 < n.toInt → addInt (s.proc i).sz n ≤ TRAPFRAME
  | _ => True

/-- Every process is below its trapframe. -/
def Sized (s : OsState) : Prop := ∀ i < NPROC, (s.sys.proc i).sz ≤ TRAPFRAME

instance (s : OsState) : Decidable (Sized s) := by
  unfold Sized
  infer_instance

/-- The panics that calls may end in. -/
def Stops (s : Sys) (c : Call) (e : VmPanic) : Prop :=
  e = .exec ∨ e = .initExiting ∨ e = .nullProc ∨ e = .remap ∧ ¬ Fits s c

section Step

variable {lo : ℕ} {boot : Multiset ℕ} {A : ℕ → Multiset ℕ} {s : Sys}

theorem Call.enabled_proc {c : Call} {i : ℕ} (h : c.enabled s = true) (hi : c.proc = some i) :
    i < NPROC ∧ (s.proc i).state = .RUNNABLE := by
  cases c <;> simp only [Call.proc, Option.some.injEq, reduceCtorEq] at hi <;> subst hi <;>
    simp_all [Call.enabled, Call.proc]

theorem Acted.ofile_eq {s' : Sys} {c : ℕ → ℕ} (hs : Acted lo boot (fun j => (s.proc j).state = .UNUSED) A s A c s')
    (h : SysInv lo boot A c s) (hst : ∀ j, (s'.proc j).state = (s.proc j).state) (j : ℕ) (hj : j < NPROC) :
    (s'.proc j).ofile = (s.proc j).ofile := by
  by_cases hu : (s.proc j).state = .UNUSED
  · funext fd
    rw [(h.procs j hj).closed (.inl hu), (hs.procs j hj).closed (.inl ((hst j).trans hu))]
  · have hof := congrArg UProc.ofile (hs.others j hj hu)
    exact hof

theorem call_spec (hlo : 0 < lo) (h : SysInv lo boot A (fdCount s.proc) s) (c : Call) (he : c.enabled s = true) :
    wp c.prog (fun _ s' => Fits s c ∨ Sized ⟨s', none⟩ → Settled lo boot (Touches s c) A s s')
      (fun e s' => Stops s c e ∧ s'.mem.freedTwice = false) s := by
  have hrun {i : ℕ} (hi : c.proc = some i) := Call.enabled_proc he hi
  have hI {i : ℕ} (hi : c.proc = some i) : Touches s c i := .inl hi
  have hnot {j : ℕ} {st : ProcState} (hj : (s.proc j).state = st) (hst : st ≠ .RUNNABLE) : Touches s c j :=
    .inr (by rw [hj]; exact hst)
  cases c with
  | userinit =>
    refine wp_mono (userinit_spec hlo h (fun j _ hj => hnot hj (by decide))) (fun _ _ hs _ => hs) ?_
    exact fun e s' hs => ⟨.inr (.inr (.inl hs.1)), hs.2⟩
  | forkret i file =>
    obtain ⟨hi, hr⟩ := hrun rfl
    obtain ⟨ho, hsz⟩ := h.owns hi hr
    have h' : SysInv lo boot A (fdCount s.proc) { s with first := false } := ⟨h.procs, h.files, h.uses⟩
    have hargs : ∀ arg ∈ initArgv, arg.length < PGSIZE := by decide
    rw [Call.prog, forkret, wp_bind, wp_modify]
    refine wp_seq (execProc_spec (s := { s with first := false }) h' hi (hI rfl) hr
      (kexec_spec hlo hargs hsz ho (h.uses_rest hi))) ?_
    rintro ok s' ⟨A', hs⟩
    cases ok with
    | true => exact fun _ => ⟨A', hs.toSysInv, hs.pages, hs.others, hs.same⟩
    | false => exact ⟨.inl rfl, hs.uses.once⟩
  | fork i =>
    obtain ⟨hi, hr⟩ := hrun rfl
    refine wp_seq (kfork_spec hlo h hi hr) ?_
    rintro r s' (⟨rfl, hs, -, hst⟩ | ⟨np, A', rfl, -, -, -, hs, -⟩) _
    · refine ⟨A, ?_⟩
      rw [fdCount_congr (hs.ofile_eq h hst)]
      exact hs.mono (fun j _ hj => hnot hj (by decide))
    · exact ⟨A', hs.mono (fun j _ hj => hnot hj (by decide))⟩
  | exec i file upath uargv =>
    obtain ⟨hi, hr⟩ := hrun rfl
    obtain ⟨ho, hsz⟩ := h.owns hi hr
    refine wp_seq (execProc_spec h hi (hI rfl) hr (sysExec_spec hlo hsz ho (h.uses_rest hi))) ?_
    exact fun _ s' hs _ => hs
  | exit i status =>
    obtain ⟨hi, hr⟩ := hrun rfl
    refine wp_mono (kexit_spec h hi (hI rfl) hr status) (fun _ _ hs _ => hs) ?_
    rintro e s' ⟨hinit, rfl⟩
    exact ⟨.inr (.inl hinit), h.uses.once⟩
  | wait i addr =>
    obtain ⟨hi, hr⟩ := hrun rfl
    exact wp_imp (kwait_spec h hi (hI rfl) hr hlo (fun j _ hj => hnot hj (by decide)) addr) (fun _ _ hs _ => hs)
  | sbrk i n eager =>
    obtain ⟨hi, hr⟩ := hrun rfl
    rw [Call.prog, run, wp_bind]
    refine wp_mono (sysSbrk_spec h hi (hI rfl) hr n eager) ?_ ?_
    · exact fun _ s' hs hfits => hs (hfits.symm.imp_left (fun hsz => hsz i hi))
    · rintro e s' ⟨rfl, ⟨hpos, hbig⟩, hf⟩
      exact ⟨.inr (.inr (.inr ⟨rfl, fun hfits => absurd (hfits hpos) (not_le.mpr hbig)⟩)), hf⟩
  | pageFault i va =>
    obtain ⟨hi, hr⟩ := hrun rfl
    obtain ⟨ho, hsz⟩ := h.owns hi hr
    exact wp_imp (onSpace_spec (m := fun sp => vmfault sp sp.pagetable va) h hi (hI rfl) hr
      (vmfault_owned hsz ho (h.uses_rest hi) va)) (fun _ _ hs _ => hs)
  | pipe i fdarray =>
    obtain ⟨hi, hr⟩ := hrun rfl
    exact wp_imp (sysPipe_spec h hi (hI rfl) hr hlo fdarray) (fun _ _ hs _ => hs)
  | close i fd =>
    obtain ⟨hi, hr⟩ := hrun rfl
    exact wp_imp (sysClose_spec h hi (hI rfl) hr fd) (fun _ _ hs _ => hs)
  | dup i fd =>
    obtain ⟨hi, hr⟩ := hrun rfl
    exact wp_imp (sysDup_spec h hi (hI rfl) hr fd) (fun _ _ hs _ => hs)
  | openFile i device =>
    obtain ⟨hi, hr⟩ := hrun rfl
    exact wp_imp (sysOpenFile_spec h hi (hI rfl) hr device) (fun _ _ hs _ => hs)
  | copyin i srcva len =>
    obtain ⟨hi, hr⟩ := hrun rfl
    obtain ⟨ho, hsz⟩ := h.owns hi hr
    exact wp_imp (onSpace_spec (m := fun sp => Xv6.copyin sp sp.pagetable srcva len) h hi (hI rfl) hr
      (copyin_owned hlo hsz ho (h.uses_rest hi) srcva len)) (fun _ _ hs _ => hs)
  | copyout i dstva src =>
    obtain ⟨hi, hr⟩ := hrun rfl
    obtain ⟨ho, hsz⟩ := h.owns hi hr
    exact wp_imp (onSpace_spec (m := fun sp => Xv6.copyout sp sp.pagetable dstva src) h hi (hI rfl) hr
      (copyout_owned hlo hsz ho (h.uses_rest hi) dstva src)) (fun _ _ hs _ => hs)
  | store i va c =>
    obtain ⟨hi, hr⟩ := hrun rfl
    obtain ⟨ho, hsz⟩ := h.owns hi hr
    exact wp_imp (onSpace_spec (m := fun sp => userStore sp.pagetable va c) h hi (hI rfl) hr
      (userStore_owned ho (h.uses_rest hi) va c)) (fun _ _ hs _ => hs)

theorem SysInv.deny {c : ℕ → ℕ} (h : SysInv lo boot A c s) (deny : List Bool) :
    SysInv lo boot A c { s with mem := { s.mem with deny := deny } } :=
  ⟨fun i hi => (h.procs i hi).frame (fun _ _ => rfl), h.files, h.uses.congr rfl rfl rfl rfl⟩

theorem osStep_spec {s t : OsState} {e : OsEvent} (hlo : 0 < lo) (hA : SysInv lo boot A (fdCount s.sys.proc) s.sys)
    (h : osStep s e = some t) :
    (t.panic = none ∧ (Fits s.sys e.call ∨ Sized t →
      Settled lo boot (Touches s.sys e.call) A s.sys t.sys)) ∨
    ∃ p, t.panic = some p ∧ Stops s.sys e.call p ∧ t.sys.mem.freedTwice = false := by
  rw [osStep] at h
  split_ifs at h with hen
  have hspec := call_spec (s := { s.sys with mem := { s.sys.mem with deny := e.deny } }) hlo (hA.deny e.deny) e.call
    (Bool.and_eq_true_iff.mp hen).2
  split at h
  · rename_i t' hok
    cases h
    refine .inl ⟨rfl, fun hfits => ?_⟩
    obtain ⟨A', hs⟩ := ok_of_wp hspec hok hfits
    exact ⟨A', hs.toSysInv, hs.pages, hs.others, hs.same⟩
  · rename_i p t' herr
    cases h
    have hstop := error_of_wp hspec herr
    exact .inr ⟨p, rfl, hstop⟩

theorem osStep_running {s t : OsState} {e : OsEvent} (h : osStep s e = some t) : s.panic = none := by
  rw [osStep] at h
  split_ifs at h with hen
  exact Option.isNone_iff_eq_none.mp (Bool.and_eq_true_iff.mp hen).1

end Step

section Runs

variable {lo : ℕ} {boot : Multiset ℕ} {P : VmPanic → Prop} {mem : Mem} {s t : OsState} {e : OsEvent} {es : List OsEvent}

/-- Pages and files are in order, unless the kernel has panicked, in one of the ways `P`. -/
structure OsInv (lo : ℕ) (boot : Multiset ℕ) (P : VmPanic → Prop) (s : OsState) : Prop where
  once : s.sys.mem.freedTwice = false
  sys : s.panic = none → ∃ A, SysInv lo boot A (fdCount s.sys.proc) s.sys
  panics : ∀ p, s.panic = some p → P p

theorem OsInv.step (hlo : 0 < lo) (h : OsInv lo boot P s) (hstep : osStep s e = some t)
    (hfits : Fits s.sys e.call ∨ Sized t) (hP : ∀ p, Stops s.sys e.call p → P p) : OsInv lo boot P t := by
  obtain ⟨A, hA⟩ := h.sys (osStep_running hstep)
  rcases osStep_spec hlo hA hstep with ⟨hn, hs⟩ | ⟨p, hp, hstop, hf⟩
  · obtain ⟨A', hs⟩ := hs hfits
    refine ⟨hs.uses.once, fun _ => ⟨A', hs.toSysInv⟩, fun p hp => ?_⟩
    rw [hn] at hp
    cases hp
  · refine ⟨hf, fun hn => ?_, fun q hq => ?_⟩
    · rw [hp] at hn
      cases hn
    · rw [hp] at hq
      cases hq
      exact hP p hstop

theorem osInit_inv (hm : Uses lo mem boot) : OsInv lo boot P (osInit mem) := by
  have hcount (f : ℕ) : fdCount (osInit mem).sys.proc f = 0 :=
    Finset.sum_eq_zero (fun i _ => Finset.sum_eq_zero (fun fd _ => rfl))
  have hends (f pi : ℕ) (w : Bool) : ¬ IsEnd (osInit mem).sys.file f pi w := by
    rintro ⟨-, ht, -⟩
    cases ht
  refine ⟨hm.once, fun _ => ⟨fun _ => 0, fun i _ => ?_, ?_, hm.perm ?_⟩, by simp [osInit]⟩
  · exact ⟨fun hu => absurd rfl hu, fun _ => ⟨rfl, rfl, rfl, rfl⟩, fun _ _ => rfl, by simp [osInit], by simp [osInit]⟩
  · refine ⟨fun f _ => (hcount f).symm, fun _ _ _ => rfl, fun pi w => ?_, fun f _ pi w hf _ => absurd hf (hends f pi w)⟩
    refine iff_of_false ?_ (fun ⟨f, hf⟩ => hends f pi w hf)
    cases w <;> exact Bool.false_ne_true
  · have hpipes : pipeSet (osInit mem).sys.file = ∅ := by
      ext pi
      rw [mem_pipeSet]
      exact iff_of_false (fun ⟨f, w, hf⟩ => hends f pi w hf) (Finset.notMem_empty pi)
    rw [hpipes, procPages]
    simp

theorem run_sized (hlo : 0 < lo) (hm : Uses lo mem boot) (h : exec osStep (osInit mem) es = some s)
    (hc : Along osStep (fun s _ => Sized s) (osInit mem) es) (hsz : Sized s) :
    OsInv lo boot (fun p => p ≠ .freewalkLeaf) s := by
  refine exec_invariant_along (P := fun s => Sized s → OsInv lo boot (fun p => p ≠ .freewalkLeaf) s) ?_ hc h
    (fun _ => osInit_inv hm) hsz
  intro s e t hs hstep hinv ht
  refine (hinv hs).step hlo hstep (.inr ht) ?_
  rintro p (rfl | rfl | rfl | ⟨rfl, -⟩) <;> decide

theorem run_fits (hlo : 0 < lo) (hm : Uses lo mem boot) (h : exec osStep (osInit mem) es = some s)
    {C : OsState → OsEvent → Prop} (hC : ∀ s e, C s e → Fits s.sys e.call) (hc : Along osStep C (osInit mem) es) :
    OsInv lo boot (fun p => p ≠ .walk ∧ p ≠ .remap) s := by
  refine exec_invariant_along ?_ hc h (osInit_inv hm)
  intro s e t hs hstep hinv
  refine hinv.step hlo hstep (.inl (hC s e hs)) ?_
  rintro p (rfl | rfl | rfl | ⟨rfl, hbig⟩)
  · decide
  · decide
  · decide
  · exact absurd (hC s e hs) hbig

/-- A memory of 24 pages, all of them free. -/
def bootMem : Mem where
  page := fun _ => 0
  freelist := List.range' (PHYSPAGES - 24) 24
  first := PHYSPAGES - 24
  trampoline := 0
  deny := []
  freedTwice := false

theorem bootMem_uses : Uses (PHYSPAGES - 24) bootMem 0 := ⟨rfl, by rw [add_zero]; rfl, rfl⟩

/-- The first process executes a file without segments. -/
def bootRun : List OsEvent :=
  [⟨.userinit, []⟩, ⟨.forkret 0 (some ⟨some ⟨ELF_MAGIC, 0, 0, 0⟩, fun _ => none, fun _ _ => none⟩), []⟩]

/-- Where the pages are: in the free list, or in use as tables, user memory or trapframe of one process, as
a pipe, or since boot. User memory is below the size of the process, one page for each PTE. -/
def Partitioned (lo : ℕ) (boot : Multiset ℕ) (s : Sys) : Prop :=
  ∃ (T : ℕ → Multiset ℕ) (L : ℕ → ℕ → Pte),
    (∀ i < NPROC, (s.proc i).state ≠ .UNUSED →
      IsTree s.mem.page 2 (s.proc i).pagetable (T i) (L i) ∧ ∀ v < TFP, L i v ≠ 0 → v < pagesOf (s.proc i).sz) ∧
    (s.mem.freelist : Multiset ℕ) + (∑ i ∈ Finset.range NPROC with (s.proc i).state ≠ .UNUSED,
      (T i + leaves (L i) + {(s.proc i).trapframe})) + (pipeSet s.file).val + boot = pagesFrom lo

theorem SysInv.partitioned {A : ℕ → Multiset ℕ} {c : ℕ → ℕ} {s : Sys} (h : SysInv lo boot A c s) :
    Partitioned lo boot s := by
  have howns (i : ℕ) : ∃ (T : Multiset ℕ) (L : ℕ → Pte), i < NPROC → (s.proc i).state ≠ .UNUSED →
      A i = T + (leaves L + {(s.proc i).trapframe}) ∧ IsTree s.mem.page 2 (s.proc i).pagetable T L ∧
        Layout L (s.proc i).trapframe (s.proc i).sz := by
    by_cases hi : i < NPROC ∧ (s.proc i).state ≠ .UNUSED
    · obtain ⟨⟨T, L, hT⟩, -⟩ := (h.procs i hi.1).used hi.2
      exact ⟨T, L, fun _ _ => hT⟩
    · exact ⟨0, fun _ => 0, fun h1 h2 => absurd ⟨h1, h2⟩ hi⟩
  choose T L hTL using howns
  refine ⟨T, L, fun i hi hu => ⟨(hTL i hi hu).2.1, fun v hv hne => ?_⟩, ?_⟩
  · by_contra hle
    exact hne ((hTL i hi hu).2.2.empty v (not_lt.mp hle) hv)
  · have hsum : procPages A = ∑ i ∈ Finset.range NPROC with (s.proc i).state ≠ .UNUSED,
        (T i + leaves (L i) + {(s.proc i).trapframe}) := by
      rw [procPages, Finset.sum_filter]
      refine Finset.sum_congr rfl (fun i hi => ?_)
      split_ifs with hu
      · rw [(hTL i (Finset.mem_range.mp hi) hu).1, add_assoc]
      · exact ((h.procs i (Finset.mem_range.mp hi)).unused (not_not.mp hu)).1
    rw [← hsum, ← h.uses.split]
    abel

/-- No page is lost, in two places or freed twice. -/
theorem pages_conserved (hlo : 0 < lo) (hm : Uses lo mem boot) (h : exec osStep (osInit mem) es = some s)
    (hc : Along osStep (fun s _ => Sized s) (osInit mem) es) (hsz : Sized s) :
    s.sys.mem.freedTwice = false ∧ s.panic ≠ some .freewalkLeaf ∧ (s.panic = none → Partitioned lo boot s.sys) := by
  have hinv := run_sized hlo hm h hc hsz
  refine ⟨hinv.once, fun hp => hinv.panics _ hp rfl, fun hn => ?_⟩
  obtain ⟨A, hA⟩ := hinv.sys hn
  exact hA.partitioned

theorem pages_conserved_grow : ∃ s, exec osStep (osInit bootMem) (bootRun ++ [⟨.sbrk 0 8192 false, []⟩]) = some s ∧
    s.panic = none ∧ Partitioned (PHYSPAGES - 24) 0 s.sys := by
  have hrun : (exec osStep (osInit bootMem) (bootRun ++ [⟨.sbrk 0 8192 false, []⟩])).any
      (fun s => s.panic.isNone && decide (Sized s)) = true := by decide +kernel
  obtain ⟨s, hs, hok⟩ := (Option.any_eq_true _ _).mp hrun
  rw [Bool.and_eq_true, Option.isNone_iff_eq_none, decide_eq_true_eq] at hok
  have hc : Along osStep (fun s _ => Sized s) (osInit bootMem) (bootRun ++ [⟨.sbrk 0 8192 false, []⟩]) :=
    along_of_check (c := fun s _ => decide (Sized s)) (fun _ _ => of_decide_eq_true) (by decide +kernel)
  exact ⟨s, hs, hok.1, (pages_conserved (by decide) bootMem_uses hs hc hok.2).2.2 hok.1⟩

/-- The references to the open files, and the pipes that are open. -/
structure FilesCounted (lo : ℕ) (boot : Multiset ℕ) (s : Sys) : Prop where
  ref : ∀ f < NFILE, (s.file f).ref = fdCount s.proc f
  unref : ∀ f < NFILE, (s.file f).ref = 0 → (s.file f).type = .FD_NONE
  live : ∀ pi, pi ∈ pipeSet s.file ↔
    ∃ f < NFILE, (s.file f).type = .FD_PIPE ∧ (s.file f).pipe = pi ∧ 0 < (s.file f).ref
  ends : ∀ pi w, (s.pipe pi).isOpen w = true ↔ ∃ f, IsEnd s.file f pi w ∧ 0 < (s.file f).ref
  one : ∀ f g pi w, IsEnd s.file f pi w → IsEnd s.file g pi w → f = g
  pages : Partitioned lo boot s
  once : s.mem.freedTwice = false
  closed : ∀ i < NPROC, (s.proc i).state = .UNUSED → ∀ fd, (s.proc i).ofile fd = none

theorem SysInv.counted {A : ℕ → Multiset ℕ} {s : Sys} (h : SysInv lo boot A (fdCount s.proc) s) :
    FilesCounted lo boot s := by
  have hpos {f : ℕ} (hf : f < NFILE) (ht : (s.file f).type = .FD_PIPE) : 0 < (s.file f).ref := by
    by_contra h0
    rw [h.files.ref f hf] at h0
    rw [h.files.unused f hf (by omega)] at ht
    cases ht
  refine ⟨h.files.ref, fun f hf h0 => h.files.unused f hf ((h.files.ref f hf).symm.trans h0), fun pi => ?_,
    fun pi w => ?_, h.files.inj, h.partitioned, h.uses.once, fun i hi hu => (h.procs i hi).closed (.inl hu)⟩
  · rw [mem_pipeSet]
    constructor
    · rintro ⟨f, w, hf, ht, hp, -⟩
      exact ⟨f, hf, ht, hp, hpos hf ht⟩
    · rintro ⟨f, hf, ht, hp, -⟩
      exact ⟨f, _, hf, ht, hp, rfl⟩
  · rw [h.files.ends]
    constructor
    · rintro ⟨f, hf⟩
      exact ⟨f, hf, hpos hf.1 hf.2.1⟩
    · rintro ⟨f, hf, -⟩
      exact ⟨f, hf⟩

/-- Every open file has as many references as there are descriptors for it, and a pipe lasts as long as
its ends. -/
theorem files_counted (hlo : 0 < lo) (hm : Uses lo mem boot) (h : exec osStep (osInit mem) es = some s)
    (hes : ∀ ev ∈ es, ∀ i n eager, ev.call ≠ .sbrk i n eager) :
    s.sys.mem.freedTwice = false ∧ (s.panic = none → FilesCounted lo boot s.sys) := by
  have hC (s : OsState) (e : OsEvent) (he : ∀ i n eager, e.call ≠ .sbrk i n eager) : Fits s.sys e.call := by
    unfold Fits
    split
    · exact absurd ‹_› (he _ _ _)
    · trivial
  have hinv := run_fits hlo hm h hC (along_of_forall hes)
  refine ⟨hinv.once, fun hn => ?_⟩
  obtain ⟨A, hA⟩ := hinv.sys hn
  exact hA.counted

theorem files_counted_pipe : ∃ s, exec osStep (osInit bootMem) (bootRun ++ [⟨.pipe 0 MAXVA, []⟩, ⟨.openFile 0 false, []⟩, ⟨.dup 0 0, []⟩, ⟨.close 0 0, []⟩]) = some s ∧
    s.panic = none ∧ FilesCounted (PHYSPAGES - 24) 0 s.sys := by
  have hrun : (exec osStep (osInit bootMem) (bootRun ++ [⟨.pipe 0 MAXVA, []⟩, ⟨.openFile 0 false, []⟩, ⟨.dup 0 0, []⟩, ⟨.close 0 0, []⟩])).any
      (fun s => s.panic.isNone) = true := by decide +kernel
  obtain ⟨s, hs, hok⟩ := (Option.any_eq_true _ _).mp hrun
  rw [Option.isNone_iff_eq_none] at hok
  have hes : ∀ ev ∈ bootRun ++ [⟨.pipe 0 MAXVA, []⟩, ⟨.openFile 0 false, []⟩, ⟨.dup 0 0, []⟩, ⟨.close 0 0, []⟩], ∀ i n eager, ev.call ≠ .sbrk i n eager := by
    simp [bootRun]
  exact ⟨s, hs, hok, (files_counted (by decide) bootMem_uses hs hes).2 hok⟩

theorem OsInv.sized (h : OsInv lo boot P s) (hn : s.panic = none) : Sized s := by
  obtain ⟨A, hA⟩ := h.sys hn
  intro i hi
  by_cases hu : (s.sys.proc i).state = .UNUSED
  · rw [((hA.procs i hi).unused hu).2.2.2]
    exact zero_le
  · exact ((hA.procs i hi).used hu).2

/-- If no process grows into its trapframe, the kernel panics only over the first process: it cannot
be made, its program cannot be loaded, or it exits. No arguments, files or lack of memory bring
about another panic. -/
theorem panics_only_for_init (hlo : 0 < lo) (hm : Uses lo mem boot) (h : exec osStep (osInit mem) es = some s)
    (hc : Along osStep (fun s e => Fits s.sys e.call) (osInit mem) es) {p : VmPanic} (hp : s.panic = some p) :
    p = .exec ∨ p = .initExiting ∨ p = .nullProc := by
  have hinv : OsInv lo boot (fun p => p = .exec ∨ p = .initExiting ∨ p = .nullProc) s := by
    refine exec_invariant_along (fun s e t hs hstep hinv => hinv.step hlo hstep (.inl hs) ?_) hc h (osInit_inv hm)
    rintro p (hp | hp | hp | ⟨-, hbig⟩)
    · exact .inl hp
    · exact .inr (.inl hp)
    · exact .inr (.inr hp)
    · exact absurd hs hbig
  exact hinv.panics p hp

theorem panics_when_init_exits : ∃ s p, exec osStep (osInit bootMem) (bootRun ++ [⟨.exit 0 0, []⟩]) = some s ∧
    s.panic = some p ∧ (p = .exec ∨ p = .initExiting ∨ p = .nullProc) := by
  have hrun : (exec osStep (osInit bootMem) (bootRun ++ [⟨.exit 0 0, []⟩])).any (fun s => s.panic.isSome) = true := by
    decide +kernel
  obtain ⟨s, hs, hok⟩ := (Option.any_eq_true _ _).mp hrun
  obtain ⟨p, hp⟩ := Option.isSome_iff_exists.mp hok
  have hc : Along osStep (fun s e => Fits s.sys e.call) (osInit bootMem) (bootRun ++ [⟨.exit 0 0, []⟩]) :=
    ⟨trivial, fun _ _ => ⟨trivial, fun _ _ => ⟨trivial, fun _ _ => trivial⟩⟩⟩
  exact ⟨s, p, hs, hp, panics_only_for_init (by decide) bootMem_uses hs hc hp⟩

/-- If no process is made larger than that, processes stay below their trapframes, and no page is looked up
above `MAXVA` or mapped twice. -/
theorem sizes_bounded (hlo : 0 < lo) (hm : Uses lo mem boot) (h : exec osStep (osInit mem) es = some s)
    (hc : Along osStep (fun s e => Fits s.sys e.call) (osInit mem) es) :
    (s.panic = none → Sized s) ∧ s.panic ≠ some .walk ∧ s.panic ≠ some .remap := by
  have hinv := run_fits hlo hm h (fun _ _ hf => hf) hc
  exact ⟨hinv.sized, fun hp => (hinv.panics _ hp).1 rfl, fun hp => (hinv.panics _ hp).2 rfl⟩

theorem sizes_bounded_grow : ∃ s, exec osStep (osInit bootMem) (bootRun ++ [⟨.sbrk 0 100000 false, []⟩]) = some s ∧
    s.panic = none ∧ Sized s := by
  have hrun : (exec osStep (osInit bootMem) (bootRun ++ [⟨.sbrk 0 100000 false, []⟩])).any
      (fun s => s.panic.isNone) = true := by decide +kernel
  obtain ⟨s, hs, hok⟩ := (Option.any_eq_true _ _).mp hrun
  rw [Option.isNone_iff_eq_none] at hok
  have hc : Along osStep (fun s e => Fits s.sys e.call) (osInit bootMem) (bootRun ++ [⟨.sbrk 0 100000 false, []⟩]) :=
    along_of_check (c := fun s e => match e.call with
      | .sbrk i n _ => decide (addInt (s.sys.proc i).sz n ≤ TRAPFRAME)
      | _ => true) (fun s e h => by
        unfold Fits
        split
        · rename_i hcall
          rw [hcall] at h
          exact fun _ => of_decide_eq_true h
        · trivial) (by decide +kernel)
  exact ⟨s, hs, hok, (sizes_bounded (by decide) bootMem_uses hs hc).1 hok⟩

/-- A lazy `sbrk` of `n` bytes, `c` times. -/
theorem lazy_growth (c : ℕ) {n : BitVec 32} {k : ℕ} (hk : (n.signExtend 64).toNat = k) (hn : ¬ n.toInt < 0) {s : Sys}
    (hf : s.first = false) (hr : (s.proc 0).state = .RUNNABLE) (hsz : (s.proc 0).sz + c * k < 2 ^ 64) :
    ∃ s', exec osStep ⟨s, none⟩ (List.replicate c ⟨.sbrk 0 n false, []⟩) = some ⟨s', none⟩ ∧
      s'.first = false ∧ (s'.proc 0).state = .RUNNABLE ∧ (s'.proc 0).sz = (s.proc 0).sz + c * k := by
  induction c generalizing s with
  | zero => exact ⟨s, rfl, hf, hr, by rw [Nat.zero_mul, add_zero]⟩
  | succ c ih =>
    rw [Nat.succ_mul] at hsz ⊢
    have hadd : addInt (s.proc 0).sz n = (s.proc 0).sz + k := by
      rw [addInt, BitVec.toNat_add, BitVec.toNat_ofNat, hk]
      omega
    have hen : Call.enabled s (.sbrk 0 n false) = true := by
      simp [Call.enabled, Call.proc, hf, hr, NPROC]
    have hwp : wp (Call.prog (.sbrk 0 n false)) (fun _ t => t.first = false ∧ (t.proc 0).state = .RUNNABLE ∧
        (t.proc 0).sz = (s.proc 0).sz + k) (fun _ _ => False) { s with mem := { s.mem with deny := [] } } := by
      simp only [Call.prog, run, sysSbrk, wp_bind, wp_myproc, wp_ite, wp_setProc, wp_pure, hadd]
      rw [if_neg (by simpa using hn), if_neg (by omega)]
      simp only [update_self]
      exact ⟨hf, hr, trivial⟩
    obtain ⟨_, t, hprog, hf₁, hr₁, hsz₁⟩ := returns_of_wp hwp
    have hstep : osStep ⟨s, none⟩ ⟨.sbrk 0 n false, []⟩ = some ⟨t, none⟩ := by
      rw [osStep, if_pos (by simpa using hen), hprog]
    obtain ⟨s', hs', hf', hr', hsz'⟩ := ih hf₁ hr₁ (by omega)
    refine ⟨s', ?_, hf', hr', by omega⟩
    rw [List.replicate_succ, exec, hstep, Option.bind_some, hs']

/-- Lazy calls of `sbrk` make a process larger than its address space; then a page fault is a panic. -/
theorem lazy_sbrk_panics : ∃ es s ev t, exec osStep (osInit bootMem) es = some s ∧ s.panic = none ∧
    TRAPFRAME < (s.sys.proc 0).sz ∧ osStep s ev = some t ∧ t.panic = some .walk := by
  have hrun : (exec osStep (osInit bootMem) bootRun).any (fun s => s.panic.isNone && (!s.sys.first &&
      ((s.sys.proc 0).state == .RUNNABLE && (s.sys.proc 0).sz == 12288))) = true := by decide +kernel
  obtain ⟨⟨s, panic⟩, hs, hok⟩ := (Option.any_eq_true _ _).mp hrun
  simp only [Bool.and_eq_true, Option.isNone_iff_eq_none, Bool.not_eq_true', beq_iff_eq] at hok
  obtain ⟨rfl, hf, hr, hsz⟩ := hok
  obtain ⟨s', hs', hf', hr', hsz'⟩ := lazy_growth 128 (n := 2147483647#32) rfl (by decide) hf hr (by rw [hsz]; decide)
  refine ⟨bootRun ++ List.replicate 128 ⟨.sbrk 0 2147483647#32 false, []⟩, ⟨s', none⟩, ⟨.pageFault 0 MAXVA, []⟩, ?_⟩
  have hbig : MAXVA < (s'.proc 0).sz := by
    rw [hsz', hsz]
    decide
  have hen : Call.enabled s' (.pageFault 0 MAXVA) = true := by
    simp [Call.enabled, Call.proc, hf', hr', NPROC]
  have hwp : wp (Call.prog (.pageFault 0 MAXVA)) (fun _ _ => False) (fun e _ => e = .walk)
      { s' with mem := { s'.mem with deny := [] } } := by
    simp only [Call.prog, onSpace, run, vmfault, ismapped, wp_bind, wp_myproc, wp_vm, wp_ite]
    rw [if_neg (not_le.mpr hbig), walk, if_pos (by decide), wp_throw]
  cases hprog : Call.prog (.pageFault 0 MAXVA) { s' with mem := { s'.mem with deny := [] } } with
  | ok a t => exact (ok_of_wp hwp hprog).elim
  | error e t =>
    have he := error_of_wp hwp hprog
    refine ⟨⟨t, some e⟩, ?_, rfl, lt_trans (by decide) hbig, ?_, congrArg some he⟩
    · rw [exec_append, hs, Option.bind_some, hs']
    · rw [osStep, if_pos (by simpa using hen), hprog]

end Runs

section Isolation

variable {lo i j : ℕ} {boot : Multiset ℕ} {A : ℕ → Multiset ℕ} {s s₁ s' : Sys}

/-- The process `i` sees in `s'` what it sees in `s`. -/
structure Unseen (i : ℕ) (s s' : Sys) : Prop where
  proc : { s'.proc i with parent := (s.proc i).parent } = s.proc i
  ptes : ∀ va < MAXVA, pteAt s'.mem (s'.proc i).pagetable va = pteAt s.mem (s.proc i).pagetable va
  bytes : ∀ va < TRAPFRAME, byteOf s'.mem (s'.proc i).pagetable va = byteOf s.mem (s.proc i).pagetable va
  regs : ∀ k, regOf (s'.mem.page (s'.proc i).trapframe) k = regOf (s.mem.page (s.proc i).trapframe) k

theorem Unseen.state (h : Unseen i s s') : (s'.proc i).state = (s.proc i).state := by
  have hst := congrArg UProc.state h.proc
  exact hst

theorem Unseen.refl (i : ℕ) (s : Sys) : Unseen i s s :=
  ⟨rfl, fun _ _ => rfl, fun _ _ => rfl, fun _ => rfl⟩

theorem Unseen.trans (h : Unseen i s s₁) (h' : Unseen i s₁ s') : Unseen i s s' := by
  refine ⟨?_, fun va hva => (h'.ptes va hva).trans (h.ptes va hva),
    fun va hva => (h'.bytes va hva).trans (h.bytes va hva), fun k => (h'.regs k).trans (h.regs k)⟩
  rw [← h.proc, ← h'.proc]

end Isolation

end Xv6.UserVm
