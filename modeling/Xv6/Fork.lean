import Xv6.SysProc
import Xv6.PageMap

/-! Fork (kernel/proc.c): the child has the parent's memory, registers, open files and current
directory, in pages of its own. -/
namespace Xv6.UserVm

section View

/-- The PTE for the user address `va`, 0 if there is none. -/
def pteAt (m : Mem) (pagetable va : ℕ) : Pte :=
  match walk pagetable va false m with
  | .ok (some ptr) m' => pte (m'.page ptr.1) ptr.2
  | _ => 0

/-- The byte at the user address `va`. A page that is not there reads as zeros. -/
def byteOf (m : Mem) (pagetable va : ℕ) : Byte :=
  if pteAt m pagetable va = 0 then 0
  else byteAt (m.page (PTE2PA (pteAt m pagetable va))) (va % PGSIZE)

/-- The fields of a trapframe. -/
def regOf (x : Page) (k : ℕ) : BitVec 64 := getField x (64 * k) 64

variable {lo p va : ℕ} {T R : Multiset ℕ} {L : ℕ → Pte} {m : Mem}

theorem pteAt_eq (hva : va < MAXVA) (ht : IsTree m.page 2 p T L) (hs : Uses lo m (T + R)) :
    pteAt m p va = L (va / PGSIZE) := by
  have hwp : wp (walk p va false) (fun r m' => (match r with
      | some ptr => pte (m'.page ptr.1) ptr.2
      | none => 0) = L (va / PGSIZE)) (fun _ _ => False) m := by
    refine wp_imp (walk_spec false hva ht hs) ?_
    rintro r m₁ ⟨T', hw⟩
    cases r with
    | none => exact (hw.missing rfl rfl).symm
    | some ptr => exact (hw.ptr ptr rfl).load
  obtain ⟨r, m', hrun, hr⟩ := returns_of_wp hwp
  rw [pteAt, hrun, ← hr]
  cases r <;> rfl

theorem byteOf_eq (hva : va < MAXVA) (ht : IsTree m.page 2 p T L) (hs : Uses lo m (T + R)) :
    byteOf m p va = userByte m L va := by
  rw [byteOf, pteAt_eq hva ht hs, userByte]

/-- What a process sees depends on its own pages only. -/
theorem Owns.view {sp : Space} {tf : ℕ} {A R R' : Multiset ℕ} {m m' : Mem} (ho : Owns m sp tf A)
    (hs : Uses lo m (A + R)) (hs' : Uses lo m' (A + R')) (hp : ∀ q ∈ A, m'.page q = m.page q) :
    (∀ va < MAXVA, pteAt m' sp.pagetable va = pteAt m sp.pagetable va) ∧
      ∀ va < TRAPFRAME, byteOf m' sp.pagetable va = byteOf m sp.pagetable va := by
  obtain ⟨T, L, rfl, ht, hl⟩ := ho
  have ht' : IsTree m'.page 2 sp.pagetable T L :=
    ht.frame (fun q hq => hp q (mem_add.mpr (.inl hq)))
  rw [add_assoc] at hs hs'
  refine ⟨fun va hva => ?_, fun va hva => ?_⟩
  · rw [pteAt_eq hva ht hs, pteAt_eq hva ht' hs']
  · have hva' : va < MAXVA := lt_of_lt_of_le hva (by decide)
    rw [byteOf_eq hva' ht hs, byteOf_eq hva' ht' hs']
    refine userByte_congr va rfl (fun hne => hp _ ?_)
    have hleaf := mem_leaves (page_lt_TFP hva) hne
    exact mem_add.mpr (.inr (mem_add.mpr (.inl hleaf)))

end View

section Copy

theorem regOf_copied (x y : Page) {k : ℕ} (hk : k < trapframeRegs) :
    regOf (setField (setField y 0 (getField x 0 (64 * trapframeRegs))) (64 * a0Reg) (0 : BitVec 64)) k =
      if k = a0Reg then 0 else regOf x k := by
  have hlen : trapframeRegs = 36 := rfl
  have ha0 : a0Reg = 14 := rfl
  rw [regOf]
  split_ifs with h
  · subst h
    exact getField_setField _ _ _ (by omega)
  · rw [getField_setField_of_disjoint _ _ _ _ (by omega)]
    have hinner := getField_getField (setField y 0 (getField x 0 (64 * trapframeRegs))) 0
      (64 * trapframeRegs) (64 * k) 64 (by omega)
    rw [zero_add] at hinner
    rw [← hinner, getField_setField _ _ _ (by omega), getField_getField _ _ _ _ _ (by omega), zero_add, regOf]

theorem flags_copied {e : Pte} (q : ℕ) (hv : Valid e) :
    PTE_FLAGS (PA2PTE q ||| PTE_FLAGS e ||| PTE_V) = PTE_FLAGS e := by
  have hone (i : ℕ) : PTE_V.getLsbD i = decide (i = 0) := by
    show (1#64).getLsbD i = _
    rw [BitVec.getLsbD_one]
    simp
  have hbit : e.getLsbD 0 = true := by
    by_contra h0
    refine hv (BitVec.eq_of_getLsbD_eq (fun i _ => ?_))
    rw [BitVec.getLsbD_and, hone]
    by_cases hi : i = 0
    · rw [hi, Bool.eq_false_of_not_eq_true h0]
      rfl
    · simp [hi]
  have hset : PTE_FLAGS e ||| PTE_V = PTE_FLAGS e := by
    apply BitVec.eq_of_getLsbD_eq
    intro i _
    rw [BitVec.getLsbD_or, hone, PTE_FLAGS, BitVec.getLsbD_and]
    by_cases hi : i = 0
    · subst hi
      simp [hbit]
    · simp [hi]
  rw [BitVec.or_assoc, hset, flags_or (flags_lt e)]

/-- The memory of the process `i` of `s` is that of the process `np` of `s'`, and so are the registers
but for the return value. -/
structure Forked (s : Sys) (i : ℕ) (s' : Sys) (np : ℕ) : Prop where
  sz : (s'.proc np).sz = (s.proc i).sz
  flags : ∀ va < (s.proc i).sz, PTE_FLAGS (pteAt s'.mem (s'.proc np).pagetable va) =
    PTE_FLAGS (pteAt s.mem (s.proc i).pagetable va)
  bytes : ∀ va < (s.proc i).sz,
    byteOf s'.mem (s'.proc np).pagetable va = byteOf s.mem (s.proc i).pagetable va
  regs : ∀ k < trapframeRegs, regOf (s'.mem.page (s'.proc np).trapframe) k =
    if k = a0Reg then 0 else regOf (s.mem.page (s.proc i).trapframe) k
  ofile : (s'.proc np).ofile = (s.proc i).ofile
  cwd : (s'.proc np).cwd = (s.proc i).cwd

variable {lo p sz : ℕ} {S T R : Multiset ℕ} {L M : ℕ → Pte} {m m₀ : Mem}

theorem uvmcopy_spec {old tf : ℕ} (hsz : sz ≤ TRAPFRAME) (hold : IsTree m.page 2 old S M)
    (hleaves : ∀ q ∈ leaves M, q ∈ R) (hsp : Special L tf) (hz : ∀ v < TFP, L v = 0)
    (ht : IsTree m.page 2 p T L) (hs : Uses lo m (T + (S + R))) :
    wp (uvmcopy old p sz) (fun ok m' => (∀ q ∈ S + R, m'.page q = m.page q) ∧
      ∃ T' L', IsTree m'.page 2 p T' L' ∧ Uses lo m' (T' + (leaves L' + (S + R))) ∧ Special L' tf ∧
        if ok then (∀ v, pagesOf sz ≤ v → v < TFP → L' v = 0) ∧ ∀ va < sz,
          PTE_FLAGS (L' (va / PGSIZE)) = PTE_FLAGS (M (va / PGSIZE)) ∧
          userByte m' L' va = userByte m M va
        else ∀ v < TFP, L' v = 0) (fun _ _ => False) m := by
  have hn := pagesOf_le hsz
  have hmax := TFP_lt_MAXVP
  have hk : Kept lo m p T L (S + R) m := ⟨ht, hs, fun _ _ => rfl⟩
  have hspec := copyLoop_built (R := R) (c := 0) (pagesOf sz) zero_le (fun v hv _ => hz v (by omega)) hold
    (.empty 0 (copiedPages M (S + R) m) hk)
  rw [Nat.zero_mul, zero_add] at hspec
  rw [uvmcopy]
  refine wp_mono hspec ?_ ?_
  swap
  · rintro e m' ⟨-, hbig⟩
    omega
  rintro ok m' (⟨rfl, T', L', hb⟩ | ⟨rfl, T', hk'⟩)
  · have hk' : UserKept lo m p T' L' (S + R) m' := by
      rw [← zero_add (S + R), ← leaves_zero hz] at hb
      exact hb.user zero_le hn (fun v _ hv => hz v (by omega))
    refine ⟨hk'.rest, T', L', hk'.tree, hk'.uses, hsp.congr (fun v hv => hb.outside v (by omega)), ?_⟩
    rw [if_pos rfl]
    refine ⟨fun v h1 h2 => (hb.outside v (by omega)).trans (hz v h2), fun va hva => ?_⟩
    have hpg : va / PGSIZE < pagesOf sz := by
      rw [pagesOf, PGSIZE]
      omega
    by_cases h0 : M (va / PGSIZE) = 0
    · have hL : L' (va / PGSIZE) = 0 := hb.hole _ zero_le hpg (if_pos h0)
      rw [userByte, userByte, hL, h0, if_pos rfl]
      exact ⟨rfl, rfl⟩
    · obtain ⟨⟨q, hq⟩, hcopy⟩ := hb.inside _ zero_le hpg _ _ (if_neg h0)
      have hvalid : Valid (M (va / PGSIZE)) :=
        (hold.zero_or_valid (lt_range_of_maxvp (by omega))).resolve_left h0
      refine ⟨by rw [hq, flags_copied q hvalid], ?_⟩
      have hne : L' (va / PGSIZE) ≠ 0 := by
        rw [hq]
        exact pte_ne_zero _ _
      rw [userByte, userByte, if_neg hne, if_neg h0, hcopy]
      exact mem_add.mpr (.inr (hleaves _ (mem_leaves (by omega) h0)))
  · refine ⟨hk'.rest, T', L, hk'.tree, hk'.uses.perm ?_, hsp, ?_⟩
    · rw [leaves_zero hz, zero_add]
    · simpa using hz

end Copy

section Frame

/-- The trapframe `src` is copied to `dst`, and 0 is stored in `a0`. -/
def frameWritten (m : Mem) (src dst : ℕ) : Mem :=
  let m' := m.setPage dst (setField (m.page dst) 0 (getField (m.page src) 0 (64 * trapframeRegs)))
  m'.setPage dst (setField (m'.page dst) (64 * a0Reg) (0 : BitVec 64))

theorem frameWritten_other (m : Mem) (src : ℕ) {dst q : ℕ} (h : q ≠ dst) :
    (frameWritten m src dst).page q = m.page q := by
  rw [frameWritten, setPage_page, if_neg h, setPage_page, if_neg h]

theorem regOf_frameWritten (m : Mem) (src dst : ℕ) {k : ℕ} (hk : k < trapframeRegs) :
    regOf ((frameWritten m src dst).page dst) k = if k = a0Reg then 0 else regOf (m.page src) k := by
  rw [frameWritten, setPage_page, if_pos rfl, setPage_page, if_pos rfl]
  exact regOf_copied _ _ hk

end Frame

section Kfork

variable {lo i np : ℕ} {boot : Multiset ℕ} {I : ℕ → Prop} {A A₀ : ℕ → Multiset ℕ} {c : ℕ → ℕ} {s s₀ s₁ : Sys}
  {E : VmPanic → Sys → Prop}

/-- The loop that duplicates the open files: descriptors below `fd` have been copied. -/
structure Dupped (lo : ℕ) (boot : Multiset ℕ) (I : ℕ → Prop) (A₀ : ℕ → Multiset ℕ) (s₀ : Sys)
    (A : ℕ → Multiset ℕ) (s₁ : Sys) (np : ℕ) (ofile : ℕ → Option ℕ) (fd : ℕ) (s : Sys) : Prop where
  acted : Acted lo boot I A₀ s₀ A (fdCount s.proc) s
  proc : s.proc = update s₁.proc np
    { s₁.proc np with ofile := fun k => if k < fd then ofile k else none }
  page : ∀ q ∈ procPages A, s.mem.page q = s₁.mem.page q

theorem dupFiles_spec (hi : i < NPROC) (hnp : np < NPROC) (hne : i ≠ np) (hI : I np)
    {ofile : ℕ → Option ℕ} (hofile : (s₁.proc i).ofile = ofile)
    (hst : (s₁.proc np).state = .USED) (hof : ∀ fd, (s₁.proc np).ofile fd = none)
    (h : Acted lo boot I A₀ s₀ A (fdCount s₁.proc) s₁) :
    wp (loop (fun fd =>
        match ofile fd with
        | none => pure ()
        | some f => do
          filedup f
          setProc np (fun n => { n with ofile := update n.ofile fd (some f) })) NOFILE 0)
      (fun _ s' => Dupped lo boot I A₀ s₀ A s₁ np ofile NOFILE s') E s₁ := by
  have hloop := wp_loop (E := E) (I := Dupped lo boot I A₀ s₀ A s₁ np ofile) NOFILE 0
    (f := fun fd =>
        match ofile fd with
        | none => pure ()
        | some f => do
          filedup f
          setProc np (fun n => { n with ofile := update n.ofile fd (some f) })) ?_ (s := s₁) ?_
  · rwa [zero_add] at hloop
  · intro fd s _ hfd hd
    rw [zero_add] at hfd
    have hstep (v : Option ℕ) (hv : ofile fd = v) :
        (fun k => if k < fd + 1 then ofile k else none) =
          update (fun k => if k < fd then ofile k else none) fd v := by
      funext k
      by_cases hk : k = fd
      · subst hk
        simp [hv]
      · rw [update_of_ne hk]
        by_cases hlt : k < fd
        · rw [if_pos hlt, if_pos (by omega)]
        · rw [if_neg hlt, if_neg (by omega)]
    cases hv : ofile fd with
    | none =>
      refine ⟨hd.acted, ?_, hd.page⟩
      have hnone : update (fun k => if k < fd then ofile k else none) fd none =
          fun k => if k < fd then ofile k else none := by
        rw [update_eq_self_iff]
        simp
      rw [hd.proc, hstep none hv, hnone]
    | some f =>
      have hpi : s.proc i = s₁.proc i := by rw [hd.proc, update_of_ne hne]
      have hpos : 0 < fdCount s.proc f := (fdCount_close hi hfd (by rw [hpi, hofile, hv])).1
      obtain ⟨-, hf⟩ := (hd.acted.procs i hi).fds fd f (by rw [hpi, hofile, hv])
      refine wp_seq (hd.acted.filedup hf hpos) ?_
      rintro _ s₂ ⟨hproc₂, hpages, hacted⟩
      have hnone : (s.proc np).ofile fd = none := by
        rw [hd.proc, update_self]
        simp
      have hst' : (s₂.proc np).state = .USED := by
        rw [hproc₂, hd.proc, update_self]
        exact hst
      have hset := hacted.setFd (v := some f) hnp hI (by rw [hst']; decide) hfd
        (fun g hg => Option.some.inj hg ▸ hf)
      rw [← fdCount_open hnp hfd hnone f, ← hproc₂] at hset
      refine ⟨hset, ?_, fun q hq => (hpages q hq).trans (hd.page q hq)⟩
      show update s₂.proc np _ = _
      rw [hproc₂, hd.proc, hstep (some f) hv]
      simp
  · refine ⟨h, ?_, fun _ _ => rfl⟩
    have hempty : (fun k => if k < 0 then ofile k else none) = (s₁.proc np).ofile := by
      funext k
      rw [hof k]
      rfl
    rw [hempty]
    exact (update_eq_self np s₁.proc).symm

theorem shareFiles_spec (hi : i < NPROC) (hnp : np < NPROC) (hne : i ≠ np) (hI : I np) {p : UProc}
    (hp : s₁.proc i = p) (hr : p.state = .RUNNABLE) (hst : (s₁.proc np).state = .USED)
    (hof : ∀ fd, (s₁.proc np).ofile fd = none) (h : Acted lo boot I A₀ s₀ A (fdCount s₁.proc) s₁) :
    wp (do
      loop (fun fd =>
        match p.ofile fd with
        | none => pure ()
        | some f => do
          filedup f
          setProc np (fun n => { n with ofile := update n.ofile fd (some f) })) NOFILE 0
      match p.cwd with
      | none => throw .nullCwd
      | some ip => do
        let cwd ← idup ip
        setProc np (fun n => { n with cwd := some cwd })
        setProc np (fun n => { n with parent := some i, state := .RUNNABLE })
        pure (some np))
      (fun r s' => r = some np ∧ Acted lo boot I A₀ s₀ A (fdCount s'.proc) s' ∧
        s'.proc = update s₁.proc np { s₁.proc np with
          ofile := p.ofile, cwd := p.cwd, parent := some i, state := .RUNNABLE } ∧
        ∀ q ∈ procPages A, s'.mem.page q = s₁.mem.page q) E s₁ := by
  have hparent := h.procs i hi
  rw [hp] at hparent
  refine wp_seq (dupFiles_spec hi hnp hne hI (congrArg UProc.ofile hp) hst hof h) ?_
  intro _ s₂ hd
  have hofile : (fun k => if k < NOFILE then p.ofile k else none) = p.ofile := by
    funext k
    split_ifs with hk
    · rfl
    · cases hv : p.ofile k with
      | none => rfl
      | some f => exact absurd (hparent.fds k f hv).1 hk
  have hproc := hd.proc
  rw [hofile] at hproc
  obtain ⟨ip, hip⟩ := Option.isSome_iff_exists.mp (hparent.cwd hr)
  simp only [hip, idup, wp_bind, wp_modify, wp_pure, wp_setProc]
  have hnew := hd.acted.procs np hnp
  have hin : s₂.proc np = { s₁.proc np with ofile := p.ofile } := by rw [hproc, update_self]
  -- the changes of the child after the loop, in one step
  have hfin : update (update s₂.proc np { s₂.proc np with cwd := some ip }) np
      { { s₂.proc np with cwd := some ip } with parent := some i, state := .RUNNABLE } =
      update s₂.proc np { s₂.proc np with cwd := some ip, parent := some i, state := .RUNNABLE } :=
    update_idem _ _ _
  have hcount : fdCount (update s₂.proc np
      { s₂.proc np with cwd := some ip, parent := some i, state := .RUNNABLE }) = fdCount s₂.proc := by
    refine fdCount_congr (fun j _ => ?_)
    by_cases hj : j = np
    · subst hj
      rw [update_self]
    · rw [update_of_ne hj]
  have hset := hd.acted.setProc (p := { s₂.proc np with cwd := some ip, parent := some i, state := .RUNNABLE })
    hnp hI ⟨fun _ => hnew.used (by rw [hin, hst]; decide), by simp, ?_, fun _ => rfl, hnew.fds⟩
  swap
  · rintro (h0 | h0) <;> cases h0
  simp only [update_self, hfin]
  refine ⟨trivial, ?_, ?_, hd.page⟩
  · rw [hcount]
    exact ⟨⟨hset.procs, hset.files, hset.uses⟩, hset.pages, hset.others, hset.same⟩
  · rw [hin, hproc, update_idem]

theorem kfork_spec (hlo : 0 < lo) (h : SysInv lo boot A (fdCount s.proc) s) (hi : i < NPROC)
    (hr : (s.proc i).state = .RUNNABLE) :
    wp (kfork i) (fun r s' =>
      (r = none ∧ Acted lo boot (fun j => (s.proc j).state = .UNUSED) A s A (fdCount s.proc) s' ∧
        SameFiles s s' ∧ ∀ j, (s'.proc j).state = (s.proc j).state) ∨
      ∃ np A', r = some np ∧ np < NPROC ∧ (s.proc np).state = .UNUSED ∧ (s'.proc np).state = .RUNNABLE ∧
        Acted lo boot (fun j => (s.proc j).state = .UNUSED) A s A' (fdCount s'.proc) s' ∧ Forked s i s' np) E s := by
  rw [kfork]
  refine wp_seq (allocproc_spec hlo (Acted.refl h (fun j => (s.proc j).state = .UNUSED)) (fun _ _ hj => hj)) ?_
  rintro _ s₁ ⟨hsame₁, ⟨rfl, hacted₁, hst⟩ | ⟨np, X, rfl, hnew, hacted₁⟩⟩
  · exact .inl ⟨rfl, hacted₁, hsame₁, hst⟩
  have hne : i ≠ np := by
    rintro rfl
    rw [hnew.unused] at hr
    cases hr
  have hpi : s₁.proc i = s.proc i := by rw [hnew.proc, update_of_ne hne]
  obtain ⟨hA0, -, -, hsz0⟩ := (h.procs np hnew.lt).unused hnew.unused
  have hof := (h.procs np hnew.lt).closed (.inl hnew.unused)
  obtain ⟨T', L', rfl, htree', hsp', hz'⟩ := hnew.space
  -- the new process
  have hnp : s₁.proc np = { s.proc np with
      state := .USED, trapframe := (s₁.proc np).trapframe, pagetable := (s₁.proc np).pagetable } := by
    conv_lhs => rw [hnew.proc, update_self]
  generalize htf : (s₁.proc np).trapframe = tf at *
  generalize hpt : (s₁.proc np).pagetable = pt at *
  -- the parent's address space is as it was
  have hpage (q : ℕ) (hq : q ∈ A i) : s₁.mem.page q = s.mem.page q := by
    refine hacted₁.same i hi ?_ q ?_
    · rw [hr]
      decide
    · rwa [update_of_ne hne]
  obtain ⟨⟨S, M, hAi, htree, hl⟩, hsz⟩ := (h.procs i hi).used (by rw [hr]; decide)
  have htree₁ : IsTree s₁.mem.page 2 (s.proc i).pagetable S M :=
    htree.frame (fun q hq => hpage q (by rw [hAi]; simp [hq]))
  set B := rest boot (update A np (T' + (leaves L' + {tf}))) s₁ np with hB
  obtain ⟨Q, hQ⟩ : ∃ Q, B = A i + Q := by
    obtain ⟨Q, hQ⟩ := otherPages_split (A := update A np (T' + (leaves L' + {tf}))) hi hne
    rw [hB, rest, hQ, update_of_ne hne]
    exact ⟨Q + boot + (pipeSet s₁.file).val, by abel⟩
  have hs₁ : Uses lo s₁.mem (T' + (S + (leaves M + {(s.proc i).trapframe} + ({tf} + Q)))) := by
    refine (hacted₁.uses_rest hnew.lt).perm ?_
    rw [update_self, ← hB, hQ, hAi, leaves_zero hz']
    abel
  rw [wp_bind, wp_myproc, wp_bind, wp_myproc, wp_bind, wp_vm, hpi, hpt]
  refine wp_mono (uvmcopy_spec hsz htree₁ (fun q hq => by simp [hq]) hsp' hz' htree' hs₁) ?_ (fun _ _ h => h.elim)
  rintro ok m₂ ⟨hsame₂, T₂, L₂, ht₂, hs₂, hsp₂, hok⟩
  have hrest (q : ℕ) (hq : q ∈ B) :
      m₂.page q = s₁.mem.page q := by
    refine hsame₂ q ?_
    rw [hQ, hAi] at hq
    simp only [mem_add] at hq ⊢
    tauto
  have hs₂' : Uses lo m₂ (T₂ + (leaves L₂ + {tf}) +
      B) := by
    refine hs₂.perm ?_
    rw [hQ, hAi]
    abel
  cases ok with
  | false =>
    have hz₂ : ∀ v < TFP, L₂ v = 0 := by simpa using hok
    have hsz₁ : (s₁.proc np).sz = 0 := by rw [hnp, hsz0]
    simp only [Bool.false_eq_true, if_false, wp_bind]
    have hown : Owns m₂ (s₁.proc np).toSpace (s₁.proc np).trapframe (T₂ + (leaves L₂ + {tf})) := by
      rw [htf]
      refine ⟨T₂, L₂, rfl, ?_, hsp₂, fun v _ hv => hz₂ v hv⟩
      rw [hpt]
      exact ht₂
    refine wp_imp (freeproc_spec (s := { s₁ with mem := m₂ }) hlo hown (by rw [hsz₁]; exact zero_le) hs₂') ?_
    intro _ s' hf
    have hof₂ (fd : ℕ) : ((({ s₁ with mem := m₂ } : Sys).proc np).ofile fd) = none := by
      rw [hnp]
      exact hof fd
    have hfreed := hacted₁.freed hnew.lt hnew.unused hof₂ ⟨m₂, s₁.proc np, by rw [update_eq_self], hrest⟩ hf
    rw [update_idem, ← hA0, update_eq_self] at hfreed
    have hsame' : SameFiles s₁ s' := (⟨rfl, rfl, rfl, rfl, rfl⟩ : SameFiles s₁ { s₁ with mem := m₂ }).trans hf.sameFiles
    refine .inl ⟨rfl, hfreed, hsame₁.trans hsame', fun j => ?_⟩
    obtain ⟨m', rfl, -, -⟩ := hf
    by_cases hj : j = np
    · subst hj
      simp only [update_self]
      exact hnew.unused.symm
    · simp only [update_of_ne hj]
      rw [hnew.proc, update_of_ne hj]
  | true =>
    rw [if_pos rfl] at hok
    obtain ⟨hz₂, hview⟩ := hok
    subst htf hpt
    rw [if_pos rfl, wp_bind, wp_setProc, wp_bind, wp_vm, copyTrapframe, wp_bind, wp_readPage, wp_bind, wp_readPage,
      wp_writePage, wp_bind, wp_vm, wp_readPage, wp_bind, wp_vm, wp_writePage]
    -- memory with the child's trapframe written
    obtain ⟨m₃, hm₃⟩ : ∃ m₃, m₃ = frameWritten m₂ (s.proc i).trapframe (s₁.proc np).trapframe := ⟨_, rfl⟩
    show wp _ _ E { s₁ with
      mem := frameWritten m₂ (s.proc i).trapframe (s₁.proc np).trapframe
      proc := update s₁.proc np { s₁.proc np with sz := (s.proc i).sz } }
    rw [← hm₃]
    have hfresh (q : ℕ) (hq : q ∈ T₂ + (leaves L₂ + B)) :
        q ≠ (s₁.proc np).trapframe := by
      intro heq
      have hcons : q ::ₘ (T₂ + (leaves L₂ + B)) = T₂ + (leaves L₂ + {(s₁.proc np).trapframe}) + B := by
        rw [← heq]
        rw [← Multiset.singleton_add]
        abel
      exact (nodup_cons.mp (hs₂'.perm hcons).nodup).1 hq
    have hpage₃ (q : ℕ) (hq : q ∈ T₂ + (leaves L₂ + B)) :
        m₃.page q = m₂.page q := by
      rw [hm₃, frameWritten_other _ _ (hfresh q hq)]
    have ht₃ : IsTree m₃.page 2 (s₁.proc np).pagetable T₂ L₂ := ht₂.frame (fun q hq => hpage₃ q (mem_add.mpr (.inl hq)))
    have hs₃ : Uses lo m₃ (T₂ + (leaves L₂ + {(s₁.proc np).trapframe}) + B) := by
      rw [hm₃]
      exact hs₂'.setPage.setPage
    have hacted₃ := hacted₁.put (m := m₃) (p := { s₁.proc np with sz := (s.proc i).sz })
      (X := T₂ + (leaves L₂ + {(s₁.proc np).trapframe})) hnew.lt hnew.unused ?_ hs₃ ?_
    rotate_left
    · have hold := hacted₁.procs np hnew.lt
      refine ⟨fun _ => ⟨⟨T₂, L₂, rfl, ht₃, hsp₂, hz₂⟩, hsz⟩, fun h0 => ?_, hold.closed, hold.cwd, hold.fds⟩
      have h0' : (s₁.proc np).state = .UNUSED := h0
      rw [hnp] at h0'
      cases h0'
    · intro q hq
      rw [hpage₃ q (mem_add.mpr (.inr (mem_add.mpr (.inr hq)))), hrest q hq]
    have hst₁ : (s₁.proc np).state = .USED := by rw [hnp]
    have hof₁ : (s₁.proc np).ofile = (s.proc np).ofile := by
      rw [hnp]
    have hcount : fdCount (update s₁.proc np { s₁.proc np with sz := (s.proc i).sz }) = fdCount s.proc := by
      refine fdCount_congr (fun j _ => ?_)
      by_cases hj : j = np
      · subst hj
        rw [update_self]
        exact hof₁
      · rw [update_of_ne hj, hnew.proc, update_of_ne hj]
    rw [update_idem] at hacted₃
    rw [← hcount] at hacted₃
    refine wp_imp (shareFiles_spec hi hnew.lt hne hnew.unused (p := s.proc i) ?_ hr ?_ ?_ hacted₃) ?_
    · simp only [update_of_ne hne, hpi]
    · simp only [update_self, hst₁]
    · simp only [update_self, hof₁]
      exact hof
    rintro _ s₄ ⟨rfl, hacted₄, hproc₄, hpage₄⟩
    have hnp₄ : s₄.proc np = { s₁.proc np with
        sz := (s.proc i).sz, ofile := (s.proc i).ofile, cwd := (s.proc i).cwd, parent := some i, state := .RUNNABLE } := by
      rw [hproc₄]
      simp only [update_self]
    refine .inr ⟨np, _, rfl, hnew.lt, hnew.unused, by rw [hnp₄], hacted₄, ?_⟩
    have hpt₄ : (s₄.proc np).pagetable = (s₁.proc np).pagetable := by rw [hnp₄]
    have htf₄ : (s₄.proc np).trapframe = (s₁.proc np).trapframe := by rw [hnp₄]
    -- the child's pages have not changed since then
    have hchild (q : ℕ) (hq : q ∈ T₂ + (leaves L₂ + {(s₁.proc np).trapframe})) : s₄.mem.page q = m₃.page q :=
      hpage₄ q (mem_procPages hnew.lt (by rwa [update_self]))
    have ht₄ : IsTree s₄.mem.page 2 (s₁.proc np).pagetable T₂ L₂ :=
      ht₃.frame (fun q hq => hchild q (mem_add.mpr (.inl hq)))
    have hs₄ := hacted₄.uses_rest hnew.lt
    rw [update_self, add_assoc] at hs₄
    have hs := h.uses_rest hi
    rw [hAi, add_assoc] at hs
    have hmax : TRAPFRAME < MAXVA := by decide
    refine ⟨by rw [hnp₄], fun va hva => ?_, fun va hva => ?_, fun k hk => ?_,
      by rw [hnp₄], by rw [hnp₄]⟩
    · rw [hpt₄, pteAt_eq (by omega) ht₄ hs₄, pteAt_eq (by omega) htree hs]
      exact (hview va hva).1
    · rw [hpt₄, byteOf_eq (by omega) ht₄ hs₄, byteOf_eq (by omega) htree hs]
      have hpg := page_lt_TFP (lt_of_lt_of_le hva hsz)
      calc userByte s₄.mem L₂ va = userByte m₂ L₂ va := by
            refine userByte_congr va rfl (fun hL => ?_)
            have hmem := mem_leaves hpg hL
            rw [hchild _ (by simp [hmem]), hpage₃ _ (by simp [hmem])]
        _ = userByte s₁.mem M va := (hview va hva).2
        _ = userByte s.mem M va := by
            refine userByte_congr va rfl (fun hM => hpage _ ?_)
            rw [hAi]
            simp [mem_leaves hpg hM]
    · have htfp : m₂.page (s.proc i).trapframe = s.mem.page (s.proc i).trapframe := by
        rw [hsame₂ _ (by simp), hpage _ (by rw [hAi]; simp)]
      rw [htf₄, hchild _ (by simp), hm₃, regOf_frameWritten _ _ _ hk, htfp]

end Kfork

end Xv6.UserVm
