import Xv6.FsFile

/-! What processes do with files (kernel/proc.c, kernel/exec.c, kernel/sysfile.c): `chdir`, `exec`,
`dup`, `fork` and `exit` pass the pointers into the inode table around. -/
namespace Xv6.Fs

variable {μ : Mode} {sb : Superblock} {p q : ℕ} {D V P : Set ℕ} {s s1 : St} {A A' A1 : ℕ → Node}
  {H H' H0 K : Multiset (ℕ × ℕ)} {N : Finset ℕ} {w i j n m c : ℕ}

section Cwd

theorem Tables.without_cwd (h : Tables s A H) (hq : q < NPROC) (hc : (s.proc q).cwd = some c) :
    ∃ n H0, H = (c, n) ::ₘ H0 ∧ H0.map Prod.fst = (s.setProc q { s.proc q with cwd := none }).pointers := by
  obtain ⟨n, hn⟩ := h.cwd hq hc
  obtain ⟨H0, hH⟩ := Multiset.exists_cons_of_mem hn
  refine ⟨n, H0, hH, ?_⟩
  have hp := h.pointers
  rw [hH, Multiset.map_cons, pointers_without_cwd hq hc] at hp
  exact (Multiset.cons_inj_right _).mp hp

theorem Tables.set_cwd (h : Tables s A H) {o : Option ℕ}
    (hp : H'.map Prod.fst = (s.setProc q { s.proc q with cwd := o }).pointers)
    (huniq : ∀ i n m, (i, n) ∈ H' → (i, m) ∈ H → n = m)
    (htype : ∀ n, n ∈ held H → n ∈ held H' → (A' n).type = (A n).type) :
    Tables (s.setProc q { s.proc q with cwd := o }) A' H' := by
  refine ⟨hp, h.closed, fun r fd f hf => ?_, fun f hf h1 h2 h3 n hn => ?_⟩
  · change (update s.proc q _ r).ofile fd = some f at hf
    by_cases hr : r = q
    · rw [hr, update_self] at hf
      exact h.ofile q fd f hf
    · rw [update_of_ne hr] at hf
      exact h.ofile r fd f hf
  · -- the file held its inode before
    obtain ⟨-, m, hm⟩ := h.file hf h2
    have hnm := huniq _ n m hn hm
    subst hnm
    rw [htype n ⟨_, hm⟩ ⟨_, hn⟩]
    exact h.writable f hf h1 h2 h3 n hm

theorem Env.cwd {s' : St} (h : Env s s') (q : ℕ) : (s'.proc q).cwd = (s.proc q).cwd := by rw [h.2]

theorem exitCwd_spec (h : Idle μ sb ∅ s A H) (ht : Tables s A H) (hp : p < NPROC)
    (hc : (s.proc p).cwd = some c) :
    wp (do
      beginOp
      let s ← get
      match (s.proc p).cwd with
      | none => throw .noCwd
      | some cwd => do
        iput sb p cwd
        endOp
        modify (fun s => s.setProc p { s.proc p with cwd := none })) (fun _ s' =>
      s'.proc = (s.setProc p { s.proc p with cwd := none }).proc ∧
        ∃ A' H', Idle μ sb ∅ s' A' H' ∧ Tables s' A' H' ∧ Released H A H' A') μ.E s := by
  obtain ⟨n, H0, rfl, hptr⟩ := ht.without_cwd hp hc
  have hmem : (c, n) ∈ (c, n) ::ₘ H0 := mem_cons_self _ _
  have hle : H0 ≤ (c, n) ::ₘ H0 := Multiset.le_cons_self _ _
  refine wp_seq (beginOp_idle h p) ?_
  rintro - s1 ⟨henv1, h1⟩
  have hv := h1.valid_of_mem ⟨_, hmem⟩ hmem
  have h1' : Now μ sb p ∅ (held H0) s1 A ((c, n) ::ₘ H0) 0 ∅ 0 := by
    refine h1.valid_mono ?_
    rintro k ⟨i, hi⟩
    exact ⟨i, mem_cons_of_mem hi⟩
  have hkeep : ∀ k ∈ (∅ : Set ℕ) ∪ held H0, ∃ i, (i, k) ∈ H0 := by
    rintro k (hk | hk)
    · exact absurd hk (Set.notMem_empty k)
    · exact hk
  simp only [wp_bind, wp_get, henv1.cwd, hc]
  refine wp_imp (iput_reap h1' (by simp) hv (h1'.keep_of hkeep)
    room_of_le) ?_
  rintro - s2 ⟨henv2, A2, hr2, h2⟩
  refine wp_seq (endOp_now h2 room_of_le subset_rfl
    (Set.empty_subset _)) ?_
  rintro - s3 ⟨henv3, h3⟩
  rw [wp_modify]
  have henv := henv1.trans (henv2.trans henv3)
  have ht3 : Tables s3 A ((c, n) ::ₘ H0) := ht.congr henv (fun _ _ => rfl)
  have hptr3 : H0.map Prod.fst = (s3.setProc p { s3.proc p with cwd := none }).pointers := by
    rw [hptr]
    simp only [St.pointers, St.setProc, henv.1, henv.2]
  refine ⟨by simp only [St.setProc, henv.2], A2, H0, h3.congr _ _, ht3.set_cwd hptr3 ?_ ?_,
    Released.of_reaped hr2⟩
  · exact fun i n m hn hm => h.inum_unique i n m (Multiset.mem_of_le hle hn) hm
  · exact fun k _ hk => by rw [hr2.shrunk.held_eq hk]

end Cwd

section Exit

theorem exitFiles_spec (h : Idle μ sb ∅ s A H) (ht : Tables s A H)
    (hstop : μ.stops .fileclose) :
    wp (loop (fun fd => do
      let s ← get
      match (s.proc p).ofile fd with
      | none => pure ()
      | some f => do
        fileclose sb p f
        setOfile p fd none) NOFILE 0) (fun _ s' => (∀ r, (s'.proc r).cwd = (s.proc r).cwd) ∧
      ∃ A' H', Idle μ sb ∅ s' A' H' ∧ Tables s' A' H' ∧ Released H A H' A') μ.E s := by
  refine wp_loop (I := fun _ s' => (∀ r, (s'.proc r).cwd = (s.proc r).cwd) ∧
    ∃ A' H', Idle μ sb ∅ s' A' H' ∧ Tables s' A' H' ∧ Released H A H' A') NOFILE 0 ?_
    ⟨fun _ => rfl, A, H, h, ht, Released.refl H A⟩
  rintro fd s1 - - ⟨hcwd1, A1, H1, h1, ht1, hr1⟩
  simp only [wp_bind, wp_get]
  cases hfd : (s1.proc p).ofile fd with
  | none => exact ⟨hcwd1, A1, H1, h1, ht1, hr1⟩
  | some f =>
    simp only [wp_bind]
    refine wp_imp (fileclose_spec h1 ht1 (fun n hn => absurd hn (Set.notMem_empty n))
      (ht1.ofile p fd f hfd) hstop) ?_
    rintro - s2 ⟨hproc2, A2, H2, h2, ht2, hr2⟩
    rw [setOfile, wp_modify]
    refine ⟨fun r => ?_, A2, H2, h2.congr _ _, ht2.clear_fd, hr1.trans hr2⟩
    rw [setProc_cwd, hproc2, hcwd1]

theorem kexit_spec (h : Idle μ sb ∅ s A H) (ht : Tables s A H) (hp : p < NPROC)
    (hc : (s.proc p).cwd = some c) (hstop : μ.stops .fileclose) (hinit : μ.stops .initExiting) :
    wp (kexit sb p) (fun _ s' => (s'.proc p).cwd = none ∧ (∀ r ≠ p, (s'.proc r).cwd = (s.proc r).cwd) ∧
      ∃ A' H', Idle μ sb ∅ s' A' H' ∧ Tables s' A' H' ∧ Released H A H' A') μ.E s := by
  rw [kexit]
  by_cases h0 : p = 0
  · rw [if_pos h0, wp_throw]
    exact ⟨hinit, h.bounded⟩
  · rw [if_neg h0]
    refine wp_seq (exitFiles_spec h ht hstop) ?_
    rintro - s1 ⟨hcwd1, A1, H1, h1, ht1, hr1⟩
    refine wp_imp (exitCwd_spec h1 ht1 hp ((hcwd1 p).trans hc)) ?_
    rintro - s2 ⟨hproc2, A2, H2, h2, ht2, hr2⟩
    refine ⟨?_, fun r hr => ?_, A2, H2, h2, ht2, hr1.trans hr2⟩
    · rw [hproc2]
      exact congrArg Proc.cwd (update_self p _ s1.proc)
    · rw [hproc2, ← hcwd1 r]
      exact congrArg Proc.cwd (update_of_ne hr _ s1.proc)

end Exit

section Dup

theorem filedup_spec {f : ℕ} (h : Idle μ sb D s A H) (ht : Tables s A H) (hf : f < NFILE)
    (hstop : μ.stops .filedup) :
    wp (filedup f) (fun r s' => r = f ∧ s'.proc = s.proc ∧ Idle μ sb D s' A H ∧ Tables s' A H) μ.E s := by
  simp only [filedup, wp_bind, wp_get]
  by_cases href : (s.file f).ref < 1
  · rw [if_pos href, wp_throw]
    exact ⟨hstop, h.bounded⟩
  · rw [if_neg href, wp_bind, wp_set, wp_pure]
    exact ⟨rfl, rfl, h.congr _ _, ht.set_ref hf (by omega) (by omega)⟩

theorem sysDup_spec (h : Idle μ sb D s A H) (ht : Tables s A H)
    (hstop : μ.stops .filedup) (fd : ℤ) :
    wp (sysDup p fd) (fun _ s' => (∀ r, (s'.proc r).cwd = (s.proc r).cwd) ∧ Idle μ sb D s' A H ∧
      Tables s' A H) μ.E s := by
  rw [sysDup]
  refine wp_seq (argfd_spec fd) ?_
  rintro r s1 ⟨rfl, hfd⟩
  cases r with
  | none => exact ⟨fun _ => rfl, h, ht⟩
  | some f =>
    have hf := ht.ofile p _ f (hfd f rfl).2
    simp only [wp_bind]
    refine wp_imp fdalloc_spec ?_
    rintro r s2 (⟨rfl, rfl, -⟩ | ⟨fd', rfl, -, -, rfl⟩)
    · exact ⟨fun _ => rfl, h, ht⟩
    · simp only [wp_bind]
      have h2 : Idle μ sb D (s1.withFd p fd' f) A H := h.congr _ _
      refine wp_imp (filedup_spec h2 (ht.set_fd hf) hf hstop) ?_
      rintro r s3 ⟨-, hproc3, h3, ht3⟩
      rw [wp_pure]
      exact ⟨fun r => by rw [hproc3]; exact setProc_cwd r, h3, ht3⟩

theorem sysRead_spec (h : Idle μ sb D s A H) (ht : Tables s A H) (hstop : μ.stops .fileread)
    (hholey : μ.holey = ∅) (fd : ℤ) (dst : ℕ → Bool) (len : ℤ) :
    wp (sysRead sb p fd dst len) (fun _ s' => s'.proc = s.proc ∧ s'.disk = s.disk ∧
      Idle μ sb D s' A H ∧ Tables s' A H) μ.E s := by
  rw [sysRead]
  refine wp_seq (argfd_spec fd) ?_
  rintro r s1 ⟨rfl, hfd⟩
  cases r with
  | none => exact ⟨rfl, rfl, h, ht⟩
  | some f => exact fileread_spec h ht (ht.ofile p _ f (hfd f rfl).2) hstop hholey dst len

end Dup

section Fork

theorem forkFiles_spec (h : Idle μ sb D s A H) (ht : Tables s A H)
    (hstop : μ.stops .filedup) :
    wp (loop (fun i => do
      let s ← get
      match (s.proc p).ofile i with
      | none => pure ()
      | some f => do
        let f ← filedup f
        setOfile q i (some f)) NOFILE 0) (fun _ s' => (∀ r, (s'.proc r).cwd = (s.proc r).cwd) ∧
      Idle μ sb D s' A H ∧ Tables s' A H) μ.E s := by
  refine wp_loop (I := fun _ s' => (∀ r, (s'.proc r).cwd = (s.proc r).cwd) ∧ Idle μ sb D s' A H ∧
    Tables s' A H) NOFILE 0 ?_ ⟨fun _ => rfl, h, ht⟩
  rintro fd s1 - - ⟨hcwd1, h1, ht1⟩
  simp only [wp_bind, wp_get]
  cases hfd : (s1.proc p).ofile fd with
  | none => exact ⟨hcwd1, h1, ht1⟩
  | some f =>
    have hf := ht1.ofile p fd f hfd
    simp only [wp_bind]
    refine wp_imp (filedup_spec h1 ht1 hf hstop) ?_
    rintro r s2 ⟨rfl, hproc2, h2, ht2⟩
    rw [setOfile, wp_modify]
    refine ⟨fun r' => ?_, h2.congr _ _, ht2.set_fd hf⟩
    rw [setProc_cwd, hproc2, hcwd1]

theorem kfork_spec (h : Idle μ sb D s A H) (ht : Tables s A H) (hp : p < NPROC) (hq : q < NPROC)
    (hc : (s.proc p).cwd = some c) (hchild : (s.proc q).cwd = none) (hstop : μ.stops .filedup) :
    wp (kfork p q) (fun _ s' => (s'.proc q).cwd = some c ∧ (∀ r ≠ q, (s'.proc r).cwd = (s.proc r).cwd) ∧
      ∃ n, (c, n) ∈ H ∧ Idle μ sb D s' A ((c, n) ::ₘ H) ∧ Tables s' A ((c, n) ::ₘ H)) μ.E s := by
  rw [kfork]
  refine wp_seq (forkFiles_spec h ht hstop) ?_
  rintro - s1 ⟨hcwd1, h1, ht1⟩
  obtain ⟨n, hn⟩ := ht1.cwd hp ((hcwd1 p).trans hc)
  obtain ⟨L, hok, hA⟩ := h1.ok
  simp only [wp_bind, wp_get, hcwd1, hc]
  refine wp_imp (idup_spec (hok p) hn) ?_
  rintro r s2 ⟨rfl, T, rfl, hok2, hkeep⟩
  rw [wp_bind, wp_modify, wp_pure]
  have hmem (x : ℕ × ℕ) (hx : x ∈ (r, n) ::ₘ H) : x ∈ H := by
    rcases Multiset.mem_cons.mp hx with rfl | hx
    · exact hn
    · exact hx
  have h2 : Idle μ sb D { s1 with itable := T } A ((r, n) ::ₘ H) := by
    refine ⟨⟨L, hok2.of_unlocked, hA⟩, h1.outstanding, h1.lh, h1.tooBig, h1.single, h1.commits,
      fun i m hi => hkeep i m (hmem _ hi) (h1.valid i m (hmem _ hi)), h1.holes, fun m hm => ?_⟩
    obtain ⟨i, hi⟩ := h1.dirty hm
    exact ⟨i, mem_cons_of_mem hi⟩
  refine ⟨?_, fun r' hr' => ?_, n, hn, h2.congr _ _, ?_⟩
  · exact congrArg Proc.cwd (update_self q _ s1.proc)
  · rw [← hcwd1 r']
    exact congrArg Proc.cwd (update_of_ne hr' _ s1.proc)
  · have ht2 : Tables { s1 with itable := T } A H := ht1.congr ⟨rfl, rfl⟩ (fun _ _ => rfl)
    refine ht2.set_cwd ?_ (fun i k m hk hm => h1.inum_unique i k m (hmem _ hk) hm) (fun _ _ _ => rfl)
    have hptr := pointers_with_cwd (s := { s1 with itable := T }) hq ((hcwd1 q).trans hchild) r
    rw [hptr, Multiset.map_cons, ht2.pointers]

end Fork

section Exec

theorem readAll_now (reads : List (ℕ × ℕ)) (h : Now μ sb p D V s A H K N w) (hi : (i, n) ∈ K)
    (hn : n ∉ μ.holey) {E : Panic → St → Prop} :
    wp (readAll sb i reads) (fun _ s' => s' = s) E s := by
  induction reads with
  | nil => exact rfl
  | cons x reads ih =>
    rw [readAll]
    refine wp_seq (readi_now h hi hn) ?_
    rintro r s1 ⟨rfl, -⟩
    exact ih

theorem sysExec_spec (hr : Ready μ sb p D s A H P) (hholey : μ.holey = ∅) (path : Option Path)
    (reads : List (ℕ × ℕ)) :
    wp (sysExec sb p path reads) (fun _ s' => Env s s' ∧ ∃ A', Idle μ sb D s' A' H ∧ Shrunk H A A')
      μ.E s := by
  cases path with
  | none => exact ⟨Env.refl s, A, hr.idle, Shrunk.refl H A⟩
  | some path =>
    rw [sysExec, kexec]
    refine wp_seq (beginOp_idle hr.idle p) ?_
    rintro - s1 ⟨henv1, h1⟩
    refine wp_seq (nameiLock_now hr henv1 h1) ?_
    rintro r s2 ⟨henv2, A2, hs2, ⟨rfl, h2⟩ | ⟨i, n, rfl, -, h2, hnotype⟩⟩
    · simp only [wp_bind]
      refine wp_imp (endOp_now h2 room_of_le subset_rfl
        hr.idle.dirty) ?_
      rintro - s3 ⟨henv3, h3⟩
      rw [wp_pure]
      exact ⟨henv1.trans (henv2.trans henv3), A2, h3, hs2⟩
    · simp only [wp_bind]
      refine wp_imp (ilock_now h2 (mem_cons_self _ _) room_of_le
        (by simp) hnotype) ?_
      rintro - s3 ⟨h3, henv3⟩
      refine wp_seq (readAll_now reads h3 (mem_cons_self _ _) (by rw [hholey]; exact id)) ?_
      rintro - s4 rfl
      refine wp_imp (dropEnd_now hr h3 hs2 room_of_le) ?_
      rintro r s5 ⟨henv5, -, A5, h5, hs5⟩
      exact ⟨henv1.trans (henv2.trans (henv3.trans henv5)), A5, h5, hs5⟩

end Exec

section Chdir

theorem chdirTo_now (h : Now μ sb p ∅ (insert n (held H)) s A ((i, n) ::ₘ H) 0 N w) (ht : Tables s A' H)
    (hA : ∀ m ∈ held H, (A m).type = (A' m).type)
    (hp : p < NPROC) (hc : (s.proc p).cwd = some c) (hroom : ∀ n0, μ.Room (insert n0 N) w) :
    wp (chdirTo sb p i) (fun r s' => r = 0 ∧ s'.proc = (s.setProc p { s.proc p with cwd := some i }).proc ∧
      ∃ A2 n0 H0, H = (c, n0) ::ₘ H0 ∧ Reaped ((i, n) ::ₘ H0) {n0} A A2 ∧
        Idle μ sb ∅ s' A2 ((i, n) ::ₘ H0) ∧ Tables s' A2 ((i, n) ::ₘ H0)) μ.E s := by
  obtain ⟨n0, H0, rfl, hptr⟩ := ht.without_cwd hp hc
  have hmem : (c, n0) ∈ (i, n) ::ₘ (c, n0) ::ₘ H0 :=
    mem_cons_of_mem (mem_cons_self _ _)
  have huniq : ∀ j k m, (j, k) ∈ (i, n) ::ₘ (c, n0) ::ₘ H0 → (j, m) ∈ (i, n) ::ₘ (c, n0) ::ₘ H0 → k = m :=
    fun j k m h1 h2 => h.inum_unique h1 h2
  have hv : (s.itable c).valid = true :=
    h.valid_of_mem (Set.mem_insert_of_mem _ ⟨c, mem_cons_self _ _⟩) hmem
  have hV : held ((i, n) ::ₘ H0) ⊆ insert n (held ((c, n0) ::ₘ H0)) := by
    rintro k ⟨j, hj⟩
    rcases Multiset.mem_cons.mp hj with heq | hj
    · exact .inl (Prod.mk.inj heq).2
    · exact .inr ⟨j, mem_cons_of_mem hj⟩
  have h' := h.valid_mono hV
  rw [cons_swap] at h'
  have hkeep : ∀ k ∈ (∅ : Set ℕ) ∪ held ((i, n) ::ₘ H0), ∃ j, (j, k) ∈ (i, n) ::ₘ H0 := by
    rintro k (hk | hk)
    · exact absurd hk (Set.notMem_empty k)
    · exact hk
  simp only [chdirTo, wp_bind, wp_get, hc]
  refine wp_imp (iput_reap h' (by simp) hv (h'.keep_of hkeep)
    (hroom n0)) ?_
  rintro - s1 ⟨henv1, A1, hr1, h1⟩
  refine wp_seq (endOp_now h1 (hroom n0) subset_rfl (Set.empty_subset _)) ?_
  rintro - s2 ⟨henv2, h2⟩
  rw [wp_bind, wp_modify, wp_pure]
  have henv := henv1.trans henv2
  have ht2 : Tables s2 A' ((c, n0) ::ₘ H0) := ht.congr henv (fun _ _ => rfl)
  refine ⟨rfl, by simp only [St.setProc, henv.2], A1, n0, H0, rfl, hr1, h2.congr _ _, ht2.set_cwd ?_ ?_ ?_⟩
  · obtain ⟨H1, h3, h4⟩ := pointers_move (s := s2) hp ((henv.cwd p).trans hc) i
    have h5 := pointers_without_cwd hp hc
    rw [← pointers_env henv, h3] at h5
    rw [h4, Multiset.map_cons, hptr, (Multiset.cons_inj_right _).mp h5]
  · intro j k m hk hm
    refine huniq j k m ?_ (mem_cons_of_mem hm)
    rcases Multiset.mem_cons.mp hk with heq | hk
    · rw [heq]
      exact mem_cons_self _ _
    · exact mem_cons_of_mem (mem_cons_of_mem hk)
  · intro k hk hk'
    rw [hr1.shrunk.held_eq hk', hA k hk]

theorem sysChdir_spec (hr : Ready μ sb p ∅ s A H P) (ht : Tables s A H) (hp : p < NPROC)
    (path : Option Path) :
    wp (sysChdir sb p path) (fun r s' =>
      (r = -1 ∧ Env s s' ∧ ∃ A', Idle μ sb ∅ s' A' H ∧ Shrunk H A A') ∨
      (r = 0 ∧ ∃ A1 A' i n c n0 H0, H = (c, n0) ::ₘ H0 ∧ (s.proc p).cwd = some c ∧
        s'.proc = (s.setProc p { s.proc p with cwd := some i }).proc ∧ n ∈ P ∧ (A1 n).type = T_DIR ∧
        Shrunk H A A1 ∧ Reaped ((i, n) ::ₘ H0) {n0} A1 A' ∧ Idle μ sb ∅ s' A' ((i, n) ::ₘ H0) ∧
        Tables s' A' ((i, n) ::ₘ H0))) μ.E s := by
  have hroom (n0 : ℕ) : μ.Room (insert n0 (∅ : Finset ℕ)) 0 := room_of_le
  have hroom0 : μ.Room (∅ : Finset ℕ) 0 := room_of_le
  unfold sysChdir
  refine wp_seq (beginOp_idle hr.idle p) ?_
  rintro - s1 ⟨henv1, h1⟩
  cases path with
  | none =>
    simp only [wp_bind]
    refine wp_imp (endOp_now h1 hroom0 subset_rfl hr.idle.dirty) ?_
    rintro - s2 ⟨henv2, h2⟩
    rw [wp_pure]
    exact .inl ⟨rfl, henv1.trans henv2, A, h2, Shrunk.refl H A⟩
  | some path =>
    simp only [wp_bind]
    refine wp_imp (nameiLock_now hr henv1 h1) ?_
    rintro r s2 ⟨henv2, A2, hs2, ⟨rfl, h2⟩ | ⟨i, n, rfl, hnP, h2, hnotype⟩⟩
    · simp only [wp_bind]
      refine wp_imp (endOp_now h2 hroom0 subset_rfl hr.idle.dirty) ?_
      rintro - s3 ⟨henv3, h3⟩
      rw [wp_pure]
      exact .inl ⟨rfl, henv1.trans (henv2.trans henv3), A2, h3, hs2⟩
    · simp only [wp_bind]
      refine wp_imp (ilock_now h2 (mem_cons_self _ _) hroom0
        (by simp) hnotype) ?_
      rintro - s3 ⟨h3, henv3⟩
      obtain ⟨⟨htype, -⟩, -⟩ := h3.copy (mem_cons_self (i, n) 0)
      simp only [copyOf, wp_bind, wp_get, wp_pure, htype]
      by_cases hdir : (A2 n).type = T_DIR
      · rw [if_neg (not_not.mpr hdir)]
        refine wp_seq (iunlock_now h3) ?_
        rintro - s4 ⟨h4, henv4⟩
        have henv := henv1.trans (henv2.trans (henv3.trans henv4))
        obtain ⟨c, n0, hc, -⟩ := hr.starts.cwd
        refine wp_imp (chdirTo_now h4 (ht.congr henv (fun _ _ => rfl))
          (fun m hm => by rw [hs2.held_eq hm]) hp ((henv.cwd p).trans hc) hroom) ?_
        rintro r s5 ⟨rfl, hproc, A5, n1, H0, hH, hr5, h5, ht5⟩
        refine .inr ⟨rfl, A2, A5, i, n, c, n1, H0, hH, hc, ?_, hnP, hdir, hs2, hr5, h5, ht5⟩
        rw [hproc]
        simp only [St.setProc, henv.2]
      · rw [if_pos hdir]
        refine wp_imp (dropEnd_now hr h3 hs2 (hroom n)) ?_
        rintro r s4 ⟨henv4, rfl, A4, h4, hs4⟩
        exact .inl ⟨rfl, henv1.trans (henv2.trans (henv3.trans henv4)), A4, h4, hs4⟩

end Chdir

end Xv6.Fs
