import Xv6.FsFile
import Xv6.FsRefs

/-! The system calls give back every reference they take that no open file and no process keeps. -/
namespace Xv6.Fs

variable {full : Prop} {sb : Superblock} {p q i j n k : ℕ} {s₀ s s' s1 : St} {H H' K : Multiset ℕ}

section Calls

/-- The current directory of `p` is held. -/
def HasCwd (p : ℕ) (s : St) (H : Multiset ℕ) : Prop := ∀ c, (s.proc p).cwd = some c → c ∈ H

theorem hasCwd_pointers (s : St) (hp : p < NPROC) : HasCwd p s s.pointers :=
  fun _ hc => mem_pointers_of_cwd hp hc

theorem HasCwd.cons (h : HasCwd p s H) (i : ℕ) : HasCwd p s (i ::ₘ H) :=
  fun c hc => mem_cons_of_mem (h c hc)

theorem quiet_setNlink (i : ℕ) (v : BitVec 16 → BitVec 16) : Quiet (setNlink sb i v) :=
  Keeps.bind (quiet_setCopy i _) (fun _ => quiet_iupdate i)

theorem quiet_onlyIf {c : Prop} [Decidable c] {m : Op Unit} (h : Quiet m) : Quiet (onlyIf c m) :=
  Keeps.ite h (Keeps.pure ())

theorem quiet_busyDir (i : ℕ) : Quiet (busyDir sb i) := by
  have hloop (fuel k : ℕ) : Quiet (isdiremptyLoop sb i fuel k) := by
    induction fuel generalizing k with
    | zero => exact Keeps.pure _
    | succ fuel ih =>
      exact Keeps.bind (quiet_readDirent i _ Panic.noConfusion) (fun _ => Keeps.ite (Keeps.pure _) (ih _))
  refine Keeps.bind (quiet_copyOf i) (fun d => Keeps.ite ?_ (Keeps.pure _))
  exact Keeps.bind (Keeps.bind (quiet_copyOf i) (fun _ => hloop _ _)) (fun _ => Keeps.pure _)

theorem quiet_end (x : ℤ) : Quiet (do endOp; pure x) := Keeps.bind quiet_endOp (fun _ => Keeps.pure x)

theorem dropEnd_refs (x : ℤ) (h : Since s₀ p (i ::ₘ H) (i ::ₘ 0) s) :
    wp (do
      iunlockput sb p i
      endOp
      pure x) (fun _ => Since s₀ p H 0) (spare full) s := by
  refine wp_seq (iunlockput_refs h) ?_
  intro _ s1 h1
  exact h1.quiet (quiet_end x)

theorem linkBad_refs (h : Since s₀ p (i ::ₘ H) 0 s) :
    wp (linkBad sb p i) (fun _ => Since s₀ p H 0) (spare full) s := by
  rw [linkBad]
  refine wp_seq (ilock_refs h (mem_cons_self i H)) ?_
  intro _ s1 h1
  refine wp_seq (h1.quiet (quiet_setNlink i _)) ?_
  intro _ s2 h2
  exact dropEnd_refs (-1) h2

theorem linkTo_refs (new : Path) (h : Since s₀ p (i ::ₘ H) 0 s) (hfit : Fits full H 3) (hcwd : HasCwd p s₀ H) :
    wp (linkTo sb p i new) (fun _ => Since s₀ p H 0) (spare full) s := by
  rw [linkTo]
  refine wp_seq (namex_refs true new h (hfit.cons i) (hcwd.cons i)) ?_
  rintro r s1 ⟨henv1, ⟨rfl, h1⟩ | ⟨d, name, rfl, h1⟩⟩
  · exact linkBad_refs ⟨h1, henv1⟩
  · -- the directory is given back, and then the inode
    have hbad (s2 : St) (h2 : Since s₀ p (d ::ₘ i ::ₘ H) (d ::ₘ 0) s2) :
        wp (do
          iunlockput sb p d
          linkBad sb p i) (fun _ => Since s₀ p H 0) (spare full) s2 := by
      refine wp_seq (iunlockput_refs h2) ?_
      intro _ s3 h3
      exact linkBad_refs h3
    simp only [wp_bind]
    refine wp_imp (ilock_refs ⟨h1, henv1⟩ (mem_cons_self _ _)) ?_
    intro _ s2 h2
    simp only [wp_bind, wp_get]
    by_cases hdev : (s2.itable d).dev ≠ (s2.itable i).dev
    · rw [if_pos hdev]
      exact hbad s2 h2
    · rw [if_neg hdev]
      refine wp_seq (dirlink_refs h2 ((hfit.cons i).cons d) name _) ?_
      intro r s3 h3
      cases r with
      | false =>
        rw [if_neg Bool.false_ne_true]
        exact hbad s3 h3
      | true =>
        rw [if_pos rfl]
        refine wp_seq (iunlockput_refs h3) ?_
        intro _ s4 h4
        refine wp_seq (iput_refs h4 (fun hc => absurd hc (notMem_zero i))) ?_
        intro _ s5 h5
        exact h5.quiet (quiet_end 0)

theorem sysLink_refs (old new : Option Path) (h : Since s₀ p H 0 s) (hfit : Fits full H 3)
    (hcwd : HasCwd p s₀ H) :
    wp (sysLink sb p old new) (fun _ => Since s₀ p H 0) (spare full) s := by
  cases old with
  | none => exact h
  | some old =>
    cases new with
    | none => exact h
    | some new =>
      rw [sysLink]
      refine wp_seq (h.quiet quiet_beginOp) ?_
      intro _ s1 h1
      refine wp_seq (namei_refs old h1 (hfit.mono (by omega)) hcwd) ?_
      rintro r s2 (⟨rfl, h2⟩ | ⟨i, rfl, h2⟩)
      · exact h2.quiet (quiet_end (-1))
      · simp only [wp_bind]
        refine wp_imp (ilock_refs h2 (mem_cons_self _ _)) ?_
        intro _ s3 h3
        simp only [copyOf, wp_bind, wp_get, wp_pure]
        by_cases hdir : (s3.itable i).copy.type = T_DIR
        · rw [if_pos hdir]
          exact dropEnd_refs (-1) h3
        · rw [if_neg hdir]
          refine wp_seq (h3.quiet (quiet_setNlink i _)) ?_
          intro _ s4 h4
          refine wp_seq (iunlock_refs h4) ?_
          intro _ s5 h5
          exact linkTo_refs new h5 hfit hcwd

theorem unlinkEntry_refs (off : ℕ) (h : Since s₀ p (i ::ₘ j ::ₘ H) (i ::ₘ j ::ₘ 0) s) :
    wp (unlinkEntry sb p j i off) (fun _ => Since s₀ p H 0) (spare full) s := by
  rw [unlinkEntry]
  refine wp_seq (h.quiet (quiet_writei j _ _ _)) ?_
  intro r s1 h1
  by_cases hr : r ≠ DESIZE
  · rw [if_pos hr]
    exact Panic.noConfusion
  · rw [if_neg hr]
    refine wp_seq (h1.quiet (quiet_copyOf i)) ?_
    intro d s2 h2
    refine wp_seq (h2.quiet (quiet_onlyIf (quiet_setNlink j _))) ?_
    intro _ s3 h3
    rw [cons_swap i j H, cons_swap i j 0] at h3
    refine wp_seq (iunlockput_refs h3) ?_
    intro _ s4 h4
    refine wp_seq (h4.quiet (quiet_setNlink i _)) ?_
    intro _ s5 h5
    exact dropEnd_refs 0 h5

theorem sysUnlink_refs (path : Option Path) (h : Since s₀ p H 0 s) (hfit : Fits full H 3) (hcwd : HasCwd p s₀ H) :
    wp (sysUnlink sb p path) (fun _ => Since s₀ p H 0) (spare full) s := by
  cases path with
  | none => exact h
  | some path =>
    rw [sysUnlink]
    refine wp_seq (h.quiet quiet_beginOp) ?_
    intro _ s1 h1
    refine wp_seq (namex_refs true path h1 (hfit.mono (by omega)) hcwd) ?_
    rintro r s2 ⟨henv2, ⟨rfl, h2⟩ | ⟨j, name, rfl, h2⟩⟩
    · exact Since.quiet ⟨h2, henv2⟩ (quiet_end (-1))
    · have hbad (s' : St) (h' : Since s₀ p (j ::ₘ H) (j ::ₘ 0) s') :
          wp (unlinkBad sb p j) (fun _ => Since s₀ p H 0) (spare full) s' := dropEnd_refs (-1) h'
      simp only [wp_bind]
      refine wp_imp (ilock_refs ⟨h2, henv2⟩ (mem_cons_self _ _)) ?_
      intro _ s3 h3
      by_cases hdots : namecmp name dot = 0 ∨ namecmp name dotdot = 0
      · rw [if_pos hdots]
        exact hbad s3 h3
      · rw [if_neg hdots]
        refine wp_seq (dirlookup_refs h3 (Fits.cons (hfit.mono (by omega)) j) name) ?_
        rintro r s4 (⟨rfl, h4⟩ | ⟨i, off, rfl, h4⟩)
        · exact hbad s4 h4
        · simp only [wp_bind]
          refine wp_imp (ilock_refs h4 (mem_cons_self _ _)) ?_
          intro _ s5 h5
          refine wp_seq (h5.quiet (quiet_copyOf i)) ?_
          intro d s6 h6
          by_cases hlink : d.nlink.toInt < 1
          · rw [if_pos hlink]
            exact Panic.noConfusion
          · rw [if_neg hlink]
            refine wp_seq (h6.quiet (quiet_busyDir i)) ?_
            intro r s7 h7
            cases r with
            | true =>
              rw [if_pos rfl]
              refine wp_seq (iunlockput_refs h7) ?_
              intro _ s8 h8
              exact hbad s8 h8
            | false =>
              rw [if_neg Bool.false_ne_true]
              exact unlinkEntry_refs off h7

/-- What `create` leaves: nothing, or one more pointer, which is locked. -/
def Got (p : ℕ) (H : Multiset ℕ) (s : St) (r : Option ℕ) (s' : St) : Prop :=
  Env s s' ∧ ((r = none ∧ Refs p s' H 0) ∨ ∃ i, r = some i ∧ Refs p s' (i ::ₘ H) (i ::ₘ 0))

theorem createFail_refs (h : Since s₀ p (i ::ₘ j ::ₘ H) (i ::ₘ j ::ₘ 0) s) :
    wp (createFail sb p j i) (Got p H s₀) (spare full) s := by
  rw [createFail]
  refine wp_seq (h.quiet (quiet_setNlink i _)) ?_
  intro _ s1 h1
  refine wp_seq (iunlockput_refs h1) ?_
  intro _ s2 h2
  refine wp_seq (iunlockput_refs h2) ?_
  intro _ s3 h3
  exact ⟨h3.env, .inl ⟨rfl, h3.toRefs⟩⟩

theorem createDots_refs (type : BitVec 16) (h : Since s₀ p H K s) (hfit : Fits full H 1) :
    wp (createDots sb p j i type) (fun _ => Since s₀ p H K) (spare full) s := by
  unfold createDots
  by_cases ht : type = T_DIR
  · simp only [if_pos ht, wp_bind, wp_get]
    refine wp_imp (dirlink_refs h hfit dot _) ?_
    intro r s1 h1
    cases r with
    | false => exact h1
    | true =>
      simp only [if_true, wp_bind, wp_get]
      exact dirlink_refs h1 hfit dotdot _
  · rw [if_neg ht]
    exact h

theorem ialloc_refs (dev : ℕ) (type : BitVec 16) (h : Since s₀ p H K s) (hfit : Fits full H 1) :
    wp (ialloc sb dev type) (fun r s' => (r = none ∧ Since s₀ p H K s') ∨
      ∃ i, r = some i ∧ Since s₀ p (i ::ₘ H) K s') (spare full) s := by
  simp only [ialloc, wp_bind, wp_get]
  split
  · exact .inl ⟨rfl, h⟩
  · next inum _ =>
    refine wp_seq (h.quiet (quiet_disk _)) ?_
    intro _ s1 h1
    refine wp_seq (h1.quiet (quiet_logWrite _)) ?_
    intro _ s2 h2
    refine wp_seq (iget_refs h2 hfit dev) ?_
    intro i s3 h3
    exact .inr ⟨i, rfl, h3⟩

theorem createNew_refs (name : Name) (type major minor : BitVec 16) (h : Since s₀ p (j ::ₘ H) (j ::ₘ 0) s)
    (hfit : Fits full H 3) :
    wp (createNew sb p j name type major minor) (Got p H s₀) (spare full) s := by
  simp only [createNew, wp_bind, wp_get]
  refine wp_imp (ialloc_refs _ type h (Fits.cons (hfit.mono (by omega)) j)) ?_
  rintro r s1 (⟨rfl, h1⟩ | ⟨i, rfl, h1⟩)
  · simp only [wp_bind]
    refine wp_imp (iunlockput_refs h1) ?_
    intro _ s2 h2
    exact ⟨h2.env, .inl ⟨rfl, h2.toRefs⟩⟩
  · have hfit1 : Fits full (i ::ₘ j ::ₘ H) 1 := (hfit.cons j).cons i
    simp only [wp_bind]
    refine wp_imp (ilock_refs h1 (mem_cons_self _ _)) ?_
    intro _ s2 h2
    refine wp_seq (h2.quiet (quiet_setCopy i _)) ?_
    intro _ s3 h3
    refine wp_seq (h3.quiet (quiet_iupdate i)) ?_
    intro _ s4 h4
    refine wp_seq (createDots_refs type h4 hfit1) ?_
    intro r s5 h5
    cases r with
    | false =>
      rw [if_neg Bool.false_ne_true]
      exact createFail_refs h5
    | true =>
      simp only [if_true, wp_bind, wp_get]
      refine wp_imp (dirlink_refs h5 hfit1 name _) ?_
      intro r s6 h6
      cases r with
      | false =>
        rw [if_neg Bool.false_ne_true]
        exact createFail_refs h6
      | true =>
        rw [if_pos rfl]
        refine wp_seq (h6.quiet (quiet_onlyIf (quiet_setNlink j _))) ?_
        intro _ s7 h7
        rw [cons_swap i j H, cons_swap i j 0] at h7
        refine wp_seq (iunlockput_refs h7) ?_
        intro _ s8 h8
        exact ⟨h8.env, .inr ⟨i, rfl, h8.toRefs⟩⟩

theorem create_refs (path : Path) (type major minor : BitVec 16) (h : Since s₀ p H 0 s) (hfit : Fits full H 3)
    (hcwd : HasCwd p s₀ H) : wp (create sb p path type major minor) (Got p H s₀) (spare full) s := by
  rw [create]
  refine wp_seq (namex_refs true path h (hfit.mono (by omega)) hcwd) ?_
  rintro r s1 ⟨henv1, ⟨rfl, h1⟩ | ⟨j, name, rfl, h1⟩⟩
  · exact ⟨henv1, .inl ⟨rfl, h1⟩⟩
  · simp only [wp_bind]
    refine wp_imp (ilock_refs ⟨h1, henv1⟩ (mem_cons_self _ _)) ?_
    intro _ s2 h2
    refine wp_seq (dirlookup_refs h2 (Fits.cons (hfit.mono (by omega)) j) name) ?_
    rintro r s3 (⟨rfl, h3⟩ | ⟨i, off, rfl, h3⟩)
    · exact createNew_refs name type major minor h3 hfit
    · rw [cons_swap] at h3
      simp only [wp_bind]
      refine wp_imp (iunlockput_refs h3) ?_
      intro _ s4 h4
      refine wp_seq (ilock_refs h4 (mem_cons_self _ _)) ?_
      intro _ s5 h5
      refine wp_seq (h5.quiet (quiet_copyOf i)) ?_
      intro d s6 h6
      by_cases hc : type = T_FILE ∧ (d.type = T_FILE ∨ d.type = T_DEVICE)
      · rw [if_pos hc]
        exact ⟨h6.env, .inr ⟨i, rfl, h6.toRefs⟩⟩
      · rw [if_neg hc]
        refine wp_seq (iunlockput_refs h6) ?_
        intro _ s7 h7
        exact ⟨h7.env, .inl ⟨rfl, h7.toRefs⟩⟩

theorem sysCreate_refs (path : Option Path) (type major minor : BitVec 16) (h : Since s₀ p H 0 s)
    (hfit : Fits full H 3) (hcwd : HasCwd p s₀ H) :
    wp (sysCreate sb p path type major minor) (fun _ => Since s₀ p H 0) (spare full) s := by
  unfold sysCreate
  refine wp_seq (h.quiet quiet_beginOp) ?_
  intro _ s1 h1
  cases path with
  | none =>
    exact h1.quiet (quiet_end (-1))
  | some path =>
    refine wp_seq (create_refs path type major minor h1 hfit hcwd) ?_
    rintro r s2 ⟨henv2, ⟨rfl, h2⟩ | ⟨i, rfl, h2⟩⟩
    · exact Since.quiet ⟨h2, henv2⟩ (quiet_end (-1))
    · exact dropEnd_refs 0 ⟨h2, henv2⟩

theorem kexec_refs (path : Option Path) (reads : List (ℕ × ℕ)) (h : Since s₀ p H 0 s) (hfit : Fits full H 3)
    (hcwd : HasCwd p s₀ H) :
    wp (sysExec sb p path reads) (fun _ => Since s₀ p H 0) (spare full) s := by
  have hreads (i : ℕ) (reads : List (ℕ × ℕ)) : Quiet (readAll sb i reads) := by
    induction reads with
    | nil => exact Keeps.pure ()
    | cons x reads ih => exact Keeps.bind (quiet_readi i _ _ _) (fun _ => ih)
  cases path with
  | none => exact h
  | some path =>
    rw [sysExec, kexec]
    refine wp_seq (h.quiet quiet_beginOp) ?_
    intro _ s1 h1
    refine wp_seq (namei_refs path h1 (hfit.mono (by omega)) hcwd) ?_
    rintro r s2 (⟨rfl, h2⟩ | ⟨i, rfl, h2⟩)
    · exact h2.quiet (quiet_end (-1))
    · simp only [wp_bind]
      refine wp_imp (ilock_refs h2 (mem_cons_self _ _)) ?_
      intro _ s3 h3
      refine wp_seq (h3.quiet (hreads i reads)) ?_
      intro _ s4 h4
      exact dropEnd_refs 0 h4

end Calls

section Balanced

/-- Between system calls: the pointers that are held are those of the open files and the
processes. -/
structure Balanced (s : St) : Prop where
  refs : Refs 0 s s.pointers 0
  closed : ∀ f, (s.file f).ref = 0 → (s.file f).type = .FD_NONE
  ofile : ∀ q fd f, (s.proc q).ofile fd = some f → f < NFILE

theorem Refs.anyone (h : Refs p s H 0) (q : ℕ) : Refs q s H 0 := by
  refine { h with lock := fun i => ?_ }
  rw [h.lock i, if_neg (notMem_zero i), if_neg (notMem_zero i)]

theorem Refs.setFile (h : Refs p s H K) (f : ℕ) (x : File) : Refs p (s.setFile f x) H K :=
  ⟨h.ref, h.lt, h.lock, h.locked, h.nodup⟩

theorem Refs.setProc (h : Refs p s H K) (q : ℕ) (x : Proc) : Refs p (s.setProc q x) H K :=
  ⟨h.ref, h.lt, h.lock, h.locked, h.nodup⟩

namespace Balanced

theorem env (h : Balanced s) (hr : Since s p s.pointers 0 s') : Balanced s' := by
  refine ⟨?_, ?_, ?_⟩
  · rw [pointers_env hr.env]
    exact hr.anyone 0
  · rw [hr.env.1]
    exact h.closed
  · rw [hr.env.2]
    exact h.ofile

theorem same_files (h : Balanced s) (hfiles : SameFiles s s') (hproc : s'.proc = s.proc)
    (hr : Refs p s' s.pointers 0) : Balanced s' := by
  have hptr (f : ℕ) : (s'.file f).pointer = (s.file f).pointer := by
    obtain ⟨o, ho⟩ := hfiles f
    rw [ho]
    rfl
  refine ⟨?_, fun f hf => ?_, by rw [hproc]; exact h.ofile⟩
  · have heq : s'.pointers = s.pointers := by simp only [St.pointers, hptr, hproc]
    rw [heq]
    exact hr.anyone 0
  · obtain ⟨o, ho⟩ := hfiles f
    rw [ho] at hf ⊢
    exact h.closed f hf

theorem set_ref (h : Balanced s) {f r : ℕ} (hf : f < NFILE) (hr : 0 < r) (href : 0 < (s.file f).ref) :
    Balanced (s.setFile f { s.file f with ref := r }) := by
  refine ⟨?_, fun g hg => ?_, h.ofile⟩
  · rw [pointers_set_ref hf hr href]
    exact h.refs.setFile f _
  · change (update s.file f _ g).ref = 0 at hg
    change (update s.file f _ g).type = _
    by_cases hgf : g = f
    · rw [hgf, update_self] at hg
      exact absurd hg hr.ne'
    · rw [update_of_ne hgf] at hg ⊢
      exact h.closed g hg

theorem set_ofile (h : Balanced s) {o : ℕ → Option ℕ} (ho : ∀ fd f, o fd = some f → f < NFILE) :
    Balanced (s.setProc q { s.proc q with ofile := o }) := by
  refine ⟨?_, h.closed, fun r fd f hf => ?_⟩
  · rw [pointers_set_ofile]
    exact h.refs.setProc q _
  · change (update s.proc q _ r).ofile fd = some f at hf
    by_cases hr : r = q
    · rw [hr, update_self] at hf
      exact ho fd f hf
    · rw [update_of_ne hr] at hf
      exact h.ofile r fd f hf

theorem set_fd (h : Balanced s) {fd : ℕ} {o : Option ℕ} (ho : ∀ f, o = some f → f < NFILE) :
    Balanced (s.setProc q { s.proc q with ofile := update (s.proc q).ofile fd o }) := by
  refine h.set_ofile (fun fd' f hf => ?_)
  by_cases heq : fd' = fd
  · rw [heq, update_self] at hf
    exact ho f hf
  · rw [update_of_ne heq] at hf
    exact h.ofile q fd' f hf

theorem set_closed (h : Balanced s) {f : ℕ}
    (hr : Refs 0 s1 (s.setFile f { s.file f with ref := 0, type := .FD_NONE }).pointers 0)
    (henv : Env (s.setFile f { s.file f with ref := 0, type := .FD_NONE }) s1) : Balanced s1 := by
  refine ⟨?_, fun g hg => ?_, ?_⟩
  · rwa [pointers_env henv]
  · rw [henv.1] at hg ⊢
    change (update s.file f _ g).ref = 0 at hg
    change (update s.file f _ g).type = _
    by_cases hgf : g = f
    · rw [hgf, update_self]
    · rw [update_of_ne hgf] at hg ⊢
      exact h.closed g hg
  · rw [henv.2]
    exact h.ofile

theorem set_cwd (h : Balanced s) (hs : s'.file = s.file) {o : Option ℕ}
    (hproc : s'.proc = (s.setProc q { s.proc q with cwd := o }).proc) (hr : Refs 0 s' s'.pointers 0) :
    Balanced s' := by
  refine ⟨hr, by rw [hs]; exact h.closed, fun r fd f hf => ?_⟩
  rw [hproc] at hf
  change (update s.proc q _ r).ofile fd = some f at hf
  by_cases hrq : r = q
  · rw [hrq, update_self] at hf
    exact h.ofile q fd f hf
  · rw [update_of_ne hrq] at hf
    exact h.ofile r fd f hf

end Balanced

end Balanced

section Files

theorem fileclose_refs (h : Balanced s) {f : ℕ} (hf : f < NFILE) :
    wp (fileclose sb p f) (fun _ s' => s'.proc = s.proc ∧ Balanced s') (spare full) s := by
  unfold fileclose
  simp only [wp_bind, wp_get]
  by_cases href : (s.file f).ref < 1
  · rw [if_pos href]
    exact Panic.noConfusion
  · rw [if_neg href]
    by_cases hmore : 0 < (s.file f).ref - 1
    · rw [if_pos hmore, wp_set]
      exact ⟨rfl, h.set_ref hf hmore (by omega)⟩
    · rw [if_neg hmore, wp_bind, wp_set]
      set s1 := s.setFile f { s.file f with ref := 0, type := .FD_NONE } with hs1
      by_cases htype : (s.file f).type = .FD_INODE ∨ (s.file f).type = .FD_DEVICE
      · rw [if_pos htype]
        have h1 : Refs p s1 ((s.file f).ip ::ₘ s1.pointers) 0 := by
          rw [← pointers_close hf (by omega) htype]
          exact (h.refs.setFile f _).anyone p
        refine wp_seq (h1.since.quiet quiet_beginOp) ?_
        intro _ s2 h2
        refine wp_seq (iput_refs h2 (fun hc => absurd hc (notMem_zero _))) ?_
        intro _ s3 h3
        refine wp_imp (h3.quiet quiet_endOp) ?_
        intro _ s4 h4
        exact ⟨h4.env.2, h.set_closed (h4.anyone 0) h4.env⟩
      · rw [if_neg htype, wp_pure]
        refine ⟨rfl, h.set_closed (f := f) ?_ (Env.refl s1)⟩
        rw [pointers_close_other hf htype]
        exact h.refs.setFile f _

theorem sysClose_refs (h : Balanced s) (fd : ℤ) :
    wp (sysClose sb p fd) (fun _ s' => Balanced s') (spare full) s := by
  rw [sysClose]
  refine wp_seq (argfd_spec fd) ?_
  rintro r s1 ⟨rfl, hfd⟩
  cases r with
  | none => exact h
  | some f =>
    simp only [wp_bind, setOfile, wp_modify]
    have hnone (g : ℕ) (hg : (none : Option ℕ) = some g) : g < NFILE := by cases hg
    have h2 : Balanced (s1.setProc p { s1.proc p with
        ofile := update (s1.proc p).ofile fd.toNat none }) := h.set_fd hnone
    refine wp_imp (fileclose_refs h2 (h.ofile p fd.toNat f (hfd f rfl).2)) ?_
    rintro - s3 ⟨-, h3⟩
    exact h3

theorem filedup_refs (h : Balanced s) {f : ℕ} (hf : f < NFILE) :
    wp (filedup f) (fun r s' => r = f ∧ s'.proc = s.proc ∧ Balanced s') (spare full) s := by
  simp only [filedup, wp_bind, wp_get]
  by_cases href : (s.file f).ref < 1
  · rw [if_pos href]
    exact Panic.noConfusion
  · rw [if_neg href, wp_bind, wp_set, wp_pure]
    exact ⟨rfl, rfl, h.set_ref hf (by omega) (by omega)⟩

theorem sysDup_refs (h : Balanced s) (fd : ℤ) :
    wp (sysDup p fd) (fun _ s' => Balanced s') (spare full) s := by
  rw [sysDup]
  refine wp_seq (argfd_spec fd) ?_
  rintro r s1 ⟨rfl, hfd⟩
  cases r with
  | none => exact h
  | some f =>
    have hf := h.ofile p _ f (hfd f rfl).2
    simp only [wp_bind]
    refine wp_imp fdalloc_spec ?_
    rintro r s2 (⟨rfl, rfl, -⟩ | ⟨fd', rfl, -, -, rfl⟩)
    · exact h
    · simp only [wp_bind]
      have h2 : Balanced (s1.withFd p fd' f) := h.set_fd (fun g hg => by cases hg; exact hf)
      refine wp_imp (filedup_refs h2 hf) ?_
      rintro r s3 ⟨-, -, h3⟩
      exact h3

theorem moveOff_refs (f : ℕ) (r : ℤ) (h : Refs p s H K) :
    wp (modify (fun s : St =>
      if 0 < r then s.setFile f { s.file f with off := (s.file f).off + r.toNat } else s))
      (fun _ s' => SameFiles s s' ∧ s'.proc = s.proc ∧ Refs p s' H K) (spare full) s := by
  rw [wp_modify]
  split
  · exact ⟨SameFiles.set_off s f _, rfl, h.setFile f _⟩
  · exact ⟨SameFiles.refl s, rfl, h⟩

theorem file_mem (h : Balanced s) {f : ℕ} (hf : f < NFILE) (htype : (s.file f).type = .FD_INODE) :
    (s.file f).ip ∈ s.pointers := by
  have href : 0 < (s.file f).ref := by
    by_contra h0
    rw [h.closed f (by omega)] at htype
    cases htype
  refine mem_pointers_of_file hf ?_
  rw [File.pointer, if_pos ⟨href, .inl htype⟩]
  exact Multiset.mem_singleton_self _

theorem sysRead_refs (h : Balanced s) (fd : ℤ) (dst : ℕ → Bool) (len : ℤ) :
    wp (sysRead sb p fd dst len) (fun _ s' => Balanced s') (spare full) s := by
  rw [sysRead]
  refine wp_seq (argfd_spec fd) ?_
  rintro r s1 ⟨rfl, hfd⟩
  cases r with
  | none => exact h
  | some f =>
    have hf := h.ofile p _ f (hfd f rfl).2
    simp only [fileread, wp_bind, wp_get]
    by_cases hr : (s1.file f).readable = false
    · rw [if_pos hr]
      exact h
    · rw [if_neg hr]
      cases htype : (s1.file f).type with
      | FD_NONE => exact Panic.noConfusion
      | FD_PIPE => exact h
      | FD_DEVICE => exact h
      | FD_INODE =>
        simp only [wp_bind]
        refine wp_imp (ilock_refs (h.refs.anyone p).since (file_mem h hf htype)) ?_
        intro _ s2 h2
        refine wp_seq (h2.quiet (quiet_readi _ _ _ _)) ?_
        intro r s3 h3
        refine wp_seq (moveOff_refs f r.1 h3.toRefs) ?_
        rintro - s4 ⟨hf4, hp4, h4⟩
        refine wp_seq (iunlock_refs h4.since) ?_
        intro _ s5 h5
        have hfiles := (SameFiles.of_env h3.env).trans (hf4.trans (SameFiles.of_env h5.env))
        exact h.same_files hfiles (by rw [h5.env.2, hp4, h3.env.2]) h5.toRefs

theorem writeChunk_refs (h : Balanced s) {f : ℕ} (hf : f < NFILE) (htype : (s.file f).type = .FD_INODE)
    (src : ℕ → Option Byte) (k len : ℕ) :
    wp (writeChunk sb p f src k len) (fun _ s' => SameFiles s s' ∧ Balanced s') (spare full) s := by
  simp only [writeChunk, wp_bind, wp_get]
  refine wp_imp ((h.refs.anyone p).since.quiet quiet_beginOp) ?_
  intro _ s1 h1
  refine wp_seq (ilock_refs h1 (file_mem h hf htype)) ?_
  intro _ s2 h2
  simp only [wp_bind, wp_get]
  refine wp_imp (h2.quiet (quiet_writei _ _ _ _)) ?_
  intro r s3 h3
  refine wp_seq (moveOff_refs f r h3.toRefs) ?_
  rintro - s4 ⟨hf4, hp4, h4⟩
  refine wp_seq (iunlock_refs h4.since) ?_
  intro _ s5 h5
  refine wp_seq (h5.quiet quiet_endOp) ?_
  intro _ s6 h6
  have hfiles := (SameFiles.of_env h3.env).trans (hf4.trans (SameFiles.of_env h6.env))
  exact ⟨hfiles, h.same_files hfiles (by rw [h6.env.2, hp4, h3.env.2]) h6.toRefs⟩

theorem sysWrite_refs (h : Balanced s) (fd : ℤ) (src : ℕ → Option Byte) (len : ℤ) :
    wp (sysWrite sb p fd src len) (fun _ s' => Balanced s') (spare full) s := by
  have hchunks (f len fuel k : ℕ) (hf : f < NFILE) (s1 : St) (h1 : Balanced s1)
      (htype : (s1.file f).type = .FD_INODE) :
      wp (chunks sb p f src len fuel k) (fun _ s' => Balanced s') (spare full) s1 := by
    induction fuel generalizing k s1 with
    | zero => exact h1
    | succ fuel ih =>
      rw [chunks]
      by_cases hk : k < len
      · rw [if_pos hk]
        refine wp_seq (writeChunk_refs h1 hf htype src _ _) ?_
        rintro r s2 ⟨hfiles, h2⟩
        by_cases hr : r ≠ ((min (len - k) maxChunk : ℕ) : ℤ)
        · rw [if_pos hr]
          exact h2
        · rw [if_neg hr]
          obtain ⟨o, ho⟩ := hfiles f
          exact ih _ s2 h2 (by rw [ho]; exact htype)
      · rw [if_neg hk]
        exact h1
  rw [sysWrite]
  refine wp_seq (argfd_spec fd) ?_
  rintro r s1 ⟨rfl, hfd⟩
  cases r with
  | none => exact h
  | some f =>
    have hf := h.ofile p _ f (hfd f rfl).2
    simp only [filewrite, wp_bind, wp_get]
    by_cases hw : (s1.file f).writable = false
    · rw [if_pos hw]
      exact h
    · rw [if_neg hw]
      cases htype : (s1.file f).type with
      | FD_NONE => exact Panic.noConfusion
      | FD_PIPE => exact h
      | FD_DEVICE => exact h
      | FD_INODE =>
        simp only [wp_bind]
        exact wp_imp (hchunks f _ _ 0 hf s1 h htype) (fun _ _ h => h)

end Files

section Open

theorem openInode_refs (path : Path) (omode : BitVec 32) (h : Since s₀ p H 0 s) (hfit : Fits full H 3)
    (hcwd : HasCwd p s₀ H) : wp (openInode sb p path omode) (Got p H s₀) (spare full) s := by
  rw [openInode]
  by_cases hc : omode &&& O_CREATE ≠ 0
  · rw [if_pos hc]
    exact create_refs path T_FILE 0 0 h hfit hcwd
  · rw [if_neg hc]
    refine wp_seq (namei_refs path h (hfit.mono (by omega)) hcwd) ?_
    rintro r s1 (⟨rfl, h1⟩ | ⟨i, rfl, h1⟩)
    · exact ⟨h1.env, .inl ⟨rfl, h1.toRefs⟩⟩
    · simp only [wp_bind]
      refine wp_imp (ilock_refs h1 (mem_cons_self _ _)) ?_
      intro _ s2 h2
      refine wp_seq (h2.quiet (quiet_copyOf i)) ?_
      intro d s3 h3
      by_cases hdir : d.type = T_DIR ∧ omode ≠ O_RDONLY
      · rw [if_pos hdir]
        refine wp_seq (iunlockput_refs h3) ?_
        intro _ s4 h4
        exact ⟨h4.env, .inl ⟨rfl, h4.toRefs⟩⟩
      · rw [if_neg hdir]
        exact ⟨h3.env, .inr ⟨i, rfl, h3.toRefs⟩⟩

theorem openFile_refs (omode : BitVec 32) (hclosed : ∀ f, (s.file f).ref = 0 → (s.file f).type = .FD_NONE)
    (h : Since s₀ p (i ::ₘ H) (i ::ₘ 0) s) :
    wp (openFile sb p i omode) (fun _ s' => Since s₀ p H 0 s' ∨
      ∃ x f fd, OpenedAs p s s' x i f fd omode ∧ Refs p s' (i ::ₘ H) 0) (spare full) s := by
  have hfail : wp (openFail sb p i) (fun _ s' => Since s₀ p H 0 s' ∨
      ∃ x f fd, OpenedAs p s s' x i f fd omode ∧ Refs p s' (i ::ₘ H) 0) (spare full) s :=
    wp_imp (dropEnd_refs (-1) h) (fun _ _ h2 => .inl h2)
  simp only [openFile, copyOf, wp_bind, wp_get, wp_pure]
  set d := (s.itable i).copy with hd
  by_cases hdev : d.type = T_DEVICE ∧ (d.major.toInt < 0 ∨ (NDEV : ℤ) ≤ d.major.toInt)
  · rw [if_pos hdev]
    exact hfail
  · rw [if_neg hdev]
    refine wp_seq filealloc_spec ?_
    rintro r s1 (⟨rfl, rfl, -⟩ | ⟨f, rfl, hf, hzero, rfl⟩)
    · exact hfail
    · simp only [wp_bind]
      refine wp_imp fdalloc_spec ?_
      rintro r s2 (⟨rfl, rfl, -⟩ | ⟨fd, rfl, hfd, hnone, rfl⟩)
      · simp only [wp_bind]
        exact fileclose_fresh hzero (hclosed f hzero) hfail
      · simp only [wp_bind, wp_modify]
        set s3 := ((s.setFile f { s.file f with ref := 1 }).withFd p fd f).setFile f
          (openedFile (((s.setFile f { s.file f with ref := 1 }).withFd p fd f).file f) i d omode) with hs3
        have h3 : Refs p s3 (i ::ₘ H) (i ::ₘ 0) := ((h.setFile f _).setProc p _).setFile f _
        refine wp_imp (h3.since.quiet (quiet_onlyIf (quiet_itrunc i))) ?_
        intro _ s4 h4
        refine wp_seq (iunlock_refs h4) ?_
        intro _ s5 h5
        refine wp_imp (h5.quiet (quiet_end _)) ?_
        intro r s6 h6
        have henv := h6.env
        have hfile : ((s.setFile f { s.file f with ref := 1 }).withFd p fd f).file f =
            { s.file f with ref := 1 } := update_self f _ _
        refine .inr ⟨node s.disk d, f, fd, ⟨hf, hfd, hzero, hnone, ⟨d, rfl, rfl, ?_⟩, ?_, fun ht => ?_⟩, h6.toRefs⟩
        · rw [henv.1, hs3]
          change update (update s.file f _) f _ = _
          rw [update_idem, hfile]
        · rw [henv.2]
          rfl
        · rw [not_and, not_or] at hdev
          have := hdev ht
          change 0 ≤ d.major.toInt ∧ d.major.toInt < NDEV
          omega

theorem Balanced.opened {x : Node} {f fd : ℕ} {omode : BitVec 32} (h : Balanced s)
    (ho : OpenedAs p s s' x i f fd omode) (hr : Refs p s' (i ::ₘ s.pointers) 0) : Balanced s' := by
  obtain ⟨d, -, -, hfile⟩ := ho.file
  refine ⟨?_, fun g hg => ?_, fun q fd' g hg => ?_⟩
  · rw [ho.pointers]
    exact hr.anyone 0
  · rw [hfile] at hg ⊢
    by_cases hgf : g = f
    · rw [hgf, update_self] at hg
      exact absurd hg Nat.one_ne_zero
    · rw [update_of_ne hgf] at hg ⊢
      exact h.closed g hg
  · rw [ho.proc] at hg
    have h1 : Balanced (s.withFd p fd f) := h.set_fd (fun g hg => by cases hg; exact ho.file_lt)
    exact h1.ofile q fd' g hg

theorem sysOpen_refs (path : Option Path) (omode : BitVec 32) (h : Balanced s) (hp : p < NPROC)
    (hfit : Fits full s.pointers 3) :
    wp (sysOpen sb p path omode) (fun _ s' => Balanced s') (spare full) s := by
  cases path with
  | none => exact h
  | some path =>
    rw [sysOpen]
    refine wp_seq ((h.refs.anyone p).since.quiet quiet_beginOp) ?_
    intro _ s1 h1
    refine wp_seq (openInode_refs path omode h1 hfit (hasCwd_pointers s hp)) ?_
    rintro r s2 ⟨henv2, ⟨rfl, h2⟩ | ⟨i, rfl, h2⟩⟩
    · exact wp_imp (Since.quiet ⟨h2, henv2⟩ (quiet_end (-1))) (fun _ _ => h.env)
    · refine wp_imp (openFile_refs omode ?_ ⟨h2, henv2⟩) ?_
      · rw [henv2.1]
        exact h.closed
      · rintro r s3 (h3 | ⟨x, f, fd, ho, h3⟩)
        · exact h.env h3
        · exact h.opened (ho.congr henv2) h3

end Open

section Processes

theorem sysChdir_refs (path : Option Path) (h : Balanced s) (hp : p < NPROC)
    (hfit : Fits full s.pointers 3) :
    wp (sysChdir sb p path) (fun _ s' => Balanced s') (spare full) s := by
  unfold sysChdir
  refine wp_seq ((h.refs.anyone p).since.quiet quiet_beginOp) ?_
  intro _ s1 h1
  cases path with
  | none =>
    exact wp_imp (h1.quiet (quiet_end (-1))) (fun _ _ => h.env)
  | some path =>
    refine wp_seq (namei_refs path h1 (hfit.mono (by omega)) (hasCwd_pointers s hp)) ?_
    rintro r s2 (⟨rfl, h2⟩ | ⟨i, rfl, h2⟩)
    · exact wp_imp (h2.quiet (quiet_end (-1))) (fun _ _ => h.env)
    · simp only [wp_bind]
      refine wp_imp (ilock_refs h2 (mem_cons_self _ _)) ?_
      intro _ s3 h3
      refine wp_seq (h3.quiet (quiet_copyOf i)) ?_
      intro d s4 h4
      by_cases hdir : d.type ≠ T_DIR
      · rw [if_pos hdir]
        exact wp_imp (dropEnd_refs (-1) h4) (fun _ _ => h.env)
      · rw [if_neg hdir]
        refine wp_seq (iunlock_refs h4) ?_
        intro _ s5 h5
        simp only [chdirTo, wp_bind, wp_get]
        have hproc5 : (s5.proc p).cwd = (s.proc p).cwd := by rw [h5.env.2]
        cases hc : (s5.proc p).cwd with
        | none => exact Panic.noConfusion
        | some c =>
          -- the old directory goes and the new one stays
          obtain ⟨H0, hold, hnew⟩ := pointers_move hp (hproc5.symm.trans hc) i
          rw [hold, cons_swap] at h5
          simp only [wp_bind]
          refine wp_imp (iput_refs h5 (by simp)) ?_
          intro _ s6 h6
          refine wp_seq (h6.quiet quiet_endOp) ?_
          intro _ s7 h7
          rw [wp_bind, wp_modify, wp_pure]
          have henv := h7.env
          have hproc : (s7.setProc p { s7.proc p with cwd := some i }).proc =
              (s.setProc p { s.proc p with cwd := some i }).proc := by
            simp only [St.setProc, henv.2]
          refine h.set_cwd henv.1 hproc ?_
          have hptr : (s7.setProc p { s7.proc p with cwd := some i }).pointers =
              (s.setProc p { s.proc p with cwd := some i }).pointers := by
            unfold St.pointers
            rw [hproc]
            simp only [St.setProc, henv.1]
          rw [hptr, hnew]
          exact (h7.setProc p _).anyone 0

theorem kexit_refs (h : Balanced s) (hp : p < NPROC) :
    wp (kexit sb p) (fun _ s' => Balanced s') (spare full) s := by
  rw [kexit]
  by_cases h0 : p = 0
  · rw [if_pos h0]
    exact Panic.noConfusion
  · rw [if_neg h0]
    refine wp_seq (wp_loop (I := fun _ s' => Balanced s') NOFILE 0 ?_ h) ?_
    · rintro fd s1 - - h1
      simp only [wp_bind, wp_get]
      cases hfd : (s1.proc p).ofile fd with
      | none => exact h1
      | some f =>
        simp only [wp_bind]
        refine wp_imp (fileclose_refs h1 (h1.ofile p fd f hfd)) ?_
        rintro - s2 ⟨-, h2⟩
        rw [setOfile, wp_modify]
        exact h2.set_fd (fun g hg => by cases hg)
    · rintro - s1 h1
      refine wp_seq ((h1.refs.anyone p).since.quiet quiet_beginOp) ?_
      intro _ s2 h2
      simp only [wp_bind, wp_get]
      have hproc2 : (s2.proc p).cwd = (s1.proc p).cwd := by rw [h2.env.2]
      cases hc : (s2.proc p).cwd with
      | none => exact Panic.noConfusion
      | some c =>
        rw [pointers_without_cwd hp (hproc2.symm.trans hc)] at h2
        simp only [wp_bind]
        refine wp_imp (iput_refs h2 (by simp)) ?_
        intro _ s3 h3
        refine wp_seq (h3.quiet quiet_endOp) ?_
        intro _ s4 h4
        rw [wp_modify]
        have henv := h4.env
        have hproc : (s4.setProc p { s4.proc p with cwd := none }).proc =
            (s1.setProc p { s1.proc p with cwd := none }).proc := by
          simp only [St.setProc, henv.2]
        refine h1.set_cwd henv.1 hproc ?_
        have hptr : (s4.setProc p { s4.proc p with cwd := none }).pointers =
            (s1.setProc p { s1.proc p with cwd := none }).pointers := by
          unfold St.pointers
          rw [hproc]
          simp only [St.setProc, henv.1]
        rw [hptr]
        exact (h4.setProc p _).anyone 0

theorem kfork_refs (h : Balanced s) (hp : p < NPROC) (hq : q < NPROC) (hchild : (s.proc q).cwd = none) :
    wp (kfork p q) (fun _ s' => Balanced s') (spare full) s := by
  rw [kfork]
  refine wp_seq (wp_loop (I := fun _ s' => Balanced s' ∧ (s'.proc q).cwd = none) NOFILE 0 ?_ ⟨h, hchild⟩) ?_
  · rintro fd s1 - - ⟨h1, hc1⟩
    simp only [wp_bind, wp_get]
    cases hfd : (s1.proc p).ofile fd with
    | none => exact ⟨h1, hc1⟩
    | some f =>
      have hf := h1.ofile p fd f hfd
      simp only [wp_bind]
      refine wp_imp (filedup_refs h1 hf) ?_
      rintro r s2 ⟨rfl, hproc2, h2⟩
      rw [setOfile, wp_modify]
      refine ⟨h2.set_fd (fun g hg => by cases hg; exact hf), ?_⟩
      rw [setProc_cwd, hproc2, hc1]
  · rintro - s1 ⟨h1, hc1⟩
    simp only [wp_bind, wp_get]
    cases hc : (s1.proc p).cwd with
    | none => exact Panic.noConfusion
    | some c =>
      simp only [wp_bind]
      refine wp_imp (idup_refs (h1.refs.anyone p).since (mem_pointers_of_cwd hp hc)) ?_
      rintro r s2 ⟨rfl, h2⟩
      rw [wp_bind, wp_modify, wp_pure]
      refine h1.set_cwd (q := q) (o := some r) h2.env.1 (by simp only [St.setProc, h2.env.2]) ?_
      have hc2 : (s2.proc q).cwd = none := by rw [h2.env.2, hc1]
      rw [pointers_with_cwd hq hc2, pointers_env h2.env]
      exact (h2.setProc q _).anyone 0

end Processes

end Xv6.Fs
