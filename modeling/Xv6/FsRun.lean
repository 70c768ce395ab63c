import Xv6.FsProc

/-! All system calls on files together: what one call does to the inodes, the pointers and the
processes, and what holds after every sequence of calls. -/
namespace Xv6.Fs

section Effect

/-- An inode of the given type is made, with the last name of `path`. -/
def Made (sb : Superblock) (P : Set ℕ) (A : ℕ → Node) (H : Multiset (ℕ × ℕ)) (path : Path)
    (type major minor : BitVec 16) (A' : ℕ → Node) : Prop :=
  ∃ A1 n dp name, Shrunk H A A1 ∧ dp ∈ P ∧ Creates sb A1 n dp name ∧
    (elems path.chars).getLast? = some name ∧ Reaped H {dp, n} (created A1 n dp name type major minor) A'

/-- The calls on paths that change the tree or the process. -/
def Call.onPath : Call → Bool
  | .open .. | .mkdir .. | .mknod .. | .link .. | .unlink .. | .chdir .. => true
  | _ => false

/-- What a call of process `p` that returns `r` does, by call. The state goes from `s` to `s'`, the
inodes from `A` to `A'` and the pointers that are held from `H` to `H'`. -/
inductive Effect (sb : Superblock) (p : ℕ) (P : Set ℕ) (s : St) (A : ℕ → Node)
    (H : Multiset (ℕ × ℕ)) : Call → ℤ → St → (ℕ → Node) → Multiset (ℕ × ℕ) → Prop
  /-- a call on paths that fails -/
  | fail {c s' A'} (hc : c.onPath = true) (henv : Env s s') (hs : Shrunk H A A') :
      Effect sb p P s A H c (-1) s' A' H
  | exec {path reads r s' A'} (henv : Env s s') (hs : Shrunk H A A') :
      Effect sb p P s A H (.exec path reads) r s' A' H
  | link {old path s' A1 A' n dp name} (henv : Env s s') (hs : Shrunk H A A1) (hn : n ∈ P) (hdp : dp ∈ P)
      (hl : Links A1 n dp name) (hlast : (elems path.chars).getLast? = some name)
      (hr : Reaped H {dp, n} (linked A1 n dp name) A') :
      Effect sb p P s A H (.link old (some path)) 0 s' A' H
  | unlink {path s' A1 A' dp n k name} (henv : Env s s') (hs : Shrunk H A A1) (hdp : dp ∈ P) (hn : n ∈ P)
      (hu : Unlinks A1 dp n k name) (hlast : (elems path.chars).getLast? = some name)
      (hr : Reaped H {dp, n} (unlinked A1 dp n k) A') :
      Effect sb p P s A H (.unlink (some path)) 0 s' A' H
  | mkdir {path s' A'} (henv : Env s s') (hm : Made sb P A H path T_DIR 0 0 A') :
      Effect sb p P s A H (.mkdir (some path)) 0 s' A' H
  | mknod {path major minor s' A'} (henv : Env s s')
      (hm : Made sb P A H path T_DEVICE (major.setWidth 16) (minor.setWidth 16) A') :
      Effect sb p P s A H (.mknod (some path) major minor) 0 s' A' H
  /-- a file is made and cannot be opened -/
  | leftBehind {path omode s' A'} (henv : Env s s') (hc : omode &&& O_CREATE ≠ 0)
      (hfull : (∀ f < NFILE, (s.file f).ref ≠ 0) ∨ ∀ fd < NOFILE, (s.proc p).ofile fd ≠ none)
      (hm : Made sb P A H path T_FILE 0 0 A') :
      Effect sb p P s A H (.open (some path) omode) (-1) s' A' H
  /-- an inode that exists is opened -/
  | openOld {path omode s' A1 i n f fd} (ho : OpenedAs p s s' (A1 n) i f fd omode) (hs : Shrunk H A A1)
      (hn : n ∈ P) (hdir : (A1 n).type = T_DIR → omode = O_RDONLY) :
      Effect sb p P s A H (.open (some path) omode) (fd : ℕ) s' (truncatedBy omode A1 n) ((i, n) ::ₘ H)
  /-- a new file is opened -/
  | openNew {path omode s' A1 A2 i n f fd dp name} (ho : OpenedAs p s s' (A2 n) i f fd omode)
      (hc : omode &&& O_CREATE ≠ 0) (hs : Shrunk H A A1) (hdp : dp ∈ P) (hcr : Creates sb A1 n dp name)
      (hlast : (elems path.chars).getLast? = some name)
      (hr : Reaped ((i, n) ::ₘ H) {dp} (created A1 n dp name T_FILE 0 0) A2) :
      Effect sb p P s A H (.open (some path) omode) (fd : ℕ) s' (truncatedBy omode A2 n) ((i, n) ::ₘ H)
  | chdir {path s' A1 A' i n old n0 H0} (hH : H = (old, n0) ::ₘ H0) (hcwd : (s.proc p).cwd = some old)
      (hproc : s'.proc = (s.setProc p { s.proc p with cwd := some i }).proc) (hn : n ∈ P)
      (hdir : (A1 n).type = T_DIR) (hs : Shrunk H A A1) (hr : Reaped ((i, n) ::ₘ H0) {n0} A1 A') :
      Effect sb p P s A H (.chdir path) 0 s' A' ((i, n) ::ₘ H0)
  | read {fd dst len r s'} (hproc : s'.proc = s.proc) (hdisk : s'.disk = s.disk) :
      Effect sb p P s A H (.read fd dst len) r s' A H
  | write {fd src len r s' A'} (hproc : s'.proc = s.proc)
      (hw : A' = A ∨ ∃ n, (A n).type ≠ T_DIR ∧ Rewritten A n A') :
      Effect sb p P s A H (.write fd src len) r s' A' H
  | dup {fd r s'} (hcwd : ∀ q, (s'.proc q).cwd = (s.proc q).cwd) : Effect sb p P s A H (.dup fd) r s' A H
  | close {fd r s' A' H'} (hcwd : ∀ q, (s'.proc q).cwd = (s.proc q).cwd) (hr : Released H A H' A') :
      Effect sb p P s A H (.close fd) r s' A' H'
  | fork {q r s' i n} (hself : (s.proc p).cwd = some i) (hcwd : (s'.proc q).cwd = some i)
      (hother : ∀ q' ≠ q, (s'.proc q').cwd = (s.proc q').cwd) (hn : (i, n) ∈ H) :
      Effect sb p P s A H (.fork q) r s' A ((i, n) ::ₘ H)
  | exit {r s' A' H'} (hcwd : (s'.proc p).cwd = none) (hother : ∀ q ≠ p, (s'.proc q).cwd = (s.proc q).cwd)
      (hr : Released H A H' A') : Effect sb p P s A H .exit r s' A' H'

end Effect

variable {μ : Mode} {sb : Superblock} {p q : ℕ} {D V P : Set ℕ} {s s' : St} {A A' A1 : ℕ → Node}
  {H H' : Multiset (ℕ × ℕ)} {w i j n m : ℕ} {c : Call} {r : ℤ}

section Held

/-- The calls that neither move a process nor look into a file. -/
def Call.onTree : Call → Bool
  | .open .. | .mkdir .. | .mknod .. | .link .. | .unlink .. | .close .. => true
  | _ => false

theorem Tables.opened {x : Node} {f fd : ℕ} {omode : BitVec 32} (h : Tables s A H)
    (ho : OpenedAs p s s' x i f fd omode) (huniq : ∀ j k m, (j, k) ∈ (i, n) ::ₘ H → (j, m) ∈ (i, n) ::ₘ H → k = m)
    (htype : ∀ m ∈ held H, (A' m).type = (A m).type) (hn : (A' n).type = x.type)
    (hdir : x.type = T_DIR → omode = O_RDONLY) : Tables s' A' ((i, n) ::ₘ H) := by
  obtain ⟨d, hdt, -, hfile⟩ := ho.file
  have hfself : s'.file f = openedFile { s.file f with ref := 1 } i d omode := by
    rw [hfile, update_self]
  have hfother (g : ℕ) (hg : g ≠ f) : s'.file g = s.file g := by
    rw [hfile, update_of_ne hg]
  refine ⟨?_, fun g hg => ?_, fun q fd' g hg => ?_, fun g hg h1 h2 h3 k hk => ?_⟩
  · rw [ho.pointers, Multiset.map_cons, h.pointers]
  · by_cases hgf : g = f
    · rw [hgf, hfself] at hg
      exact absurd hg Nat.one_ne_zero
    · rw [hfother g hgf] at hg ⊢
      exact h.closed g hg
  · rw [ho.proc] at hg
    change (update s.proc p _ q).ofile fd' = some g at hg
    by_cases hq : q = p
    · rw [hq, update_self] at hg
      change update (s.proc p).ofile fd (some f) fd' = some g at hg
      by_cases hfd : fd' = fd
      · rw [hfd, update_self] at hg
        cases hg
        exact ho.file_lt
      · rw [update_of_ne hfd] at hg
        exact h.ofile p fd' g hg
    · rw [update_of_ne hq] at hg
      exact h.ofile q fd' g hg
  · by_cases hgf : g = f
    · -- a directory is opened for reading only
      subst hgf
      rw [hfself] at h3 hk
      have hkn : k = n := huniq i k n hk (mem_cons_self _ _)
      rw [hkn, hn]
      intro hd
      rw [hdir hd] at h3
      exact absurd h3 (by simp [openedFile, O_RDONLY, O_WRONLY, O_RDWR])
    · rw [hfother g hgf] at h1 h2 h3 hk
      obtain ⟨-, m, hm⟩ := h.file hg h2
      have hkm : k = m := huniq _ k m hk (mem_cons_of_mem hm)
      subst hkm
      rw [htype k ⟨_, hm⟩]
      exact h.writable g hg h1 h2 h3 k hm

theorem truncatedBy_type (omode : BitVec 32) (A : ℕ → Node) (n m : ℕ) :
    (truncatedBy omode A n m).type = (A m).type := by
  unfold truncatedBy
  split_ifs with hc
  · by_cases hm : m = n
    · rw [hm, update_self]
      rfl
    · rw [update_of_ne hm]
  · rfl

theorem truncatedBy_nlink (omode : BitVec 32) (A : ℕ → Node) (n m : ℕ) :
    (truncatedBy omode A n m).nlink = (A m).nlink := by
  unfold truncatedBy
  split_ifs with hc
  · by_cases hm : m = n
    · rw [hm, update_self]
      rfl
    · rw [update_of_ne hm]
  · rfl

theorem truncatedBy_dir {omode : BitVec 32} (h : (truncatedBy omode A n m).type = T_DIR) :
    truncatedBy omode A n m = A m := by
  unfold truncatedBy at h ⊢
  split_ifs at h ⊢ with hc
  · by_cases hm : m = n
    · rw [hm, update_self] at h
      change (A n).type = T_DIR at h
      rw [hc.2] at h
      exact absurd h (by decide)
    · rw [update_of_ne hm]
  · rfl

theorem Reaped.type_eq {X : Set ℕ} (h : Reaped H X A A') (hn : n ∈ held H) : A' n = A n :=
  h.shrunk.held_eq hn

theorem linked_type (A : ℕ → Node) (n dp m : ℕ) (name : Name) : (linked A n dp name m).type = (A m).type := by
  unfold linked
  by_cases hm : m = dp
  · rw [hm, update_self]
    rfl
  · rw [update_of_ne hm]
    by_cases hmn : m = n
    · rw [hmn, update_self]
    · rw [update_of_ne hmn]

theorem unlinked_type (A : ℕ → Node) (dp n k m : ℕ) : (unlinked A dp n k m).type = (A m).type := by
  unfold unlinked
  by_cases hm : m = n
  · rw [hm, update_self]
  · rw [update_of_ne hm]
    by_cases hmd : m = dp
    · rw [hmd, update_self]
      rfl
    · rw [update_of_ne hmd]

theorem created_type {A : ℕ → Node} {n dp m : ℕ} {name : Name} {type major minor : BitVec 16} (hm : m ≠ n) :
    (created A n dp name type major minor m).type = (A m).type := by
  unfold created
  by_cases hmd : m = dp
  · rw [hmd, update_self]
    rfl
  · rw [update_of_ne hmd, update_of_ne hm]

theorem Creates.dp_ne {dp : ℕ} {name : Name} (h : Creates sb A n dp name) : dp ≠ n := by
  rintro rfl
  have := h.dir
  rw [h.unused] at this
  exact absurd this (by decide)

theorem Idle.type_of_held (h : Idle μ sb D s A H) (hn : n ∈ held H) : (A n).type ≠ 0 := by
  obtain ⟨i, hi⟩ := hn
  obtain ⟨L, hok, rfl⟩ := h.ok
  rw [nodes_type n ((hok 0).held i n hi).2.1]
  exact ((hok 0).copy i n hi (h.valid i n hi)).2

theorem Creates.notHeld {dp : ℕ} {name : Name} (h : Creates sb A1 n dp name) (hs : Shrunk H A A1)
    (hidle : Idle μ sb D s A H) (hm : m ∈ held H) : m ≠ n := by
  rintro rfl
  have h1 := hidle.type_of_held hm
  rw [← hs.held_eq hm, h.unused] at h1
  exact h1 rfl

theorem Made.type_eq {path : Path} {type major minor : BitVec 16}
    (h : Made sb P A H path type major minor A') (hidle : Idle μ sb D s A H) (hn : n ∈ held H) :
    (A' n).type = (A n).type := by
  obtain ⟨A1, m, dp, name, hs, -, hc, -, hr⟩ := h
  rw [hr.type_eq hn, created_type (hc.notHeld hs hidle hn), hs.held_eq hn]

end Held

section Step

/-- Between system calls, with what path names lead through. -/
structure Boundary (μ : Mode) (sb : Superblock) (D P : Set ℕ) (s : St) (A : ℕ → Node)
    (H : Multiset (ℕ × ℕ)) : Prop where
  idle : Idle μ sb D s A H
  tables : Tables s A H
  walk : Walk μ sb A H P
  root_lt : ROOTINO < sb.ninodes
  root : ROOTINO ∈ P
  cwd : ∀ q < NPROC, ∀ i n, (s.proc q).cwd = some i → (i, n) ∈ H → n ∈ P
  excused : ∀ e ∈ excused, μ.stops e

theorem enabled_cwd (h : enabled s p c = true) : p < NPROC ∧ ∃ i, (s.proc p).cwd = some i := by
  have h1 : p < NPROC ∧ (s.proc p).cwd.isSome = true := by
    cases c with
    | fork q =>
      simp only [enabled, Bool.and_eq_true, decide_eq_true_eq] at h
      exact h.1.1
    | _ =>
      simp only [enabled, Bool.and_eq_true, decide_eq_true_eq] at h
      exact h
  exact ⟨h1.1, Option.isSome_iff_exists.mp h1.2⟩

theorem Boundary.ready (h : Boundary μ sb D P s A H) (hp : p < NPROC) (hi : (s.proc p).cwd = some i)
    (hfree : μ.Free H 3) : Ready μ sb p D s A H P := by
  obtain ⟨n, hn⟩ := h.tables.cwd hp hi
  exact ⟨h.idle, h.walk, ⟨h.root_lt, h.root, i, n, hi, hn, h.cwd p hp i n hi hn⟩, hfree, h.excused⟩

theorem Boundary.same_tables (h : Boundary μ sb D P s A H) (henv : Env s s')
    (htype : ∀ n ∈ held H, (A' n).type = (A n).type) : Tables s' A' H := h.tables.congr henv htype

theorem create_case {path : Option Path} {type major minor : BitVec 16}
    (h : Boundary μ sb D P s A H) (hr : Ready μ sb p D s A H P) (htype : type ≠ 0) (hfile : type ≠ T_FILE)
    (hpath : c.onPath = true) (hc : ∀ path' s' A', path = some path' → Env s s' → Made sb P A H path' type major minor A' →
      Effect sb p P s A H c 0 s' A' H) :
    wp (sysCreate sb p path type major minor) (fun r s' => ∃ A' H', Idle μ sb D s' A' H' ∧ Tables s' A' H' ∧
      Effect sb p P s A H c r s' A' H') μ.E s := by
  refine wp_imp (sysCreate_spec hr path htype hfile) ?_
  rintro r s1 ⟨henv, A', h1, ⟨rfl, hs⟩ | ⟨rfl, path', A1, n, dp, name, hp, hs, hdp, hcr, hlast, hr1⟩⟩
  · exact ⟨A', H, h1, h.same_tables henv (fun m hm => by rw [hs.held_eq hm]), .fail hpath henv hs⟩
  · have hm : Made sb P A H path' type major minor A' := ⟨A1, n, dp, name, hs, hdp, hcr, hlast, hr1⟩
    exact ⟨A', H, h1, h.same_tables henv (fun m hm' => hm.type_eq h.idle hm'), hc path' s1 A' hp henv hm⟩

theorem open_case (h : Boundary μ sb D P s A H) (hr : Ready μ sb p D s A H P)
    (path : Option Path) (omode : BitVec 32) :
    wp (sysOpen sb p path omode) (fun r s' => ∃ A' H', Idle μ sb D s' A' H' ∧ Tables s' A' H' ∧
      Effect sb p P s A H (.open path omode) r s' A' H') μ.E s := by
  refine wp_imp (sysOpen_spec hr h.tables.closed path omode) ?_
  rintro r s1 (⟨rfl, henv, A', h1, hs | ⟨path', A1, n, dp, name, rfl, hl, hr1⟩⟩ |
    ⟨path', A', i, n, f, fd, rfl, rfl, ho, h1, ⟨hs, hn, hdir⟩ | ⟨hc, A1, dp, name, hs, hdp, hcr, hlast, hr1⟩⟩)
  · exact ⟨A', H, h1, h.same_tables henv (fun m hm => by rw [hs.held_eq hm]), .fail rfl henv hs⟩
  · have hm : Made sb P A H path' T_FILE 0 0 A' := ⟨A1, n, dp, name, hl.shrunk, hl.mem, hl.creates, hl.last, hr1⟩
    exact ⟨A', H, h1, h.same_tables henv (fun m hm' => hm.type_eq h.idle hm'),
      .leftBehind henv hl.create hl.full hm⟩
  · refine ⟨_, _, h1, h.tables.opened ho h1.inum_unique (fun m hm => ?_) (truncatedBy_type _ _ _ _) hdir,
      .openOld ho hs hn hdir⟩
    rw [truncatedBy_type, hs.held_eq hm]
  · have hA'n : A' n = created A1 n dp name T_FILE 0 0 n :=
      hr1.type_eq ⟨i, mem_cons_self _ _⟩
    refine ⟨_, _, h1, h.tables.opened ho h1.inum_unique (fun m hm => ?_) (truncatedBy_type _ _ _ _)
      (fun hd => ?_), .openNew ho hc hs hdp hcr hlast hr1⟩
    · obtain ⟨j, hj⟩ := hm
      rw [truncatedBy_type, hr1.type_eq ⟨j, mem_cons_of_mem hj⟩,
        created_type (hcr.notHeld hs h.idle ⟨j, hj⟩), hs.held_eq ⟨j, hj⟩]
    · rw [hA'n, created, update_of_ne hcr.dp_ne.symm, update_self, newNode_type] at hd
      exact absurd hd (by decide)

/-- One system call. Away from the calls of `onTree` all inodes are without holes. -/
theorem syscall_spec (h : Boundary μ sb D P s A H) (hen : enabled s p c = true) (hfree : μ.Free H 3)
    (hanchor : Anchored D s H) (hcall : (D = ∅ ∧ μ.holey = ∅) ∨ c.onTree = true) :
    wp (syscall sb p c) (fun r s' => ∃ A' H', Idle μ sb D s' A' H' ∧ Tables s' A' H' ∧
      Effect sb p P s A H c r s' A' H') μ.E s := by
  obtain ⟨hp, i, hi⟩ := enabled_cwd hen
  have hr := h.ready hp hi hfree
  have hstop (e : Panic) (he : e ∈ Fs.excused) : μ.stops e := h.excused e he
  cases c with
  | «open» path omode => exact open_case h hr path omode
  | mkdir path =>
    exact create_case h hr (by decide) (by decide) rfl (fun path' s' A' hpath henv hm => hpath ▸ .mkdir henv hm)
  | mknod path major minor =>
    exact create_case h hr (by decide) (by decide) rfl (fun path' s' A' hpath henv hm => hpath ▸ .mknod henv hm)
  | link old new =>
    refine wp_imp (sysLink_spec hr old new) ?_
    rintro r s1 ⟨henv, A', h1, ⟨rfl, hs⟩ | ⟨rfl, path, A1, n, dp, name, rfl, hs, hn, hdp, hl, hlast, hr1⟩⟩
    · exact ⟨A', H, h1, h.same_tables henv (fun m hm => by rw [hs.held_eq hm]), .fail rfl henv hs⟩
    · refine ⟨A', H, h1, h.same_tables henv (fun m hm => ?_), .link henv hs hn hdp hl hlast hr1⟩
      rw [hr1.type_eq hm, linked_type, hs.held_eq hm]
  | unlink path =>
    refine wp_imp (sysUnlink_spec hr path) ?_
    rintro r s1 ⟨henv, A', h1, ⟨rfl, hs⟩ | ⟨rfl, path', A1, dp, n, k, name, rfl, hs, hdp, hn, hu, hlast, hr1⟩⟩
    · exact ⟨A', H, h1, h.same_tables henv (fun m hm => by rw [hs.held_eq hm]), .fail rfl henv hs⟩
    · refine ⟨A', H, h1, h.same_tables henv (fun m hm => ?_), .unlink henv hs hdp hn hu hlast hr1⟩
      rw [hr1.type_eq hm, unlinked_type, hs.held_eq hm]
  | chdir path =>
    obtain ⟨rfl, -⟩ := hcall.resolve_right Bool.false_ne_true
    refine wp_imp (sysChdir_spec hr h.tables hp path) ?_
    rintro r s1 (⟨rfl, henv, A', h1, hs⟩ |
      ⟨rfl, A1, A', j, n, old, n0, H0, hH, hold, hproc, hn, hdir, hs, hr1, h1, ht1⟩)
    · exact ⟨A', H, h1, h.same_tables henv (fun m hm => by rw [hs.held_eq hm]), .fail rfl henv hs⟩
    · exact ⟨A', _, h1, ht1, .chdir hH hold hproc hn hdir hs hr1⟩
  | read fd dst len =>
    obtain ⟨-, hholey⟩ := hcall.resolve_right Bool.false_ne_true
    rw [syscall]
    refine wp_seq (sysRead_spec h.idle h.tables (hstop _ (by simp [Fs.excused])) hholey fd dst len) ?_
    rintro r s1 ⟨hproc, hdisk, h1, ht1⟩
    rw [wp_pure]
    exact ⟨A, H, h1, ht1, .read hproc hdisk⟩
  | write fd src len =>
    refine wp_imp (sysWrite_spec h.idle h.tables (hstop _ (by simp [Fs.excused])) fd src len) ?_
    rintro r s1 ⟨hproc, A', h1, ht1, hw⟩
    exact ⟨A', H, h1, ht1, .write hproc hw⟩
  | dup fd =>
    refine wp_imp (sysDup_spec h.idle h.tables (hstop _ (by simp [Fs.excused])) fd) ?_
    rintro r s1 ⟨hcwd, h1, ht1⟩
    exact ⟨A, H, h1, ht1, .dup hcwd⟩
  | close fd =>
    refine wp_imp (sysClose_spec h.idle h.tables hanchor (hstop _ (by simp [Fs.excused])) fd) ?_
    rintro r s1 ⟨hcwd, A', H', h1, ht1, hr1⟩
    exact ⟨A', H', h1, ht1, .close hcwd hr1⟩
  | exec path reads =>
    obtain ⟨-, hholey⟩ := hcall.resolve_right Bool.false_ne_true
    refine wp_imp (sysExec_spec hr hholey path reads) ?_
    rintro r s1 ⟨henv, A', h1, hs⟩
    exact ⟨A', H, h1, h.same_tables henv (fun m hm => by rw [hs.held_eq hm]), .exec henv hs⟩
  | fork q =>
    simp only [enabled, Bool.and_eq_true, decide_eq_true_eq] at hen
    refine wp_imp (kfork_spec h.idle h.tables hp hen.1.2 hi hen.2 (hstop _ (by simp [Fs.excused]))) ?_
    rintro r s1 ⟨hcwd, hother, n, hn, h1, ht1⟩
    exact ⟨A, _, h1, ht1, .fork hi hcwd hother hn⟩
  | exit =>
    obtain ⟨rfl, -⟩ := hcall.resolve_right Bool.false_ne_true
    rw [syscall]
    refine wp_seq (kexit_spec h.idle h.tables hp hi (hstop _ (by simp [Fs.excused]))
      (hstop _ (by simp [Fs.excused]))) ?_
    rintro - s1 ⟨hcwd, hother, A', H', h1, ht1, hr1⟩
    rw [wp_pure]
    exact ⟨A', H', h1, ht1, .exit hcwd hother hr1⟩

end Step

section Walk

theorem Walk.of_changes (h : Walk μ sb A H Set.univ) (hstop : μ.stops .noType)
    (hdirs : ∀ n, (A' n).type = T_DIR → (∀ k < (A' n).count, ((A' n).entry k).inum.toNat < sb.ninodes) ∧
      (((A n).type = T_DIR → DESIZE ∣ (A n).size) → DESIZE ∣ (A' n).size))
    (htidy : (∀ n, ¬ Orphan A H n) → ∀ n, ¬ Orphan A' H' n) : Walk μ sb A' H' Set.univ where
  entries n k hn hk := (hdirs n hn).1 k hk
  closed _ _ _ _ _ _ := Set.mem_univ _
  typed := .inr hstop
  whole := h.whole.imp_left (fun h1 => ⟨h1.1, fun n _ hn => (hdirs n hn).2 (h1.2 n (Set.mem_univ n))⟩)
  held := h.held.imp_left htidy

theorem Walk.of_dirs (h : Walk μ sb A H Set.univ) (hstop : μ.stops .noType)
    (hdirs : ∀ n, (A' n).type = T_DIR → A' n = A n)
    (htidy : (∀ n, ¬ Orphan A H n) → ∀ n, ¬ Orphan A' H' n) : Walk μ sb A' H' Set.univ := by
  refine h.of_changes hstop (fun n hn => ?_) htidy
  have heq := hdirs n hn
  rw [heq] at hn ⊢
  exact ⟨fun k hk => h.entries n k hn hk, fun h1 => h1 hn⟩

theorem Orphan.of_eq (h : Orphan A' H' n) (hA : A' n = A n) (hH : ∀ x ∈ H, x ∈ H') : Orphan A H n := by
  unfold Orphan at h ⊢
  rw [hA] at h
  exact ⟨h.1, h.2.1, fun i hi => h.2.2 i (hH _ hi)⟩

theorem Walk.of_reaped {B : ℕ → Node} (h : Walk μ sb A H Set.univ) (hstop : μ.stops .noType)
    (hB : ∀ m, m ≠ n → m ≠ j → B m = A m) (hr : Reaped H {n, j} B A')
    (hdirs : ∀ m, (B m).type = T_DIR → (∀ k < (B m).count, ((B m).entry k).inum.toNat < sb.ninodes) ∧
      (((A m).type = T_DIR → DESIZE ∣ (A m).size) → DESIZE ∣ (B m).size)) :
    Walk μ sb A' H Set.univ := by
  refine h.of_changes hstop (fun m hm => ?_) (fun ht => hr.tidy (fun m ho => ?_))
  · have heq := hr.shrunk.dir hm
    rw [heq] at hm ⊢
    exact hdirs m hm
  · by_contra hmem
    have hm1 : m ≠ n := fun hc => hmem (.inl hc)
    have hm2 : m ≠ j := fun hc => hmem (.inr hc)
    exact ht m (ho.of_eq (hB m hm1 hm2) (fun _ hx => hx))

theorem linked_of_ne {dp : ℕ} {name : Name} (h1 : m ≠ dp) (h2 : m ≠ n) : linked A n dp name m = A m := by
  rw [linked, update_of_ne h1, update_of_ne h2]

theorem unlinked_of_ne {dp k : ℕ} (h1 : m ≠ dp) (h2 : m ≠ n) : unlinked A dp n k m = A m := by
  rw [unlinked, update_of_ne h2, update_of_ne h1]

theorem created_of_ne {dp : ℕ} {name : Name} {type major minor : BitVec 16} (h1 : m ≠ dp) (h2 : m ≠ n) :
    created A n dp name type major minor m = A m := by
  rw [created, update_of_ne h1, update_of_ne h2]

theorem newNode_size_dvd {major minor : BitVec 16} (n dp : ℕ) : DESIZE ∣ (newNode T_DIR major minor n dp).size := by
  rw [newNode, if_pos rfl]
  exact Node.dvd_setEntry (Node.dvd_setEntry (dvd_zero DESIZE) _ _) _ _

theorem Walk.linked {dp : ℕ} {name : Name} (h : Walk μ sb A H Set.univ) (hstop : μ.stops .noType)
    (hl : Links A n dp name) (hn : n < sb.ninodes) (hr : Reaped H {dp, n} (linked A n dp name) A') :
    Walk μ sb A' H Set.univ := by
  refine h.of_reaped hstop (fun m h1 h2 => linked_of_ne h1 h2) hr (fun m hm => ?_)
  by_cases hmd : m = dp
  · subst hmd
    have hB : Fs.linked A n m name m = (A m).setEntry (A m).vacant (newEntry name n) :=
      update_self m _ _
    rw [hB]
    refine ⟨Node.within_setEntry (fun k hk => h.entries m k hl.dir hk) (Node.vacant_le _)
      (newEntry_inum_lt hn), fun _ => Node.dvd_setEntry hl.whole _ _⟩
  · have hmn : m ≠ n := by
      rintro rfl
      rw [linked_type] at hm
      exact hl.file hm
    rw [linked_of_ne hmd hmn] at hm ⊢
    exact ⟨fun k hk => h.entries m k hm hk, fun h1 => h1 hm⟩

theorem Walk.unlinked {dp k : ℕ} {name : Name} (h : Walk μ sb A H Set.univ) (hstop : μ.stops .noType)
    (hu : Unlinks A dp n k name) (hpos : 0 < sb.ninodes) (hr : Reaped H {dp, n} (unlinked A dp n k) A') :
    Walk μ sb A' H Set.univ := by
  refine h.of_reaped hstop (fun m h1 h2 => unlinked_of_ne h1 h2) hr (fun m hm => ?_)
  by_cases hmd : m = dp
  · subst hmd
    obtain ⟨x, hx⟩ : ∃ v, Fs.unlinked A m n k m = { (A m).setEntry k noEntry with nlink := v } :=
      ⟨_, by rw [Fs.unlinked, update_of_ne hu.ne, update_self]⟩
    rw [hx]
    have hk := (Node.find_some hu.find).1
    exact ⟨Node.within_setEntry (fun k hk => h.entries m k hu.dir hk) hk.le hpos,
      fun h1 => Node.dvd_setEntry (h1 hu.dir) k noEntry⟩
  · by_cases hmn : m = n
    · subst hmn
      have hB : Fs.unlinked A dp m k m = { A m with nlink := (A m).nlink - 1 } := update_self m _ _
      rw [unlinked_type] at hm
      rw [hB]
      exact ⟨fun k hk => h.entries m k hm hk, fun h1 => h1 hm⟩
    · rw [unlinked_of_ne hmd hmn] at hm ⊢
      exact ⟨fun k hk => h.entries m k hm hk, fun h1 => h1 hm⟩

theorem Walk.created_dirs {dp : ℕ} {name : Name} {type major minor : BitVec 16} (h : Walk μ sb A H Set.univ)
    (hc : Creates sb A n dp name) (hdp : dp < sb.ninodes) (m : ℕ)
    (hm : (created A n dp name type major minor m).type = T_DIR) :
    (∀ k < (created A n dp name type major minor m).count,
      ((created A n dp name type major minor m).entry k).inum.toNat < sb.ninodes) ∧
      (((A m).type = T_DIR → DESIZE ∣ (A m).size) → DESIZE ∣ (created A n dp name type major minor m).size) := by
  by_cases hmd : m = dp
  · subst hmd
    obtain ⟨x, hx⟩ : ∃ v, created A n m name type major minor m =
        { (A m).setEntry (A m).vacant (newEntry name n) with nlink := v } :=
      ⟨_, update_self m _ _⟩
    rw [hx]
    exact ⟨Node.within_setEntry (fun k hk => h.entries m k hc.dir hk) (Node.vacant_le _)
      (newEntry_inum_lt hc.lt), fun _ => Node.dvd_setEntry hc.whole (A m).vacant (newEntry name n)⟩
  · by_cases hmn : m = n
    · subst hmn
      have hB : created A m dp name type major minor m = newNode type major minor m dp := by
        rw [created, update_of_ne hmd, update_self]
      rw [hB, newNode_type] at hm
      subst hm
      rw [hB]
      exact ⟨newNode_entries hc.lt hdp, fun _ => newNode_size_dvd m dp⟩
    · rw [created_of_ne hmd hmn] at hm ⊢
      exact ⟨fun k hk => h.entries m k hm hk, fun h1 => h1 hm⟩

theorem Idle.lt_ninodes (h : Idle μ sb D s A H) (hn : (A n).type ≠ 0) : n < sb.ninodes := by
  obtain ⟨L, -, rfl⟩ := h.ok
  exact (used_of_type hn).1

theorem Shrunk.type_ne (h : Shrunk H A A') (hn : (A' n).type ≠ 0) : (A n).type ≠ 0 := by
  rcases h n with h1 | ⟨-, h1⟩
  · rwa [h1] at hn
  · rw [h1] at hn
    exact absurd rfl hn

theorem Made.walk {path : Path} {type major minor : BitVec 16} (h : Walk μ sb A H Set.univ)
    (hstop : μ.stops .noType) (hidle : Idle μ sb D s A H) (hm : Made sb P A H path type major minor A') :
    Walk μ sb A' H Set.univ := by
  obtain ⟨A1, n, dp, name, hs, -, hc, -, hr⟩ := hm
  have hdp : dp < sb.ninodes := hidle.lt_ninodes (hs.type_ne (by rw [hc.dir]; decide))
  exact (h.shrunk hs).of_reaped hstop (fun m h1 h2 => created_of_ne h1 h2) hr
    (fun m hm => (h.shrunk hs).created_dirs hc hdp m hm)

theorem Effect.walk {P : Set ℕ} (he : Effect sb p P s A H c r s' A' H') (h : Walk μ sb A H Set.univ)
    (hstop : μ.stops .noType) (hidle : Idle μ sb D s A H) : Walk μ sb A' H' Set.univ := by
  have hsame : (∀ n, ¬ Orphan A H n) → ∀ n, ¬ Orphan A H n := fun ht => ht
  have hcons (x : ℕ × ℕ) : (∀ n, ¬ Orphan A H n) → ∀ n, ¬ Orphan A (x ::ₘ H) n :=
    fun ht n ho => ht n ho.of_cons
  have hreleased (hr : Released H A H' A') : Walk μ sb A' H' Set.univ :=
    h.of_dirs hstop (fun n hn => hr.shrunk.dir hn) hr.tidy
  cases he with
  | fail hc henv hs => exact h.shrunk hs
  | exec henv hs => exact h.shrunk hs
  | link henv hs hn hdp hl hlast hr =>
    exact (h.shrunk hs).linked hstop hl (hidle.lt_ninodes (hs.type_ne hl.type)) hr
  | unlink henv hs hdp hn hu hlast hr =>
    have hpos := Nat.zero_lt_of_lt (hidle.lt_ninodes (hs.type_ne hu.type))
    exact (h.shrunk hs).unlinked hstop hu hpos hr
  | mkdir henv hm => exact hm.walk h hstop hidle
  | mknod henv hm => exact hm.walk h hstop hidle
  | leftBehind henv hc hfull hm => exact hm.walk h hstop hidle
  | openOld ho hs hn hdir =>
    refine (h.shrunk hs).of_dirs hstop (fun m hm => truncatedBy_dir hm) (fun ht m ho' => ht m ?_)
    refine ⟨?_, ?_, fun i hi => ho'.2.2 i (mem_cons_of_mem hi)⟩
    · exact fun hc => ho'.1 (by rw [truncatedBy_type, hc])
    · rw [← ho'.2.1, truncatedBy_nlink]
  | openNew ho hc hs hdp hcr hlast hr =>
    rename_i A1 A2 i n f fd dp name
    have hdp' : dp < sb.ninodes := hidle.lt_ninodes (hs.type_ne (by rw [hcr.dir]; decide))
    refine (h.shrunk hs).of_changes hstop (fun m hm => ?_) (fun ht m ho' => ?_)
    · have h2 := truncatedBy_dir hm
      rw [h2] at hm ⊢
      have heq := hr.shrunk.dir hm
      rw [heq] at hm ⊢
      exact (h.shrunk hs).created_dirs hcr hdp' m hm
    · have ho2 : Orphan A2 ((i, n) ::ₘ H) m := by
        refine ⟨fun hc => ho'.1 (by rw [truncatedBy_type, hc]), ?_, ho'.2.2⟩
        rw [← ho'.2.1, truncatedBy_nlink]
      refine hr.tidy (fun k hk => ?_) m ho2
      by_contra hmem
      have hkn : k ≠ n := by
        rintro rfl
        exact hk.2.2 i (mem_cons_self _ _)
      exact ht k ((hk.of_eq (created_of_ne hmem hkn) (fun _ hx => mem_cons_of_mem hx)))
  | chdir hH hcwd hproc hn hdir hs hr =>
    rename_i path A1 i n old n0 H0
    refine (h.shrunk hs).of_dirs hstop (fun m hm => hr.shrunk.dir hm) (fun ht => hr.tidy (fun m ho => ?_))
    by_contra hm
    refine ht m ⟨ho.1, ho.2.1, fun k hk => ?_⟩
    rw [hH] at hk
    rcases Multiset.mem_cons.mp hk with heq | hk
    · exact hm (Prod.mk.inj heq).2
    · exact ho.2.2 k (mem_cons_of_mem hk)
  | read hproc hdisk => exact h
  | write hproc hw =>
    rcases hw with rfl | ⟨n, hdir, hw⟩
    · exact h
    · refine h.of_dirs hstop (fun m hm => ?_) (fun ht m ho => ht m ?_)
      · refine hw.eq_of_ne ?_
        rintro rfl
        rw [hw.type_eq] at hm
        exact hdir hm
      · unfold Orphan at ho ⊢
        rwa [hw.type_eq, hw.nlink_eq] at ho
  | dup hcwd => exact h
  | close hcwd hr => exact hreleased hr
  | fork hself hcwd hother hn =>
    exact h.of_dirs hstop (fun _ _ => rfl) (hcons _)
  | exit hcwd hother hr => exact hreleased hr

end Walk

end Xv6.Fs
