import Xv6.FsCreate

/-! The calls on open files and processes (kernel/file.c, kernel/sysfile.c, kernel/proc.c): what they
do to the inodes and to the pointers that are held. -/
namespace Xv6.Fs

variable {μ : Mode} {sb : Superblock} {p : ℕ} {D V P : Set ℕ} {s s1 : St} {A A' A1 : ℕ → Node}
  {H H' H'' K : Multiset (ℕ × ℕ)} {N : Finset ℕ} {w i j n m : ℕ}

section Released

/-- Some pointers were dropped, and with them the inodes that nothing else kept. -/
structure Released (H : Multiset (ℕ × ℕ)) (A : ℕ → Node) (H' : Multiset (ℕ × ℕ)) (A' : ℕ → Node) :
    Prop where
  le : H' ≤ H
  shrunk : Shrunk H' A A'
  tidy : (∀ n, ¬ Orphan A H n) → ∀ n, ¬ Orphan A' H' n

theorem Orphan.mono (h : Orphan A H n) (hle : H' ≤ H) : Orphan A H' n :=
  ⟨h.1, h.2.1, fun i hi => h.2.2 i (Multiset.mem_of_le hle hi)⟩

theorem Shrunk.mono (h : Shrunk H A A') (hle : H' ≤ H) : Shrunk H' A A' :=
  fun n => (h n).imp_right (fun h1 => ⟨h1.1.mono hle, h1.2⟩)

theorem Released.refl (H : Multiset (ℕ × ℕ)) (A : ℕ → Node) : Released H A H A :=
  ⟨le_refl H, Shrunk.refl H A, fun h => h⟩

theorem Released.trans {A'' : ℕ → Node} (h : Released H A H' A') (h' : Released H' A' H'' A'') :
    Released H A H'' A'' :=
  ⟨le_trans h'.le h.le, (h.shrunk.mono h'.le).trans h'.shrunk, fun ht => h'.tidy (h.tidy ht)⟩

theorem Released.of_reaped (h : Reaped H {n} A A') : Released ((i, n) ::ₘ H) A H A' := by
  refine ⟨Multiset.le_cons_self H _, h.shrunk, fun ht => h.tidy (fun m ho => ?_)⟩
  by_contra hm
  refine ht m ⟨ho.1, ho.2.1, fun j hj => ?_⟩
  rcases Multiset.mem_cons.mp hj with heq | hj
  · exact hm (Prod.mk.inj heq).2
  · exact ho.2.2 j hj

theorem Shrunk.held_eq (h : Shrunk H A A') (hn : n ∈ held H) : A' n = A n := by
  obtain ⟨i, hi⟩ := hn
  exact (h n).resolve_right (fun h1 => h1.1.2.2 i hi)

end Released

section Close

theorem Idle.congr (h : Idle μ sb D s A H) (file : ℕ → File) (proc : ℕ → Proc) :
    Idle μ sb D { s with file := file, proc := proc } A H :=
  ⟨h.ok, h.outstanding, h.lh, h.tooBig, h.single, h.commits, h.valid, h.holes, h.dirty⟩

/-- The inodes `D` are current directories. -/
def Anchored (D : Set ℕ) (s : St) (H : Multiset (ℕ × ℕ)) : Prop :=
  ∀ n ∈ D, ∃ q i, q < NPROC ∧ (s.proc q).cwd = some i ∧ (i, n) ∈ H

theorem Tables.close (h : Tables s A H) {f : ℕ} (hf : f < NFILE) (href : 0 < (s.file f).ref)
    (htype : (s.file f).type = .FD_INODE ∨ (s.file f).type = .FD_DEVICE) :
    ∃ n H0, H = ((s.file f).ip, n) ::ₘ H0 ∧
      H0.map Prod.fst = (s.setFile f { s.file f with ref := 0, type := .FD_NONE }).pointers := by
  have hptr := pointers_close hf href htype
  have hmem : (s.file f).ip ∈ s.pointers := by
    rw [hptr]
    exact mem_cons_self _ _
  obtain ⟨n, hn⟩ := h.exists_of_mem hmem
  obtain ⟨H0, hH⟩ := Multiset.exists_cons_of_mem hn
  refine ⟨n, H0, hH, ?_⟩
  have hp := h.pointers
  rw [hH, Multiset.map_cons, hptr] at hp
  exact (Multiset.cons_inj_right _).mp hp

theorem Tables.set_ref (h : Tables s A H) {f r : ℕ} (hf : f < NFILE) (hr : 0 < r)
    (href : 0 < (s.file f).ref) : Tables (s.setFile f { s.file f with ref := r }) A H := by
  have hself : (s.setFile f { s.file f with ref := r }).file f = { s.file f with ref := r } :=
    update_self f _ _
  have hother (g : ℕ) (hg : g ≠ f) : (s.setFile f { s.file f with ref := r }).file g = s.file g :=
    update_of_ne hg _ _
  refine ⟨by rw [h.pointers, pointers_set_ref hf hr href], fun g hg => ?_, h.ofile, fun g hg h1 h2 h3 => ?_⟩
  · by_cases hgf : g = f
    · rw [hgf, hself] at hg
      exact absurd hg hr.ne'
    · rw [hother g hgf] at hg ⊢
      exact h.closed g hg
  · by_cases hgf : g = f
    · subst hgf
      rw [hself] at h2 h3 ⊢
      exact h.writable g hg href h2 h3
    · rw [hother g hgf] at h1 h2 h3 ⊢
      exact h.writable g hg h1 h2 h3

theorem Tables.set_closed (h : Tables s A H) {H0 : Multiset (ℕ × ℕ)} {f : ℕ} (hle : H0 ≤ H)
    (hp : H0.map Prod.fst = (s.setFile f { s.file f with ref := 0, type := .FD_NONE }).pointers)
    (hA : ∀ n ∈ held H0, (A' n).type = (A n).type) :
    Tables (s.setFile f { s.file f with ref := 0, type := .FD_NONE }) A' H0 := by
  have hself : (s.setFile f { s.file f with ref := 0, type := .FD_NONE }).file f =
      { s.file f with ref := 0, type := .FD_NONE } := update_self f _ _
  have hother (g : ℕ) (hg : g ≠ f) :
      (s.setFile f { s.file f with ref := 0, type := .FD_NONE }).file g = s.file g :=
    update_of_ne hg _ _
  refine ⟨hp, fun g hg => ?_, h.ofile, fun g hg h1 h2 h3 k hk => ?_⟩
  · by_cases hgf : g = f
    · rw [hgf, hself]
    · rw [hother g hgf] at hg ⊢
      exact h.closed g hg
  · by_cases hgf : g = f
    · rw [hgf, hself] at h1
      exact absurd h1 (lt_irrefl 0)
    · rw [hother g hgf] at h1 h2 h3 hk
      rw [hA k ⟨_, hk⟩]
      exact h.writable g hg h1 h2 h3 k (Multiset.mem_of_le hle hk)

theorem Anchored.mono {s' : St} (h : Anchored D s H) (ht : Tables s' A' H') (hle : H' ≤ H)
    (hproc : s'.proc = s.proc) (huniq : ∀ i n m, (i, n) ∈ H → (i, m) ∈ H → n = m) :
    Anchored D s' H' := by
  intro n hn
  obtain ⟨q, i, hq, hi, hH⟩ := h n hn
  rw [← hproc] at hi
  obtain ⟨m, hm⟩ := ht.cwd hq hi
  have := huniq i n m hH (Multiset.mem_of_le hle hm)
  exact ⟨q, i, hq, hi, this ▸ hm⟩

theorem Idle.inum_unique (h : Idle μ sb D s A H) : ∀ i n m, (i, n) ∈ H → (i, m) ∈ H → n = m := by
  obtain ⟨L, hok, -⟩ := h.ok
  exact fun i n m h1 h2 => (hok 0).inum_unique h1 h2

theorem fileclose_spec (h : Idle μ sb D s A H) (ht : Tables s A H) (hanchor : Anchored D s H) {f : ℕ}
    (hf : f < NFILE) (hstop : μ.stops .fileclose) :
    wp (fileclose sb p f) (fun _ s' => s'.proc = s.proc ∧ ∃ A' H', Idle μ sb D s' A' H' ∧
      Tables s' A' H' ∧ Released H A H' A') μ.E s := by
  unfold fileclose
  simp only [wp_bind, wp_get]
  by_cases href : (s.file f).ref < 1
  · rw [if_pos href, wp_throw]
    exact ⟨hstop, h.bounded⟩
  · rw [if_neg href]
    by_cases hmore : 0 < (s.file f).ref - 1
    · rw [if_pos hmore, wp_set]
      exact ⟨rfl, A, H, h.congr _ _, ht.set_ref hf hmore (by omega), Released.refl H A⟩
    · rw [if_neg hmore, wp_bind, wp_set]
      by_cases htype : (s.file f).type = .FD_INODE ∨ (s.file f).type = .FD_DEVICE
      · rw [if_pos htype]
        obtain ⟨n, H0, rfl, hp⟩ := ht.close hf (by omega) htype
        set s1 := s.setFile f { s.file f with ref := 0, type := .FD_NONE } with hs1
        have hle : H0 ≤ ((s.file f).ip, n) ::ₘ H0 := Multiset.le_cons_self _ _
        have ht1 : Tables s1 A H0 := ht.set_closed hle hp (fun _ _ => rfl)
        have hanchor1 : Anchored D s1 H0 := hanchor.mono ht1 hle rfl h.inum_unique
        have h1 : Idle μ sb D s1 A (((s.file f).ip, n) ::ₘ H0) := h.congr _ _
        have hdirty : D ⊆ held H0 := by
          intro k hk
          obtain ⟨q, i, -, -, hi⟩ := hanchor1 k hk
          exact ⟨i, hi⟩
        simp only [wp_bind]
        refine wp_imp (beginOp_idle h1 p) ?_
        rintro - s2 ⟨henv2, h2⟩
        have hmem : ((s.file f).ip, n) ∈ ((s.file f).ip, n) ::ₘ H0 := mem_cons_self _ _
        have hv := h2.valid_of_mem ⟨_, hmem⟩ hmem
        have h2' : Now μ sb p D (held H0) s2 A (((s.file f).ip, n) ::ₘ H0) 0 ∅ 0 := by
          refine h2.valid_mono ?_
          rintro k ⟨i, hi⟩
          exact ⟨i, mem_cons_of_mem hi⟩
        have hkeep : ∀ k ∈ D ∪ held H0, ∃ i, (i, k) ∈ H0 := by
          rintro k (hk | hk)
          · exact hdirty hk
          · exact hk
        refine wp_seq (iput_reap h2' (by simp) hv (h2'.keep_of hkeep)
          room_of_le) ?_
        rintro - s3 ⟨henv3, A3, hr3, h3⟩
        refine wp_imp (endOp_now h3 room_of_le subset_rfl hdirty) ?_
        rintro - s4 ⟨henv4, h4⟩
        have henv := henv2.trans (henv3.trans henv4)
        refine ⟨henv.2, A3, H0, h4, ht1.congr henv (fun k hk => ?_), Released.of_reaped hr3⟩
        rw [hr3.shrunk.held_eq hk]
      · rw [if_neg htype, wp_pure]
        have hptr := pointers_close_other hf htype
        exact ⟨rfl, A, H, h.congr _ _, ht.set_closed (le_refl H) (by rw [ht.pointers, hptr])
          (fun _ _ => rfl), Released.refl H A⟩

theorem Tables.set_ofile (h : Tables s A H) {q : ℕ} {o : ℕ → Option ℕ}
    (ho : ∀ fd f, o fd = some f → f < NFILE) : Tables (s.setProc q { s.proc q with ofile := o }) A H := by
  refine ⟨by rw [h.pointers, pointers_set_ofile], h.closed, fun r fd f hf => ?_, h.writable⟩
  by_cases hr : r = q
  · subst hr
    change (update s.proc r _ r).ofile fd = some f at hf
    rw [update_self] at hf
    exact ho fd f hf
  · change (update s.proc q _ r).ofile fd = some f at hf
    rw [update_of_ne hr] at hf
    exact h.ofile r fd f hf

theorem Tables.clear_fd (h : Tables s A H) {q fd : ℕ} :
    Tables (s.setProc q { s.proc q with ofile := update (s.proc q).ofile fd none }) A H := by
  refine h.set_ofile (fun fd' f hf => ?_)
  by_cases heq : fd' = fd
  · rw [heq, update_self] at hf
    cases hf
  · rw [update_of_ne heq] at hf
    exact h.ofile q fd' f hf

theorem Tables.set_fd (h : Tables s A H) {q fd f : ℕ} (hf : f < NFILE) :
    Tables (s.withFd q fd f) A H := by
  refine h.set_ofile (fun fd' g hg => ?_)
  by_cases heq : fd' = fd
  · rw [heq, update_self] at hg
    cases hg
    exact hf
  · rw [update_of_ne heq] at hg
    exact h.ofile q fd' g hg

theorem Anchored.congr {s' : St} (h : Anchored D s H) (hcwd : ∀ q, (s'.proc q).cwd = (s.proc q).cwd) :
    Anchored D s' H := by
  intro n hn
  obtain ⟨q, i, h1, h2, h3⟩ := h n hn
  exact ⟨q, i, h1, by rw [hcwd q, h2], h3⟩

theorem argfd_spec {E : Panic → St → Prop} (fd : ℤ) :
    wp (argfd p fd) (fun r s' => s' = s ∧ ∀ f, r = some f → 0 ≤ fd ∧ (s.proc p).ofile fd.toNat = some f) E s := by
  simp only [argfd, wp_bind, wp_get, wp_pure]
  refine ⟨trivial, fun f hf => ?_⟩
  split_ifs at hf with hc
  exact ⟨by omega, hf⟩

theorem sysClose_spec (h : Idle μ sb D s A H) (ht : Tables s A H) (hanchor : Anchored D s H)
    (hstop : μ.stops .fileclose) (fd : ℤ) :
    wp (sysClose sb p fd) (fun _ s' => (∀ q, (s'.proc q).cwd = (s.proc q).cwd) ∧ ∃ A' H',
      Idle μ sb D s' A' H' ∧ Tables s' A' H' ∧ Released H A H' A') μ.E s := by
  rw [sysClose]
  refine wp_seq (argfd_spec fd) ?_
  rintro r s1 ⟨rfl, hfd⟩
  cases r with
  | none => exact ⟨fun _ => rfl, A, H, h, ht, Released.refl H A⟩
  | some f =>
    simp only [wp_bind, setOfile, wp_modify]
    set s2 := s1.setProc p { s1.proc p with ofile := update (s1.proc p).ofile fd.toNat none } with hs2
    have h2 : Idle μ sb D s2 A H := h.congr _ _
    have hcwd : ∀ q, (s2.proc q).cwd = (s1.proc q).cwd := fun q => setProc_cwd q
    refine wp_imp (fileclose_spec h2 (ht.clear_fd) (hanchor.congr hcwd)
      (ht.ofile p fd.toNat f (hfd f rfl).2) hstop) ?_
    rintro - s3 ⟨hproc, A3, H3, h3, ht3, hr3⟩
    rw [wp_pure]
    exact ⟨fun q => by rw [hproc, hcwd], A3, H3, h3, ht3, hr3⟩

end Close

section Content

def Rewritten (A : ℕ → Node) (n : ℕ) (A' : ℕ → Node) : Prop :=
  ∃ x : Node, A' = update A n x ∧ x.type = (A n).type ∧ x.major = (A n).major ∧
    x.minor = (A n).minor ∧ x.nlink = (A n).nlink

theorem Rewritten.refl (A : ℕ → Node) (n : ℕ) : Rewritten A n A :=
  ⟨A n, (update_eq_self n A).symm, rfl, rfl, rfl, rfl⟩

theorem Rewritten.trans {A'' : ℕ → Node} (h : Rewritten A n A') (h' : Rewritten A' n A'') :
    Rewritten A n A'' := by
  obtain ⟨x, rfl, h1, h2, h3, h4⟩ := h
  obtain ⟨y, rfl, h5, h6, h7, h8⟩ := h'
  rw [update_self] at h5 h6 h7 h8
  exact ⟨y, update_idem _ _ _, h5.trans h1, h6.trans h2, h7.trans h3, h8.trans h4⟩

theorem Rewritten.eq_of_ne (h : Rewritten A n A') (hm : m ≠ n) : A' m = A m := by
  obtain ⟨x, rfl, -⟩ := h
  exact update_of_ne hm _ _

theorem Rewritten.type_eq (h : Rewritten A n A') (m : ℕ) : (A' m).type = (A m).type := by
  by_cases hm : m = n
  · obtain ⟨x, rfl, h1, -⟩ := h
    rw [hm, update_self, h1]
  · rw [h.eq_of_ne hm]

theorem Rewritten.nlink_eq (h : Rewritten A n A') (m : ℕ) : (A' m).nlink = (A m).nlink := by
  by_cases hm : m = n
  · obtain ⟨x, rfl, -, -, -, h1⟩ := h
    rw [hm, update_self, h1]
  · rw [h.eq_of_ne hm]

theorem writei_user {src : ℕ → Option Byte} {off len : ℕ} (h : Now μ sb p D V s A H K N w)
    (hi : (i, n) ∈ K) (hroom : μ.Room (insert n N) (w + blocksOf off len + 1)) :
    wp (writei sb i src off len) (fun _ s' => Env s s' ∧ ∃ A', Rewritten A n A' ∧
      Now μ sb p D V s' A' H K (insert n N) (w + blocksOf off len + 1)) μ.E s := by
  have h0 := h
  obtain ⟨L, W, hok, rfl, hl, hw, hV, hhole⟩ := h
  refine wp_imp (writei_spec hok hi hl (hroom.mono subset_rfl (by omega))) ?_
  rintro r s1 (⟨rfl, rfl, -⟩ | ⟨tot, m, L', W', rfl, -, -, hok1, hnodes, henv, hkv, hl1, hW', -⟩)
  · exact ⟨Env.refl s1, _, Rewritten.refl _ n, h0.mono (Finset.subset_insert n N) (by omega)⟩
  · refine ⟨henv, _, ⟨(nodes sb s.disk L n).written off m tot src, rfl, rfl, rfl, rfl, rfl⟩, L', W', hok1,
      hnodes, hl1, by omega, fun k hk => ?_, hhole⟩
    obtain ⟨j, hj, hv⟩ := hV k hk
    exact ⟨j, hj, hkv j k hj hv⟩

/-- The files but for their offsets. -/
def SameFiles (s s' : St) : Prop := ∀ f, ∃ off, s'.file f = { s.file f with off := off }

theorem SameFiles.refl (s : St) : SameFiles s s := fun f => ⟨(s.file f).off, rfl⟩

theorem SameFiles.trans {s' s'' : St} (h : SameFiles s s') (h' : SameFiles s' s'') : SameFiles s s'' := by
  intro f
  obtain ⟨o, h1⟩ := h f
  obtain ⟨o', h2⟩ := h' f
  exact ⟨o', by rw [h2, h1]⟩

theorem SameFiles.of_env {s' : St} (h : Env s s') : SameFiles s s' := by
  intro f
  rw [h.1]
  exact ⟨(s.file f).off, rfl⟩

theorem SameFiles.set_off (s : St) (f off : ℕ) :
    SameFiles s (s.setFile f { s.file f with off := off }) := by
  intro g
  change ∃ off', update s.file f _ g = _
  by_cases hg : g = f
  · subst hg
    rw [update_self]
    exact ⟨off, rfl⟩
  · rw [update_of_ne hg]
    exact ⟨(s.file g).off, rfl⟩

theorem Tables.same_files {s' : St} (h : Tables s A H) (hfiles : SameFiles s s') (hproc : s'.proc = s.proc)
    (htype : ∀ n ∈ held H, (A' n).type = (A n).type) : Tables s' A' H := by
  have hptr (f : ℕ) : (s'.file f).pointer = (s.file f).pointer := by
    obtain ⟨o, ho⟩ := hfiles f
    rw [ho]
    rfl
  refine ⟨?_, fun f hf => ?_, by rw [hproc]; exact h.ofile, fun f hf h1 h2 h3 n hn => ?_⟩
  · rw [h.pointers]
    simp only [St.pointers, hptr, hproc]
  · obtain ⟨o, ho⟩ := hfiles f
    rw [ho] at hf ⊢
    exact h.closed f hf
  · obtain ⟨o, ho⟩ := hfiles f
    rw [ho] at h1 h2 h3 hn
    rw [htype n ⟨_, hn⟩]
    exact h.writable f hf h1 h2 h3 n hn

theorem blocksOf_chunk (off : ℕ) {len : ℕ} (h : len ≤ maxChunk) : blocksOf off len ≤ 4 := by
  simp only [blocksOf, maxChunk, MAXOPBLOCKS, BSIZE] at *
  omega

theorem writeChunk_spec {src : ℕ → Option Byte} {f k len : ℕ} (h : Idle μ sb D s A H)
    (hi : ((s.file f).ip, n) ∈ H) (hlen : len ≤ maxChunk) :
    wp (writeChunk sb p f src k len) (fun _ s' => SameFiles s s' ∧ s'.proc = s.proc ∧
      ∃ A', Rewritten A n A' ∧ Idle μ sb D s' A' H) μ.E s := by
  have hblocks := blocksOf_chunk (s.file f).off hlen
  have hroom (w : ℕ) (hw : w ≤ 7) : μ.Room {n} w := room_of_le (by
    rw [Finset.card_singleton]
    simp only [MAXOPBLOCKS]
    omega)
  simp only [writeChunk, wp_bind, wp_get]
  refine wp_imp (beginOp_idle h p) ?_
  rintro - s1 ⟨henv1, h1⟩
  have h1' : Now μ sb p D (held H) s1 A H 0 {n} 0 := h1.mono (Finset.empty_subset _) (le_refl 0)
  refine wp_seq (ilock_now h1' hi (hroom 0 (by omega)) (by simp)
    (fun h0 => ?_)) ?_
  · obtain ⟨L, hok, rfl⟩ := h.ok
    rw [nodes_type n ((hok p).held _ n hi).2.1] at h0
    exact absurd h0 ((hok p).copy _ n hi (h.valid _ n hi)).2
  rintro - s2 ⟨h2, henv2⟩
  have hoff : (s2.file f).off = (s.file f).off := by rw [henv2.1, henv1.1]
  have hins : insert n ({n} : Finset ℕ) = {n} := Finset.insert_eq_of_mem (Finset.mem_singleton_self n)
  simp only [wp_bind, wp_get, hoff]
  refine wp_imp (writei_user h2 (mem_cons_self _ _)
    (by rw [hins]; exact hroom _ (by omega))) ?_
  rintro r s3 ⟨henv3, A3, hw3, h3⟩
  rw [hins] at h3
  rw [wp_bind, wp_modify]
  -- the offset moves on
  have hmove : ∃ s4 : St, (if 0 < r then s3.setFile f { s3.file f with off := (s3.file f).off + r.toNat }
      else s3) = s4 ∧ SameFiles s3 s4 ∧ s4.proc = s3.proc ∧
      Now μ sb p D (held H) s4 A3 H (((s.file f).ip, n) ::ₘ 0) {n}
        (0 + blocksOf (s.file f).off len + 1) := by
    by_cases hr : 0 < r
    · rw [if_pos hr]
      exact ⟨_, rfl, SameFiles.set_off s3 f _, rfl, h3.congr _ _⟩
    · rw [if_neg hr]
      exact ⟨s3, rfl, SameFiles.refl s3, rfl, h3⟩
  obtain ⟨s4, hs4, hfiles4, hproc4, h4⟩ := hmove
  rw [hs4]
  refine wp_seq (iunlock_now h4) ?_
  rintro - s5 ⟨h5, henv5⟩
  refine wp_seq (endOp_now h5 (hroom _ (by omega)) (Set.subset_insert n _) h.dirty) ?_
  rintro - s6 ⟨henv6, h6⟩
  rw [wp_pure]
  have henv13 := henv1.trans (henv2.trans henv3)
  have henv46 := henv5.trans henv6
  refine ⟨(SameFiles.of_env henv13).trans (hfiles4.trans (SameFiles.of_env henv46)), ?_, A3, hw3, h6⟩
  rw [henv46.2, hproc4, henv13.2]

theorem chunks_spec {src : ℕ → Option Byte} {f len : ℕ} (fuel k : ℕ) (h : Idle μ sb D s A H)
    (hi : ((s.file f).ip, n) ∈ H) :
    wp (chunks sb p f src len fuel k) (fun _ s' => SameFiles s s' ∧ s'.proc = s.proc ∧
      ∃ A', Rewritten A n A' ∧ Idle μ sb D s' A' H) μ.E s := by
  induction fuel generalizing k s A with
  | zero =>
    rw [chunks, wp_pure]
    exact ⟨SameFiles.refl s, rfl, A, Rewritten.refl A n, h⟩
  | succ fuel ih =>
    rw [chunks]
    by_cases hk : k < len
    · rw [if_pos hk]
      refine wp_seq (writeChunk_spec h hi (min_le_right _ _)) ?_
      rintro r s1 ⟨hf1, hp1, A1, hw1, h1⟩
      by_cases hr : r ≠ ((min (len - k) maxChunk : ℕ) : ℤ)
      · rw [if_pos hr, wp_pure]
        exact ⟨hf1, hp1, A1, hw1, h1⟩
      · rw [if_neg hr]
        have hi1 : ((s1.file f).ip, n) ∈ H := by
          obtain ⟨o, ho⟩ := hf1 f
          rw [ho]
          exact hi
        refine wp_imp (ih _ h1 hi1) ?_
        rintro r s2 ⟨hf2, hp2, A2, hw2, h2⟩
        exact ⟨hf1.trans hf2, hp2.trans hp1, A2, hw1.trans hw2, h2⟩
    · rw [if_neg hk, wp_pure]
      exact ⟨SameFiles.refl s, rfl, A, Rewritten.refl A n, h⟩

theorem Tables.file (h : Tables s A H) {f : ℕ} (hf : f < NFILE)
    (htype : (s.file f).type = .FD_INODE) : 0 < (s.file f).ref ∧ ∃ n, ((s.file f).ip, n) ∈ H := by
  have href : 0 < (s.file f).ref := by
    by_contra h0
    rw [h.closed f (by omega)] at htype
    cases htype
  refine ⟨href, h.exists_of_mem (mem_pointers_of_file hf ?_)⟩
  rw [File.pointer, if_pos ⟨href, .inl htype⟩]
  exact Multiset.mem_singleton_self _

theorem sysWrite_spec (h : Idle μ sb D s A H) (ht : Tables s A H) (hstop : μ.stops .filewrite) (fd : ℤ)
    (src : ℕ → Option Byte) (len : ℤ) :
    wp (sysWrite sb p fd src len) (fun _ s' => s'.proc = s.proc ∧ ∃ A', Idle μ sb D s' A' H ∧
      Tables s' A' H ∧ (A' = A ∨ ∃ n, (A n).type ≠ T_DIR ∧ Rewritten A n A')) μ.E s := by
  rw [sysWrite]
  refine wp_seq (argfd_spec fd) ?_
  rintro r s1 ⟨rfl, hfd⟩
  cases r with
  | none => exact ⟨rfl, A, h, ht, .inl rfl⟩
  | some f =>
    have hf := ht.ofile p _ f (hfd f rfl).2
    simp only [filewrite, wp_bind, wp_get]
    by_cases hw : (s1.file f).writable = false
    · rw [if_pos hw, wp_pure]
      exact ⟨rfl, A, h, ht, .inl rfl⟩
    · rw [if_neg hw]
      cases htype : (s1.file f).type with
      | FD_NONE => exact ⟨hstop, h.bounded⟩
      | FD_PIPE => exact ⟨rfl, A, h, ht, .inl rfl⟩
      | FD_DEVICE => exact ⟨rfl, A, h, ht, .inl rfl⟩
      | FD_INODE =>
        obtain ⟨href, n, hn⟩ := ht.file hf htype
        simp only [wp_bind]
        refine wp_imp (chunks_spec _ 0 h hn) ?_
        rintro k s2 ⟨hf2, hp2, A2, hw2, h2⟩
        rw [wp_pure]
        refine ⟨hp2, A2, h2, ht.same_files hf2 hp2 (fun m _ => hw2.type_eq m), .inr ⟨n, ?_, hw2⟩⟩
        exact ht.writable f hf href htype (Bool.eq_true_of_not_eq_false hw) n hn

theorem fileread_spec {f : ℕ} (h : Idle μ sb D s A H) (ht : Tables s A H) (hf : f < NFILE)
    (hstop : μ.stops .fileread) (hholey : μ.holey = ∅) (dst : ℕ → Bool) (len : ℤ) :
    wp (fileread sb p f dst len) (fun _ s' => s'.proc = s.proc ∧ s'.disk = s.disk ∧
      Idle μ sb D s' A H ∧ Tables s' A H) μ.E s := by
  simp only [fileread, wp_bind, wp_get]
  by_cases hr : (s.file f).readable = false
  · rw [if_pos hr, wp_pure]
    exact ⟨rfl, rfl, h, ht⟩
  · rw [if_neg hr]
    cases htype : (s.file f).type with
    | FD_NONE => exact ⟨hstop, h.bounded⟩
    | FD_PIPE => exact ⟨rfl, rfl, h, ht⟩
    | FD_DEVICE => exact ⟨rfl, rfl, h, ht⟩
    | FD_INODE =>
      obtain ⟨-, n, hn⟩ := ht.file hf htype
      obtain ⟨L, hok, rfl⟩ := h.ok
      have hLn : (L n).type ≠ 0 := ((hok p).copy _ n hn (h.valid _ n hn)).2
      simp only [wp_bind]
      refine wp_imp (ilock_spec (hok p) hn h.bounded (by simp)
        (fun h0 => absurd h0 hLn)) ?_
      rintro - s1 ⟨T1, rfl, hok1, hkv1⟩
      refine wp_seq (readi_spec hok1 (mem_cons_self _ _) (by rw [hholey]; exact id)) ?_
      rintro r s2 ⟨rfl, -⟩
      rw [wp_bind, wp_modify]
      have hmove : ∃ s3 : St, (if 0 < r.1 then St.setFile { s with itable := T1 } f
          { s.file f with off := (s.file f).off + r.1.toNat } else { s with itable := T1 }) = s3 ∧
          SameFiles s s3 ∧ ∃ file, s3 = { s with itable := T1, file := file } := by
        by_cases hpos : 0 < r.1
        · rw [if_pos hpos]
          exact ⟨_, rfl, SameFiles.set_off s f _, _, rfl⟩
        · rw [if_neg hpos]
          exact ⟨_, rfl, SameFiles.refl s, s.file, rfl⟩
      obtain ⟨s3, hs3, hfiles3, file3, rfl⟩ := hmove
      have hs3' : (if 0 < r.1 then St.setFile { s with itable := T1 } f
          { ({ s with itable := T1 } : St).file f with
            off := (({ s with itable := T1 } : St).file f).off + r.1.toNat } else { s with itable := T1 }) =
          { s with itable := T1, file := file3 } := hs3
      rw [hs3']
      refine wp_seq (iunlock_spec (s := { s with itable := T1, file := file3 }) hok1) ?_
      rintro - s4 ⟨T4, rfl, hok4, hkv4, -⟩
      rw [wp_pure]
      refine ⟨rfl, rfl, ⟨⟨L, hok4.of_unlocked, rfl⟩, h.outstanding, h.lh, h.tooBig, h.single, h.commits,
        fun j m hj => ?_, h.holes, h.dirty⟩, ht.same_files hfiles3 rfl (fun _ _ => rfl)⟩
      exact hkv4 j m hj (hkv1 j m hj (h.valid j m hj))

end Content

end Xv6.Fs
