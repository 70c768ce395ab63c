import Xv6.FsIdle

/-! `sys_link` and `sys_unlink` (kernel/sysfile.c): what they do to the inodes. -/
namespace Xv6.Fs

variable {μ : Mode} {sb : Superblock} {p : ℕ} {D V P : Set ℕ} {s : St} {A A' A1 : ℕ → Node}
  {H K : Multiset (ℕ × ℕ)} {N : Finset ℕ} {w i j n m : ℕ}

section Ready

/-- The panics that no result about system calls excludes. -/
def excused : List Panic :=
  [.blocked, .unlinkNlink, .unlinkWritei, .filedup, .fileclose, .fileread, .filewrite, .initExiting]

/-- A system call of process `p` may start. Paths lead through the inodes `P`. -/
structure Ready (μ : Mode) (sb : Superblock) (p : ℕ) (D : Set ℕ) (s : St) (A : ℕ → Node)
    (H : Multiset (ℕ × ℕ)) (P : Set ℕ) : Prop where
  idle : Idle μ sb D s A H
  walk : Walk μ sb A H P
  starts : Starts sb p s H P
  free : μ.Free H 3
  excused : ∀ e ∈ excused, μ.stops e

theorem room_of_le (h : N.card + w < MAXOPBLOCKS := by simp [MAXOPBLOCKS]) : μ.Room N w := by
  intro _
  omega

theorem room_pair (hw : w ≤ 7) (a b : ℕ) : μ.Room {a, b} w := by
  have := Finset.card_le_two (a := a) (b := b)
  refine room_of_le ?_
  simp only [MAXOPBLOCKS]
  omega

theorem Starts.congr {s' : St} (h : Starts sb p s H P) (henv : Env s s') : Starts sb p s' H P := by
  refine ⟨h.root_lt, h.root, ?_⟩
  rw [henv.2]
  exact h.cwd

theorem Ready.keeps (h : Ready μ sb p D s A H P) : ∀ m ∈ D ∪ held H, ∃ j, (j, m) ∈ H := by
  rintro m (hm | hm)
  · exact h.idle.dirty hm
  · exact hm

theorem Now.keep_of (h : Now μ sb p D V s A ((i, n) ::ₘ H) K N w)
    (hkeep : ∀ m ∈ D ∪ V, ∃ j, (j, m) ∈ H) : n ∈ D ∪ V → (i, n) ∈ H := by
  intro hn
  obtain ⟨j, hj⟩ := hkeep n hn
  rwa [h.uniq (mem_cons_self _ _) (mem_cons_of_mem hj)]

theorem keeps_cons {x : ℕ × ℕ} (hkeep : ∀ m ∈ D ∪ V, ∃ j, (j, m) ∈ H) :
    ∀ m ∈ D ∪ V, ∃ j, (j, m) ∈ x ::ₘ H := by
  intro m hm
  obtain ⟨j, hj⟩ := hkeep m hm
  exact ⟨j, mem_cons_of_mem hj⟩

theorem setNlink_now {v : BitVec 16 → BitVec 16} (h : Now μ sb p D V s A H K N w) (hi : (i, n) ∈ K)
    (hroom : μ.Room (insert n N) w) :
    wp (setNlink sb i v) (fun _ s' => Env s s' ∧
      Now μ sb p D V s' (update A n { A n with nlink := v (A n).nlink }) H K (insert n N) w)
      μ.E s := by
  obtain ⟨⟨-, hmajor, hminor, hnlink, -⟩, -⟩ := h.copy hi
  rw [setNlink, wp_bind, wp_modify]
  refine wp_imp (iupdate_now (d := { (s.itable i).copy with nlink := v (s.itable i).copy.nlink }) h hi
    ⟨rfl, rfl, rfl⟩ hroom) ?_
  rintro - s1 ⟨henv, h1⟩
  simp only [hmajor, hminor, hnlink] at h1
  exact ⟨henv, h1⟩

end Ready

section Link

/-- The inode with one more link, and the new entry for it. -/
def linked (A : ℕ → Node) (n dp : ℕ) (name : Name) : ℕ → Node :=
  update (update A n { A n with nlink := (A n).nlink + 1 }) dp
    ((A dp).setEntry (A dp).vacant (newEntry name n))

/-- When `sys_link` makes a link. -/
structure Links (A : ℕ → Node) (n dp : ℕ) (name : Name) : Prop where
  type : (A n).type ≠ 0
  file : (A n).type ≠ T_DIR
  dir : (A dp).type = T_DIR
  fresh : (A dp).find name = none
  whole : DESIZE ∣ (A dp).size

/-- While `n` is held it is changed; the orphans that are freed meanwhile are others. -/
theorem Shrunk.around {x : Node} (h : Shrunk ((i, n) ::ₘ H) (update A n x) A') :
    A' n = x ∧ Shrunk H A (update A' n (A n)) := by
  constructor
  · rcases h n with h1 | ⟨h1, -⟩
    · rw [h1, update_self]
    · exact absurd (mem_cons_self _ _) (h1.2.2 i)
  · intro m
    by_cases hm : m = n
    · subst hm
      exact .inl (update_self m _ A')
    · rw [update_of_ne hm]
      rcases h m with h1 | ⟨h1, h2⟩
      · rw [h1, update_of_ne hm]
        exact .inl rfl
      · refine .inr ⟨?_, h2⟩
        have h3 := h1.of_cons
        unfold Orphan at h3 ⊢
        rwa [update_of_ne hm] at h3

theorem Walk.set_nlink {v : BitVec 16} (h : Walk μ sb A H P) (hdir : (A n).type ≠ T_DIR) :
    Walk μ sb (update A n { A n with nlink := v }) ((i, n) ::ₘ H) P := by
  have hdirs (m : ℕ) (hm : (update A n { A n with nlink := v } m).type = T_DIR) :
      update A n { A n with nlink := v } m = A m := by
    by_cases hmn : m = n
    · rw [hmn, update_self] at hm
      exact absurd hm hdir
    · exact update_of_ne hmn _ A
  refine ⟨fun m k hm hk => ?_, fun m hP hm k hk hi => ?_, ?_, ?_, ?_⟩
  · have heq := hdirs m hm
    rw [heq] at hm hk ⊢
    exact h.entries m k hm hk
  · have heq := hdirs m hm
    rw [heq] at hm hk hi ⊢
    exact h.closed m hP hm k hk hi
  · refine h.typed.imp_left (fun h1 m hP => ?_)
    by_cases hmn : m = n
    · rw [hmn, update_self]
      exact h1 n (hmn ▸ hP)
    · rw [update_of_ne hmn]
      exact h1 m hP
  · refine h.whole.imp_left (fun h1 => ⟨h1.1, fun m hP hm => ?_⟩)
    have heq := hdirs m hm
    rw [heq] at hm ⊢
    exact h1.2 m hP hm
  · refine h.held.imp_left (fun h1 m ho => ?_)
    by_cases hmn : m = n
    · exact ho.2.2 i (hmn ▸ mem_cons_self _ _)
    · refine h1 m ?_
      have h3 := ho.of_cons
      unfold Orphan at h3 ⊢
      rwa [update_of_ne hmn] at h3

theorem linkBad_now (h : Now μ sb p D (insert n (held H)) s A' ((i, n) ::ₘ H) 0 N w)
    (hs : Shrunk ((i, n) ::ₘ H) (update A n { A n with nlink := (A n).nlink + 1 }) A')
    (hkeep : ∀ m ∈ D ∪ held H, ∃ j, (j, m) ∈ H) (htype : (A n).type ≠ 0)
    (hroom : μ.Room (insert n N) w) :
    wp (linkBad sb p i) (fun r s' => Env s s' ∧ r = -1 ∧
      ∃ A'', Idle μ sb D s' A'' H ∧ Shrunk H A A'') μ.E s := by
  obtain ⟨hA'n, hsh⟩ := hs.around
  have hroom1 := hroom.mono (Finset.subset_insert n N) (le_refl w)
  rw [linkBad]
  refine wp_seq (ilock_now (h.valid_mono (Set.subset_insert n _)) (mem_cons_self _ _) hroom1
    (by simp) (fun h0 => ?_)) ?_
  · rw [hA'n] at h0
    exact absurd h0 htype
  rintro - s1 ⟨h1, henv1⟩
  refine wp_seq (setNlink_now h1 (mem_cons_self _ _) hroom) ?_
  rintro - s2 ⟨henv2, h2⟩
  -- one more and one less
  have hback : { A' n with nlink := (A' n).nlink - 1 } = A n := by
    rw [hA'n]
    change { A n with nlink := (A n).nlink + 1 - 1 } = A n
    rw [BitVec.add_sub_cancel]
  rw [hback] at h2
  refine wp_seq (iunlockput_reap h2 (h2.keep_of hkeep) (by rwa [Finset.insert_idem])) ?_
  rintro - s3 ⟨henv3, A3, hr3, h3⟩
  rw [Finset.insert_idem] at h3
  refine wp_seq (endOp_now h3 hroom subset_rfl (fun m hm => hkeep m (.inl hm))) ?_
  rintro - s4 ⟨henv4, h4⟩
  rw [wp_pure]
  exact ⟨henv1.trans (henv2.trans (henv3.trans henv4)), rfl, A3, h4, hsh.trans hr3.shrunk⟩

theorem linkTo_now {new : Path} (hr : Ready μ sb p D s A H P) {s1 : St} (henv : Env s s1)
    (h : Now μ sb p D (insert n (held H)) s1
      (update A1 n { A1 n with nlink := (A1 n).nlink + 1 }) ((i, n) ::ₘ H) 0 {n} 0)
    (hs : Shrunk H A A1) (htype : (A1 n).type ≠ 0) (hfile : (A1 n).type ≠ T_DIR) :
    wp (linkTo sb p i new) (fun r s' => Env s1 s' ∧ ∃ A', Idle μ sb D s' A' H ∧
      ((r = -1 ∧ Shrunk H A1 A') ∨ (r = 0 ∧ ∃ A2 dp name, Shrunk H A1 A2 ∧ dp ∈ P ∧ Links A2 n dp name ∧
        (elems new.chars).getLast? = some name ∧ Reaped H {dp, n} (linked A2 n dp name) A'))) μ.E s1 := by
  have hkeep0 := hr.keeps
  have hmem : (i, n) ∈ (i, n) ::ₘ H := mem_cons_self _ _
  have hkeep : ∀ m ∈ D ∪ insert n (held H), ∃ j, (j, m) ∈ (i, n) ::ₘ H := by
    rintro m (hm | rfl | ⟨j, hj⟩)
    · exact keeps_cons hkeep0 m (.inl hm)
    · exact ⟨i, hmem⟩
    · exact ⟨j, mem_cons_of_mem hj⟩
  have hwalk := (hr.walk.shrunk hs).set_nlink (i := i) (v := (A1 n).nlink + 1) hfile
  have hstart : Starts sb p s1 ((i, n) ::ₘ H) P := by
    obtain ⟨h1, h2, j, m, h3, h4, h5⟩ := hr.starts.congr henv
    exact ⟨h1, h2, j, m, h3, mem_cons_of_mem h4, h5⟩
  have hfree : μ.Free ((i, n) ::ₘ H) 2 := hr.free.cons _
  rw [linkTo, wp_bind, nameiparent]
  refine wp_imp (namex_now true hkeep hfree room_of_le hwalk hstart h) ?_
  rintro r s2 ⟨henv2, A2, hs2, ⟨rfl, h2⟩ | ⟨j, m, name, rfl, hmP, h2, hlast⟩⟩
  · refine wp_imp (linkBad_now h2 hs2 hkeep0 htype room_of_le) ?_
    rintro r s3 ⟨henv3, rfl, A3, h3, hs3⟩
    exact ⟨henv2.trans henv3, A3, h3, .inl ⟨rfl, hs3⟩⟩
  · obtain ⟨hdir, hname⟩ := hlast rfl
    obtain ⟨hA2n, hsh⟩ := hs2.around
    have hwalk2 := hwalk.shrunk hs2
    have hmn : m ≠ n := by
      rintro rfl
      rw [hA2n] at hdir
      exact hfile hdir
    simp only [wp_bind]
    refine wp_imp (ilock_now h2 (mem_cons_self _ _) room_of_le
      (by simp)
      (fun h0 => hwalk2.typed.resolve_left (fun ht => ht m hmP h0))) ?_
    rintro - s3 ⟨h3, henv3⟩
    have hlock : (j, m) ∈ ((j, m) ::ₘ 0 : Multiset (ℕ × ℕ)) := mem_cons_self _ _
    have hmem3 : (i, n) ∈ (j, m) ::ₘ (i, n) ::ₘ H := mem_cons_of_mem hmem
    obtain ⟨-, -, hinum, hdevi⟩ := h3.held hmem3
    have hdevj := (h3.held (mem_cons_self _ _)).2.2.2
    rw [wp_bind, wp_get]
    simp only [hdevi, hdevj, ne_eq, not_true_eq_false, if_false, wp_bind, hinum]
    have h3' : Now μ sb p D (insert n (held H)) s3 A2 ((j, m) ::ₘ (i, n) ::ₘ H) ((j, m) ::ₘ 0) {m, n} 0 :=
      h3.mono (by simp) (le_refl 0)
    have hins : insert m ({m, n} : Finset ℕ) = {m, n} := Finset.insert_idem m _
    refine wp_imp (dirlink_now h3' hlock hdir hwalk2.entries (hfree.cons _)
      (by rw [hins]; exact room_pair (by omega) m n) (keeps_cons hkeep)
      (fun hc => (hwalk2.reads hmP hdir hc).1)
      (fun hc => (hwalk2.reads hmP hdir (.inl hc)).2.1)) ?_
    rintro r s4 ⟨henv4, ⟨rfl, h4⟩ | ⟨rfl, hfind, hwhole, h4⟩⟩
    · -- no entry was made
      rw [hins] at h4
      rw [if_neg Bool.false_ne_true]
      refine wp_seq (iunlockput_reap h4 (h4.keep_of hkeep) (by rw [hins]; exact room_pair (by omega) m n))
        ?_
      rintro - s5 ⟨henv5, A5, hr5, h5⟩
      rw [hins] at h5
      have hins2 : insert n ({m, n} : Finset ℕ) = {m, n} := Finset.insert_eq_of_mem (by simp)
      refine wp_imp (linkBad_now h5 (hs2.trans hr5.shrunk) hkeep0 htype
        (by rw [hins2]; exact room_pair (by omega) m n)) ?_
      rintro r s6 ⟨henv6, rfl, A6, h6, hs6⟩
      exact ⟨henv2.trans (henv3.trans (henv4.trans (henv5.trans henv6))), A6, h6, .inl ⟨rfl, hs6⟩⟩
    · rw [hins] at h4
      rw [if_pos rfl]
      refine wp_seq (iunlockput_reap h4 (h4.keep_of hkeep) (by rw [hins]; exact room_pair (by omega) m n))
        ?_
      rintro - s5 ⟨henv5, A5, hr5, h5⟩
      rw [hins] at h5
      have hins2 : insert n ({m, n} : Finset ℕ) = {m, n} := Finset.insert_eq_of_mem (by simp)
      have hv5 := h5.valid_of_mem (Set.mem_insert n _) hmem
      have h5' := h5.valid_mono (Set.subset_insert n (held H))
      refine wp_seq (iput_reap h5' (by simp) hv5
        (h5'.keep_of hkeep0) (by rw [hins2]; exact room_pair (by omega) m n)) ?_
      rintro - s6 ⟨henv6, A6, hr6, h6⟩
      rw [hins2] at h6
      refine wp_seq (endOp_now h6 (room_pair (by omega) m n) subset_rfl
        (fun m hm => hkeep0 m (.inl hm))) ?_
      rintro - s7 ⟨henv7, h7⟩
      rw [wp_pure]
      -- the inodes before the two updates
      have hsame : update A2 n (A1 n) m = A2 m := update_of_ne hmn _ _
      have hself : update A2 n (A1 n) n = A1 n := update_self n _ _
      have hlinked : linked (update A2 n (A1 n)) n m name =
          update A2 m ((A2 m).setEntry (A2 m).vacant (newEntry name n)) := by
        rw [linked, hsame, hself, update_idem, ← hA2n, update_eq_self]
      refine ⟨henv2.trans (henv3.trans (henv4.trans (henv5.trans (henv6.trans henv7)))), A6, h7,
        .inr ⟨rfl, update A2 n (A1 n), m, name, hsh, hmP, ⟨?_, ?_, ?_, ?_, ?_⟩, hname, ?_⟩⟩
      · rwa [hself]
      · rwa [hself]
      · rwa [hsame]
      · rwa [hsame]
      · rwa [hsame]
      · rw [hlinked, Set.insert_eq]
        exact hr5.trans hr6 (fun hc => hmn hc.symm) (by rintro x rfl; exact hmn)

theorem nameiLock_now {path : Path} (hr : Ready μ sb p D s A H P) {s1 : St} (henv : Env s s1)
    (h : Now μ sb p D (held H) s1 A H 0 ∅ 0) :
    wp (namei sb p path) (fun r s' => Env s1 s' ∧ ∃ A', Shrunk H A A' ∧
      ((r = none ∧ Now μ sb p D (held H) s' A' H 0 ∅ 0) ∨
        ∃ i n, r = some i ∧ n ∈ P ∧ Now μ sb p D (held H) s' A' ((i, n) ::ₘ H) 0 ∅ 0 ∧
          ((A' n).type = 0 → μ.stops .noType))) μ.E s1 := by
  have hfree : μ.Free H 2 := hr.free.mono (by omega)
  rw [namei]
  refine wp_seq (namex_now false hr.keeps hfree room_of_le hr.walk
    (hr.starts.congr henv) h) ?_
  rintro r s2 ⟨henv2, A2, hs2, ⟨rfl, h2⟩ | ⟨i, n, name, rfl, hnP, h2, -⟩⟩
  · exact ⟨henv2, A2, hs2, .inl ⟨rfl, h2⟩⟩
  · refine ⟨henv2, A2, hs2, .inr ⟨i, n, rfl, hnP, h2, fun h0 => ?_⟩⟩
    exact (hr.walk.shrunk hs2).typed.resolve_left (fun ht => ht n hnP h0)

theorem dropEnd_now {x : ℤ} (hr : Ready μ sb p D s A H P) {s1 : St}
    (h : Now μ sb p D (held H) s1 A1 ((i, n) ::ₘ H) ((i, n) ::ₘ 0) N w) (hs : Shrunk H A A1)
    (hroom : μ.Room (insert n N) w) :
    wp (do
      iunlockput sb p i
      endOp
      pure x) (fun r s' => Env s1 s' ∧ r = x ∧ ∃ A', Idle μ sb D s' A' H ∧ Shrunk H A A') μ.E s1 := by
  simp only [wp_bind]
  refine wp_imp (iunlockput_reap h (h.keep_of hr.keeps) hroom) ?_
  rintro - s2 ⟨henv2, A2, hr2, h2⟩
  refine wp_seq (endOp_now h2 hroom subset_rfl hr.idle.dirty) ?_
  rintro - s3 ⟨henv3, h3⟩
  rw [wp_pure]
  exact ⟨henv2.trans henv3, rfl, A2, h3, hs.trans hr2.shrunk⟩

theorem sysLink_spec (hr : Ready μ sb p D s A H P) (old new : Option Path) :
    wp (sysLink sb p old new) (fun r s' => Env s s' ∧ ∃ A', Idle μ sb D s' A' H ∧
      ((r = -1 ∧ Shrunk H A A') ∨ (r = 0 ∧ ∃ path A1 n dp name, new = some path ∧ Shrunk H A A1 ∧
        n ∈ P ∧ dp ∈ P ∧ Links A1 n dp name ∧ (elems path.chars).getLast? = some name ∧
        Reaped H {dp, n} (linked A1 n dp name) A'))) μ.E s := by
  have hbad : Env s s ∧ ∃ A', Idle μ sb D s A' H ∧ (((-1 : ℤ) = -1 ∧ Shrunk H A A') ∨
      ((-1 : ℤ) = 0 ∧ ∃ path A1 n dp name, new = some path ∧ Shrunk H A A1 ∧
        n ∈ P ∧ dp ∈ P ∧ Links A1 n dp name ∧ (elems path.chars).getLast? = some name ∧
        Reaped H {dp, n} (linked A1 n dp name) A')) :=
    ⟨Env.refl s, A, hr.idle, .inl ⟨rfl, Shrunk.refl H A⟩⟩
  cases old with
  | none => exact hbad
  | some old =>
    cases new with
    | none => exact hbad
    | some new =>
      rw [sysLink]
      refine wp_seq (beginOp_idle hr.idle p) ?_
      rintro - s1 ⟨henv1, h1⟩
      refine wp_seq (nameiLock_now hr henv1 h1) ?_
      rintro r s2 ⟨henv2, A2, hs2, ⟨rfl, h2⟩ | ⟨i, n, rfl, hnP, h2, hnotype⟩⟩
      · simp only [wp_bind]
        refine wp_imp (endOp_now h2 room_of_le subset_rfl
          hr.idle.dirty) ?_
        rintro - s3 ⟨henv3, h3⟩
        rw [wp_pure]
        exact ⟨henv1.trans (henv2.trans henv3), A2, h3, .inl ⟨rfl, hs2⟩⟩
      · simp only [wp_bind]
        refine wp_imp (ilock_now h2 (mem_cons_self _ _) room_of_le
          (by simp) hnotype) ?_
        rintro - s3 ⟨h3, henv3⟩
        have hlock : (i, n) ∈ ((i, n) ::ₘ 0 : Multiset (ℕ × ℕ)) := mem_cons_self _ _
        obtain ⟨⟨htype, -⟩, hne⟩ := h3.copy hlock
        simp only [copyOf, wp_bind, wp_get, wp_pure, htype]
        by_cases hdir : (A2 n).type = T_DIR
        · rw [if_pos hdir]
          refine wp_imp (dropEnd_now hr h3 hs2 room_of_le) ?_
          rintro r s4 ⟨henv4, rfl, A4, h4, hs4⟩
          exact ⟨henv1.trans (henv2.trans (henv3.trans henv4)), A4, h4, .inl ⟨rfl, hs4⟩⟩
        · rw [if_neg hdir]
          refine wp_seq (setNlink_now h3 hlock room_of_le) ?_
          rintro - s4 ⟨henv4, h4⟩
          refine wp_seq (iunlock_now h4) ?_
          rintro - s5 ⟨h5, henv5⟩
          have henv15 := henv1.trans (henv2.trans (henv3.trans (henv4.trans henv5)))
          refine wp_imp (linkTo_now hr henv15 h5 hs2 hne hdir) ?_
          rintro r s6 ⟨henv6, A6, h6, ⟨rfl, hs6⟩ | ⟨rfl, A7, dp, name, hs7, hdp, hl, hname, hr7⟩⟩
          · exact ⟨henv15.trans henv6, A6, h6, .inl ⟨rfl, hs2.trans hs6⟩⟩
          · exact ⟨henv15.trans henv6, A6, h6, .inr ⟨rfl, new, A7, n, dp, name, rfl, hs2.trans hs7,
              hnP, hdp, hl, hname, hr7⟩⟩

end Link

section Unlink

def noEntry : Dirent := ⟨0, []⟩

/-- The entry `k` of `dp` is cleared, and the inode `n` that it named has one link less. -/
def unlinked (A : ℕ → Node) (dp n k : ℕ) : ℕ → Node :=
  update (update A dp { (A dp).setEntry k noEntry with
    nlink := if (A n).type = T_DIR then (A dp).nlink - 1 else (A dp).nlink })
    n { A n with nlink := (A n).nlink - 1 }

/-- When `sys_unlink` removes the entry `k` of `dp`. -/
structure Unlinks (A : ℕ → Node) (dp n k : ℕ) (name : Name) : Prop where
  dir : (A dp).type = T_DIR
  find : (A dp).find name = some k
  inum : ((A dp).entry k).inum.toNat = n
  notDot : namecmp name dot ≠ 0 ∧ namecmp name dotdot ≠ 0
  type : (A n).type ≠ 0
  nlink : 1 ≤ (A n).nlink.toInt
  empty : (A n).type = T_DIR → (A n).IsEmpty
  ne : dp ≠ n

theorem Reaped.put {X : Set ℕ} {x : Node} (h : Reaped H X A A') (hn : n ∉ X) :
    Reaped H X (update A n x) (update A' n x) := by
  intro m
  by_cases hm : m = n
  · subst hm
    rw [update_self, update_self]
    exact .inr ⟨fun hc => hn hc.1, rfl⟩
  · have ho : Orphan (update A n x) H m ↔ Orphan A H m := by
      unfold Orphan
      rw [update_of_ne hm]
    rw [update_of_ne hm, update_of_ne hm, ho]
    exact h m

theorem noEntry_toByte (j : ℕ) : noEntry.toByte j = 0 := by
  match j with
  | 0 => rfl
  | 1 => rfl
  | j + 2 => rfl

theorem unlinkEntry_now {k : ℕ} (hr : Ready μ sb p D s A H P) {s1 : St}
    (h : Now μ sb p D (held H) s1 A1 ((i, n) ::ₘ (j, m) ::ₘ H) ((i, n) ::ₘ (j, m) ::ₘ 0) ∅ 0) :
    wp (unlinkEntry sb p j i (DESIZE * k)) (fun r s' => Env s1 s' ∧ r = 0 ∧
      ∃ A', Idle μ sb D s' A' H ∧ m ≠ n ∧ Reaped H {m, n} (unlinked A1 m n k) A') μ.E s1 := by
  have hi : (i, n) ∈ ((i, n) ::ₘ (j, m) ::ₘ 0 : Multiset (ℕ × ℕ)) := mem_cons_self _ _
  have hj : (j, m) ∈ ((i, n) ::ₘ (j, m) ::ₘ 0 : Multiset (ℕ × ℕ)) :=
    mem_cons_of_mem (mem_cons_self _ _)
  have hmn : m ≠ n := by
    rintro rfl
    have hij := h.uniq (mem_cons_self _ _) (mem_cons_of_mem (mem_cons_self _ _))
    have hnd := h.nodup
    rw [hij] at hnd
    simp at hnd
  have hone : DESIZE * k % BSIZE + DESIZE ≤ BSIZE := by
    simp only [DESIZE, BSIZE]
    omega
  have h1 : Now μ sb p D (held H) s1 A1 ((i, n) ::ₘ (j, m) ::ₘ H) ((i, n) ::ₘ (j, m) ::ₘ 0) {m, n} 0 :=
    h.mono (Finset.empty_subset _) (le_refl 0)
  have hinsm : insert m ({m, n} : Finset ℕ) = {m, n} := Finset.insert_idem m _
  have hinsn : insert n ({m, n} : Finset ℕ) = {m, n} := Finset.insert_eq_of_mem (by simp)
  have hrm (w : ℕ) (hw : w ≤ 7) : μ.Room (insert m {m, n}) w := by
    rw [hinsm]
    exact room_pair hw m n
  have hrn (w : ℕ) (hw : w ≤ 7) : μ.Room (insert n {m, n}) w := by
    rw [hinsn]
    exact room_pair hw m n
  rw [unlinkEntry]
  refine wp_seq (writei_now h1 hj hone (by decide) (hrm 2 (by omega))) ?_
  rintro r s2 ⟨henv2, ⟨hne, h2⟩ | ⟨hlen, -, h2⟩⟩
  · rw [if_pos hne, wp_throw]
    rw [hinsm] at h2
    exact ⟨hr.excused _ (by simp [excused]), h2.bounded (room_pair (by omega) m n)⟩
  · rw [if_neg (not_not.mpr hlen)]
    have hclear : (A1 m).written (DESIZE * k) DESIZE DESIZE (fun _ => some 0) =
        (A1 m).setEntry k noEntry := by
      unfold Node.setEntry
      simp only [noEntry_toByte]
    rw [hclear, hinsm] at h2
    -- what is left to be done: the link counts, and both pointers
    have htype : (update A1 m ((A1 m).setEntry k noEntry) n).type = (A1 n).type := by
      rw [update_of_ne hmn.symm]
    obtain ⟨⟨hcopy, -⟩, -⟩ := h2.copy hi
    rw [htype] at hcopy
    simp only [copyOf, wp_bind, wp_get, wp_pure]
    have hmid : wp (onlyIf ((s2.itable i).copy.type = T_DIR) (setNlink sb j (fun n => n - 1))) (fun _ s' => Env s2 s' ∧
        Now μ sb p D (held H) s' (update A1 m { (A1 m).setEntry k noEntry with
          nlink := if (A1 n).type = T_DIR then (A1 m).nlink - 1 else (A1 m).nlink })
          ((i, n) ::ₘ (j, m) ::ₘ H) ((i, n) ::ₘ (j, m) ::ₘ 0) {m, n} 2) μ.E s2 := by
      unfold onlyIf
      by_cases hdir : (A1 n).type = T_DIR
      · rw [if_pos (hcopy.trans hdir)]
        refine wp_imp (setNlink_now h2 hj (hrm _ (by omega))) ?_
        rintro - s3 ⟨henv3, h3⟩
        rw [update_idem, update_self, hinsm] at h3
        rw [if_pos hdir]
        exact ⟨henv3, h3⟩
      · rw [if_neg (fun hc => hdir (hcopy.symm.trans hc)), wp_pure, if_neg hdir]
        exact ⟨Env.refl s2, h2⟩
    refine wp_imp hmid ?_
    rintro - s3 ⟨henv3, h3⟩
    rw [cons_swap (i, n) (j, m) H, cons_swap (i, n) (j, m) 0] at h3
    refine wp_seq (iunlockput_reap h3 (h3.keep_of (keeps_cons hr.keeps)) (hrm _ (by omega))) ?_
    rintro - s4 ⟨henv4, A4, hr4, h4⟩
    rw [hinsm] at h4
    refine wp_seq (setNlink_now h4 (mem_cons_self _ _) (hrn _ (by omega))) ?_
    rintro - s5 ⟨henv5, h5⟩
    rw [hinsn] at h5
    refine wp_seq (iunlockput_reap h5 (h5.keep_of hr.keeps) (hrn _ (by omega))) ?_
    rintro - s6 ⟨henv6, A6, hr6, h6⟩
    rw [hinsn] at h6
    refine wp_seq (endOp_now h6 (room_pair (by omega) m n) subset_rfl hr.idle.dirty) ?_
    rintro - s7 ⟨henv7, h7⟩
    refine ⟨henv2.trans (henv3.trans (henv4.trans (henv5.trans (henv6.trans henv7)))), rfl, A6, h7, hmn, ?_⟩
    have hA4n : A4 n = A1 n := by
      rcases hr4 n with h1 | h1
      · exact absurd h1.1.symm hmn
      · rw [h1.2, update_of_ne hmn.symm]
    rw [hA4n] at hr6
    rw [Set.insert_eq]
    exact (hr4.put (fun hc => hmn hc.symm)).trans hr6 (fun hc => hmn hc.symm)
      (by rintro x rfl; exact hmn)

theorem sysUnlink_spec (hr : Ready μ sb p D s A H P) (path : Option Path) :
    wp (sysUnlink sb p path) (fun r s' => Env s s' ∧ ∃ A', Idle μ sb D s' A' H ∧
      ((r = -1 ∧ Shrunk H A A') ∨ (r = 0 ∧ ∃ path' A1 dp n k name, path = some path' ∧ Shrunk H A A1 ∧
        dp ∈ P ∧ n ∈ P ∧ Unlinks A1 dp n k name ∧ (elems path'.chars).getLast? = some name ∧
        Reaped H {dp, n} (unlinked A1 dp n k) A'))) μ.E s := by
  cases path with
  | none => exact ⟨Env.refl s, A, hr.idle, .inl ⟨rfl, Shrunk.refl H A⟩⟩
  | some path =>
    have hroom0 : μ.Room ∅ 0 := room_of_le
    rw [sysUnlink]
    refine wp_seq (beginOp_idle hr.idle p) ?_
    rintro - s1 ⟨henv1, h1⟩
    rw [wp_bind, nameiparent]
    refine wp_imp (namex_now true hr.keeps (hr.free.mono (by omega)) hroom0 hr.walk
      (hr.starts.congr henv1) h1) ?_
    rintro r s2 ⟨henv2, A2, hs2, ⟨rfl, h2⟩ | ⟨j, m, name, rfl, hmP, h2, hlast⟩⟩
    · simp only [wp_bind]
      refine wp_imp (endOp_now h2 hroom0 subset_rfl hr.idle.dirty) ?_
      rintro - s3 ⟨henv3, h3⟩
      rw [wp_pure]
      exact ⟨henv1.trans (henv2.trans henv3), A2, h3, .inl ⟨rfl, hs2⟩⟩
    · obtain ⟨hdir, hname⟩ := hlast rfl
      have hwalk2 := hr.walk.shrunk hs2
      have hbad {s' : St} (henv' : Env s s')
          (h' : Now μ sb p D (held H) s' A2 ((j, m) ::ₘ H) ((j, m) ::ₘ 0) ∅ 0) :
          wp (unlinkBad sb p j) (fun r s' => Env s s' ∧ ∃ A', Idle μ sb D s' A' H ∧
            ((r = -1 ∧ Shrunk H A A') ∨ (r = 0 ∧ ∃ path' A1 dp n k name, some path = some path' ∧
              Shrunk H A A1 ∧ dp ∈ P ∧ n ∈ P ∧ Unlinks A1 dp n k name ∧
              (elems path'.chars).getLast? = some name ∧
              Reaped H {dp, n} (unlinked A1 dp n k) A'))) μ.E s' := by
        refine wp_imp (dropEnd_now hr h' hs2 room_of_le) ?_
        rintro r s4 ⟨henv4, rfl, A4, h4, hs4⟩
        exact ⟨henv'.trans henv4, A4, h4, .inl ⟨rfl, hs4⟩⟩
      simp only [wp_bind]
      refine wp_imp (ilock_now h2 (mem_cons_self _ _) hroom0
        (by simp)
        (fun h0 => hwalk2.typed.resolve_left (fun ht => ht m hmP h0))) ?_
      rintro - s3 ⟨h3, henv3⟩
      have henv13 := henv1.trans (henv2.trans henv3)
      by_cases hdots : namecmp name dot = 0 ∨ namecmp name dotdot = 0
      · rw [if_pos hdots]
        exact hbad henv13 h3
      · rw [if_neg hdots, wp_bind]
        have hlock : (j, m) ∈ ((j, m) ::ₘ 0 : Multiset (ℕ × ℕ)) := mem_cons_self _ _
        have hfree1 : μ.Free ((j, m) ::ₘ H) 1 := by
          refine Mode.Free.cons (hr.free.mono (by omega)) _
        refine wp_imp (dirlookup_now h3 hlock hdir hwalk2.entries hfree1 hroom0
          (fun hc => (hwalk2.reads hmP hdir hc).1)) ?_
        rintro r s4 ⟨henv4, ⟨rfl, -, -, h4⟩ | ⟨k, i, rfl, hfind, h4, -⟩⟩
        · exact hbad (henv13.trans henv4) h4
        · obtain ⟨hk, hnamed⟩ := Node.find_some hfind
          have hnP : ((A2 m).entry k).inum.toNat ∈ P := hwalk2.closed m hmP hdir k hk hnamed.1
          set n := ((A2 m).entry k).inum.toNat with hn
          simp only [wp_bind]
          refine wp_imp (ilock_now h4 (mem_cons_self _ _) hroom0
            (fun _ => hr.excused _ (by simp [excused]))
            (fun h0 => hwalk2.typed.resolve_left (fun ht => ht n hnP h0))) ?_
          rintro - s5 ⟨h5, henv5⟩
          have hlock5 : (i, n) ∈ ((i, n) ::ₘ (j, m) ::ₘ 0 : Multiset (ℕ × ℕ)) := mem_cons_self _ _
          obtain ⟨⟨htype, -, -, hnlink, -⟩, hne⟩ := h5.copy hlock5
          simp only [copyOf, wp_bind, wp_get, wp_pure, hnlink]
          by_cases hlt : (A2 n).nlink.toInt < 1
          · rw [if_pos hlt, wp_throw]
            exact ⟨hr.excused _ (by simp [excused]), h5.bounded hroom0⟩
          · rw [if_neg hlt, wp_bind]
            -- whether it is a directory with entries
            have hbusy : wp (busyDir sb i) (fun r s' => Env s5 s' ∧
                Now μ sb p D (held H) s' A2 ((i, n) ::ₘ (j, m) ::ₘ H) ((i, n) ::ₘ (j, m) ::ₘ 0) ∅ 0 ∧
                (r = false → (A2 n).type = T_DIR → (A2 n).IsEmpty)) μ.E s5 := by
              simp only [busyDir, copyOf, wp_bind, wp_get, wp_pure, htype]
              by_cases hd : (A2 n).type = T_DIR
              · rw [if_pos hd]
                refine wp_seq (isdirempty_now h5 hlock5 hroom0
                  (fun hc => (hwalk2.reads hnP hd hc).2.2)) ?_
                rintro r s6 ⟨henv6, h6, hiff⟩
                rw [wp_pure]
                refine ⟨henv6, h6, fun hr' _ => hiff.mp ?_⟩
                cases r with
                | true => rfl
                | false => cases hr'
              · rw [if_neg hd, wp_pure]
                exact ⟨Env.refl s5, h5, fun _ hc => absurd hc hd⟩
            refine wp_imp hbusy ?_
            rintro r s6 ⟨henv6, h6, hempty⟩
            have henv16 := henv13.trans (henv4.trans (henv5.trans henv6))
            cases r with
            | true =>
              rw [if_pos rfl]
              refine wp_seq (hwalk2.drop (fun x hx => mem_cons_of_mem hx) h6
                (h6.keep_of (keeps_cons hr.keeps))) ?_
              rintro - s7 ⟨henv7, A7, hs7, h7⟩
              refine wp_imp (dropEnd_now hr h7 (hs2.trans hs7) room_of_le) ?_
              rintro r s8 ⟨henv8, rfl, A8, h8, hs8⟩
              exact ⟨henv16.trans (henv7.trans henv8), A8, h8, .inl ⟨rfl, hs8⟩⟩
            | false =>
              rw [if_neg Bool.false_ne_true]
              refine wp_imp (unlinkEntry_now hr h6) ?_
              rintro r s7 ⟨henv7, rfl, A7, h7, hmn, hr7⟩
              rw [not_or] at hdots
              exact ⟨henv16.trans henv7, A7, h7, .inr ⟨rfl, path, A2, m, n, k, name, rfl, hs2, hmP, hnP,
                ⟨hdir, hfind, rfl, hdots, hne, by omega, hempty rfl, hmn⟩, hname, hr7⟩⟩

end Unlink

end Xv6.Fs
