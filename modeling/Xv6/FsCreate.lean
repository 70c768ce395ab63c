import Xv6.FsLink

/-! `create`, `sys_mkdir`, `sys_mknod` and `sys_open` (kernel/sysfile.c): what they do to the
inodes. -/
namespace Xv6.Fs

variable {μ : Mode} {sb : Superblock} {p : ℕ} {D V P : Set ℕ} {s s1 : St} {A A' A1 : ℕ → Node}
  {H K : Multiset (ℕ × ℕ)} {N : Finset ℕ} {w i j n m : ℕ} {type major minor : BitVec 16}

section Create

def freshNode (type major minor : BitVec 16) : Node := ⟨type, major, minor, 1, 0, fun _ => 0⟩

/-- A new directory `n` with the entry `.`. -/
def dotNode (major minor : BitVec 16) (n : ℕ) : Node :=
  (freshNode T_DIR major minor).setEntry (freshNode T_DIR major minor).vacant (newEntry dot n)

def newNode (type major minor : BitVec 16) (n dp : ℕ) : Node :=
  if type = T_DIR then
    (dotNode major minor n).setEntry (dotNode major minor n).vacant (newEntry dotdot dp)
  else freshNode type major minor

/-- The new inode `n`, and the entry for it in the directory `dp`. -/
def created (A : ℕ → Node) (n dp : ℕ) (name : Name) (type major minor : BitVec 16) : ℕ → Node :=
  update (update A n (newNode type major minor n dp)) dp
    { (A dp).setEntry (A dp).vacant (newEntry name n) with
      nlink := if type = T_DIR then (A dp).nlink + 1 else (A dp).nlink }

/-- When `create` makes an inode. -/
structure Creates (sb : Superblock) (A : ℕ → Node) (n dp : ℕ) (name : Name) : Prop where
  ne : n ≠ 0
  lt : n < sb.ninodes
  unused : A n = .free
  dir : (A dp).type = T_DIR
  fresh : (A dp).find name = none
  whole : DESIZE ∣ (A dp).size

theorem newNode_type (type major minor : BitVec 16) (n dp : ℕ) :
    (newNode type major minor n dp).type = type := by
  unfold newNode
  split_ifs with h
  · rw [h]
    rfl
  · rfl

theorem freshNode_count : (freshNode type major minor).count = 0 := Nat.zero_div DESIZE

theorem dotNode_entries (hn : n < sb.ninodes) :
    ∀ k < (dotNode major minor n).count, ((dotNode major minor n).entry k).inum.toNat < sb.ninodes := by
  refine Node.within_setEntry (fun k hk => ?_) (Node.vacant_le _) (newEntry_inum_lt hn)
  rw [freshNode_count] at hk
  exact absurd hk (Nat.not_lt_zero k)

theorem newNode_entries (hn : n < sb.ninodes) (hm : m < sb.ninodes) :
    ∀ k < (newNode T_DIR major minor n m).count,
      ((newNode T_DIR major minor n m).entry k).inum.toNat < sb.ninodes := by
  rw [newNode, if_pos rfl]
  exact Node.within_setEntry (dotNode_entries hn) (Node.vacant_le _) (newEntry_inum_lt hm)

theorem Ready.type_of_held (hr : Ready μ sb p D s A H P) (hs : Shrunk H A A1) (hn : n ∈ held H) :
    (A1 n).type ≠ 0 := by
  obtain ⟨i, hi⟩ := hn
  have hA : A1 n = A n := by
    rcases hs n with h1 | ⟨h1, -⟩
    · exact h1
    · exact absurd hi (h1.2.2 i)
  obtain ⟨L, hok, rfl⟩ := hr.idle.ok
  have hv := hr.idle.valid i n hi
  rw [hA, nodes_type n ((hok p).held i n hi).2.1]
  exact ((hok p).copy i n hi hv).2

theorem createFail_now {y : Node} (hr : Ready μ sb p D s A H P) (hs : Shrunk H A A1)
    (h : Now μ sb p D (held H) s1 (update A1 n y) ((i, n) ::ₘ (j, m) ::ₘ H)
      ((i, n) ::ₘ (j, m) ::ₘ 0) {m, n} w)
    (hfree : A1 n = .free) (hmn : m ≠ n) (hw : w ≤ 7) :
    wp (createFail sb p j i) (fun r s' => Env s1 s' ∧ r = none ∧
      ∃ A', Shrunk H A A' ∧ Now μ sb p D (held H) s' A' H 0 {m, n} w) μ.E s1 := by
  have hi : (i, n) ∈ ((i, n) ::ₘ (j, m) ::ₘ 0 : Multiset (ℕ × ℕ)) := mem_cons_self _ _
  have hinsm : insert m ({m, n} : Finset ℕ) = {m, n} := Finset.insert_idem m _
  have hinsn : insert n ({m, n} : Finset ℕ) = {m, n} := Finset.insert_eq_of_mem (by simp)
  have hroom : μ.Room {m, n} w := room_pair hw m n
  have hnH : ∀ k, (k, n) ∉ (j, m) ::ₘ H := by
    intro k hk
    rcases Multiset.mem_cons.mp hk with heq | hk
    · exact hmn (Prod.mk.inj heq).2.symm
    · refine hr.type_of_held hs ⟨k, hk⟩ ?_
      rw [hfree]
      rfl
  obtain ⟨-, hy⟩ := h.copy hi
  rw [update_self] at hy
  rw [createFail]
  refine wp_seq (setNlink_now h hi (by rwa [hinsn])) ?_
  rintro - s2 ⟨henv2, h2⟩
  rw [update_idem, update_self, hinsn] at h2
  refine wp_seq (iunlockput_reap h2 (h2.keep_of (keeps_cons hr.keeps)) (by rwa [hinsn])) ?_
  rintro - s3 ⟨henv3, A3, hr3, h3⟩
  -- nobody has seen the new inode
  have hA3 : A3 = A1 := by
    funext k
    by_cases hk : k = n
    · have horphan : Orphan (update A1 n { y with nlink := 0 }) ((j, m) ::ₘ H) n := by
        refine ⟨?_, ?_, hnH⟩
        · rw [update_self]
          exact hy
        · rw [update_self]
      rcases hr3 k with h4 | h4
      · rw [h4.2.2, hk, hfree]
      · exact absurd ⟨hk, hk ▸ horphan⟩ h4.1
    · rcases hr3 k with h4 | h4
      · exact absurd h4.1 hk
      · rw [h4.2, update_of_ne hk]
  rw [hA3, hinsn] at h3
  refine wp_seq (iunlockput_reap h3 (h3.keep_of hr.keeps) (by rwa [hinsm])) ?_
  rintro - s4 ⟨henv4, A4, hr4, h4⟩
  rw [hinsm] at h4
  rw [wp_pure]
  exact ⟨henv2.trans (henv3.trans henv4), rfl, A4, hs.trans hr4.shrunk, h4⟩

theorem Walk.reads_new (h : Walk μ sb A H P) {x : Node} (hx : DESIZE ∣ x.size)
    (hc : n ∈ μ.holey ∨ ¬ DESIZE ∣ x.size) : μ.ShortReads := by
  refine h.whole.resolve_left (fun hw => ?_)
  rcases hc with hc | hc
  · rw [hw.1] at hc
    exact hc
  · exact hc hx

theorem createDots_now (type major minor : BitVec 16) (hr : Ready μ sb p D s A H P) (hs : Shrunk H A A1)
    (h : Now μ sb p D (held H) s1 (update A1 n (freshNode type major minor))
      ((i, n) ::ₘ (j, m) ::ₘ H) ((i, n) ::ₘ (j, m) ::ₘ 0) {m, n} 0) :
    wp (createDots sb p j i type) (fun r s' => Env s1 s' ∧
      ((r = false ∧ ∃ y, Now μ sb p D (held H) s' (update A1 n y) ((i, n) ::ₘ (j, m) ::ₘ H)
          ((i, n) ::ₘ (j, m) ::ₘ 0) {m, n} 4) ∨
        (r = true ∧ Now μ sb p D (held H) s' (update A1 n (newNode type major minor n m))
          ((i, n) ::ₘ (j, m) ::ₘ H) ((i, n) ::ₘ (j, m) ::ₘ 0) {m, n} 4))) μ.E s1 := by
  have hi : (i, n) ∈ ((i, n) ::ₘ (j, m) ::ₘ 0 : Multiset (ℕ × ℕ)) := mem_cons_self _ _
  have hinsn : insert n ({m, n} : Finset ℕ) = {m, n} := Finset.insert_eq_of_mem (by simp)
  have hwalk := hr.walk.shrunk hs
  have hfree : μ.Free ((i, n) ::ₘ (j, m) ::ₘ H) 1 := (hr.free.cons _).cons _
  have hinumn := (h.held (mem_cons_self _ _)).2.2.1
  have hnlt := (h.held (mem_cons_self _ _)).2.1
  unfold createDots
  by_cases hdir : type = T_DIR
  · subst hdir
    have hself : update A1 n (freshNode T_DIR major minor) n = freshNode T_DIR major minor :=
      update_self n _ A1
    have hent : Entries sb (update A1 n (freshNode T_DIR major minor)) :=
      hwalk.entries.set (fun _ k hk => by
        rw [freshNode_count] at hk
        exact absurd hk (Nat.not_lt_zero k))
    have hdvd : DESIZE ∣ (freshNode T_DIR major minor).size := dvd_zero _
    rw [if_pos rfl, wp_bind, wp_get, hinumn]
    refine wp_seq (dirlink_now h hi (by rw [hself]; rfl) hent hfree
      (by rw [hinsn]; exact room_pair (by omega) m n) (keeps_cons (keeps_cons hr.keeps))
      (fun hc => (hwalk.reads_new hdvd (by rwa [hself] at hc)).1)
      (fun hc => (hwalk.reads_new hdvd (.inl hc)).2.1)) ?_
    rintro r s2 ⟨henv2, ⟨rfl, h2⟩ | ⟨rfl, -, -, h2⟩⟩
    · rw [if_neg Bool.false_ne_true, wp_pure]
      rw [hinsn] at h2
      exact ⟨henv2, .inl ⟨rfl, _, h2.mono subset_rfl (by omega)⟩⟩
    · rw [hself, update_idem, hinsn] at h2
      change Now μ sb p D (held H) s2 (update A1 n (dotNode major minor n)) _ _ _ _ at h2
      have hinumm := (h2.held (mem_cons_of_mem (mem_cons_self _ _))).2.2.1
      rw [if_pos rfl, wp_bind, wp_get, hinumm]
      have hself2 : update A1 n (dotNode major minor n) n = dotNode major minor n :=
        update_self n _ A1
      have hent2 : Entries sb (update A1 n (dotNode major minor n)) :=
        hwalk.entries.set (fun _ => dotNode_entries hnlt)
      have hdvd2 : DESIZE ∣ (dotNode major minor n).size := Node.dvd_setEntry hdvd _ _
      refine wp_imp (dirlink_now h2 hi (by rw [hself2]; rfl) hent2 hfree
        (by rw [hinsn]; exact room_pair (by omega) m n) (keeps_cons (keeps_cons hr.keeps))
        (fun hc => (hwalk.reads_new hdvd2 (by rwa [hself2] at hc)).1)
        (fun hc => (hwalk.reads_new hdvd2 (.inl hc)).2.1)) ?_
      rintro r s3 ⟨henv3, ⟨rfl, h3⟩ | ⟨rfl, -, -, h3⟩⟩
      · rw [hinsn] at h3
        exact ⟨henv2.trans henv3, .inl ⟨rfl, _, h3⟩⟩
      · rw [hself2, update_idem, hinsn] at h3
        refine ⟨henv2.trans henv3, .inr ⟨rfl, ?_⟩⟩
        rwa [newNode, if_pos rfl]
  · rw [if_neg hdir, wp_pure, newNode, if_neg hdir]
    exact ⟨Env.refl s1, .inr ⟨rfl, h.mono subset_rfl (by omega)⟩⟩

theorem createNew_now {name : Name} (hr : Ready μ sb p D s A H P) (hs : Shrunk H A A1)
    (h : Now μ sb p D (held H) s1 A1 ((j, m) ::ₘ H) ((j, m) ::ₘ 0) ∅ 0) (hm : m ∈ P)
    (hdir : (A1 m).type = T_DIR) (htype : type ≠ 0) :
    wp (createNew sb p j name type major minor) (fun r s' => Env s1 s' ∧
      ((r = none ∧ ∃ A' N w, Shrunk H A A' ∧ Now μ sb p D (held H) s' A' H 0 N w ∧ μ.Room N w) ∨
        ∃ A' i n, r = some i ∧ Creates sb A1 n m name ∧
          Reaped ((i, n) ::ₘ H) {m} (created A1 n m name type major minor) A' ∧
          Now μ sb p D (held H) s' A' ((i, n) ::ₘ H) ((i, n) ::ₘ 0) {m, n} 6)) μ.E s1 := by
  have hwalk := hr.walk.shrunk hs
  have hdev := (h.held (mem_cons_self _ _)).2.2.2
  have hfree : μ.Free ((j, m) ::ₘ H) 1 := (hr.free.cons (j, m)).mono (by omega)
  rw [createNew, wp_bind, wp_get, hdev]
  refine wp_seq (ialloc_now h htype hfree (fun n => room_of_le)) ?_
  rintro r s2 (⟨rfl, rfl⟩ | ⟨i, n, rfl, hn0, hnlt, hnt, henv2, h2⟩)
  · simp only [wp_bind]
    refine wp_imp (iunlockput_reap h (h.keep_of hr.keeps) room_of_le) ?_
    rintro - s3 ⟨henv3, A3, hr3, h3⟩
    rw [wp_pure]
    exact ⟨henv3, .inl ⟨rfl, A3, _, _, hs.trans hr3.shrunk, h3, room_of_le⟩⟩
  · have hmn : m ≠ n := by
      rintro rfl
      rw [hdir] at hnt
      exact absurd hnt (by decide)
    have hfree1 : A1 n = .free := h.free_of_type hnt
    simp only [wp_bind]
    refine wp_imp (ilock_now h2 (mem_cons_self _ _) room_of_le
      (fun hK => ?_) (fun h0 => ?_)) ?_
    · rw [Multiset.map_cons, Multiset.map_zero, Multiset.mem_cons] at hK
      have hij : i = j := hK.resolve_right (notMem_zero _)
      subst hij
      exact absurd (h2.inum_unique (mem_cons_self _ _)
        (mem_cons_of_mem (mem_cons_self _ _))) hmn.symm
    · rw [update_self] at h0
      exact absurd h0 htype
    rintro - s3 ⟨h3, henv3⟩
    have hi : (i, n) ∈ ((i, n) ::ₘ (j, m) ::ₘ 0 : Multiset (ℕ × ℕ)) := mem_cons_self _ _
    have hj : (j, m) ∈ ((i, n) ::ₘ (j, m) ::ₘ 0 : Multiset (ℕ × ℕ)) :=
      mem_cons_of_mem (mem_cons_self _ _)
    have hinsm : insert m ({m, n} : Finset ℕ) = {m, n} := Finset.insert_idem m _
    have hinsn : insert n ({m, n} : Finset ℕ) = {m, n} := Finset.insert_eq_of_mem (by simp)
    have h3' := h3.mono (M := {m, n}) (v := 0) (by simp) (le_refl 0)
    simp only [wp_bind, wp_modify]
    refine wp_imp (iupdate_now (d := { (s3.itable i).copy with major := major, minor := minor, nlink := 1 })
      h3' hi ⟨rfl, rfl, rfl⟩ (by rw [hinsn]; exact room_pair (by omega) m n)) ?_
    rintro - s4 ⟨henv4, h4⟩
    rw [update_self, update_idem, hinsn] at h4
    have henv14 := henv2.trans (henv3.trans henv4)
    refine wp_seq (createDots_now type major minor hr hs h4) ?_
    have hfail {s' : St} {y : Node} {v : ℕ} (hv : v ≤ 7) (henv' : Env s1 s')
        (h' : Now μ sb p D (held H) s' (update A1 n y) ((i, n) ::ₘ (j, m) ::ₘ H)
          ((i, n) ::ₘ (j, m) ::ₘ 0) {m, n} v) :
        wp (createFail sb p j i) (fun r s' => Env s1 s' ∧
          ((r = none ∧ ∃ A' N w, Shrunk H A A' ∧ Now μ sb p D (held H) s' A' H 0 N w ∧ μ.Room N w) ∨
            ∃ A' i n, r = some i ∧ Creates sb A1 n m name ∧
              Reaped ((i, n) ::ₘ H) {m} (created A1 n m name type major minor) A' ∧
              Now μ sb p D (held H) s' A' ((i, n) ::ₘ H) ((i, n) ::ₘ 0) {m, n} 6)) μ.E s' := by
      refine wp_imp (createFail_now hr hs h' hfree1 hmn hv) ?_
      rintro r s6 ⟨henv6, rfl, A6, hs6, h6⟩
      exact ⟨henv'.trans henv6, .inl ⟨rfl, A6, _, _, hs6, h6, room_pair hv m n⟩⟩
    rintro r s5 ⟨henv5, ⟨rfl, y, h5⟩ | ⟨rfl, h5⟩⟩
    · rw [if_neg Bool.false_ne_true]
      exact hfail (by omega) (henv14.trans henv5) h5
    · have hinum5 := (h5.held (mem_cons_self _ _)).2.2.1
      have hm5 : update A1 n (newNode type major minor n m) m = A1 m :=
        update_of_ne hmn _ _
      have hent5 : Entries sb (update A1 n (newNode type major minor n m)) := by
        refine hwalk.entries.set (fun ht => ?_)
        rw [newNode_type] at ht
        rw [ht]
        exact newNode_entries hnlt (h5.held (mem_cons_of_mem (mem_cons_self _ _))).2.1
      rw [if_pos rfl, wp_bind, wp_get, hinum5]
      refine wp_seq (dirlink_now h5 hj (by rw [hm5, hdir]) hent5 ((hr.free.cons _).cons _)
        (by rw [hinsm]; exact room_pair (by omega) m n) (keeps_cons (keeps_cons hr.keeps))
        (fun hc => (hwalk.reads hm hdir (by rwa [hm5] at hc)).1)
        (fun hc => (hwalk.reads hm hdir (.inl hc)).2.1)) ?_
      rintro r s6 ⟨henv6, ⟨rfl, h6⟩ | ⟨rfl, hfind, hwhole, h6⟩⟩
      · rw [if_neg Bool.false_ne_true]
        rw [hinsm] at h6
        exact hfail (by omega) (henv14.trans (henv5.trans henv6)) h6
      · rw [hm5] at hfind hwhole h6
        rw [hinsm] at h6
        rw [if_pos rfl, wp_bind]
        have hmid : wp (onlyIf (type = T_DIR) (setNlink sb j (fun n => n + 1))) (fun _ s' => Env s6 s' ∧
            Now μ sb p D (held H) s' (created A1 n m name type major minor)
              ((i, n) ::ₘ (j, m) ::ₘ H) ((i, n) ::ₘ (j, m) ::ₘ 0) {m, n} 6) μ.E s6 := by
          unfold onlyIf created
          by_cases hd : type = T_DIR
          · rw [if_pos hd, if_pos hd]
            refine wp_imp (setNlink_now h6 hj (by rw [hinsm]; exact room_pair (by omega) m n)) ?_
            rintro - s7 ⟨henv7, h7⟩
            rw [update_idem, update_self, hinsm] at h7
            exact ⟨henv7, h7⟩
          · rw [if_neg hd, wp_pure, if_neg hd]
            exact ⟨Env.refl s6, h6⟩
        refine wp_imp hmid ?_
        rintro - s7 ⟨henv7, h7⟩
        rw [cons_swap (i, n) (j, m) H, cons_swap (i, n) (j, m) 0] at h7
        refine wp_seq (iunlockput_reap h7 (h7.keep_of (keeps_cons hr.keeps))
          (by rw [hinsm]; exact room_pair (by omega) m n)) ?_
        rintro - s8 ⟨henv8, A8, hr8, h8⟩
        rw [hinsm] at h8
        rw [wp_pure]
        exact ⟨henv14.trans (henv5.trans (henv6.trans (henv7.trans henv8))), .inr ⟨A8, i, n, rfl,
          ⟨hn0, hnlt, hfree1, hdir, hfind, hwhole⟩, hr8, h8⟩⟩

/-- What `create` leaves when it returns an inode: it was there, or it is new. -/
def Opened (μ : Mode) (sb : Superblock) (p : ℕ) (D P : Set ℕ) (A : ℕ → Node) (H : Multiset (ℕ × ℕ))
    (path : Path) (type major minor : BitVec 16) (i n : ℕ) (s' : St) : Prop :=
  (∃ A', Shrunk H A A' ∧ n ∈ P ∧ Now μ sb p D (held H) s' A' ((i, n) ::ₘ H) ((i, n) ::ₘ 0) ∅ 0 ∧
      type = T_FILE ∧ ((A' n).type = T_FILE ∨ (A' n).type = T_DEVICE)) ∨
    ∃ A1 A' dp name, Shrunk H A A1 ∧ dp ∈ P ∧ Creates sb A1 n dp name ∧
      (elems path.chars).getLast? = some name ∧
      Reaped ((i, n) ::ₘ H) {dp} (created A1 n dp name type major minor) A' ∧
      Now μ sb p D (held H) s' A' ((i, n) ::ₘ H) ((i, n) ::ₘ 0) {dp, n} 6

theorem create_now {path : Path} (hr : Ready μ sb p D s A H P) (henv : Env s s1)
    (h : Now μ sb p D (held H) s1 A H 0 ∅ 0) (htype : type ≠ 0) :
    wp (create sb p path type major minor) (fun r s' => Env s1 s' ∧
      ((r = none ∧ ∃ A' N w, Shrunk H A A' ∧ Now μ sb p D (held H) s' A' H 0 N w ∧ μ.Room N w) ∨
        ∃ i n, r = some i ∧ Opened μ sb p D P A H path type major minor i n s')) μ.E s1 := by
  have hroom0 : μ.Room ∅ 0 := room_of_le
  rw [create, wp_bind, nameiparent]
  refine wp_imp (namex_now true hr.keeps (hr.free.mono (by omega)) hroom0 hr.walk
    (hr.starts.congr henv) h) ?_
  rintro r s2 ⟨henv2, A2, hs2, ⟨rfl, h2⟩ | ⟨j, m, name, rfl, hmP, h2, hlast⟩⟩
  · exact ⟨henv2, .inl ⟨rfl, A2, _, _, hs2, h2, hroom0⟩⟩
  · obtain ⟨hdir, hname⟩ := hlast rfl
    have hwalk2 := hr.walk.shrunk hs2
    simp only [wp_bind]
    refine wp_imp (ilock_now h2 (mem_cons_self _ _) hroom0
      (by simp)
      (fun h0 => hwalk2.typed.resolve_left (fun ht => ht m hmP h0))) ?_
    rintro - s3 ⟨h3, henv3⟩
    have hlock : (j, m) ∈ ((j, m) ::ₘ 0 : Multiset (ℕ × ℕ)) := mem_cons_self _ _
    have hfree1 : μ.Free ((j, m) ::ₘ H) 1 := (hr.free.cons (j, m)).mono (by omega)
    refine wp_seq (dirlookup_now h3 hlock hdir hwalk2.entries hfree1 hroom0
      (fun hc => (hwalk2.reads hmP hdir hc).1)) ?_
    rintro r s4 ⟨henv4, ⟨rfl, -, -, h4⟩ | ⟨k, i, rfl, hfind, h4, -⟩⟩
    · refine wp_imp (createNew_now hr hs2 h4 hmP hdir htype) ?_
      rintro r s5 ⟨henv5, hr5 | ⟨A5, i, n, rfl, hc, hr5, h5⟩⟩
      · exact ⟨henv2.trans (henv3.trans (henv4.trans henv5)), .inl hr5⟩
      · exact ⟨henv2.trans (henv3.trans (henv4.trans henv5)), .inr ⟨i, n, rfl, .inr ⟨A2, A5, m, name,
          hs2, hmP, hc, hname, hr5, h5⟩⟩⟩
    · -- the name exists
      obtain ⟨hk, hnamed⟩ := Node.find_some hfind
      have hnP : ((A2 m).entry k).inum.toNat ∈ P := hwalk2.closed m hmP hdir k hk hnamed.1
      set n := ((A2 m).entry k).inum.toNat with hn
      rw [cons_swap] at h4
      simp only [wp_bind]
      refine wp_imp (hwalk2.drop (fun x hx => mem_cons_of_mem hx) h4
        (h4.keep_of (keeps_cons hr.keeps))) ?_
      rintro - s5 ⟨henv5, A5, hs5, h5⟩
      have hwalk5 := hwalk2.shrunk hs5
      refine wp_seq (ilock_now h5 (mem_cons_self _ _) hroom0
        (by simp)
        (fun h0 => hwalk5.typed.resolve_left (fun ht => ht n hnP h0))) ?_
      rintro - s6 ⟨h6, henv6⟩
      have henv16 := henv2.trans (henv3.trans (henv4.trans (henv5.trans henv6)))
      obtain ⟨⟨htyp, -⟩, -⟩ := h6.copy (mem_cons_self (i, n) 0)
      simp only [copyOf, wp_bind, wp_get, wp_pure, htyp]
      by_cases hok : type = T_FILE ∧ ((A5 n).type = T_FILE ∨ (A5 n).type = T_DEVICE)
      · rw [if_pos hok, wp_pure]
        exact ⟨henv16, .inr ⟨i, n, rfl, .inl ⟨A5, hs2.trans hs5, hnP, h6, hok⟩⟩⟩
      · rw [if_neg hok]
        refine wp_seq (hwalk5.drop (fun x hx => hx) h6 (h6.keep_of hr.keeps)) ?_
        rintro - s7 ⟨henv7, A7, hs7, h7⟩
        rw [wp_pure]
        exact ⟨henv16.trans henv7, .inl ⟨rfl, A7, _, _, hs2.trans (hs5.trans hs7), h7, hroom0⟩⟩

theorem sysCreate_spec (hr : Ready μ sb p D s A H P) (path : Option Path) (htype : type ≠ 0)
    (hfile : type ≠ T_FILE) :
    wp (sysCreate sb p path type major minor) (fun r s' => Env s s' ∧ ∃ A', Idle μ sb D s' A' H ∧
      ((r = -1 ∧ Shrunk H A A') ∨ (r = 0 ∧ ∃ path' A1 n dp name, path = some path' ∧ Shrunk H A A1 ∧
        dp ∈ P ∧ Creates sb A1 n dp name ∧ (elems path'.chars).getLast? = some name ∧
        Reaped H {dp, n} (created A1 n dp name type major minor) A'))) μ.E s := by
  have hroom0 : μ.Room ∅ 0 := room_of_le
  unfold sysCreate
  refine wp_seq (beginOp_idle hr.idle p) ?_
  rintro - s1 ⟨henv1, h1⟩
  cases path with
  | none =>
    simp only [wp_bind]
    refine wp_imp (endOp_now h1 hroom0 subset_rfl hr.idle.dirty) ?_
    rintro - s2 ⟨henv2, h2⟩
    rw [wp_pure]
    exact ⟨henv1.trans henv2, A, h2, .inl ⟨rfl, Shrunk.refl H A⟩⟩
  | some path =>
    refine wp_seq (create_now hr henv1 h1 htype) ?_
    rintro r s2 ⟨henv2, ⟨rfl, A2, N2, w2, hs2, h2, hroom2⟩ | ⟨i, n, rfl, ho⟩⟩
    · simp only [wp_bind]
      refine wp_imp (endOp_now h2 hroom2 subset_rfl hr.idle.dirty) ?_
      rintro - s3 ⟨henv3, h3⟩
      rw [wp_pure]
      exact ⟨henv1.trans (henv2.trans henv3), A2, h3, .inl ⟨rfl, hs2⟩⟩
    · rcases ho with ⟨A2, -, -, -, hf, -⟩ | ⟨A2, A3, dp, name, hs2, hdp, hc, hname, hr3, h3⟩
      · exact absurd hf hfile
      · have hdpn : dp ≠ n := by
          rintro rfl
          have := hc.dir
          rw [hc.unused] at this
          exact absurd this (by decide)
        have hins : insert n ({dp, n} : Finset ℕ) = {dp, n} := Finset.insert_eq_of_mem (by simp)
        simp only [wp_bind]
        refine wp_imp (iunlockput_reap h3 (h3.keep_of hr.keeps)
          (by rw [hins]; exact room_pair (by omega) dp n)) ?_
        rintro - s4 ⟨henv4, A4, hr4, h4⟩
        rw [hins] at h4
        refine wp_seq (endOp_now h4 (room_pair (by omega) dp n) subset_rfl hr.idle.dirty) ?_
        rintro - s5 ⟨henv5, h5⟩
        rw [wp_pure]
        refine ⟨henv1.trans (henv2.trans (henv4.trans henv5)), A4, h5, .inr ⟨rfl, path, A2, n, dp, name,
          rfl, hs2, hdp, hc, hname, ?_⟩⟩
        rw [Set.insert_eq]
        exact hr3.trans hr4 (fun hx => hdpn hx.symm) (by rintro x rfl; exact hdpn)

end Create

section Open

theorem filealloc_spec {E : Panic → St → Prop} :
    wp filealloc (fun r s' => (r = none ∧ s' = s ∧ ∀ f < NFILE, (s.file f).ref ≠ 0) ∨
      ∃ f, r = some f ∧ f < NFILE ∧ (s.file f).ref = 0 ∧ s' = s.setFile f { s.file f with ref := 1 }) E s := by
  simp only [filealloc, wp_bind, wp_get]
  cases hf : (List.range NFILE).find? (fun f => (s.file f).ref = 0) with
  | none =>
    refine .inl ⟨rfl, rfl, fun f hlt => ?_⟩
    have := List.find?_eq_none.mp hf f (List.mem_range.mpr hlt)
    simpa using this
  | some f =>
    have hzero : (s.file f).ref = 0 := by
      have := List.find?_some hf
      simpa using this
    exact .inr ⟨f, rfl, List.mem_range.mp (List.mem_of_find?_eq_some hf), hzero, rfl⟩

/-- The process `q` gets the descriptor `fd` for the file `f`. -/
def St.withFd (s : St) (q fd f : ℕ) : St :=
  s.setProc q { s.proc q with ofile := update (s.proc q).ofile fd (some f) }

theorem fdalloc_spec {E : Panic → St → Prop} {f : ℕ} :
    wp (fdalloc p f) (fun r s' => (r = none ∧ s' = s ∧ ∀ fd < NOFILE, (s.proc p).ofile fd ≠ none) ∨
      ∃ fd, r = some fd ∧ fd < NOFILE ∧ (s.proc p).ofile fd = none ∧ s' = s.withFd p fd f) E s := by
  simp only [fdalloc, wp_bind, wp_get]
  cases hf : (List.range NOFILE).find? (fun fd => (s.proc p).ofile fd = none) with
  | none =>
    refine .inl ⟨rfl, rfl, fun fd hlt => ?_⟩
    have := List.find?_eq_none.mp hf fd (List.mem_range.mpr hlt)
    simpa using this
  | some fd =>
    have hnone : (s.proc p).ofile fd = none := by
      have := List.find?_some hf
      simpa using this
    exact .inr ⟨fd, rfl, List.mem_range.mp (List.mem_of_find?_eq_some hf), hnone, rfl⟩

theorem fileclose_fresh {Q : Unit → St → Prop} {E : Panic → St → Prop} {f : ℕ} (h0 : (s.file f).ref = 0)
    (hnone : (s.file f).type = .FD_NONE) (hQ : Q () s) :
    wp (fileclose sb p f) Q E (s.setFile f { s.file f with ref := 1 }) := by
  have hself : (s.setFile f { s.file f with ref := 1 }).file f = { s.file f with ref := 1 } :=
    update_self f _ _
  unfold fileclose
  simp only [wp_bind, wp_get, hself]
  rw [if_neg (by omega), if_neg (by omega), wp_bind, wp_set, if_neg, wp_pure]
  · have hx : ({ s.file f with ref := 0, type := .FD_NONE } : File) = s.file f := by
      rw [← h0, ← hnone]
    simp only [St.setFile]
    rw [update_idem, hx, update_eq_self]
    exact hQ
  · rw [hnone]
    rintro (h1 | h1) <;> cases h1

theorem Now.congr (h : Now μ sb p D V s A H K N w) (file : ℕ → File) (proc : ℕ → Proc) :
    Now μ sb p D V { s with file := file, proc := proc } A H K N w := by
  obtain ⟨L, W, h1, h2, h3, h4, h5⟩ := h
  exact ⟨L, W, h1, h2, h3.congr rfl rfl rfl, h4, h5⟩

/-- Why `sys_open` gives up an inode that it has. -/
def NoFile (p : ℕ) (s : St) (x : Node) : Prop :=
  x.type = T_DEVICE ∨ (∀ f < NFILE, (s.file f).ref ≠ 0) ∨ ∀ fd < NOFILE, (s.proc p).ofile fd ≠ none

/-- The inodes after a file was opened. -/
def truncatedBy (omode : BitVec 32) (A : ℕ → Node) (n : ℕ) : ℕ → Node :=
  if omode &&& O_TRUNC ≠ 0 ∧ (A n).type = T_FILE then update A n (A n).truncated else A

/-- The state in which `sys_open` has made the file `f` with the descriptor `fd`. -/
structure OpenedAs (p : ℕ) (s s' : St) (x : Node) (i f fd : ℕ) (omode : BitVec 32) : Prop where
  file_lt : f < NFILE
  fd_lt : fd < NOFILE
  unused : (s.file f).ref = 0
  no_fd : (s.proc p).ofile fd = none
  file : ∃ d : Dinode, d.type = x.type ∧ d.major = x.major ∧
    s'.file = update s.file f (openedFile { s.file f with ref := 1 } i d omode)
  proc : s'.proc = (s.withFd p fd f).proc
  device : x.type = T_DEVICE → 0 ≤ x.major.toInt ∧ x.major.toInt < NDEV

theorem OpenedAs.pointers {s s' : St} {x : Node} {f fd : ℕ} {omode : BitVec 32}
    (ho : OpenedAs p s s' x i f fd omode) : s'.pointers = i ::ₘ s.pointers := by
  obtain ⟨d, -, -, hfile⟩ := ho.file
  have hold : (s.file f).pointer = 0 := by
    rw [File.pointer, if_neg (fun hc => absurd hc.1 (by rw [ho.unused]; exact lt_irrefl 0))]
  have hnew : (openedFile { s.file f with ref := 1 } i d omode).pointer = {i} := by
    rw [File.pointer, if_pos]
    · rfl
    · refine ⟨Nat.one_pos, ?_⟩
      simp only [openedFile]
      by_cases hdev : d.type = T_DEVICE
      · rw [if_pos hdev]
        exact .inr rfl
      · rw [if_neg hdev]
        exact .inl rfl
  have hsum := pointers_setFile (s := s) ho.file_lt (openedFile { s.file f with ref := 1 } i d omode)
  rw [hold, hnew, add_zero] at hsum
  have hproc (q : ℕ) : (s'.proc q).pointer = (s.proc q).pointer := by
    have hc : ((s.withFd p fd f).proc q).cwd = (s.proc q).cwd := setProc_cwd q
    unfold Proc.pointer
    rw [ho.proc, hc]
  have hptr : s'.pointers = (s.setFile f (openedFile { s.file f with ref := 1 } i d omode)).pointers := by
    simp only [St.pointers, hproc, hfile, St.setFile]
  rw [hptr, hsum, add_comm, Multiset.singleton_add]

theorem openFail_now (hr : Ready μ sb p D s A H P)
    (h : Now μ sb p D (held H) s1 A1 ((i, n) ::ₘ H) ((i, n) ::ₘ 0) N w) (hroom : μ.Room (insert n N) w) :
    wp (openFail sb p i) (fun r s' => Env s1 s' ∧ r = -1 ∧ ∃ A', Reaped H {n} A1 A' ∧
      Idle μ sb D s' A' H) μ.E s1 := by
  rw [openFail]
  refine wp_seq (iunlockput_reap h (h.keep_of hr.keeps) hroom) ?_
  rintro - s2 ⟨henv2, A2, hr2, h2⟩
  refine wp_seq (endOp_now h2 hroom subset_rfl hr.idle.dirty) ?_
  rintro - s3 ⟨henv3, h3⟩
  exact ⟨henv2.trans henv3, rfl, A2, hr2, h3⟩

theorem openFile_now {omode : BitVec 32} (hr : Ready μ sb p D s A H P)
    (hclosed : ∀ f, (s1.file f).ref = 0 → (s1.file f).type = .FD_NONE)
    (h : Now μ sb p D (held H) s1 A1 ((i, n) ::ₘ H) ((i, n) ::ₘ 0) N w) (hroom : μ.Room (insert n N) w) :
    wp (openFile sb p i omode) (fun r s' =>
      (r = -1 ∧ Env s1 s' ∧ NoFile p s1 (A1 n) ∧ ∃ A', Reaped H {n} A1 A' ∧ Idle μ sb D s' A' H) ∨
      ∃ f fd : ℕ, r = fd ∧ OpenedAs p s1 s' (A1 n) i f fd omode ∧
        Idle μ sb D s' (truncatedBy omode A1 n) ((i, n) ::ₘ H)) μ.E s1 := by
  have hi : (i, n) ∈ ((i, n) ::ₘ 0 : Multiset (ℕ × ℕ)) := mem_cons_self _ _
  obtain ⟨⟨htype, hmajor, -⟩, -⟩ := h.copy hi
  have hfail {s' : St} (henv' : Env s1 s')
      (h' : Now μ sb p D (held H) s' A1 ((i, n) ::ₘ H) ((i, n) ::ₘ 0) N w) (hno : NoFile p s1 (A1 n)) :
      wp (openFail sb p i) (fun r s' =>
        (r = -1 ∧ Env s1 s' ∧ NoFile p s1 (A1 n) ∧ ∃ A', Reaped H {n} A1 A' ∧ Idle μ sb D s' A' H) ∨
        ∃ f fd : ℕ, r = fd ∧ OpenedAs p s1 s' (A1 n) i f fd omode ∧
          Idle μ sb D s' (truncatedBy omode A1 n) ((i, n) ::ₘ H)) μ.E s' := by
    refine wp_imp (openFail_now hr h' hroom) ?_
    rintro r s2 ⟨henv2, rfl, A2, hr2, h2⟩
    exact .inl ⟨rfl, henv'.trans henv2, hno, A2, hr2, h2⟩
  simp only [openFile, copyOf, wp_bind, wp_get, wp_pure]
  by_cases hdev : (s1.itable i).copy.type = T_DEVICE ∧
      ((s1.itable i).copy.major.toInt < 0 ∨ (NDEV : ℤ) ≤ (s1.itable i).copy.major.toInt)
  · rw [if_pos hdev]
    exact hfail (Env.refl s1) h (.inl (by rw [← htype]; exact hdev.1))
  · rw [if_neg hdev]
    refine wp_seq filealloc_spec ?_
    rintro r s2 (⟨rfl, rfl, hfull⟩ | ⟨f, rfl, hflt, hf0, rfl⟩)
    · exact hfail (Env.refl s2) h (.inr (.inl hfull))
    · simp only [wp_bind]
      refine wp_imp fdalloc_spec ?_
      rintro r s3 (⟨rfl, rfl, hfull⟩ | ⟨fd, rfl, hfdlt, hfd0, rfl⟩)
      · -- the file is closed again
        simp only [wp_bind]
        apply fileclose_fresh hf0 (hclosed f hf0)
        exact hfail (Env.refl s1) h (.inr (.inr hfull))
      · simp only [wp_bind, wp_modify]
        set d := (s1.itable i).copy with hd
        set s4 := ((s1.setFile f { s1.file f with ref := 1 }).withFd p fd f).setFile f
          (openedFile (((s1.setFile f { s1.file f with ref := 1 }).withFd p fd f).file f) i d omode) with hs4
        have h4 : Now μ sb p D (held H) s4 A1 ((i, n) ::ₘ H) ((i, n) ::ₘ 0) N w := h.congr s4.file s4.proc
        -- truncation is the only change to an inode
        have htrunc : wp (onlyIf (omode &&& O_TRUNC ≠ 0 ∧ d.type = T_FILE) (itrunc sb i))
            (fun _ s' => Env s4 s' ∧ Now μ sb p D (held H) s' (truncatedBy omode A1 n) ((i, n) ::ₘ H)
              ((i, n) ::ₘ 0) (insert n N) w) μ.E s4 := by
          unfold onlyIf truncatedBy
          rw [htype]
          by_cases hc : omode &&& O_TRUNC ≠ 0 ∧ (A1 n).type = T_FILE
          · rw [if_pos hc, if_pos hc]
            exact itrunc_now h4 hi hroom
          · rw [if_neg hc, if_neg hc, wp_pure]
            exact ⟨Env.refl s4, h4.mono (Finset.subset_insert n N) (le_refl w)⟩
        refine wp_imp htrunc ?_
        rintro - s5 ⟨henv5, h5⟩
        refine wp_seq (iunlock_now h5) ?_
        rintro - s6 ⟨h6, henv6⟩
        refine wp_seq (endOp_now h6 hroom ?_ ?_) ?_
        · rintro k ⟨j, hj⟩
          rcases Multiset.mem_cons.mp hj with heq | hj
          · rw [(Prod.mk.inj heq).2]
            exact Set.mem_insert n _
          · exact Set.mem_insert_of_mem n ⟨j, hj⟩
        · intro k hk
          obtain ⟨j, hj⟩ := hr.idle.dirty hk
          exact ⟨j, mem_cons_of_mem hj⟩
        rintro - s7 ⟨henv7, h7⟩
        rw [wp_pure]
        have henv47 := henv5.trans (henv6.trans henv7)
        refine .inr ⟨f, fd, rfl, ⟨hflt, hfdlt, hf0, hfd0, ⟨d, htype, hmajor, ?_⟩, ?_, ?_⟩, h7⟩
        · rw [henv47.1]
          change update (update s1.file f { s1.file f with ref := 1 }) f
            (openedFile (update s1.file f { s1.file f with ref := 1 } f) i d omode) = _
          rw [update_self, update_idem]
        · rw [henv47.2]
          rfl
        · intro ht
          rw [← htype] at ht
          rw [not_and, not_or, not_lt, not_le, hmajor] at hdev
          exact hdev ht

theorem OpenedAs.congr {s0 s' : St} {x : Node} {f fd : ℕ} {omode : BitVec 32}
    (h : OpenedAs p s1 s' x i f fd omode) (henv : Env s0 s1) : OpenedAs p s0 s' x i f fd omode := by
  obtain ⟨h1, h2, h3, h4, h5, h6, h7⟩ := h
  simp only [St.withFd, St.setProc, henv.1, henv.2] at h3 h4 h5 h6
  exact ⟨h1, h2, h3, h4, h5, h6, h7⟩

theorem openInode_now {path : Path} {omode : BitVec 32} (hr : Ready μ sb p D s A H P) (henv : Env s s1)
    (h : Now μ sb p D (held H) s1 A H 0 ∅ 0) :
    wp (openInode sb p path omode) (fun r s' => Env s1 s' ∧
      ((r = none ∧ ∃ A' N w, Shrunk H A A' ∧ Now μ sb p D (held H) s' A' H 0 N w ∧ μ.Room N w) ∨
        ∃ i n, r = some i ∧
          ((∃ A', Shrunk H A A' ∧ n ∈ P ∧ ((A' n).type = T_DIR → omode = O_RDONLY) ∧
            Now μ sb p D (held H) s' A' ((i, n) ::ₘ H) ((i, n) ::ₘ 0) ∅ 0) ∨
          (omode &&& O_CREATE ≠ 0 ∧ ∃ A1 A' dp name, Shrunk H A A1 ∧ dp ∈ P ∧ Creates sb A1 n dp name ∧
            (elems path.chars).getLast? = some name ∧
            Reaped ((i, n) ::ₘ H) {dp} (created A1 n dp name T_FILE 0 0) A' ∧
            Now μ sb p D (held H) s' A' ((i, n) ::ₘ H) ((i, n) ::ₘ 0) {dp, n} 6)))) μ.E s1 := by
  have hroom0 : μ.Room ∅ 0 := room_of_le
  unfold openInode
  by_cases hcr : omode &&& O_CREATE ≠ 0
  · rw [if_pos hcr]
    refine wp_imp (create_now hr henv h (by decide)) ?_
    rintro r s2 ⟨henv2, hnone | ⟨i, n, rfl, ⟨A2, hs2, hnP, h2, -, hty⟩ | hnew⟩⟩
    · exact ⟨henv2, .inl hnone⟩
    · refine ⟨henv2, .inr ⟨i, n, rfl, .inl ⟨A2, hs2, hnP, fun hd => ?_, h2⟩⟩⟩
      rw [hd] at hty
      rcases hty with hty | hty <;> exact absurd hty (by decide)
    · exact ⟨henv2, .inr ⟨i, n, rfl, .inr ⟨hcr, hnew⟩⟩⟩
  · rw [if_neg hcr]
    refine wp_seq (nameiLock_now hr henv h) ?_
    rintro r s2 ⟨henv2, A2, hs2, ⟨rfl, h2⟩ | ⟨i, n, rfl, hnP, h2, hnotype⟩⟩
    · exact ⟨henv2, .inl ⟨rfl, A2, _, _, hs2, h2, hroom0⟩⟩
    · simp only [wp_bind]
      refine wp_imp (ilock_now h2 (mem_cons_self _ _) hroom0
        (by simp) hnotype) ?_
      rintro - s3 ⟨h3, henv3⟩
      obtain ⟨⟨htype, -⟩, -⟩ := h3.copy (mem_cons_self (i, n) 0)
      simp only [copyOf, wp_bind, wp_get, wp_pure, htype]
      by_cases hdir : (A2 n).type = T_DIR ∧ omode ≠ O_RDONLY
      · rw [if_pos hdir]
        refine wp_seq ((hr.walk.shrunk hs2).drop (fun x hx => hx) h3 (h3.keep_of hr.keeps)) ?_
        rintro - s4 ⟨henv4, A4, hs4, h4⟩
        rw [wp_pure]
        exact ⟨henv2.trans (henv3.trans henv4), .inl ⟨rfl, A4, _, _, hs2.trans hs4, h4, hroom0⟩⟩
      · rw [if_neg hdir, wp_pure]
        refine ⟨henv2.trans henv3, .inr ⟨i, n, rfl, .inl ⟨A2, hs2, hnP, fun hd => ?_, h3⟩⟩⟩
        by_contra hne
        exact hdir ⟨hd, hne⟩

/-- `sys_open` fails and leaves a new file behind. -/
structure LeftBehind (sb : Superblock) (p : ℕ) (s : St) (A A1 : ℕ → Node) (H : Multiset (ℕ × ℕ))
    (P : Set ℕ) (path : Path) (omode : BitVec 32) (n dp : ℕ) (name : Name) : Prop where
  create : omode &&& O_CREATE ≠ 0
  shrunk : Shrunk H A A1
  mem : dp ∈ P
  creates : Creates sb A1 n dp name
  last : (elems path.chars).getLast? = some name
  full : (∀ f < NFILE, (s.file f).ref ≠ 0) ∨ ∀ fd < NOFILE, (s.proc p).ofile fd ≠ none

theorem sysOpen_spec (hr : Ready μ sb p D s A H P)
    (hclosed : ∀ f, (s.file f).ref = 0 → (s.file f).type = .FD_NONE) (path : Option Path)
    (omode : BitVec 32) :
    wp (sysOpen sb p path omode) (fun r s' =>
      (r = -1 ∧ Env s s' ∧ ∃ A', Idle μ sb D s' A' H ∧ (Shrunk H A A' ∨
        ∃ path' A1 n dp name, path = some path' ∧ LeftBehind sb p s A A1 H P path' omode n dp name ∧
          Reaped H {dp, n} (created A1 n dp name T_FILE 0 0) A')) ∨
      ∃ (path' : Path) (A' : ℕ → Node) (i n f fd : ℕ), path = some path' ∧ r = fd ∧
        OpenedAs p s s' (A' n) i f fd omode ∧ Idle μ sb D s' (truncatedBy omode A' n) ((i, n) ::ₘ H) ∧
        ((Shrunk H A A' ∧ n ∈ P ∧ ((A' n).type = T_DIR → omode = O_RDONLY)) ∨
          (omode &&& O_CREATE ≠ 0 ∧ ∃ A1 dp name, Shrunk H A A1 ∧ dp ∈ P ∧ Creates sb A1 n dp name ∧
            (elems path'.chars).getLast? = some name ∧
            Reaped ((i, n) ::ₘ H) {dp} (created A1 n dp name T_FILE 0 0) A'))) μ.E s := by
  cases path with
  | none => exact .inl ⟨rfl, Env.refl s, A, hr.idle, .inl (Shrunk.refl H A)⟩
  | some path =>
    rw [sysOpen]
    refine wp_seq (beginOp_idle hr.idle p) ?_
    rintro - s1 ⟨henv1, h1⟩
    refine wp_seq (openInode_now hr henv1 h1) ?_
    rintro r s2 ⟨henv2, ⟨rfl, A2, N2, w2, hs2, h2, hroom2⟩ | ⟨i, n, rfl, hcase⟩⟩
    · simp only [wp_bind]
      refine wp_imp (endOp_now h2 hroom2 subset_rfl hr.idle.dirty) ?_
      rintro - s3 ⟨henv3, h3⟩
      rw [wp_pure]
      exact .inl ⟨rfl, henv1.trans (henv2.trans henv3), A2, h3, .inl hs2⟩
    · have henv12 := henv1.trans henv2
      have hclosed2 : ∀ f, (s2.file f).ref = 0 → (s2.file f).type = .FD_NONE := by
        rw [henv12.1]
        exact hclosed
      rcases hcase with ⟨A2, hs2, hnP, hdir, h2⟩ | ⟨hcr, A2, A3, dp, name, hs2, hdp, hc, hname, hr3, h3⟩
      · refine wp_imp (openFile_now hr hclosed2 h2 room_of_le) ?_
        rintro r s4 (⟨rfl, henv4, -, A4, hr4, h4⟩ | ⟨f, fd, rfl, ho, h4⟩)
        · exact .inl ⟨rfl, henv12.trans henv4, A4, h4, .inl (hs2.trans hr4.shrunk)⟩
        · exact .inr ⟨path, A2, i, n, f, fd, rfl, rfl, ho.congr henv12, h4, .inl ⟨hs2, hnP, hdir⟩⟩
      · have hdpn : dp ≠ n := by
          rintro rfl
          have := hc.dir
          rw [hc.unused] at this
          exact absurd this (by decide)
        have hins : insert n ({dp, n} : Finset ℕ) = {dp, n} := Finset.insert_eq_of_mem (by simp)
        refine wp_imp (openFile_now hr hclosed2 h3 (by rw [hins]; exact room_pair (by omega) dp n)) ?_
        rintro r s4 (⟨rfl, henv4, hno, A4, hr4, h4⟩ | ⟨f, fd, rfl, ho, h4⟩)
        · refine .inl ⟨rfl, henv12.trans henv4, A4, h4, .inr ⟨path, A2, n, dp, name, rfl,
            ⟨hcr, hs2, hdp, hc, hname, ?_⟩, ?_⟩⟩
          · -- a new file is no device
            have hA3 : (A3 n).type = T_FILE := by
              rcases hr3 n with hx | hx
              · exact absurd hx.1.symm hdpn
              · rw [hx.2, created, update_of_ne hdpn.symm, update_self, newNode_type]
            rcases hno with hno | hno
            · rw [hA3] at hno
              exact absurd hno (by decide)
            · rwa [henv12.1, henv12.2] at hno
          · rw [Set.insert_eq]
            exact hr3.trans hr4 (fun hx => hdpn hx.symm) (by rintro x rfl; exact hdpn)
        · exact .inr ⟨path, A3, i, n, f, fd, rfl, rfl, ho.congr henv12, h4, .inr ⟨hcr, A2, dp, name,
            hs2, hdp, hc, hname, hr3⟩⟩

end Open

end Xv6.Fs
