import Xv6.FsDir

/-! Path resolution: `namex` (kernel/fs.c). While it walks it may drop the last pointer to an inode
without links, which frees that inode. -/
namespace Xv6.Fs

variable {μ : Mode} {sb : Superblock} {p : ℕ} {D V P : Set ℕ} {s : St} {A A' A'' : ℕ → Node}
  {H : Multiset (ℕ × ℕ)} {N : Finset ℕ} {w i n k : ℕ}

section Shrunk

/-- Some orphans were freed. -/
def Shrunk (H : Multiset (ℕ × ℕ)) (A A' : ℕ → Node) : Prop :=
  ∀ n, A' n = A n ∨ Orphan A H n ∧ A' n = .free

theorem Shrunk.refl (H : Multiset (ℕ × ℕ)) (A : ℕ → Node) : Shrunk H A A := fun _ => .inl rfl

theorem Orphan.of_cons {x : ℕ × ℕ} (h : Orphan A (x ::ₘ H) n) : Orphan A H n :=
  ⟨h.1, h.2.1, fun i hi => h.2.2 i (mem_cons_of_mem hi)⟩

theorem Shrunk.free (h : Orphan A H n) : Shrunk H A (update A n .free) := by
  intro m
  by_cases hm : m = n
  · subst hm
    exact .inr ⟨h, update_self m _ A⟩
  · exact .inl (update_of_ne hm _ A)

theorem Shrunk.trans (h : Shrunk H A A') (h' : Shrunk H A' A'') : Shrunk H A A'' := by
  intro n
  rcases h' n with h1 | ⟨h1, h2⟩
  · rw [h1]
    exact h n
  · rcases h n with h3 | ⟨-, h3⟩
    · refine .inr ⟨?_, h2⟩
      unfold Orphan at h1 ⊢
      rwa [← h3]
    · exact absurd (by rw [h3]; rfl) h1.1

theorem Shrunk.eq (h : Shrunk H A A') (hno : ∀ n, ¬ Orphan A H n) : A' = A :=
  funext fun n => (h n).resolve_right (fun hc => hno n hc.1)

theorem Shrunk.dir (h : Shrunk H A A') (hn : (A' n).type = T_DIR) : A' n = A n := by
  rcases h n with h1 | ⟨-, h1⟩
  · exact h1
  · rw [h1] at hn
    exact absurd hn (by decide)

end Shrunk

section Walk

/-- The panics after a short read of a directory are not excluded. -/
def Mode.ShortReads (μ : Mode) : Prop :=
  μ.stops .dirlookupRead ∧ μ.stops .dirlinkRead ∧ μ.stops .isdiremptyRead

/-- What a walk through the inodes `P` needs: `P` is closed under lookups, and what can go wrong on
the way is not excluded. -/
structure Walk (μ : Mode) (sb : Superblock) (A : ℕ → Node) (H : Multiset (ℕ × ℕ)) (P : Set ℕ) :
    Prop where
  entries : Entries sb A
  closed : ∀ n ∈ P, (A n).type = T_DIR → ∀ k < (A n).count, ((A n).entry k).inum ≠ 0 →
    ((A n).entry k).inum.toNat ∈ P
  typed : (∀ n ∈ P, (A n).type ≠ 0) ∨ μ.stops .noType
  whole : (μ.holey = ∅ ∧ ∀ n ∈ P, (A n).type = T_DIR → DESIZE ∣ (A n).size) ∨ μ.ShortReads
  held : (∀ n, ¬ Orphan A H n) ∨ μ.stops .noType ∧ ¬ μ.counts

theorem Walk.shrunk (h : Walk μ sb A H P) (hs : Shrunk H A A') : Walk μ sb A' H P := by
  refine ⟨fun n k hn hk => ?_, fun n hP hn k hk hi => ?_, ?_, ?_, ?_⟩
  · have heq := hs.dir hn
    rw [heq] at hn hk ⊢
    exact h.entries n k hn hk
  · have heq := hs.dir hn
    rw [heq] at hn hk hi ⊢
    exact h.closed n hP hn k hk hi
  · rcases h.held with h1 | h1
    · rw [hs.eq h1]
      exact h.typed
    · exact .inr h1.1
  · refine h.whole.imp_left (fun h1 => ⟨h1.1, fun n hP hn => ?_⟩)
    have heq := hs.dir hn
    rw [heq] at hn ⊢
    exact h1.2 n hP hn
  · refine h.held.imp_left (fun h1 => ?_)
    rw [hs.eq h1]
    exact h1

theorem Walk.reads (h : Walk μ sb A H P) (hn : n ∈ P) (hdir : (A n).type = T_DIR)
    (hc : n ∈ μ.holey ∨ ¬ DESIZE ∣ (A n).size) : μ.ShortReads := by
  refine h.whole.resolve_left (fun hw => ?_)
  rcases hc with hc | hc
  · rw [hw.1] at hc
    exact hc
  · exact hc (hw.2 n hn hdir)

theorem Walk.drop {H' K : Multiset (ℕ × ℕ)} (h : Walk μ sb A H P) (hH : ∀ x ∈ H, x ∈ H')
    (hnow : Now μ sb p D V s A ((i, n) ::ₘ H') ((i, n) ::ₘ K) N w)
    (hkeep : n ∈ D ∪ V → (i, n) ∈ H') :
    wp (iunlockput sb p i) (fun _ s' => Env s s' ∧
      ∃ A', Shrunk H A A' ∧ Now μ sb p D V s' A' H' K N w) μ.E s := by
  have horphan (ho : Orphan A H' n) : Orphan A H n := ⟨ho.1, ho.2.1, fun j hj => ho.2.2 j (hH _ hj)⟩
  have hc (ho : Orphan A H' n) : ¬ μ.counts := by
    rcases h.held with h1 | h1
    · exact absurd (horphan ho) (h1 n)
    · exact h1.2
  refine wp_imp (iunlockput_now hnow hkeep (fun ho hcc => absurd hcc (hc ho))) ?_
  rintro - s1 ⟨henv, ⟨-, h1⟩ | ⟨ho, h1⟩⟩
  · exact ⟨henv, A, Shrunk.refl H A, h1⟩
  · exact ⟨henv, _, Shrunk.free (horphan ho), h1.uncounted (hc ho)⟩

/-- What the loop of `namex` leaves: nothing, or a pointer to an inode of `P`. -/
def Walked (μ : Mode) (sb : Superblock) (p : ℕ) (D V P : Set ℕ) (A : ℕ → Node) (H : Multiset (ℕ × ℕ))
    (N : Finset ℕ) (w : ℕ) (parent : Bool) (names : List Name) (s : St) (r : Option (ℕ × Name))
    (s' : St) : Prop :=
  Env s s' ∧ ∃ A', Shrunk H A A' ∧
    ((r = none ∧ Now μ sb p D V s' A' H 0 N w) ∨
      ∃ j m name, r = some (j, name) ∧ m ∈ P ∧ Now μ sb p D V s' A' ((j, m) ::ₘ H) 0 N w ∧
        (parent = true → (A' m).type = T_DIR ∧ names.getLast? = some name))

theorem namexLoop_now (parent : Bool) (hkeep : ∀ m ∈ D ∪ V, ∃ j, (j, m) ∈ H) (hfree : μ.Free H 2)
    (hroom : μ.Room N w) (names : List Name) (hwalk : Walk μ sb A H P) (hn : n ∈ P)
    (h : Now μ sb p D V s A ((i, n) ::ₘ H) 0 N w) :
    wp (namexLoop sb p parent i names) (Walked μ sb p D V P A H N w parent names s) μ.E s := by
  induction names generalizing i n s A with
  | nil =>
    have hmem : (i, n) ∈ (i, n) ::ₘ H := mem_cons_self _ _
    rw [namexLoop]
    cases parent with
    | false =>
      exact ⟨Env.refl s, A, Shrunk.refl H A, .inr ⟨i, n, [], rfl, hn, h, fun hc => by cases hc⟩⟩
    | true =>
      have hkeep' : n ∈ D ∪ V → (i, n) ∈ H := by
        intro hm
        obtain ⟨j, hj⟩ := hkeep n hm
        rwa [h.uniq hmem (mem_cons_of_mem hj)]
      have hc (ho : Orphan A H n) : ¬ μ.counts := by
        rcases hwalk.held with h1 | h1
        · exact absurd ho (h1 n)
        · exact h1.2
      rw [if_pos rfl]
      refine wp_seq (iput_now h (by simp) hkeep'
        (fun _ ho hcc => absurd hcc (hc ho))) ?_
      rintro - s1 ⟨henv, ⟨-, h1⟩ | ⟨-, ho, h1⟩⟩
      · exact ⟨henv, A, Shrunk.refl H A, .inl ⟨rfl, h1⟩⟩
      · exact ⟨henv, _, Shrunk.free ho, .inl ⟨rfl, h1.uncounted (hc ho)⟩⟩
  | cons name rest ih =>
    have hmem : (i, n) ∈ (i, n) ::ₘ H := mem_cons_self _ _
    have hkeep' (x : ℕ × ℕ) (s' : St) (A' : ℕ → Node) (K : Multiset (ℕ × ℕ))
        (h' : Now μ sb p D V s' A' ((i, n) ::ₘ x ::ₘ H) K N w) : n ∈ D ∪ V → (i, n) ∈ x ::ₘ H := by
      intro hm
      obtain ⟨j, hj⟩ := hkeep n hm
      rw [h'.uniq (mem_cons_self _ _)
        (mem_cons_of_mem (mem_cons_of_mem hj))]
      exact mem_cons_of_mem hj
    have hkeep0 : n ∈ D ∪ V → (i, n) ∈ H := by
      intro hm
      obtain ⟨j, hj⟩ := hkeep n hm
      rwa [h.uniq hmem (mem_cons_of_mem hj)]
    rw [namexLoop]
    refine wp_seq (ilock_now h hmem hroom (by simp)
      (fun h0 => hwalk.typed.resolve_left (fun ht => ht n hn h0))) ?_
    rintro - s1 ⟨h1, henv1⟩
    obtain ⟨⟨htype, -⟩, -⟩ := h1.copy (mem_cons_self (i, n) 0)
    simp only [wp_bind, copyOf, wp_get, wp_pure, htype]
    by_cases hdir : (A n).type = T_DIR
    · rw [if_neg (not_not.mpr hdir)]
      by_cases hstop : parent = true ∧ rest = []
      · -- stop one level early
        obtain ⟨rfl, rfl⟩ := hstop
        rw [if_pos ⟨rfl, rfl⟩]
        refine wp_seq (iunlock_now h1) ?_
        rintro - s2 ⟨h2, henv2⟩
        rw [wp_pure]
        exact ⟨henv1.trans henv2, A, Shrunk.refl H A, .inr ⟨i, n, name, rfl, hn,
          h2.valid_mono (Set.subset_insert n V), fun _ => ⟨hdir, rfl⟩⟩⟩
      · rw [if_neg hstop]
        refine wp_seq (dirlookup_now h1 (mem_cons_self _ _) hdir hwalk.entries (hfree.cons _)
          hroom (fun hc => (hwalk.reads hn hdir hc).1)) ?_
        rintro r s2 ⟨henv2, ⟨rfl, -, -, h2⟩ | ⟨k, j, rfl, hfind, h2, -⟩⟩
        · simp only [wp_bind]
          refine wp_imp (hwalk.drop (fun x hx => hx) h2 hkeep0) ?_
          rintro - s3 ⟨henv3, A3, hs3, h3⟩
          rw [wp_pure]
          exact ⟨henv1.trans (henv2.trans henv3), A3, hs3, .inl ⟨rfl, h3⟩⟩
        · obtain ⟨hk, hnamed⟩ := Node.find_some hfind
          have hm : ((A n).entry k).inum.toNat ∈ P := hwalk.closed n hn hdir k hk hnamed.1
          rw [cons_swap] at h2
          simp only [wp_bind]
          refine wp_imp (hwalk.drop (fun x hx => mem_cons_of_mem hx) h2
            (hkeep' _ _ _ _ h2)) ?_
          rintro - s3 ⟨henv3, A3, hs3, h3⟩
          refine wp_imp (ih (hwalk.shrunk hs3) hm h3) ?_
          rintro r s4 ⟨henv4, A4, hs4, hr⟩
          refine ⟨henv1.trans (henv2.trans (henv3.trans henv4)), A4, hs3.trans hs4, ?_⟩
          rcases hr with hr | ⟨j', m, name', h5, h6, h7, h8⟩
          · exact .inl hr
          · refine .inr ⟨j', m, name', h5, h6, h7, fun hp => ⟨(h8 hp).1, ?_⟩⟩
            have hlast := (h8 hp).2
            cases rest with
            | nil => cases hlast
            | cons x xs =>
              rw [List.getLast?_cons_cons]
              exact hlast
    · rw [if_pos hdir]
      refine wp_seq (hwalk.drop (fun x hx => hx) h1 hkeep0) ?_
      rintro - s2 ⟨henv2, A2, hs2, h2⟩
      rw [wp_pure]
      exact ⟨henv1.trans henv2, A2, hs2, .inl ⟨rfl, h2⟩⟩

/-- The walk starts at the root or at the current directory. -/
structure Starts (sb : Superblock) (p : ℕ) (s : St) (H : Multiset (ℕ × ℕ)) (P : Set ℕ) : Prop where
  root_lt : ROOTINO < sb.ninodes
  root : ROOTINO ∈ P
  cwd : ∃ i n, (s.proc p).cwd = some i ∧ (i, n) ∈ H ∧ n ∈ P

theorem namex_now {path : Path} (parent : Bool) (hkeep : ∀ m ∈ D ∪ V, ∃ j, (j, m) ∈ H)
    (hfree : μ.Free H 2) (hroom : μ.Room N w) (hwalk : Walk μ sb A H P) (hstart : Starts sb p s H P)
    (h : Now μ sb p D V s A H 0 N w) :
    wp (namex sb p path parent) (Walked μ sb p D V P A H N w parent (elems path.chars) s) μ.E s := by
  -- the pointer to start from
  have hstart : wp (namexStart p path) (fun i s' => Env s s' ∧
      ∃ n ∈ P, Now μ sb p D V s' A ((i, n) ::ₘ H) 0 N w) μ.E s := by
    unfold namexStart
    by_cases hroot : path.chars.head? = some slash
    · rw [if_pos hroot]
      refine wp_imp (iget_now h hstart.root_lt (hfree.mono (by omega)) hroom) ?_
      rintro i s1 ⟨h1, henv, -⟩
      exact ⟨henv, ROOTINO, hstart.root, h1⟩
    · obtain ⟨i, n, hcwd, hi, hP⟩ := hstart.cwd
      rw [if_neg hroot, wp_bind, wp_get, hcwd]
      refine wp_imp (idup_now h hi) ?_
      rintro r s1 ⟨rfl, h1, henv⟩
      exact ⟨henv, n, hP, h1⟩
  rw [namex]
  refine wp_seq hstart ?_
  rintro i s1 ⟨henv1, n, hP, h1⟩
  refine wp_imp (namexLoop_now parent hkeep hfree hroom _ hwalk hP h1) ?_
  rintro r s2 ⟨henv2, hr⟩
  exact ⟨henv1.trans henv2, hr⟩

end Walk

end Xv6.Fs
