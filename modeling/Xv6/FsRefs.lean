import Xv6.FsIdle

/-! The reference counts and locks of the inode table (kernel/fs.c), on any disk: what a function
takes it gives back or hands on. `H` lists the pointers that are held and `K` the locked ones. -/
namespace Xv6.Fs

section Quiet

/-- The counts and the locks of the inode table, the files and the processes are as before. -/
def SameRefs (s s' : St) : Prop :=
  (∀ i, (s'.itable i).ref = (s.itable i).ref ∧ (s'.itable i).lock = (s.itable i).lock) ∧ Env s s'

instance : IsPreorder St SameRefs where
  refl s := ⟨fun _ => ⟨rfl, rfl⟩, Env.refl s⟩
  trans _ _ _ h h' := ⟨fun i => ⟨(h'.1 i).1.trans (h.1 i).1, (h'.1 i).2.trans (h.1 i).2⟩, h.2.trans h'.2⟩

/-- No reference is taken or dropped. -/
abbrev Quiet {α : Type} (m : Op α) : Prop := Keeps SameRefs (fun e => e ≠ Panic.noInodes) m

variable {sb : Superblock} {p i n : ℕ}

theorem quiet_disk (f : St → Disk) : Quiet (modify (fun s => { s with disk := f s })) :=
  Keeps.modify (fun s => ⟨fun _ => ⟨rfl, rfl⟩, Env.refl s⟩)

theorem sameRefs_setInode {s : St} {i : ℕ} {x : Inode} (href : x.ref = (s.itable i).ref)
    (hlock : x.lock = (s.itable i).lock) : SameRefs s (s.setInode i x) := by
  refine ⟨fun j => ?_, rfl, rfl⟩
  simp only [St.setInode]
  by_cases hj : j = i
  · rw [hj, update_self]
    exact ⟨href, hlock⟩
  · rw [update_of_ne hj]
    exact ⟨rfl, rfl⟩

theorem sameRefs_setCopy (s : St) (i : ℕ) (d : Dinode) : SameRefs s (s.setCopy i d) :=
  sameRefs_setInode rfl rfl

theorem quiet_setCopy (i : ℕ) (f : St → Dinode) : Quiet (modify (fun s => s.setCopy i (f s))) :=
  Keeps.modify (fun s => sameRefs_setCopy s i (f s))

theorem quiet_copyOf (i : ℕ) : Quiet (copyOf i) := Keeps.bind Keeps.get (fun _ => Keeps.pure _)

theorem quiet_beginOp : Quiet beginOp := by
  refine Keeps.get_bind (fun s => ?_)
  by_cases hc : LOGBLOCKS < s.lh.length + (s.outstanding + 1) * MAXOPBLOCKS
  · rw [if_pos hc]
    exact Panic.noConfusion
  · rw [if_neg hc]
    exact ⟨fun _ => ⟨rfl, rfl⟩, rfl, rfl⟩

theorem quiet_endOp : Quiet endOp := by
  refine Keeps.get_bind (fun s => ?_)
  rw [wp_ite, wp_set, wp_set]
  split
  · exact ⟨fun _ => ⟨rfl, rfl⟩, rfl, rfl⟩
  · exact ⟨fun _ => ⟨rfl, rfl⟩, rfl, rfl⟩

theorem quiet_logWrite (b : ℕ) : Quiet (logWrite b) := by
  refine Keeps.get_bind (fun s => ?_)
  simp only [wp_ite, wp_throw, wp_pure, wp_set]
  split
  · exact Panic.noConfusion
  split
  · exact Panic.noConfusion
  split
  · exact refl_of SameRefs s
  · exact ⟨fun _ => ⟨rfl, rfl⟩, rfl, rfl⟩

theorem quiet_bzero (b : ℕ) : Quiet (bzero b) := Keeps.bind (quiet_disk _) (fun _ => quiet_logWrite b)

theorem quiet_balloc : Quiet (balloc sb) := by
  refine Keeps.bind Keeps.get (fun s => ?_)
  split
  · exact Keeps.pure 0
  · next b _ =>
    exact Keeps.bind (quiet_disk _) (fun _ => Keeps.bind (quiet_logWrite _) (fun _ =>
      Keeps.bind (quiet_bzero b) (fun _ => Keeps.pure b)))

theorem quiet_bfree (b : ℕ) : Quiet (bfree sb b) := by
  refine Keeps.bind Keeps.get (fun s => Keeps.ite (Keeps.throw Panic.noConfusion) ?_)
  exact Keeps.bind (quiet_disk _) (fun _ => quiet_logWrite _)

theorem quiet_iupdate (i : ℕ) : Quiet (iupdate sb i) :=
  Keeps.bind (quiet_disk _) (fun _ => Keeps.bind Keeps.get (fun _ => quiet_logWrite _))

theorem quiet_bmapIndirect (ind bn : ℕ) : Quiet (bmapIndirect sb ind bn) := by
  refine Keeps.bind Keeps.get (fun s => Keeps.ite (Keeps.pure _) (Keeps.bind quiet_balloc (fun b => ?_)))
  refine Keeps.ite (Keeps.pure 0) (Keeps.bind (quiet_disk _) (fun _ => ?_))
  exact Keeps.bind (quiet_logWrite ind) (fun _ => Keeps.pure b)

theorem quiet_bmapDirect (i k : ℕ) : Quiet (bmapDirect sb i k) := by
  refine Keeps.bind (quiet_copyOf i) (fun d => Keeps.ite (Keeps.pure _) (Keeps.bind quiet_balloc (fun b => ?_)))
  exact Keeps.ite (Keeps.pure 0) (Keeps.bind (quiet_setCopy i _) (fun _ => Keeps.pure b))

theorem quiet_bmap (i bn : ℕ) : Quiet (bmap sb i bn) := by
  refine Keeps.ite (quiet_bmapDirect i bn) (Keeps.ite ?_ (Keeps.throw Panic.noConfusion))
  exact Keeps.bind (quiet_bmapDirect i NDIRECT) (fun ind => Keeps.ite (Keeps.pure 0) (quiet_bmapIndirect ind _))

theorem quiet_itrunc (i : ℕ) : Quiet (itrunc sb i) := by
  have hdirect : Quiet (itruncDirect sb i) := by
    refine Keeps.loop (fun k => Keeps.bind (quiet_copyOf i) (fun d => Keeps.ite ?_ (Keeps.pure ()))) _ _
    exact Keeps.bind (quiet_bfree _) (fun _ => quiet_setCopy i _)
  have hindirect : Quiet (itruncIndirect sb i) := by
    refine Keeps.bind (quiet_copyOf i) (fun d => Keeps.ite ?_ (Keeps.pure ()))
    refine Keeps.bind (Keeps.loop (fun j => ?_) _ _) (fun _ => Keeps.bind (quiet_bfree _) (fun _ =>
      quiet_setCopy i _))
    exact Keeps.bind Keeps.get (fun s => Keeps.ite (quiet_bfree _) (Keeps.pure ()))
  exact Keeps.bind hdirect (fun _ => Keeps.bind hindirect (fun _ => Keeps.bind (quiet_setCopy i _) (fun _ =>
    quiet_iupdate i)))

theorem quiet_readLoop (i : ℕ) (dst : ℕ → Bool) (off len fuel tot : ℕ) (out : List Byte) :
    Quiet (readLoop sb i dst off len fuel tot out) := by
  induction fuel generalizing tot out with
  | zero => exact Keeps.pure _
  | succ fuel ih =>
    refine Keeps.ite (Keeps.bind (quiet_bmap i _) (fun a => Keeps.ite (Keeps.pure _) ?_)) (Keeps.pure _)
    exact Keeps.bind Keeps.get (fun s => Keeps.ite (ih _ _) (Keeps.pure _))

theorem quiet_readi (i : ℕ) (dst : ℕ → Bool) (off len : ℕ) : Quiet (readi sb i dst off len) :=
  Keeps.bind (quiet_copyOf i) (fun _ => Keeps.ite (Keeps.pure _) (quiet_readLoop i dst off _ _ _ _))

theorem quiet_writeLoop (i : ℕ) (src : ℕ → Option Byte) (off len fuel tot : ℕ) :
    Quiet (writeLoop sb i src off len fuel tot) := by
  induction fuel generalizing tot with
  | zero => exact Keeps.pure _
  | succ fuel ih =>
    refine Keeps.ite (Keeps.bind (quiet_bmap i _) (fun a => Keeps.ite (Keeps.pure _) ?_)) (Keeps.pure _)
    refine Keeps.bind Keeps.get (fun s => Keeps.bind (quiet_disk _) (fun _ => ?_))
    exact Keeps.ite (Keeps.bind (quiet_logWrite a) (fun _ => ih _)) (Keeps.pure _)

theorem quiet_writei (i : ℕ) (src : ℕ → Option Byte) (off len : ℕ) : Quiet (writei sb i src off len) := by
  refine Keeps.bind (quiet_copyOf i) (fun d => Keeps.ite (Keeps.pure _) (Keeps.ite (Keeps.pure _) ?_))
  refine Keeps.bind (quiet_writeLoop i src off len _ _) (fun tot => Keeps.bind (Keeps.modify (fun s => ?_))
    (fun _ => Keeps.bind (quiet_iupdate i) (fun _ => Keeps.pure _)))
  split
  · exact sameRefs_setCopy s i _
  · exact refl_of SameRefs s

theorem quiet_readDirent (i off : ℕ) {e : Panic} (he : e ≠ .noInodes) : Quiet (readDirent sb i off e) :=
  Keeps.bind (quiet_readi i _ off DESIZE) (fun _ => Keeps.ite (Keeps.throw he) (Keeps.pure _))

theorem quiet_emptyDirent (i fuel k : ℕ) : Quiet (emptyDirent sb i fuel k) := by
  induction fuel generalizing k with
  | zero => exact Keeps.pure _
  | succ fuel ih =>
    exact Keeps.bind (quiet_readDirent i _ Panic.noConfusion) (fun _ => Keeps.ite (Keeps.pure _) (ih _))

end Quiet

section Refs

/-- Inside a system call of process `p`. -/
structure Refs (p : ℕ) (s : St) (H K : Multiset ℕ) : Prop where
  ref : ∀ i < NINODE, (s.itable i).ref = H.count i
  lt : ∀ i ∈ H, i < NINODE
  lock : ∀ i, (s.itable i).lock = if i ∈ K then some p else none
  locked : ∀ i ∈ K, i ∈ H
  nodup : K.Nodup

/-- The same, with the files and the processes as they were in `s₀`. -/
structure Since (s₀ : St) (p : ℕ) (H K : Multiset ℕ) (s : St) : Prop extends Refs p s H K where
  env : Env s₀ s

/-- `k` more inodes fit in the table, or `full` excuses the panic of `iget`. -/
def Fits (full : Prop) (H : Multiset ℕ) (k : ℕ) : Prop := full ∨ H.toFinset.card + k ≤ NINODE

/-- The panic of `iget` is excused by `full`, and all others are. -/
def spare (full : Prop) (e : Panic) (_ : St) : Prop := e = .noInodes → full

variable {full : Prop} {sb : Superblock} {p i j n k : ℕ} {s₀ s s' : St} {H H' K : Multiset ℕ} {α : Type}

theorem Fits.mono (h : Fits full H k) (hle : H'.toFinset.card + j ≤ H.toFinset.card + k) : Fits full H' j :=
  h.imp_right (fun h1 => le_trans hle h1)

theorem Fits.cons (h : Fits full H (k + 1)) (i : ℕ) : Fits full (i ::ₘ H) k := by
  refine h.mono ?_
  rw [Multiset.toFinset_cons]
  have := Finset.card_insert_le i H.toFinset
  omega

namespace Refs

theorem same (h : Refs p s H K) (hs : SameRefs s s') : Refs p s' H K :=
  ⟨fun i hi => (hs.1 i).1.trans (h.ref i hi), h.lt, fun i => (hs.1 i).2.trans (h.lock i), h.locked, h.nodup⟩

theorem since (h : Refs p s H K) : Since s p H K s := ⟨h, Env.refl s⟩

theorem set_inode (h : Refs p s H K) (hi : i < NINODE) {x : Inode} (href : x.ref = H'.count i)
    (hlock : x.lock = if i ∈ K then some p else none) (hcount : ∀ j ≠ i, H'.count j = H.count j)
    (hK : ∀ j ∈ K, j ∈ H') : Refs p (s.setInode i x) H' K := by
  have hself : (s.setInode i x).itable i = x := update_self i _ _
  have hother (j : ℕ) (hj : j ≠ i) : (s.setInode i x).itable j = s.itable j := update_of_ne hj _ _
  refine ⟨fun j hj => ?_, fun j hj => ?_, fun j => ?_, hK, h.nodup⟩
  · by_cases hji : j = i
    · rw [hji, hself, href]
    · rw [hother j hji, hcount j hji, h.ref j hj]
  · by_cases hji : j = i
    · rw [hji]
      exact hi
    · refine h.lt j ?_
      rw [← Multiset.count_pos, ← hcount j hji]
      exact Multiset.count_pos.mpr hj
  · by_cases hji : j = i
    · rw [hji, hself, hlock]
    · rw [hother j hji, h.lock j]

theorem count_cons_ne (i : ℕ) (H : Multiset ℕ) : ∀ j ≠ i, (i ::ₘ H).count j = H.count j :=
  fun _ hj => Multiset.count_cons_of_ne hj H

theorem add (h : Refs p s H K) (hi : i < NINODE) {x : Inode} (href : x.ref = (s.itable i).ref + 1)
    (hlock : x.lock = (s.itable i).lock) : Refs p (s.setInode i x) (i ::ₘ H) K := by
  refine h.set_inode hi ?_ (hlock.trans (h.lock i)) (count_cons_ne i H)
    (fun j hj => mem_cons_of_mem (h.locked j hj))
  rw [href, h.ref i hi, Multiset.count_cons_self]

end Refs

theorem Since.quiet {m : Op α} (h : Since s₀ p H K s) (hm : Quiet m) :
    wp m (fun _ => Since s₀ p H K) (spare full) s :=
  wp_mono (hm s) (fun _ _ hs => ⟨h.same hs, h.env.trans hs.2⟩) (fun _ _ he hc => absurd hc he)

theorem iget_refs (h : Since s₀ p H K s) (hfit : Fits full H 1) (dev : ℕ) :
    wp (iget dev n) (fun i => Since s₀ p (i ::ₘ H) K) (spare full) s := by
  have hspec := scan_spec s.itable dev n (List.range NINODE) none (fun _ hc => by cases hc)
  simp only [iget, wp_bind, wp_get]
  cases hscan : scan s.itable dev n (List.range NINODE) none with
  | hit i =>
    rw [hscan] at hspec
    exact ⟨h.add (List.mem_range.mp hspec.1) rfl rfl, h.env⟩
  | empty i =>
    rw [hscan] at hspec
    obtain ⟨hmem, href, -⟩ := hspec
    have hi : i < NINODE := List.mem_range.mp (hmem.resolve_right (by simp))
    refine ⟨h.add hi ?_ rfl, h.env⟩
    change 1 = (s.itable i).ref + 1
    rw [href]
  | full =>
    rw [hscan] at hspec
    refine fun _ => hfit.resolve_right (fun hle => ?_)
    -- every entry is held
    have hall : Finset.range NINODE ⊆ H.toFinset := by
      intro j hj
      have hlt := Finset.mem_range.mp hj
      have hpos := hspec.2 j (List.mem_range.mpr hlt)
      rw [h.ref j hlt] at hpos
      exact Multiset.mem_toFinset.mpr (Multiset.count_pos.mp hpos)
    have hcard := Finset.card_le_card hall
    rw [Finset.card_range] at hcard
    omega

theorem idup_refs (h : Since s₀ p H K s) (hi : i ∈ H) :
    wp (idup i) (fun r s' => r = i ∧ Since s₀ p (i ::ₘ H) K s') (spare full) s := by
  rw [idup, wp_bind, wp_modify, wp_pure]
  exact ⟨rfl, h.add (h.lt i hi) rfl rfl, h.env⟩

theorem Refs.take_lock (h : Refs p s H K) (hi : i ∈ H) (hfree : (s.itable i).lock = none) {x : Inode}
    (href : x.ref = (s.itable i).ref) (hlock : x.lock = some p) :
    Refs p (s.setInode i x) H (i ::ₘ K) := by
  have hself : (s.setInode i x).itable i = x := update_self i _ _
  have hother (j : ℕ) (hj : j ≠ i) : (s.setInode i x).itable j = s.itable j := update_of_ne hj _ _
  have hiK : i ∉ K := by
    intro hc
    have := h.lock i
    rw [hfree, if_pos hc] at this
    cases this
  refine ⟨fun j hj => ?_, h.lt, fun j => ?_, fun j hj => ?_, nodup_cons.mpr ⟨hiK, h.nodup⟩⟩
  · by_cases hji : j = i
    · rw [hji, hself, href, h.ref i (hji ▸ hj)]
    · rw [hother j hji, h.ref j hj]
  · by_cases hji : j = i
    · rw [hji, hself, hlock, if_pos (mem_cons_self i K)]
    · rw [hother j hji, h.lock j]
      simp only [Multiset.mem_cons, hji, false_or]
  · rcases Multiset.mem_cons.mp hj with rfl | hj
    · exact hi
    · exact h.locked j hj

theorem Refs.drop_lock (h : Refs p s H (i ::ₘ K)) {x : Inode} (href : x.ref = (s.itable i).ref)
    (hlock : x.lock = none) : Refs p (s.setInode i x) H K := by
  have hself : (s.setInode i x).itable i = x := update_self i _ _
  have hother (j : ℕ) (hj : j ≠ i) : (s.setInode i x).itable j = s.itable j := update_of_ne hj _ _
  have hnodup := nodup_cons.mp h.nodup
  refine ⟨fun j hj => ?_, h.lt, fun j => ?_, fun j hj => h.locked j (mem_cons_of_mem hj), hnodup.2⟩
  · by_cases hji : j = i
    · rw [hji, hself, href, h.ref i (hji ▸ hj)]
    · rw [hother j hji, h.ref j hj]
  · by_cases hji : j = i
    · rw [hji, hself, hlock, if_neg hnodup.1]
    · rw [hother j hji, h.lock j]
      simp only [Multiset.mem_cons, hji, false_or]

theorem acquiresleep_refs (h : Since s₀ p H K s) (hi : i ∈ H) :
    wp (acquiresleep p i) (fun _ => Since s₀ p H (i ::ₘ K)) (spare full) s := by
  simp only [acquiresleep, wp_bind, wp_get]
  by_cases hlock : (s.itable i).lock = none
  · rw [if_pos hlock]
    exact ⟨h.take_lock hi hlock rfl rfl, h.env⟩
  · rw [if_neg hlock]
    exact Panic.noConfusion

theorem ilock_refs (h : Since s₀ p H K s) (hi : i ∈ H) :
    wp (ilock sb p i) (fun _ => Since s₀ p H (i ::ₘ K)) (spare full) s := by
  simp only [ilock, wp_bind, wp_get]
  by_cases href : (s.itable i).ref < 1
  · rw [if_pos href]
    exact Panic.noConfusion
  · rw [if_neg href]
    refine wp_seq (acquiresleep_refs h hi) ?_
    intro _ s1 h1
    -- what is left reads the inode
    simp only [wp_bind, wp_get]
    by_cases hv : (s1.itable i).valid = true
    · rw [if_pos hv]
      exact h1
    · rw [if_neg hv, wp_bind, wp_set, wp_ite]
      split
      · exact Panic.noConfusion
      · exact ⟨h1.same (sameRefs_setInode rfl rfl), h1.env⟩

theorem iunlock_refs (h : Since s₀ p H (i ::ₘ K) s) :
    wp (iunlock p i) (fun _ => Since s₀ p H K) (spare full) s := by
  simp only [iunlock, wp_bind, wp_get]
  rw [wp_ite]
  split
  · exact Panic.noConfusion
  · exact ⟨h.drop_lock rfl rfl, h.env⟩

theorem ifree_refs (h : Since s₀ p H K s) (hi : i ∈ H) :
    wp (ifree sb p i) (fun _ => Since s₀ p H K) (spare full) s := by
  simp only [ifree, wp_bind, wp_get]
  rw [wp_ite]
  split
  · refine wp_seq (acquiresleep_refs h hi) ?_
    intro _ s1 h1
    refine wp_seq (h1.quiet (quiet_itrunc i)) ?_
    intro _ s2 h2
    refine wp_seq (h2.quiet (quiet_setCopy i _)) ?_
    intro _ s3 h3
    refine wp_seq (h3.quiet (quiet_iupdate i)) ?_
    intro _ s4 h4
    rw [wp_bind, wp_modify, releasesleep, wp_modify]
    have h5 : Refs p (s4.setInode i { s4.itable i with valid := false }) H (i ::ₘ K) :=
      h4.same (sameRefs_setInode rfl rfl)
    exact ⟨h5.drop_lock rfl rfl, h4.env⟩
  · exact h

theorem iput_refs (h : Since s₀ p (i ::ₘ H) K s) (hK : i ∈ K → i ∈ H) :
    wp (iput sb p i) (fun _ => Since s₀ p H K) (spare full) s := by
  have hi : i ∈ i ::ₘ H := mem_cons_self i H
  rw [iput]
  refine wp_seq (ifree_refs h hi) ?_
  intro _ s1 h1
  rw [wp_modify]
  refine ⟨h1.set_inode (h1.lt i hi) ?_ (h1.lock i) (fun j hj => (Refs.count_cons_ne i H j hj).symm)
    (fun j hj => ?_), h1.env⟩
  · change (s1.itable i).ref - 1 = _
    rw [h1.ref i (h1.lt i hi), Multiset.count_cons_self, Nat.add_sub_cancel]
  · rcases Multiset.mem_cons.mp (h1.locked j hj) with rfl | hm
    · exact hK hj
    · exact hm

theorem iunlockput_refs (h : Since s₀ p (i ::ₘ H) (i ::ₘ K) s) :
    wp (iunlockput sb p i) (fun _ => Since s₀ p H K) (spare full) s := by
  have hnot := (nodup_cons.mp h.nodup).1
  rw [iunlockput]
  refine wp_seq (iunlock_refs h) ?_
  intro _ s1 h1
  exact iput_refs h1 (fun hc => absurd hc hnot)

end Refs

section Paths

variable {full : Prop} {sb : Superblock} {p i j n k : ℕ} {s₀ s s' : St} {H H' K : Multiset ℕ}

theorem dirlookup_refs (h : Since s₀ p H K s) (hfit : Fits full H 1) (name : Name) :
    wp (dirlookup sb i name) (fun r s' => (r = none ∧ Since s₀ p H K s') ∨
      ∃ j off, r = some (j, off) ∧ Since s₀ p (j ::ₘ H) K s') (spare full) s := by
  have hloop (ks : List ℕ) (s1 : St) (h1 : Since s₀ p H K s1) :
      wp (dirlookupLoop sb i name ks) (fun r s' => (r = none ∧ Since s₀ p H K s') ∨
        ∃ j off, r = some (j, off) ∧ Since s₀ p (j ::ₘ H) K s') (spare full) s1 := by
    induction ks generalizing s1 with
    | nil => exact .inl ⟨rfl, h1⟩
    | cons k ks ih =>
      rw [dirlookupLoop]
      refine wp_seq (h1.quiet (quiet_readDirent i _ Panic.noConfusion)) ?_
      intro de s2 h2
      by_cases h0 : de.inum = 0
      · rw [if_pos h0]
        exact ih s2 h2
      · rw [if_neg h0]
        by_cases hname : namecmp name de.name = 0
        · simp only [if_pos hname, wp_bind, wp_get]
          refine wp_imp (iget_refs h2 hfit _) ?_
          intro j s3 h3
          rw [wp_pure]
          exact .inr ⟨j, _, rfl, h3⟩
        · rw [if_neg hname]
          exact ih s2 h2
  rw [dirlookup]
  refine wp_seq (h.quiet (quiet_copyOf i)) ?_
  intro d s1 h1
  rw [wp_ite]
  split
  · exact Panic.noConfusion
  · exact hloop _ s1 h1

theorem dirlink_refs (h : Since s₀ p H K s) (hfit : Fits full H 1) (name : Name) (inum : ℕ) :
    wp (dirlink sb p i name inum) (fun _ => Since s₀ p H K) (spare full) s := by
  rw [dirlink]
  refine wp_seq (dirlookup_refs h hfit name) ?_
  rintro r s1 (⟨rfl, h1⟩ | ⟨j, off, rfl, h1⟩)
  · have hrest : Quiet (do
        let d ← copyOf i
        let off ← emptyDirent sb i (entries d) 0
        let de : Dirent := ⟨BitVec.ofNat 16 inum, strncpy DIRSIZ name⟩
        let r ← writei sb i (fun i => some (de.toByte i)) off DESIZE
        pure (r = DESIZE) : Op Bool) :=
      Keeps.bind (quiet_copyOf i) (fun _ => Keeps.bind (quiet_emptyDirent i _ _) (fun _ =>
        Keeps.bind (quiet_writei i _ _ _) (fun _ => Keeps.pure _)))
    exact h1.quiet hrest
  · simp only [wp_bind]
    refine wp_imp (iput_refs h1 (fun hc => h.locked j hc)) ?_
    intro _ s2 h2
    rw [wp_pure]
    exact h2

/-- The result of a path lookup: no pointer, or one more. -/
def Looked (p : ℕ) (H : Multiset ℕ) (s : St) (r : Option (ℕ × Name)) (s' : St) : Prop :=
  Env s s' ∧ ((r = none ∧ Refs p s' H 0) ∨ ∃ j name, r = some (j, name) ∧ Refs p s' (j ::ₘ H) 0)

theorem namexLoop_refs (parent : Bool) (names : List Name) (h : Since s₀ p (i ::ₘ H) 0 s)
    (hfit : Fits full H 2) : wp (namexLoop sb p parent i names) (Looked p H s₀) (spare full) s := by
  have hnot : ∀ j, j ∈ (0 : Multiset ℕ) → j ∈ H := fun j hj => absurd hj (notMem_zero j)
  induction names generalizing i s with
  | nil =>
    rw [namexLoop]
    cases parent with
    | false => exact ⟨h.env, .inr ⟨i, [], rfl, h.toRefs⟩⟩
    | true =>
      rw [if_pos rfl]
      refine wp_seq (iput_refs h (hnot i)) ?_
      intro _ s1 h1
      exact ⟨h1.env, .inl ⟨rfl, h1.toRefs⟩⟩
  | cons name rest ih =>
    rw [namexLoop]
    refine wp_seq (ilock_refs h (mem_cons_self i H)) ?_
    intro _ s1 h1
    simp only [copyOf, wp_bind, wp_get, wp_pure]
    by_cases hdir : (s1.itable i).copy.type = T_DIR
    · rw [if_neg (not_not.mpr hdir)]
      by_cases hstop : parent = true ∧ rest = []
      · rw [if_pos hstop]
        refine wp_seq (iunlock_refs h1) ?_
        intro _ s2 h2
        exact ⟨h2.env, .inr ⟨i, name, rfl, h2.toRefs⟩⟩
      · rw [if_neg hstop]
        refine wp_seq (dirlookup_refs h1 (hfit.cons i) name) ?_
        rintro r s2 (⟨rfl, h2⟩ | ⟨j, off, rfl, h2⟩)
        · simp only [wp_bind]
          refine wp_imp (iunlockput_refs h2) ?_
          intro _ s3 h3
          exact ⟨h3.env, .inl ⟨rfl, h3.toRefs⟩⟩
        · rw [cons_swap] at h2
          simp only [wp_bind]
          refine wp_imp (iunlockput_refs h2) ?_
          intro _ s3 h3
          exact ih h3
    · rw [if_pos hdir]
      refine wp_seq (iunlockput_refs h1) ?_
      intro _ s2 h2
      exact ⟨h2.env, .inl ⟨rfl, h2.toRefs⟩⟩

/-- The current directory of a process is a pointer that is held. -/
theorem namex_refs (parent : Bool) (path : Path) (h : Since s₀ p H 0 s) (hfit : Fits full H 2)
    (hcwd : ∀ c, (s₀.proc p).cwd = some c → c ∈ H) :
    wp (namex sb p path parent) (Looked p H s₀) (spare full) s := by
  have hstart : wp (namexStart p path) (fun i => Since s₀ p (i ::ₘ H) 0) (spare full) s := by
    unfold namexStart
    by_cases hroot : path.chars.head? = some slash
    · rw [if_pos hroot]
      exact iget_refs h (hfit.mono (by omega)) _
    · rw [if_neg hroot, wp_bind, wp_get, h.env.2]
      cases hc : (s₀.proc p).cwd with
      | none => exact Panic.noConfusion
      | some c =>
        refine wp_imp (idup_refs h (hcwd c hc)) ?_
        rintro r s1 ⟨rfl, h1⟩
        exact h1
  rw [namex]
  refine wp_seq hstart ?_
  intro i s1 h1
  exact namexLoop_refs parent _ h1 hfit

theorem namei_refs (path : Path) (h : Since s₀ p H 0 s) (hfit : Fits full H 2)
    (hcwd : ∀ c, (s₀.proc p).cwd = some c → c ∈ H) :
    wp (namei sb p path) (fun r s' => (r = none ∧ Since s₀ p H 0 s') ∨
      ∃ j, r = some j ∧ Since s₀ p (j ::ₘ H) 0 s') (spare full) s := by
  rw [namei]
  refine wp_seq (namex_refs false path h hfit hcwd) ?_
  rintro r s1 ⟨henv1, ⟨rfl, h1⟩ | ⟨j, name, rfl, h1⟩⟩
  · exact .inl ⟨rfl, h1, henv1⟩
  · exact .inr ⟨j, rfl, h1, henv1⟩

end Paths

end Xv6.Fs
