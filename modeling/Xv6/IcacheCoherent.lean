import Xv6.IcacheInv

/-! Coherence of the inode table: a referenced entry that is valid and unlocked agrees with the
inode on disk, also while `iput` frees an inode number that another process can allocate again. -/
namespace Xv6.Icache

/-- No referenced entry is taken for another inode. -/
def SameInodes (s t : St) : Prop :=
  ∀ i, 0 < (s.itable i).ref →
    (t.itable i).dev = (s.itable i).dev ∧ (t.itable i).inum = (s.itable i).inum

section SameInodes

variable {s t : St} {p : ℕ}

theorem sameInodes_setInode {u : St} {i : ℕ} {x : Inode} (hu : u.itable = (s.setInode i x).itable)
    (hx : 0 < (s.itable i).ref → x.dev = (s.itable i).dev ∧ x.inum = (s.itable i).inum) :
    SameInodes s u := by
  intro j hj
  rw [hu]
  by_cases hji : j = i
  · subst hji
    rw [setInode_self]
    exact hx hj
  · rw [setInode_of_ne s x hji]
    exact ⟨rfl, rfl⟩

theorem sameInodes_iget (dev inum : ℕ) : SameInodes s (s.iget p dev inum) := by
  have hspec := scan_spec s.itable dev inum (List.range NINODE) none (fun _ hc => by cases hc)
  unfold St.iget
  cases hscan : scan s.itable dev inum (List.range NINODE) none with
  | hit i => exact sameInodes_setInode rfl (fun _ => ⟨rfl, rfl⟩)
  | empty i =>
    rw [hscan] at hspec
    refine sameInodes_setInode rfl (fun hpos => ?_)
    have hzero := hspec.2.1
    omega
  | full => exact fun _ _ => ⟨rfl, rfl⟩

theorem sameInodes_go {ninodes : ℕ} {pt : Pt} (hs : go ninodes s p pt = some t) :
    SameInodes s t := by
  cases pt with
  | run => cases hs
  | noInodes => cases hs
  | noType h => cases hs
  | wait h =>
    simp only [go] at hs
    split at hs
    · cases hs
    · split_ifs at hs
      cases hs
      exact sameInodes_setInode rfl (fun _ => ⟨rfl, rfl⟩)
  | load h =>
    simp only [go] at hs
    split at hs
    · cases hs
    · split_ifs at hs <;> cases hs
      · exact fun _ _ => ⟨rfl, rfl⟩
      · exact sameInodes_setInode rfl (fun _ => ⟨rfl, rfl⟩)
      · exact sameInodes_setInode rfl (fun _ => ⟨rfl, rfl⟩)
  | alloc dev type inum =>
    simp only [go] at hs
    split_ifs at hs <;> cases hs <;> exact fun _ _ => ⟨rfl, rfl⟩
  | allocGet dev inum =>
    cases hs
    exact sameInodes_iget dev inum
  | putTruncUpdate h | putUpdate h =>
    obtain ⟨i, -, rfl⟩ := Option.map_eq_some_iff.mp hs
    exact fun _ _ => ⟨rfl, rfl⟩
  | _ =>
    obtain ⟨i, -, rfl⟩ := Option.map_eq_some_iff.mp hs
    exact sameInodes_setInode rfl (fun _ => ⟨rfl, rfl⟩)

theorem sameInodes_call {N : ℕ} {a : Act} (hs : call N s p a = some t) : SameInodes s t := by
  cases a with
  | iget dev inum =>
    cases hs
    exact sameInodes_iget dev inum
  | ialloc dev type =>
    simp only [call] at hs
    split_ifs at hs
    cases hs
    exact fun _ _ => ⟨rfl, rfl⟩
  | ilock h =>
    simp only [call] at hs
    split_ifs at hs
    cases hs
    exact fun _ _ => ⟨rfl, rfl⟩
  | iupdate h =>
    simp only [call] at hs
    split at hs
    · cases hs
    · split_ifs at hs
      cases hs
      exact fun _ _ => ⟨rfl, rfl⟩
  | iunlock h =>
    simp only [call] at hs
    split at hs
    · split_ifs at hs
      cases hs
      exact sameInodes_setInode rfl (fun _ => ⟨rfl, rfl⟩)
    · cases hs
  | go => cases hs
  | _ =>
    simp only [call] at hs
    split at hs
    · cases hs
    · split_ifs at hs <;> cases hs <;> exact sameInodes_setInode rfl (fun _ => ⟨rfl, rfl⟩)

theorem sameInodes_step {N ninodes : ℕ} {e : ℕ × Act} (hs : step N ninodes s e = some t) :
    SameInodes s t := by
  simp only [step] at hs
  split_ifs at hs
  split at hs
  · exact sameInodes_call hs
  · exact sameInodes_go hs
  · cases hs

end SameInodes

/-- The step does not give up the last reference to an inode that stays valid: `iput` frees the
inode, or it is not valid. -/
def LeavesInvalid (s : St) (e : ℕ × Act) : Prop :=
  ∀ k i, s.ptr k = some i → (s.itable i).ref = 1 → (s.itable i).valid = true →
    ((s.proc e.1).pt = .run → e.2 = .iput k → (s.itable i).copy.nlink = 0) ∧
      (s.proc e.1).pt ≠ .putDrop k

/-- Only referenced entries are valid. -/
def ValidReferenced (s : St) : Prop := ∀ i, (s.itable i).valid = true → 0 < (s.itable i).ref

section ValidReferenced

variable {N ninodes : ℕ} {s t : St} {p : ℕ}

theorem validReferenced_setInode {u : St} {i : ℕ} {x : Inode} (h : ValidReferenced s)
    (hu : u.itable = (s.setInode i x).itable) (hx : x.valid = true → 0 < x.ref) :
    ValidReferenced u := by
  intro j hj
  rw [hu] at hj ⊢
  by_cases hji : j = i
  · subst hji
    rw [setInode_self] at hj ⊢
    exact hx hj
  · rw [setInode_of_ne s x hji] at hj ⊢
    exact h j hj

theorem validReferenced_iget (h : ValidReferenced s) (dev inum : ℕ) :
    ValidReferenced (s.iget p dev inum) := by
  unfold St.iget
  split
  · exact validReferenced_setInode h rfl (fun _ => Nat.succ_pos _)
  · exact validReferenced_setInode h rfl (fun hv => by cases hv)
  · exact h

theorem validReferenced_drop {k i : ℕ} (hinv : Inv s) (h : ValidReferenced s)
    (hi : s.ptr k = some i) (hlast : (s.itable i).ref = 1 → (s.itable i).valid = false)
    (u : St) (hu : u.itable = (s.drop k i).itable) : ValidReferenced u := by
  refine validReferenced_setInode h hu (fun hv => ?_)
  have hpos := hinv.ref_pos hi
  change (s.itable i).valid = true at hv
  change 0 < (s.itable i).ref - 1
  by_contra hzero
  rw [hlast (by omega)] at hv
  cases hv

theorem validReferenced_go {pt : Pt} (hinv : Inv s) (h : ValidReferenced s)
    (hdrop : ∀ k i, pt = .putDrop k → s.ptr k = some i → (s.itable i).ref = 1 →
      (s.itable i).valid = false)
    (hs : go ninodes s p pt = some t) : ValidReferenced t := by
  cases pt with
  | run => cases hs
  | noInodes => cases hs
  | noType k => cases hs
  | wait k =>
    simp only [go] at hs
    split at hs
    · cases hs
    · rename_i i _
      split_ifs at hs
      cases hs
      exact validReferenced_setInode h rfl (h i)
  | load k =>
    simp only [go] at hs
    split at hs
    · cases hs
    · rename_i i hi
      split_ifs at hs <;> cases hs
      · exact h
      · exact validReferenced_setInode h rfl (fun _ => hinv.ref_pos hi)
      · exact validReferenced_setInode h rfl (fun _ => hinv.ref_pos hi)
  | alloc dev type inum =>
    simp only [go] at hs
    split_ifs at hs <;> cases hs <;> exact h
  | allocGet dev inum =>
    cases hs
    exact validReferenced_iget h dev inum
  | putTruncUpdate k | putUpdate k =>
    obtain ⟨i, -, rfl⟩ := Option.map_eq_some_iff.mp hs
    exact h
  | putInvalid k =>
    obtain ⟨i, -, rfl⟩ := Option.map_eq_some_iff.mp hs
    exact validReferenced_setInode h rfl (fun hv => by cases hv)
  | putDrop k =>
    obtain ⟨i, hi, rfl⟩ := Option.map_eq_some_iff.mp hs
    exact validReferenced_drop hinv h hi (hdrop k i rfl hi) _ rfl
  | putTrunc k | putType k | putUnlock k =>
    obtain ⟨i, -, rfl⟩ := Option.map_eq_some_iff.mp hs
    exact validReferenced_setInode h rfl (h i)

theorem validReferenced_call {a : Act} (hinv : Inv s) (h : ValidReferenced s)
    (hput : ∀ k i, a = .iput k → s.ptr k = some i → (s.itable i).ref = 1 →
      (s.itable i).valid = true → (s.itable i).copy.nlink = 0)
    (hs : call N s p a = some t) : ValidReferenced t := by
  cases a with
  | iget dev inum =>
    cases hs
    exact validReferenced_iget h dev inum
  | ialloc dev type =>
    simp only [call] at hs
    split_ifs at hs
    cases hs
    exact h
  | ilock k =>
    simp only [call] at hs
    split_ifs at hs
    cases hs
    exact h
  | idup k =>
    simp only [call] at hs
    split at hs
    · cases hs
    · split_ifs at hs
      cases hs
      exact validReferenced_setInode h rfl (fun _ => Nat.succ_pos _)
  | modify k d =>
    simp only [call] at hs
    split at hs
    · cases hs
    · rename_i i _
      split_ifs at hs
      cases hs
      exact validReferenced_setInode h rfl (h i)
  | iupdate k =>
    simp only [call] at hs
    split at hs
    · cases hs
    · split_ifs at hs
      cases hs
      exact h
  | iunlock k =>
    simp only [call] at hs
    split at hs
    · rename_i i _ _ _
      split_ifs at hs
      cases hs
      exact validReferenced_setInode h rfl (h i)
    · cases hs
  | iput k =>
    simp only [call] at hs
    split at hs
    · cases hs
    · rename_i i hi
      split_ifs at hs with _ hfree
      · cases hs
        exact validReferenced_setInode h rfl (h i)
      · cases hs
        refine validReferenced_drop hinv h hi (fun hone => ?_) _ rfl
        by_contra hv
        have hvalid : (s.itable i).valid = true := by simpa using hv
        exact hfree ⟨hone, hvalid, hput k i rfl hi hone hvalid⟩
  | go => cases hs

theorem validReferenced_step {e : ℕ × Act} (hinv : Inv s) (h : ValidReferenced s)
    (hcond : LeavesInvalid s e) (hs : step N ninodes s e = some t) : ValidReferenced t := by
  obtain ⟨p, a⟩ := e
  simp only [step] at hs
  split_ifs at hs
  split at hs
  · rename_i hrun
    refine validReferenced_call hinv h (fun k i ha hi hone hv => ?_) hs
    exact (hcond k i hi hone hv).1 hrun ha
  · refine validReferenced_go hinv h (fun k i hpt hi hone => ?_) hs
    by_contra hv
    exact (hcond k i hi hone (by simpa using hv)).2 hpt
  · cases hs

end ValidReferenced

/-- Over every run: a referenced inode has one entry; a referenced entry is not taken for another
inode; a referenced entry that is unlocked and valid agrees with the disk; and what `ilock`
returns is what the disk has then, whoever freed or allocated the inode before. If no `iput`
gives up the last reference to an inode that stays valid, the third holds of every entry. -/
theorem inode_table_coherent {N ninodes : ℕ} {dinode : ℕ → ℕ → Dinode} {es : List (ℕ × Act)}
    {s : St} (h : exec (step N ninodes) (init dinode) es = some s) :
    (∀ i j, 0 < (s.itable i).ref → 0 < (s.itable j).ref → (s.itable i).dev = (s.itable j).dev →
      (s.itable i).inum = (s.itable j).inum → i = j) ∧
    (∀ e t, step N ninodes s e = some t → ∀ i, 0 < (s.itable i).ref →
      (t.itable i).dev = (s.itable i).dev ∧ (t.itable i).inum = (s.itable i).inum) ∧
    (∀ i, 0 < (s.itable i).ref → (s.itable i).lock = none → (s.itable i).valid = true →
      (s.itable i).copy = s.dinode (s.itable i).dev (s.itable i).inum) ∧
    (∀ p k i t, (s.proc p).pt = .load k → s.ptr k = some i → step N ninodes s (p, .go) = some t →
      (t.proc p).pt = .run → (t.itable i).valid = true ∧
        (t.itable i).copy = s.dinode (s.itable i).dev (s.itable i).inum) ∧
    (Along (step N ninodes) LeavesInvalid (init dinode) es →
      ∀ i, (s.itable i).lock = none → (s.itable i).valid = true →
        (s.itable i).copy = s.dinode (s.itable i).dev (s.itable i).inum) := by
  have hreach : Reach N s :=
    exec_invariant (fun _ _ _ hs hr => Reach.step hr hs) h (reach_init N dinode)
  refine ⟨hreach.inv.unique, fun e t hs => sameInodes_step hs, fun i hpos hfree hv =>
    (hreach.inv.clean i hpos hfree hv).1, ?_, ?_⟩
  · intro p k i t hpt hi hs hrun
    have hok := hreach.inv.pt p
    simp only [step, hpt] at hs
    rw [hpt] at hok
    split_ifs at hs
    simp only [go, hi] at hs
    split_ifs at hs with hv hzero <;> cases hs
    · exact ⟨hv, (hok i hi hv).1⟩
    · rw [show ((s.setInode i _).setPt p (.noType k)).proc p = ⟨.noType k, (s.proc p).held⟩ from
        update_self ..] at hrun
      cases hrun
    · change ((s.setInode i _).itable i).valid = true ∧ ((s.setInode i _).itable i).copy = _
      rw [setInode_self]
      exact ⟨rfl, rfl⟩
  · intro hcond i hfree hv
    have hboth : Reach N s ∧ ValidReferenced s :=
      exec_invariant_along (P := fun u => Reach N u ∧ ValidReferenced u)
        (fun _ _ _ hc hs hr => ⟨hr.1.step hs, validReferenced_step hr.1.inv hr.2 hc hs⟩) hcond h
        ⟨reach_init N dinode, fun i hv => by cases hv⟩
    exact (hreach.inv.clean i (hboth.2 i hv) hfree hv).1

/-- Process 0 frees inode 1 in `iput`; before it marks the entry invalid, process 1 allocates
the inode again and waits for its lock. -/
def reallocRun : List (ℕ × Act) :=
  [(0, .iget 1 1), (0, .ilock 0), (0, .go), (0, .go), (0, .iunlock 0), (0, .iput 0), (0, .go),
    (0, .go), (0, .go), (0, .go), (1, .ialloc 1 3), (1, .go), (1, .go), (1, .ilock 1), (0, .go),
    (0, .go), (1, .go), (0, .go)]

/-- Process `p` is inside `ilock` with the lock of the inode that `k` is to. -/
def St.loading (s : St) (p k : ℕ) : Bool :=
  match (s.proc p).pt with
  | .load j => j = k
  | _ => false

theorem inode_table_coherent_realloc :
    ∃ s, exec (step 2 3) (init fun _ _ => { Dinode.zero with type := 2 }) reallocRun = some s ∧
      s.loading 1 1 = true ∧ ∀ t, step 2 3 s (1, .go) = some t → (t.proc 1).pt = .run →
        (t.itable 0).copy.type = 3 := by
  have hrun : (exec (step 2 3) (init fun _ _ => { Dinode.zero with type := 2 }) reallocRun).any
      (fun s => s.loading 1 1 && s.ptr 1 == some 0 &&
        (s.dinode (s.itable 0).dev (s.itable 0).inum).type == 3) = true := by decide +kernel
  obtain ⟨s, hs, hcheck⟩ := (Option.any_eq_true _ _).mp hrun
  simp only [Bool.and_eq_true, beq_iff_eq] at hcheck
  obtain ⟨⟨hload, hptr⟩, htype⟩ := hcheck
  refine ⟨s, hs, hload, fun t ht hrun => ?_⟩
  have hpt : (s.proc 1).pt = .load 1 := by
    simp only [St.loading] at hload
    split at hload
    · rename_i k hk
      rw [hk, of_decide_eq_true hload]
    · cases hload
  rw [((inode_table_coherent hs).2.2.2.1 1 1 0 t hpt hptr ht hrun).2, htype]

/-- Inode 7 is read into entry 1, given up, read into entry 0 and changed there. -/
def staleRun : List (ℕ × Act) :=
  [(0, .iget 1 5), (0, .iget 1 7), (0, .ilock 1), (0, .go), (0, .go), (0, .iunlock 1),
    (0, .iput 1), (0, .iput 0), (0, .iget 1 7), (0, .ilock 2), (0, .go), (0, .go),
    (0, .modify 2 { Dinode.zero with type := 2, nlink := 1, size := 9 }), (0, .iupdate 2),
    (0, .iunlock 2)]

/-- An entry that nobody refers to stays valid, and does not follow the disk. -/
theorem free_entry_goes_stale :
    ∃ s, exec (step 1 20) (init fun _ _ => { Dinode.zero with type := 2, nlink := 1 }) staleRun =
        some s ∧
      (s.itable 1).lock = none ∧ (s.itable 1).valid = true ∧
      (s.itable 1).copy ≠ s.dinode (s.itable 1).dev (s.itable 1).inum := by
  have hrun : (exec (step 1 20) (init fun _ _ => { Dinode.zero with type := 2, nlink := 1 })
      staleRun).any (fun s => (s.itable 1).lock == none && (s.itable 1).valid &&
        (s.itable 1).copy.size != (s.dinode (s.itable 1).dev (s.itable 1).inum).size) = true := by
    decide +kernel
  obtain ⟨s, hs, hcheck⟩ := (Option.any_eq_true _ _).mp hrun
  simp only [Bool.and_eq_true, beq_iff_eq, bne_iff_ne] at hcheck
  exact ⟨s, hs, hcheck.1.1, hcheck.1.2, fun heq => hcheck.2 (congrArg Dinode.size heq)⟩

end Xv6.Icache
