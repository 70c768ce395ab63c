import Xv6.MkfsBuild

/-! What mkfs does not check: the number of inodes, and a root directory that ends with a block. -/
namespace Xv6.Mkfs

open Icache (Dinode NDIRECT)
open Fs (BPB IPB NINDIRECT MAXFILE DESIZE ROOTINO T_DIR T_FILE addr dinode bit slot blockSlot HoleFree)

section Inodes

/-- No inode is handed out. -/
def SameInodes (s s' : St) : Prop := s'.inodes = s.inodes ∧ s'.freeinode = s.freeinode

instance : IsPreorder St SameInodes where
  refl _ := ⟨rfl, rfl⟩
  trans _ _ _ h h' := ⟨h'.1.trans h.1, h'.2.trans h.2⟩

abbrev Silent {α : Type} (m : Mk α) : Prop := Keeps SameInodes (fun _ => True) m

theorem silent_modify {g : St → St} (h : ∀ s, SameInodes s (g s)) : Silent (modify g) := Keeps.modify h

theorem silent_wsect (sec : ℕ) (buf : Block) : Silent (wsect sec buf) :=
  silent_modify (fun _ => ⟨rfl, rfl⟩)

theorem silent_rsect (sec : ℕ) : Silent (rsect sec) :=
  Keeps.bind Keeps.get (fun _ => Keeps.ite (Keeps.pure _) (Keeps.throw trivial))

theorem silent_rinode (inum : ℕ) : Silent (rinode inum) :=
  Keeps.bind (silent_rsect _) (fun _ => Keeps.pure _)

theorem silent_winode (inum : ℕ) (din : Dinode) : Silent (winode inum din) :=
  Keeps.bind (silent_rsect _) (fun _ => Keeps.bind (silent_wsect _ _) (fun _ =>
    silent_modify (fun _ => ⟨rfl, rfl⟩)))

theorem silent_wdata (sec : ℕ) (buf : Block) : Silent (wdata sec buf) :=
  Keeps.bind (silent_wsect _ _) (fun _ => silent_modify (fun _ => ⟨rfl, rfl⟩))

theorem silent_takeBlock : Silent takeBlock := fun _ => ⟨rfl, rfl⟩

theorem silent_addrBlock (din : Dinode) (k : ℕ) : Silent (addrBlock din k) :=
  Keeps.ite (Keeps.bind silent_takeBlock (fun _ => Keeps.pure _)) (Keeps.pure _)

theorem silent_entryBlock (ind j : ℕ) : Silent (entryBlock ind j) := by
  refine Keeps.bind (silent_rsect ind) (fun buf => Keeps.ite ?_ (Keeps.pure _))
  exact Keeps.bind silent_takeBlock (fun b => Keeps.bind (silent_wdata _ _) (fun _ => Keeps.pure b))

theorem silent_fileBlock (din : Dinode) (fbn : ℕ) : Silent (fileBlock din fbn) := by
  apply Keeps.ite (silent_addrBlock din fbn)
  exact Keeps.bind (silent_addrBlock din NDIRECT) (fun r => Keeps.bind (silent_entryBlock _ _) (fun x =>
    Keeps.pure _))

theorem silent_appendLoop (fuel : ℕ) (din : Dinode) (off : ℕ) (p : List (BitVec 8)) :
    Silent (appendLoop fuel din off p) := by
  induction fuel generalizing din off p with
  | zero => exact Keeps.pure _
  | succ fuel ih =>
    refine Keeps.ite (Keeps.pure _) (Keeps.ite ?_ (Keeps.throw trivial))
    refine Keeps.bind (silent_fileBlock din _) (fun r => Keeps.bind (silent_rsect r.2) (fun buf => ?_))
    exact Keeps.bind (silent_wdata r.2 _) (fun _ => ih r.1 _ _)

theorem silent_iappend (inum : ℕ) (p : List (BitVec 8)) : Silent (iappend inum p) :=
  Keeps.bind (silent_rinode inum) (fun din => Keeps.bind (silent_appendLoop _ din _ _) (fun _ =>
    silent_winode inum _))

theorem silent_appendAll (inum : ℕ) (cs : List (List (BitVec 8))) : Silent (appendAll inum cs) := by
  induction cs with
  | nil => exact Keeps.pure ()
  | cons c cs ih => exact Keeps.bind (silent_iappend inum c) (fun _ => ih)

theorem silent_fixRoot (rootino : ℕ) : Silent (fixRoot rootino) :=
  Keeps.bind (silent_rinode rootino) (fun _ => silent_winode rootino _)

theorem silent_balloc (used : ℕ) : Silent (balloc used) :=
  Keeps.ite (silent_wsect _ _) (Keeps.throw trivial)

/-- The inodes 1 to `k` have been handed out. -/
def Numbered (k : ℕ) (s : St) : Prop := s.inodes = List.range' 1 k ∧ s.freeinode = k + 1

theorem Silent.numbered {α : Type} {m : Mk α} (hm : Silent m) {k : ℕ} {s : St} (h : Numbered k s) :
    wp m (fun _ s' => Numbered k s') (fun _ _ => True) s :=
  wp_imp (hm s) (fun _ _ h' => ⟨h'.1.trans h.1, h'.2.trans h.2⟩)

theorem ialloc_numbered (t : BitVec 16) {k : ℕ} {s : St} (h : Numbered k s) :
    wp (ialloc t) (fun _ s' => Numbered (k + 1) s') (fun _ _ => True) s := by
  simp only [ialloc, wp_bind, wp_get, wp_set]
  have hnext : Numbered (k + 1) { s with freeinode := s.freeinode + 1, inodes := s.inodes ++ [s.freeinode] } := by
    refine ⟨?_, congrArg (· + 1) h.2⟩
    change s.inodes ++ [s.freeinode] = List.range' 1 (k + 1)
    rw [h.1, h.2, List.range'_concat, Nat.one_mul, Nat.add_comm 1 k]
  exact (silent_winode _ _).numbered hnext

theorem addFile_numbered (rootino : ℕ) (f : Input) {k : ℕ} {s : St} (h : Numbered k s) :
    wp (addFile rootino f) (fun _ s' => Numbered (k + 1) s') (fun _ _ => True) s := by
  unfold addFile
  split
  · trivial
  · split
    · trivial
    · rename_i cs hcs
      split
      · refine wp_seq (ialloc_numbered T_FILE h) ?_
        intro inum s1 h1
        exact Silent.numbered (Keeps.bind (silent_iappend rootino _) (fun _ => silent_appendAll inum cs)) h1
      · trivial

theorem addFiles_numbered (rootino : ℕ) (fs : List Input) {k : ℕ} {s : St} (h : Numbered k s) :
    wp (addFiles rootino fs) (fun _ s' => Numbered (k + fs.length) s') (fun _ _ => True) s := by
  induction fs generalizing k s with
  | nil => exact h
  | cons f fs ih =>
    rw [addFiles]
    refine wp_seq (addFile_numbered rootino f h) ?_
    intro _ s1 h1
    rw [List.length_cons, Nat.add_comm fs.length, ← Nat.add_assoc]
    exact ih h1

/-- However many files there are, each of them and the root directory get the next inode. -/
theorem main_numbered (fs : List Input) :
    wp (main fs) (fun _ s => Numbered (fs.length + 1) s) (fun _ _ => True) start := by
  rw [main, wp_bind, wp_modify, wp_bind]
  apply wp_zeroes FSSIZE
  rw [wp_bind, wsect, wp_modify, wp_bind]
  set s0 : St := ⟨update blank 1 superblock, max (0 + FSSIZE) (1 + 1), 1, nmeta, [], [], [], []⟩
  have h0 : Numbered 0 s0 := ⟨rfl, rfl⟩
  change wp (ialloc T_DIR) _ _ s0
  clear_value s0
  refine wp_imp (ialloc_numbered T_DIR h0) ?_
  intro rootino s1 h1
  split
  · trivial
  · refine wp_seq ((silent_iappend rootino _).numbered h1) ?_
    intro _ s2 h2
    refine wp_seq ((silent_iappend rootino _).numbered h2) ?_
    intro _ s3 h3
    refine wp_seq (addFiles_numbered rootino fs h3) ?_
    intro _ s4 h4
    rw [Nat.add_comm fs.length]
    exact Silent.numbered (Keeps.bind (silent_fixRoot rootino) (fun _ => Keeps.bind Keeps.get (fun _ =>
      silent_balloc _))) h4

end Inodes

section Accepted

/-- Everything mkfs hands out and writes is within the bounds of its superblock. -/
structure Respects (s : St) : Prop where
  inodes : ∀ n ∈ s.inodes, n < sb.ninodes
  blocks : ∀ b ∈ s.blocks, b < sb.size
  inodeWrites : ∀ b ∈ s.inodeWrites, sb.inodestart ≤ b ∧ b < sb.bmapstart
  dataWrites : ∀ b ∈ s.dataWrites, nmeta ≤ b ∧ b < FSSIZE

variable {fs : List Input} {s : St} {N : ℕ}

theorem made_of_main (h : main fs start = .ok () s) (hN : N ≤ 208) (hm : fs.length + 2 ≤ N) :
    (∀ f ∈ fs, f.Valid) ∧ Made N fs s := by
  have hspec := main_spec (F := False) hN fs hm (fun hf => hf.elim)
  have hmade := ok_of_wp hspec h
  exact hmade

theorem main_returns (hN : N ≤ 208) (hm : fs.length + 2 ≤ N)
    (hfs : ∀ f ∈ fs, f.Valid ∧ f.contents.length ≤ MAXFILE * BSIZE)
    (hfit : nmeta + dataBlocks fs ≤ FSSIZE) : ∃ s, main fs start = .ok () s ∧ Made N fs s := by
  have hspec := main_spec (F := True) hN fs hm (fun _ => ⟨hfs, hfit⟩)
  obtain ⟨⟨⟩, s, hs, -, hmade⟩ := returns_of_wp (wp_mono hspec (fun _ _ h => h) (fun _ _ h => h trivial))
  exact ⟨s, hs, hmade⟩

/-- There is no check of the number of inodes, so mkfs keeps to its superblock exactly when the
files and the root directory have numbers below `ninodes`. -/
theorem respects_superblock_iff (h : main fs start = .ok () s) : Respects s ↔ fs.length + 1 < NINODES := by
  constructor
  · intro hr
    have hlast : fs.length + 1 ∈ s.inodes := by
      rw [(ok_of_wp (main_numbered fs) h).1, List.mem_range'_1]
      omega
    exact hr.inodes _ hlast
  · intro hlt
    obtain ⟨-, hmade⟩ := made_of_main h (N := NINODES) (by decide) hlt
    refine ⟨?_, ?_, hmade.inodeWrites, hmade.dataWrites⟩
    · intro n hn
      rw [hmade.inodes, List.mem_range'_1] at hn
      change n < NINODES
      omega
    · intro b hb
      exact lt_of_lt_of_le (hmade.taken b hb) hmade.le

def emptyFile : Input where
  arg := [97]
  noNul := by decide
  reads := some []
  reads_le := by
    intro cs hcs c hc
    cases hcs
    exact absurd hc List.not_mem_nil

theorem emptyFile_valid : emptyFile.Valid := ⟨by decide, by decide, by decide⟩

/-- mkfs accepts any number of empty files whose inodes are in the blocks for inodes. -/
theorem emptyFiles_accepted {k : ℕ} (hk : k ≤ 206) :
    ∃ s, main (List.replicate k emptyFile) start = .ok () s ∧ Made 208 (List.replicate k emptyFile) s := by
  apply main_returns (le_refl 208)
  · rw [List.length_replicate]
    omega
  · intro f hf
    rw [List.eq_of_mem_replicate hf]
    exact ⟨emptyFile_valid, by decide⟩
  · have hzero : need emptyFile.contents.length = 0 := by decide
    have hroot : need (DESIZE * (k + 2)) ≤ need (DESIZE * 208) := need_mono (Nat.mul_le_mul_left _ (by omega))
    have hroom : nmeta + need (DESIZE * 208) ≤ FSSIZE := by decide
    rw [dataBlocks, List.length_replicate, List.map_replicate, hzero, List.sum_replicate, smul_zero, add_zero]
    omega

theorem no_file_respects : ∃ s, main [] start = .ok () s ∧ Respects s := by
  obtain ⟨s, hs, -⟩ := emptyFiles_accepted (k := 0) (by decide)
  exact ⟨s, hs, (respects_superblock_iff hs).mpr (by decide)⟩

/-- With 199 files mkfs hands out the inode 200, which the superblock does not have. -/
theorem inode_200_handed_out : ∃ s, main (List.replicate 199 emptyFile) start = .ok () s ∧
    200 ∈ s.inodes ∧ ¬ 200 < sb.ninodes := by
  obtain ⟨s, hs, hmade⟩ := emptyFiles_accepted (k := 199) (by decide)
  refine ⟨s, hs, ?_, by decide⟩
  rw [hmade.inodes, List.length_replicate, List.mem_range'_1]
  omega

end Accepted

section Root

variable {fs : List Input} {s : St}

theorem rootSize_le {k : ℕ} (hk : k ≤ 208) : (DESIZE * k / BSIZE + 1) * BSIZE ≤ MAXFILE * BSIZE := by
  have hd : DESIZE = 16 := rfl
  have hb : BSIZE = 1024 := rfl
  have hm : MAXFILE = 268 := rfl
  rw [hd, hb, hm]
  omega

theorem made_holeFree_iff {N : ℕ} (h : Made N fs s) (hle : fs.length + 2 ≤ 208) :
    HoleFree s.img (dinode sb s.img ROOTINO) ↔ (fs.length + 2) % 64 ≠ 0 := by
  have hd : DESIZE = 16 := rfl
  have hb : BSIZE = 1024 := rfl
  have hsize : (dinode sb s.img ROOTINO).size.toNat = rootSize fs := h.rootSize
  have hslots (bn : ℕ) : slot s.img (dinode sb s.img ROOTINO) (blockSlot bn) ≠ 0 ↔
      bn * BSIZE < DESIZE * (fs.length + 2) := h.rootSlots bn
  rw [HoleFree, hsize, rootSize]
  constructor
  · intro hfull
    -- the last block below the size
    have hlast := (hslots _).mp (hfull.2 (DESIZE * (fs.length + 2) / BSIZE) (by rw [hd, hb]; omega))
    rw [hd, hb] at hlast
    omega
  · intro hmod
    refine ⟨rootSize_le hle, fun bn hbn => (hslots bn).mpr ?_⟩
    rw [hd, hb] at hbn ⊢
    omega

end Root

end Xv6.Mkfs
