import Xv6.MkfsKernel

/-! The contents of a file as a string of bytes: what `readi` returns after `writei` (kernel/fs.c),
inside a transaction. Only a write of too many blocks panics, in `log_write`. -/
namespace Xv6.Fs

section Contents

/-- No inode has a hole, and only a transaction that is too big panics. -/
def fileMode : Mode := ⟨False, ∅, fun e => e = .tooBig⟩

/-- Inside a transaction the process `p` has locked the inode `n`, which is the entry `i` of the
table, on a disk whose blocks are consistent. -/
structure Editing (sb : Superblock) (p : ℕ) (s : St) (L : ℕ → Dinode) (D : Set ℕ) (H K : Multiset (ℕ × ℕ))
    (i n : ℕ) : Prop where
  ok : Ok fileMode sb p s.disk s.itable L D H K
  locked : (i, n) ∈ K
  outstanding : s.outstanding = 1
  nodup : s.lh.Nodup

/-- What `readi` returns of a file: its bytes from `off` to `off + len` or to its end, if that is
first; none if `off` is behind the end or `off + len` does not fit 32 bits. -/
def Node.read (x : Node) (off len : ℕ) : ℤ × List Byte :=
  (readCount x.size off len, (List.range (readCount x.size off len)).map (fun j => x.byte (off + j)))

variable {sb : Superblock} {p : ℕ} {s : St} {L : ℕ → Dinode} {D : Set ℕ} {H K : Multiset (ℕ × ℕ)} {i n : ℕ}

namespace Editing

section

variable (h : Editing sb p s L D H K i n)
include h

theorem logged : Logged fileMode sb s ∅ ∅ :=
  ⟨h.outstanding, h.nodup, fun _ => rfl, fun hc => hc.elim, fun hc => hc.elim, fun hc => hc.elim⟩

theorem readi_eq (off len : ℕ) :
    readi sb i (fun _ => true) off len s = .ok ((nodes sb s.disk L n).read off len) s := by
  have hread := returns_of_wp (m := readi sb i (fun _ => true) off len)
    (readi_spec h.ok h.locked (Set.notMem_empty n))
  obtain ⟨r, s', hr, rfl, rfl⟩ := hread
  rw [hr, readResult_all]
  rfl

theorem size_eq : (nodes sb s.disk L n).size = (L n).size.toNat := by
  rw [nodes_of_used (h.ok.used_of_locked h.locked)]
  rfl

/-- What `writei` does with a source of which any part may be unreadable. -/
theorem writei_effect (src : ℕ → Option Byte) (off len : ℕ) :
    wp (writei sb i src off len) (fun r s' =>
      (r = -1 ∧ s' = s ∧ Refused (nodes sb s.disk L n).size off len) ∨
      ∃ (tot w : ℕ) (L' : ℕ → Dinode), r = tot ∧ Stored off len src tot w ∧
        Editing sb p s' L' D H K i n ∧
        nodes sb s'.disk L' =
          update (nodes sb s.disk L) n ((nodes sb s.disk L n).written off w tot src) ∧
        Short sb s.disk s'.disk (L n) src off len tot w ∧
        (off + tot) / BSIZE < off / BSIZE + LOGBLOCKS) (fun e _ => e = .tooBig) s := by
  refine wp_mono (writei_spec h.ok h.locked h.logged (fun hc => hc.elim)) ?_ (fun _ _ he => he.1)
  rw [h.size_eq]
  rintro r s' (hr | ⟨tot, w, L', W', hr, hst, -, hok, hnodes, -, -, hl, -, hshort, hcount⟩)
  · exact .inl hr
  · exact .inr ⟨tot, w, L', hr, hst, ⟨hok, h.locked, hl.outstanding, hl.nodup⟩, hnodes, hshort, hcount⟩

theorem present {o : ℕ} (ho : o < (nodes sb s.disk L n).size) :
    slot s.disk (L n) (blockSlot (o / BSIZE)) ≠ 0 := by
  rw [h.size_eq] at ho
  have hfull := h.ok.blocks.full n (h.ok.used_of_locked h.locked) (Set.notMem_empty n)
  exact hfull.2 _ (lt_of_le_of_lt (Nat.div_mul_le_self o BSIZE) ho)

end

end Editing

end Contents

section Largest

open Mkfs (Input main start booted view)

/-- The largest file, all zeros. -/
def largestFile : Input where
  arg := [98]
  noNul := by decide
  reads := some (List.replicate MAXFILE (List.replicate BSIZE 0))
  reads_le := by
    intro cs hcs c hc
    rw [← Option.some.inj hcs] at hc
    rw [List.eq_of_mem_replicate hc]
    exact ⟨by decide, by rw [List.length_replicate]⟩

theorem contents_largestFile : largestFile.contents = List.replicate (MAXFILE * BSIZE) 0 := by
  change (List.replicate MAXFILE (List.replicate BSIZE (0 : BitVec 8))).flatten = _
  rw [List.flatten_replicate_replicate]

theorem largestFile_made : ∃ s, Mkfs.Made 200 [largestFile] s := by
  have hlen : largestFile.contents.length = MAXFILE * BSIZE := by
    rw [contents_largestFile, List.length_replicate]
  have hvalid : ∀ f ∈ [largestFile], f.Valid ∧ f.contents.length ≤ MAXFILE * BSIZE := by
    intro f hf
    rw [List.mem_singleton.mp hf]
    exact ⟨⟨by decide, by decide, by decide⟩, le_of_eq hlen⟩
  have hfit : Mkfs.nmeta + Mkfs.dataBlocks [largestFile] ≤ Mkfs.FSSIZE := by
    rw [Mkfs.dataBlocks, List.map_singleton, List.sum_singleton, hlen]
    decide
  obtain ⟨s, -, hs⟩ := Mkfs.main_returns (N := 200) (by decide) (by decide) hvalid hfit
  exact ⟨s, hs⟩

/-- The first process has opened the file in inode 2, and a transaction has begun. -/
def opened (img : Disk) : St :=
  { booted img 1 none ⟨ROOTDEV, 2, 1, some 0, true, dinode Mkfs.sb img 2⟩ with outstanding := 1 }

theorem opened_editing {s : Mkfs.St} (h : Mkfs.Made 200 [largestFile] s) :
    Editing Mkfs.sb 0 (opened s.img) (dinode Mkfs.sb s.img) ∅ {(0, 1), (1, 2)} {(1, 2)} 1 2 := by
  have hroot : (dinode Mkfs.sb s.img 1).type = T_DIR := h.rootType
  have hfile : (dinode Mkfs.sb s.img 2).type = T_FILE := (h.files 0 largestFile rfl).fields.1
  have hblocks : Blocks Mkfs.sb ∅ s.img (dinode Mkfs.sb s.img) := by
    refine { h.blocks with full := fun m hm _ => ?_ }
    by_cases hm1 : m = ROOTINO
    · rw [hm1]
      exact (Mkfs.made_holeFree_iff h (by decide)).mpr (by decide)
    · exact h.blocks.full m hm hm1
  have hmem (j m : ℕ) (hj : (j, m) ∈ ({(0, 1), (1, 2)} : Multiset (ℕ × ℕ))) : (j = 0 ∧ m = 1) ∨ (j = 1 ∧ m = 2) := by
    simpa using hj
  refine ⟨⟨Mkfs.view_wellFormed (N := 200) (by decide), hblocks, fun m _ => .inl rfl, ?_, ?_, ?_, ?_, ?_, ?_, ?_⟩,
    Multiset.mem_singleton_self _, rfl, List.nodup_nil⟩
  · intro j _
    change (Mkfs.table s.img 1 none _ j).ref = Multiset.count j {0, 1}
    rw [Mkfs.table]
    split_ifs with h0 h1
    · rw [h0]
      rfl
    · rw [h1]
      rfl
    · rw [Multiset.count_eq_zero_of_notMem]
      · rfl
      · simpa using ⟨h0, h1⟩
  · intro j m hj
    rcases hmem j m hj with ⟨rfl, rfl⟩ | ⟨rfl, rfl⟩
    · exact ⟨by decide, by decide, rfl, rfl⟩
    · exact ⟨by decide, by decide, rfl, rfl⟩
  · intro j k m hj hk
    rcases hmem j m hj with ⟨rfl, rfl⟩ | ⟨rfl, rfl⟩
    · rcases hmem k 1 hk with ⟨rfl, -⟩ | ⟨-, hc⟩
      · rfl
      · cases hc
    · rcases hmem k 2 hk with ⟨-, hc⟩ | ⟨rfl, -⟩
      · cases hc
      · rfl
  · intro j
    change (Mkfs.table s.img 1 none _ j).lock = if j ∈ ({1} : Multiset ℕ) then some 0 else none
    by_cases h1 : j = 1
    · rw [h1]
      rfl
    · have hno : j ∉ ({1} : Multiset ℕ) := by simpa using h1
      rw [if_neg hno, Mkfs.table, if_neg h1]
      split_ifs <;> rfl
  · exact Multiset.nodup_singleton 1
  · intro j m hj
    obtain ⟨rfl, rfl⟩ : j = 1 ∧ m = 2 := by simpa using hj
    exact ⟨by simp, rfl⟩
  · intro j m hj _
    rcases hmem j m hj with ⟨rfl, rfl⟩ | ⟨rfl, rfl⟩
    · exact ⟨rfl, by rw [hroot]; decide⟩
    · exact ⟨rfl, by rw [hfile]; decide⟩

theorem opened_size {s : Mkfs.St} (h : Mkfs.Made 200 [largestFile] s) :
    (nodes Mkfs.sb s.img (dinode Mkfs.sb s.img) 2).size = MAXFILE * BSIZE := by
  have hsize := (opened_editing h).size_eq
  have hfile : (dinode Mkfs.sb s.img 2).size.toNat = largestFile.contents.length :=
    (h.files 0 largestFile rfl).size
  rw [contents_largestFile, List.length_replicate] at hfile
  exact hsize.trans hfile

end Largest

end Xv6.Fs
