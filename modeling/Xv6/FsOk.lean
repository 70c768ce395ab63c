import Xv6.FsBlock

/-! The state of the file system inside a system call. `H` lists the pointers into the inode table
that somebody holds, each with the number of its inode, `K` those that are locked, and `D` the
inodes whose copy in the table may be newer than the disk. -/
namespace Xv6.Fs

/-- What a run is checked for: whether the blocks of a transaction are counted, the inodes that may
have holes, and the panics that are not excluded. -/
structure Mode where
  counts : Prop
  holey : Set ℕ
  stops : Panic → Prop

/-- Every transaction so far fits its reservation. -/
def St.Bounded (s : St) : Prop :=
  s.lh.length ≤ MAXOPBLOCKS ∧ ∀ l ∈ s.commits, l.length ≤ MAXOPBLOCKS

/-- What holds at a panic. -/
def Mode.E (μ : Mode) (e : Panic) (s : St) : Prop := μ.stops e ∧ (μ.counts → s.Bounded)

section Logged

/-- Inside a transaction that has logged the bitmap, the blocks of the inodes `N` and the blocks
`W`, at most. -/
structure Logged (μ : Mode) (sb : Superblock) (s : St) (N W : Finset ℕ) : Prop where
  outstanding : s.outstanding = 1
  nodup : s.lh.Nodup
  tooBig : ¬ μ.counts → μ.stops .tooBig
  single : μ.counts → sb.size ≤ BPB
  blocks : μ.counts → ∀ b ∈ s.lh, b = sb.bmapstart ∨ (∃ n ∈ N, b = sb.iblock n) ∨ b ∈ W
  commits : μ.counts → ∀ l ∈ s.commits, l.length ≤ MAXOPBLOCKS

/-- There is room for the bitmap, the blocks of the inodes `N` and `w` more blocks. -/
def Mode.Room (μ : Mode) (N : Finset ℕ) (w : ℕ) : Prop := μ.counts → 1 + N.card + w ≤ MAXOPBLOCKS

variable {μ : Mode} {sb : Superblock} {s : St} {N M W V : Finset ℕ} {b : ℕ}

theorem Mode.Room.mono {w w' : ℕ} (h : μ.Room M w') (hN : N ⊆ M) (hw : w ≤ w') : μ.Room N w := by
  intro hc
  have h1 := h hc
  have h2 := Finset.card_le_card hN
  omega

namespace Logged

theorem length_le (h : Logged μ sb s N W) (hc : μ.counts) : s.lh.length ≤ 1 + N.card + W.card := by
  have hsub : s.lh.toFinset ⊆ insert sb.bmapstart (N.image sb.iblock ∪ W) := by
    intro b hb
    rcases h.blocks hc b (List.mem_toFinset.mp hb) with rfl | ⟨n, hn, rfl⟩ | hW
    · exact Finset.mem_insert_self _ _
    · exact Finset.mem_insert_of_mem (Finset.mem_union_left _ (Finset.mem_image_of_mem _ hn))
    · exact Finset.mem_insert_of_mem (Finset.mem_union_right _ hW)
  have h1 := Finset.card_le_card hsub
  have h2 := Finset.card_insert_le sb.bmapstart (N.image sb.iblock ∪ W)
  have h3 := Finset.card_union_le (N.image sb.iblock) W
  have h4 := Finset.card_image_le (s := N) (f := sb.iblock)
  rw [List.toFinset_card_of_nodup h.nodup] at h1
  omega

theorem bounded (h : Logged μ sb s N W) (hroom : μ.Room N W.card) (hc : μ.counts) : s.Bounded :=
  ⟨le_trans (h.length_le hc) (hroom hc), h.commits hc⟩

theorem mono (h : Logged μ sb s N W) (hN : N ⊆ M) (hW : W ⊆ V) : Logged μ sb s M V := by
  refine ⟨h.outstanding, h.nodup, h.tooBig, h.single, fun hc b hb => ?_, h.commits⟩
  rcases h.blocks hc b hb with h1 | ⟨n, hn, h2⟩ | h3
  · exact .inl h1
  · exact .inr (.inl ⟨n, hN hn, h2⟩)
  · exact .inr (.inr (hW h3))

theorem congr (h : Logged μ sb s N W) {s' : St} (hout : s'.outstanding = s.outstanding)
    (hlh : s'.lh = s.lh) (hcommits : s'.commits = s.commits) : Logged μ sb s' N W :=
  ⟨hout.trans h.outstanding, hlh ▸ h.nodup, h.tooBig, h.single, fun hc b hb =>
    h.blocks hc b (hlh ▸ hb), fun hc l hl => h.commits hc l (hcommits ▸ hl)⟩

end Logged

theorem logWrite_spec (h : Logged μ sb s N W) (hN : N ⊆ M) (hW : W ⊆ V)
    (hb : μ.counts → b = sb.bmapstart ∨ (∃ n ∈ M, b = sb.iblock n) ∨ b ∈ V)
    (hroom : μ.Room M V.card) :
    wp (logWrite b) (fun _ s' => ∃ lh, s' = { s with lh := lh } ∧ Logged μ sb s' M V) μ.E s := by
  have hle : μ.counts → s.lh.length ≤ MAXOPBLOCKS := fun hc =>
    (h.bounded (hroom.mono hN (Finset.card_le_card hW)) hc).1
  simp only [logWrite, wp_bind, wp_get, wp_ite, wp_throw, wp_pure, wp_set]
  split_ifs with hbig hout hmem
  · by_cases hc : μ.counts
    · have h1 := hle hc
      simp only [LOGBLOCKS, MAXOPBLOCKS] at hbig h1
      omega
    · exact ⟨h.tooBig hc, fun hc' => absurd hc' hc⟩
  · rw [h.outstanding] at hout
    exact absurd hout (lt_irrefl 1)
  · exact ⟨s.lh, rfl, h.mono hN hW⟩
  · refine ⟨s.lh ++ [b], rfl, h.outstanding, ?_, h.tooBig, h.single, ?_, h.commits⟩
    · rw [List.nodup_append]
      refine ⟨h.nodup, List.nodup_singleton b, ?_⟩
      rintro a ha c hc rfl
      rw [List.mem_singleton] at hc
      exact hmem (hc ▸ ha)
    · intro hc c hcmem
      rcases List.mem_append.mp hcmem with h1 | h1
      · exact (h.mono hN hW).blocks hc c h1
      · rw [List.mem_singleton.mp h1]
        exact hb hc

end Logged

section Ok

structure Ok (μ : Mode) (sb : Superblock) (p : ℕ) (disk : Disk) (T : ℕ → Inode) (L : ℕ → Dinode)
    (D : Set ℕ) (H K : Multiset (ℕ × ℕ)) : Prop where
  wf : sb.WellFormed
  blocks : Blocks sb μ.holey disk L
  coherent : ∀ n < sb.ninodes, dinode sb disk n = L n ∨
    (n ∈ D ∧ (dinode sb disk n).type = (L n).type ∧ ∃ i, (i, n) ∈ H ∧ (T i).valid = true)
  ref : ∀ i < NINODE, (T i).ref = (H.map Prod.fst).count i
  held : ∀ i n, (i, n) ∈ H → i < NINODE ∧ n < sb.ninodes ∧ (T i).inum = n ∧ (T i).dev = ROOTDEV
  uniq : ∀ i j n, (i, n) ∈ H → (j, n) ∈ H → i = j
  lock : ∀ i, (T i).lock = if i ∈ K.map Prod.fst then some p else none
  nodup : (K.map Prod.fst).Nodup
  locked : ∀ i n, (i, n) ∈ K → (i, n) ∈ H ∧ (T i).valid = true
  copy : ∀ i n, (i, n) ∈ H → (T i).valid = true → (T i).copy = L n ∧ (L n).type ≠ 0

namespace Ok

variable {μ : Mode} {sb : Superblock} {p : ℕ} {disk disk' : Disk} {T T' : ℕ → Inode}
  {L : ℕ → Dinode} {D D' : Set ℕ} {H K : Multiset (ℕ × ℕ)} {i n : ℕ}

section

variable (h : Ok μ sb p disk T L D H K)
include h

theorem used (hi : (i, n) ∈ H) (hv : (T i).valid = true) :
    Used sb L n := ⟨(h.held i n hi).2.1, (h.copy i n hi hv).2⟩

theorem copy_eq (hi : (i, n) ∈ K) : (T i).copy = L n :=
  (h.copy i n (h.locked i n hi).1 (h.locked i n hi).2).1

theorem inum_eq (hi : (i, n) ∈ H) : (T i).inum = n :=
  (h.held i n hi).2.2.1

theorem used_of_locked (hi : (i, n) ∈ K) : Used sb L n :=
  h.used (h.locked i n hi).1 (h.locked i n hi).2

theorem inum_unique {m : ℕ} (hi : (i, n) ∈ H) (hj : (i, m) ∈ H) :
    n = m := (h.inum_eq hi).symm.trans (h.inum_eq hj)

theorem dirty_mono (hD : D ⊆ D') : Ok μ sb p disk T L D' H K := by
  refine { h with coherent := fun n hn => ?_ }
  rcases h.coherent n hn with h1 | ⟨h1, h2⟩
  · exact .inl h1
  · exact .inr ⟨hD h1, h2⟩

theorem set_disk (hblocks : Blocks sb μ.holey disk' L)
    (hdin : ∀ m < sb.ninodes, dinode sb disk' m = dinode sb disk m) :
    Ok μ sb p disk' T L D H K := by
  refine { h with blocks := hblocks, coherent := fun n hn => ?_ }
  rw [hdin n hn]
  exact h.coherent n hn

theorem set_copy {d' : Dinode} (hi : (i, n) ∈ H)
    (hv : (T i).valid = true) (hblocks : Blocks sb μ.holey disk' (update L n d'))
    (hdin : ∀ m < sb.ninodes, dinode sb disk' m = dinode sb disk m)
    (htype : d'.type = (L n).type) :
    Ok μ sb p disk' (update T i { T i with copy := d' }) (update L n d')
      (insert n D) H K := by
  have hself : update T i { T i with copy := d' } i = { T i with copy := d' } :=
    update_self ..
  have hother (j : ℕ) (hj : j ≠ i) : update T i { T i with copy := d' } j = T j :=
    update_of_ne hj ..
  -- all fields but the copy are as before
  have hsame (j : ℕ) : (update T i { T i with copy := d' } j).ref = (T j).ref ∧
      (update T i { T i with copy := d' } j).inum = (T j).inum ∧
      (update T i { T i with copy := d' } j).dev = (T j).dev ∧
      (update T i { T i with copy := d' } j).lock = (T j).lock ∧
      (update T i { T i with copy := d' } j).valid = (T j).valid := by
    by_cases hj : j = i
    · rw [hj, hself]
      exact ⟨rfl, rfl, rfl, rfl, rfl⟩
    · rw [hother j hj]
      exact ⟨rfl, rfl, rfl, rfl, rfl⟩
  refine ⟨h.wf, hblocks, ?_, ?_, ?_, h.uniq, ?_, h.nodup, ?_, ?_⟩
  · intro m hm
    rw [hdin m hm]
    by_cases hmn : m = n
    · subst hmn
      refine .inr ⟨Set.mem_insert m D, ?_, i, hi, by rw [(hsame i).2.2.2.2, hv]⟩
      rw [update_self, htype]
      rcases h.coherent m hm with h1 | ⟨-, h1, -⟩
      · rw [h1]
      · exact h1
    · rw [update_of_ne hmn]
      rcases h.coherent m hm with h1 | ⟨h1, h2, j, h3, h4⟩
      · exact .inl h1
      · exact .inr ⟨Set.mem_insert_of_mem n h1, h2, j, h3, by rw [(hsame j).2.2.2.2, h4]⟩
  · intro j hj
    rw [(hsame j).1]
    exact h.ref j hj
  · intro j m hj
    rw [(hsame j).2.1, (hsame j).2.2.1]
    exact h.held j m hj
  · intro j
    rw [(hsame j).2.2.2.1]
    exact h.lock j
  · intro j m hj
    rw [(hsame j).2.2.2.2]
    exact h.locked j m hj
  · intro j m hj hjv
    rw [(hsame j).2.2.2.2] at hjv
    by_cases hji : j = i
    · subst hji
      have hnm : n = m := h.inum_unique hi hj
      subst hnm
      rw [hself, update_self, htype]
      exact ⟨rfl, (h.copy j n hi hv).2⟩
    · have hmn : m ≠ n := by
        rintro rfl
        exact hji (h.uniq j i m hj hi)
      rw [hother j hji, update_of_ne hmn]
      exact h.copy j m hj hjv

end

end Ok

end Ok

end Xv6.Fs
