import Xv6.FsReadWrite

/-! The state inside a transaction without block numbers: `A n` is the inode `n` as its users see
it, and `w` bounds the data blocks in the log. The specifications of fs.c in these terms. -/
namespace Xv6.Fs

/-- `V` are inodes that somebody holds with a valid copy in the table. -/
def Now (μ : Mode) (sb : Superblock) (p : ℕ) (D V : Set ℕ) (s : St) (A : ℕ → Node)
    (H K : Multiset (ℕ × ℕ)) (N : Finset ℕ) (w : ℕ) : Prop :=
  ∃ L W, Ok μ sb p s.disk s.itable L D H K ∧ nodes sb s.disk L = A ∧ Logged μ sb s N W ∧ W.card ≤ w ∧
    (∀ n ∈ V, ∃ i, (i, n) ∈ H ∧ (s.itable i).valid = true) ∧ ∀ n ∈ μ.holey, n ∈ D ∧ ¬ μ.counts

/-- An inode without links that nobody holds. -/
def Orphan (A : ℕ → Node) (H : Multiset (ℕ × ℕ)) (n : ℕ) : Prop :=
  (A n).type ≠ 0 ∧ (A n).nlink = 0 ∧ ∀ i, (i, n) ∉ H

variable {μ : Mode} {sb : Superblock} {p : ℕ} {D V : Set ℕ} {s : St} {A : ℕ → Node}
  {H K : Multiset (ℕ × ℕ)} {N M : Finset ℕ} {w v i n : ℕ}

namespace Now

section

variable (h : Now μ sb p D V s A H K N w)
include h

theorem mono (hN : N ⊆ M) (hw : w ≤ v) :
    Now μ sb p D V s A H K M v := by
  obtain ⟨L, W, h1, h2, h3, h4, h5⟩ := h
  exact ⟨L, W, h1, h2, h3.mono hN (Finset.Subset.refl W), le_trans h4 hw, h5⟩

theorem uncounted (hc : ¬ μ.counts) :
    Now μ sb p D V s A H K M v := by
  obtain ⟨L, W, h1, h2, h3, h4, h5⟩ := h
  refine ⟨L, ∅, h1, h2, ?_, zero_le, h5⟩
  exact ⟨h3.outstanding, h3.nodup, h3.tooBig, fun c => absurd c hc, fun c => absurd c hc,
    fun c => absurd c hc⟩

theorem valid_mono {V' : Set ℕ} (hV : V' ⊆ V) :
    Now μ sb p D V' s A H K N w := by
  obtain ⟨L, W, h1, h2, h3, h4, h5, h6⟩ := h
  exact ⟨L, W, h1, h2, h3, h4, fun n hn => h5 n (hV hn), h6⟩

theorem bounded (hroom : μ.Room N w) : μ.counts → s.Bounded := by
  obtain ⟨L, W, -, -, h3, h4, -⟩ := h
  exact h3.bounded (hroom.mono (Finset.Subset.refl N) h4)

theorem held (hi : (i, n) ∈ H) :
    i < NINODE ∧ n < sb.ninodes ∧ (s.itable i).inum = n ∧ (s.itable i).dev = ROOTDEV := by
  obtain ⟨L, W, h1, -⟩ := h
  exact h1.held i n hi

theorem uniq {j : ℕ} (hi : (i, n) ∈ H) (hj : (j, n) ∈ H) : i = j := by
  obtain ⟨L, W, h1, -⟩ := h
  exact h1.uniq i j n hi hj

theorem inum_unique {m : ℕ} (hi : (i, n) ∈ H) (hj : (i, m) ∈ H) :
    n = m := by
  obtain ⟨L, W, h1, -⟩ := h
  exact h1.inum_unique hi hj

theorem locked (hi : (i, n) ∈ K) : (i, n) ∈ H := by
  obtain ⟨L, W, h1, -⟩ := h
  exact (h1.locked i n hi).1

theorem nodup : (K.map Prod.fst).Nodup := by
  obtain ⟨L, W, h1, -⟩ := h
  exact h1.nodup

theorem copy (hi : (i, n) ∈ K) :
    ((s.itable i).copy.type = (A n).type ∧ (s.itable i).copy.major = (A n).major ∧
      (s.itable i).copy.minor = (A n).minor ∧ (s.itable i).copy.nlink = (A n).nlink ∧
      (s.itable i).copy.size.toNat = (A n).size) ∧ (A n).type ≠ 0 := by
  obtain ⟨L, W, h1, rfl, -⟩ := h
  have hused := h1.used_of_locked hi
  rw [h1.copy_eq hi, nodes_of_used hused]
  exact ⟨⟨rfl, rfl, rfl, rfl, rfl⟩, hused.2⟩

theorem valid_of_locked (hi : (i, n) ∈ K) :
    (s.itable i).valid = true := by
  obtain ⟨L, W, h1, -⟩ := h
  exact (h1.locked i n hi).2

theorem size_le (n : ℕ) : (A n).size ≤ MAXFILE * BSIZE := by
  obtain ⟨L, W, h1, rfl, -⟩ := h
  by_cases hn : Used sb L n
  · rw [nodes_of_used hn]
    exact h1.blocks.size_le n hn
  · rw [nodes_of_not_used hn]
    exact zero_le

theorem free_of_type (hn : (A n).type = 0) : A n = .free := by
  obtain ⟨L, W, -, rfl, -⟩ := h
  by_cases hu : Used sb L n
  · rw [nodes_of_used hu] at hn
    exact absurd hn hu.2
  · exact nodes_of_not_used hu

end

end Now

section Table

theorem iget_now (h : Now μ sb p D V s A H K N w) (hn : n < sb.ninodes) (hfree : μ.Free H 1)
    (hroom : μ.Room N w) :
    wp (iget ROOTDEV n) (fun i s' => Now μ sb p D V s' A ((i, n) ::ₘ H) K N w ∧ Env s s' ∧
      ((s'.itable i).valid = true → (i, n) ∈ H)) μ.E s := by
  have hb := h.bounded hroom
  obtain ⟨L, W, hok, hA, hl, hw, hV, hhole⟩ := h
  refine wp_imp (iget_spec hok hn hfree hb) ?_
  rintro i s1 ⟨T, rfl, hok1, hkeep, hfresh⟩
  refine ⟨⟨L, W, hok1, hA, hl.congr rfl rfl rfl, hw, fun m hm => ?_, hhole⟩, ⟨rfl, rfl⟩, hfresh⟩
  obtain ⟨j, hj, hv⟩ := hV m hm
  exact ⟨j, mem_cons_of_mem hj, hkeep j m hj hv⟩

theorem idup_now {E : Panic → St → Prop} (h : Now μ sb p D V s A H K N w) (hi : (i, n) ∈ H) :
    wp (idup i) (fun r s' => r = i ∧ Now μ sb p D V s' A ((i, n) ::ₘ H) K N w ∧ Env s s') E s := by
  obtain ⟨L, W, hok, hA, hl, hw, hV, hhole⟩ := h
  refine wp_imp (idup_spec hok hi) ?_
  rintro r s1 ⟨rfl, T, rfl, hok1, hkeep⟩
  refine ⟨rfl, ⟨L, W, hok1, hA, hl.congr rfl rfl rfl, hw, fun m hm => ?_, hhole⟩, ⟨rfl, rfl⟩⟩
  obtain ⟨j, hj, hv⟩ := hV m hm
  exact ⟨j, mem_cons_of_mem hj, hkeep j m hj hv⟩

theorem ilock_now (h : Now μ sb p D V s A H K N w) (hi : (i, n) ∈ H) (hroom : μ.Room N w)
    (hblocked : i ∈ K.map Prod.fst → μ.stops .blocked) (hnotype : (A n).type = 0 → μ.stops .noType) :
    wp (ilock sb p i) (fun _ s' => Now μ sb p D V s' A H ((i, n) ::ₘ K) N w ∧ Env s s') μ.E s := by
  have hb := h.bounded hroom
  obtain ⟨L, W, hok, rfl, hl, hw, hV, hhole⟩ := h
  rw [nodes_type n (hok.held i n hi).2.1] at hnotype
  refine wp_imp (ilock_spec hok hi hb hblocked hnotype) ?_
  rintro - s1 ⟨T, rfl, hok1, hkeep⟩
  refine ⟨⟨L, W, hok1, rfl, hl.congr rfl rfl rfl, hw, fun m hm => ?_, hhole⟩, ⟨rfl, rfl⟩⟩
  obtain ⟨j, hj, hv⟩ := hV m hm
  exact ⟨j, hj, hkeep j m hj hv⟩

theorem iunlock_now {E : Panic → St → Prop} (h : Now μ sb p D V s A H ((i, n) ::ₘ K) N w) :
    wp (iunlock p i) (fun _ s' => Now μ sb p D (insert n V) s' A H K N w ∧ Env s s') E s := by
  obtain ⟨L, W, hok, hA, hl, hw, hV, hhole⟩ := h
  have hi := (hok.locked i n (mem_cons_self _ _)).1
  refine wp_imp (iunlock_spec hok) ?_
  rintro - s1 ⟨T, rfl, hok1, hkeep, hvi⟩
  refine ⟨⟨L, W, hok1, hA, hl.congr rfl rfl rfl, hw, fun m hm => ?_, hhole⟩, ⟨rfl, rfl⟩⟩
  rcases hm with rfl | hm
  · exact ⟨i, hi, hvi⟩
  · obtain ⟨j, hj, hv⟩ := hV m hm
    exact ⟨j, hj, hkeep j m hj hv⟩

theorem mem_of_cons {x : ℕ × ℕ} (hx : x ∈ (i, n) ::ₘ H) (hne : x.2 ≠ n) : x ∈ H := by
  rcases Multiset.mem_cons.mp hx with rfl | hx
  · exact absurd rfl hne
  · exact hx

theorem gone_iff_orphan {L : ℕ → Dinode} (hok : Ok μ sb p s.disk s.itable L D ((i, n) ::ₘ H) K)
    (hv : (s.itable i).valid = true) :
    Gone s.itable L H i n ↔ Orphan (nodes sb s.disk L) H n := by
  have hmem : (i, n) ∈ (i, n) ::ₘ H := mem_cons_self _ _
  have hused : Used sb L n := hok.used hmem hv
  have hnot : (i, n) ∉ H ↔ ∀ j, (j, n) ∉ H := by
    refine ⟨fun h j hj => ?_, fun h => h i⟩
    have hij := hok.uniq j i n (mem_cons_of_mem hj) hmem
    exact h (hij ▸ hj)
  unfold Gone Orphan
  rw [nodes_of_used hused, hnot]
  exact ⟨fun h => ⟨hused.2, h.2⟩, fun h => ⟨hv, h.2⟩⟩

theorem iput_now (h : Now μ sb p D V s A ((i, n) ::ₘ H) K N w) (hK : i ∈ K.map Prod.fst → (i, n) ∈ H)
    (hkeep : n ∈ D ∪ V → (i, n) ∈ H)
    (hroom : (s.itable i).valid = true → Orphan A H n → μ.Room (insert n N) w) :
    wp (iput sb p i) (fun _ s' => Env s s' ∧
      ((¬ ((s.itable i).valid = true ∧ Orphan A H n) ∧ Now μ sb p D V s' A H K N w) ∨
        ((s.itable i).valid = true ∧ Orphan A H n ∧
          Now μ sb p D V s' (update A n .free) H K (insert n N) w))) μ.E s := by
  obtain ⟨L, W, hok, rfl, hl, hw, hV, hhole⟩ := h
  have hiff (hv : (s.itable i).valid = true) := gone_iff_orphan hok hv
  have hroom1 (hg : Gone s.itable L H i n) : μ.Room (insert n N) W.card :=
    (hroom hg.1 ((hiff hg.1).mp hg)).mono subset_rfl hw
  -- the inodes in `V` are still held
  have hVH (m : ℕ) (hm : m ∈ V) : ∃ j, (j, m) ∈ H ∧ (s.itable j).valid = true := by
    obtain ⟨j, hj, hv⟩ := hV m hm
    by_cases hmn : m = n
    · have hnH : (i, n) ∈ H := hkeep (.inr (hmn ▸ hm))
      have hji := hok.uniq j i n (hmn ▸ hj) (mem_cons_self _ _)
      exact ⟨j, by rw [hmn, hji]; exact hnH, hv⟩
    · exact ⟨j, mem_of_cons hj hmn, hv⟩
  refine wp_imp (iput_spec hok hK (fun hd => hkeep (.inl hd)) hl hroom1) ?_
  rintro - s1 (⟨hg, T, rfl, hok1, hkv⟩ | ⟨hg, L', hok1, hnodes, henv, hkv, hl1⟩)
  · refine ⟨⟨rfl, rfl⟩, .inl ⟨fun hc => hg ((hiff hc.1).mpr hc.2), L, W, hok1, rfl,
      hl.congr rfl rfl rfl, hw, fun m hm => ?_, hhole⟩⟩
    obtain ⟨j, hj, hv⟩ := hVH m hm
    exact ⟨j, hj, hkv j m hj hv⟩
  · refine ⟨henv, .inr ⟨hg.1, (hiff hg.1).mp hg, L', W, hok1, hnodes, hl1, hw, fun m hm => ?_, hhole⟩⟩
    obtain ⟨j, hj, hv⟩ := hVH m hm
    exact ⟨j, hj, hkv j m hj hv⟩

theorem iput_keep (h : Now μ sb p D V s A ((i, n) ::ₘ H) K N w) (hK : i ∈ K.map Prod.fst → (i, n) ∈ H)
    (hkeep : n ∈ D ∪ V → (i, n) ∈ H)
    (hnot : ¬ ((s.itable i).valid = true ∧ Orphan A H n)) :
    wp (iput sb p i) (fun _ s' => Env s s' ∧ Now μ sb p D V s' A H K N w) μ.E s := by
  refine wp_imp (iput_now h hK hkeep (fun hv ho => absurd ⟨hv, ho⟩ hnot)) ?_
  rintro - s1 ⟨henv, ⟨-, h1⟩ | ⟨hv, ho, -⟩⟩
  · exact ⟨henv, h1⟩
  · exact absurd ⟨hv, ho⟩ hnot

theorem iunlockput_now (h : Now μ sb p D V s A ((i, n) ::ₘ H) ((i, n) ::ₘ K) N w)
    (hkeep : n ∈ D ∪ V → (i, n) ∈ H) (hroom : Orphan A H n → μ.Room (insert n N) w) :
    wp (iunlockput sb p i) (fun _ s' => Env s s' ∧
      ((¬ Orphan A H n ∧ Now μ sb p D V s' A H K N w) ∨
        (Orphan A H n ∧ Now μ sb p D V s' (update A n .free) H K (insert n N) w))) μ.E s := by
  have hnd := h.nodup
  rw [Multiset.map_cons, nodup_cons] at hnd
  have hmem : (i, n) ∈ (i, n) ::ₘ H := mem_cons_self _ _
  rw [iunlockput]
  refine wp_seq (iunlock_now h) ?_
  rintro - s1 ⟨h1, henv1⟩
  have hv1 : (s1.itable i).valid = true := by
    obtain ⟨L, W, hok, -, -, -, hV, -⟩ := h1
    obtain ⟨j, hj, hv⟩ := hV n (Set.mem_insert n V)
    rwa [hok.uniq i j n hmem hj]
  refine wp_imp (iput_now (h1.valid_mono (Set.subset_insert n V)) (fun hm => absurd hm hnd.1) hkeep (fun _ => hroom)) ?_
  rintro - s2 ⟨henv2, ⟨hno, h2⟩ | ⟨-, ho, h2⟩⟩
  · exact ⟨henv1.trans henv2, .inl ⟨fun ho => hno ⟨hv1, ho⟩, h2⟩⟩
  · exact ⟨henv1.trans henv2, .inr ⟨ho, h2⟩⟩

theorem ialloc_now {type : BitVec 16} (h : Now μ sb p D V s A H K N w) (htype : type ≠ 0)
    (hfree : μ.Free H 1) (hroom : ∀ n, μ.Room (insert n N) w) :
    wp (ialloc sb ROOTDEV type) (fun r s' => (r = none ∧ s' = s) ∨
      ∃ i n, r = some i ∧ n ≠ 0 ∧ n < sb.ninodes ∧ (A n).type = 0 ∧ Env s s' ∧
        Now μ sb p D V s' (update A n ⟨type, 0, 0, 0, 0, fun _ => 0⟩) ((i, n) ::ₘ H) K
          (insert n N) w) μ.E s := by
  obtain ⟨L, W, hok, rfl, hl, hw, hV, hhole⟩ := h
  refine wp_imp (ialloc_spec hok htype hfree hl
    (fun n => (hroom n).mono subset_rfl hw)) ?_
  rintro r s1 (⟨rfl, rfl⟩ | ⟨i, n, L', rfl, h0, hn, hold, hok1, hnodes, henv, hkv, hl1⟩)
  · exact .inl ⟨rfl, rfl⟩
  · refine .inr ⟨i, n, rfl, h0, hn, hold, henv, L', W, hok1, hnodes, hl1, hw, fun m hm => ?_, hhole⟩
    obtain ⟨j, hj, hv⟩ := hV m hm
    exact ⟨j, mem_cons_of_mem hj, hkv j m hj hv⟩

end Table

section Content

theorem itrunc_now (h : Now μ sb p D V s A H K N w) (hi : (i, n) ∈ K) (hroom : μ.Room (insert n N) w) :
    wp (itrunc sb i) (fun _ s' => Env s s' ∧
      Now μ sb p D V s' (update A n (A n).truncated) H K (insert n N) w) μ.E s := by
  obtain ⟨L, W, hok, rfl, hl, hw, hV, hhole⟩ := h
  refine wp_imp (itrunc_spec hok hi hl (hroom.mono subset_rfl hw)) ?_
  rintro - s1 ⟨d, hok1, -, hnodes, htable, henv, hl1⟩
  refine ⟨henv, _, W, hok1, hnodes, hl1, hw, fun m hm => ?_, hhole⟩
  obtain ⟨j, hj, hv⟩ := hV m hm
  refine ⟨j, hj, ?_⟩
  rw [htable]
  by_cases hji : j = i
  · rw [hji, update_self, ← hji, hv]
  · rw [update_of_ne hji, hv]

theorem iupdate_now {d : Dinode} (h : Now μ sb p D V s A H K N w) (hi : (i, n) ∈ K)
    (hd : d.type = (s.itable i).copy.type ∧ d.size = (s.itable i).copy.size ∧
      d.addrs = (s.itable i).copy.addrs) (hroom : μ.Room (insert n N) w) :
    wp (iupdate sb i) (fun _ s' => Env s s' ∧
      Now μ sb p D V s' (update A n
        { A n with major := d.major, minor := d.minor, nlink := d.nlink }) H K (insert n N) w)
      μ.E (s.setCopy i d) := by
  obtain ⟨L, W, hok, rfl, hl, hw, hV, hhole⟩ := h
  have hH := hok.locked i n hi
  have hused := hok.used_of_locked hi
  rw [hok.copy_eq hi] at hd
  obtain ⟨htype, hsize, haddrs⟩ := hd
  have hslot (k : ℕ) : slot s.disk d k = slot s.disk (L n) k := by
    unfold slot addr
    rw [haddrs]
  have hused' : Used sb (update L n d) n := by
    unfold Used
    rw [update_self, htype]
    exact hused
  have hblocks : Blocks sb μ.holey s.disk (update L n d) := by
    refine hok.blocks.set_inode (fun k => ?_) (fun _ hh => ⟨?_, fun bn hbn => ?_⟩) (fun _ => ?_)
    · rw [if_pos hused', if_pos hused, hslot]
    · rw [hsize]
      exact hok.blocks.size_le n hused
    · rw [hslot]
      rw [hsize] at hbn
      exact (hok.blocks.full n hused hh).2 bn hbn
    · rw [hsize]
      exact hok.blocks.size_le n hused
  have hok1 := hok.set_copy hH.1 hH.2 hblocks (fun _ _ => rfl) htype
  have hnodes : nodes sb s.disk (update L n d) = update (nodes sb s.disk L) n
      { nodes sb s.disk L n with major := d.major, minor := d.minor, nlink := d.nlink } := by
    rw [nodes_update, if_pos ⟨hused.1, htype ▸ hused.2⟩, nodes_of_used hused]
    congr 1
    refine Node.ext htype rfl rfl rfl (by rw [node, hsize]; rfl) (funext fun o => ?_)
    rw [node_byte, hsize]
    change _ = if o < (L n).size.toNat then rawByte s.disk (L n) o else 0
    unfold rawByte cell
    rw [hslot]
  refine wp_imp (iupdate_spec (s := s.setCopy i d) hok1 hi (hl.congr rfl rfl rfl)
    (hroom.mono subset_rfl hw)) ?_
  rintro - s1 ⟨hok2, hnodes2, henv2, htable2, hl2, -⟩
  refine ⟨henv2, _, W, hok2, hnodes2.trans hnodes, hl2, hw, fun m hm => ?_, hhole⟩
  obtain ⟨j, hj, hv⟩ := hV m hm
  refine ⟨j, hj, ?_⟩
  rw [htable2]
  change (update s.itable i _ j).valid = true
  by_cases hji : j = i
  · rw [hji, update_self, ← hji, hv]
  · rw [update_of_ne hji, hv]

theorem readi_now {E : Panic → St → Prop} {dst : ℕ → Bool} {off len : ℕ}
    (h : Now μ sb p D V s A H K N w) (hi : (i, n) ∈ K) (hn : n ∉ μ.holey) :
    wp (readi sb i dst off len) (fun r s' => s' = s ∧
      r = readResult dst (fun j => (A n).byte (off + j)) (readCount (A n).size off len)) E s := by
  obtain ⟨L, W, hok, rfl, -⟩ := h
  exact readi_spec hok hi hn

/-- `writei` of bytes that the kernel has, within one block: all or nothing. -/
theorem writei_now {f : ℕ → Byte} {off len : ℕ} (h : Now μ sb p D V s A H K N w) (hi : (i, n) ∈ K)
    (hone : off % BSIZE + len ≤ BSIZE) (hlen : 0 < len)
    (hroom : μ.Room (insert n N) (w + 2)) :
    wp (writei sb i (fun j => some (f j)) off len) (fun r s' => Env s s' ∧
      ((r ≠ len ∧ Now μ sb p D V s' A H K (insert n N) (w + 2)) ∨
        (r = len ∧ off ≤ (A n).size ∧ Now μ sb p D V s'
          (update A n ((A n).written off len len (fun j => some (f j)))) H K
          (insert n N) (w + 2)))) μ.E s := by
  have hblocks : blocksOf off len ≤ 1 := by
    simp only [blocksOf, BSIZE] at *
    omega
  have h0 := h
  obtain ⟨L, W, hok, rfl, hl, hw, hV, hhole⟩ := h
  refine wp_imp (writei_spec hok hi hl (hroom.mono subset_rfl (by omega))) ?_
  rintro r s1 (⟨rfl, rfl, -⟩ | ⟨tot, m, L', W', rfl, hst, h6, hok1, hnodes, henv, hkv, hl1, hW', -⟩)
  · exact ⟨Env.refl s1, .inl ⟨by omega, h0.mono (Finset.subset_insert n N) (by omega)⟩⟩
  · have hm : tot = m := by
      rcases hst.stop with h4 | h4
      · exact h4
      · exact absurd h4.2 (by simp)
    subst hm
    have hnow : Now μ sb p D V s1 (update (nodes sb s.disk L) n
        ((nodes sb s.disk L n).written off tot tot (fun j => some (f j)))) H K (insert n N) (w + 2) := by
      refine ⟨L', W', hok1, hnodes, hl1, by omega, fun m hm => ?_, hhole⟩
      obtain ⟨j, hj, hv⟩ := hV m hm
      exact ⟨j, hj, hkv j m hj hv⟩
    refine ⟨henv, ?_⟩
    rcases hst.zero_or_all hone with rfl | rfl
    · refine .inl ⟨by exact_mod_cast hlen.ne, ?_⟩
      have hsame : (nodes sb s.disk L n).written off 0 0 (fun j => some (f j)) = nodes sb s.disk L n := by
        have hmax : max (nodes sb s.disk L n).size (off + 0) = (nodes sb s.disk L n).size := by omega
        refine Node.ext rfl rfl rfl rfl hmax (funext fun o => ?_)
        rw [Node.written, hmax]
        change (if o < _ then if off ≤ o ∧ o < off + 0 then _ else _ else _) = _
        rw [if_neg (show ¬ (off ≤ o ∧ o < off + 0) by omega)]
        by_cases ho : o < (nodes sb s.disk L n).size
        · rw [if_pos ho]
        · rw [if_neg ho]
          have hused := hok.used_of_locked hi
          rw [nodes_of_used hused] at ho ⊢
          exact (node_byte s.disk (L n) o ▸ if_neg ho).symm
      rwa [hsame, update_eq_self] at hnow
    · exact .inr ⟨rfl, h6, hnow⟩

end Content

end Xv6.Fs
