import Xv6.FsOk

/-! The specifications of `balloc`, `bfree` and `bmap` (kernel/fs.c). -/
namespace Xv6.Fs

variable {μ : Mode} {sb : Superblock} {p : ℕ} {s : St} {L : ℕ → Dinode} {D : Set ℕ}
  {H K : Multiset (ℕ × ℕ)} {N W : Finset ℕ} {i n b : ℕ}

/-- The parts of the state that the functions of fs.c leave alone. -/
def Env (s s' : St) : Prop := s'.file = s.file ∧ s'.proc = s.proc

theorem Env.refl (s : St) : Env s s := ⟨rfl, rfl⟩

theorem Env.trans {s s' s'' : St} (h : Env s s') (h' : Env s' s'') : Env s s'' :=
  ⟨h'.1.trans h.1, h'.2.trans h.2⟩

section Balloc

theorem Logged.bblock_eq (h : Logged μ sb s N W) (hb : b < sb.size) (hc : μ.counts) :
    sb.bblock b = sb.bmapstart := by
  have h1 := h.single hc
  have h2 : b / BPB = 0 := Nat.div_eq_of_lt (lt_of_lt_of_le hb h1)
  rw [Superblock.bblock, h2, zero_add]

/-- No block is left for `balloc`. -/
def Full (sb : Superblock) (disk : Disk) : Prop := ∀ b < sb.size, bit sb disk b = true

theorem balloc_spec (hB : Blocks sb μ.holey s.disk L) (hl : Logged μ sb s N W)
    (hroom : μ.Room N (W.card + 1)) :
    wp (balloc sb) (fun r s' => (r = 0 ∧ s' = s ∧ Full sb s.disk) ∨
      (sb.IsData r ∧ bit sb s.disk r = false ∧
        ∃ lh, s' = { s with disk := zeroed sb s.disk r, lh := lh } ∧
          Logged μ sb s' N (insert r W))) μ.E s := by
  simp only [balloc, wp_bind, wp_get]
  cases hf : (List.range sb.size).find? (fun b => !bit sb s.disk b) with
  | none =>
    refine .inl ⟨rfl, rfl, fun b hb => ?_⟩
    simpa using List.find?_eq_none.mp hf b (List.mem_range.mpr hb)
  | some b =>
    have hfree : bit sb s.disk b = false := by
      have h1 := List.find?_some hf
      simpa using h1
    have hlt : b < sb.size := List.mem_range.mp (List.mem_of_find?_eq_some hf)
    have hdata : sb.IsData b := by
      refine ⟨?_, hlt⟩
      by_contra hb
      rw [hB.metadata b (by omega)] at hfree
      cases hfree
    simp only [wp_bind, wp_modify, bzero, setBlock]
    have hl1 : Logged μ sb { s with disk := setBit sb s.disk b true } N W := hl.congr rfl rfl rfl
    refine wp_imp (logWrite_spec hl1 (Finset.Subset.refl N) (Finset.Subset.refl W)
      (fun hc => .inl (hl.bblock_eq hlt hc)) (hroom.mono (Finset.Subset.refl N) (by omega))) ?_
    rintro - s1 ⟨lh1, rfl, hl2⟩
    have hcard : (insert b W).card ≤ W.card + 1 := Finset.card_insert_le b W
    have hl3 : Logged μ sb { s with disk := zeroed sb s.disk b, lh := lh1 } N W := hl2.congr rfl rfl rfl
    simp only [wp_bind, wp_modify]
    refine wp_imp (logWrite_spec (M := N) (V := insert b W) hl3 (Finset.Subset.refl N)
      (Finset.subset_insert b W) (fun _ => .inr (.inr (Finset.mem_insert_self b W)))
      (hroom.mono (Finset.Subset.refl N) hcard)) ?_
    rintro - s2 ⟨lh2, rfl, hl4⟩
    exact .inr ⟨hdata, hfree, lh2, rfl, hl4⟩

theorem bfree_spec (hl : Logged μ sb s N W) (hroom : μ.Room N W.card) (hb : b < sb.size)
    (hset : bit sb s.disk b = true) :
    wp (bfree sb b) (fun _ s' => ∃ lh, s' = { s with disk := setBit sb s.disk b false, lh := lh } ∧
      Logged μ sb s' N W) μ.E s := by
  simp only [bfree, wp_bind, wp_get, hset, Bool.true_eq_false, if_false, wp_modify]
  have hl1 : Logged μ sb { s with disk := setBit sb s.disk b false } N W := hl.congr rfl rfl rfl
  refine wp_imp (logWrite_spec hl1 (Finset.Subset.refl N) (Finset.Subset.refl W)
    (fun hc => .inl (hl.bblock_eq hb hc)) hroom) ?_
  rintro - s1 ⟨lh1, rfl, hl2⟩
  exact ⟨lh1, rfl, hl2⟩

end Balloc

section Bmap

/-- The inode got more blocks; nothing that was there has changed. -/
structure Grown (s : St) (d : Dinode) (s' : St) (d' : Dinode) : Prop where
  env : Env s s'
  fields : d'.type = d.type ∧ d'.major = d.major ∧ d'.minor = d.minor ∧ d'.nlink = d.nlink ∧
    d'.size = d.size
  slots : ∀ k, slot s.disk d k ≠ 0 → slot s'.disk d' k = slot s.disk d k
  cells : ∀ k ≠ NDIRECT, cell s'.disk d' k = cell s.disk d k
  valid : ∀ j, (s'.itable j).valid = (s.itable j).valid

theorem Grown.refl (s : St) (d : Dinode) : Grown s d s d :=
  ⟨Env.refl s, ⟨rfl, rfl, rfl, rfl, rfl⟩, fun _ _ => rfl, fun _ _ => rfl, fun _ => rfl⟩

theorem Grown.trans {s s' s'' : St} {d d' d'' : Dinode} (h : Grown s d s' d') (h' : Grown s' d' s'' d'') :
    Grown s d s'' d'' := by
  obtain ⟨a1, a2, a3, a4, a5⟩ := h.fields
  obtain ⟨b1, b2, b3, b4, b5⟩ := h'.fields
  refine ⟨h.env.trans h'.env,
    ⟨b1.trans a1, b2.trans a2, b3.trans a3, b4.trans a4, b5.trans a5⟩, fun k hk => ?_,
    fun k hk => (h'.cells k hk).trans (h.cells k hk), fun j => (h'.valid j).trans (h.valid j)⟩
  have hk' := h.slots k hk
  rw [h'.slots k (by rwa [hk']), hk']

/-- After `bmap` the inode `n` is `d'`; the contents of all inodes are as before. -/
structure Mapped (μ : Mode) (sb : Superblock) (p : ℕ) (s : St) (L : ℕ → Dinode) (D : Set ℕ)
    (H K : Multiset (ℕ × ℕ)) (n : ℕ) (s' : St) (d' : Dinode) : Prop where
  ok : Ok μ sb p s'.disk s'.itable (update L n d') (insert n D) H K
  nodes : nodes sb s'.disk (update L n d') = nodes sb s.disk L
  grown : Grown s (L n) s' d'

theorem Mapped.refl (hok : Ok μ sb p s.disk s.itable L D H K) (n : ℕ) :
    Mapped μ sb p s L D H K n s (L n) := by
  refine ⟨?_, ?_, Grown.refl s (L n)⟩
  · rw [update_eq_self]
    exact hok.dirty_mono (Set.subset_insert n D)
  · rw [update_eq_self]

theorem Mapped.trans {s' s'' : St} {d' d'' : Dinode} (h : Mapped μ sb p s L D H K n s' d')
    (h' : Mapped μ sb p s' (update L n d') (insert n D) H K n s'' d'') :
    Mapped μ sb p s L D H K n s'' d'' := by
  obtain ⟨ok, hnodes, grown⟩ := h'
  rw [update_idem] at ok hnodes
  rw [update_self] at grown
  rw [Set.insert_eq_of_mem (Set.mem_insert n D)] at ok
  exact ⟨ok, hnodes.trans h.nodes, h.grown.trans grown⟩

theorem bmapDirect_spec {k : ℕ} (hok : Ok μ sb p s.disk s.itable L D H K) (hi : (i, n) ∈ K)
    (hk : k ≤ NDIRECT) (hl : Logged μ sb s N W)
    (hroom : slot s.disk (L n) k = 0 → μ.Room N (W.card + 1)) :
    wp (bmapDirect sb i k) (fun r s' => ∃ d', Mapped μ sb p s L D H K n s' d' ∧
      r = slot s'.disk d' k ∧ Logged μ sb s' N (insert r W) ∧ (r = 0 → Full sb s'.disk)) μ.E s := by
  have hcopy : (s.itable i).copy = L n := hok.copy_eq hi
  have hs : slot s.disk (L n) k = addr (L n) k := slot_of_le hk
  simp only [bmapDirect, copyOf, wp_bind, wp_get, wp_pure, wp_ite, hcopy]
  split_ifs with h0
  · refine ⟨L n, Mapped.refl hok n, hs.symm, ?_, fun hc => absurd hc h0⟩
    exact hl.mono (Finset.Subset.refl N) (Finset.subset_insert _ W)
  · rw [not_not] at h0
    refine wp_imp (balloc_spec hok.blocks hl (hroom (hs.trans h0))) ?_
    rintro r s1 (⟨rfl, rfl, hfull⟩ | ⟨hdata, hfree, lh, rfl, hl1⟩)
    · -- no block left
      simp only [wp_pure, if_true]
      refine ⟨L n, Mapped.refl hok n, (hs.trans h0).symm, ?_, fun _ => hfull⟩
      exact hl.mono (Finset.Subset.refl N) (Finset.subset_insert _ W)
    · have hr : r ≠ 0 := by
        rintro rfl
        exact not_isData_zero hok.wf hdata
      have hused := hok.used_of_locked hi
      obtain ⟨hslot, hcells, hblocks, hnodes⟩ := hok.blocks.alloc_addr hok.wf hused hdata hfree hk h0
      simp only [if_neg hr, wp_bind, wp_modify, wp_pure, hcopy, St.setCopy, St.setInode]
      have hH := hok.locked i n hi
      refine ⟨setAddr (L n) k r, ⟨?_, hnodes, ⟨rfl, rfl⟩, ⟨rfl, rfl, rfl, rfl, rfl⟩, ?_, hcells, ?_⟩, ?_,
        hl1.congr rfl rfl rfl, fun hc => absurd hc hr⟩
      · exact hok.set_copy hH.1 hH.2 hblocks (fun m hm => dinode_zeroed hok.wf hdata hm) rfl
      · intro j hj
        have hjk : j ≠ k := by
          rintro rfl
          exact hj (hs.trans h0)
        exact (hslot j).trans (if_neg hjk)
      · intro j
        change (update s.itable i _ j).valid = (s.itable j).valid
        by_cases hj : j = i
        · rw [hj, update_self]
        · rw [update_of_ne hj]
      · exact ((hslot k).trans (if_pos rfl)).symm

theorem bmapIndirect_spec {j : ℕ} (hok : Ok μ sb p s.disk s.itable L D H K) (hi : (i, n) ∈ K)
    (hj : j < NINDIRECT) (hind : addr (L n) NDIRECT ≠ 0) (hl : Logged μ sb s N W)
    (hroom : slot s.disk (L n) (NDIRECT + 1 + j) = 0 →
      μ.Room N ((insert (addr (L n) NDIRECT) W).card + 1)) :
    wp (bmapIndirect sb (addr (L n) NDIRECT) j) (fun r s' => Mapped μ sb p s L D H K n s' (L n) ∧
      r = slot s'.disk (L n) (NDIRECT + 1 + j) ∧
      Logged μ sb s' N (insert r (insert (addr (L n) NDIRECT) W)) ∧ (r = 0 → Full sb s'.disk)) μ.E s := by
  have hs : slot s.disk (L n) (NDIRECT + 1 + j) = (word (s.disk (addr (L n) NDIRECT)) j).toNat := by
    have h1 : ¬ NDIRECT + 1 + j ≤ NDIRECT := by omega
    have h2 : NDIRECT + 1 + j < NSLOTS ∧ addr (L n) NDIRECT ≠ 0 :=
      ⟨by simp only [NSLOTS]; omega, hind⟩
    rw [slot, if_neg h1, if_pos h2, Nat.add_sub_cancel_left]
  have hsub (r : ℕ) : W ⊆ insert r (insert (addr (L n) NDIRECT) W) :=
    fun x hx => Finset.mem_insert_of_mem (Finset.mem_insert_of_mem hx)
  simp only [bmapIndirect, wp_bind, wp_get, wp_ite, wp_pure, ← hs]
  split_ifs with h0
  · exact ⟨Mapped.refl hok n, trivial, hl.mono (Finset.Subset.refl N) (hsub _), fun hc => absurd hc h0⟩
  · rw [not_not] at h0
    have hroom1 := hroom h0
    have hle : W.card ≤ (insert (addr (L n) NDIRECT) W).card :=
      Finset.card_le_card (Finset.subset_insert _ W)
    refine wp_imp (balloc_spec hok.blocks hl (hroom1.mono (Finset.Subset.refl N) (by omega))) ?_
    rintro r s1 (⟨rfl, rfl, hfull⟩ | ⟨hdata, hfree, lh, rfl, hl1⟩)
    · simp only [wp_pure, if_true]
      exact ⟨Mapped.refl hok n, h0.symm, hl.mono (Finset.Subset.refl N) (hsub _), fun _ => hfull⟩
    · have hr : r ≠ 0 := by
        rintro rfl
        exact not_isData_zero hok.wf hdata
      simp only [if_neg hr, wp_bind, wp_modify]
      have hl2 : Logged μ sb { s with
          disk := update (zeroed sb s.disk r) (addr (L n) NDIRECT)
            (setWord (zeroed sb s.disk r (addr (L n) NDIRECT)) j (BitVec.ofNat 32 r))
          lh := lh } N (insert r W) := hl1.congr rfl rfl rfl
      have hcard : (insert r (insert (addr (L n) NDIRECT) W)).card ≤
          (insert (addr (L n) NDIRECT) W).card + 1 := Finset.card_insert_le _ _
      refine wp_imp (logWrite_spec (M := N) (V := insert r (insert (addr (L n) NDIRECT) W)) hl2
        (Finset.Subset.refl N) (Finset.insert_subset_insert r (Finset.subset_insert _ W))
        (fun _ => .inr (.inr (Finset.mem_insert_of_mem (Finset.mem_insert_self _ _))))
        (hroom1.mono (Finset.Subset.refl N) hcard)) ?_
      rintro - s2 ⟨lh2, rfl, hl3⟩
      obtain ⟨hslot, hcells, hblocks, hnodes⟩ :=
        hok.blocks.alloc_entry hok.wf (hok.used_of_locked hi) hdata hfree hj hind h0 rfl
      have hdind : sb.IsData (addr (L n) NDIRECT) := by
        have hd := hok.blocks.slot_data (k := NDIRECT) (hok.used_of_locked hi)
          (by rwa [slot_of_le (le_refl NDIRECT)])
        rwa [slot_of_le (le_refl NDIRECT)] at hd
      rw [wp_pure]
      refine ⟨⟨?_, ?_, ⟨rfl, rfl⟩, ⟨rfl, rfl, rfl, rfl, rfl⟩, ?_, hcells, fun _ => rfl⟩, ?_, hl3, fun hc => absurd hc hr⟩
      · rw [update_eq_self]
        refine (hok.set_disk hblocks (fun m hm => ?_)).dirty_mono (Set.subset_insert n D)
        rw [dinode_update hok.wf hdind _ hm, dinode_zeroed hok.wf hdata hm]
      · rw [update_eq_self]
        exact hnodes
      · intro k hk
        have hkj : k ≠ NDIRECT + 1 + j := by
          rintro rfl
          exact hk h0
        exact (hslot k).trans (if_neg hkj)
      · exact ((hslot _).trans (if_pos rfl)).symm

/-- The blocks that `bmap` may log besides the bitmap. -/
def bmapBlocks (disk : Disk) (d : Dinode) (bn : ℕ) : Finset ℕ :=
  if bn < NDIRECT then {slot disk d (blockSlot bn)}
  else {slot disk d (blockSlot bn), slot disk d NDIRECT}

/-- A bound for the number of blocks that are logged after `bmap`, the bitmap apart. -/
def bmapCost (disk : Disk) (d : Dinode) (W : Finset ℕ) (bn : ℕ) : ℕ :=
  if bn < NDIRECT then W.card + 1
  else if slot disk d NDIRECT = 0 then W.card + 2
  else (insert (slot disk d NDIRECT) W).card + 1

theorem bmap_spec {bn : ℕ} (hok : Ok μ sb p s.disk s.itable L D H K) (hi : (i, n) ∈ K)
    (hbn : bn < MAXFILE) (hl : Logged μ sb s N W) (hroom : μ.Room N (bmapCost s.disk (L n) W bn)) :
    wp (bmap sb i bn) (fun r s' => ∃ d', Mapped μ sb p s L D H K n s' d' ∧
      r = slot s'.disk d' (blockSlot bn) ∧
      Logged μ sb s' N (bmapBlocks s'.disk d' bn ∪ W) ∧ (r = 0 → Full sb s'.disk)) μ.E s := by
  unfold bmap bmapCost at *
  by_cases hdirect : bn < NDIRECT
  · simp only [if_pos hdirect] at hroom ⊢
    have hslot : blockSlot bn = bn := if_pos hdirect
    refine wp_imp (bmapDirect_spec hok hi (le_of_lt hdirect) hl (fun _ => hroom)) ?_
    rintro r s1 ⟨d', hmap, hr, hl1, hfull⟩
    refine ⟨d', hmap, by rwa [hslot], ?_, hfull⟩
    rwa [bmapBlocks, if_pos hdirect, hslot, ← hr, Finset.singleton_union]
  · have hlt : bn - NDIRECT < NINDIRECT := by
      simp only [MAXFILE] at hbn
      omega
    have hslot : blockSlot bn = NDIRECT + 1 + (bn - NDIRECT) := by
      rw [blockSlot, if_neg hdirect]
      omega
    simp only [if_neg hdirect, if_pos hlt, wp_bind] at hroom ⊢
    have hroom1 : slot s.disk (L n) NDIRECT = 0 → μ.Room N (W.card + 1) := by
      intro h0
      rw [if_pos h0] at hroom
      exact hroom.mono (Finset.Subset.refl N) (by omega)
    refine wp_imp (bmapDirect_spec hok hi (le_refl _) hl hroom1) ?_
    rintro ind s1 ⟨d1, hmap, hind, hl1, hfull⟩
    have hd1 : update L n d1 n = d1 := update_self n d1 L
    rw [slot_of_le (le_refl _)] at hind
    simp only [wp_ite, wp_pure]
    split_ifs with h0
    · -- no block for the indirect block
      refine ⟨d1, hmap, ?_, ?_, fun _ => hfull h0⟩
      · rw [hslot, slot, if_neg (by omega), if_neg]
        rw [← hind, h0]
        exact fun h => h.2 rfl
      · refine hl1.mono (Finset.Subset.refl N) ?_
        rw [bmapBlocks, if_neg hdirect, slot_of_le (le_refl _), ← hind]
        intro x hx
        rcases Finset.mem_insert.mp hx with rfl | hx
        · simp
        · exact Finset.mem_union_right _ hx
    · have hroom2 : slot s1.disk d1 (NDIRECT + 1 + (bn - NDIRECT)) = 0 →
          μ.Room N ((insert (addr d1 NDIRECT) (insert ind W)).card + 1) := by
        intro _
        rw [← hind, Finset.insert_idem]
        by_cases hz : slot s.disk (L n) NDIRECT = 0
        · rw [if_pos hz] at hroom
          have := Finset.card_insert_le ind W
          exact hroom.mono (Finset.Subset.refl N) (by omega)
        · rw [if_neg hz] at hroom
          have heq : ind = slot s.disk (L n) NDIRECT := by
            rw [hind, ← hmap.grown.slots NDIRECT hz, slot_of_le (le_refl _)]
          rwa [heq]
      have hspec := bmapIndirect_spec (L := update L n d1) hmap.ok hi hlt
        (by rw [hd1, ← hind]; exact h0) hl1 (by rwa [hd1])
      rw [hd1, ← hind] at hspec
      refine wp_imp hspec ?_
      rintro r s2 ⟨hmap2, hr, hl2, hfull2⟩
      refine ⟨d1, hmap.trans hmap2, by rw [hslot]; exact hr, ?_, hfull2⟩
      rw [Finset.insert_idem] at hl2
      rwa [bmapBlocks, if_neg hdirect, hslot, ← hr, slot_of_le (le_refl _), ← hind,
        Finset.insert_union, Finset.singleton_union]

theorem bmap_present {bn : ℕ} {Q : ℕ → St → Prop} {E : Panic → St → Prop}
    (hcopy : (s.itable i).copy = L n) (hbn : bn < MAXFILE)
    (h0 : slot s.disk (L n) (blockSlot bn) ≠ 0) (hQ : Q (slot s.disk (L n) (blockSlot bn)) s) :
    wp (bmap sb i bn) Q E s := by
  unfold bmap
  by_cases hdirect : bn < NDIRECT
  · have hslot : slot s.disk (L n) (blockSlot bn) = addr (L n) bn := by
      rw [blockSlot, if_pos hdirect, slot_of_le (le_of_lt hdirect)]
    rw [hslot] at h0 hQ
    simp only [if_pos hdirect, bmapDirect, copyOf, wp_bind, wp_get, wp_pure, hcopy, if_pos h0]
    exact hQ
  · have hlt : bn - NDIRECT < NINDIRECT := by
      simp only [MAXFILE] at hbn
      omega
    have hb : blockSlot bn = NDIRECT + 1 + (bn - NDIRECT) := by
      rw [blockSlot, if_neg hdirect]
      omega
    have hind : addr (L n) NDIRECT ≠ 0 := by
      intro hz
      rw [hb, slot, if_neg (by omega), if_neg (fun h => h.2 hz)] at h0
      exact h0 rfl
    have hslot : slot s.disk (L n) (blockSlot bn) =
        (word (s.disk (addr (L n) NDIRECT)) (bn - NDIRECT)).toNat := by
      rw [hb, slot, if_neg (by omega), if_pos ⟨by simp only [NSLOTS]; omega, hind⟩,
        Nat.add_sub_cancel_left]
    rw [hslot] at h0 hQ
    simp only [if_neg hdirect, if_pos hlt, bmapDirect, bmapIndirect, copyOf, wp_bind, wp_get, wp_pure,
      hcopy, if_pos hind, if_neg hind, if_pos h0]
    exact hQ

end Bmap

end Xv6.Fs
