import Xv6.FsAlloc

/-! The specifications of `iupdate` and `itrunc` (kernel/fs.c). -/
namespace Xv6.Fs

variable {μ : Mode} {sb : Superblock} {p : ℕ} {s s0 : St} {L : ℕ → Dinode} {D : Set ℕ}
  {H K : Multiset (ℕ × ℕ)} {N W : Finset ℕ} {i n b k : ℕ}

section Iupdate

theorem Ok.update_disk {disk : Disk} {T : ℕ → Inode} (hok : Ok μ sb p disk T L (insert n D) H K)
    (hn : n < sb.ninodes) :
    Ok μ sb p (setDinode sb disk n (L n)) T L D H K ∧
      nodes sb (setDinode sb disk n (L n)) L = nodes sb disk L := by
  have hdata (b : ℕ) (hb : sb.IsData b) : setDinode sb disk n (L n) b = disk b :=
    setDinode_data hok.wf hb hn (L n)
  have hnodes := hok.blocks.nodes_data_congr hdata
  refine ⟨{ hok with blocks := ?_, coherent := ?_ }, hnodes⟩
  · exact hok.blocks.data_congr hdata (fun b _ => bit_setDinode hok.wf hn (L n) b)
  · intro m hm
    rw [dinode_setDinode]
    by_cases hmn : m = n
    · rw [if_pos hmn, hmn]
      exact .inl rfl
    · rw [if_neg hmn]
      rcases hok.coherent m hm with h1 | ⟨h1, h2⟩
      · exact .inl h1
      · exact .inr ⟨Set.mem_of_mem_insert_of_ne h1 hmn, h2⟩

theorem iupdate_spec (hok : Ok μ sb p s.disk s.itable L (insert n D) H K) (hi : (i, n) ∈ K)
    (hl : Logged μ sb s N W) (hroom : μ.Room (insert n N) W.card) :
    wp (iupdate sb i) (fun _ s' => Ok μ sb p s'.disk s'.itable L D H K ∧
      nodes sb s'.disk L = nodes sb s.disk L ∧ Env s s' ∧ s'.itable = s.itable ∧
      Logged μ sb s' (insert n N) W ∧ ∀ b, bit sb s'.disk b = bit sb s.disk b) μ.E s := by
  have hH := hok.locked i n hi
  have hinum : (s.itable i).inum = n := hok.inum_eq hH.1
  have hcopy : (s.itable i).copy = L n := hok.copy_eq hi
  have hl1 : Logged μ sb { s with disk := setDinode sb s.disk n (L n) } N W := hl.congr rfl rfl rfl
  simp only [iupdate, wp_bind, wp_modify, wp_get, hinum, hcopy]
  refine wp_imp (logWrite_spec hl1 (Finset.subset_insert n N) (Finset.Subset.refl W)
    (fun _ => .inr (.inl ⟨n, Finset.mem_insert_self n N, rfl⟩)) hroom) ?_
  rintro - s1 ⟨lh1, rfl, hl2⟩
  obtain ⟨hok1, hnodes⟩ := hok.update_disk (hok.held i n hH.1).2.1
  exact ⟨hok1, hnodes, ⟨rfl, rfl⟩, rfl, hl2, bit_setDinode hok.wf (hok.held i n hH.1).2.1 (L n)⟩

end Iupdate

section Itrunc

/-- The slots without those of the inode `n` that `Z` says are freed already. -/
def emptied (σ : ℕ × ℕ → ℕ) (n : ℕ) (Z : ℕ → Bool) (x : ℕ × ℕ) : ℕ :=
  if x.1 = n ∧ Z x.2 = true then 0 else σ x

/-- `itrunc` of the inode `n` at work: the blocks in the slots `Z` are free, and the copy in the table
is `d`. -/
structure Trunc (sb : Superblock) (L : ℕ → Dinode) (i n : ℕ) (s0 s : St) (Z : ℕ → Bool) (d : Dinode) :
    Prop where
  env : Env s0 s
  table : s.itable = update s0.itable i { s0.itable i with copy := d }
  fields : d.type = (L n).type ∧ d.major = (L n).major ∧ d.minor = (L n).minor ∧ d.nlink = (L n).nlink
  data : ∀ b, sb.IsData b → s.disk b = s0.disk b
  dinodes : ∀ m < sb.ninodes, dinode sb s.disk m = dinode sb s0.disk m
  metadata : ∀ b < sb.nmeta, bit sb s.disk b = true
  owns : AllocMap (emptied (slots sb s0.disk L) n Z) (bit sb s.disk) sb.IsData

namespace Trunc

variable {Z Z' : ℕ → Bool} {d : Dinode}

theorem skip (h : Trunc sb L i n s0 s Z d) (hn : Used sb L n) (hZ : ∀ j, Z j = true → Z' j = true)
    (h0 : ∀ j, Z j = false → Z' j = true → slot s0.disk (L n) j = 0) : Trunc sb L i n s0 s Z' d := by
  refine { h with owns := h.owns.congr ?_ (fun _ _ => rfl) }
  rintro ⟨m, j⟩
  unfold emptied
  by_cases hmj : m = n ∧ Z' j = true
  · rw [if_pos hmj]
    by_cases hz : Z j = true
    · rw [if_pos ⟨hmj.1, hz⟩]
    · rw [if_neg (fun h => hz h.2), hmj.1]
      exact ((if_pos hn).trans (h0 j (by simpa using hz) hmj.2)).symm
  · rw [if_neg hmj, if_neg (fun h => hmj ⟨h.1, hZ j h.2⟩)]

theorem slot_marked (h : Trunc sb L i n s0 s Z d) (hn : Used sb L n) (h0 : slot s0.disk (L n) k ≠ 0)
    (hk : Z k = false) : bit sb s.disk (slot s0.disk (L n) k) = true := by
  have hs : emptied (slots sb s0.disk L) n Z (n, k) = slot s0.disk (L n) k := by
    unfold emptied
    rw [if_neg (by simp [hk])]
    exact if_pos hn
  have hb := h.owns.bit_of_slot (i := (n, k)) (by rwa [hs])
  rwa [hs] at hb

theorem free (h : Trunc sb L i n s0 s Z d) (hwf : sb.WellFormed) (hn : Used sb L n)
    (h0 : slot s0.disk (L n) k ≠ 0) (hdata : sb.IsData (slot s0.disk (L n) k)) (hk : Z k = false)
    (hZ : ∀ j, Z' j = (Z j || decide (j = k))) (lh : List ℕ) :
    Trunc sb L i n s0 { s with disk := setBit sb s.disk (slot s0.disk (L n) k) false, lh := lh } Z' d := by
  have hs : emptied (slots sb s0.disk L) n Z (n, k) = slot s0.disk (L n) k := by
    unfold emptied
    rw [if_neg (by simp [hk])]
    exact if_pos hn
  refine ⟨h.env, h.table, h.fields, ?_, ?_, ?_, ?_⟩
  · intro b hb
    rw [← h.data b hb]
    exact setBit_data hwf hb hdata.2 false
  · intro m hm
    rw [← h.dinodes m hm]
    exact dinode_setBit hwf hm _ _
  · intro b hb
    simp only [bit_setBit]
    rw [if_neg]
    · exact h.metadata b hb
    · have := hdata.1
      omega
  · have hfree : AllocMap (update (emptied (slots sb s0.disk L) n Z) (n, k) 0)
        (bit sb (setBit sb s.disk (slot s0.disk (L n) k) false)) sb.IsData :=
      h.owns.free (not_isData_zero hwf) (by rwa [hs]) (fun c _ => by rw [bit_setBit, hs])
    refine hfree.congr ?_ (fun _ _ => rfl)
    rintro ⟨m, j⟩
    by_cases hmj : (m, j) = (n, k)
    · rw [hmj, update_self]
      simp [emptied, hZ]
    · rw [update_of_ne hmj]
      unfold emptied
      simp only [hZ j, Bool.or_eq_true, decide_eq_true_eq]
      refine if_congr ?_ rfl rfl
      constructor
      · rintro ⟨h1, h2 | h2⟩
        · exact ⟨h1, h2⟩
        · exact absurd (by rw [h1, h2]) hmj
      · exact fun h => ⟨h.1, .inl h.2⟩

theorem set_copy (h : Trunc sb L i n s0 s Z d) {d' : Dinode}
    (hfields : d'.type = d.type ∧ d'.major = d.major ∧ d'.minor = d.minor ∧ d'.nlink = d.nlink) :
    Trunc sb L i n s0 (s.setCopy i d') Z d' := by
  obtain ⟨a1, a2, a3, a4⟩ := hfields
  obtain ⟨b1, b2, b3, b4⟩ := h.fields
  refine ⟨h.env, ?_, ⟨a1.trans b1, a2.trans b2, a3.trans b3, a4.trans b4⟩, h.data, h.dinodes,
    h.metadata, h.owns⟩
  simp only [St.setCopy, St.setInode, h.table, update_self, update_idem]

end Trunc

theorem Trunc.copy_eq {Z : ℕ → Bool} {d : Dinode} (h : Trunc sb L i n s0 s Z d) :
    (s.itable i).copy = d := by
  rw [h.table, update_self]

variable (hok : Ok μ sb p s0.disk s0.itable L D H K) (hi : (i, n) ∈ K)

include hok hi

theorem bfree_slot {Z Z' : ℕ → Bool} {d : Dinode} (ht : Trunc sb L i n s0 s Z d)
    (hl : Logged μ sb s N W) (hroom : μ.Room N W.card) (h0 : slot s0.disk (L n) k ≠ 0)
    (hk : Z k = false) (hZ : ∀ j, Z' j = (Z j || decide (j = k))) :
    wp (bfree sb (slot s0.disk (L n) k)) (fun _ s' => Trunc sb L i n s0 s' Z' d ∧
      Logged μ sb s' N W) μ.E s := by
  have hused := hok.used_of_locked hi
  have hdata := hok.blocks.slot_data hused h0
  refine wp_imp (bfree_spec hl hroom hdata.2 (ht.slot_marked hused h0 hk)) ?_
  rintro - s1 ⟨lh, rfl, hl1⟩
  exact ⟨ht.free hok.wf hused h0 hdata hk hZ lh, hl1⟩

theorem itruncDirect_spec (hl : Logged μ sb s0 N W) (hroom : μ.Room N W.card) :
    wp (itruncDirect sb i) (fun _ s' => ∃ d, Trunc sb L i n s0 s' (fun k => decide (k < NDIRECT)) d ∧
      (∀ k, addr d k = if k < NDIRECT then 0 else addr (L n) k) ∧ Logged μ sb s' N W) μ.E s0 := by
  have hused := hok.used_of_locked hi
  have hcopy : (s0.itable i).copy = L n := hok.copy_eq hi
  have hstart : Trunc sb L i n s0 s0 (fun k => decide (k < 0)) (L n) := by
    refine ⟨Env.refl s0, ?_, ⟨rfl, rfl, rfl, rfl⟩, fun _ _ => rfl, fun _ _ => rfl, hok.blocks.metadata,
      hok.blocks.owns.congr ?_ (fun _ _ => rfl)⟩
    · rw [← hcopy, update_eq_self]
    · simp [emptied]
  have hloop := wp_loop (f := fun i' => do
      let d ← copyOf i
      if addr d i' ≠ 0 then do
        bfree sb (addr d i')
        modify (fun s => s.setCopy i (setAddr (s.itable i).copy i' 0))
      else pure ()) (I := fun j s => ∃ d, Trunc sb L i n s0 s (fun k => decide (k < j)) d ∧
        (∀ k, addr d k = if k < j then 0 else addr (L n) k) ∧ Logged μ sb s N W) (E := μ.E)
    NDIRECT 0 ?_ (s := s0) ⟨L n, hstart, by simp, hl⟩
  · simpa only [itruncDirect, zero_add] using hloop
  · rintro j s - hj ⟨d, ht, haddr, hl⟩
    rw [zero_add] at hj
    have hdj : addr d j = slot s0.disk (L n) j := by
      rw [haddr j, if_neg (lt_irrefl j), slot_of_le (le_of_lt hj)]
    have hstep (k : ℕ) : decide (k < j + 1) = (decide (k < j) || decide (k = j)) := by
      rw [← Bool.decide_or]
      exact decide_eq_decide.mpr (by omega)
    simp only [copyOf, wp_bind, wp_get, wp_pure, wp_ite, ht.copy_eq]
    split_ifs with h0
    · rw [hdj] at h0 ⊢
      refine wp_imp (bfree_slot hok hi ht hl hroom h0 (by simp) hstep) ?_
      rintro - s1 ⟨ht1, hl1⟩
      rw [wp_modify, ht1.copy_eq]
      refine ⟨setAddr d j 0, ht1.set_copy ⟨rfl, rfl, rfl, rfl⟩, fun k => ?_, hl1.congr rfl rfl rfl⟩
      rw [addr_setAddr d j (le_of_lt hj) (by decide), haddr k]
      split_ifs <;> first | rfl | omega
    · rw [not_not] at h0
      refine ⟨d, ht.skip hused ?_ ?_, fun k => ?_, hl⟩
      · intro k hk
        rw [hstep, hk, Bool.true_or]
      · intro k hk hk'
        rw [hstep, hk, Bool.false_or, decide_eq_true_eq] at hk'
        rw [hk', ← hdj, h0]
      · by_cases hkj : k = j
        · rw [hkj, if_pos (Nat.lt_succ_self j), h0]
        · rw [haddr k]
          exact if_congr (by omega) rfl rfl

theorem itruncIndirect_spec {d : Dinode} (ht : Trunc sb L i n s0 s (fun k => decide (k < NDIRECT)) d)
    (haddr : ∀ k, addr d k = if k < NDIRECT then 0 else addr (L n) k) (hl : Logged μ sb s N W)
    (hroom : μ.Room N W.card) :
    wp (itruncIndirect sb i) (fun _ s' => ∃ d, Trunc sb L i n s0 s' (fun _ => true) d ∧
      (∀ k, addr d k = 0) ∧ Logged μ sb s' N W) μ.E s := by
  have hused := hok.used_of_locked hi
  have hind : addr d NDIRECT = slot s0.disk (L n) NDIRECT := by
    rw [haddr, if_neg (lt_irrefl _), slot_of_le (le_refl _)]
  simp only [itruncIndirect, copyOf, wp_bind, wp_get, wp_pure, wp_ite, ht.copy_eq]
  split_ifs with h0
  · -- the entries of the indirect block, then the block itself
    have hdata : sb.IsData (addr d NDIRECT) := by
      rw [hind] at h0 ⊢
      exact hok.blocks.slot_data hused h0
    have hentry (j : ℕ) (hj : j < NINDIRECT) (s1 : St) (hs1 : s1.disk (addr d NDIRECT) = s0.disk (addr d NDIRECT)) :
        (word (s1.disk (addr d NDIRECT)) j).toNat = slot s0.disk (L n) (NDIRECT + 1 + j) := by
      have hL : addr (L n) NDIRECT = addr d NDIRECT := by
        rw [haddr, if_neg (lt_irrefl _)]
      rw [hs1, slot, if_neg (by omega), if_pos ⟨by simp only [NSLOTS]; omega, by rwa [hL]⟩, hL,
        Nat.add_sub_cancel_left]
    have hloop := wp_loop (f := fun j => do
        let s ← get
        let a := (word (s.disk (addr d NDIRECT)) j).toNat
        if a ≠ 0 then bfree sb a else pure ()) (I := fun j s => Trunc sb L i n s0 s
          (fun k => decide (k < NDIRECT ∨ NDIRECT + 1 ≤ k ∧ k < NDIRECT + 1 + j)) d ∧
          Logged μ sb s N W) (E := μ.E) NINDIRECT 0 ?_ (s := s) ⟨?_, hl⟩
    · refine wp_imp hloop ?_
      rintro - s1 ⟨ht1, hl1⟩
      rw [wp_bind, hind]
      rw [hind] at h0
      refine wp_imp (bfree_slot hok hi ht1 hl1 hroom h0 (by simp) (fun j => rfl)) ?_
      rintro - s2 ⟨ht2, hl2⟩
      rw [wp_modify, ht2.copy_eq]
      have ht3 : Trunc sb L i n s0 (s2.setCopy i (setAddr d NDIRECT 0)) _ (setAddr d NDIRECT 0) :=
        ht2.set_copy ⟨rfl, rfl, rfl, rfl⟩
      refine ⟨setAddr d NDIRECT 0, ht3.skip hused (fun _ _ => rfl) ?_, fun k => ?_,
        hl2.congr rfl rfl rfl⟩
      · intro k hk _
        apply slot_of_ge
        simp only [Bool.or_eq_false_iff, decide_eq_false_iff_not] at hk
        simp only [NSLOTS]
        omega
      · rw [addr_setAddr d NDIRECT (le_refl _) (by decide), haddr k]
        split_ifs with h1 h2
        · rfl
        · rfl
        · exact addr_of_gt (L n) k (by omega)
    · rintro j s1 - hj ⟨ht1, hl1⟩
      rw [zero_add] at hj
      have ha := hentry j hj s1 (ht1.data _ hdata)
      have hstep (k : ℕ) : decide (k < NDIRECT ∨ NDIRECT + 1 ≤ k ∧ k < NDIRECT + 1 + (j + 1)) =
          (decide (k < NDIRECT ∨ NDIRECT + 1 ≤ k ∧ k < NDIRECT + 1 + j) ||
            decide (k = NDIRECT + 1 + j)) := by
        rw [← Bool.decide_or]
        exact decide_eq_decide.mpr (by omega)
      simp only [wp_bind, wp_get, wp_ite, wp_pure, ha]
      split_ifs with hz
      · exact bfree_slot hok hi ht1 hl1 hroom hz (decide_eq_false (by omega)) hstep
      · rw [not_not] at hz
        refine ⟨ht1.skip hused ?_ ?_, hl1⟩
        · intro k hk
          rw [hstep, hk, Bool.true_or]
        · intro k hk hk'
          rw [hstep, hk, Bool.false_or, decide_eq_true_eq] at hk'
          rw [hk', hz]
    · refine ht.skip hused ?_ ?_
      · intro k hk
        simp only [decide_eq_true_eq] at hk ⊢
        exact .inl hk
      · intro k hk hk'
        simp only [decide_eq_true_eq, decide_eq_false_iff_not] at hk hk'
        omega
  · rw [not_not] at h0
    refine ⟨d, ht.skip hused (fun _ _ => rfl) ?_, fun k => ?_, hl⟩
    · intro k hk _
      simp only [decide_eq_false_iff_not] at hk
      by_cases hkd : k = NDIRECT
      · rw [hkd, ← hind, h0]
      · have hL : addr (L n) NDIRECT = 0 := by
          rw [← h0, haddr, if_neg (lt_irrefl _)]
        rw [slot, if_neg (by omega), if_neg (fun h => h.2 hL)]
    · rcases Nat.lt_trichotomy k NDIRECT with hk | hk | hk
      · rw [haddr, if_pos hk]
      · rw [hk, h0]
      · exact addr_of_gt d k hk

theorem Trunc.done {d : Dinode} (ht : Trunc sb L i n s0 s (fun _ => true) d)
    (haddr : ∀ k, addr d k = 0) (hsize : d.size = 0) :
    Ok μ sb p s.disk s.itable (update L n d) (insert n D) H K ∧
      nodes sb s.disk (update L n d) =
        update (nodes sb s0.disk L) n (nodes sb s0.disk L n).truncated := by
  have hused := hok.used_of_locked hi
  have hslot (k : ℕ) : slot s.disk d k = 0 := by
    unfold slot
    simp only [haddr, ne_eq, not_true_eq_false, and_false, if_false, ite_self]
  have hother (m : ℕ) (hm : m ≠ n) : update L n d m = L m := update_of_ne hm d L
  have hself : update L n d n = d := update_self n d L
  have husedm (m : ℕ) (hm : m ≠ n) : Used sb (update L n d) m ↔ Used sb L m := by
    unfold Used
    rw [hother m hm]
  have hblocks : Blocks sb μ.holey s.disk (update L n d) := by
    refine ⟨ht.owns.congr ?_ (fun _ _ => rfl), ht.metadata, ?_, ?_⟩
    · rintro ⟨m, k⟩
      by_cases hm : m = n
      · simp only [hm, slots, emptied, hself, hslot, and_self, if_true, ite_self]
      · by_cases hum : Used sb L m
        · simp only [slots, emptied, husedm m hm, hm, false_and, if_false, if_pos hum, hother m hm]
          exact hok.blocks.slot_data_congr ht.data hum
        · simp only [slots, emptied, husedm m hm, hm, false_and, if_false, if_neg hum]
    · intro m hm hh
      by_cases hmn : m = n
      · rw [hmn, hself]
        refine ⟨by rw [hsize]; exact zero_le, fun bn hbn => ?_⟩
        rw [hsize] at hbn
        exact absurd hbn (Nat.not_lt_zero _)
      · rw [husedm m hmn] at hm
        rw [hother m hmn]
        refine ⟨(hok.blocks.full m hm hh).1, fun bn hbn => ?_⟩
        rw [hok.blocks.slot_data_congr ht.data hm]
        exact (hok.blocks.full m hm hh).2 bn hbn
    · intro m hm
      by_cases hmn : m = n
      · rw [hmn, hself, hsize]
        exact zero_le
      · rw [husedm m hmn] at hm
        rw [hother m hmn]
        exact hok.blocks.size_le m hm
  have hnodes : nodes sb s.disk (update L n d) =
      update (nodes sb s0.disk L) n (nodes sb s0.disk L n).truncated := by
    rw [nodes_update, hok.blocks.nodes_data_congr ht.data]
    congr 1
    obtain ⟨h1, h2, h3, h4⟩ := ht.fields
    rw [if_pos ⟨hused.1, by rw [h1]; exact hused.2⟩, nodes_of_used hused]
    simp [node, Node.truncated, h1, h2, h3, h4, hsize]
  refine ⟨?_, hnodes⟩
  rw [ht.table]
  exact hok.set_copy (hok.locked i n hi).1 (hok.locked i n hi).2 hblocks ht.dinodes ht.fields.1

theorem itrunc_spec (hl : Logged μ sb s0 N W) (hroom : μ.Room (insert n N) W.card) :
    wp (itrunc sb i) (fun _ s' => ∃ d, Ok μ sb p s'.disk s'.itable (update L n d) D H K ∧
      (d.type = (L n).type ∧ d.major = (L n).major ∧ d.minor = (L n).minor ∧
        d.nlink = (L n).nlink ∧ d.size = 0 ∧ ∀ k, addr d k = 0) ∧
      nodes sb s'.disk (update L n d) =
        update (nodes sb s0.disk L) n (nodes sb s0.disk L n).truncated ∧
      s'.itable = update s0.itable i { s0.itable i with copy := d } ∧
      Env s0 s' ∧ Logged μ sb s' (insert n N) W) μ.E s0 := by
  have hroom1 : μ.Room N W.card := hroom.mono (Finset.subset_insert n N) (le_refl _)
  simp only [itrunc, wp_bind]
  refine wp_imp (itruncDirect_spec hok hi hl hroom1) ?_
  rintro - s1 ⟨d1, ht1, haddr1, hl1⟩
  refine wp_seq (itruncIndirect_spec hok hi ht1 haddr1 hl1 hroom1) ?_
  rintro - s2 ⟨d2, ht2, haddr2, hl2⟩
  rw [wp_bind, wp_modify, ht2.copy_eq]
  have ht3 : Trunc sb L i n s0 (s2.setCopy i { d2 with size := 0 }) (fun _ => true)
      { d2 with size := 0 } := ht2.set_copy ⟨rfl, rfl, rfl, rfl⟩
  obtain ⟨hok3, hnodes3⟩ := ht3.done hok hi haddr2 rfl
  refine wp_imp (iupdate_spec hok3 hi (hl2.congr rfl rfl rfl) hroom) ?_
  rintro - s4 ⟨hok4, hnodes4, henv4, htable4, hl4, -⟩
  obtain ⟨h1, h2, h3, h4⟩ := ht3.fields
  exact ⟨{ d2 with size := 0 }, hok4, ⟨h1, h2, h3, h4, rfl, haddr2⟩, hnodes4.trans hnodes3,
    htable4.trans ht3.table, ht3.env.trans henv4, hl4⟩

end Itrunc

end Xv6.Fs
