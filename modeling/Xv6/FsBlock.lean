import Xv6.FsView

/-! How the ownership of blocks and the contents of inodes change when a block is allocated, freed
or written, and what the functions `balloc` to `itrunc` of kernel/fs.c do. -/
namespace Xv6.Fs

theorem nmeta_le (sb : Superblock) : sb.nmeta ≤ sb.size := Nat.sub_le _ _

section Regions

variable {sb : Superblock} (hwf : sb.WellFormed) {disk : Disk} {b c n : ℕ}

include hwf

theorem not_isData_zero : ¬ sb.IsData 0 := by
  have h := hwf.bmapstart_lt
  rintro ⟨h0, -⟩
  omega

theorem iblock_lt (hn : n < sb.ninodes) : sb.iblock n < sb.nmeta :=
  lt_trans (hwf.inodes n hn) hwf.bmapstart_lt

theorem isData_ne_iblock (hb : sb.IsData b) (hn : n < sb.ninodes) : b ≠ sb.iblock n := by
  have h := iblock_lt hwf hn
  have hb := hb.1
  omega

theorem isData_ne_bblock (hb : sb.IsData b) (hc : c < sb.size) : b ≠ sb.bblock c := by
  have h := hwf.bitmap c hc
  have hb := hb.1
  omega

theorem bblock_ne_iblock (c : ℕ) (hn : n < sb.ninodes) : sb.bblock c ≠ sb.iblock n := by
  have h := hwf.inodes n hn
  have hc : sb.bmapstart ≤ sb.bblock c := Nat.le_add_left _ _
  omega

theorem bit_update (hb : sb.IsData b) (v : Block) (hc : c < sb.size) :
    bit sb (update disk b v) c = bit sb disk c := by
  unfold bit
  rw [update_of_ne (isData_ne_bblock hwf hb hc).symm]

theorem dinode_update (hb : sb.IsData b) (v : Block) (hn : n < sb.ninodes) :
    dinode sb (update disk b v) n = dinode sb disk n := by
  unfold dinode
  rw [update_of_ne (isData_ne_iblock hwf hb hn).symm]

theorem bit_setDinode (hn : n < sb.ninodes) (d : Dinode) (c : ℕ) :
    bit sb (setDinode sb disk n d) c = bit sb disk c := by
  unfold bit
  rw [setDinode_of_ne d (bblock_ne_iblock hwf c hn)]

theorem dinode_setBit (hn : n < sb.ninodes) (b : ℕ) (v : Bool) :
    dinode sb (setBit sb disk b v) n = dinode sb disk n := by
  unfold dinode
  rw [setBit_of_ne v (bblock_ne_iblock hwf b hn).symm]

theorem setDinode_data (hb : sb.IsData b) (hn : n < sb.ninodes) (d : Dinode) :
    setDinode sb disk n d b = disk b :=
  setDinode_of_ne d (isData_ne_iblock hwf hb hn)

theorem setBit_data (hb : sb.IsData b) (hc : c < sb.size) (v : Bool) :
    setBit sb disk c v b = disk b :=
  setBit_of_ne v (isData_ne_bblock hwf hb hc)

end Regions

namespace Blocks

variable {sb : Superblock} {holey : Set ℕ} {disk disk' : Disk} {L : ℕ → Dinode} {n m k b : ℕ}

section

variable (h : Blocks sb holey disk L)
include h

theorem slot_data (hn : Used sb L n) (hk : slot disk (L n) k ≠ 0) :
    sb.IsData (slot disk (L n) k) := by
  have hs : slots sb disk L (n, k) = slot disk (L n) k := if_pos hn
  have hr := h.owns.range (n, k)
  rw [hs] at hr
  exact hr hk

theorem slot_inj (hn : Used sb L n) (hm : Used sb L m) {j : ℕ}
    (heq : slot disk (L n) k = slot disk (L m) j) (hk : slot disk (L n) k ≠ 0) : n = m ∧ k = j := by
  have hs : slots sb disk L (n, k) = slot disk (L n) k := if_pos hn
  have ht : slots sb disk L (m, j) = slot disk (L m) j := if_pos hm
  have hi := h.owns.inj (n, k) (m, j) (by rw [hs, ht, heq]) (by rwa [hs])
  exact Prod.mk.inj hi

theorem slot_ne_free (hb : sb.IsData b) (hfree : bit sb disk b = false)
    (hn : Used sb L n) : slot disk (L n) k ≠ b := by
  have hs : slots sb disk L (n, k) = slot disk (L n) k := if_pos hn
  have hne := h.owns.slot_ne hb hfree (n, k)
  rwa [hs] at hne

theorem indirect_ne_free (hb : sb.IsData b)
    (hfree : bit sb disk b = false) (hn : Used sb L n) : addr (L n) NDIRECT ≠ b := by
  have := h.slot_ne_free (k := NDIRECT) hb hfree hn
  rwa [slot_of_le (le_refl NDIRECT)] at this

theorem slot_data_congr (hdata : ∀ b, sb.IsData b → disk' b = disk b)
    (hn : Used sb L n) : slot disk' (L n) k = slot disk (L n) k := by
  apply slot_congr
  intro h0
  have hs := h.slot_data (k := NDIRECT) hn (by rwa [slot_of_le (le_refl NDIRECT)])
  rw [slot_of_le (le_refl NDIRECT)] at hs
  exact hdata _ hs

theorem cell_data_congr (hdata : ∀ b, sb.IsData b → disk' b = disk b)
    (hn : Used sb L n) : cell disk' (L n) k = cell disk (L n) k := by
  unfold cell
  rw [h.slot_data_congr hdata hn]
  by_cases h0 : slot disk (L n) k = 0
  · rw [if_pos h0, if_pos h0]
  · rw [if_neg h0, if_neg h0, hdata _ (h.slot_data hn h0)]

theorem nodes_data_congr (hdata : ∀ b, sb.IsData b → disk' b = disk b) :
    nodes sb disk' L = nodes sb disk L := by
  funext n
  by_cases hn : Used sb L n
  · rw [nodes_of_used hn, nodes_of_used hn]
    exact node_congr ⟨rfl, rfl, rfl, rfl, rfl⟩ (fun k _ => h.cell_data_congr hdata hn)
  · rw [nodes_of_not_used hn, nodes_of_not_used hn]

theorem data_congr (hdata : ∀ b, sb.IsData b → disk' b = disk b) (hbit : ∀ b < sb.size, bit sb disk' b = bit sb disk b) :
    Blocks sb holey disk' L := by
  refine ⟨h.owns.congr ?_ (fun b hb => hbit b hb.2), ?_, ?_, h.size_le⟩
  · rintro ⟨n, k⟩
    by_cases hn : Used sb L n
    · simp only [slots, if_pos hn]
      exact h.slot_data_congr hdata hn
    · simp only [slots, if_neg hn]
  · intro b hb
    rw [hbit b (lt_of_lt_of_le hb (nmeta_le sb))]
    exact h.metadata b hb
  · intro n hn hh
    refine ⟨(h.full n hn hh).1, fun bn hbn => ?_⟩
    rw [h.slot_data_congr hdata hn]
    exact (h.full n hn hh).2 bn hbn

theorem cell_congr {d' : Dinode} (hn : Used sb L n) (hm : Used sb L m)
    (hdata : ∀ c, sb.IsData c → c ≠ b → c ≠ addr (L n) NDIRECT → disk' c = disk c)
    (hk : k ≠ NDIRECT) (hslot : slot disk' d' k = slot disk (L m) k)
    (hb : slot disk (L m) k ≠ b) : cell disk' d' k = cell disk (L m) k := by
  unfold cell
  rw [hslot]
  by_cases h0 : slot disk (L m) k = 0
  · rw [if_pos h0, if_pos h0]
  · rw [if_neg h0, if_neg h0]
    apply hdata _ (h.slot_data hm h0) hb
    intro heq
    have hind : slot disk (L m) k = slot disk (L n) NDIRECT := by
      rw [slot_of_le (le_refl NDIRECT), heq]
    exact hk (h.slot_inj hm hn hind h0).2

theorem slot_other (hn : Used sb L n) (hm : Used sb L m) (hmn : m ≠ n)
    (hb : addr (L m) NDIRECT ≠ b)
    (hdata : ∀ c, sb.IsData c → c ≠ b → c ≠ addr (L n) NDIRECT → disk' c = disk c) :
    slot disk' (L m) k = slot disk (L m) k := by
  apply slot_congr
  intro h0
  have hs : slot disk (L m) NDIRECT = addr (L m) NDIRECT := slot_of_le (le_refl NDIRECT)
  have hd := h.slot_data (k := NDIRECT) hm (by rwa [hs])
  rw [hs] at hd
  apply hdata _ hd hb
  intro heq
  have hind : slot disk (L m) NDIRECT = slot disk (L n) NDIRECT := by
    rw [hs, slot_of_le (le_refl NDIRECT), heq]
  exact hmn (h.slot_inj hm hn hind (by rwa [hs])).1

end

/-- A free block `b` filled with zeros goes into the empty slot `k` of the inode `n`: no contents
change. -/
theorem grow (h : Blocks sb holey disk L) (hwf : sb.WellFormed) {d' : Dinode} (hn : Used sb L n)
    (hb : sb.IsData b) (hfree : bit sb disk b = false) (hk : slot disk (L n) k = 0)
    (hfields : d'.type = (L n).type ∧ d'.major = (L n).major ∧ d'.minor = (L n).minor ∧
      d'.nlink = (L n).nlink ∧ d'.size = (L n).size)
    (hslot : ∀ j, slot disk' d' j = if j = k then b else slot disk (L n) j)
    (hbit : ∀ c < sb.size, bit sb disk' c = if c = b then true else bit sb disk c)
    (hzero : disk' b = 0)
    (hdata : ∀ c, sb.IsData c → c ≠ b → c ≠ addr (L n) NDIRECT → disk' c = disk c) :
    (∀ j ≠ NDIRECT, cell disk' d' j = cell disk (L n) j) ∧
      Blocks sb holey disk' (update L n d') ∧
      nodes sb disk' (update L n d') = nodes sb disk L := by
  have hself : update L n d' n = d' := update_self n d' L
  have hother (m : ℕ) (hm : m ≠ n) : update L n d' m = L m := update_of_ne hm d' L
  have hused (m : ℕ) : Used sb (update L n d') m ↔ Used sb L m := by
    unfold Used
    by_cases hm : m = n
    · rw [hm, hself, hfields.1]
    · rw [hother m hm]
  have hfresh (m j : ℕ) (hm : Used sb L m) : slot disk (L m) j ≠ b := h.slot_ne_free hb hfree hm
  have hslots (m j : ℕ) (hm : Used sb L m) : slot disk' (update L n d' m) j =
      if (m, j) = (n, k) then b else slot disk (L m) j := by
    by_cases hmn : m = n
    · subst hmn
      rw [hself, hslot j]
      simp only [Prod.mk.injEq, true_and]
    · rw [hother m hmn, if_neg (fun he => hmn (Prod.mk.inj he).1)]
      exact h.slot_other hn hm hmn (h.indirect_ne_free hb hfree hm) hdata
  have hgrow (m j : ℕ) (hm : Used sb L m) (h0 : slot disk (L m) j ≠ 0) :
      slot disk' (update L n d' m) j = slot disk (L m) j := by
    rw [hslots m j hm, if_neg]
    rintro ⟨⟩
    exact h0 hk
  have hcells (m j : ℕ) (hm : Used sb L m) (hj : j ≠ NDIRECT) :
      cell disk' (update L n d' m) j = cell disk (L m) j := by
    by_cases hmk : (m, j) = (n, k)
    · -- the new block reads as the hole did
      obtain ⟨rfl, rfl⟩ := Prod.mk.inj hmk
      have hnew : slot disk' (update L m d' m) j = b := by
        rw [hslots m j hm, if_pos rfl]
      unfold cell
      rw [hnew, hk, if_pos rfl, hzero, ite_self]
    · refine h.cell_congr hn hm hdata hj ?_ (hfresh m j hm)
      rw [hslots m j hm, if_neg hmk]
  refine ⟨fun j hj => ?_, ⟨?_, ?_, ?_, ?_⟩, ?_⟩
  · rw [← hcells n j hn hj, hself]
  · -- the slots of all inodes: one more is filled
    have hmap : slots sb disk' (update L n d') =
        update (slots sb disk L) (n, k) b := by
      funext ⟨m, j⟩
      by_cases hm : Used sb L m
      · have hnew : slots sb disk' (update L n d') (m, j) =
            slot disk' (update L n d' m) j := if_pos ((hused m).mpr hm)
        have hold : slots sb disk L (m, j) = slot disk (L m) j := if_pos hm
        rw [hnew, hslots m j hm, update_apply, hold]
      · have hne : (m, j) ≠ (n, k) := by
          rintro ⟨⟩
          exact hm hn
        simp only [slots, hused, if_neg hm, update_of_ne hne]
    rw [hmap]
    refine h.owns.alloc (not_isData_zero hwf) hb hfree ?_ (fun c hc => hbit c hc.2)
    simp only [slots, if_pos hn, hk]
  · intro c hc
    rw [hbit c (lt_of_lt_of_le hc (nmeta_le sb)), h.metadata c hc]
    simp
  · intro m hm hh
    rw [hused] at hm
    have hsize : (update L n d' m).size = (L m).size := by
      by_cases hmn : m = n
      · rw [hmn, hself, hfields.2.2.2.2]
      · rw [hother m hmn]
    obtain ⟨h1, h2⟩ := h.full m hm hh
    refine ⟨by rwa [hsize], fun bn hbn => ?_⟩
    rw [hsize] at hbn
    rw [hgrow m _ hm (h2 bn hbn)]
    exact h2 bn hbn
  · intro m hm
    rw [hused] at hm
    by_cases hmn : m = n
    · rw [hmn, hself, hfields.2.2.2.2]
      exact h.size_le n hn
    · rw [hother m hmn]
      exact h.size_le m hm
  · funext m
    by_cases hm : Used sb L m
    · rw [nodes_of_used hm, nodes_of_used ((hused m).mpr hm)]
      apply node_congr
      · by_cases hmn : m = n
        · rw [hmn, hself]
          exact hfields
        · rw [hother m hmn]
          exact ⟨rfl, rfl, rfl, rfl, rfl⟩
      · exact fun j hj => hcells m j hm hj
    · rw [nodes_of_not_used hm, nodes_of_not_used (mt (hused m).mp hm)]

end Blocks

section Zeroed

/-- What `balloc` makes of the disk. -/
def zeroed (sb : Superblock) (disk : Disk) (b : ℕ) : Disk :=
  update (setBit sb disk b true) b 0

variable {sb : Superblock} {disk : Disk} {b c n : ℕ}

theorem zeroed_self : zeroed sb disk b b = 0 := update_self _ _ _

theorem zeroed_data (hwf : sb.WellFormed) (hb : sb.IsData b) (hc : sb.IsData c) (hne : c ≠ b) :
    zeroed sb disk b c = disk c := by
  rw [zeroed, update_of_ne hne, setBit_data hwf hc hb.2]

theorem bit_zeroed (hwf : sb.WellFormed) (hb : sb.IsData b) (hc : c < sb.size) :
    bit sb (zeroed sb disk b) c = if c = b then true else bit sb disk c := by
  rw [zeroed, bit_update hwf hb 0 hc, bit_setBit]

theorem dinode_zeroed (hwf : sb.WellFormed) (hb : sb.IsData b) (hn : n < sb.ninodes) :
    dinode sb (zeroed sb disk b) n = dinode sb disk n := by
  rw [zeroed, dinode_update hwf hb 0 hn, dinode_setBit hwf hn]

end Zeroed

namespace Blocks

variable {sb : Superblock} {holey : Set ℕ} {disk disk' : Disk} {L : ℕ → Dinode} {n m k b : ℕ}

theorem alloc_addr (h : Blocks sb holey disk L) (hwf : sb.WellFormed) (hn : Used sb L n)
    (hb : sb.IsData b) (hfree : bit sb disk b = false) (hk : k ≤ NDIRECT) (h0 : addr (L n) k = 0) :
    (∀ j, slot (zeroed sb disk b) (setAddr (L n) k b) j =
        if j = k then b else slot disk (L n) j) ∧
      (∀ j ≠ NDIRECT, cell (zeroed sb disk b) (setAddr (L n) k b) j = cell disk (L n) j) ∧
      Blocks sb holey (zeroed sb disk b) (update L n (setAddr (L n) k b)) ∧
      nodes sb (zeroed sb disk b) (update L n (setAddr (L n) k b)) = nodes sb disk L := by
  have hb32 : b < 2 ^ 32 := lt_trans hb.2 hwf.size_lt
  have haddr (j : ℕ) : addr (setAddr (L n) k b) j = if j = k then b else addr (L n) j :=
    addr_setAddr (L n) k hk hb32
  have hslot (j : ℕ) : slot (zeroed sb disk b) (setAddr (L n) k b) j =
      if j = k then b else slot disk (L n) j := by
    by_cases hj : j ≤ NDIRECT
    · rw [slot_of_le hj, slot_of_le hj, haddr]
    · have hjk : j ≠ k := by omega
      rw [if_neg hjk, slot, slot, if_neg hj, if_neg hj, haddr]
      by_cases hkind : NDIRECT = k
      · -- the new block is the indirect block, and it is empty
        subst hkind
        rw [if_pos rfl, zeroed_self, word_zero, h0]
        simp
      · rw [if_neg hkind]
        by_cases hc : j < NSLOTS ∧ addr (L n) NDIRECT ≠ 0
        · have hd := h.slot_data (k := NDIRECT) hn (by rw [slot_of_le (le_refl _)]; exact hc.2)
          rw [slot_of_le (le_refl _)] at hd
          rw [if_pos hc, if_pos hc, zeroed_data hwf hb hd (h.indirect_ne_free hb hfree hn)]
        · rw [if_neg hc, if_neg hc]
  refine ⟨hslot, h.grow hwf hn hb hfree ?_ ⟨rfl, rfl, rfl, rfl, rfl⟩ hslot ?_ zeroed_self ?_⟩
  · rw [slot_of_le hk, h0]
  · exact fun c hc => bit_zeroed hwf hb hc
  · exact fun c hc hne _ => zeroed_data hwf hb hc hne

theorem alloc_entry (h : Blocks sb holey disk L) (hwf : sb.WellFormed) (hn : Used sb L n)
    (hb : sb.IsData b) (hfree : bit sb disk b = false) {j : ℕ} (hj : j < NINDIRECT)
    (hind : addr (L n) NDIRECT ≠ 0) (h0 : slot disk (L n) (NDIRECT + 1 + j) = 0)
    (hdisk : disk' = update (zeroed sb disk b) (addr (L n) NDIRECT)
      (setWord (zeroed sb disk b (addr (L n) NDIRECT)) j (BitVec.ofNat 32 b))) :
    (∀ i, slot disk' (L n) i = if i = NDIRECT + 1 + j then b else slot disk (L n) i) ∧
      (∀ i ≠ NDIRECT, cell disk' (L n) i = cell disk (L n) i) ∧ Blocks sb holey disk' L ∧
      nodes sb disk' L = nodes sb disk L := by
  set ind := addr (L n) NDIRECT with hindeq
  have hsind : slot disk (L n) NDIRECT = ind := slot_of_le (le_refl _)
  have hdind : sb.IsData ind := by
    have hd := h.slot_data (k := NDIRECT) hn (by rwa [hsind])
    rwa [hsind] at hd
  have hne : ind ≠ b := h.indirect_ne_free hb hfree hn
  have hb32 : b < 2 ^ 32 := lt_trans hb.2 hwf.size_lt
  have hat : disk' ind = setWord (disk ind) j (BitVec.ofNat 32 b) := by
    rw [hdisk, update_self, zeroed_data hwf hb hdind hne]
  have hslot (i : ℕ) : slot disk' (L n) i = if i = NDIRECT + 1 + j then b else slot disk (L n) i := by
    by_cases hi : i ≤ NDIRECT
    · rw [slot_of_le hi, slot_of_le hi, if_neg (by omega)]
    · unfold slot
      rw [if_neg hi, if_neg hi, ← hindeq]
      by_cases hij : i = NDIRECT + 1 + j
      · have hlt : i < NSLOTS ∧ ind ≠ 0 := ⟨by simp only [NSLOTS]; omega, hind⟩
        have hsub : i - (NDIRECT + 1) = j := by omega
        rw [if_pos hlt, if_pos hij, hat, hsub, word_setWord _ _ hj, BitVec.toNat_ofNat,
          Nat.mod_eq_of_lt hb32]
      · rw [if_neg hij, hat, word_setWord_of_ne _ _ (by omega)]
  have hgrow : (∀ i ≠ NDIRECT, cell disk' (L n) i = cell disk (L n) i) ∧
      Blocks sb holey disk' (update L n (L n)) ∧
      nodes sb disk' (update L n (L n)) = nodes sb disk L := by
    refine h.grow hwf hn hb hfree h0 ⟨rfl, rfl, rfl, rfl, rfl⟩ hslot ?_ ?_ ?_
    · intro c hc
      rw [hdisk, bit_update hwf hdind _ hc, bit_zeroed hwf hb hc]
    · rw [hdisk, update_of_ne hne.symm, zeroed_self]
    · intro c hc hcb hci
      rw [hdisk, update_of_ne hci, zeroed_data hwf hb hc hcb]
  rw [update_eq_self] at hgrow
  exact ⟨hslot, hgrow⟩

theorem write (h : Blocks sb holey disk L) (hwf : sb.WellFormed) (hn : Used sb L n)
    (hk : k ≠ NDIRECT) (h0 : slot disk (L n) k ≠ 0) (v : Block) :
    (∀ m, Used sb L m → ∀ j, slot (update disk (slot disk (L n) k) v) (L m) j =
        slot disk (L m) j) ∧
      (∀ m, Used sb L m → ∀ j ≠ NDIRECT, cell (update disk (slot disk (L n) k) v) (L m) j =
        if m = n ∧ j = k then v else cell disk (L m) j) ∧
      Blocks sb holey (update disk (slot disk (L n) k) v) L := by
  set b := slot disk (L n) k with hbeq
  have hb : sb.IsData b := h.slot_data hn h0
  have hind (m : ℕ) (hm : Used sb L m) : addr (L m) NDIRECT ≠ b := by
    intro heq
    have hs : slot disk (L n) k = slot disk (L m) NDIRECT := by
      rw [slot_of_le (le_refl _), heq]
    exact hk (h.slot_inj hn hm hs h0).2
  have hslot (m : ℕ) (hm : Used sb L m) (j : ℕ) :
      slot (update disk b v) (L m) j = slot disk (L m) j :=
    slot_congr (fun _ => update_of_ne (hind m hm) _ _)
  refine ⟨hslot, ?_, ⟨?_, ?_, ?_, h.size_le⟩⟩
  · intro m hm j hj
    unfold cell
    rw [hslot m hm j]
    by_cases hmj : m = n ∧ j = k
    · rw [if_pos hmj, hmj.1, hmj.2, if_neg h0, ← hbeq, update_self]
    · rw [if_neg hmj]
      by_cases hz : slot disk (L m) j = 0
      · rw [if_pos hz, if_pos hz]
      · rw [if_neg hz, if_neg hz, update_of_ne]
        exact fun heq => hmj (h.slot_inj hm hn heq hz)
  · refine h.owns.congr ?_ (fun c hc => bit_update hwf hb v hc.2)
    rintro ⟨m, j⟩
    unfold slots
    by_cases hm : Used sb L m
    · rw [if_pos hm, if_pos hm, hslot m hm j]
    · rw [if_neg hm, if_neg hm]
  · intro c hc
    rw [bit_update hwf hb v (lt_of_lt_of_le hc (nmeta_le sb))]
    exact h.metadata c hc
  · intro m hm hh
    refine ⟨(h.full m hm hh).1, fun bn hbn => ?_⟩
    rw [hslot m hm]
    exact (h.full m hm hh).2 bn hbn

theorem congr {L' : ℕ → Dinode} (h : Blocks sb holey disk L)
    (hL : ∀ n < sb.ninodes, L' n = L n) : Blocks sb holey disk L' := by
  have hused (n : ℕ) : Used sb L' n ↔ Used sb L n := by
    unfold Used
    exact and_congr_right (fun hn => by rw [hL n hn])
  have hslots : slots sb disk L' = slots sb disk L := by
    funext x
    unfold slots
    by_cases hx : Used sb L x.1
    · rw [if_pos hx, if_pos ((hused _).mpr hx), hL _ hx.1]
    · rw [if_neg hx, if_neg (fun hc => hx ((hused _).mp hc))]
  refine ⟨by rw [hslots]; exact h.owns, h.metadata, fun n hn => ?_, fun n hn => ?_⟩
  · rw [hL n hn.1]
    exact h.full n ((hused n).mp hn)
  · rw [hL n hn.1]
    exact h.size_le n ((hused n).mp hn)

theorem set_inode (h : Blocks sb holey disk L) {d' : Dinode}
    (hslots : ∀ k, (if Used sb (update L n d') n then slot disk d' k else 0) =
      if Used sb L n then slot disk (L n) k else 0)
    (hfull : Used sb (update L n d') n → n ∉ holey → HoleFree disk d')
    (hsize : Used sb (update L n d') n → d'.size.toNat ≤ MAXFILE * BSIZE) :
    Blocks sb holey disk (update L n d') := by
  have hother (m : ℕ) (hm : m ≠ n) : update L n d' m = L m := update_of_ne hm d' L
  have hused (m : ℕ) (hm : m ≠ n) : Used sb (update L n d') m ↔ Used sb L m := by
    unfold Used
    rw [hother m hm]
  refine ⟨h.owns.congr ?_ (fun _ _ => rfl), h.metadata, ?_, ?_⟩
  · rintro ⟨m, k⟩
    by_cases hm : m = n
    · subst hm
      simpa only [slots, update_self] using hslots k
    · simp only [slots, hused m hm, hother m hm]
  · intro m hm hh
    by_cases hmn : m = n
    · subst hmn
      rw [update_self]
      exact hfull hm hh
    · rw [hused m hmn] at hm
      rw [hother m hmn]
      exact h.full m hm hh
  · intro m hm
    by_cases hmn : m = n
    · subst hmn
      rw [update_self]
      exact hsize hm
    · rw [hused m hmn] at hm
      rw [hother m hmn]
      exact h.size_le m hm

end Blocks

theorem nodes_update (sb : Superblock) (disk : Disk) (L : ℕ → Dinode) (n : ℕ) (d' : Dinode) :
    nodes sb disk (update L n d') =
      update (nodes sb disk L) n
        (if n < sb.ninodes ∧ d'.type ≠ 0 then node disk d' else .free) := by
  funext m
  by_cases hm : m = n
  · subst hm
    simp only [nodes, update_self]
  · simp only [nodes, update_of_ne hm]

end Xv6.Fs
