import Xv6.MkfsImage

/-! What mkfs builds: after each file the image holds the root directory and the files so far. -/
namespace Xv6.Mkfs

open Icache (Dinode NDIRECT)
open Fs (Superblock IPB BPB NINDIRECT MAXFILE DIRSIZ DESIZE ROOTINO T_DIR T_FILE Dirent addr setAddr
  dinode setDinode bit setBit slot cell blockSlot rawByte Node node nodes Used Blocks HoleFree NSLOTS dot dotdot slash)

section Inodes

variable {N n m : ℕ} {s : St} {f : ℕ → ℕ → BitVec 8} {d : Dinode} {E : Stop → St → Prop}

/-- The state after `winode`. -/
def St.winode (s : St) (n : ℕ) (d : Dinode) : St :=
  { s with img := setDinode sb s.img n d, inodeWrites := s.inodeWrites ++ [sb.iblock n] }

theorem iblock_lt (hN : N ≤ 208) (hn : n < N) : sb.iblock n < nmeta := by
  rw [iblock_eq, nmeta_eq]
  omega

theorem dinode_winode (n : ℕ) (d : Dinode) :
    dinode (view N) (s.winode n d).img = update (dinode (view N) s.img) n d := by
  funext m
  rw [update_apply]
  exact Fs.dinode_setDinode n m d

theorem winode_spec (hN : N ≤ 208) (hn : n < N) (hlen : s.len = FSSIZE) {Q : Unit → St → Prop}
    (hQ : Q () (s.winode n d)) : wp (winode n d) Q E s := by
  have hlt := iblock_lt hN hn
  have hle : nmeta < FSSIZE := by decide
  have hmax : max s.len (sb.iblock n + 1) = s.len := by
    rw [hlen]
    omega
  simp only [winode, rsect, wsect, wp_bind, wp_get]
  rw [if_pos (by rw [hlen]; omega), wp_pure, wp_bind, wp_modify, wp_modify, hmax]
  exact hQ

theorem rinode_spec (hN : N ≤ 208) (hn : n < N) (hlen : s.len = FSSIZE) {Q : Dinode → St → Prop}
    (hQ : Q (dinode (view N) s.img n) s) : wp (rinode n) Q E s := by
  have hlt := iblock_lt hN hn
  have hle : nmeta < FSSIZE := by decide
  simp only [rinode, rsect, wp_bind, wp_get]
  rw [if_pos (by rw [hlen]; omega), wp_pure, wp_pure]
  exact hQ

theorem Built.winode (h : Built N s (update (dinode (view N) s.img) n d) f) (hN : N ≤ 208)
    (hn : n < N) : Built N (s.winode n d) (dinode (view N) (s.winode n d).img) f := by
  have hwf := view_wellFormed hN
  have hdisk : (s.winode n d).disk = setDinode (view N) s.disk n d := marked_setDinode hN hn d
  have hdata (b : ℕ) (hb : (view N).IsData b) : (s.winode n d).disk b = s.disk b := by
    rw [hdisk]
    exact Fs.setDinode_data hwf hb hn d
  rw [dinode_winode]
  refine ⟨h.len, h.low, h.high, ?_, ?_, ?_, h.taken, h.writes⟩
  · apply h.blocks.data_congr hdata
    intro b _
    rw [hdisk]
    exact Fs.bit_setDinode hwf hn d b
  · intro m hm o
    rw [← h.bytes m hm o]
    exact congrArg (fun c => byte c (o % BSIZE)) (h.blocks.cell_data_congr hdata hm)
  · intro b hb
    have hlow := h.low
    have hlt := iblock_lt hN hn
    have hb' : s.freeblock ≤ b := hb
    change setDinode sb s.img n d b = 0
    rw [Fs.setDinode_of_ne d (by omega)]
    exact h.fresh b hb'

/-- The inode `d`, whose blocks hold the bytes `g`, is a file of the given type with the contents
`c`. -/
structure Holds (d : Dinode) (g : ℕ → BitVec 8) (type : BitVec 16) (c : List (BitVec 8)) : Prop where
  fields : d.type = type ∧ d.major = 0 ∧ d.minor = 0 ∧ d.nlink = 1
  size : d.size.toNat = c.length
  bytes : ∀ o, g o = c.getD o 0

/-- The inodes `1` to `m - 1` are written; `c n` is the type and the contents of the inode `n`. -/
structure Image (N : ℕ) (s : St) (m : ℕ) (c : ℕ → BitVec 16 × List (BitVec 8)) : Prop where
  built : Built N s (dinode (view N) s.img) (fun n => rawByte s.disk (dinode (view N) s.img n))
  freeinode : s.freeinode = m
  pos : 1 ≤ m
  le : m ≤ N
  types : ∀ n, 0 < n → n < m → (c n).1 ≠ 0
  holds : ∀ n, 0 < n → n < m →
    Holds (dinode (view N) s.img n) (rawByte s.disk (dinode (view N) s.img n)) (c n).1 (c n).2
  free : ∀ n < N, n = 0 ∨ m ≤ n → (dinode (view N) s.img n).type = 0
  tight : ∀ n, 0 < n → n < m → Tight s.disk (dinode (view N) s.img n) (c n).2.length
  count : s.freeblock = nmeta + ∑ n ∈ Finset.Ico 1 m, need (c n).2.length
  inodes : s.inodes = List.range' 1 (m - 1)
  inodeWrites : ∀ b ∈ s.inodeWrites, sb.inodestart ≤ b ∧ b < sb.bmapstart
  superblock : s.img 1 = superblock
  log : s.img 2 = 0

namespace Image

variable {c : ℕ → BitVec 16 × List (BitVec 8)}

theorem used_iff (h : Image N s m c) : Used (view N) (dinode (view N) s.img) n ↔ 0 < n ∧ n < m := by
  constructor
  · intro hn
    by_contra hout
    exact hn.2 (h.free n hn.1 (by omega))
  · intro hn
    refine ⟨lt_of_lt_of_le hn.2 h.le, ?_⟩
    rw [(h.holds n hn.1 hn.2).fields.1]
    exact h.types n hn.1 hn.2

theorem length_le (h : Image N s m c) (h0 : 0 < n) (hn : n < m) : (c n).2.length ≤ MAXFILE * BSIZE := by
  have hle := h.built.blocks.size_le n (h.used_iff.mpr ⟨h0, hn⟩)
  rwa [(h.holds n h0 hn).size] at hle

theorem low_img (hN : N ≤ 208) (hn : n < N) {b : ℕ} (hb : b < sb.inodestart) :
    (s.winode n d).img b = s.img b := by
  apply Fs.setDinode_of_ne
  rw [iblock_eq]
  have h : sb.inodestart = 33 := by decide
  omega

theorem writes_winode (h : ∀ b ∈ s.inodeWrites, sb.inodestart ≤ b ∧ b < sb.bmapstart) (hN : N ≤ 208)
    (hn : n < N) : ∀ b ∈ (s.winode n d).inodeWrites, sb.inodestart ≤ b ∧ b < sb.bmapstart := by
  intro b hb
  rcases List.mem_append.mp hb with h1 | h1
  · exact h b h1
  · have hstart : sb.inodestart = 33 := by decide
    rw [List.mem_singleton.mp h1, iblock_eq, bmapstart_eq, hstart]
    omega

end Image

theorem Built.congr {L L' : ℕ → Dinode} (h : Built N s L f) (hL : ∀ n < N, L' n = L n) : Built N s L' f := by
  refine { h with blocks := h.blocks.congr hL, bytes := fun n hn o => ?_ }
  rw [hL n hn.1]
  rw [Used, hL n hn.1] at hn
  exact h.bytes n hn o

theorem dinode_of_metadata {s s' : St} (h : ∀ b < nmeta, s'.img b = s.img b) (hN : N ≤ 208) (hn : n < N) :
    dinode (view N) s'.img n = dinode (view N) s.img n := by
  have hb : s'.img ((view N).iblock n) = s.img ((view N).iblock n) := h _ (iblock_lt hN hn)
  rw [dinode, dinode, hb]

end Inodes

section Steps

variable {N n m : ℕ} {s : St} {d : Dinode} {F : Prop} {E : Stop → St → Prop}
  {c : ℕ → BitVec 16 × List (BitVec 8)}

theorem Image.other (h : Image N s m c) (hn : 0 < n ∧ n < m) {s1 : St} {d1 : Dinode}
    (hframe : Frame s (dinode (view N) s.img n) s1 d1) {k : ℕ} (hk : 0 < k ∧ k < m) (hkn : k ≠ n) (j : ℕ) :
    slot s1.disk (dinode (view N) s.img k) j = slot s.disk (dinode (view N) s.img k) j := by
  have hun := h.used_iff.mpr hn
  have huk := h.used_iff.mpr hk
  have hs : slot s.disk (dinode (view N) s.img k) NDIRECT = addr (dinode (view N) s.img k) NDIRECT :=
    Fs.slot_of_le (le_refl _)
  apply Fs.slot_congr
  intro h0
  have hdata := h.built.data_of_slot (k := NDIRECT) huk (by rwa [hs])
  have hlt := h.built.slot_lt (k := NDIRECT) huk (by rwa [hs])
  rw [hs] at hdata hlt
  rw [St.disk_data hdata.1, St.disk_data hdata.1]
  apply hframe.kept _ hlt
  intro i heq
  have hinj := h.built.blocks.slot_inj hun huk (heq.trans hs.symm) (by rw [heq]; exact h0)
  exact hkn hinj.1.symm

theorem Image.change (h : Image N s m c) (hN : N ≤ 208) (hn : 0 < n ∧ n < m) {s1 : St} {d1 : Dinode}
    {f : ℕ → ℕ → BitVec 8} {sz : BitVec 32} {p : List (BitVec 8)}
    (hframe : Frame s (dinode (view N) s.img n) s1 d1)
    (hb : Built N s1 (update (dinode (view N) s.img) n { d1 with size := sz }) f)
    (hf : ∀ k ≠ n, f k = rawByte s.disk (dinode (view N) s.img k))
    (hholds : Holds { d1 with size := sz } (f n) (c n).1 p) (htight : Tight s1.disk d1 p.length)
    (hcount : s1.freeblock + need (c n).2.length = s.freeblock + need p.length) :
    Image N (s1.winode n { d1 with size := sz }) m (update c n ((c n).1, p)) := by
  have hnN : n < N := lt_of_lt_of_le hn.2 h.le
  have hmeta (k : ℕ) (hk : k < N) : dinode (view N) s1.img k = dinode (view N) s.img k :=
    dinode_of_metadata hframe.metadata hN hk
  have hb1 : Built N s1 (update (dinode (view N) s1.img) n { d1 with size := sz }) f := by
    apply hb.congr
    intro k hk
    rw [update_apply, update_apply, hmeta k hk]
  have hb2 := hb1.winode hN hnN
  have hdin (k : ℕ) (hk : k < N) : dinode (view N) (s1.winode n { d1 with size := sz }).img k =
      if k = n then { d1 with size := sz } else dinode (view N) s.img k := by
    rw [dinode_winode, update_apply, hmeta k hk]
  have hdata (b : ℕ) (hb : nmeta ≤ b) :
      (s1.winode n { d1 with size := sz }).disk b = s1.disk b := by
    rw [St.disk_data hb, St.disk_data hb]
    apply Fs.setDinode_of_ne
    have := iblock_lt hN hnN
    omega
  have hslot1 (j : ℕ) : slot (s1.winode n { d1 with size := sz }).disk d1 j = slot s1.disk d1 j := by
    have hused : Used (view N) (update (dinode (view N) s.img) n { d1 with size := sz }) n := by
      rw [Used, update_self]
      refine ⟨hnN, ?_⟩
      rw [hholds.fields.1]
      exact h.types n hn.1 hn.2
    have := hb.blocks.slot_data_congr (k := j) (fun b hb => hdata b (isData_iff.mp hb).1) hused
    rw [update_self] at this
    exact this
  refine ⟨{ hb2 with bytes := fun _ _ _ => rfl }, hframe.freeinode.trans h.freeinode, h.pos, h.le, ?_, ?_, ?_,
    ?_, ?_, hframe.inodes.trans h.inodes, ?_, ?_, ?_⟩
  · intro k h0 hk
    by_cases hkn : k = n
    · rw [hkn, update_self]
      exact h.types n hn.1 hn.2
    · rw [update_of_ne hkn]
      exact h.types k h0 hk
  · intro k h0 hk
    have hkN : k < N := lt_of_lt_of_le hk h.le
    have hused : Used (view N) (dinode (view N) (s1.winode n { d1 with size := sz }).img) k := by
      refine ⟨hkN, ?_⟩
      rw [hdin k hkN]
      split_ifs with hkn
      · rw [hholds.fields.1]
        exact h.types n hn.1 hn.2
      · exact (h.used_iff.mpr ⟨h0, hk⟩).2
    have hbytes := hb2.bytes k hused
    rw [hdin k hkN] at hbytes ⊢
    by_cases hkn : k = n
    · subst hkn
      rw [if_pos rfl] at hbytes ⊢
      rw [update_self]
      exact ⟨hholds.fields, hholds.size, fun o => (hbytes o).trans (hholds.bytes o)⟩
    · rw [if_neg hkn] at hbytes ⊢
      rw [update_of_ne hkn]
      have hold := h.holds k h0 hk
      refine ⟨hold.fields, hold.size, fun o => ?_⟩
      rw [hbytes o, hf k hkn]
      exact hold.bytes o
  · intro k hk hout
    rw [hdin k hk, if_neg (by omega)]
    exact h.free k hk hout
  · intro k h0 hk
    have hkN : k < N := lt_of_lt_of_le hk h.le
    rw [hdin k hkN]
    by_cases hkn : k = n
    · subst hkn
      rw [if_pos rfl, update_self]
      exact ⟨fun bn hbn => (hslot1 _).trans (htight.past bn hbn), htight.indirect⟩
    · rw [if_neg hkn, update_of_ne hkn]
      have hold := h.tight k h0 hk
      refine ⟨fun bn hbn => ?_, hold.indirect⟩
      have huk : Used (view N) (update (dinode (view N) s.img) n { d1 with size := sz }) k := by
        rw [Used, update_of_ne hkn]
        exact h.used_iff.mpr ⟨h0, hk⟩
      have h1 := hb.blocks.slot_data_congr (k := blockSlot bn)
        (fun b hb => hdata b (isData_iff.mp hb).1) huk
      rw [update_of_ne hkn] at h1
      rw [h1, h.other hn hframe ⟨h0, hk⟩ hkn]
      exact hold.past bn hbn
  · have hmem : n ∈ Finset.Ico 1 m := Finset.mem_Ico.mpr hn
    have hsum : ∑ k ∈ (Finset.Ico 1 m).erase n, need (update c n ((c n).1, p) k).2.length =
        ∑ k ∈ (Finset.Ico 1 m).erase n, need (c k).2.length := by
      apply Finset.sum_congr rfl
      intro k hk
      rw [update_of_ne (Finset.ne_of_mem_erase hk)]
    have hold := h.count
    rw [← Finset.add_sum_erase _ _ hmem] at hold
    change s1.freeblock = _
    rw [← Finset.add_sum_erase _ _ hmem, hsum, update_self]
    change s1.freeblock = nmeta + (need p.length + _)
    omega
  · apply Image.writes_winode ?_ hN hnN
    rw [hframe.inodeWrites]
    exact h.inodeWrites
  · rw [Image.low_img hN hnN (by decide), hframe.metadata 1 (by decide)]
    exact h.superblock
  · rw [Image.low_img hN hnN (by decide), hframe.metadata 2 (by decide)]
    exact h.log

theorem iappend_spec (h : Image N s m c) (hN : N ≤ 208) (hn : 0 < n ∧ n < m) {p : List (BitVec 8)}
    (hfit : F → s.freeblock + need ((c n).2.length + p.length) ≤ FSSIZE + need (c n).2.length ∧
      (c n).2.length + p.length ≤ MAXFILE * BSIZE) :
    wp (iappend n p) (fun _ s' => Image N s' m (update c n ((c n).1, (c n).2 ++ p)) ∧
      s'.freeblock + need (c n).2.length = s.freeblock + need ((c n).2.length + p.length))
      (fun _ _ => ¬ F) s := by
  have hnN : n < N := lt_of_lt_of_le hn.2 h.le
  have hused := h.used_iff.mpr hn
  have hold := h.holds n hn.1 hn.2
  rw [iappend, wp_bind]
  apply rinode_spec hN hnN h.built.len
  have hL : dinode (view N) s.img n = { dinode (view N) s.img n with
      size := BitVec.ofNat 32 (dinode (view N) s.img n).size.toNat } := by
    rw [BitVec.ofNat_toNat, BitVec.setWidth_eq]
  have htight := h.tight n hn.1 hn.2
  rw [hold.size] at hL ⊢
  refine wp_seq (appendLoop_spec hN p.length h.built hused hL (h.length_le hn.1 hn.2) htight
    (le_refl _) hfit) ?_
  rintro ⟨d1, off1⟩ s1 ⟨hoff1, happ⟩
  have hoff1' : off1 = (c n).2.length + p.length := hoff1
  subst hoff1'
  apply winode_spec hN hnN happ.built.len
  refine ⟨?_, happ.count⟩
  have hlen : ((c n).2 ++ p).length = (c n).2.length + p.length := List.length_append
  have hsize : (BitVec.ofNat 32 ((c n).2.length + p.length)).toNat = (c n).2.length + p.length := by
    have hle := happ.size_le
    simp only [MAXFILE, NDIRECT, NINDIRECT, BSIZE] at hle
    rw [BitVec.toNat_ofNat, Nat.mod_eq_of_lt (by omega)]
  apply h.change hN hn happ.frame happ.built
  · intro k hk
    rw [update_of_ne hk]
  · obtain ⟨h1, h2, h3, h4⟩ := happ.like
    obtain ⟨g1, g2, g3, g4⟩ := hold.fields
    refine ⟨⟨h1.trans g1, h2.trans g2, h3.trans g3, h4.trans g4⟩, hsize.trans hlen.symm, fun o => ?_⟩
    rw [update_self, splice, hold.bytes o]
    by_cases ho : o < (c n).2.length
    · rw [if_neg (by omega), List.getD_append _ _ _ _ ho]
    · rw [List.getD_append_right _ _ _ _ (by omega)]
      by_cases hin : o < (c n).2.length + p.length
      · rw [if_pos (by omega)]
      · rw [if_neg (by omega), List.getD_eq_default _ _ (by omega), List.getD_eq_default _ _ (by omega)]
  · rw [hlen]
    exact happ.tight
  · rw [hlen]
    exact happ.count

/-- The inode that `ialloc` writes. -/
def newDinode (type : BitVec 16) : Dinode := { Dinode.zero with type := type, nlink := 1 }

theorem slot_newDinode (disk : Disk) (type : BitVec 16) (k : ℕ) : slot disk (newDinode type) k = 0 := by
  have haddr (j : ℕ) : addr (newDinode type) j = 0 := Fs.addr_of_zeros j type
  unfold slot
  simp only [haddr, ne_eq, not_true_eq_false, and_false, if_false, ite_self]

theorem ialloc_spec (h : Image N s m c) (hN : N ≤ 208) (hm : m < N) {t : BitVec 16} (htype : t ≠ 0) :
    wp (ialloc t) (fun r s' => r = m ∧ Image N s' (m + 1) (update c m (t, [])) ∧
      s'.freeblock = s.freeblock) E s := by
  have hpos := h.pos
  simp only [ialloc, wp_bind, wp_get, wp_set, h.freeinode]
  set s1 : St := { s with freeinode := m + 1, inodes := s.inodes ++ [m] } with hs1
  apply winode_spec (s := s1) hN hm h.built.len
  rw [wp_pure]
  refine ⟨rfl, ?_, rfl⟩
  change Image N (s1.winode m (newDinode t)) (m + 1) _
  have hnot : ¬ Used (view N) (dinode (view N) s.img) m := fun hc => hc.2 (h.free m hm (.inr (le_refl m)))
  have hother (k : ℕ) (hk : k ≠ m) : update (dinode (view N) s.img) m (newDinode t) k =
      dinode (view N) s.img k := update_of_ne hk _ _
  have hb1 : Built N s1 (update (dinode (view N) s1.img) m (newDinode t))
      (update (fun n => rawByte s.disk (dinode (view N) s.img n)) m (fun _ => 0)) := by
    refine ⟨h.built.len, h.built.low, h.built.high, ?_, ?_, h.built.fresh, h.built.taken, h.built.writes⟩
    · refine h.built.blocks.set_inode (fun k => ?_) (fun _ _ => ⟨zero_le, fun bn hbn => ?_⟩)
        (fun _ => zero_le)
      · rw [if_neg hnot, slot_newDinode, ite_self]
      · exact absurd hbn (Nat.not_lt_zero _)
    · intro k hk o
      by_cases hkm : k = m
      · subst hkm
        rw [update_self, update_self, rawByte, cell, slot_newDinode, if_pos rfl, byte_zero]
      · rw [update_of_ne hkm, update_of_ne hkm]
        rfl
  have hb2 := hb1.winode hN hm
  have hdin (k : ℕ) : dinode (view N) (s1.winode m (newDinode t)).img k =
      if k = m then newDinode t else dinode (view N) s.img k := by
    rw [dinode_winode, update_apply]
  have hused (k : ℕ) (h0 : 0 < k) (hk : k < m + 1) :
      Used (view N) (dinode (view N) (s1.winode m (newDinode t)).img) k := by
    refine ⟨by change k < N; omega, ?_⟩
    rw [hdin k]
    split_ifs with hkm
    · exact htype
    · exact (h.used_iff.mpr ⟨h0, by omega⟩).2
  have hdata (b : ℕ) (hb : (view N).IsData b) : (s1.winode m (newDinode t)).disk b = s.disk b := by
    have hge := (isData_iff.mp hb).1
    rw [St.disk_data hge, St.disk_data hge]
    apply Fs.setDinode_of_ne
    have := iblock_lt hN hm
    omega
  refine ⟨{ hb2 with bytes := fun _ _ _ => rfl }, rfl, by omega, hm, ?_, ?_, ?_, ?_, ?_, ?_, ?_, ?_, ?_⟩
  · intro k h0 hk
    by_cases hkm : k = m
    · rw [hkm, update_self]
      exact htype
    · rw [update_of_ne hkm]
      exact h.types k h0 (by omega)
  · intro k h0 hk
    have hbytes := hb2.bytes k (hused k h0 hk)
    rw [hdin k] at hbytes ⊢
    by_cases hkm : k = m
    · subst hkm
      rw [if_pos rfl] at hbytes ⊢
      rw [update_self]
      refine ⟨⟨rfl, rfl, rfl, rfl⟩, rfl, fun o => ?_⟩
      rw [hbytes o, update_self]
      rfl
    · rw [if_neg hkm] at hbytes ⊢
      rw [update_of_ne hkm]
      have hold := h.holds k h0 (by omega)
      refine ⟨hold.fields, hold.size, fun o => ?_⟩
      rw [hbytes o, update_of_ne hkm]
      exact hold.bytes o
  · intro k hk hout
    rw [hdin k, if_neg (by omega)]
    exact h.free k hk (by omega)
  · intro k h0 hk
    rw [hdin k]
    by_cases hkm : k = m
    · rw [if_pos hkm, hkm, update_self]
      exact ⟨fun bn _ => slot_newDinode _ _ _, fun _ => Fs.addr_of_zeros _ t⟩
    · rw [if_neg hkm, update_of_ne hkm]
      have hold := h.tight k h0 (by omega)
      refine ⟨fun bn hbn => ?_, hold.indirect⟩
      rw [h.built.blocks.slot_data_congr hdata (h.used_iff.mpr ⟨h0, by omega⟩)]
      exact hold.past bn hbn
  · change s.freeblock = _
    rw [Finset.sum_Ico_succ_top hpos, update_self]
    have hsum : ∑ k ∈ Finset.Ico 1 m, need (update c m (t, []) k).2.length =
        ∑ k ∈ Finset.Ico 1 m, need (c k).2.length := by
      apply Finset.sum_congr rfl
      intro k hk
      rw [update_of_ne (by have := Finset.mem_Ico.mp hk; omega)]
    have hzero : need ([] : List (BitVec 8)).length = 0 := by decide
    rw [hsum, h.count]
    change _ = nmeta + (_ + need ([] : List (BitVec 8)).length)
    rw [hzero, add_zero]
  · change s.inodes ++ [m] = List.range' 1 (m + 1 - 1)
    rw [h.inodes, show m + 1 - 1 = m - 1 + 1 by omega, List.range'_concat, show 1 + 1 * (m - 1) = m by omega]
  · exact Image.writes_winode h.inodeWrites hN hm
  · rw [Image.low_img hN hm (by decide)]
    exact h.superblock
  · rw [Image.low_img hN hm (by decide)]
    exact h.log

theorem Image.congr (h : Image N s m c) {c' : ℕ → BitVec 16 × List (BitVec 8)}
    (hc : ∀ n, 0 < n → n < m → c' n = c n) : Image N s m c' := by
  refine { h with types := ?_, holds := ?_, tight := ?_, count := ?_ }
  · intro n h0 hn
    rw [hc n h0 hn]
    exact h.types n h0 hn
  · intro n h0 hn
    rw [hc n h0 hn]
    exact h.holds n h0 hn
  · intro n h0 hn
    rw [hc n h0 hn]
    exact h.tight n h0 hn
  · rw [h.count]
    congr 1
    apply Finset.sum_congr rfl
    intro n hn
    have := Finset.mem_Ico.mp hn
    rw [hc n (by omega) this.2]

theorem appendAll_spec (cs : List (List (BitVec 8))) (h : Image N s m c) (hN : N ≤ 208)
    (hn : 0 < n ∧ n < m)
    (hfit : F → s.freeblock + need ((c n).2.length + cs.flatten.length) ≤ FSSIZE + need (c n).2.length ∧
      (c n).2.length + cs.flatten.length ≤ MAXFILE * BSIZE) :
    wp (appendAll n cs) (fun _ s' => Image N s' m (update c n ((c n).1, (c n).2 ++ cs.flatten)))
      (fun _ _ => ¬ F) s := by
  induction cs generalizing s c with
  | nil =>
    rw [appendAll, wp_pure, List.flatten_nil, List.append_nil, update_eq_self]
    exact h
  | cons p cs ih =>
    have hlen : (p :: cs).flatten.length = p.length + cs.flatten.length := by
      rw [List.flatten_cons, List.length_append]
    rw [hlen] at hfit
    rw [appendAll]
    refine wp_seq (iappend_spec (F := F) h hN hn (fun hf => ?_)) ?_
    · have h1 := hfit hf
      have h2 : need ((c n).2.length + p.length) ≤ need ((c n).2.length + (p.length + cs.flatten.length)) :=
        need_mono (by omega)
      omega
    · rintro - s1 ⟨h1, hcount⟩
      have hlen1 : ((c n).2 ++ p).length = (c n).2.length + p.length := List.length_append
      refine wp_imp (ih h1 ?_) ?_
      · intro hf
        have h2 := hfit hf
        rw [update_self]
        simp only [hlen1]
        rw [Nat.add_assoc]
        omega
      · intro _ s2 h2
        rw [update_self, update_idem] at h2
        rw [List.flatten_cons, ← List.append_assoc]
        exact h2

end Steps

section Main

def Input.contents (f : Input) : List (BitVec 8) := (f.reads.getD []).flatten

/-- The file can be opened, and its name is accepted. -/
structure Input.Valid (f : Input) : Prop where
  noSlash : slash ∉ f.base
  opens : f.reads ≠ none
  short : f.shortname.length ≤ DIRSIZ

/-- The entries of the root directory. -/
def rootEntries (fs : List Input) : List Dirent :=
  makeDirent ROOTINO dot :: makeDirent ROOTINO dotdot ::
    (fs.zipIdx 2).map (fun x => makeDirent x.2 x.1.shortname)

/-- The type and the contents of the inode `n`. -/
def layout (fs : List Input) (n : ℕ) : BitVec 16 × List (BitVec 8) :=
  if n = 1 then (T_DIR, (rootEntries fs).flatMap direntBytes)
  else (T_FILE, (fs[n - 2]?.map Input.contents).getD [])

/-- How many data blocks the files and the root directory take. -/
def dataBlocks (fs : List Input) : ℕ :=
  need (DESIZE * (fs.length + 2)) + (fs.map (fun f => need f.contents.length)).sum

variable {N : ℕ} {s : St} {F : Prop}

theorem length_direntBytes (de : Dirent) : (direntBytes de).length = DESIZE := by
  rw [direntBytes, List.length_map, List.length_range]

theorem length_flatMap_direntBytes (es : List Dirent) :
    (es.flatMap direntBytes).length = DESIZE * es.length := by
  induction es with
  | nil => rfl
  | cons e es ih =>
    rw [List.flatMap_cons, List.length_append, length_direntBytes, ih, List.length_cons]
    ring

theorem rootEntries_snoc (fs : List Input) (f : Input) :
    rootEntries (fs ++ [f]) = rootEntries fs ++ [makeDirent (fs.length + 2) f.shortname] := by
  simp only [rootEntries, List.zipIdx_append, List.map_append, List.cons_append, List.zipIdx_singleton,
    List.map_cons, List.map_nil, Nat.add_comm]

theorem length_rootEntries (fs : List Input) : (rootEntries fs).length = fs.length + 2 := by
  simp only [rootEntries, List.length_cons, List.length_map, List.length_zipIdx]

theorem layout_root (fs : List Input) : layout fs 1 = (T_DIR, (rootEntries fs).flatMap direntBytes) :=
  if_pos rfl

theorem length_layout_root (fs : List Input) : (layout fs 1).2.length = DESIZE * (fs.length + 2) := by
  rw [layout_root, length_flatMap_direntBytes, length_rootEntries]

theorem layout_old {fs : List Input} {f : Input} {n : ℕ} (h2 : 2 ≤ n) (hn : n < fs.length + 2) :
    layout (fs ++ [f]) n = layout fs n := by
  rw [layout, layout, if_neg (by omega), if_neg (by omega), List.getElem?_append_left (by omega)]

theorem layout_new (fs : List Input) (f : Input) :
    layout (fs ++ [f]) (fs.length + 2) = (T_FILE, f.contents) := by
  rw [layout, if_neg (by omega), Nat.add_sub_cancel, List.getElem?_append_right (le_refl _), Nat.sub_self]
  rfl

theorem dataBlocks_snoc (fs : List Input) (f : Input) :
    dataBlocks (fs ++ [f]) + need (DESIZE * (fs.length + 2)) =
      dataBlocks fs + need (DESIZE * (fs.length + 3)) + need f.contents.length := by
  simp only [dataBlocks, List.length_append, List.length_singleton, List.map_append, List.sum_append,
    List.map_cons, List.map_nil, List.sum_singleton]
  ring

theorem dataBlocks_le (fs gs : List Input) : dataBlocks fs ≤ dataBlocks (fs ++ gs) := by
  simp only [dataBlocks, List.length_append, List.map_append, List.sum_append]
  have h : need (DESIZE * (fs.length + 2)) ≤ need (DESIZE * (fs.length + gs.length + 2)) :=
    need_mono (Nat.mul_le_mul_left _ (by omega))
  omega

theorem sum_layout (fs : List Input) :
    ∑ n ∈ Finset.Ico 1 (fs.length + 2), need (layout fs n).2.length = dataBlocks fs := by
  have hfiles : ∑ n ∈ Finset.Ico 2 (fs.length + 2), need (layout fs n).2.length =
      (fs.map (fun f => need f.contents.length)).sum := by
    induction fs using List.reverseRecOn with
    | nil => rfl
    | append_singleton fs f ih =>
      have hold : ∑ n ∈ Finset.Ico 2 (fs.length + 2), need (layout (fs ++ [f]) n).2.length =
          ∑ n ∈ Finset.Ico 2 (fs.length + 2), need (layout fs n).2.length := by
        apply Finset.sum_congr rfl
        intro n hn
        rw [layout_old (Finset.mem_Ico.mp hn).1 (Finset.mem_Ico.mp hn).2]
      rw [List.length_append, List.length_singleton, show fs.length + 1 + 2 = fs.length + 2 + 1 by omega,
        Finset.sum_Ico_succ_top (by omega), hold, ih, layout_new]
      simp only [List.map_append, List.sum_append, List.map_cons, List.map_nil, List.sum_singleton]
  rw [Finset.sum_eq_sum_Ico_succ_bot (by omega), hfiles, length_layout_root, dataBlocks]

theorem root_le (hN : N ≤ 208) {k : ℕ} (hk : k ≤ N) : DESIZE * k ≤ MAXFILE * BSIZE := by
  have h1 : DESIZE * k ≤ DESIZE * 208 := Nat.mul_le_mul_left _ (le_trans hk hN)
  exact le_trans h1 (by decide)

theorem addFile_spec {fs : List Input} {f : Input} (h : Image N s (fs.length + 2) (layout fs)) (hN : N ≤ 208)
    (hm : fs.length + 2 < N)
    (hfit : F → f.Valid ∧ f.contents.length ≤ MAXFILE * BSIZE ∧
      nmeta + dataBlocks (fs ++ [f]) ≤ FSSIZE) :
    wp (addFile ROOTINO f) (fun _ s' => f.Valid ∧ Image N s' (fs.length + 3) (layout (fs ++ [f])))
      (fun _ _ => ¬ F) s := by
  have hcount := h.count
  rw [sum_layout] at hcount
  have hsnoc := dataBlocks_snoc fs f
  change wp (addFile 1 f) _ _ s
  rw [addFile]
  by_cases hslash : slash ∈ f.base
  · rw [if_pos hslash, wp_throw]
    exact fun hf => (hfit hf).1.noSlash hslash
  · rw [if_neg hslash]
    cases hreads : f.reads with
    | none =>
      rw [wp_throw]
      exact fun hf => (hfit hf).1.opens hreads
    | some cs =>
      by_cases hshort : f.shortname.length ≤ DIRSIZ
      · have hcontents : f.contents = cs.flatten := by
          rw [Input.contents, hreads]
          rfl
        simp only [if_pos hshort]
        refine wp_seq (ialloc_spec h hN hm (by decide)) ?_
        rintro r s1 ⟨rfl, h1, hfree1⟩
        rw [wp_bind]
        have hne : (1 : ℕ) ≠ fs.length + 2 := by omega
        have hroot : update (layout fs) (fs.length + 2) (T_FILE, []) 1 = layout fs 1 :=
          update_of_ne hne _ _
        have hlen : (layout fs 1).2.length + (direntBytes (makeDirent (fs.length + 2) f.shortname)).length =
            DESIZE * (fs.length + 3) := by
          rw [length_layout_root, length_direntBytes]
          ring
        have hone : 0 < 1 ∧ 1 < fs.length + 2 + 1 := by omega
        have happend := iappend_spec (F := F) h1 hN hone
          (p := direntBytes (makeDirent (fs.length + 2) f.shortname))
        rw [hroot, hlen, length_layout_root] at happend
        refine wp_imp (happend (fun hf => ?_)) ?_
        · obtain ⟨-, -, hle⟩ := hfit hf
          exact ⟨by omega, root_le hN (by omega)⟩
        · rintro - s2 ⟨h2, hcount2⟩
          -- the new file has its entry, but it is still empty
          have h2' : Image N s2 (fs.length + 2 + 1)
              (update (layout (fs ++ [f])) (fs.length + 2) (T_FILE, [])) := by
            apply h2.congr
            intro n h0 hn
            by_cases hnew : n = fs.length + 2
            · rw [hnew, update_self, update_of_ne hne.symm, update_self]
            · rw [update_of_ne hnew]
              by_cases hn1 : n = 1
              · rw [hn1, update_self, layout_root, layout_root, rootEntries_snoc, List.flatMap_append]
                simp only [List.flatMap_cons, List.flatMap_nil, List.append_nil]
              · rw [update_of_ne hn1, update_of_ne hnew, layout_old (by omega) (by omega)]
          have hfill := appendAll_spec (F := F) (n := fs.length + 2) cs h2' hN ⟨by omega, by omega⟩
          rw [update_self, update_idem] at hfill
          refine wp_imp (hfill (fun hf => ?_)) ?_
          · obtain ⟨-, hmax, hle⟩ := hfit hf
            have hzero : need 0 = 0 := by decide
            rw [List.length_nil, zero_add, ← hcontents, hzero]
            exact ⟨by omega, hmax⟩
          · intro _ s3 h3
            refine ⟨⟨hslash, by rw [hreads]; exact Option.some_ne_none cs, hshort⟩, h3.congr ?_⟩
            intro n _ _
            by_cases hnew : n = fs.length + 2
            · rw [hnew, update_self, layout_new, hcontents, List.nil_append]
            · rw [update_of_ne hnew]
      · simp only [if_neg hshort]
        rw [wp_throw]
        exact fun hf => hshort (hfit hf).1.short

theorem addFiles_spec (hN : N ≤ 208) (gs : List Input) {fs : List Input}
    (h : Image N s (fs.length + 2) (layout fs)) (hm : fs.length + gs.length + 2 ≤ N)
    (hfit : F → (∀ f ∈ gs, f.Valid ∧ f.contents.length ≤ MAXFILE * BSIZE) ∧
      nmeta + dataBlocks (fs ++ gs) ≤ FSSIZE) :
    wp (addFiles ROOTINO gs) (fun _ s' => (∀ f ∈ gs, f.Valid) ∧
      Image N s' (fs.length + gs.length + 2) (layout (fs ++ gs))) (fun _ _ => ¬ F) s := by
  induction gs generalizing s fs with
  | nil =>
    rw [addFiles, wp_pure, List.append_nil]
    exact ⟨fun f hf => absurd hf List.not_mem_nil, h⟩
  | cons g gs ih =>
    have happ : fs ++ g :: gs = (fs ++ [g]) ++ gs := by rw [List.append_assoc]; rfl
    have hlen : (fs ++ [g]).length = fs.length + 1 := List.length_append
    rw [List.length_cons] at hm
    rw [addFiles]
    refine wp_seq (addFile_spec (F := F) h hN (by omega) (fun hf => ?_)) ?_
    · obtain ⟨hv, hle⟩ := hfit hf
      have h1 := hv g List.mem_cons_self
      have h2 := dataBlocks_le (fs ++ [g]) gs
      rw [← happ] at h2
      exact ⟨h1.1, h1.2, by omega⟩
    · rintro - s1 ⟨hg, h1⟩
      have h1' : Image N s1 ((fs ++ [g]).length + 2) (layout (fs ++ [g])) := by
        rw [hlen]
        exact h1
      refine wp_imp (ih h1' (by rw [hlen]; omega) (fun hf => ?_)) ?_
      · obtain ⟨hv, hle⟩ := hfit hf
        rw [← happ]
        exact ⟨fun f hf' => hv f (List.mem_cons_of_mem g hf'), hle⟩
      · rintro - s2 ⟨hv, h2⟩
        rw [hlen, ← happ] at h2
        refine ⟨fun f hf => ?_, ?_⟩
        · rcases List.mem_cons.mp hf with rfl | hf
          · exact hg
          · exact hv f hf
        · rw [List.length_cons, show fs.length + (gs.length + 1) + 2 = fs.length + 1 + gs.length + 2 by omega]
          exact h2

def blank : Disk := fun _ => 0

/-- The image before the first inode: the superblock and zeros. -/
def zeroed : St := ⟨update blank 1 superblock, FSSIZE, 1, nmeta, [], [], [], []⟩

theorem zeroed_img {b : ℕ} (h : b ≠ 1) : zeroed.img b = 0 := by
  change update blank 1 superblock b = 0
  exact update_of_ne h superblock blank

theorem zeroed_image (hN : N ≤ 208) (h1 : 1 ≤ N) (c : ℕ → BitVec 16 × List (BitVec 8)) :
    Image N zeroed 1 c := by
  have hle : nmeta ≤ FSSIZE := by decide
  have htype (n : ℕ) (hn : n < N) : (dinode (view N) zeroed.img n).type = 0 := by
    have himg : zeroed.img ((view N).iblock n) = 0 := by
      apply zeroed_img
      change sb.iblock n ≠ 1
      rw [iblock_eq]
      omega
    rw [dinode, himg, Fs.ofBits]
    simp [getField]
  have hnot (n : ℕ) : ¬ Used (view N) (dinode (view N) zeroed.img) n := fun hc => hc.2 (htype n hc.1)
  have hslots (x : ℕ × ℕ) : Fs.slots (view N) zeroed.disk (dinode (view N) zeroed.img) x = 0 := if_neg (hnot _)
  have hbits (b : ℕ) (hb : b < FSSIZE) : bit (view N) zeroed.disk b = decide (b < nmeta) := bit_marked hle hb
  refine ⟨⟨rfl, le_refl _, hle, ?_, fun n hn => absurd hn (hnot n), ?_, ?_, ?_⟩, rfl, le_refl _, h1, ?_, ?_, ?_, ?_,
    ?_, rfl, ?_, ?_, ?_⟩
  · refine ⟨⟨?_, ?_, ?_⟩, ?_, fun n hn => absurd hn (hnot n), fun n hn => absurd hn (hnot n)⟩
    · intro x y _ h0
      exact absurd (hslots x) h0
    · intro x h0
      exact absurd (hslots x) h0
    · intro b hb
      have hb' := isData_iff.mp hb
      rw [hbits b hb'.2, decide_eq_true_eq]
      constructor
      · intro hlt
        omega
      · rintro ⟨x, hx⟩
        rw [hslots] at hx
        have hpos : 0 < nmeta := by decide
        omega
    · intro b hb
      rw [view_nmeta] at hb
      rw [hbits b (lt_of_lt_of_le hb hle)]
      exact decide_eq_true hb
  · intro b hb
    have hb' : nmeta ≤ b := hb
    rw [nmeta_eq] at hb'
    exact zeroed_img (by omega)
  · exact fun b hb => absurd hb List.not_mem_nil
  · exact fun b hb => absurd hb List.not_mem_nil
  · intro n h0 hn
    omega
  · intro n h0 hn
    omega
  · exact fun n hn _ => htype n hn
  · intro n h0 hn
    omega
  · rw [Finset.Ico_self, Finset.sum_empty]
    rfl
  · exact fun b hb => absurd hb List.not_mem_nil
  · exact update_self 1 superblock blank
  · exact zeroed_img (by decide)

/-- The size that mkfs gives the root directory. -/
def rootSize (fs : List Input) : ℕ := (DESIZE * (fs.length + 2) / BSIZE + 1) * BSIZE

/-- The image that mkfs leaves. -/
structure Made (N : ℕ) (fs : List Input) (s : St) : Prop where
  blocks : Blocks (view N) {ROOTINO} s.img (dinode (view N) s.img)
  bits : ∀ b < FSSIZE, bit (view N) s.img b = decide (b < s.freeblock)
  count : s.freeblock = nmeta + dataBlocks fs
  le : s.freeblock ≤ FSSIZE
  rootType : (dinode (view N) s.img ROOTINO).type = T_DIR
  rootLinks : (dinode (view N) s.img ROOTINO).nlink = 1
  rootSize : (dinode (view N) s.img ROOTINO).size.toNat = rootSize fs
  rootBytes : ∀ o, rawByte s.img (dinode (view N) s.img ROOTINO) o =
    ((rootEntries fs).flatMap direntBytes).getD o 0
  rootSlots : ∀ bn, slot s.img (dinode (view N) s.img ROOTINO) (blockSlot bn) ≠ 0 ↔
    bn * BSIZE < DESIZE * (fs.length + 2)
  files : ∀ k f, fs[k]? = some f → Holds (dinode (view N) s.img (k + 2))
    (rawByte s.img (dinode (view N) s.img (k + 2))) T_FILE f.contents
  free : ∀ n < N, n = 0 ∨ fs.length + 2 ≤ n → (dinode (view N) s.img n).type = 0
  inodes : s.inodes = List.range' 1 (fs.length + 1)
  taken : ∀ b ∈ s.blocks, b < s.freeblock
  inodeWrites : ∀ b ∈ s.inodeWrites, sb.inodestart ≤ b ∧ b < sb.bmapstart
  dataWrites : ∀ b ∈ s.dataWrites, nmeta ≤ b ∧ b < FSSIZE
  superblock : s.img 1 = superblock
  log : s.img 2 = 0

/-- The end of `main`: the size of the root directory and the bitmap. -/
theorem finish_spec {fs : List Input} (h : Image N s (fs.length + 2) (layout fs)) (hN : N ≤ 208)
    {E : Stop → St → Prop} :
    wp (do
      fixRoot ROOTINO
      let s ← get
      balloc s.freeblock) (fun _ s' => Made N fs s') E s := by
  have hle := h.le
  have hnN : 1 < N := by omega
  have hone : 0 < 1 ∧ 1 < fs.length + 2 := by omega
  have hold := h.holds 1 hone.1 hone.2
  have hsz := hold.size
  rw [length_layout_root] at hsz
  have hmax : Mkfs.rootSize fs ≤ MAXFILE * BSIZE := by
    have h1 : DESIZE * (fs.length + 2) ≤ DESIZE * 208 := Nat.mul_le_mul_left _ (by omega)
    have h2 : DESIZE * (fs.length + 2) / BSIZE ≤ DESIZE * 208 / BSIZE := Nat.div_le_div_right h1
    exact le_trans (Nat.mul_le_mul_right BSIZE (Nat.succ_le_succ h2)) (by decide)
  have hmax32 : Mkfs.rootSize fs < 2 ^ 32 := lt_of_le_of_lt hmax (by decide)
  set L := dinode (view N) s.img with hLdef
  set d : Dinode := { L 1 with size := BitVec.ofNat 32 (Mkfs.rootSize fs) } with hd
  have hdsize : d.size.toNat = Mkfs.rootSize fs := by
    change (BitVec.ofNat 32 (Mkfs.rootSize fs)).toNat = _
    rw [BitVec.toNat_ofNat, Nat.mod_eq_of_lt hmax32]
  have hused : Used (view N) L 1 := h.used_iff.mpr hone
  have hself : update L 1 d 1 = d := update_self ..
  have hused1 : Used (view N) (update L 1 d) 1 := by
    rw [Used, hself]
    exact hused
  -- only the size of the root changes
  have hblocks1 : Blocks (view N) {ROOTINO} s.disk (update L 1 d) := by
    have hroot : Blocks (view N) {ROOTINO} s.disk L :=
      { h.built.blocks with full := fun n hn _ => h.built.blocks.full n hn (Set.notMem_empty n) }
    refine hroot.set_inode (fun k => ?_) (fun _ hh => absurd (Set.mem_singleton 1) hh) (fun _ => ?_)
    · rw [if_pos hused1, if_pos hused]
      rfl
    · rw [hdsize]
      exact hmax
  have hdata (b : ℕ) (hb : (view N).IsData b) : (s.winode 1 d).disk b = s.disk b := by
    have hge := (isData_iff.mp hb).1
    rw [St.disk_data hge, St.disk_data hge]
    apply Fs.setDinode_of_ne
    have := iblock_lt hN hnN
    omega
  have hdisk : (s.winode 1 d).disk = setDinode (view N) s.disk 1 d := marked_setDinode hN hnN d
  have hdin (n : ℕ) (hn : n < N) : dinode (view N) (s.winode 1 d).disk n = update L 1 d n := by
    rw [St.disk, dinode_marked hN hn, dinode_winode]
  have hblocks : Blocks (view N) {ROOTINO} (s.winode 1 d).disk (dinode (view N) (s.winode 1 d).disk) := by
    refine Blocks.congr (hblocks1.data_congr hdata (fun b _ => ?_)) hdin
    rw [hdisk]
    exact Fs.bit_setDinode (view_wellFormed hN) hnN d b
  have hcell (n : ℕ) (hn : Used (view N) (update L 1 d) n) (k : ℕ) :=
    hblocks1.cell_data_congr (k := k) hdata hn
  have hslot (k : ℕ) : slot (s.winode 1 d).disk d k = slot s.disk (L 1) k := by
    have := hblocks1.slot_data_congr (k := k) hdata hused1
    rw [hself] at this
    exact this
  have hdin1 : dinode (view N) (s.winode 1 d).disk ROOTINO = d := (hdin 1 hnN).trans hself
  change wp (do
    fixRoot 1
    let s ← get
    balloc s.freeblock) _ _ s
  simp only [fixRoot, wp_bind]
  apply rinode_spec hN hnN h.built.len
  rw [hsz]
  apply winode_spec hN hnN h.built.len
  rw [wp_bind, wp_get, balloc]
  have hfb : (s.winode 1 d).freeblock < BPB := lt_of_le_of_lt h.built.high (by decide)
  change wp (if (s.winode 1 d).freeblock < BPB then wsect sb.bmapstart (bitmap (s.winode 1 d).freeblock)
    else throw .tooManyBlocks) _ _ (s.winode 1 d)
  rw [if_pos hfb, wsect, wp_modify]
  have hcount := h.count
  rw [sum_layout] at hcount
  have hlow (b : ℕ) (hb : b < sb.inodestart) : (s.winode 1 d).disk b = s.img b := by
    have hstart : sb.inodestart = 33 := by decide
    rw [St.disk, marked_of_ne (by rw [bmapstart_eq]; omega)]
    exact Image.low_img hN hnN hb
  refine ⟨hblocks, fun b hb => bit_marked h.built.high hb, hcount, h.built.high, ?_, ?_, ?_, ?_, ?_, ?_, ?_,
    h.inodes, h.built.taken, Image.writes_winode (d := d) h.inodeWrites hN hnN, h.built.writes,
    (hlow 1 (by decide)).trans h.superblock, (hlow 2 (by decide)).trans h.log⟩
  · change (dinode (view N) (s.winode 1 d).disk ROOTINO).type = T_DIR
    rw [hdin1]
    exact hold.fields.1
  · change (dinode (view N) (s.winode 1 d).disk ROOTINO).nlink = 1
    rw [hdin1]
    exact hold.fields.2.2.2
  · change (dinode (view N) (s.winode 1 d).disk ROOTINO).size.toNat = _
    rw [hdin1]
    exact hdsize
  · intro o
    change rawByte (s.winode 1 d).disk (dinode (view N) (s.winode 1 d).disk ROOTINO) o = _
    have hc := hcell 1 hused1 (blockSlot (o / BSIZE))
    rw [hself] at hc
    rw [hdin1, rawByte, hc]
    have hb := hold.bytes o
    rw [layout_root] at hb
    exact hb
  · intro bn
    change slot (s.winode 1 d).disk (dinode (view N) (s.winode 1 d).disk ROOTINO) (blockSlot bn) ≠ 0 ↔ _
    rw [hdin1, hslot]
    constructor
    · intro h0
      by_contra hge
      apply h0
      apply (h.tight 1 hone.1 hone.2).past
      rw [length_layout_root]
      omega
    · intro hlt
      apply (h.built.blocks.full 1 hused (Set.notMem_empty 1)).2
      rw [hsz]
      exact hlt
  · intro k f hk
    have hlt : k < fs.length := (List.getElem?_eq_some_iff.mp hk).1
    have hkN : k + 2 < N := by omega
    have hne : k + 2 ≠ 1 := by omega
    have hh := h.holds (k + 2) (by omega) (by omega)
    have hlay : layout fs (k + 2) = (T_FILE, f.contents) := by
      rw [layout, if_neg hne, Nat.add_sub_cancel, hk]
      rfl
    rw [hlay] at hh
    change Holds (dinode (view N) (s.winode 1 d).disk (k + 2))
      (rawByte (s.winode 1 d).disk (dinode (view N) (s.winode 1 d).disk (k + 2))) T_FILE f.contents
    have hu : Used (view N) (update L 1 d) (k + 2) := by
      rw [Used, update_of_ne hne]
      exact h.used_iff.mpr ⟨by omega, by omega⟩
    rw [hdin _ hkN, update_of_ne hne]
    refine ⟨hh.fields, hh.size, fun o => ?_⟩
    have hc := hcell (k + 2) hu (blockSlot (o / BSIZE))
    rw [update_of_ne hne] at hc
    rw [rawByte, hc]
    exact hh.bytes o
  · intro n hn hout
    change (dinode (view N) (s.winode 1 d).disk n).type = 0
    rw [hdin n hn, update_of_ne (by omega)]
    exact h.free n hn hout

theorem wp_zeroes (k : ℕ) {Q : Unit → St → Prop} {E : Stop → St → Prop}
    (h : Q () ⟨blank, 0 + k, 1, nmeta, [], [], [], []⟩) :
    wp (zeroes k) Q E ⟨blank, 0, 1, nmeta, [], [], [], []⟩ := by
  have hstep (j : ℕ) (s : St) (hs : s = ⟨blank, j, 1, nmeta, [], [], [], []⟩) :
      wp (wsect j 0) (fun _ s' => s' = ⟨blank, j + 1, 1, nmeta, [], [], [], []⟩) E s := by
    subst hs
    rw [wsect, wp_modify]
    change (⟨update blank j (blank j), max j (j + 1), 1, nmeta, [], [], [], []⟩ : St) = _
    rw [update_eq_self, max_eq_right (Nat.le_succ j)]
  have hloop := wp_loop (I := fun j s => s = ⟨blank, j, 1, nmeta, [], [], [], []⟩) k 0
    (fun j s _ _ h => hstep j s h) rfl
  rw [zeroes]
  refine wp_imp hloop ?_
  rintro - s rfl
  exact h

theorem main_spec (hN : N ≤ 208) (fs : List Input) (hm : fs.length + 2 ≤ N)
    (hfit : F → (∀ f ∈ fs, f.Valid ∧ f.contents.length ≤ MAXFILE * BSIZE) ∧
      nmeta + dataBlocks fs ≤ FSSIZE) :
    wp (main fs) (fun _ s => (∀ f ∈ fs, f.Valid) ∧ Made N fs s) (fun _ _ => ¬ F) start := by
  rw [main, wp_bind, wp_modify, wp_bind]
  apply wp_zeroes FSSIZE
  rw [wp_bind, wsect, wp_modify, wp_bind]
  have hlen : max (0 + FSSIZE) (1 + 1) = FSSIZE := by decide
  have hzeroed : (⟨update blank 1 superblock, max (0 + FSSIZE) (1 + 1), 1, nmeta, [], [], [], []⟩ : St) =
      zeroed := by
    rw [hlen, zeroed]
  change wp (ialloc T_DIR) _ _ ⟨update blank 1 superblock, max (0 + FSSIZE) (1 + 1), 1, nmeta, [], [], [], []⟩
  rw [hzeroed]
  have h0 : Image N zeroed 1 (layout []) := zeroed_image hN (by omega) _
  have hfree0 : zeroed.freeblock = nmeta := rfl
  -- from here on nothing is evaluated at the concrete image
  generalize zeroed = s0 at h0 hfree0 ⊢
  refine wp_imp (ialloc_spec h0 hN (by omega) (by decide)) ?_
  rintro r s1 ⟨rfl, h1, hfree1⟩
  rw [if_neg (by decide)]
  have hone : 0 < 1 ∧ 1 < 1 + 1 := by decide
  have hfirst := dataBlocks_le [] fs
  rw [List.nil_append] at hfirst
  have hneed : need 16 = 1 ∧ need 32 = 1 ∧ need 0 = 0 ∧ dataBlocks [] = 1 := by decide
  obtain ⟨hn16, hn32, hn0, hd0⟩ := hneed
  have hend : DESIZE = 16 := rfl
  -- the entries "." and ".."
  have hdots := iappend_spec (F := F) h1 hN hone (p := direntBytes (makeDirent 1 dot))
  rw [update_self, update_idem, List.length_nil, length_direntBytes, zero_add, hend,
    hn16, hn0, List.nil_append] at hdots
  refine wp_seq (hdots (fun hf => ?_)) ?_
  · have := (hfit hf).2
    exact ⟨by omega, by decide⟩
  rintro - s2 ⟨h2, hcount2⟩
  have hdotdots := iappend_spec (F := F) h2 hN hone (p := direntBytes (makeDirent 1 dotdot))
  rw [update_self, update_idem, length_direntBytes, length_direntBytes, hend, hn16,
    hn32] at hdotdots
  refine wp_seq (hdotdots (fun hf => ?_)) ?_
  · have := (hfit hf).2
    exact ⟨by omega, by decide⟩
  rintro - s3 ⟨h3, -⟩
  have h3' : Image N s3 (([] : List Input).length + 2) (layout []) := by
    apply h3.congr
    intro n hn0 hn2
    have hn1 : n = 1 := by omega
    rw [hn1, update_self, layout_root]
    simp only [rootEntries, List.zipIdx_nil, List.map_nil, List.flatMap_cons, List.flatMap_nil, List.append_nil]
    rfl
  refine wp_seq (addFiles_spec (F := F) hN fs h3' (by rw [List.length_nil]; omega) (by
    rw [List.nil_append]
    exact hfit)) ?_
  rintro - s4 ⟨hv, h4⟩
  rw [List.length_nil, zero_add, List.nil_append] at h4
  exact wp_imp (finish_spec h4 hN) (fun _ _ h => ⟨hv, h⟩)

end Main

end Xv6.Mkfs
