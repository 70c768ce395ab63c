import Xv6.Mkfs
import Xv6.FsReadWrite

/-! What mkfs has built so far, in the terms of kernel/fs.c. The bitmap is written at the end only, so
until then the image is read with the bitmap that `balloc` would write. -/
namespace Xv6.Mkfs

open Icache (Dinode NDIRECT)
open Fs (Superblock IPB BPB NINDIRECT MAXFILE DIRSIZ DESIZE ROOTINO T_DIR T_FILE Dirent addr setAddr
  dinode setDinode bit setBit slot cell blockSlot rawByte Node node nodes Used Blocks HoleFree NSLOTS)

section Bitmap

theorem bitmap_succ (used : ℕ) (h : used < BPB) :
    bitmap (used + 1) = setField (bitmap used) used (1 : BitVec 1) := by
  have hstep (b : Block) (i : ℕ) (hi : i < 8192) :
      setByte b (i / 8) (byte b (i / 8) ||| (1 : BitVec 8) <<< (i % 8)) = setField b i (1 : BitVec 1) := by
    apply BitVec.eq_of_getLsbD_eq
    intro j hj
    rw [setByte, getLsbD_setField _ _ _ hj, getLsbD_setField _ _ _ hj]
    have hdm := Nat.div_add_mod i 8
    by_cases hin : 8 * (i / 8) ≤ j ∧ j < 8 * (i / 8) + 8
    · have hbit : (byte b (i / 8)).getLsbD (j - 8 * (i / 8)) = b.getLsbD j := by
        rw [byte, getLsbD_getField]
        rw [show 8 * (i / 8) + (j - 8 * (i / 8)) = j by omega]
        simp only [show j - 8 * (i / 8) < 8 by omega, decide_true, Bool.true_and]
      have hone : ((1 : BitVec 8) <<< (i % 8)).getLsbD (j - 8 * (i / 8)) = decide (j = i) := by
        have hmod : i % 8 < 8 := Nat.mod_lt i (by decide)
        rw [BitVec.getLsbD_shiftLeft]
        simp only [show j - 8 * (i / 8) < 8 by omega, decide_true, Bool.true_and]
        change (!decide (j - 8 * (i / 8) < i % 8) && (1#8).getLsbD (j - 8 * (i / 8) - i % 8)) = _
        rw [BitVec.getLsbD_one]
        apply Bool.eq_iff_iff.mpr
        simp only [Bool.and_eq_true, Bool.not_eq_true', decide_eq_false_iff_not, decide_eq_true_eq]
        omega
      rw [if_pos hin, BitVec.getLsbD_or, hbit, hone]
      by_cases hji : j = i
      · subst hji
        rw [if_pos ⟨le_refl j, by omega⟩, Nat.sub_self]
        simp
      · rw [if_neg (by omega)]
        simp [hji]
    · rw [if_neg hin, if_neg (by omega)]
  rw [bitmap, List.range_succ, List.foldl_append]
  exact hstep _ used h

theorem getField_bitmap (used j : ℕ) (h : used ≤ BPB) (hj : j < BPB) :
    getField (bitmap used) j 1 = if j < used then 1 else 0 := by
  induction used with
  | zero =>
    rw [if_neg (Nat.not_lt_zero j)]
    simp [bitmap, getField]
  | succ used ih =>
    rw [bitmap_succ used h]
    by_cases hju : j = used
    · subst hju
      rw [getField_setField _ _ _ (by simp only [BPB] at hj; omega), if_pos (Nat.lt_succ_self j)]
    · rw [getField_setField_of_disjoint _ _ _ _ (by omega), ih (by omega)]
      exact if_congr (by omega) rfl rfl

end Bitmap

section View

/-- The superblock of the image, with room for `N` inodes. -/
def view (N : ℕ) : Superblock := { sb with ninodes := N }

/-- The image with the bitmap of the first `used` blocks. -/
def marked (img : Disk) (used : ℕ) : Disk := update img sb.bmapstart (bitmap used)

variable {N used b n : ℕ} {img : Disk}

theorem nmeta_eq : nmeta = 47 := by decide

theorem FSSIZE_eq : FSSIZE = 2000 := rfl

theorem bmapstart_eq : sb.bmapstart = 46 := by decide

theorem iblock_eq (n : ℕ) : sb.iblock n = n / 16 + 33 := by
  have h : sb.inodestart = 33 := by decide
  rw [Superblock.iblock, h, IPB]

theorem bblock_eq (hb : b < FSSIZE) : sb.bblock b = sb.bmapstart := by
  rw [FSSIZE_eq] at hb
  rw [Superblock.bblock, BPB, Nat.div_eq_of_lt (by omega), zero_add]

theorem view_nmeta : (view N).nmeta = nmeta := by
  have h : sb.size - sb.nblocks = nmeta := by decide
  exact h

theorem isData_iff : (view N).IsData b ↔ nmeta ≤ b ∧ b < FSSIZE := by
  rw [Superblock.IsData, view_nmeta]
  exact .rfl

theorem view_wellFormed (hN : N ≤ 208) : (view N).WellFormed := by
  have hsize : sb.size < 2 ^ 32 := by decide
  refine ⟨fun inum hn => ?_, fun b hb => ?_, ?_, hsize⟩
  · have hlt : inum < 208 := lt_of_lt_of_le hn hN
    change sb.iblock inum < sb.bmapstart
    rw [iblock_eq, bmapstart_eq]
    omega
  · change sb.bblock b < (view N).nmeta
    rw [view_nmeta, bblock_eq hb]
    decide
  · rw [view_nmeta]
    change sb.bmapstart < nmeta
    decide

theorem isData_ne_bmapstart (hb : nmeta ≤ b) : b ≠ sb.bmapstart := by
  rw [bmapstart_eq]
  rw [nmeta_eq] at hb
  omega

theorem iblock_ne_bmapstart (hN : N ≤ 208) (hn : n < N) : sb.iblock n ≠ sb.bmapstart := by
  rw [iblock_eq, bmapstart_eq]
  omega

theorem marked_of_ne (h : b ≠ sb.bmapstart) : marked img used b = img b := update_of_ne h _ _

theorem bit_marked (hused : used ≤ FSSIZE) (hb : b < FSSIZE) :
    bit (view N) (marked img used) b = decide (b < used) := by
  have hblock : (view N).bblock b = sb.bmapstart := bblock_eq hb
  have hmod : b % BPB = b := Nat.mod_eq_of_lt (lt_trans hb (by decide))
  rw [bit, hblock, marked, update_self, hmod,
    getField_bitmap used b (le_trans hused (by decide)) (lt_trans hb (by decide))]
  by_cases h : b < used
  · simp [h]
  · simp [h]

theorem dinode_marked (hN : N ≤ 208) (hn : n < N) :
    dinode (view N) (marked img used) n = dinode (view N) img n := by
  unfold dinode
  rw [marked_of_ne]
  exact iblock_ne_bmapstart hN hn

/-- `balloc` of the kernel would do what taking the next block does. -/
theorem zeroed_marked (hb : nmeta ≤ used ∧ used < FSSIZE) (hzero : img used = 0) :
    Fs.zeroed (view N) (marked img used) used = marked img (used + 1) := by
  have hblock : (view N).bblock used = sb.bmapstart := bblock_eq hb.2
  have hmod : used % BPB = used := Nat.mod_eq_of_lt (lt_trans hb.2 (by decide))
  have hne : used ≠ sb.bmapstart := isData_ne_bmapstart hb.1
  funext c
  rw [Fs.zeroed, setBit, hblock, hmod]
  by_cases hc : c = used
  · rw [hc, update_self, marked_of_ne hne, hzero]
  · rw [update_of_ne hc]
    by_cases hcb : c = sb.bmapstart
    · rw [hcb, update_self, marked, marked, update_self, update_self,
        bitmap_succ used (lt_trans hb.2 (by decide))]
      rfl
    · rw [update_of_ne hcb, marked_of_ne hcb, marked_of_ne hcb]

theorem marked_update {v : Block} (h : b ≠ sb.bmapstart) :
    marked (update img b v) used = update (marked img used) b v := by
  unfold marked
  exact update_comm h _ _ _

theorem marked_setDinode (hN : N ≤ 208) (hn : n < N) (d : Dinode) :
    marked (setDinode (view N) img n d) used = setDinode (view N) (marked img used) n d := by
  have hne : (view N).iblock n ≠ sb.bmapstart := iblock_ne_bmapstart hN hn
  rw [setDinode, setDinode, marked_update hne, marked_of_ne hne]

end View

section Built

/-- The image as the kernel would read it. -/
def St.disk (s : St) : Disk := marked s.img s.freeblock

/-- The part of the image that is built. `L n` is the inode `n`, in the image or at hand in `iappend`,
and `f n` are the bytes of its blocks, whatever its size is. -/
structure Built (N : ℕ) (s : St) (L : ℕ → Dinode) (f : ℕ → ℕ → BitVec 8) : Prop where
  len : s.len = FSSIZE
  low : nmeta ≤ s.freeblock
  high : s.freeblock ≤ FSSIZE
  blocks : Blocks (view N) ∅ s.disk L
  bytes : ∀ n, Used (view N) L n → ∀ o, rawByte s.disk (L n) o = f n o
  fresh : ∀ b, s.freeblock ≤ b → s.img b = 0
  taken : ∀ b ∈ s.blocks, b < s.freeblock
  writes : ∀ b ∈ s.dataWrites, nmeta ≤ b ∧ b < FSSIZE

/-- What `iappend` does to the image before it calls `winode`: the inode `d` becomes `d'`. Its slots
keep their blocks or get new ones, and only its blocks are written. -/
structure Frame (s : St) (d : Dinode) (s' : St) (d' : Dinode) : Prop where
  metadata : ∀ b < nmeta, s'.img b = s.img b
  kept : ∀ b < s.freeblock, (∀ j, slot s.disk d j ≠ b) → s'.img b = s.img b
  slots : ∀ j, slot s'.disk d' j = slot s.disk d j ∨ s.freeblock ≤ slot s'.disk d' j
  freeblock_le : s.freeblock ≤ s'.freeblock
  freeinode : s'.freeinode = s.freeinode
  inodes : s'.inodes = s.inodes
  inodeWrites : s'.inodeWrites = s.inodeWrites

theorem Frame.refl (s : St) (d : Dinode) : Frame s d s d :=
  ⟨fun _ _ => rfl, fun _ _ _ => rfl, fun _ => .inl rfl, le_refl _, rfl, rfl, rfl⟩

theorem Frame.trans {s s' s'' : St} {d d' d'' : Dinode} (h : Frame s d s' d') (h' : Frame s' d' s'' d'') :
    Frame s d s'' d'' := by
  refine ⟨fun b hb => (h'.metadata b hb).trans (h.metadata b hb), fun b hb hno => ?_, fun j => ?_,
    le_trans h.freeblock_le h'.freeblock_le, h'.freeinode.trans h.freeinode, h'.inodes.trans h.inodes,
    h'.inodeWrites.trans h.inodeWrites⟩
  · rw [← h.kept b hb hno]
    apply h'.kept b (lt_of_lt_of_le hb h.freeblock_le)
    intro j
    rcases h.slots j with h1 | h1
    · rw [h1]
      exact hno j
    · omega
  · have hle := h.freeblock_le
    rcases h'.slots j with h2 | h2
    · rw [h2]
      exact h.slots j
    · exact .inr (by omega)

variable {N n k z : ℕ} {s : St} {L : ℕ → Dinode} {f : ℕ → ℕ → BitVec 8} {d : Dinode}

/-- The state after `freeblock++`. -/
def St.next (s : St) : St :=
  { s with freeblock := s.freeblock + 1, blocks := s.blocks ++ [s.freeblock] }

theorem St.disk_data {b : ℕ} (hb : nmeta ≤ b) : s.disk b = s.img b :=
  marked_of_ne (isData_ne_bmapstart hb)

namespace Built

theorem data_of_slot (h : Built N s L f) (hn : Used (view N) L n) (h0 : slot s.disk (L n) k ≠ 0) :
    nmeta ≤ slot s.disk (L n) k ∧ slot s.disk (L n) k < FSSIZE :=
  isData_iff.mp (h.blocks.slot_data hn h0)

theorem slot_lt (h : Built N s L f) (hn : Used (view N) L n) (h0 : slot s.disk (L n) k ≠ 0) :
    slot s.disk (L n) k < s.freeblock := by
  have hs : Fs.slots (view N) s.disk L (n, k) = slot s.disk (L n) k := if_pos hn
  have hbit := h.blocks.owns.bit_of_slot (i := (n, k)) (by rwa [hs])
  have hmarked : bit (view N) s.disk (slot s.disk (L n) k) = decide (slot s.disk (L n) k < s.freeblock) :=
    bit_marked h.high (h.data_of_slot hn h0).2
  rw [hs, hmarked] at hbit
  exact of_decide_eq_true hbit

theorem free_next (h : Built N s L f) (hb : s.freeblock < FSSIZE) :
    bit (view N) s.disk s.freeblock = false := by
  rw [St.disk, bit_marked h.high hb]
  exact decide_eq_false (lt_irrefl _)

/-- The next block goes into the empty slot `k` of the inode `n`. -/
theorem take (h : Built N s L f) (hb : s.freeblock < FSSIZE) {g : Disk}
    (hn : Used (view N) L n)
    (hdata : ∀ c, (view N).IsData c → c ≠ s.freeblock → c ≠ addr (L n) NDIRECT → g c = s.img c)
    (hfresh : ∀ b, s.freeblock ≤ b → g b = s.img b)
    (hcells : ∀ j ≠ NDIRECT, cell (marked g (s.freeblock + 1)) d j = cell s.disk (L n) j)
    (hblocks : Blocks (view N) ∅ (marked g (s.freeblock + 1)) (update L n d))
    (hused : d.type = (L n).type) {w : List ℕ} (hws : ∀ b ∈ w, nmeta ≤ b ∧ b < FSSIZE) :
    Built N { s.next with img := g, dataWrites := s.dataWrites ++ w } (update L n d) f := by
  have hisdata : (view N).IsData s.freeblock := isData_iff.mpr ⟨h.low, hb⟩
  have hfree := h.free_next hb
  have hdisk (c : ℕ) (hc : (view N).IsData c) (h1 : c ≠ s.freeblock) (h2 : c ≠ addr (L n) NDIRECT) :
      marked g (s.freeblock + 1) c = s.disk c := by
    have hne := isData_ne_bmapstart (isData_iff.mp hc).1
    rw [St.disk, marked_of_ne hne, marked_of_ne hne]
    exact hdata c hc h1 h2
  refine ⟨h.len, le_trans h.low (Nat.le_succ _), hb, hblocks, ?_, ?_, ?_, ?_⟩
  · intro m hm o
    by_cases hmn : m = n
    · subst hmn
      rw [update_self, ← h.bytes m hn o]
      exact congrArg (fun c => byte c (o % BSIZE)) (hcells _ (Fs.blockSlot_ne _))
    · have hm' : Used (view N) L m := by
        rw [Used, update_of_ne hmn] at hm
        exact hm
      rw [update_of_ne hmn, ← h.bytes m hm' o]
      have hcell := h.blocks.cell_congr hn hm' hdisk (Fs.blockSlot_ne (o / BSIZE))
        (h.blocks.slot_other hn hm' hmn (h.blocks.indirect_ne_free hisdata hfree hm') hdisk)
        (h.blocks.slot_ne_free hisdata hfree hm')
      exact congrArg (fun c => byte c (o % BSIZE)) hcell
  · intro b hle
    have hle' : s.freeblock + 1 ≤ b := hle
    change g b = 0
    rw [hfresh b (by omega), h.fresh b (by omega)]
  · intro b hmem
    rcases List.mem_append.mp hmem with h1 | h1
    · exact lt_trans (h.taken b h1) (Nat.lt_succ_self _)
    · rw [List.mem_singleton.mp h1]
      exact Nat.lt_succ_self _
  · intro b hmem
    rcases List.mem_append.mp hmem with h1 | h1
    · exact h.writes b h1
    · exact hws b h1

theorem take_addr (h : Built N s L f) (hN : N ≤ 208) (hb : s.freeblock < FSSIZE)
    (hn : Used (view N) L n) (hk : k ≤ NDIRECT) (h0 : addr (L n) k = 0) :
    Built N s.next (update L n (setAddr (L n) k s.freeblock)) f ∧
      ∀ j, slot s.next.disk (setAddr (L n) k s.freeblock) j =
        if j = k then s.freeblock else slot s.disk (L n) j := by
  have hisdata : (view N).IsData s.freeblock := isData_iff.mpr ⟨h.low, hb⟩
  have hzero : Fs.zeroed (view N) s.disk s.freeblock = s.next.disk :=
    zeroed_marked ⟨h.low, hb⟩ (h.fresh _ (le_refl _))
  obtain ⟨hslot, hcells, hblocks, -⟩ :=
    h.blocks.alloc_addr (view_wellFormed hN) hn hisdata (h.free_next hb) hk h0
  rw [hzero] at hslot hcells hblocks
  have hbuilt := h.take hb hn (g := s.img) (fun _ _ _ _ => rfl) (fun _ _ => rfl) hcells hblocks rfl
    (w := []) (fun b hmem => absurd hmem List.not_mem_nil)
  rw [List.append_nil] at hbuilt
  exact ⟨hbuilt, hslot⟩

theorem take_entry (h : Built N s L f) (hN : N ≤ 208) (hb : s.freeblock < FSSIZE)
    (hn : Used (view N) L n) {j : ℕ} (hj : j < NINDIRECT) (hind : addr (L n) NDIRECT ≠ 0)
    (h0 : slot s.disk (L n) (NDIRECT + 1 + j) = 0) {s' : St}
    (hs' : s' = { s.next with
      img := update s.img (addr (L n) NDIRECT)
        (setWord (s.img (addr (L n) NDIRECT)) j (BitVec.ofNat 32 s.freeblock))
      dataWrites := s.dataWrites ++ [addr (L n) NDIRECT] }) :
    Built N s' L f ∧
      ∀ i, slot s'.disk (L n) i = if i = NDIRECT + 1 + j then s.freeblock else slot s.disk (L n) i := by
  have hisdata : (view N).IsData s.freeblock := isData_iff.mpr ⟨h.low, hb⟩
  have hzero : Fs.zeroed (view N) s.disk s.freeblock = s.next.disk :=
    zeroed_marked ⟨h.low, hb⟩ (h.fresh _ (le_refl _))
  have hdind := h.data_of_slot (k := NDIRECT) hn (by rwa [Fs.slot_of_le (le_refl _)])
  rw [Fs.slot_of_le (le_refl _)] at hdind
  have hlt := h.slot_lt (k := NDIRECT) hn (by rwa [Fs.slot_of_le (le_refl _)])
  rw [Fs.slot_of_le (le_refl _)] at hlt
  have hne := isData_ne_bmapstart hdind.1
  have hdisk : s'.disk = update (Fs.zeroed (view N) s.disk s.freeblock) (addr (L n) NDIRECT)
      (setWord (Fs.zeroed (view N) s.disk s.freeblock (addr (L n) NDIRECT)) j
        (BitVec.ofNat 32 s.freeblock)) := by
    have himg : s.next.disk (addr (L n) NDIRECT) = s.img (addr (L n) NDIRECT) := marked_of_ne hne
    rw [hzero, himg, hs']
    exact marked_update hne
  obtain ⟨hslot, hcells, hblocks, -⟩ := h.blocks.alloc_entry (view_wellFormed hN) hn hisdata
    (h.free_next hb) hj hind h0 hdisk
  refine ⟨?_, hslot⟩
  have hbuilt := h.take hb hn (g := s'.img) (d := L n) (w := [addr (L n) NDIRECT]) ?_ ?_ ?_ ?_ rfl ?_
  · rw [update_eq_self] at hbuilt
    rw [hs'] at hbuilt ⊢
    exact hbuilt
  · intro c _ _ hc
    rw [hs']
    exact update_of_ne hc _ _
  · intro b hle
    rw [hs']
    exact update_of_ne (by omega) _ _
  · rw [hs'] at hcells ⊢
    exact hcells
  · rw [update_eq_self]
    rw [hs'] at hblocks ⊢
    exact hblocks
  · intro b hmem
    rw [List.mem_singleton.mp hmem]
    exact hdind

end Built

/-- An inode with other blocks or another size. -/
def Like (d d' : Dinode) : Prop :=
  d'.type = d.type ∧ d'.major = d.major ∧ d'.minor = d.minor ∧ d'.nlink = d.nlink

/-- A block number past the end of the image: the `read` that follows fails. -/
def Overrun (F : Prop) (x : ℕ) (s : St) : Prop := FSSIZE ≤ x ∧ s.len = FSSIZE ∧ ¬ F

variable {F : Prop} {E : Stop → St → Prop}

theorem addrBlock_spec (h : Built N s L f) (hN : N ≤ 208) (hn : Used (view N) L n) {sz : BitVec 32}
    (hL : L n = { d with size := sz }) (hk : k ≤ NDIRECT)
    (hfit : F → s.freeblock + (if addr d k = 0 then 1 else 0) ≤ FSSIZE) :
    wp (addrBlock d k) (fun r s' => Overrun F r.2 s' ∨
      (Built N s' (update L n { r.1 with size := sz }) f ∧ Frame s d s' r.1 ∧ r.2 ≠ 0 ∧
        r.2 < FSSIZE ∧ Like d r.1 ∧
        (∀ j, slot s'.disk r.1 j = if j = k then r.2 else slot s.disk d j) ∧
        s'.freeblock = s.freeblock + if addr d k = 0 then 1 else 0)) E s := by
  have haddr : addr (L n) k = addr d k := by rw [hL]; rfl
  have hslot (j : ℕ) : slot s.disk (L n) j = slot s.disk d j := by rw [hL]; rfl
  rw [addrBlock]
  by_cases h0 : addr d k = 0
  · simp only [if_pos h0, takeBlock, wp_bind, wp_get, wp_set, wp_pure]
    rw [if_pos h0] at hfit
    by_cases hb : s.freeblock < FSSIZE
    · have hne : s.freeblock ≠ 0 := by
        have := h.low
        rw [nmeta_eq] at this
        omega
      obtain ⟨hbuilt, hslots⟩ := h.take_addr hN hb hn hk (haddr.trans h0)
      rw [hL] at hbuilt
      have hslots' (j : ℕ) : slot s.next.disk (setAddr d k s.freeblock) j =
          if j = k then s.freeblock else slot s.disk d j := by
        rw [← hslot j, ← hslots j, hL]
        rfl
      refine .inr ⟨hbuilt, ⟨fun _ _ => rfl, fun _ _ _ => rfl, fun j => ?_, Nat.le_succ _, rfl, rfl, rfl⟩,
        hne, hb, ⟨rfl, rfl, rfl, rfl⟩, hslots', trivial⟩
      have hj := hslots' j
      split_ifs at hj
      · exact .inr (le_of_eq hj.symm)
      · exact .inl hj
    · refine .inl ⟨not_lt.mp hb, h.len, fun hf => hb ?_⟩
      have := hfit hf
      omega
  · rw [if_neg h0, if_neg h0, wp_pure]
    have hs : slot s.disk (L n) k = addr d k := by rw [Fs.slot_of_le hk, haddr]
    have hdata := h.data_of_slot hn (by rwa [hs])
    rw [hs] at hdata
    refine .inr ⟨?_, Frame.refl s d, h0, hdata.2, ⟨rfl, rfl, rfl, rfl⟩, fun j => ?_, rfl⟩
    · rw [← hL, update_eq_self]
      exact h
    · by_cases hj : j = k
      · rw [if_pos hj, hj, Fs.slot_of_le hk]
      · rw [if_neg hj]

theorem entryBlock_spec (h : Built N s L f) (hN : N ≤ 208) (hn : Used (view N) L n) {j : ℕ}
    (hj : j < NINDIRECT) (hind : addr (L n) NDIRECT ≠ 0)
    (hfit : F → s.freeblock + (if slot s.disk (L n) (NDIRECT + 1 + j) = 0 then 1 else 0) ≤ FSSIZE) :
    wp (entryBlock (addr (L n) NDIRECT) j) (fun x s' => Overrun F x s' ∨
      (Built N s' L f ∧ Frame s (L n) s' (L n) ∧ x ≠ 0 ∧ x < FSSIZE ∧
        (∀ i, slot s'.disk (L n) i = if i = NDIRECT + 1 + j then x else slot s.disk (L n) i) ∧
        s'.freeblock = s.freeblock +
          if slot s.disk (L n) (NDIRECT + 1 + j) = 0 then 1 else 0)) E s := by
  have hdind := h.data_of_slot (k := NDIRECT) hn (by rwa [Fs.slot_of_le (le_refl _)])
  rw [Fs.slot_of_le (le_refl _)] at hdind
  have hword : slot s.disk (L n) (NDIRECT + 1 + j) =
      (word (s.img (addr (L n) NDIRECT)) j).toNat := by
    have hlt : NDIRECT + 1 + j < NSLOTS := by
      simp only [NSLOTS]
      omega
    rw [slot, if_neg (by omega), if_pos ⟨hlt, hind⟩, Nat.add_sub_cancel_left, St.disk_data hdind.1]
  have hzero : word (s.img (addr (L n) NDIRECT)) j = 0 ↔ slot s.disk (L n) (NDIRECT + 1 + j) = 0 := by
    rw [hword, ← BitVec.toNat_inj]
    exact .rfl
  simp only [entryBlock, rsect, wp_bind, wp_get]
  rw [if_pos (by rw [h.len]; exact hdind.2), wp_pure]
  by_cases h0 : slot s.disk (L n) (NDIRECT + 1 + j) = 0
  · simp only [if_pos (hzero.mpr h0), takeBlock, wdata, wsect, wp_bind, wp_get, wp_set, wp_modify, wp_pure]
    rw [if_pos h0] at hfit ⊢
    by_cases hb : s.freeblock < FSSIZE
    · have hne : s.freeblock ≠ 0 := by
        have := h.low
        rw [nmeta_eq] at this
        omega
      have hlen : max s.len (addr (L n) NDIRECT + 1) = s.len := by
        rw [h.len]
        have := hdind.2
        omega
      rw [hlen]
      obtain ⟨hbuilt, hslots⟩ := h.take_entry hN hb hn hj hind h0 rfl
      refine .inr ⟨hbuilt, ⟨fun b hb' => ?_, fun b _ hno => ?_, fun i => ?_, Nat.le_succ _, rfl, rfl, rfl⟩,
        hne, hb, hslots, rfl⟩
      · exact update_of_ne (by have := hdind.1; omega) _ _
      · have hne := hno NDIRECT
        rw [Fs.slot_of_le (le_refl _)] at hne
        exact update_of_ne hne.symm _ _
      · have hi := hslots i
        split_ifs at hi
        · exact .inr (le_of_eq hi.symm)
        · exact .inl hi
    · refine .inl ⟨not_lt.mp hb, ?_, fun hf => hb ?_⟩
      · have hlen : max s.len (addr (L n) NDIRECT + 1) = FSSIZE := by
          rw [h.len]
          have := hdind.2
          omega
        exact hlen
      · have := hfit hf
        omega
  · rw [if_neg (mt hzero.mp h0), wp_pure, if_neg h0, ← hword]
    refine .inr ⟨h, Frame.refl s (L n), h0, (h.data_of_slot hn h0).2, fun i => ?_, rfl⟩
    by_cases hi : i = NDIRECT + 1 + j
    · rw [if_pos hi, hi]
    · rw [if_neg hi]

theorem fileBlock_spec (h : Built N s L f) (hN : N ≤ 208) (hn : Used (view N) L n) {sz : BitVec 32}
    (hL : L n = { d with size := sz }) {fbn : ℕ} (hfbn : fbn < MAXFILE)
    (hfit : F → s.freeblock + (if slot s.disk d (blockSlot fbn) = 0 then 1 else 0) +
      (if NDIRECT ≤ fbn ∧ addr d NDIRECT = 0 then 1 else 0) ≤ FSSIZE) :
    wp (fileBlock d fbn) (fun r s' => Overrun F r.2 s' ∨
      (Built N s' (update L n { r.1 with size := sz }) f ∧ Frame s d s' r.1 ∧ r.2 ≠ 0 ∧
        r.2 < FSSIZE ∧ Like d r.1 ∧ slot s'.disk r.1 (blockSlot fbn) = r.2 ∧
        (∀ j, j ≠ blockSlot fbn → j ≠ NDIRECT → slot s'.disk r.1 j = slot s.disk d j) ∧
        (addr r.1 NDIRECT = 0 ↔ addr d NDIRECT = 0 ∧ fbn < NDIRECT) ∧
        s'.freeblock = s.freeblock + (if slot s.disk d (blockSlot fbn) = 0 then 1 else 0) +
          (if NDIRECT ≤ fbn ∧ addr d NDIRECT = 0 then 1 else 0))) (fun _ _ => ¬ F) s := by
  rw [fileBlock]
  by_cases hdir : fbn < NDIRECT
  · have hbs : blockSlot fbn = fbn := if_pos hdir
    have hnot : ¬ (NDIRECT ≤ fbn ∧ addr d NDIRECT = 0) := fun hc => absurd hc.1 (by omega)
    rw [hbs, Fs.slot_of_le (le_of_lt hdir), if_neg hnot, add_zero] at hfit
    rw [if_pos hdir]
    refine wp_imp (addrBlock_spec h hN hn hL (le_of_lt hdir) hfit) ?_
    rintro r s' (hover | ⟨hbuilt, hframe, h0, hlt, htype, hslot, hcount⟩)
    · exact .inl hover
    · refine .inr ⟨hbuilt, hframe, h0, hlt, htype, ?_, fun j hj _ => ?_, ?_, ?_⟩
      · rw [hbs, hslot, if_pos rfl]
      · rw [hslot, if_neg (by rwa [hbs] at hj)]
      · have hind := hslot NDIRECT
        rw [Fs.slot_of_le (le_refl _), Fs.slot_of_le (le_refl _), if_neg (by omega)] at hind
        rw [hind]
        exact ⟨fun hc => ⟨hc, hdir⟩, fun hc => hc.1⟩
      · rw [hcount, hbs, Fs.slot_of_le (le_of_lt hdir), if_neg hnot, add_zero]
  · -- first the indirect block, then its entry
    have hbs : blockSlot fbn = NDIRECT + 1 + (fbn - NDIRECT) := by
      rw [blockSlot, if_neg hdir]
      omega
    have hle : NDIRECT ≤ fbn := not_lt.mp hdir
    simp only [hle, true_and] at hfit ⊢
    rw [if_neg hdir]
    refine wp_seq (addrBlock_spec h hN hn hL (le_refl NDIRECT) (fun hf => by
      have := hfit hf
      omega)) ?_
    rintro ⟨d1, ind⟩ s1 (hover | ⟨hbuilt, hframe, h0, hlt, htype, hslot, hcount⟩)
    · -- the indirect block is past the end of the image
      obtain ⟨hge, hlen, hnf⟩ := hover
      have hge' : ¬ ind < s1.len := by
        rw [hlen]
        exact not_lt.mpr hge
      simp only [entryBlock, rsect, wp_bind, wp_get]
      rw [if_neg hge', wp_throw]
      exact hnf
    · have hself : update L n { d1 with size := sz } n = { d1 with size := sz } :=
        update_self ..
      have hused : Used (view N) (update L n { d1 with size := sz }) n := by
        rw [Used, hself]
        refine ⟨hn.1, ?_⟩
        have := hn.2
        rw [hL] at this
        change d1.type ≠ 0
        rw [htype.1]
        exact this
      have hind : addr d1 NDIRECT = ind := by
        have := hslot NDIRECT
        rwa [Fs.slot_of_le (le_refl _), if_pos rfl] at this
      have hslot1 (i : ℕ) (hi : i ≠ NDIRECT) : slot s1.disk d1 i = slot s.disk d i := by
        rw [hslot, if_neg hi]
      have hne : NDIRECT + 1 + (fbn - NDIRECT) ≠ NDIRECT := by omega
      have hj : fbn - NDIRECT < NINDIRECT := by
        simp only [MAXFILE] at hfbn
        omega
      have hspec := entryBlock_spec (E := fun _ _ => ¬ F) (F := F) hbuilt hN hused hj
        (by rw [hself]; change addr d1 NDIRECT ≠ 0; rw [hind]; exact h0)
        (by
          intro hf
          have h1 := hfit hf
          have h2 := hslot1 _ hne
          rw [hself]
          change s1.freeblock + (if slot s1.disk d1 (NDIRECT + 1 + (fbn - NDIRECT)) = 0 then 1 else 0) ≤ _
          rw [h2, hcount, ← hbs]
          omega)
      rw [hself] at hspec
      change wp (entryBlock (addr d1 NDIRECT) (fbn - NDIRECT)) _ _ s1 at hspec
      rw [hind] at hspec
      refine wp_seq hspec ?_
      rintro x s2 (hover | ⟨hbuilt2, hframe2, hx0, hxlt, hslot2, hcount2⟩)
      · rw [wp_pure]
        exact .inl hover
      · rw [wp_pure]
        have hframe2' : Frame s1 d1 s2 d1 :=
          ⟨hframe2.metadata, hframe2.kept, hframe2.slots, hframe2.freeblock_le, hframe2.freeinode,
            hframe2.inodes, hframe2.inodeWrites⟩
        have hslot2' (i : ℕ) : slot s2.disk d1 i =
            if i = NDIRECT + 1 + (fbn - NDIRECT) then x else slot s1.disk d1 i := hslot2 i
        refine .inr ⟨hbuilt2, hframe.trans hframe2', hx0, hxlt, htype, ?_, fun j hj1 hj2 => ?_, ?_, ?_⟩
        · rw [hbs, hslot2', if_pos rfl]
        · rw [hslot2', if_neg (by rwa [hbs] at hj1), hslot1 j hj2]
        · rw [hind]
          exact ⟨fun hc => absurd hc h0, fun hc => absurd hc.2 hdir⟩
        · change s2.freeblock = s1.freeblock +
            (if slot s1.disk d1 (NDIRECT + 1 + (fbn - NDIRECT)) = 0 then 1 else 0) at hcount2
          rw [hcount2, hcount, hslot1 _ hne, ← hbs]
          omega

end Built

section Append

variable {N n : ℕ} {s : St} {L : ℕ → Dinode} {f : ℕ → ℕ → BitVec 8} {d : Dinode} {F : Prop}

theorem byte_bcopy (q : List (BitVec 8)) (o y : ℕ) (buf : Block) (ho : o + q.length ≤ BSIZE) :
    byte (bcopy buf o q) y = if o ≤ y ∧ y < o + q.length then q.getD (y - o) 0 else byte buf y := by
  induction q generalizing o buf with
  | nil =>
    rw [if_neg (by simp only [List.length_nil]; omega)]
    rfl
  | cons v q ih =>
    rw [List.length_cons] at ho
    rw [bcopy, ih (o + 1) _ (by omega), byte_setByte buf v (by omega), List.length_cons]
    by_cases hy : y = o
    · rw [if_neg (by omega), if_pos hy, if_pos (by omega), hy, Nat.sub_self]
      rfl
    · rw [if_neg hy]
      by_cases hin : o + 1 ≤ y ∧ y < o + 1 + q.length
      · rw [if_pos hin, if_pos (by omega), show y - o = y - (o + 1) + 1 by omega]
        rfl
      · rw [if_neg hin, if_neg (by omega)]

/-- The bytes `g` with `q` at `off`. -/
def splice (g : ℕ → BitVec 8) (off : ℕ) (q : List (BitVec 8)) (o : ℕ) : BitVec 8 :=
  if off ≤ o ∧ o < off + q.length then q.getD (o - off) 0 else g o

theorem splice_append (g : ℕ → BitVec 8) (off : ℕ) (q q' : List (BitVec 8)) :
    splice (splice g off q) (off + q.length) q' = splice g off (q ++ q') := by
  funext o
  simp only [splice, List.length_append]
  by_cases h2 : off + q.length ≤ o ∧ o < off + q.length + q'.length
  · rw [if_pos h2, if_pos (by omega), List.getD_append_right _ _ _ _ (by omega), Nat.sub_sub]
  · rw [if_neg h2]
    by_cases h1 : off ≤ o ∧ o < off + q.length
    · rw [if_pos h1, if_pos (by omega), List.getD_append _ _ _ _ (by omega)]
    · rw [if_neg h1, if_neg (by omega)]

/-- The state after `wsect(x, ...)` in `iappend`. -/
def St.wdata (s : St) (x : ℕ) (buf : Block) : St :=
  { s with img := update s.img x buf, dataWrites := s.dataWrites ++ [x] }

theorem Built.store (h : Built N s L f) (hN : N ≤ 208) (hn : Used (view N) L n) {off : ℕ}
    (hL : L n = { d with size := BitVec.ofNat 32 off }) {q : List (BitVec 8)}
    (hmax : off + q.length ≤ MAXFILE * BSIZE) (hblock : off + q.length ≤ (off / BSIZE + 1) * BSIZE)
    (h0 : slot s.disk d (blockSlot (off / BSIZE)) ≠ 0) :
    Built N (s.wdata (slot s.disk d (blockSlot (off / BSIZE)))
        (bcopy (s.img (slot s.disk d (blockSlot (off / BSIZE)))) (off - off / BSIZE * BSIZE) q))
      (update L n { d with size := BitVec.ofNat 32 (off + q.length) })
      (update f n (splice (f n) off q)) ∧
    ∀ j, slot (s.wdata (slot s.disk d (blockSlot (off / BSIZE)))
        (bcopy (s.img (slot s.disk d (blockSlot (off / BSIZE)))) (off - off / BSIZE * BSIZE) q)).disk d j =
      slot s.disk d j := by
  have hbs : 0 < BSIZE := by decide
  have hslotL (j : ℕ) : slot s.disk (L n) j = slot s.disk d j := by rw [hL]; rfl
  have hmod : off % BSIZE = off - off / BSIZE * BSIZE := by
    have := Nat.div_add_mod off BSIZE
    rw [Nat.mul_comm] at this
    omega
  have hoff32 : off + q.length < 2 ^ 32 := by
    simp only [MAXFILE, NDIRECT, NINDIRECT, BSIZE] at hmax
    omega
  set x := slot s.disk d (blockSlot (off / BSIZE)) with hx
  set buf := bcopy (s.img x) (off - off / BSIZE * BSIZE) q with hbuf
  have hxL : slot s.disk (L n) (blockSlot (off / BSIZE)) = x := hslotL _
  have hdx : nmeta ≤ x ∧ x < FSSIZE := by
    have := h.data_of_slot hn (by rwa [hxL])
    rwa [hxL] at this
  have hxlt : x < s.freeblock := by
    have := h.slot_lt hn (by rwa [hxL])
    rwa [hxL] at this
  have hdisk : (s.wdata x buf).disk = update s.disk x buf :=
    marked_update (isData_ne_bmapstart hdx.1)
  obtain ⟨hslot, hcell, hblocks⟩ :=
    h.blocks.write (view_wellFormed hN) hn (Fs.blockSlot_ne (off / BSIZE)) (by rwa [hxL]) buf
  rw [hxL, ← hdisk] at hslot hcell hblocks
  have hslotd (j : ℕ) : slot (s.wdata x buf).disk d j = slot s.disk d j := by
    rw [← hslotL j, ← hslot n hn j, hL]
    rfl
  have hused : Used (view N) (update L n { d with size := BitVec.ofNat 32 (off + q.length) }) n := by
    rw [Used, update_self]
    have := hn.2
    rw [hL] at this
    exact ⟨hn.1, this⟩
  have hsize : (BitVec.ofNat 32 (off + q.length)).toNat = off + q.length := by
    rw [BitVec.toNat_ofNat, Nat.mod_eq_of_lt hoff32]
  refine ⟨⟨h.len, h.low, h.high, ?_, ?_, ?_, h.taken, ?_⟩, hslotd⟩
  · -- up to the new end there is no hole
    refine hblocks.set_inode (fun k => ?_) (fun _ _ => ⟨?_, fun bn hbn => ?_⟩) (fun _ => ?_)
    · rw [if_pos hused, if_pos hn, hslot n hn k, hslotL k]
      exact hslotd k
    · exact le_of_eq_of_le hsize hmax
    · change bn * BSIZE < (BitVec.ofNat 32 (off + q.length)).toNat at hbn
      rw [hsize] at hbn
      change slot (s.wdata x buf).disk d (blockSlot bn) ≠ 0
      rw [hslotd]
      by_cases hlt : bn * BSIZE < off
      · have hfull := (h.blocks.full n hn (Set.notMem_empty n)).2 bn
        rw [hL] at hfull
        change bn * BSIZE < (BitVec.ofNat 32 off).toNat → slot s.disk d (blockSlot bn) ≠ 0 at hfull
        rw [BitVec.toNat_ofNat, Nat.mod_eq_of_lt (by omega)] at hfull
        exact hfull hlt
      · have h1 : bn < off / BSIZE + 1 := by
          by_contra hge
          have := Nat.mul_le_mul_right BSIZE (not_lt.mp hge)
          omega
        have h2 : off / BSIZE ≤ bn := by
          have := (Nat.le_div_iff_mul_le hbs (x := off / BSIZE) (y := bn * BSIZE)).mpr (by
            have := Nat.div_mul_le_self off BSIZE
            omega)
          rwa [Nat.mul_div_cancel _ hbs] at this
        rw [show bn = off / BSIZE by omega]
        exact h0
    · exact le_of_eq_of_le hsize hmax
  · intro m hm o
    by_cases hmn : m = n
    · subst hmn
      rw [update_self, update_self, splice]
      have hraw := h.bytes m hn o
      rw [rawByte] at hraw
      have hc := hcell m hn (blockSlot (o / BSIZE)) (Fs.blockSlot_ne _)
      have hc' : cell (s.wdata x buf).disk { d with size := BitVec.ofNat 32 (off + q.length) }
          (blockSlot (o / BSIZE)) = cell (s.wdata x buf).disk (L m) (blockSlot (o / BSIZE)) := by
        rw [hL]
        rfl
      rw [rawByte, hc', hc, ← hraw]
      have hdo := Nat.div_add_mod o BSIZE
      have hmo := Nat.mod_lt o hbs
      rw [Nat.mul_comm] at hdo
      have hdf := Nat.div_mul_le_self off BSIZE
      by_cases hblk : o / BSIZE = off / BSIZE
      · have hold : byte (s.img x) (o % BSIZE) = byte (cell s.disk (L m) (blockSlot (o / BSIZE))) (o % BSIZE) := by
          rw [cell, hblk, hxL, if_neg h0, St.disk_data hdx.1]
        rw [if_pos ⟨rfl, by rw [hblk]⟩, hbuf, byte_bcopy q _ _ _ (by
          rw [Nat.add_mul, Nat.one_mul] at hblock
          omega), hold]
        rw [hblk] at hdo
        by_cases hin : off ≤ o ∧ o < off + q.length
        · rw [if_pos hin, if_pos (by omega), show o % BSIZE - (off - off / BSIZE * BSIZE) = o - off by omega]
        · rw [if_neg hin, if_neg (by omega)]
      · rw [if_neg (fun hc => hblk (Fs.blockSlot_inj hc.2)), if_neg]
        rintro ⟨h1, h2⟩
        apply hblk
        have hlo : off / BSIZE ≤ o / BSIZE := Nat.div_le_div_right h1
        have hhi : o / BSIZE < off / BSIZE + 1 := by
          rw [Nat.div_lt_iff_lt_mul hbs]
          omega
        omega
    · have hm' : Used (view N) L m := by
        rw [Used, update_of_ne hmn] at hm
        exact hm
      rw [update_of_ne hmn, update_of_ne hmn, ← h.bytes m hm' o, rawByte, rawByte,
        hcell m hm' _ (Fs.blockSlot_ne _), if_neg (fun hc => hmn hc.1)]
  · intro b hb
    have hb' : s.freeblock ≤ b := hb
    change update s.img x buf b = 0
    rw [update_of_ne (by omega)]
    exact h.fresh b hb'
  · intro b hb
    rcases List.mem_append.mp hb with h1 | h1
    · exact h.writes b h1
    · rw [List.mem_singleton.mp h1]
      exact hdx

/-- How many blocks a file of `sz` bytes takes. -/
def need (sz : ℕ) : ℕ := (sz + BSIZE - 1) / BSIZE + if NDIRECT * BSIZE < sz then 1 else 0

theorem need_mono {a b : ℕ} (h : a ≤ b) : need a ≤ need b := by
  have h1 : (a + 1024 - 1) / 1024 ≤ (b + 1024 - 1) / 1024 := by omega
  unfold need
  by_cases ha : NDIRECT * BSIZE < a
  · rw [if_pos ha, if_pos (by omega)]
    exact Nat.add_le_add_right h1 1
  · rw [if_neg ha]
    exact le_trans h1 (Nat.le_add_right _ _)

theorem need_step {off k : ℕ} (hk : 0 < k) (hle : off + k ≤ (off / BSIZE + 1) * BSIZE) :
    (if off % BSIZE = 0 then 1 else 0) +
      (if NDIRECT ≤ off / BSIZE ∧ off ≤ NDIRECT * BSIZE then 1 else 0) + need off = need (off + k) := by
  have hind : NDIRECT * BSIZE = 12288 := rfl
  have hbs : BSIZE = 1024 := rfl
  have hdir : NDIRECT = 12 := rfl
  rw [need, need, hind]
  rw [hbs] at hle ⊢
  rw [hdir]
  split_ifs <;> omega

/-- The inode `d` has no blocks past its first `off` bytes. -/
structure Tight (disk : Disk) (d : Dinode) (off : ℕ) : Prop where
  past : ∀ bn, off ≤ bn * BSIZE → slot disk d (blockSlot bn) = 0
  indirect : off ≤ NDIRECT * BSIZE → addr d NDIRECT = 0

theorem Built.slot_zero_iff (h : Built N s L f) (hn : Used (view N) L n) {off : ℕ}
    (hL : L n = { d with size := BitVec.ofNat 32 off }) (hoff : off < 2 ^ 32) (ht : Tight s.disk d off) :
    (slot s.disk d (blockSlot (off / BSIZE)) = 0 ↔ off % BSIZE = 0) ∧
      (addr d NDIRECT = 0 ↔ off ≤ NDIRECT * BSIZE) := by
  have hdm := Nat.div_add_mod off BSIZE
  rw [Nat.mul_comm] at hdm
  have hfull (bn : ℕ) (hbn : bn * BSIZE < off) : slot s.disk d (blockSlot bn) ≠ 0 := by
    have hb := (h.blocks.full n hn (Set.notMem_empty n)).2 bn
    rw [hL] at hb
    change bn * BSIZE < (BitVec.ofNat 32 off).toNat → slot s.disk d (blockSlot bn) ≠ 0 at hb
    rw [BitVec.toNat_ofNat, Nat.mod_eq_of_lt hoff] at hb
    exact hb hbn
  constructor
  · constructor
    · intro h0
      by_contra hne
      exact hfull _ (by omega) h0
    · intro h0
      exact ht.past _ (by omega)
  · constructor
    · intro h0
      by_contra hgt
      apply hfull NDIRECT (by omega)
      have hbs : blockSlot NDIRECT = NDIRECT + 1 := if_neg (lt_irrefl _)
      rw [hbs, slot, if_neg (by omega), if_neg (fun hc => hc.2 h0)]
    · exact ht.indirect

theorem Like.trans {d d' d'' : Dinode} (h : Like d d') (h' : Like d' d'') : Like d d'' :=
  ⟨h'.1.trans h.1, h'.2.1.trans h.2.1, h'.2.2.1.trans h.2.2.1, h'.2.2.2.trans h.2.2.2⟩

/-- What `iappend` makes of the inode `n` when it appends `p` at `off`. -/
structure Appended (N : ℕ) (s : St) (L : ℕ → Dinode) (f : ℕ → ℕ → BitVec 8) (n : ℕ) (d : Dinode)
    (off : ℕ) (p : List (BitVec 8)) (s' : St) (d' : Dinode) : Prop where
  built : Built N s' (update L n { d' with size := BitVec.ofNat 32 (off + p.length) })
    (update f n (splice (f n) off p))
  frame : Frame s d s' d'
  like : Like d d'
  tight : Tight s'.disk d' (off + p.length)
  count : s'.freeblock + need off = s.freeblock + need (off + p.length)
  size_le : off + p.length ≤ MAXFILE * BSIZE

theorem Appended.nil {off : ℕ} (h : Built N s L f) (hL : L n = { d with size := BitVec.ofNat 32 off })
    (hoff : off ≤ MAXFILE * BSIZE) (ht : Tight s.disk d off) : Appended N s L f n d off [] s d := by
  have hsplice : splice (f n) off [] = f n := by
    funext o
    rw [splice, if_neg (by simp only [List.length_nil]; omega)]
  refine ⟨?_, Frame.refl s d, ⟨rfl, rfl, rfl, rfl⟩, ht, rfl, hoff⟩
  rw [List.length_nil, add_zero, ← hL, hsplice, update_eq_self, update_eq_self]
  exact h

theorem appendLoop_spec (hN : N ≤ 208) (fuel : ℕ) {off : ℕ} {p : List (BitVec 8)} (h : Built N s L f)
    (hn : Used (view N) L n) (hL : L n = { d with size := BitVec.ofNat 32 off })
    (hoff : off ≤ MAXFILE * BSIZE) (ht : Tight s.disk d off) (hfuel : p.length ≤ fuel)
    (hfit : F → s.freeblock + need (off + p.length) ≤ FSSIZE + need off ∧
      off + p.length ≤ MAXFILE * BSIZE) :
    wp (appendLoop fuel d off p) (fun r s' => r.2 = off + p.length ∧
      Appended N s L f n d off p s' r.1) (fun _ _ => ¬ F) s := by
  have hbs : 0 < BSIZE := by decide
  induction fuel generalizing s L f d off p with
  | zero =>
    have hp : p = [] := List.eq_nil_of_length_eq_zero (Nat.le_zero.mp hfuel)
    subst hp
    rw [appendLoop, wp_pure]
    exact ⟨rfl, Appended.nil h hL hoff ht⟩
  | succ fuel ih =>
    rw [appendLoop]
    by_cases hp : p = []
    · subst hp
      rw [if_pos rfl, wp_pure]
      exact ⟨rfl, Appended.nil h hL hoff ht⟩
    · rw [if_neg hp]
      have hlen : 0 < p.length := List.length_pos_iff.mpr hp
      by_cases hfbn : off / BSIZE < MAXFILE
      · rw [if_pos hfbn, wp_bind]
        have hoff32 : off < 2 ^ 32 := by
          simp only [MAXFILE, NDIRECT, NINDIRECT, BSIZE] at hoff
          omega
        obtain ⟨hz1, hz2⟩ := h.slot_zero_iff hn hL hoff32 ht
        set k := min p.length ((off / BSIZE + 1) * BSIZE - off) with hk
        have hlt : off < (off / BSIZE + 1) * BSIZE := by
          have h1 := Nat.div_add_mod off BSIZE
          have h2 := Nat.mod_lt off hbs
          rw [Nat.add_mul, Nat.one_mul]
          rw [Nat.mul_comm] at h1
          omega
        have hk0 : 0 < k := by omega
        have hkle : off + k ≤ (off / BSIZE + 1) * BSIZE := by omega
        have hstep := need_step hk0 hkle
        have hmono : need (off + k) ≤ need (off + p.length) := need_mono (by omega)
        refine wp_imp (fileBlock_spec h hN hn hL hfbn (by
          intro hf
          have h1 := (hfit hf).1
          simp only [hz1, hz2]
          omega)) ?_
        rintro ⟨d1, x⟩ s1 (⟨hge, hlen1, hnf⟩ | ⟨h1, hframe, hx0, hxlt, hlike, hslot, hslots, hind, hcount⟩)
        · simp only [rsect, wp_bind, wp_get]
          rw [if_neg (by rw [hlen1]; exact not_lt.mpr hge), wp_throw]
          exact hnf
        · simp only [rsect, wp_bind, wp_get]
          rw [if_pos (by rw [h1.len]; exact hxlt), wp_pure]
          simp only [wdata, wsect, wp_bind, wp_modify]
          have hself : update L n { d1 with size := BitVec.ofNat 32 off } n =
              { d1 with size := BitVec.ofNat 32 off } := update_self ..
          have hused1 : Used (view N) (update L n { d1 with size := BitVec.ofNat 32 off }) n := by
            rw [Used, hself]
            have h2 := hn.2
            rw [hL] at h2
            refine ⟨hn.1, ?_⟩
            change d1.type ≠ 0
            rw [hlike.1]
            exact h2
          have htake : (p.take k).length = k := by
            rw [List.length_take]
            omega
          have hmax : off + k ≤ MAXFILE * BSIZE := le_trans hkle (Nat.mul_le_mul_right BSIZE hfbn)
          have hstore := h1.store hN hused1 hself (q := p.take k) (by rw [htake]; exact hmax)
            (by rw [htake]; exact hkle) (by rw [hslot]; exact hx0)
          simp only [hslot, htake, update_idem] at hstore
          obtain ⟨h2, hslot2⟩ := hstore
          have hmaxlen : max s1.len (x + 1) = s1.len := by
            rw [h1.len]
            omega
          rw [hmaxlen]
          have hused2 : Used (view N) (update L n { d1 with size := BitVec.ofNat 32 (off + k) }) n := by
            rw [Used, update_self]
            rw [Used, hself] at hused1
            exact hused1
          have ht2 : Tight (s1.wdata x (bcopy (s1.img x) (off - off / BSIZE * BSIZE) (p.take k))).disk d1
              (off + k) := by
            constructor
            · intro bn hbn
              have hbn' : off / BSIZE < bn := by
                by_contra hle
                have := Nat.mul_le_mul_right BSIZE (not_lt.mp hle)
                have := Nat.div_mul_le_self off BSIZE
                omega
              rw [hslot2, hslots _ (fun hc => by have := Fs.blockSlot_inj hc; omega) (Fs.blockSlot_ne _)]
              exact ht.past bn (by omega)
            · intro hle
              rw [hind]
              refine ⟨ht.indirect (by omega), ?_⟩
              rw [Nat.div_lt_iff_lt_mul hbs]
              omega
          have hcount2 : s1.freeblock + need off = s.freeblock + need (off + k) := by
            simp only [hz1, hz2] at hcount
            omega
          have hdrop : off + k + (p.drop k).length = off + p.length := by
            rw [List.length_drop]
            omega
          refine wp_imp (ih (p := p.drop k) h2 hused2 (update_self ..) hmax ht2 (by
              rw [List.length_drop]
              omega) ?_) ?_
          · intro hf
            rw [hdrop]
            refine ⟨?_, (hfit hf).2⟩
            have h3 := (hfit hf).1
            change s1.freeblock + need (off + p.length) ≤ FSSIZE + need (off + k)
            omega
          · rintro ⟨d3, off3⟩ s3 ⟨hoff3, happ⟩
            obtain ⟨h3, hframe3, hlike3, ht3, hcount3, hmax3⟩ := happ
            simp only [update_idem, update_self] at h3
            rw [hdrop] at hoff3 h3 ht3 hcount3 hmax3
            have hsplice : splice (splice (f n) off (p.take k)) (off + k) (p.drop k) = splice (f n) off p := by
              have := splice_append (f n) off (p.take k) (p.drop k)
              rwa [htake, List.take_append_drop] at this
            rw [hsplice] at h3
            have hframe2 : Frame s1 d1
                (s1.wdata x (bcopy (s1.img x) (off - off / BSIZE * BSIZE) (p.take k))) d1 := by
              refine ⟨fun b hb => ?_, fun b _ hno => ?_, fun j => .inl (hslot2 j), le_refl _, rfl, rfl, rfl⟩
              swap
              · have hne := hno (blockSlot (off / BSIZE))
                rw [hslot] at hne
                exact update_of_ne hne.symm _ _
              have hdx : nmeta ≤ x := by
                have := h1.data_of_slot (k := blockSlot (off / BSIZE)) hused1 (by
                  rw [hself]
                  change slot s1.disk d1 _ ≠ 0
                  rw [hslot]
                  exact hx0)
                rw [hself] at this
                change nmeta ≤ slot s1.disk d1 _ ∧ _ at this
                rw [hslot] at this
                exact this.1
              exact update_of_ne (by omega) _ _
            refine ⟨hoff3, h3, hframe.trans (hframe2.trans hframe3), hlike.trans hlike3, ht3, ?_, hmax3⟩
            · change s3.freeblock + need (off + k) = s1.freeblock + need (off + p.length) at hcount3
              omega
      · rw [if_neg hfbn, wp_throw]
        intro hf
        have h1 := (hfit hf).2
        apply hfbn
        rw [Nat.div_lt_iff_lt_mul hbs]
        omega

end Append

end Xv6.Mkfs
