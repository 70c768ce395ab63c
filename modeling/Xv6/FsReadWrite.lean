import Xv6.FsInode
import Xv6.FsRecord

/-! The specifications of `readi` and `writei` (kernel/fs.c) in terms of the bytes of an inode. -/
namespace Xv6.Fs

variable {μ : Mode} {sb : Superblock} {p : ℕ} {s s0 : St} {L : ℕ → Dinode} {D : Set ℕ}
  {H K : Multiset (ℕ × ℕ)} {N W : Finset ℕ} {i n b k : ℕ}

section Bytes

/-- The byte `o` of the blocks of an inode, whatever its size is. -/
def rawByte (disk : Disk) (d : Dinode) (o : ℕ) : Byte :=
  byte (cell disk d (blockSlot (o / BSIZE))) (o % BSIZE)

theorem node_byte (disk : Disk) (d : Dinode) (o : ℕ) :
    (node disk d).byte o = if o < d.size.toNat then rawByte disk d o else 0 := rfl

theorem copyBytes_spec (src : ℕ → Option Byte) (o m j : ℕ) (b : Block) (ho : o + j + m ≤ BSIZE) :
    ∃ w, j ≤ w ∧ w ≤ j + m ∧ (∀ x, j ≤ x → x < w → (src x).isSome) ∧
      ((copyBytes b o src m j).2 = true ∧ w = j + m ∨
        (copyBytes b o src m j).2 = false ∧ w < j + m ∧ src w = none) ∧
      ∀ y, byte (copyBytes b o src m j).1 y =
        if o + j ≤ y ∧ y < o + w then (src (y - o)).getD 0 else byte b y := by
  induction m generalizing j b with
  | zero =>
    refine ⟨j, le_refl j, le_refl j, fun x h1 h2 => by omega, .inl ⟨rfl, rfl⟩, fun y => ?_⟩
    rw [if_neg (by omega)]
    rfl
  | succ m ih =>
    cases hsrc : src j with
    | none =>
      refine ⟨j, le_refl j, by omega, fun x h1 h2 => by omega, .inr ⟨?_, by omega, hsrc⟩, fun y => ?_⟩
      · simp only [copyBytes, hsrc]
      · rw [if_neg (by omega)]
        simp only [copyBytes, hsrc]
    | some v =>
      obtain ⟨w, h1, h2, h3, h4, h5⟩ := ih (j + 1) (setByte b (o + j) v) (by omega)
      simp only [copyBytes, hsrc]
      refine ⟨w, by omega, by omega, ?_, ?_, fun y => ?_⟩
      · intro x hx1 hx2
        by_cases hxj : x = j
        · rw [hxj, hsrc]
          rfl
        · exact h3 x (by omega) hx2
      · exact h4.imp (fun h => ⟨h.1, by omega⟩) (fun h => ⟨h.1, by omega, h.2.2⟩)
      · rw [h5 y, byte_setByte b v (by omega)]
        by_cases hy : y = o + j
        · rw [if_neg (by omega), if_pos hy, if_pos (by omega), hy, Nat.add_sub_cancel_left, hsrc]
          rfl
        · rw [if_neg hy]
          by_cases hin : o + j ≤ y ∧ y < o + w
          · rw [if_pos hin, if_pos (by omega)]
          · rw [if_neg hin, if_neg (by omega)]

end Bytes

section Read

/-- What `readi` returns when it reads the `n` bytes `f`: all of them, or those before the first
address that cannot be written. -/
def readResult (dst : ℕ → Bool) (f : ℕ → Byte) (n : ℕ) : ℤ × List Byte :=
  if (List.range n).all dst then (n, (List.range n).map f)
  else (-1, ((List.range n).takeWhile dst).map f)

theorem readResult_congr {dst : ℕ → Bool} {f g : ℕ → Byte} {n : ℕ} (h : ∀ j < n, f j = g j) :
    readResult dst f n = readResult dst g n := by
  have h1 : (List.range n).map f = (List.range n).map g :=
    List.map_congr_left (fun j hj => h j (List.mem_range.mp hj))
  have h2 : ((List.range n).takeWhile dst).map f = ((List.range n).takeWhile dst).map g :=
    List.map_congr_left (fun j hj =>
      h j (List.mem_range.mp ((List.takeWhile_sublist (p := dst)).mem hj)))
  rw [readResult, readResult, h1, h2]

theorem takeWhile_range_add {dst : ℕ → Bool} {tot m : ℕ} (h : ∀ j < tot, dst j = true) :
    (List.range (tot + m)).takeWhile dst =
      List.range tot ++ ((List.range m).takeWhile (fun j => dst (tot + j))).map (tot + ·) := by
  rw [List.range_add, List.takeWhile_append_of_pos, List.takeWhile_map]
  · rfl
  · intro a ha
    exact h a (List.mem_range.mp ha)

theorem readResult_bad {dst : ℕ → Bool} {f : ℕ → Byte} {tot m n : ℕ} (h : ∀ j < tot, dst j = true)
    (hm : tot + m ≤ n) (hbad : ¬ (List.range m).all (fun j => dst (tot + j)) = true) :
    readResult dst f n = (-1, (List.range tot).map f ++ ((List.range m).map (fun j => f (tot + j))).take
      ((List.range m).takeWhile (fun j => dst (tot + j))).length) := by
  have hex : ∃ j < m, dst (tot + j) = false := by
    by_contra hall
    push Not at hall
    refine hbad (List.all_eq_true.mpr (fun j hj => ?_))
    exact Bool.eq_true_of_not_eq_false (hall j (List.mem_range.mp hj))
  obtain ⟨j, hj, hdst⟩ := hex
  have hnot : ¬ (List.range n).all dst = true := by
    intro hall
    have := List.all_eq_true.mp hall (tot + j) (List.mem_range.mpr (by omega))
    rw [hdst] at this
    cases this
  -- the first bad address is among the next `m`
  have htake : (List.range n).takeWhile dst = (List.range (tot + m)).takeWhile dst := by
    obtain ⟨r, rfl⟩ := Nat.exists_eq_add_of_le hm
    rw [List.range_add, List.takeWhile_append, if_neg]
    intro hlen
    have hall := List.takeWhile_eq_self_iff.mp
      ((List.takeWhile_sublist (p := dst) (l := List.range (tot + m))).eq_of_length hlen)
    have := hall (tot + j) (List.mem_range.mpr (by omega))
    rw [hdst] at this
    cases this
  rw [readResult, if_neg hnot, htake, takeWhile_range_add h, List.map_append, List.map_map]
  congr 2
  have hpre := List.takeWhile_prefix (fun j => dst (tot + j)) (l := List.range m)
  rw [← List.map_take, ← List.prefix_iff_eq_take.mp hpre]
  rfl

theorem readLoop_present {E : Panic → St → Prop} {d : Dinode} {dst : ℕ → Bool} {off n : ℕ}
    (hcopy : (s.itable i).copy = d) (hmax : off + n ≤ MAXFILE * BSIZE)
    (hfull : ∀ bn, bn * BSIZE < off + n → slot s.disk d (blockSlot bn) ≠ 0)
    (fuel tot : ℕ) (htot : tot ≤ n) (hfuel : n ≤ tot + fuel)
    (hdone : ∀ j < tot, dst j = true) :
    wp (readLoop sb i dst off n fuel tot ((List.range tot).map (fun j => rawByte s.disk d (off + j))))
      (fun r s' => s' = s ∧ r = readResult dst (fun j => rawByte s.disk d (off + j)) n) E s := by
  have hend (h : tot = n) : (((tot : ℕ) : ℤ), (List.range tot).map (fun j => rawByte s.disk d (off + j))) =
      readResult dst (fun j => rawByte s.disk d (off + j)) n := by
    subst h
    rw [readResult, if_pos]
    exact List.all_eq_true.mpr (fun j hj => hdone j (List.mem_range.mp hj))
  induction fuel generalizing tot with
  | zero =>
    rw [readLoop, wp_pure]
    exact ⟨rfl, hend (by omega)⟩
  | succ fuel ih =>
    by_cases hlt : tot < n
    · have hbs : 0 < BSIZE := by decide
      have hbn : (off + tot) / BSIZE * BSIZE < off + n := by
        have := Nat.div_mul_le_self (off + tot) BSIZE
        omega
      have hbmax : (off + tot) / BSIZE < MAXFILE := by
        rw [Nat.div_lt_iff_lt_mul hbs]
        omega
      have h0 := hfull _ hbn
      simp only [readLoop, if_pos hlt, wp_bind]
      refine bmap_present (L := fun _ => d) (n := 0) hcopy hbmax h0 ?_
      simp only [if_neg h0, wp_bind, wp_get]
      set m := min (n - tot) (BSIZE - (off + tot) % BSIZE) with hm
      have hmod : (off + tot) % BSIZE < BSIZE := Nat.mod_lt _ hbs
      -- the bytes of this block are the next ones of the contents
      have hbytes (j : ℕ) (hj : j < m) :
          byte (s.disk (slot s.disk d (blockSlot ((off + tot) / BSIZE)))) ((off + tot) % BSIZE + j) =
            rawByte s.disk d (off + (tot + j)) := by
        have hdm := Nat.div_add_mod (off + tot) BSIZE
        have heq : off + (tot + j) = (off + tot) % BSIZE + j + BSIZE * ((off + tot) / BSIZE) := by omega
        have hlt' : (off + tot) % BSIZE + j < BSIZE := by omega
        rw [rawByte, heq, Nat.add_mul_div_left _ _ hbs, Nat.div_eq_of_lt hlt', zero_add,
          Nat.add_mul_mod_self_left, Nat.mod_eq_of_lt hlt', cell, if_neg h0]
      have hmap : (List.range m).map (fun j => byte (s.disk (slot s.disk d
          (blockSlot ((off + tot) / BSIZE)))) ((off + tot) % BSIZE + j)) =
            (List.range m).map (fun j => rawByte s.disk d (off + (tot + j))) :=
        List.map_congr_left (fun j hj => hbytes j (List.mem_range.mp hj))
      rw [hmap]
      by_cases hall : (List.range m).all (fun j => dst (tot + j)) = true
      · rw [if_pos hall]
        have hdone' : ∀ j < tot + m, dst j = true := by
          intro j hj
          by_cases hjt : j < tot
          · exact hdone j hjt
          · have := List.all_eq_true.mp hall (j - tot) (List.mem_range.mpr (by omega))
            rwa [Nat.add_sub_cancel' (by omega)] at this
        have happ : (List.range tot).map (fun j => rawByte s.disk d (off + j)) ++
            (List.range m).map (fun j => rawByte s.disk d (off + (tot + j))) =
              (List.range (tot + m)).map (fun j => rawByte s.disk d (off + j)) := by
          rw [List.range_add, List.map_append, List.map_map]
          rfl
        rw [happ]
        refine ih (tot + m) (by omega) (by omega) hdone' ?_
        intro h
        rw [h, readResult, if_pos]
        exact List.all_eq_true.mpr (fun j hj => hdone' j (by
          have := List.mem_range.mp hj
          omega))
      · rw [if_neg hall, wp_pure]
        exact ⟨rfl, (readResult_bad (f := fun j => rawByte s.disk d (off + j)) hdone (by omega) hall).symm⟩
    · rw [readLoop, if_neg hlt, wp_pure]
      exact ⟨rfl, hend (by omega)⟩

def readCount (size off n : ℕ) : ℕ :=
  if size < off ∨ (off + n) % 2 ^ 32 < off then 0 else min n (size - off)

theorem readi_present {E : Panic → St → Prop} {d : Dinode} {dst : ℕ → Bool} {off len : ℕ}
    (hcopy : (s.itable i).copy = d) (hfull : HoleFree s.disk d) :
    wp (readi sb i dst off len) (fun r s' => s' = s ∧
      r = readResult dst (fun j => (node s.disk d).byte (off + j)) (readCount d.size.toNat off len)) E s := by
  have hraw (len : ℕ) (hlen : off + len ≤ d.size.toNat) :
      readResult dst (fun j => rawByte s.disk d (off + j)) len =
        readResult dst (fun j => (node s.disk d).byte (off + j)) len := by
    apply readResult_congr
    intro j hj
    rw [node_byte, if_pos (by omega)]
  simp only [readi, copyOf, wp_bind, wp_get, wp_pure, hcopy, readCount]
  by_cases hbad : d.size.toNat < off ∨ (off + len) % 2 ^ 32 < off
  · rw [if_pos hbad, if_pos hbad, wp_pure]
    exact ⟨rfl, rfl⟩
  · rw [if_neg hbad, if_neg hbad]
    have hlen : (if d.size.toNat < off + len then d.size.toNat - off else len) =
        min len (d.size.toNat - off) := by
      split <;> omega
    rw [hlen, ← hraw _ (by omega)]
    have hend : off + min len (d.size.toNat - off) ≤ d.size.toNat := by omega
    exact readLoop_present hcopy (le_trans hend hfull.1) (fun bn hbn => hfull.2 bn (lt_of_lt_of_le hbn hend)) _ 0
      (by omega) (by omega) (fun j hj => by omega)

/-- Of an inode that may have holes, the part whose blocks are there can be read. -/
theorem readi_within {E : Panic → St → Prop} {d : Dinode} {dst : ℕ → Bool} {off len : ℕ}
    (hcopy : (s.itable i).copy = d) (hsize : off + len ≤ d.size.toNat) (hmax : off + len ≤ MAXFILE * BSIZE)
    (hfull : ∀ bn, bn * BSIZE < off + len → slot s.disk d (blockSlot bn) ≠ 0) :
    wp (readi sb i dst off len) (fun r s' => s' = s ∧
      r = readResult dst (fun j => rawByte s.disk d (off + j)) len) E s := by
  have hwrap : (off + len) % 2 ^ 32 = off + len := Nat.mod_eq_of_lt (lt_of_le_of_lt hsize d.size.isLt)
  simp only [readi, copyOf, wp_bind, wp_get, wp_pure, hcopy]
  rw [if_neg (by omega), if_neg (by omega)]
  exact readLoop_present hcopy hmax hfull _ 0 (by omega) (by omega) (fun j hj => by omega)

theorem readi_spec {E : Panic → St → Prop} {dst : ℕ → Bool} {off len : ℕ}
    (hok : Ok μ sb p s.disk s.itable L D H K) (hi : (i, n) ∈ K) (hn : n ∉ μ.holey) :
    wp (readi sb i dst off len) (fun r s' => s' = s ∧
      r = readResult dst (fun j => (nodes sb s.disk L n).byte (off + j))
        (readCount (nodes sb s.disk L n).size off len)) E s := by
  have hused := hok.used_of_locked hi
  rw [nodes_of_used hused]
  exact readi_present (hok.copy_eq hi) (hok.blocks.full n hused hn)

end Read

section Write

/-- The inode after `writei` has stored `w` bytes from `src` at `off` and counts `tot` of them. -/
def Node.written (x : Node) (off w tot : ℕ) (src : ℕ → Option Byte) : Node :=
  { x with
    size := max x.size (off + tot)
    byte := fun o =>
      if o < max x.size (off + tot) then
        if off ≤ o ∧ o < off + w then (src (o - off)).getD 0 else x.byte o
      else 0 }

/-- In the loop of `writei`, with `w` bytes stored in blocks of the inode `n`, which is now `d`. -/
structure Writing (μ : Mode) (sb : Superblock) (p : ℕ) (s0 : St) (L : ℕ → Dinode) (D : Set ℕ)
    (H K : Multiset (ℕ × ℕ)) (n off : ℕ) (src : ℕ → Option Byte) (w : ℕ) (s : St) (d : Dinode) :
    Prop where
  ok : Ok μ sb p s.disk s.itable (update L n d) (insert n D) H K
  env : Env s0 s
  fields : d.type = (L n).type ∧ d.major = (L n).major ∧ d.minor = (L n).minor ∧
    d.nlink = (L n).nlink ∧ d.size = (L n).size
  slots : ∀ k, slot s0.disk (L n) k ≠ 0 → slot s.disk d k = slot s0.disk (L n) k
  valid : ∀ j, (s.itable j).valid = (s0.itable j).valid
  others : ∀ m ≠ n, nodes sb s.disk (update L n d) m = nodes sb s0.disk L m
  bytes : ∀ o, rawByte s.disk d o =
    if off ≤ o ∧ o < off + w then (src (o - off)).getD 0 else rawByte s0.disk (L n) o
  present : ∀ o, off ≤ o → o < off + w → slot s.disk d (blockSlot (o / BSIZE)) ≠ 0

namespace Writing

variable {off w : ℕ} {src : ℕ → Option Byte} {d : Dinode}

theorem refl (hok : Ok μ sb p s.disk s.itable L D H K) :
    Writing μ sb p s L D H K n off src 0 s (L n) := by
  refine ⟨?_, Env.refl s, ⟨rfl, rfl, rfl, rfl, rfl⟩, fun _ _ => rfl, fun _ => rfl, ?_, ?_, ?_⟩
  · rw [update_eq_self]
    exact hok.dirty_mono (Set.subset_insert n D)
  · intro m _
    rw [update_eq_self]
  · intro o
    rw [if_neg (by omega)]
  · intro o h1 h2
    omega

theorem mapped {s' : St} {d' : Dinode} (h : Writing μ sb p s0 L D H K n off src w s d)
    (hmap : Mapped μ sb p s (update L n d) (insert n D) H K n s' d') :
    Writing μ sb p s0 L D H K n off src w s' d' := by
  obtain ⟨hok, hnodes, hgrown⟩ := hmap
  rw [update_idem] at hok hnodes
  rw [update_self] at hgrown
  rw [Set.insert_eq_of_mem (Set.mem_insert n D)] at hok
  obtain ⟨a1, a2, a3, a4, a5⟩ := h.fields
  obtain ⟨b1, b2, b3, b4, b5⟩ := hgrown.fields
  refine ⟨hok, h.env.trans hgrown.env, ⟨b1.trans a1, b2.trans a2, b3.trans a3, b4.trans a4,
    b5.trans a5⟩, fun k hk => ?_, fun j => (hgrown.valid j).trans (h.valid j), fun m hm => ?_,
    fun o => ?_, fun o h1 h2 => ?_⟩
  · have hk' := h.slots k hk
    rw [hgrown.slots k (by rwa [hk']), hk']
  · rw [hnodes, h.others m hm]
  · rw [← h.bytes o, rawByte, rawByte, hgrown.cells _ (blockSlot_ne _)]
  · have hp := h.present o h1 h2
    rwa [hgrown.slots _ hp]

theorem store (h : Writing μ sb p s0 L D H K n off src w s d) (hn : Used sb L n) {v : Block} (w' : ℕ)
    (h0 : slot s.disk d (blockSlot ((off + w) / BSIZE)) ≠ 0) (hw : w ≤ w')
    (hw' : off + w' ≤ ((off + w) / BSIZE + 1) * BSIZE)
    (hv : ∀ y < BSIZE, byte v y = if (off + w) % BSIZE ≤ y ∧ y < (off + w) % BSIZE + (w' - w) then
      (src (w + (y - (off + w) % BSIZE))).getD 0
      else byte (s.disk (slot s.disk d (blockSlot ((off + w) / BSIZE)))) y) :
    Writing μ sb p s0 L D H K n off src w'
      { s with disk := update s.disk (slot s.disk d (blockSlot ((off + w) / BSIZE))) v } d := by
  have hbs : 0 < BSIZE := by decide
  have hself : update L n d n = d := update_self n d L
  have hused : Used sb (update L n d) n := by
    unfold Used
    rw [hself, h.fields.1]
    exact hn
  have hwrite := h.ok.blocks.write h.ok.wf hused (blockSlot_ne ((off + w) / BSIZE)) (by rwa [hself]) v
  rw [hself] at hwrite
  obtain ⟨hslot, hcell, hblocks⟩ := hwrite
  have hdata : sb.IsData (slot s.disk d (blockSlot ((off + w) / BSIZE))) := by
    have := h.ok.blocks.slot_data (k := blockSlot ((off + w) / BSIZE)) hused (by rwa [hself])
    rwa [hself] at this
  refine ⟨h.ok.set_disk hblocks (fun m hm => dinode_update h.ok.wf hdata v hm), h.env, h.fields,
    fun k hk => ?_, h.valid, fun m hm => ?_, fun o => ?_, fun o h1 h2 => ?_⟩
  · have := hslot n hused k
    rw [hself] at this
    exact this.trans (h.slots k hk)
  · rw [← h.others m hm]
    by_cases hm' : Used sb (update L n d) m
    · rw [nodes_of_used hm', nodes_of_used hm']
      refine node_congr ⟨rfl, rfl, rfl, rfl, rfl⟩ (fun k hk => ?_)
      exact (hcell m hm' k hk).trans (if_neg (fun hc => hm hc.1))
    · rw [nodes_of_not_used hm', nodes_of_not_used hm']
  · -- a byte of the block that was written, or of another one
    have hc := hcell n hused (blockSlot (o / BSIZE)) (blockSlot_ne _)
    rw [hself] at hc
    have hdm := Nat.div_add_mod (off + w) BSIZE
    have hdo := Nat.div_add_mod o BSIZE
    have hmo := Nat.mod_lt o hbs
    rw [rawByte, hc]
    by_cases hblk : o / BSIZE = (off + w) / BSIZE
    · have heq : n = n ∧ blockSlot (o / BSIZE) = blockSlot ((off + w) / BSIZE) := ⟨rfl, by rw [hblk]⟩
      rw [if_pos heq, hv _ hmo]
      have hold : byte (s.disk (slot s.disk d (blockSlot ((off + w) / BSIZE)))) (o % BSIZE) =
          rawByte s.disk d o := by
        rw [rawByte, cell, hblk, if_neg h0]
      rw [hblk] at hdo
      by_cases hin : (off + w) % BSIZE ≤ o % BSIZE ∧ o % BSIZE < (off + w) % BSIZE + (w' - w)
      · have hidx : w + (o % BSIZE - (off + w) % BSIZE) = o - off := by omega
        rw [if_pos hin, if_pos (by omega), hidx]
      · rw [if_neg hin, hold, h.bytes o]
        by_cases hdone : off ≤ o ∧ o < off + w
        · rw [if_pos hdone, if_pos (by omega)]
        · rw [if_neg hdone, if_neg (by omega)]
    · have hne : ¬ (n = n ∧ blockSlot (o / BSIZE) = blockSlot ((off + w) / BSIZE)) :=
        fun hc => hblk (blockSlot_inj hc.2)
      rw [if_neg hne]
      have hb := h.bytes o
      rw [rawByte] at hb
      rw [hb]
      have hout : ¬ (off + w ≤ o ∧ o < off + w') := by
        rintro ⟨h1, h2⟩
        apply hblk
        have hlo : (off + w) / BSIZE ≤ o / BSIZE := Nat.div_le_div_right h1
        have hhi : o / BSIZE < (off + w) / BSIZE + 1 := by
          rw [Nat.div_lt_iff_lt_mul hbs]
          omega
        omega
      by_cases hdone : off ≤ o ∧ o < off + w
      · rw [if_pos hdone, if_pos (by omega)]
      · rw [if_neg hdone, if_neg (by omega)]
  · have hs := hslot n hused (blockSlot (o / BSIZE))
    rw [hself] at hs
    rw [hs]
    by_cases ho : o < off + w
    · exact h.present o h1 ho
    · have hlo : (off + w) / BSIZE ≤ o / BSIZE := Nat.div_le_div_right (by omega)
      have hhi : o / BSIZE < (off + w) / BSIZE + 1 := by
        rw [Nat.div_lt_iff_lt_mul hbs]
        omega
      rwa [show o / BSIZE = (off + w) / BSIZE by omega]

theorem slot_store (h : Writing μ sb p s0 L D H K n off src w s d) (hn : Used sb L n) {bn : ℕ}
    (h0 : slot s.disk d (blockSlot bn) ≠ 0) (v : Block) (k : ℕ) :
    slot (update s.disk (slot s.disk d (blockSlot bn)) v) d k = slot s.disk d k := by
  have hself : update L n d n = d := update_self n d L
  have hused : Used sb (update L n d) n := by
    unfold Used
    rw [hself, h.fields.1]
    exact hn
  have hslot := (h.ok.blocks.write h.ok.wf hused (blockSlot_ne bn) (by rwa [hself]) v).1 n hused k
  rwa [hself] at hslot

end Writing

/-- How many blocks the bytes from `off` to `off + len` are in, at most. -/
def blocksOf (off len : ℕ) : ℕ := (off + len + BSIZE - 1) / BSIZE - off / BSIZE

/-- `t` blocks of contents were logged on top of `w0`, and maybe the indirect block `ind`. -/
def Charged (w0 t ind : ℕ) (W : Finset ℕ) : Prop :=
  W.card ≤ w0 + t ∨ ind ≠ 0 ∧ ind ∈ W ∧ W.card ≤ w0 + t + 1

section Charged

variable {w0 t bn : ℕ} {disk disk' : Disk} {d d' : Dinode}

theorem Charged.cost (h : Charged w0 t (slot disk d NDIRECT) W) :
    bmapCost disk d W bn ≤ w0 + t + 2 := by
  unfold bmapCost
  split_ifs with h1 h2
  · rcases h with h | h <;> omega
  · rcases h with h | h
    · omega
    · exact absurd h2 h.1
  · rcases h with h | h
    · have := Finset.card_insert_le (slot disk d NDIRECT) W
      omega
    · rw [Finset.insert_eq_of_mem h.2.1]
      omega

theorem Charged.card (bn : ℕ) (h : Charged w0 t (slot disk d NDIRECT) W)
    (hkeep : slot disk d NDIRECT ≠ 0 → slot disk' d' NDIRECT = slot disk d NDIRECT) :
    (bmapBlocks disk' d' bn ∪ W).card ≤ w0 + t + 2 := by
  unfold bmapBlocks
  split_ifs with h1
  · have := Finset.card_insert_le (slot disk' d' (blockSlot bn)) W
    rw [Finset.singleton_union]
    rcases h with h | h <;> omega
  · rw [Finset.insert_union, Finset.singleton_union]
    have h1 := Finset.card_insert_le (slot disk' d' (blockSlot bn)) (insert (slot disk' d' NDIRECT) W)
    have h2 := Finset.card_insert_le (slot disk' d' NDIRECT) W
    rcases h with h | h
    · omega
    · rw [hkeep h.1, Finset.insert_eq_of_mem h.2.1] at h1 ⊢
      omega

theorem Charged.next (h : Charged w0 t (slot disk d NDIRECT) W)
    (hkeep : slot disk d NDIRECT ≠ 0 → slot disk' d' NDIRECT = slot disk d NDIRECT)
    (h0 : slot disk' d' (blockSlot bn) ≠ 0) :
    Charged w0 (t + 1) (slot disk' d' NDIRECT) (bmapBlocks disk' d' bn ∪ W) := by
  have hcard := h.card bn hkeep
  unfold bmapBlocks at hcard ⊢
  split_ifs at hcard ⊢ with h1
  · have hle := Finset.card_insert_le (slot disk' d' (blockSlot bn)) W
    rw [Finset.singleton_union]
    rcases h with h | h
    · exact .inl (by omega)
    · exact .inr ⟨by rw [hkeep h.1]; exact h.1, by
        rw [hkeep h.1]
        exact Finset.mem_insert_of_mem h.2.1, by omega⟩
  · have hind : slot disk' d' NDIRECT ≠ 0 := by
      intro hz
      rw [slot_of_le (le_refl _)] at hz
      have hb : blockSlot bn = bn + 1 := if_neg h1
      rw [hb, slot, if_neg (by omega), if_neg (fun hc => hc.2 hz)] at h0
      exact h0 rfl
    exact .inr ⟨hind, by simp, by omega⟩

end Charged

/-- How the loop of `writei` stops: it counts `r` bytes, and `w` were stored. -/
structure Stored (off len : ℕ) (src : ℕ → Option Byte) (r w : ℕ) : Prop where
  le : r ≤ w
  le_len : w ≤ len
  readable : ∀ j < w, (src j).isSome
  stop : r = w ∨ w < len ∧ src w = none
  aligned : r = 0 ∨ r = len ∨ (off + r) % BSIZE = 0
  inBlock : r < w → off + w < ((off + r) / BSIZE + 1) * BSIZE

theorem Stored.zero_or_all {src : ℕ → Option Byte} {off len r w : ℕ} (h : Stored off len src r w)
    (hone : off % BSIZE + len ≤ BSIZE) : r = 0 ∨ r = len := by
  rcases h.aligned with h0 | h0 | h0
  · exact .inl h0
  · exact .inr h0
  · have h1 := h.le
    have h2 := h.le_len
    simp only [BSIZE] at *
    omega

/-- The blocks that are written completely are in the transaction. -/
def Stamped (s : St) (d : Dinode) (off tot : ℕ) : Prop :=
  ∀ bn, off / BSIZE ≤ bn → bn < (off + tot) / BSIZE → slot s.disk d (blockSlot bn) ∈ s.lh

theorem Stamped.next {s s1 s2 : St} {d d1 : Dinode} {off tot m : ℕ} (h : Stamped s d off tot)
    (hlh : s.lh ⊆ s1.lh) (hlh' : s1.lh ⊆ s2.lh)
    (hslot : ∀ bn, off / BSIZE ≤ bn → bn < (off + tot) / BSIZE →
      slot s1.disk d1 (blockSlot bn) = slot s.disk d (blockSlot bn))
    (hkeep : ∀ k, slot s2.disk d1 k = slot s1.disk d1 k)
    (hnew : slot s1.disk d1 (blockSlot ((off + tot) / BSIZE)) ∈ s2.lh)
    (hm : off + (tot + m) ≤ ((off + tot) / BSIZE + 1) * BSIZE) : Stamped s2 d1 off (tot + m) := by
  intro bn hlo hhi
  rw [hkeep]
  by_cases hlt : bn < (off + tot) / BSIZE
  · rw [hslot bn hlo hlt]
    exact hlh' (hlh (h bn hlo hlt))
  · have hle : (off + (tot + m)) / BSIZE ≤ (off + tot) / BSIZE + 1 := Nat.div_le_of_le_mul (by
      rwa [Nat.mul_comm])
    rw [show bn = (off + tot) / BSIZE by omega]
    exact hnew

theorem writeLoop_spec {src : ℕ → Option Byte} {off len : ℕ} (w0 : ℕ) (hn : Used sb L n) (hi : (i, n) ∈ K)
    (hmax : off + len ≤ MAXFILE * BSIZE) (hroom : μ.Room N (w0 + blocksOf off len + 1))
    (fuel tot : ℕ) {d : Dinode} (htot : tot ≤ len) (hfuel : len ≤ tot + fuel)
    (hw : Writing μ sb p s0 L D H K n off src tot s d) (hsome : ∀ j < tot, (src j).isSome)
    (hl : Logged μ sb s N W) (hcard : W.card ≤ w0 + blocksOf off len + 1)
    (hch : tot < len → Charged w0 ((off + tot) / BSIZE - off / BSIZE) (slot s.disk d NDIRECT) W)
    (hone : tot = 0 ∨ tot = len ∨ (off + tot) % BSIZE = 0) (hst : Stamped s d off tot) :
    wp (writeLoop sb i src off len fuel tot) (fun r s' => ∃ w d' W', Stored off len src r w ∧
      Writing μ sb p s0 L D H K n off src w s' d' ∧ Logged μ sb s' N W' ∧
      W'.card ≤ w0 + blocksOf off len + 1 ∧ Stamped s' d' off r ∧
      (r < len → w < len ∧ src w = none ∨
        Full sb s'.disk ∧ slot s0.disk (L n) (blockSlot ((off + r) / BSIZE)) = 0)) μ.E s := by
  have hbs : 0 < BSIZE := by decide
  induction fuel generalizing tot s d W with
  | zero =>
    rw [writeLoop, wp_pure]
    exact ⟨tot, d, W, ⟨le_refl _, htot, hsome, .inl rfl, hone, fun hlt => absurd hlt (lt_irrefl _)⟩, hw, hl, hcard,
      hst, fun hlt => absurd hlt (by omega)⟩
  | succ fuel ih =>
    by_cases hlt : tot < len
    · have hself : update L n d n = d := update_self n d L
      have hbmax : (off + tot) / BSIZE < MAXFILE := by
        rw [Nat.div_lt_iff_lt_mul hbs]
        omega
      have ht : (off + tot) / BSIZE - off / BSIZE + 1 ≤ blocksOf off len := by
        have h1 : off / BSIZE ≤ (off + tot) / BSIZE := Nat.div_le_div_right (by omega)
        have h2 : (off + tot) / BSIZE + 1 ≤ (off + len + BSIZE - 1) / BSIZE := by
          rw [Nat.le_div_iff_mul_le hbs, Nat.add_mul, Nat.one_mul]
          have := Nat.div_mul_le_self (off + tot) BSIZE
          omega
        unfold blocksOf
        omega
      have hcharged := hch hlt
      have hcost : bmapCost s.disk (update L n d n) W ((off + tot) / BSIZE) ≤
          w0 + blocksOf off len + 1 := by
        rw [hself]
        exact le_trans hcharged.cost (by omega)
      have hbmap := wp_and (bmap_spec hw.ok hi hbmax hl (hroom.mono (Finset.Subset.refl N) hcost))
        (records_bmap i ((off + tot) / BSIZE) s)
      simp only [writeLoop, if_pos hlt, wp_bind]
      refine wp_mono hbmap ?_ (fun _ _ h => h.1)
      rintro a s1 ⟨⟨d1, hmap, ha, hl1, hfull⟩, hrec⟩
      have hw1 := hw.mapped hmap
      have hgrown : ∀ k, slot s.disk d k ≠ 0 → slot s1.disk d1 k = slot s.disk d k := by
        have := hmap.grown.slots
        rwa [hself] at this
      have hkeep := hgrown NDIRECT
      -- the blocks before this one are where they were
      have hold (bn : ℕ) (hlo : off / BSIZE ≤ bn) (hhi : bn < (off + tot) / BSIZE) :
          slot s1.disk d1 (blockSlot bn) = slot s.disk d (blockSlot bn) := by
        apply hgrown
        have hend : bn * BSIZE + BSIZE ≤ off + tot := by
          have h1 : (bn + 1) * BSIZE ≤ off + tot := (Nat.le_div_iff_mul_le hbs).mp hhi
          rwa [Nat.add_mul, Nat.one_mul] at h1
        have hstart : off < bn * BSIZE + BSIZE := by
          have h1 := Nat.lt_div_mul_add hbs (a := off)
          have h2 := Nat.mul_le_mul_right BSIZE hlo
          omega
        have hp := hw.present (max off (bn * BSIZE)) (le_max_left _ _) (by omega)
        have hbn : max off (bn * BSIZE) / BSIZE = bn := by
          rw [Nat.div_eq_iff hbs]
          omega
        rwa [hbn] at hp
      have hst1 : Stamped s1 d1 off tot := by
        intro bn hlo hhi
        rw [hold bn hlo hhi]
        exact hrec.1 (hst bn hlo hhi)
      have hcard1 := hcharged.card ((off + tot) / BSIZE) hkeep
      by_cases ha0 : a = 0
      · -- the disk is full
        rw [if_pos ha0, wp_pure]
        refine ⟨tot, d1, _, ⟨le_refl _, htot, hsome, .inl rfl, hone, fun h => absurd h (lt_irrefl _)⟩, hw1, hl1,
          by omega, hst1, fun _ => .inr ⟨hfull ha0, ?_⟩⟩
        by_contra hne
        exact hne ((hw1.slots _ hne).symm.trans (ha.symm.trans ha0))
      · rw [if_neg ha0, wp_bind, wp_get]
        simp only [wp_bind, setBlock, wp_modify]
        rw [ha] at ha0
        set m := min (len - tot) (BSIZE - (off + tot) % BSIZE) with hm
        have hmod : (off + tot) % BSIZE < BSIZE := Nat.mod_lt _ hbs
        have hdm := Nat.div_add_mod (off + tot) BSIZE
        have hend : off + tot + m ≤ ((off + tot) / BSIZE + 1) * BSIZE := by
          rw [Nat.add_mul, Nat.one_mul, Nat.mul_comm]
          omega
        obtain ⟨w, -, h2, h3, h4, h5⟩ := copyBytes_spec (fun j => src (tot + j)) ((off + tot) % BSIZE) m 0
          (s1.disk a) (by omega)
        set r := copyBytes (s1.disk a) ((off + tot) % BSIZE) (fun j => src (tot + j)) m 0
        have hstore := hw1.store hn (v := r.1) (tot + w) ha0 (by omega) (by omega) (by
          intro y _
          rw [h5 y, ← ha, add_zero, Nat.add_sub_cancel_left])
        have hslots := hw1.slot_store hn ha0 r.1
        have hsome' : ∀ j < tot + w, (src j).isSome := by
          intro j hj
          by_cases hjt : j < tot
          · exact hsome j hjt
          · have := h3 (j - tot) (by omega) (by omega)
            rwa [Nat.add_sub_cancel' (by omega)] at this
        rw [← ha] at hstore hslots
        rcases h4 with ⟨hgood, hwm⟩ | ⟨hbad, hwm, hnone⟩
        · rw [if_pos hgood, wp_bind]
          have hwm' : w = m := by omega
          rw [hwm'] at hstore hsome'
          have hmem : a ∈ bmapBlocks s1.disk d1 ((off + tot) / BSIZE) ∪ W := by
            apply Finset.mem_union_left
            rw [ha, bmapBlocks]
            split_ifs <;> simp
          have hl1' : Logged μ sb { s1 with disk := update s1.disk a r.1 } N
              (bmapBlocks s1.disk d1 ((off + tot) / BSIZE) ∪ W) := hl1.congr rfl rfl rfl
          refine wp_mono (wp_and (logWrite_spec hl1' (Finset.Subset.refl N) subset_rfl
            (fun _ => .inr (.inr hmem)) (hroom.mono (Finset.Subset.refl N) (by omega))) (logWrite_mem a _)) ?_
            (fun _ _ h => h.1)
          rintro - s2 ⟨⟨lh, rfl, hl2⟩, -, hlogged, hsub, -⟩
          have hw2 : Writing μ sb p s0 L D H K n off src (tot + m)
              { s1 with disk := update s1.disk a r.1, lh := lh } d1 :=
            ⟨hstore.ok, hstore.env, hstore.fields, hstore.slots, hstore.valid, hstore.others,
              hstore.bytes, hstore.present⟩
          have hst2 : Stamped { s1 with disk := update s1.disk a r.1, lh := lh } d1 off (tot + m) :=
            hst.next hrec.1 hsub hold hslots (ha ▸ hlogged) (by omega)
          refine ih (tot + m) (by omega) (by omega) hw2 hsome' hl2 (by omega) ?_ ?_ hst2
          · intro hlt'
            have hmod0 : (off + (tot + m)) / BSIZE = (off + tot) / BSIZE + 1 := by
              have heq : off + (tot + m) = BSIZE * ((off + tot) / BSIZE + 1) := by
                rw [Nat.mul_add, Nat.mul_one]
                omega
              rw [heq, Nat.mul_div_cancel_left _ hbs]
            have hle : off / BSIZE ≤ (off + tot) / BSIZE := Nat.div_le_div_right (by omega)
            have hind : slot (update s1.disk a r.1) d1 NDIRECT = slot s1.disk d1 NDIRECT := hslots NDIRECT
            rw [hmod0, hind, show (off + tot) / BSIZE + 1 - off / BSIZE =
              (off + tot) / BSIZE - off / BSIZE + 1 by omega]
            exact hcharged.next hkeep ha0
          · by_cases hlast : tot + m = len
            · exact .inr (.inl hlast)
            · have heq : off + (tot + m) = BSIZE * ((off + tot) / BSIZE + 1) := by
                rw [Nat.mul_add, Nat.mul_one]
                omega
              exact .inr (.inr (by rw [heq, Nat.mul_mod_right]))
        · rw [if_neg (by rw [hbad]; exact Bool.false_ne_true), wp_pure]
          refine ⟨tot + w, d1, _, ⟨by omega, by omega, hsome', .inr ⟨by omega, hnone⟩, hone, fun _ => by omega⟩, hstore,
            hl1.congr rfl rfl rfl, by omega, ?_, fun _ => .inl ⟨by omega, hnone⟩⟩
          intro bn hlo hhi
          rw [hslots]
          exact hst1 bn hlo hhi
    · rw [writeLoop, if_neg hlt, wp_pure]
      exact ⟨tot, d, W, ⟨le_refl _, htot, hsome, .inl rfl, hone, fun h => absurd h (lt_irrefl _)⟩, hw, hl, hcard, hst,
        fun h => absurd h hlt⟩

theorem Writing.node_eq {src : ℕ → Option Byte} {off w tot : ℕ} {d : Dinode} (d' : Dinode)
    (h : Writing μ sb p s0 L D H K n off src w s d) (hn : Used sb L n) (hw : tot ≤ w)
    (hoff : off ≤ (L n).size.toNat)
    (hd' : d' = { d with size := d'.size }) (hsize : d'.size.toNat = max (L n).size.toNat (off + tot)) :
    nodes sb s.disk (update L n d') =
      update (nodes sb s0.disk L) n ((nodes sb s0.disk L n).written off w tot src) := by
  have hbyte (o : ℕ) : rawByte s.disk d' o = rawByte s.disk d o := by
    rw [hd']
    rfl
  have h1 : d'.type = (L n).type := by rw [hd', ← h.fields.1]
  have h2 : d'.major = (L n).major := by rw [hd', ← h.fields.2.1]
  have h3 : d'.minor = (L n).minor := by rw [hd', ← h.fields.2.2.1]
  have h4 : d'.nlink = (L n).nlink := by rw [hd', ← h.fields.2.2.2.1]
  funext m
  by_cases hm : m = n
  · subst hm
    have hused : Used sb (update L m d') m := by
      unfold Used
      rw [update_self, h1]
      exact hn
    rw [update_self, nodes_of_used hused, nodes_of_used hn, update_self]
    refine Node.ext h1 h2 h3 h4 hsize (funext fun o => ?_)
    rw [node_byte, hbyte, hsize, h.bytes o]
    change _ = if o < max (L m).size.toNat (off + tot) then
      if off ≤ o ∧ o < off + w then (src (o - off)).getD 0 else (node s0.disk (L m)).byte o else 0
    by_cases ho : o < max (L m).size.toNat (off + tot)
    · rw [if_pos ho, if_pos ho]
      by_cases hin : off ≤ o ∧ o < off + w
      · rw [if_pos hin, if_pos hin]
      · rw [if_neg hin, if_neg hin, node_byte, if_pos (by omega)]
    · rw [if_neg ho, if_neg ho]
  · rw [update_of_ne hm, ← h.others m hm]
    simp only [nodes, update_of_ne hm]

theorem Writing.set_size {src : ℕ → Option Byte} {off w tot : ℕ} {d : Dinode} {sz : BitVec 32}
    (h : Writing μ sb p s0 L D H K n off src w s d) (hi : (i, n) ∈ K) (hn : Used sb L n) (hw : tot ≤ w)
    (hoff : off ≤ (L n).size.toNat) (hsz : sz.toNat = off + tot) (hmax : off + tot ≤ MAXFILE * BSIZE) :
    Ok μ sb p s.disk (update s.itable i { s.itable i with copy := { d with size := sz } })
      (update L n { d with size := sz }) (insert n D) H K := by
  have hbs : 0 < BSIZE := by decide
  have hself : update L n d n = d := update_self n d L
  have hused : Used sb (update L n d) n := by
    unfold Used
    rw [hself, h.fields.1]
    exact hn
  have hused' : Used sb (update (update L n d) n { d with size := sz }) n := by
    unfold Used
    rw [update_self]
    change n < sb.ninodes ∧ d.type ≠ 0
    rw [h.fields.1]
    exact hn
  have hblocks : Blocks sb μ.holey s.disk
      (update (update L n d) n { d with size := sz }) := by
    refine h.ok.blocks.set_inode (fun k => ?_) (fun _ hh => ⟨?_, fun bn hbn => ?_⟩) (fun _ => ?_)
    · rw [if_pos hused', if_pos hused, hself]
      rfl
    · exact le_of_eq_of_le hsz hmax
    · -- below the old size there was no hole, and above it all blocks were mapped
      change slot s.disk d (blockSlot bn) ≠ 0
      change bn * BSIZE < sz.toNat at hbn
      have hfull := (h.ok.blocks.full n hused hh).2 bn
      rw [hself, h.fields.2.2.2.2] at hfull
      by_cases hlt : bn * BSIZE < (L n).size.toNat
      · exact hfull hlt
      · have := h.present (bn * BSIZE) (by omega) (by omega)
        rwa [Nat.mul_div_cancel _ hbs] at this
    · exact le_of_eq_of_le hsz hmax
  have hH := h.ok.locked i n hi
  have hset := h.ok.set_copy hH.1 hH.2 hblocks (fun _ _ => rfl) (by rw [hself])
  rwa [update_idem, Set.insert_eq_of_mem (Set.mem_insert n D)] at hset

theorem Stamped.card {src : ℕ → Option Byte} {off tot w : ℕ} {d : Dinode} (h : Stamped s d off tot)
    (hw : Writing μ sb p s0 L D H K n off src w s d) (hn : Used sb L n) (htot : tot ≤ w) :
    (off + tot) / BSIZE - off / BSIZE ≤ s.lh.length := by
  have hbs : 0 < BSIZE := by decide
  have hself : update L n d n = d := update_self n d L
  have hused : Used sb (update L n d) n := by
    unfold Used
    rw [hself, hw.fields.1]
    exact hn
  have hslots (k : ℕ) : slots sb s.disk (update L n d) (n, k) = slot s.disk d k := by
    rw [slots, if_pos hused, hself]
  have hpresent (bn : ℕ) (hlo : off / BSIZE ≤ bn) (hhi : bn < (off + tot) / BSIZE) :
      slot s.disk d (blockSlot bn) ≠ 0 := by
    have hend : (bn + 1) * BSIZE ≤ off + tot := (Nat.le_div_iff_mul_le hbs).mp hhi
    have hstart : off < (bn + 1) * BSIZE :=
      lt_of_lt_of_le (Nat.lt_div_mul_add hbs) (by
        rw [Nat.add_mul, Nat.one_mul]
        exact Nat.add_le_add_right (Nat.mul_le_mul_right BSIZE hlo) BSIZE)
    rw [Nat.add_mul, Nat.one_mul] at hend hstart
    have hp := hw.present (max off (bn * BSIZE)) (le_max_left _ _) (by omega)
    have hbn : max off (bn * BSIZE) / BSIZE = bn := by
      rw [Nat.div_eq_iff hbs]
      omega
    rwa [hbn] at hp
  have hinj : Set.InjOn (fun bn => slot s.disk d (blockSlot bn)) (Finset.Ico (off / BSIZE) ((off + tot) / BSIZE)) := by
    intro x hx y _ heq
    obtain ⟨hlo, hhi⟩ := Finset.mem_Ico.mp (Finset.mem_coe.mp hx)
    have hown := hw.ok.blocks.owns.inj (n, blockSlot x) (n, blockSlot y) (by rw [hslots, hslots]; exact heq)
      (by rw [hslots]; exact hpresent x hlo hhi)
    exact blockSlot_inj (Prod.mk.inj hown).2
  calc (off + tot) / BSIZE - off / BSIZE = (Finset.Ico (off / BSIZE) ((off + tot) / BSIZE)).card :=
        (Nat.card_Ico _ _).symm
    _ = ((Finset.Ico (off / BSIZE) ((off + tot) / BSIZE)).image (fun bn => slot s.disk d (blockSlot bn))).card :=
        (Finset.card_image_of_injOn hinj).symm
    _ ≤ s.lh.toFinset.card := by
        apply Finset.card_le_card
        intro b hb
        obtain ⟨bn, hbn, rfl⟩ := Finset.mem_image.mp hb
        obtain ⟨hlo, hhi⟩ := Finset.mem_Ico.mp hbn
        exact List.mem_toFinset.mpr (h bn hlo hhi)
    _ ≤ s.lh.length := List.toFinset_card_le _

/-- Why `writei` counts fewer bytes than it was given: a byte of the source cannot be read, or no
block is left for one that is missing. -/
def Short (sb : Superblock) (disk disk' : Disk) (d : Dinode) (src : ℕ → Option Byte) (off len tot w : ℕ) : Prop :=
  tot < len → w < len ∧ src w = none ∨ Full sb disk' ∧ slot disk d (blockSlot ((off + tot) / BSIZE)) = 0

/-- The arguments for which `writei` returns -1. -/
def Refused (size off len : ℕ) : Prop :=
  (size < off ∨ (off + len) % 2 ^ 32 < off) ∨ MAXFILE * BSIZE < off + len

theorem writei_spec {src : ℕ → Option Byte} {off len : ℕ} (hok : Ok μ sb p s.disk s.itable L D H K)
    (hi : (i, n) ∈ K) (hl : Logged μ sb s N W)
    (hroom : μ.Room (insert n N) (W.card + blocksOf off len + 1)) :
    wp (writei sb i src off len) (fun r s' =>
      (r = -1 ∧ s' = s ∧ Refused (L n).size.toNat off len) ∨
      ∃ (tot w : ℕ) (L' : ℕ → Dinode) (W' : Finset ℕ), r = tot ∧ Stored off len src tot w ∧
        off ≤ (nodes sb s.disk L n).size ∧ Ok μ sb p s'.disk s'.itable L' D H K ∧
        nodes sb s'.disk L' =
          update (nodes sb s.disk L) n ((nodes sb s.disk L n).written off w tot src) ∧
        Env s s' ∧ KeepsValid H s.itable s'.itable ∧ Logged μ sb s' (insert n N) W' ∧
        W'.card ≤ W.card + blocksOf off len + 1 ∧ Short sb s.disk s'.disk (L n) src off len tot w ∧
        (off + tot) / BSIZE < off / BSIZE + LOGBLOCKS) μ.E s := by
  have hused := hok.used_of_locked hi
  have hcopy := hok.copy_eq hi
  have hroom1 := hroom.mono (Finset.subset_insert n N) (le_refl _)
  have hsz : (nodes sb s.disk L n).size = (L n).size.toNat := by rw [nodes_of_used hused, node]
  simp only [writei, copyOf, wp_bind, wp_get, wp_pure, hcopy]
  by_cases hbad : (L n).size.toNat < off ∨ (off + len) % 2 ^ 32 < off
  · rw [if_pos hbad, wp_pure]
    exact .inl ⟨rfl, rfl, .inl hbad⟩
  · rw [if_neg hbad]
    by_cases hbig : MAXFILE * BSIZE < off + len
    · rw [if_pos hbig, wp_pure]
      exact .inl ⟨rfl, rfl, .inr hbig⟩
    · rw [if_neg hbig, wp_bind]
      have hst : Stamped s (L n) off 0 := by
        intro bn hlo hhi
        rw [add_zero] at hhi
        omega
      refine wp_imp (writeLoop_spec (W := W) W.card hused hi (by omega) hroom1 len 0 zero_le (by omega)
        (Writing.refl hok) (fun j hj => by omega) hl (by omega) (fun _ => .inl (by omega))
        (.inl rfl) hst) ?_
      rintro tot s1 ⟨w, d1, W1, hstored, hw, hl1, hcard, hst1, hshort⟩
      have hle := hstored.le
      have hlen := hstored.le_len
      have hw1 := hw.fields.2.2.2.2
      have hcopy1 : (s1.itable i).copy = d1 := by
        rw [hw.ok.copy_eq hi, update_self]
      have hcount := hst1.card hw hused hle
      rw [not_or, not_lt, not_lt] at hbad
      have htot : off + tot < 2 ^ 32 := by
        simp only [MAXFILE, NDIRECT, NINDIRECT, BSIZE] at hbig
        omega
      have hofNat : (BitVec.ofNat 32 (off + tot)).toNat = off + tot := by
        rw [BitVec.toNat_ofNat, Nat.mod_eq_of_lt htot]
      have hfull {s3 : St} (hbits : ∀ b, bit sb s3.disk b = bit sb s1.disk b) :
          Short sb s.disk s3.disk (L n) src off len tot w := by
        intro hlt
        refine (hshort hlt).imp_right (fun hc => ⟨fun b hb => ?_, hc.2⟩)
        rw [hbits b]
        exact hc.1 b hb
      simp only [wp_bind, wp_modify, hcopy1, hw1]
      by_cases hgrow : (L n).size.toNat < off + tot
      · rw [if_pos hgrow]
        have hok2 := hw.set_size hi hused hle hbad.1 hofNat (by omega)
        have hnodes2 := hw.node_eq { d1 with size := BitVec.ofNat 32 (off + tot) } hused hle hbad.1
          rfl (hofNat.trans (by omega))
        refine wp_mono (wp_and (iupdate_spec (s := s1.setCopy i { d1 with size := BitVec.ofNat 32 (off + tot) })
          hok2 hi (hl1.congr rfl rfl rfl) (hroom.mono subset_rfl hcard)) (records_iupdate i _)) ?_
          (fun _ _ h => h.1)
        rintro - s3 ⟨⟨hok3, hnodes3, henv3, htable3, hl3, hbits⟩, hlog, -⟩
        have hlog' : s1.lh.length < LOGBLOCKS := hlog
        refine .inr ⟨tot, w, _, W1, rfl, hstored, by rw [hsz]; exact hbad.1, hok3,
          hnodes3.trans hnodes2, hw.env.trans henv3, ?_, hl3, hcard, hfull hbits, by omega⟩
        intro j m _ hv
        rw [htable3]
        change (update s1.itable i _ j).valid = true
        by_cases hj : j = i
        · rw [hj, update_self, hw.valid i, ← hj, hv]
        · rw [update_of_ne hj, hw.valid j, hv]
      · rw [if_neg hgrow]
        have hnodes2 := hw.node_eq d1 hused hle hbad.1 rfl (by rw [hw1]; omega)
        refine wp_mono (wp_and (iupdate_spec hw.ok hi hl1 (hroom.mono subset_rfl hcard))
          (records_iupdate i _)) ?_ (fun _ _ h => h.1)
        rintro - s3 ⟨⟨hok3, hnodes3, henv3, htable3, hl3, hbits⟩, hlog, -⟩
        refine .inr ⟨tot, w, _, W1, rfl, hstored, by rw [hsz]; exact hbad.1, hok3,
          hnodes3.trans hnodes2, hw.env.trans henv3, ?_, hl3, hcard, hfull hbits, by omega⟩
        intro j m _ hv
        rw [htable3, hw.valid j, hv]

end Write

end Xv6.Fs
