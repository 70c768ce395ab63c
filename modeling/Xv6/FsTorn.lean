import Xv6.FsContents

/-! A write whose source cannot be read to its end: `either_copyin` may have stored a part of the
block before it fails, and `writei` neither counts nor logs it. -/
namespace Xv6.Fs

variable {sb : Superblock} {p : ℕ} {s : St} {L : ℕ → Dinode} {D : Set ℕ} {H K : Multiset (ℕ × ℕ)} {i n : ℕ}
  {src : ℕ → Option Byte} {off len : ℕ}

section Records

/-- The copy of the block with the byte `off + r` failed after it had stored some bytes. -/
def TornAt (src : ℕ → Option Byte) (off len r : ℕ) : Prop :=
  ∃ w, r < w ∧ w < len ∧ (∀ j < w, (src j).isSome) ∧ src w = none ∧ off + w < ((off + r) / BSIZE + 1) * BSIZE

theorem copyBytes_none {b : Block} {o m : ℕ} (h : src 0 = none) : (copyBytes b o src m 0).1 = b := by
  cases m with
  | zero => rfl
  | succ m => simp only [copyBytes, h]

theorem writeLoop_records (fuel tot : ℕ) (hsome : ∀ j < tot, (src j).isSome) (s : St) :
    wp (writeLoop sb i src off len fuel tot) (fun r s' => Recorded s s' ∨ TornAt src off len r)
      (fun _ _ => True) s := by
  have hbs : 0 < BSIZE := by decide
  induction fuel generalizing tot s with
  | zero => exact .inl (refl_of Recorded s)
  | succ fuel ih =>
    by_cases hlt : tot < len
    · simp only [writeLoop, if_pos hlt, wp_bind]
      refine wp_imp (records_bmap i ((off + tot) / BSIZE) s) ?_
      intro a s1 h1
      by_cases ha : a = 0
      · rw [if_pos ha, wp_pure]
        exact .inl h1
      · rw [if_neg ha, wp_bind, wp_get]
        simp only [wp_bind, setBlock, wp_modify]
        have hmod : (off + tot) % BSIZE < BSIZE := Nat.mod_lt _ hbs
        have hdm := Nat.div_add_mod (off + tot) BSIZE
        set m := min (len - tot) (BSIZE - (off + tot) % BSIZE) with hm
        obtain ⟨w, -, h2, h3, h4, -⟩ := copyBytes_spec (fun j => src (tot + j)) ((off + tot) % BSIZE) m 0
          (s1.disk a) (by omega)
        have hsome' : ∀ j < tot + w, (src j).isSome := by
          intro j hj
          by_cases hjt : j < tot
          · exact hsome j hjt
          · have := h3 (j - tot) (by omega) (by omega)
            rwa [Nat.add_sub_cancel' (by omega)] at this
        rcases h4 with ⟨hgood, hwm⟩ | ⟨hbad, hwm, hnone⟩
        · rw [if_pos hgood]
          refine wp_seq (logWrite_mem a _) ?_
          rintro - s2 ⟨-, hmem, hsub, hdisk⟩
          have h2 : Recorded s s2 := by
            refine trans_of Recorded h1 ⟨hsub, fun c hc => ?_⟩
            by_cases hca : c = a
            · exact hca ▸ hmem
            · rw [hdisk] at hc
              exact absurd (update_of_ne hca _ _) hc
          refine wp_imp (ih (tot + m) (fun j hj => hsome' j (by omega)) s2) ?_
          intro r s3 h3
          exact h3.imp_left (fun h => trans_of Recorded h2 h)
        · rw [if_neg (by rw [hbad]; exact Bool.false_ne_true), wp_pure]
          by_cases hw : w = 0
          · -- nothing was stored
            subst hw
            rw [copyBytes_none hnone, update_eq_self]
            exact .inl h1
          · refine .inr ⟨tot + w, by omega, by omega, hsome', hnone, ?_⟩
            rw [Nat.add_mul, Nat.one_mul, Nat.mul_comm]
            omega
    · rw [writeLoop, if_neg hlt, wp_pure]
      exact .inl (refl_of Recorded s)

/-- Every block that `writei` changes is in the transaction, unless the copy of a block failed half
way. -/
theorem writei_records (s : St) :
    wp (writei sb i src off len) (fun r s' => (r = -1 ∧ s' = s) ∨
      off + len ≤ MAXFILE * BSIZE ∧ (Recorded s s' ∨ TornAt src off len r.toNat)) (fun _ _ => True) s := by
  simp only [writei, copyOf, wp_bind, wp_get, wp_pure]
  split
  · exact .inl ⟨rfl, rfl⟩
  split
  · exact .inl ⟨rfl, rfl⟩
  next hmax =>
  refine wp_seq (writeLoop_records len 0 (fun j hj => by omega) s) ?_
  intro tot s1 h1
  simp only [wp_bind, wp_modify]
  refine wp_imp (records_iupdate i _) ?_
  rintro - s2 ⟨-, h2⟩
  rw [wp_pure]
  refine .inr ⟨not_lt.mp hmax, h1.imp (fun h => trans_of Recorded h (trans_of Recorded ?_ h2)) id⟩
  split
  · exact ⟨List.Subset.refl _, fun _ h => absurd rfl h⟩
  · exact refl_of Recorded s1

end Records

section Reports

/-- `writei` changes only what it reports: a later `readi` sees the bytes that it counts, and every
block that it changed is in the transaction. -/
def Reports (sb : Superblock) (i : ℕ) (x : Node) (s : St) (src : ℕ → Option Byte) (off len : ℕ) : Prop :=
  ∀ r s', writei sb i src off len s = .ok r s' → (r = -1 ∧ s' = s) ∨
    ∃ tot : ℕ, r = tot ∧
      (∀ off' len', readi sb i (fun _ => true) off' len' s' = .ok ((x.written off tot tot src).read off' len') s') ∧
      ∀ b, s'.disk b ≠ s.disk b → b ∈ s'.lh

/-- The first byte that cannot be read is inside a block and not the first of the write, and the
log has room for the blocks before. -/
def Torn (readable : ℕ → Bool) (off len : ℕ) : Prop :=
  off + len ≤ MAXFILE * BSIZE ∧ ∃ w < len, (∀ j < w, readable j = true) ∧ readable w = false ∧ 0 < w ∧
    (off + w) % BSIZE ≠ 0 ∧ (off + w) / BSIZE < off / BSIZE + LOGBLOCKS

theorem torn_of_tornAt {readable : ℕ → Bool} (hsrc : ∀ j < len, (src j).isSome = readable j) {r : ℕ}
    (hmax : off + len ≤ MAXFILE * BSIZE)
    (hcount : (off + r) / BSIZE < off / BSIZE + LOGBLOCKS) (h : TornAt src off len r) : Torn readable off len := by
  obtain ⟨v, hrv, hv, hread, hnone, hblock⟩ := h
  have hlt : off + r < (off + r) / BSIZE * BSIZE + BSIZE := Nat.lt_div_mul_add (by decide)
  have hsame : (off + v) / BSIZE = (off + r) / BSIZE := by
    rw [Nat.div_eq_iff (by decide)]
    have := Nat.div_mul_le_self (off + r) BSIZE
    rw [Nat.add_mul, Nat.one_mul] at hblock
    omega
  refine ⟨hmax, v, hv, fun j hj => ?_, ?_, by omega, fun hmod => ?_, by rw [hsame]; exact hcount⟩
  · rw [← hsrc j (by omega)]
    exact hread j hj
  · rw [← hsrc v hv, hnone]
    rfl
  · -- the block begins at `r`, or the write does
    have hdv := Nat.div_add_mod (off + v) BSIZE
    have hdr := Nat.div_add_mod (off + r) BSIZE
    rw [hsame, hmod] at hdv
    omega

theorem Stored.tornAt {r w : ℕ} (h : Stored off len src r w) (hlt : r < w) : TornAt src off len r := by
  rcases h.stop with heq | ⟨hw, hnone⟩
  · exact absurd hlt (by omega)
  · exact ⟨w, hlt, hw, h.readable, hnone, h.inBlock hlt⟩

theorem reports_of_not_torn {readable : ℕ → Bool} (h : Editing sb p s L D H K i n)
    (hsrc : ∀ j < len, (src j).isSome = readable j) (hnot : ¬ Torn readable off len) :
    Reports sb i (nodes sb s.disk L n) s src off len := by
  intro r s' hr
  obtain ⟨heffect, hrec⟩ := ok_of_wp (wp_and (h.writei_effect src off len) (writei_records s)) hr
  obtain ⟨rfl, rfl, -⟩ | ⟨tot, w, L', rfl, hst, hed, hnodes, hshort, hcount⟩ := heffect
  · exact .inl ⟨rfl, rfl⟩
  obtain ⟨hneg, -⟩ | ⟨hmax, hrec⟩ := hrec
  · omega
  · have hwhole : ¬ TornAt src off len tot := fun ht => hnot (torn_of_tornAt hsrc hmax hcount ht)
    have hw : tot = w := by
      rcases Nat.lt_or_ge tot w with hlt | hge
      · exact absurd (hst.tornAt hlt) hwhole
      · exact le_antisymm hst.le hge
    subst hw
    refine .inr ⟨tot, rfl, fun off' len' => ?_, ?_⟩
    · rw [hed.readi_eq, hnodes, update_self]
    · rcases hrec with hrec | ht
      · exact hrec.2
      · exact absurd ht hwhole

end Reports

section Room

theorem logWrite_room (b : ℕ) (hroom : s.lh.length < LOGBLOCKS) (hout : s.outstanding = 1) :
    wp (logWrite b) (fun _ s' => ∃ lh, s' = { s with lh := lh } ∧ lh.length ≤ s.lh.length + 1) (fun _ _ => False) s := by
  have hinside : ¬ s.outstanding < 1 := by omega
  simp only [logWrite, wp_bind, wp_get, if_neg (not_le.mpr hroom), if_neg hinside]
  rw [wp_ite]
  split
  · rw [wp_pure]
    exact ⟨s.lh, rfl, Nat.le_succ _⟩
  · rw [wp_set]
    exact ⟨_, rfl, by rw [List.length_append, List.length_singleton]⟩

theorem writeLoop_room {s0 : St} {v : ℕ} (hn : Used sb L n) (hi : (i, n) ∈ K)
    (hpresent : ∀ o < off + len, slot s0.disk (L n) (blockSlot (o / BSIZE)) ≠ 0)
    (hmax : off + len ≤ MAXFILE * BSIZE) (hv : v < len) (hnone : src v = none)
    (hcount : (off + v) / BSIZE < off / BSIZE + LOGBLOCKS) (fuel tot : ℕ) {d : Dinode} (htot : tot ≤ v)
    (hw : Writing fileMode sb p s0 L D H K n off src tot s d) (hout : s.outstanding = 1)
    (hlh : s.lh.length + off / BSIZE ≤ (off + tot) / BSIZE) :
    wp (writeLoop sb i src off len fuel tot) (fun _ s' => s'.lh.length < LOGBLOCKS ∧ s'.outstanding = 1)
      (fun _ _ => False) s := by
  have hbs : 0 < BSIZE := by decide
  induction fuel generalizing tot s d with
  | zero =>
    have hle : (off + tot) / BSIZE ≤ (off + v) / BSIZE := Nat.div_le_div_right (by omega)
    exact ⟨by omega, hout⟩
  | succ fuel ih =>
    have hle : (off + tot) / BSIZE ≤ (off + v) / BSIZE := Nat.div_le_div_right (by omega)
    have hbmax : (off + tot) / BSIZE < MAXFILE := by
      rw [Nat.div_lt_iff_lt_mul hbs]
      omega
    have hslot : slot s.disk d (blockSlot ((off + tot) / BSIZE)) ≠ 0 := by
      have h0 := hpresent (off + tot) (by omega)
      rwa [hw.slots _ h0]
    have hcopy : (s.itable i).copy = d := by
      rw [hw.ok.copy_eq hi, update_self]
    simp only [writeLoop, if_pos (show tot < len by omega), wp_bind]
    refine bmap_present (L := fun _ => d) (n := 0) hcopy hbmax hslot ?_
    simp only [if_neg hslot, wp_bind, wp_get, setBlock, wp_modify]
    set a := slot s.disk d (blockSlot ((off + tot) / BSIZE))
    set m := min (len - tot) (BSIZE - (off + tot) % BSIZE) with hm
    have hmod : (off + tot) % BSIZE < BSIZE := Nat.mod_lt _ hbs
    have hdm := Nat.div_add_mod (off + tot) BSIZE
    obtain ⟨w, -, h2, h3, h4, h5⟩ := copyBytes_spec (fun j => src (tot + j)) ((off + tot) % BSIZE) m 0
      (s.disk a) (by omega)
    set c := copyBytes (s.disk a) ((off + tot) % BSIZE) (fun j => src (tot + j)) m 0
    rcases h4 with ⟨hgood, hwm⟩ | ⟨hbad, -, -⟩
    · rw [if_pos hgood, wp_bind]
      -- all of this block could be read, so `v` is in a later one
      have hfar : tot + m ≤ v := by
        by_contra hlt
        have hsome := h3 (v - tot) (by omega) (by omega)
        rw [Nat.add_sub_cancel' htot, hnone] at hsome
        cases hsome
      have hstore := hw.store hn (v := c.1) (tot + m) hslot (by omega) (by
        rw [Nat.add_mul, Nat.one_mul, Nat.mul_comm]
        omega) (by
        intro y _
        rw [h5 y, add_zero, Nat.add_sub_cancel_left, hwm, zero_add])
      have hnext : (off + (tot + m)) / BSIZE = (off + tot) / BSIZE + 1 := by
        rw [Nat.div_eq_iff hbs, Nat.add_mul, Nat.one_mul, Nat.mul_comm]
        omega
      refine wp_imp (logWrite_room a (by
        change s.lh.length < LOGBLOCKS
        omega) hout) ?_
      rintro - s2 ⟨lh, rfl, hlen⟩
      have hlen' : lh.length ≤ s.lh.length + 1 := hlen
      exact ih (tot + m) hfar ⟨hstore.ok, hstore.env, hstore.fields, hstore.slots, hstore.valid, hstore.others,
        hstore.bytes, hstore.present⟩ hout (by
          rw [hnext]
          change lh.length + _ ≤ _
          omega)
    · rw [if_neg (by rw [hbad]; exact Bool.false_ne_true), wp_pure]
      change s.lh.length < LOGBLOCKS ∧ s.outstanding = 1
      exact ⟨by omega, hout⟩

theorem Editing.writei_returns {v : ℕ} (h : Editing sb p s L D H K i n) (hempty : s.lh = [])
    (hsize : off + len ≤ (nodes sb s.disk L n).size) (hv : v < len) (hnone : src v = none)
    (hcount : (off + v) / BSIZE < off / BSIZE + LOGBLOCKS) : ∃ r s', writei sb i src off len s = .ok r s' := by
  have hused := h.ok.used_of_locked h.locked
  have hmax := h.ok.blocks.size_le n hused
  have hcopy := h.ok.copy_eq h.locked
  have hlt := (L n).size.isLt
  have hsize' := hsize
  rw [h.size_eq] at hsize'
  have hfirst : ¬ ((L n).size.toNat < off ∨ (off + len) % 2 ^ 32 < off) := by omega
  have hsecond : ¬ MAXFILE * BSIZE < off + len := by omega
  have hwp : wp (writei sb i src off len) (fun _ _ => True) (fun _ _ => False) s := by
    simp only [writei, copyOf, wp_bind, wp_get, wp_pure, hcopy, if_neg hfirst, if_neg hsecond]
    refine wp_imp (writeLoop_room hused h.locked (fun o ho => h.present (by omega)) (by omega) hv hnone hcount len 0
      zero_le (Writing.refl h.ok) h.outstanding (by rw [hempty, add_zero]; simp)) ?_
    rintro tot s1 ⟨hroom, hout⟩
    simp only [wp_modify, iupdate, wp_bind, wp_get]
    refine wp_imp (logWrite_room _ ?_ ?_) (fun _ _ _ => trivial)
    · split
      · exact hroom
      · exact hroom
    · split
      · exact hout
      · exact hout
  obtain ⟨r, s', hr, -⟩ := returns_of_wp hwp
  exact ⟨r, s', hr⟩

end Room

theorem Node.written_read_one {x : Node} {w tot : ℕ} (ho : off + tot < x.size) (hmax : x.size ≤ MAXFILE * BSIZE) :
    (x.written off w tot src).read (off + tot) 1 =
      (1, [if tot < w then (src tot).getD 0 else x.byte (off + tot)]) := by
  have hsize : (x.written off w tot src).size = x.size := max_eq_left (by omega)
  have hcount : readCount x.size (off + tot) 1 = 1 := by
    simp only [MAXFILE, NDIRECT, NINDIRECT, BSIZE] at hmax
    rw [readCount, if_neg (by omega)]
    omega
  rw [Node.read, hsize, hcount, List.range_one, List.map_singleton, Node.written]
  have hin : off + tot < max x.size (off + tot) := lt_max_of_lt_left ho
  simp only [add_zero, if_pos hin, Nat.le_add_right, true_and, Nat.add_lt_add_iff_left, Nat.add_sub_cancel_left]
  rfl

section Zeros

/-- Ones as far as they can be read. -/
def ones (readable : ℕ → Bool) (j : ℕ) : Option Byte := if readable j then some 1 else none

theorem isSome_ones (readable : ℕ → Bool) (j : ℕ) : (ones readable j).isSome = readable j := by
  unfold ones
  cases readable j <;> rfl

theorem Stored.eq_of_present {r w v : ℕ} (h : Stored off len src r w)
    (hpresent : ∀ o < off + len, slot s.disk (L n) (blockSlot (o / BSIZE)) ≠ 0) (hread : ∀ j < v, (src j).isSome)
    (hv : v < len) (hnone : src v = none) {disk' : Disk} (hshort : Short sb s.disk disk' (L n) src off len r w) :
    w = v := by
  have hle := h.le
  rcases Nat.lt_trichotomy w v with hlt | heq | hgt
  · have hsome := hread w hlt
    rcases hshort (by omega) with ⟨-, hw⟩ | ⟨-, hzero⟩
    · rw [hw] at hsome
      cases hsome
    · exact absurd hzero (hpresent (off + r) (by omega))
  · exact heq
  · have hsome := h.readable v hgt
    rw [hnone] at hsome
    cases hsome

theorem opened_byte {s : Mkfs.St} (h : Mkfs.Made 200 [largestFile] s) (o : ℕ) :
    (nodes Mkfs.sb s.img (dinode Mkfs.sb s.img) 2).byte o = 0 := by
  have hed := opened_editing h
  have hraw := (h.files 0 largestFile rfl).bytes o
  rw [nodes_of_used (hed.ok.used_of_locked hed.locked), node_byte]
  split
  · next ho =>
    have hsize : (dinode Mkfs.sb s.img 2).size.toNat = MAXFILE * BSIZE := hed.size_eq.symm.trans (opened_size h)
    rw [contents_largestFile] at hraw
    exact hraw.trans (List.getD_replicate _ (by omega))
  · rfl

/-- Ones over a file of zeros: `readi` finds one after the last that `writei` counts. -/
theorem ones_torn {s : Mkfs.St} (h : Mkfs.Made 200 [largestFile] s) {readable : ℕ → Bool} (ht : Torn readable off len) :
    ¬ Reports Mkfs.sb 1 (nodes Mkfs.sb (opened s.img).disk (dinode Mkfs.sb s.img) 2) (opened s.img)
      (ones readable) off len := by
  intro hreports
  have hed := opened_editing h
  have hsize := opened_size h
  obtain ⟨hmax, v, hv, hread, hbad, hpos, hmod, hcount⟩ := ht
  have hnone : ones readable v = none := by
    rw [ones, hbad]
    rfl
  obtain ⟨r, s', hr⟩ := hed.writei_returns rfl (le_of_le_of_eq hmax hsize.symm) hv hnone hcount
  obtain ⟨-, -, hrefused⟩ | ⟨tot, w, L', rfl, hst, hed', hnodes, hshort, -⟩ :=
    ok_of_wp (hed.writei_effect (ones readable) off len) hr
  · simp only [Refused, MAXFILE, NDIRECT, NINDIRECT, BSIZE] at hrefused hmax hsize
    have hsize' : (nodes Mkfs.sb (opened s.img).disk (dinode Mkfs.sb s.img) 2).size = 274432 := hsize
    omega
  · have hsome (j : ℕ) (hj : j < v) : (ones readable j).isSome := by
      rw [isSome_ones]
      exact hread j hj
    have hw : w = v := hst.eq_of_present (fun o ho => hed.present (lt_of_lt_of_le ho (le_of_le_of_eq hmax hsize.symm)))
      hsome hv hnone hshort
    subst hw
    have hlt : tot < w := by
      have hle := hst.le
      rcases hst.aligned with h0 | h0 | h0
      · omega
      · omega
      · rcases Nat.lt_or_ge tot w with hlt | hge
        · exact hlt
        · exact absurd (le_antisymm hle hge ▸ h0) hmod
    obtain ⟨hneg, -⟩ | ⟨tot', htot, hread', -⟩ := hreports _ _ hr
    · omega
    have heq : tot' = tot := by omega
    subst heq
    have hone := hread' (off + tot') 1
    rw [hed'.readi_eq, hnodes, update_self] at hone
    have hin : off + tot' < (nodes Mkfs.sb (opened s.img).disk (dinode Mkfs.sb s.img) 2).size :=
      lt_of_lt_of_eq (by omega) hsize.symm
    rw [Node.written_read_one hin (le_of_eq hsize), Node.written_read_one hin (le_of_eq hsize), if_pos hlt,
      if_neg (lt_irrefl tot'), ones, if_pos (hread tot' hlt)] at hone
    -- the byte of the source on one side, the old one on the other
    have hbyte := (List.cons.inj (Prod.mk.inj (EStateM.Result.ok.inj hone).1).2).1
    exact absurd (hbyte.trans (opened_byte h _)) (by decide)

/-- Of eight bytes the first four are before the end of a page, and the next page is not mapped. -/
theorem four_of_eight_torn : ∃ img L D H K, Editing Mkfs.sb 0 (opened img) L D H K 1 2 ∧
    ¬ Reports Mkfs.sb 1 (nodes Mkfs.sb (opened img).disk L 2) (opened img) (ones (fun j => decide (j < 4))) 0 8 := by
  obtain ⟨s, hs⟩ := largestFile_made
  refine ⟨s.img, _, _, _, _, opened_editing hs, ones_torn hs ⟨by decide, 4, by decide, ?_, by decide⟩⟩
  intro j hj
  exact decide_eq_true hj

end Zeros

/-- `writei` changes only what it reports, for every file and source, exactly when the part of the
source that can be read does not end inside a block. -/
theorem writei_reports_iff (readable : ℕ → Bool) (off len : ℕ) :
    (∀ sb p s L D H K i n src, Editing sb p s L D H K i n → (∀ j < len, (src j).isSome = readable j) →
      Reports sb i (nodes sb s.disk L n) s src off len) ↔ ¬ Torn readable off len := by
  constructor
  · intro hall ht
    obtain ⟨s, hs⟩ := largestFile_made
    exact ones_torn hs ht (hall _ _ _ _ _ _ _ _ _ _ (opened_editing hs) (fun j _ => isSome_ones readable j))
  · intro hnot sb p s L D H K i n src hed hsrc
    exact reports_of_not_torn hed hsrc hnot

end Xv6.Fs
