import Xv6.FsNow
import Xv6.FsSys

/-! Directories: `dirlookup` and `dirlink` (kernel/fs.c) and `isdirempty` (kernel/sysfile.c) on the
entries of an inode. -/
namespace Xv6.Fs

variable {μ : Mode} {sb : Superblock} {p : ℕ} {D V : Set ℕ} {s : St} {A : ℕ → Node}
  {H K : Multiset (ℕ × ℕ)} {N : Finset ℕ} {w i n k : ℕ}

namespace Node

def count (x : Node) : ℕ := x.size / DESIZE

/-- The entry `k` has the name `name`. -/
def Named (x : Node) (name : Name) (k : ℕ) : Prop :=
  (x.entry k).inum ≠ 0 ∧ namecmp name (x.entry k).name = 0

instance (x : Node) (name : Name) (k : ℕ) : Decidable (x.Named name k) := by
  unfold Named
  infer_instance

def find (x : Node) (name : Name) : Option ℕ := (List.range x.count).find? (fun k => x.Named name k)

/-- The entry that `dirlink` fills. -/
def vacant (x : Node) : ℕ :=
  ((List.range x.count).find? (fun k => (x.entry k).inum = 0)).getD x.count

/-- The directory has no entries but the first two. -/
def IsEmpty (x : Node) : Prop := ∀ k, 2 ≤ k → k < x.count → (x.entry k).inum = 0

def setEntry (x : Node) (k : ℕ) (de : Dirent) : Node :=
  x.written (DESIZE * k) DESIZE DESIZE (fun j => some (de.toByte j))

theorem lt_count {x : Node} (h : k < x.count) : DESIZE * k + DESIZE ≤ x.size := by
  simp only [count, DESIZE] at *
  omega

theorem find_some {x : Node} {name : Name} (h : x.find name = some k) :
    k < x.count ∧ x.Named name k := by
  refine ⟨List.mem_range.mp (List.mem_of_find?_eq_some h), ?_⟩
  simpa using List.find?_some h

theorem vacant_le (x : Node) : x.vacant ≤ x.count := by
  unfold vacant
  cases hf : (List.range x.count).find? (fun k => (x.entry k).inum = 0) with
  | none => exact le_refl _
  | some k => exact le_of_lt (List.mem_range.mp (List.mem_of_find?_eq_some hf))

end Node

section Entries

/-- Every entry of a directory names an inode number that exists. -/
def Entries (sb : Superblock) (A : ℕ → Node) : Prop :=
  ∀ n k, (A n).type = T_DIR → k < (A n).count → ((A n).entry k).inum.toNat < sb.ninodes

theorem Entries.set (h : Entries sb A) {x : Node}
    (hx : x.type = T_DIR → ∀ k < x.count, (x.entry k).inum.toNat < sb.ninodes) :
    Entries sb (update A n x) := by
  intro m k hm hk
  by_cases hmn : m = n
  · rw [hmn, update_self] at hm hk ⊢
    exact hx hm k hk
  · rw [update_of_ne hmn] at hm hk ⊢
    exact h m k hm hk

end Entries

section SetEntry

def newEntry (name : Name) (inum : ℕ) : Dirent := ⟨BitVec.ofNat 16 inum, strncpy DIRSIZ name⟩

/-- What is in the directory once an entry is stored. -/
def Dirent.stored (de : Dirent) : Dirent := ⟨de.inum, (List.range DIRSIZ).map (fun j => de.name.getD j 0)⟩

theorem Dirent.ofBytes_toByte (de : Dirent) :
    Dirent.ofBytes ((List.range DESIZE).map de.toByte) = de.stored := by
  have hget (j : ℕ) (hj : j < DESIZE) : ((List.range DESIZE).map de.toByte).getD j 0 = de.toByte j := by
    rw [List.getD_eq_getElem?_getD, List.getElem?_map, List.getElem?_range hj]
    rfl
  rw [Dirent.ofBytes, Dirent.stored, hget 0 (by decide), hget 1 (by decide)]
  congr 1
  apply BitVec.eq_of_getLsbD_eq
  intro j hj
  rw [BitVec.append_eq, BitVec.getLsbD_append]
  by_cases hlt : j < 8
  · rw [if_pos hlt]
    simp only [Dirent.toByte, hlt, decide_true, BitVec.getLsbD_setWidth, Bool.true_and]
  · have hge : j - 8 < 8 := by omega
    rw [if_neg hlt]
    simp only [Dirent.toByte, BitVec.getLsbD_extractLsb', hge, decide_true, Bool.true_and]
    rw [Nat.add_sub_cancel' (by omega)]

namespace Node

theorem count_setEntry (x : Node) (k : ℕ) (de : Dirent) : (x.setEntry k de).count = max x.count (k + 1) := by
  simp only [count, setEntry, written, DESIZE]
  omega

theorem entry_setEntry {x : Node} {de : Dirent} {k' : ℕ} (h : k' < (x.setEntry k de).count) :
    (x.setEntry k de).entry k' = if k' = k then de.stored else x.entry k' := by
  have hsize := lt_count h
  have hbyte (j : ℕ) (hj : j < DESIZE) : (x.setEntry k de).byte (DESIZE * k' + j) =
      if k' = k then de.toByte j else x.byte (DESIZE * k' + j) := by
    change (if DESIZE * k' + j < max x.size (DESIZE * k + DESIZE) then _ else _) = _
    change DESIZE * k' + DESIZE ≤ max x.size (DESIZE * k + DESIZE) at hsize
    rw [if_pos (by omega)]
    by_cases hk : k' = k
    · rw [if_pos hk, if_pos (by rw [hk]; omega), hk, Nat.add_sub_cancel_left]
      rfl
    · rw [if_neg hk, if_neg]
      simp only [DESIZE] at *
      omega
  have hmap : (List.range DESIZE).map (fun j => (x.setEntry k de).byte (DESIZE * k' + j)) =
      (List.range DESIZE).map (fun j => if k' = k then de.toByte j else x.byte (DESIZE * k' + j)) :=
    List.map_congr_left (fun j hj => hbyte j (List.mem_range.mp hj))
  rw [entry, hmap]
  by_cases hk : k' = k
  · simp only [if_pos hk]
    exact de.ofBytes_toByte
  · simp only [if_neg hk]
    rfl

theorem dvd_setEntry {x : Node} (h : DESIZE ∣ x.size) (k : ℕ) (de : Dirent) :
    DESIZE ∣ (x.setEntry k de).size := by
  simp only [setEntry, written, DESIZE] at *
  omega

end Node

theorem Node.within_setEntry {x : Node} {de : Dirent} (h : ∀ k < x.count, (x.entry k).inum.toNat < sb.ninodes)
    (hk : k ≤ x.count) (hde : de.inum.toNat < sb.ninodes) :
    ∀ k' < (x.setEntry k de).count, ((x.setEntry k de).entry k').inum.toNat < sb.ninodes := by
  intro k' hk'
  rw [Node.entry_setEntry hk']
  by_cases heq : k' = k
  · rw [if_pos heq]
    exact hde
  · rw [if_neg heq]
    rw [Node.count_setEntry] at hk'
    exact h k' (by omega)

theorem newEntry_inum_lt {name : Name} {inum : ℕ} (h : inum < sb.ninodes) :
    (newEntry name inum).inum.toNat < sb.ninodes := by
  change (BitVec.ofNat 16 inum).toNat < sb.ninodes
  rw [BitVec.toNat_ofNat]
  exact lt_of_le_of_lt (Nat.mod_le _ _) h

end SetEntry

section Read

theorem readLoop_end {dst : ℕ → Bool} {off len : ℕ} {out : List Byte} {Q : ℤ × List Byte → St → Prop}
    {E : Panic → St → Prop} (fuel : ℕ) (hQ : Q (len, out) s) :
    wp (readLoop sb i dst off len fuel len out) Q E s := by
  cases fuel with
  | zero => exact hQ
  | succ fuel =>
    rw [readLoop, if_neg (lt_irrefl len), wp_pure]
    exact hQ

theorem readResult_all (f : ℕ → Byte) (n : ℕ) :
    readResult (fun _ => true) f n = (((n : ℕ) : ℤ), (List.range n).map f) := by
  rw [readResult, if_pos]
  exact List.all_eq_true.mpr (fun _ _ => rfl)

/-- `readi` within one block of an inode that may have holes: it may allocate the block. -/
theorem readi_hole {off len : ℕ} (h : Now μ sb p D V s A H K N w) (hi : (i, n) ∈ K)
    (hn : n ∈ μ.holey) (hoff : off < (A n).size) (hone : off % BSIZE + len ≤ BSIZE) (hlen : 0 < len) :
    wp (readi sb i (fun _ => true) off len) (fun r s' => Env s s' ∧ Now μ sb p D V s' A H K N w ∧
      (r.1 = 0 ∨ r = readResult (fun _ => true) (fun j => (A n).byte (off + j))
        (min len ((A n).size - off)))) μ.E s := by
  have hbs : 0 < BSIZE := by decide
  have hmax := h.size_le n
  obtain ⟨L, W, hok, rfl, hl, hw, hV, hhole⟩ := h
  obtain ⟨hnD, hc⟩ := hhole n hn
  have hused := hok.used_of_locked hi
  have hcopy := hok.copy_eq hi
  rw [nodes_of_used hused] at hoff hmax ⊢
  change off < (L n).size.toNat at hoff
  change (L n).size.toNat ≤ MAXFILE * BSIZE at hmax
  change wp _ (fun r s' => Env s s' ∧ _ ∧ (r.1 = 0 ∨ r = readResult _ _ (min len ((L n).size.toNat - off)))) _ _
  have hbad : ¬ ((L n).size.toNat < off ∨ (off + len) % 2 ^ 32 < off) := by
    have hlt : off + len < 2 ^ 32 := by
      simp only [MAXFILE, NDIRECT, NINDIRECT, BSIZE] at hmax hone
      omega
    rw [Nat.mod_eq_of_lt hlt]
    omega
  have hcount : (if (L n).size.toNat < off + len then (L n).size.toNat - off else len) =
      min len ((L n).size.toNat - off) := by
    split <;> omega
  obtain ⟨m, hm⟩ : ∃ m, min len ((L n).size.toNat - off) = m + 1 :=
    ⟨min len ((L n).size.toNat - off) - 1, by omega⟩
  simp only [readi, copyOf, wp_bind, wp_get, wp_pure, hcopy, if_neg hbad, hcount, hm, readLoop,
    if_pos (Nat.succ_pos m), add_zero]
  have hbmax : off / BSIZE < MAXFILE := by
    rw [Nat.div_lt_iff_lt_mul hbs]
    omega
  have hroom : μ.Room N (bmapCost s.disk (L n) W (off / BSIZE)) := fun hcc => absurd hcc hc
  refine wp_imp (bmap_spec hok hi hbmax hl hroom) ?_
  rintro a s1 ⟨d1, hmap, ha, hl1, -⟩
  have hnow : Now μ sb p D V s1 (nodes sb s.disk L) H K N w := by
    have h1 : Now μ sb p D V s1 (nodes sb s.disk L) H K N
        ((bmapBlocks s1.disk d1 (off / BSIZE) ∪ W).card) := by
      refine ⟨_, _, ?_, hmap.nodes, hl1, le_refl _, fun m hm => ?_, hhole⟩
      · have := hmap.ok
        rwa [Set.insert_eq_of_mem hnD] at this
      · obtain ⟨j, hj, hv⟩ := hV m hm
        exact ⟨j, hj, by rw [hmap.grown.valid j, hv]⟩
    exact h1.uncounted hc
  by_cases ha0 : a = 0
  · -- no block is left
    rw [if_pos ha0, wp_pure]
    exact ⟨hmap.grown.env, hnow, .inl rfl⟩
  · rw [if_neg ha0, wp_bind, wp_get]
    have hmin : min (m + 1 - 0) (BSIZE - off % BSIZE) = m + 1 := by omega
    have hall : (List.range (m + 1)).all (fun _ => true) = true :=
      List.all_eq_true.mpr (fun _ _ => rfl)
    simp only [hmin, hall, if_true, List.nil_append, zero_add]
    refine readLoop_end m ⟨hmap.grown.env, hnow, .inr ?_⟩
    rw [readResult_all]
    congr 1
    apply List.map_congr_left
    intro j hj
    have hj' := List.mem_range.mp hj
    -- the byte is in the block `a`, and the contents are as before
    have hbyte : rawByte s1.disk d1 (off + j) = byte (s1.disk a) (off % BSIZE + j) := by
      have hdm := Nat.div_add_mod off BSIZE
      have heq : off + j = off % BSIZE + j + BSIZE * (off / BSIZE) := by omega
      have hlt : off % BSIZE + j < BSIZE := by omega
      rw [rawByte, heq, Nat.add_mul_div_left _ _ hbs, Nat.div_eq_of_lt hlt, zero_add,
        Nat.add_mul_mod_self_left, Nat.mod_eq_of_lt hlt, cell, ← ha, if_neg ha0]
    rw [← hbyte, node_byte, if_pos (by omega), rawByte, rawByte, hmap.grown.cells _ (blockSlot_ne _)]

theorem readDirent_now {e : Panic} (h : Now μ sb p D V s A H K N w) (hi : (i, n) ∈ K)
    (hk : DESIZE * k < (A n).size) (hroom : μ.Room N w)
    (hstop : n ∈ μ.holey ∨ ¬ k < (A n).count → μ.stops e) :
    wp (readDirent sb i (DESIZE * k) e) (fun r s' => Env s s' ∧ Now μ sb p D V s' A H K N w ∧
      k < (A n).count ∧ r = (A n).entry k) μ.E s := by
  have hone : DESIZE * k % BSIZE + DESIZE ≤ BSIZE := by
    simp only [DESIZE, BSIZE]
    omega
  have hcount : k < (A n).count ↔ min DESIZE ((A n).size - DESIZE * k) = DESIZE := by
    simp only [Node.count, DESIZE] at *
    omega
  -- what `readDirent` makes of the result of `readi`
  have hcont (r : ℤ × List Byte) (s' : St) (hr : (r.1 = 0 ∧ n ∈ μ.holey) ∨
      r = readResult (fun _ => true) (fun j => (A n).byte (DESIZE * k + j))
        (min DESIZE ((A n).size - DESIZE * k))) (henv : Env s s')
      (hnow : Now μ sb p D V s' A H K N w) :
      wp (if r.1 ≠ DESIZE then throw e else pure (Dirent.ofBytes r.2)) (fun r s' => Env s s' ∧
        Now μ sb p D V s' A H K N w ∧ k < (A n).count ∧ r = (A n).entry k) μ.E s' := by
    have hE (hs : μ.stops e) : μ.E e s' := ⟨hs, hnow.bounded hroom⟩
    rcases hr with ⟨hr, hh⟩ | rfl
    · rw [if_pos (by rw [hr]; decide), wp_throw]
      exact hE (hstop (.inl hh))
    · rw [readResult_all]
      by_cases hlt : k < (A n).count
      · rw [hcount.mp hlt, if_neg (fun hne => hne rfl), wp_pure]
        exact ⟨henv, hnow, hlt, rfl⟩
      · have hne : ((min DESIZE ((A n).size - DESIZE * k) : ℕ) : ℤ) ≠ DESIZE := by
          intro heq
          exact hlt (hcount.mpr (by exact_mod_cast heq))
        rw [if_pos hne, wp_throw]
        exact hE (hstop (.inr hlt))
  rw [readDirent, wp_bind]
  by_cases hn : n ∈ μ.holey
  · refine wp_imp (readi_hole h hi hn hk hone (by decide)) ?_
    rintro r s1 ⟨henv, hnow, hr⟩
    exact hcont r s1 (hr.imp_left (fun hr => ⟨hr, hn⟩)) henv hnow
  · have hmax := h.size_le n
    refine wp_imp (readi_now h hi hn) ?_
    rintro r s1 ⟨rfl, hr⟩
    have hrc : readCount (A n).size (DESIZE * k) DESIZE = min DESIZE ((A n).size - DESIZE * k) := by
      rw [readCount, if_neg]
      have hlt : DESIZE * k + DESIZE < 2 ^ 32 := by
        simp only [MAXFILE, NDIRECT, NINDIRECT, BSIZE, DESIZE] at hmax hk ⊢
        omega
      rw [Nat.mod_eq_of_lt hlt]
      omega
    rw [hrc] at hr
    exact hcont r s1 (.inr hr) (Env.refl s1) h

end Read

section Lookup

theorem not_dvd {x : Node} (hk : DESIZE * k < x.size) (h : ¬ k < x.count) : ¬ DESIZE ∣ x.size := by
  intro hd
  simp only [Node.count, DESIZE] at *
  omega

/-- What the loop of `dirlookup` over the entries `ks` of the directory `n` does. -/
def LooksUp (μ : Mode) (sb : Superblock) (p : ℕ) (D V : Set ℕ) (A : ℕ → Node) (H K : Multiset (ℕ × ℕ))
    (N : Finset ℕ) (w n : ℕ) (name : Name) (ks : List ℕ) (s : St) (r : Option (ℕ × ℕ)) (s' : St) : Prop :=
  Env s s' ∧
    ((r = none ∧ ks.find? (fun k => (A n).Named name k) = none ∧ (∀ k ∈ ks, k < (A n).count) ∧
      Now μ sb p D V s' A H K N w) ∨
    ∃ k j, r = some (j, DESIZE * k) ∧ ks.find? (fun k => (A n).Named name k) = some k ∧
      k < (A n).count ∧ Now μ sb p D V s' A ((j, ((A n).entry k).inum.toNat) ::ₘ H) K N w ∧
      ((s'.itable j).valid = true → (j, ((A n).entry k).inum.toNat) ∈ H))

theorem LooksUp.skip {name : Name} {ks : List ℕ} {s1 s2 : St} {r : Option (ℕ × ℕ)} (henv : Env s s1)
    (h : LooksUp μ sb p D V A H K N w n name ks s1 r s2) (hk : k < (A n).count)
    (hnot : ¬ (A n).Named name k) : LooksUp μ sb p D V A H K N w n name (k :: ks) s r s2 := by
  obtain ⟨henv2, hr⟩ := h
  unfold LooksUp
  rw [List.find?_cons_of_neg (by simpa using hnot)]
  refine ⟨henv.trans henv2, ?_⟩
  rcases hr with ⟨h1, h2, h3, h4⟩ | hr
  · refine .inl ⟨h1, h2, fun k' hk' => ?_, h4⟩
    rcases List.mem_cons.mp hk' with rfl | hk'
    · exact hk
    · exact h3 k' hk'
  · exact .inr hr

theorem dirlookupLoop_now {name : Name} (hi : (i, n) ∈ K) (hdir : (A n).type = T_DIR)
    (hent : Entries sb A) (hfree : μ.Free H 1) (hroom : μ.Room N w)
    (hstop : n ∈ μ.holey ∨ ¬ DESIZE ∣ (A n).size → μ.stops .dirlookupRead) (ks : List ℕ)
    (hks : ∀ k ∈ ks, DESIZE * k < (A n).size) (h : Now μ sb p D V s A H K N w) :
    wp (dirlookupLoop sb i name ks) (LooksUp μ sb p D V A H K N w n name ks s) μ.E s := by
  induction ks generalizing s with
  | nil =>
    rw [dirlookupLoop, wp_pure]
    exact ⟨Env.refl s, .inl ⟨rfl, rfl, fun k hk => absurd hk List.not_mem_nil, h⟩⟩
  | cons k ks ih =>
    have hk := hks k List.mem_cons_self
    rw [dirlookupLoop]
    refine wp_seq (readDirent_now h hi hk hroom (fun hc => hstop (hc.imp_right (not_dvd hk)))) ?_
    rintro de s1 ⟨henv1, h1, hlt, rfl⟩
    have hskip (hnot : ¬ (A n).Named name k) : wp (dirlookupLoop sb i name ks)
        (LooksUp μ sb p D V A H K N w n name (k :: ks) s) μ.E s1 :=
      wp_imp (ih (fun k hk => hks k (List.mem_cons_of_mem _ hk)) h1)
        (fun _ _ h2 => h2.skip henv1 hlt hnot)
    by_cases h0 : ((A n).entry k).inum = 0
    · rw [if_pos h0]
      exact hskip (fun hc => hc.1 h0)
    · rw [if_neg h0]
      by_cases hcmp : namecmp name ((A n).entry k).name = 0
      · have hdev := (h1.held (h1.locked hi)).2.2.2
        rw [if_pos hcmp, wp_bind, wp_get, hdev]
        simp only [wp_bind]
        refine wp_imp (iget_now h1 (hent n k hdir hlt) hfree hroom) ?_
        rintro j s2 ⟨h2, henv2, hfresh⟩
        rw [wp_pure]
        refine ⟨henv1.trans henv2, .inr ⟨k, j, rfl, ?_, hlt, h2, hfresh⟩⟩
        exact List.find?_cons_of_pos (decide_eq_true (⟨h0, hcmp⟩ : (A n).Named name k))
      · rw [if_neg hcmp]
        exact hskip (fun hc => hcmp hc.2)

theorem find_range_succ (x : Node) (name : Name) (hk : k < x.count)
    (h : (List.range (x.count + 1)).find? (fun k => x.Named name k) = some k) : x.find name = some k := by
  rw [List.range_succ, List.find?_append] at h
  unfold Node.find
  cases hf : (List.range x.count).find? (fun k => x.Named name k) with
  | some m =>
    rw [hf] at h
    exact h
  | none =>
    rw [hf, Option.none_or] at h
    have := List.mem_of_find?_eq_some h
    rw [List.mem_singleton] at this
    omega

theorem dirlookup_now {name : Name} (h : Now μ sb p D V s A H K N w) (hi : (i, n) ∈ K)
    (hdir : (A n).type = T_DIR) (hent : Entries sb A) (hfree : μ.Free H 1) (hroom : μ.Room N w)
    (hstop : n ∈ μ.holey ∨ ¬ DESIZE ∣ (A n).size → μ.stops .dirlookupRead) :
    wp (dirlookup sb i name) (fun r s' => Env s s' ∧
      ((r = none ∧ (A n).find name = none ∧ DESIZE ∣ (A n).size ∧ Now μ sb p D V s' A H K N w) ∨
      ∃ k j, r = some (j, DESIZE * k) ∧ (A n).find name = some k ∧
        Now μ sb p D V s' A ((j, ((A n).entry k).inum.toNat) ::ₘ H) K N w ∧
        ((s'.itable j).valid = true → (j, ((A n).entry k).inum.toNat) ∈ H))) μ.E s := by
  obtain ⟨⟨htype, -, -, -, hsize⟩, -⟩ := h.copy hi
  have hks : ∀ k ∈ List.range (entries (s.itable i).copy), DESIZE * k < (A n).size := by
    intro k hk
    have := List.mem_range.mp hk
    simp only [entries, hsize, DESIZE] at *
    omega
  simp only [dirlookup, copyOf, wp_bind, wp_get, wp_pure]
  rw [if_neg (by rw [htype, hdir]; exact fun hne => hne rfl)]
  refine wp_imp (dirlookupLoop_now hi hdir hent hfree hroom hstop _ hks h) ?_
  rintro r s1 ⟨henv, ⟨rfl, hf, hall, h1⟩ | ⟨k, j, rfl, hf, hlt, h1, hfresh⟩⟩
  · -- all entries were read, so there is no rest at the end
    have hdvd : DESIZE ∣ (A n).size := by
      by_contra hd
      have := hall (A n).count (List.mem_range.mpr (by
        simp only [entries, hsize, Node.count, DESIZE] at *
        omega))
      exact absurd this (lt_irrefl _)
    have hcount : entries (s.itable i).copy = (A n).count := by
      simp only [entries, hsize, Node.count, DESIZE] at *
      omega
    rw [hcount] at hf
    exact ⟨henv, .inl ⟨rfl, hf, hdvd, h1⟩⟩
  · refine ⟨henv, .inr ⟨k, j, rfl, ?_, h1, hfresh⟩⟩
    by_cases hd : DESIZE ∣ (A n).size
    · have hcount : entries (s.itable i).copy = (A n).count := by
        simp only [entries, hsize, Node.count, DESIZE] at *
        omega
      rwa [hcount] at hf
    · have hcount : entries (s.itable i).copy = (A n).count + 1 := by
        simp only [entries, hsize, Node.count, DESIZE] at *
        omega
      rw [hcount] at hf
      exact find_range_succ (A n) name hlt hf

end Lookup

section Link

theorem emptyDirent_now (hi : (i, n) ∈ K) (hroom : μ.Room N w) (hdvd : DESIZE ∣ (A n).size)
    (hstop : n ∈ μ.holey → μ.stops .dirlinkRead) (m k : ℕ) (hm : k + m = (A n).count)
    (hbusy : ∀ k' < k, ((A n).entry k').inum ≠ 0) (h : Now μ sb p D V s A H K N w) :
    wp (emptyDirent sb i m k) (fun r s' => Env s s' ∧ Now μ sb p D V s' A H K N w ∧
      r = DESIZE * (A n).vacant) μ.E s := by
  induction m generalizing k s with
  | zero =>
    rw [emptyDirent, wp_pure]
    refine ⟨Env.refl s, h, ?_⟩
    have hnone : (List.range (A n).count).find? (fun k => ((A n).entry k).inum = 0) = none := by
      rw [List.find?_eq_none]
      intro k' hk'
      simpa using hbusy k' (by have := List.mem_range.mp hk'; omega)
    rw [Node.vacant, hnone, Option.getD_none, ← hm, add_zero]
  | succ m ih =>
    have hk : DESIZE * k < (A n).size := by
      simp only [Node.count, DESIZE] at *
      omega
    have hst : n ∈ μ.holey ∨ ¬ k < (A n).count → μ.stops .dirlinkRead := by
      rintro (hh | hh)
      · exact hstop hh
      · omega
    rw [emptyDirent]
    refine wp_seq (readDirent_now h hi hk hroom hst) ?_
    rintro de s1 ⟨henv1, h1, hlt, rfl⟩
    by_cases h0 : ((A n).entry k).inum = 0
    · rw [if_pos h0, wp_pure]
      refine ⟨henv1, h1, ?_⟩
      have hsome : (List.range (A n).count).find? (fun k => ((A n).entry k).inum = 0) = some k := by
        rw [List.find?_range_eq_some]
        refine ⟨by simpa using h0, List.mem_range.mpr hlt, fun k' hk' => ?_⟩
        simpa using hbusy k' hk'
      rw [Node.vacant, hsome, Option.getD_some]
    · rw [if_neg h0]
      have hbusy' : ∀ k' < k + 1, ((A n).entry k').inum ≠ 0 := by
        intro k' hk'
        by_cases heq : k' = k
        · rwa [heq]
        · exact hbusy k' (by omega)
      refine wp_imp (ih (k + 1) (by omega) hbusy' h1) ?_
      rintro r s2 ⟨henv2, h2⟩
      exact ⟨henv1.trans henv2, h2⟩

theorem dirlink_now {name : Name} {inum : ℕ} (h : Now μ sb p D V s A H K N w) (hi : (i, n) ∈ K)
    (hdir : (A n).type = T_DIR) (hent : Entries sb A) (hfree : μ.Free H 1)
    (hroom : μ.Room (insert n N) (w + 2))
    (hkeep : ∀ m ∈ D ∪ V, ∃ j, (j, m) ∈ H)
    (hlookup : n ∈ μ.holey ∨ ¬ DESIZE ∣ (A n).size → μ.stops .dirlookupRead)
    (hlink : n ∈ μ.holey → μ.stops .dirlinkRead) :
    wp (dirlink sb p i name inum) (fun r s' => Env s s' ∧
      ((r = false ∧ Now μ sb p D V s' A H K (insert n N) (w + 2)) ∨
        (r = true ∧ (A n).find name = none ∧ DESIZE ∣ (A n).size ∧ Now μ sb p D V s'
          (update A n ((A n).setEntry (A n).vacant (newEntry name inum))) H K
          (insert n N) (w + 2)))) μ.E s := by
  have hroom1 : μ.Room N w := hroom.mono (Finset.subset_insert n N) (by omega)
  rw [dirlink]
  refine wp_seq (dirlookup_now h hi hdir hent hfree hroom1 hlookup) ?_
  rintro r s1 ⟨henv1, ⟨rfl, hfind, hdvd, h1⟩ | ⟨k, j, rfl, -, h1, hfresh⟩⟩
  · obtain ⟨⟨-, -, -, -, hsize⟩, -⟩ := h1.copy hi
    have hcount : 0 + entries (s1.itable i).copy = (A n).count := by
      simp only [entries, hsize, Node.count, DESIZE] at *
      omega
    simp only [wp_bind, copyOf, wp_get, wp_pure]
    refine wp_imp (emptyDirent_now hi hroom1 hdvd hlink _ 0 hcount (fun k hk => by omega) h1) ?_
    rintro off s2 ⟨henv2, h2, rfl⟩
    have hone : DESIZE * (A n).vacant % BSIZE + DESIZE ≤ BSIZE := by
      simp only [DESIZE, BSIZE]
      omega
    refine wp_seq (writei_now h2 hi hone (by decide) hroom) ?_
    rintro r s3 ⟨henv3, ⟨hne, h3⟩ | ⟨hr, -, h3⟩⟩
    · rw [wp_pure]
      exact ⟨henv1.trans (henv2.trans henv3), .inl ⟨decide_eq_false hne, h3⟩⟩
    · rw [wp_pure]
      exact ⟨henv1.trans (henv2.trans henv3), .inr ⟨decide_eq_true hr, hfind, hdvd, h3⟩⟩
  · -- the pointer that `dirlookup` returned is not the last one to a valid inode
    have hmem : (j, ((A n).entry k).inum.toNat) ∈ (j, ((A n).entry k).inum.toNat) ::ₘ H :=
      mem_cons_self _ _
    simp only [wp_bind]
    refine wp_imp (iput_keep h1 ?_ ?_ ?_) ?_
    · intro hjK
      obtain ⟨⟨j', m⟩, hm, rfl⟩ := Multiset.mem_map.mp hjK
      exact hfresh (h1.valid_of_locked hm)
    · intro hm
      obtain ⟨j', hj'⟩ := hkeep _ hm
      rwa [h1.uniq hmem (mem_cons_of_mem hj')]
    · rintro ⟨hv, ho⟩
      exact ho.2.2 j (hfresh hv)
    · rintro - s2 ⟨henv2, h2⟩
      rw [wp_pure]
      exact ⟨henv1.trans henv2, .inl ⟨rfl, h2.mono (Finset.subset_insert n N) (by omega)⟩⟩

theorem isdiremptyLoop_now (hi : (i, n) ∈ K) (hroom : μ.Room N w)
    (hstop : n ∈ μ.holey ∨ ¬ DESIZE ∣ (A n).size → μ.stops .isdiremptyRead) (m k : ℕ)
    (hm : ∀ k', k ≤ k' → k' < k + m → DESIZE * k' < (A n).size) (h : Now μ sb p D V s A H K N w) :
    wp (isdiremptyLoop sb i m k) (fun r s' => Env s s' ∧ Now μ sb p D V s' A H K N w ∧
      (r = true → ∀ k', k ≤ k' → k' < k + m → ((A n).entry k').inum = 0) ∧
      (r = false → ∃ k', k ≤ k' ∧ k' < (A n).count ∧ ((A n).entry k').inum ≠ 0)) μ.E s := by
  induction m generalizing k s with
  | zero =>
    rw [isdiremptyLoop, wp_pure]
    exact ⟨Env.refl s, h, fun _ k' h1 h2 => by omega, fun hr => by cases hr⟩
  | succ m ih =>
    have hk := hm k (le_refl k) (by omega)
    rw [isdiremptyLoop]
    refine wp_seq (readDirent_now h hi hk hroom (fun hc => hstop (hc.imp_right (not_dvd hk)))) ?_
    rintro de s1 ⟨henv1, h1, hlt, rfl⟩
    by_cases h0 : ((A n).entry k).inum = 0
    · rw [if_neg (not_not.mpr h0)]
      refine wp_imp (ih (k + 1) (fun k' h2 h3 => hm k' (by omega) (by omega)) h1) ?_
      rintro r s2 ⟨henv2, h2, h3, h4⟩
      refine ⟨henv1.trans henv2, h2, fun hr k' h5 h6 => ?_, fun hr => ?_⟩
      · by_cases heq : k' = k
        · rw [heq, h0]
        · exact h3 hr k' (by omega) (by omega)
      · obtain ⟨k', h5, h6⟩ := h4 hr
        exact ⟨k', by omega, h6⟩
    · rw [if_pos h0, wp_pure]
      exact ⟨henv1, h1, fun hr => (by cases hr), fun _ => ⟨k, le_refl k, hlt, h0⟩⟩

theorem isdirempty_now (h : Now μ sb p D V s A H K N w) (hi : (i, n) ∈ K) (hroom : μ.Room N w)
    (hstop : n ∈ μ.holey ∨ ¬ DESIZE ∣ (A n).size → μ.stops .isdiremptyRead) :
    wp (isdirempty sb i) (fun r s' => Env s s' ∧ Now μ sb p D V s' A H K N w ∧
      (r = true ↔ (A n).IsEmpty)) μ.E s := by
  obtain ⟨⟨-, -, -, -, hsize⟩, -⟩ := h.copy hi
  simp only [isdirempty, copyOf, wp_bind, wp_get, wp_pure]
  refine wp_imp (isdiremptyLoop_now hi hroom hstop _ 2 (fun k h1 h2 => ?_) h) ?_
  · simp only [entries, hsize, DESIZE] at *
    omega
  · rintro r s1 ⟨henv, h1, h2, h3⟩
    refine ⟨henv, h1, fun hr k h4 h5 => h2 hr k h4 ?_, fun he => ?_⟩
    · simp only [entries, hsize, Node.count, DESIZE] at *
      omega
    · cases r with
      | true => rfl
      | false =>
        obtain ⟨k, h4, h5, h6⟩ := h3 rfl
        exact absurd (he k h4 h5) h6

end Link

end Xv6.Fs
