import Xv6.FsName
import Xv6.FsSafe
import Xv6.MkfsLimits

/-! The image of mkfs as the kernel reads it: a path of one element is found, and its file has the
bytes that mkfs read; and no system call makes it inconsistent. -/
namespace Xv6.Mkfs

open Icache (Dinode Inode NINODE NDIRECT Found scan)
open Fs (Superblock IPB BPB NINDIRECT MAXFILE DIRSIZ DESIZE ROOTINO ROOTDEV T_DIR T_FILE Dirent Name Path Panic
  addr dinode bit slot blockSlot rawByte node Used HoleFree dot dotdot slash boot namei iget ilock)

section Entries

def rootNames (fs : List Input) : List Name := dot :: dotdot :: fs.map Input.shortname

theorem Input.shortname_sublist (f : Input) : f.shortname.Sublist f.base := by
  rw [Input.shortname]
  split
  · exact List.tail_sublist f.base
  · exact List.Sublist.refl _

theorem Input.shortname_noNul (f : Input) : 0 ∉ f.shortname := by
  have hbase : f.base.Sublist f.arg := by
    rw [Input.base]
    split
    · exact List.drop_sublist 5 f.arg
    · exact List.Sublist.refl _
  exact fun h0 => f.noNul ((f.shortname_sublist.trans hbase).subset h0)

theorem rootNames_stored {fs : List Input} (hvalid : ∀ f ∈ fs, f.Valid) {name : Name} (h : name ∈ rootNames fs) :
    name.length ≤ DIRSIZ ∧ 0 ∉ name := by
  rw [rootNames, List.mem_cons, List.mem_cons, List.mem_map] at h
  rcases h with rfl | rfl | ⟨f, hf, rfl⟩
  · decide
  · decide
  · exact ⟨(hvalid f hf).short, f.shortname_noNul⟩

theorem getElem?_rootEntries {fs : List Input} {K : ℕ} {name : Name} (h : (rootNames fs)[K]? = some name) :
    (rootEntries fs)[K]? = some (makeDirent (max 1 K) name) := by
  rw [rootNames] at h
  match K, h with
  | 0, h => cases h; rfl
  | 1, h => cases h; rfl
  | K + 2, h =>
    rw [List.getElem?_cons_succ, List.getElem?_cons_succ, List.getElem?_map] at h
    obtain ⟨f, hf, rfl⟩ := Option.map_eq_some_iff.mp h
    rw [rootEntries, List.getElem?_cons_succ, List.getElem?_cons_succ, List.getElem?_map, List.getElem?_zipIdx, hf]
    change some (makeDirent (2 + K) f.shortname) = _
    rw [max_eq_right (by omega), Nat.add_comm 2 K]

theorem getD_flatMap_direntBytes (es : List Dirent) {k j : ℕ} {e : Dirent} (hk : es[k]? = some e) (hj : j < DESIZE) :
    (es.flatMap direntBytes).getD (DESIZE * k + j) 0 = e.toByte j := by
  induction es generalizing k with
  | nil => cases hk
  | cons e' es ih =>
    rw [List.flatMap_cons]
    cases k with
    | zero =>
      cases hk
      rw [Nat.mul_zero, zero_add, List.getD_append _ _ _ _ (by rwa [length_direntBytes]), direntBytes,
        List.getD_eq_getElem?_getD, List.getElem?_map, List.getElem?_range hj]
      rfl
    | succ k =>
      rw [List.getD_append_right _ _ _ _ (by rw [length_direntBytes]; simp only [DESIZE]; omega), length_direntBytes,
        show DESIZE * (k + 1) + j - DESIZE = DESIZE * k + j by simp only [DESIZE]; omega]
      exact ih hk

theorem stored_makeDirent (n : ℕ) (name : Name) : (makeDirent n name).stored = makeDirent n name := by
  have hget (j : ℕ) (hj : j < DIRSIZ) : (Fs.strncpy DIRSIZ name).getD j 0 =
      (name.takeWhile (fun c => c ≠ 0)).getD j 0 := by
    rw [Fs.strncpy, List.getD_eq_getElem?_getD, List.getElem?_map, List.getElem?_range hj]
    rfl
  have hmap := List.map_congr_left (fun j hj => hget j (List.mem_range.mp hj))
  change Dirent.mk _ ((List.range DIRSIZ).map (fun j => (Fs.strncpy DIRSIZ name).getD j 0)) = _
  rw [hmap]
  rfl

variable {N : ℕ} {fs : List Input} {s : St}

/-- The entry `K` of the root directory as the kernel reads it. -/
theorem Made.entry (h : Made N fs s) {K : ℕ} {name : Name} (hK : (rootNames fs)[K]? = some name) :
    Dirent.ofBytes ((List.range DESIZE).map (fun j => rawByte s.img (dinode sb s.img ROOTINO) (DESIZE * K + j))) =
      makeDirent (max 1 K) name := by
  have hbytes (o : ℕ) : rawByte s.img (dinode sb s.img ROOTINO) o =
      ((rootEntries fs).flatMap direntBytes).getD o 0 := h.rootBytes o
  have hmap : (List.range DESIZE).map (fun j => rawByte s.img (dinode sb s.img ROOTINO) (DESIZE * K + j)) =
      (List.range DESIZE).map (makeDirent (max 1 K) name).toByte := by
    apply List.map_congr_left
    intro j hj
    rw [hbytes, getD_flatMap_direntBytes _ (getElem?_rootEntries hK) (List.mem_range.mp hj)]
  rw [hmap, Dirent.ofBytes_toByte, stored_makeDirent]

end Entries

section Table

def unused : Inode := ⟨0, 0, 0, none, false, Dinode.zero⟩

/-- A table with the root directory and the inode `x`. -/
def table (img : Disk) (r : ℕ) (l : Option ℕ) (x : Inode) (i : ℕ) : Inode :=
  if i = 0 then ⟨ROOTDEV, ROOTINO, r, l, true, dinode sb img ROOTINO⟩ else if i = 1 then x else unused

def booted (img : Disk) (r : ℕ) (l : Option ℕ) (x : Inode) : Fs.St := { boot sb img with itable := table img r l x }

variable {img : Disk} {r n : ℕ} {l : Option ℕ} {x : Inode} {Q : Unit → Fs.St → Prop} {E : Panic → Fs.St → Prop}

theorem booted_boot (img : Disk) : booted img 1 none unused = boot sb img := by
  have htable : table img 1 none unused = (boot sb img).itable := by
    funext i
    change (if i = 0 then _ else if i = 1 then _ else _) = if i = 0 then _ else _
    split_ifs <;> rfl
  rw [booted, htable]

theorem booted_root (img : Disk) (r : ℕ) (l : Option ℕ) (x : Inode) :
    (booted img r l x).itable 0 = ⟨ROOTDEV, ROOTINO, r, l, true, dinode sb img ROOTINO⟩ := rfl

theorem booted_one (img : Disk) (r : ℕ) (l : Option ℕ) (x : Inode) : (booted img r l x).itable 1 = x := rfl

theorem setInode_root (img : Disk) (r r' : ℕ) (l l' : Option ℕ) (x : Inode) :
    (booted img r l x).setInode 0 ⟨ROOTDEV, ROOTINO, r', l', true, dinode sb img ROOTINO⟩ = booted img r' l' x := by
  have htable : update (table img r l x) 0 ⟨ROOTDEV, ROOTINO, r', l', true, dinode sb img ROOTINO⟩ =
      table img r' l' x := by
    funext i
    rw [update_apply, table, table]
    split_ifs <;> rfl
  rw [booted, booted, ← htable]
  rfl

theorem setInode_one (img : Disk) (r : ℕ) (l : Option ℕ) (x x' : Inode) :
    (booted img r l x).setInode 1 x' = booted img r l x' := by
  have htable : update (table img r l x) 1 x' = table img r l x' := by
    funext i
    rw [update_apply, table, table]
    split_ifs with h1 h0
    · omega
    · rfl
    · rfl
    · rfl
  rw [booted, booted, ← htable]
  rfl

theorem scan_empty {T : ℕ → Inode} {dev inum j : ℕ} {is : List ℕ} (h : ∀ i ∈ is, (T i).ref = 0) :
    scan T dev inum is (some j) = .empty j := by
  induction is with
  | nil => rfl
  | cons i is ih =>
    have hi := h i List.mem_cons_self
    rw [scan, if_neg (by rw [hi]; omega), if_neg (fun hc => absurd hc.1 (Option.some_ne_none j))]
    exact ih (fun k hk => h k (List.mem_cons_of_mem _ hk))

theorem iget_root (hr : 0 < r) {Q : ℕ → Fs.St → Prop} (hQ : Q 0 (booted img (r + 1) l x)) :
    wp (iget ROOTDEV ROOTINO) Q E (booted img r l x) := by
  have hscan : scan (booted img r l x).itable ROOTDEV ROOTINO (List.range NINODE) none = .hit 0 := by
    rw [show List.range NINODE = 0 :: List.range' 1 49 by decide, scan]
    exact if_pos ⟨hr, rfl, rfl⟩
  simp only [iget, wp_bind, wp_get, hscan, wp_set, wp_pure]
  rw [booted_root, setInode_root]
  exact hQ

theorem iget_new {t : Fs.St} (ht : t = booted img r l unused) (hr : 0 < r) (hn : n ≠ ROOTINO)
    {Q : ℕ → Fs.St → Prop} (hQ : Q 1 (booted img r l ⟨ROOTDEV, n, 1, none, false, Dinode.zero⟩)) :
    wp (iget ROOTDEV n) Q E t := by
  subst ht
  have hscan : scan (booted img r l unused).itable ROOTDEV n (List.range NINODE) none = .empty 1 := by
    have hrest : ∀ i ∈ List.range' 2 48, ((booted img r l unused).itable i).ref = 0 := by
      intro i hi
      have := List.mem_range'_1.mp hi
      change (table img r l unused i).ref = 0
      rw [table, if_neg (by omega), if_neg (by omega)]
      rfl
    rw [show List.range NINODE = 0 :: 1 :: List.range' 2 48 by decide, scan, scan, booted_root, booted_one,
      if_neg (fun hc => hn hc.2.2.symm), if_neg (fun hc => absurd hc.1 (lt_irrefl 0))]
    have hroot : (if (none : Option ℕ) = none ∧ r = 0 then some 0 else none) = (none : Option ℕ) :=
      if_neg (fun hc => absurd hc.2 (Nat.pos_iff_ne_zero.mp hr))
    change scan _ _ _ _ (if (if (none : Option ℕ) = none ∧ r = 0 then some 0 else none) = none ∧ unused.ref = 0 then
      some 1 else _) = _
    rw [hroot, if_pos ⟨rfl, rfl⟩]
    exact scan_empty hrest
  simp only [iget, wp_bind, wp_get, hscan, wp_set, wp_pure]
  rw [setInode_one, booted_one]
  exact hQ

theorem ilock_root (hr : 0 < r) (hQ : Q () (booted img r (some 0) x)) :
    wp (ilock sb 0 0) Q E (booted img r none x) := by
  have href : ¬ ((booted img r none x).itable 0).ref < 1 := by
    rw [booted_root]
    exact not_lt.mpr hr
  have hlock : ((booted img r none x).itable 0).lock = none := rfl
  have hvalid : ((booted img r (some 0) x).itable 0).valid = true := rfl
  simp only [ilock, Fs.acquiresleep, wp_bind, wp_get, if_neg href, if_pos hlock, wp_set]
  rw [booted_root, setInode_root, if_pos hvalid, wp_pure]
  exact hQ

theorem iunlockput_root (hQ : Q () (booted img (r + 1) none x)) :
    wp (Fs.iunlockput sb 0 0) Q E (booted img (r + 2) (some 0) x) := by
  have hheld : ¬ (((booted img (r + 2) (some 0) x).itable 0).lock ≠ some 0 ∨
      ((booted img (r + 2) (some 0) x).itable 0).ref < 1) := by
    rintro (hlock | href)
    · exact hlock rfl
    · change r + 2 < 1 at href
      omega
  have hlast : ¬ (((booted img (r + 2) none x).itable 0).ref = 1 ∧
      ((booted img (r + 2) none x).itable 0).valid = true ∧
      ((booted img (r + 2) none x).itable 0).copy.nlink = 0) := by
    intro hc
    have href : r + 2 = 1 := hc.1
    omega
  simp only [Fs.iunlockput, Fs.iunlock, Fs.releasesleep, Fs.iput, Fs.ifree, wp_bind, wp_get, if_neg hheld, wp_modify]
  rw [booted_root, setInode_root, if_neg hlast, wp_pure, wp_modify, booted_root, setInode_root]
  exact hQ

theorem ilock_one (htype : (dinode sb img n).type ≠ 0)
    (hQ : Q () (booted img r l ⟨ROOTDEV, n, 1, some 0, true, dinode sb img n⟩)) :
    wp (ilock sb 0 1) Q E (booted img r l ⟨ROOTDEV, n, 1, none, false, Dinode.zero⟩) := by
  set x : Inode := ⟨ROOTDEV, n, 1, none, false, Dinode.zero⟩ with hx
  have href : ¬ ((booted img r l x).itable 1).ref < 1 := lt_irrefl 1
  have hlock : ((booted img r l x).itable 1).lock = none := rfl
  have hvalid : ¬ ((booted img r l { x with lock := some 0 }).itable 1).valid = true := Bool.false_ne_true
  simp only [ilock, Fs.acquiresleep, wp_bind, wp_get, if_neg href, if_pos hlock, wp_set]
  rw [booted_one, setInode_one, if_neg hvalid, wp_bind, wp_set, booted_one, setInode_one]
  change wp (if (dinode sb img n).type = 0 then _ else _) _ _ _
  rw [if_neg htype, wp_pure]
  exact hQ

end Table

section Lookup

variable {N i : ℕ} {fs : List Input} {s : St} {t : Fs.St} {E : Panic → Fs.St → Prop}

theorem length_rootNames (fs : List Input) : (rootNames fs).length = fs.length + 2 := by
  rw [rootNames, List.length_cons, List.length_cons, List.length_map]

theorem Made.rootFull (h : Made N fs s) (hle : fs.length + 2 ≤ 208) {K : ℕ} (hK : K < fs.length + 2) :
    DESIZE * K + DESIZE ≤ (dinode sb s.img ROOTINO).size.toNat ∧ DESIZE * K + DESIZE ≤ MAXFILE * BSIZE ∧
      ∀ bn, bn * BSIZE < DESIZE * K + DESIZE → slot s.img (dinode sb s.img ROOTINO) (blockSlot bn) ≠ 0 := by
  have hsize : (dinode sb s.img ROOTINO).size.toNat = Mkfs.rootSize fs := h.rootSize
  have hslots (bn : ℕ) : slot s.img (dinode sb s.img ROOTINO) (blockSlot bn) ≠ 0 ↔
      bn * BSIZE < DESIZE * (fs.length + 2) := h.rootSlots bn
  have hd : DESIZE = 16 := rfl
  have hb : BSIZE = 1024 := rfl
  have hm : MAXFILE = 268 := rfl
  refine ⟨?_, ?_, fun bn hbn => (hslots bn).mpr ?_⟩
  · rw [hsize, Mkfs.rootSize, hd, hb]
    omega
  · rw [hd, hm, hb]
    omega
  · rw [hd] at hbn ⊢
    omega

theorem readDirent_made (h : Made N fs s) (hle : fs.length + 2 ≤ 208) {K : ℕ} {name : Name}
    (hK : (rootNames fs)[K]? = some name) (hcopy : (t.itable i).copy = dinode sb s.img ROOTINO) (hdisk : t.disk = s.img)
    {e : Panic} {Q : Dirent → Fs.St → Prop} (hQ : Q (makeDirent (max 1 K) name) t) :
    wp (Fs.readDirent sb i (DESIZE * K) e) Q E t := by
  have hlt : K < fs.length + 2 := by
    rw [← length_rootNames]
    exact (List.getElem?_eq_some_iff.mp hK).1
  obtain ⟨hsize, hmax, hfull⟩ := h.rootFull hle hlt
  rw [Fs.readDirent]
  refine wp_seq (Fs.readi_within hcopy hsize hmax (by rwa [hdisk])) ?_
  rintro r t' ⟨rfl, rfl⟩
  rw [Fs.readResult_all, if_neg (fun hc => hc rfl), wp_pure, hdisk, h.entry hK]
  exact hQ

theorem dirlookupLoop_made (h : Made N fs s) (hle : fs.length + 2 ≤ 208) (hvalid : ∀ f ∈ fs, f.Valid)
    {name : Name} (hname : name.length ≤ DIRSIZ ∧ 0 ∉ name) {K : ℕ} (hK : (rootNames fs)[K]? = some name)
    (hfirst : ∀ j < K, (rootNames fs)[j]? ≠ some name) (hcopy : (t.itable i).copy = dinode sb s.img ROOTINO)
    (hdisk : t.disk = s.img) {Q : Option (ℕ × ℕ) → Fs.St → Prop}
    (hQ : wp (iget (t.itable i).dev (max 1 K)) (fun ip t' => Q (some (ip, DESIZE * K)) t') E t) (c a : ℕ)
    (ha : a ≤ K) (hc : K < a + c) : wp (Fs.dirlookupLoop sb i name (List.range' a c)) Q E t := by
  have hlt : K < fs.length + 2 := by
    rw [← length_rootNames]
    exact (List.getElem?_eq_some_iff.mp hK).1
  have hinum (j : ℕ) (hj : j < fs.length + 2) : (BitVec.ofNat 16 (max 1 j)).toNat = max 1 j := by
    rw [BitVec.toNat_ofNat]
    exact Nat.mod_eq_of_lt (by omega)
  induction c generalizing a with
  | zero => omega
  | succ c ih =>
    obtain ⟨other, hother⟩ : ∃ other, (rootNames fs)[a]? = some other :=
      ⟨_, List.getElem?_eq_getElem (by rw [length_rootNames]; omega)⟩
    rw [List.range'_succ, Fs.dirlookupLoop, wp_bind]
    apply readDirent_made h hle hother hcopy hdisk
    have hne : (makeDirent (max 1 a) other).inum ≠ 0 := by
      intro h0
      have := congrArg BitVec.toNat h0
      change (BitVec.ofNat 16 (max 1 a)).toNat = 0 at this
      rw [hinum a (by omega)] at this
      omega
    have hcmp : Fs.namecmp name (makeDirent (max 1 a) other).name = 0 ↔ name = other :=
      Fs.namecmp_strncpy_iff hname (rootNames_stored hvalid (List.mem_of_getElem? hother))
    rw [if_neg hne]
    by_cases haK : a = K
    · subst haK
      have heq : name = other := Option.some.inj (hK.symm.trans hother)
      rw [if_pos (hcmp.mpr heq), wp_bind, wp_get, wp_bind]
      change wp (iget _ (BitVec.ofNat 16 (max 1 a)).toNat) _ _ _
      rw [hinum a hlt]
      exact hQ
    · have hneq : name ≠ other := by
        intro heq
        exact hfirst a (by omega) (heq ▸ hother)
      rw [if_neg (fun hc => hneq (hcmp.mp hc))]
      exact ih (a + 1) (by omega) (by omega)

/-- What `namei` has to be told of a name to look up "/name". -/
structure Element (name : Name) : Prop where
  nonempty : name ≠ []
  noSlash : slash ∉ name
  noNul : 0 ∉ name
  short : name.length ≤ DIRSIZ

/-- `namei("/name")` after boot gets the inode of the first entry with the name. -/
theorem namei_made (h : Made N fs s) (hle : fs.length + 2 ≤ 208) (hvalid : ∀ f ∈ fs, f.Valid) {name : Name}
    (hname : Element name) {path : Path} (hpath : path.chars = slash :: name) {K : ℕ}
    (hK : (rootNames fs)[K]? = some name) (hfirst : ∀ j < K, (rootNames fs)[j]? ≠ some name)
    {Q : Option ℕ → Fs.St → Prop}
    (hQ : ∀ t, t = booted s.img 2 (some 0) unused →
      wp (iget ROOTDEV (max 1 K)) (fun ip t' => wp (Fs.iunlockput sb 0 0) (fun _ => Q (some ip)) E t') E t) :
    wp (namei sb 0 path) Q E (boot sb s.img) := by
  have hlt : K < fs.length + 2 := by
    rw [← length_rootNames]
    exact (List.getElem?_eq_some_iff.mp hK).1
  have hsize := (h.rootFull hle hlt).1
  have htype : (dinode sb s.img ROOTINO).type = T_DIR := h.rootType
  have helems : Fs.elems path.chars = [name] := by
    rw [hpath]
    exact Fs.elems_slash hname.nonempty hname.noSlash hname.short
  have hhead : path.chars.head? = some slash := by rw [hpath]; rfl
  rw [← booted_boot]
  simp only [namei, Fs.namex, Fs.namexStart, wp_bind, helems, if_pos hhead]
  apply iget_root Nat.one_pos
  rw [Fs.namexLoop, wp_bind]
  apply ilock_root (by omega)
  have hcopy : ((booted s.img 2 (some 0) unused).itable 0).copy = dinode sb s.img ROOTINO := rfl
  simp only [Fs.copyOf, wp_bind, wp_get, wp_pure, hcopy]
  rw [if_neg (fun hc => hc htype), if_neg (fun hc => Bool.false_ne_true hc.1), wp_bind]
  simp only [Fs.dirlookup, Fs.copyOf, wp_bind, wp_get, wp_pure, hcopy]
  rw [if_neg (fun hc => hc htype), List.range_eq_range']
  refine dirlookupLoop_made h hle hvalid ⟨hname.short, hname.noNul⟩ hK hfirst hcopy rfl ?_ _ 0 zero_le ?_
  · refine wp_imp (hQ _ rfl) ?_
    intro ip t' ht'
    refine wp_seq ht' ?_
    intro _ t'' ht''
    rw [Fs.namexLoop, if_neg Bool.false_ne_true]
    exact ht''
  · rw [Fs.entries]
    simp only [DESIZE] at hsize ⊢
    omega

end Lookup

section Agreement

/-- `readsb` and the check of `fsinit`: `none` if the magic number is wrong. -/
def readsb (b : Block) : Option Superblock :=
  if word b 0 = FSMAGIC then
    some ⟨(word b 1).toNat, (word b 2).toNat, (word b 3).toNat, (word b 6).toNat, (word b 7).toNat⟩
  else none

theorem readsb_superblock : readsb superblock = some sb := by
  have hword (k : ℕ) (hk : k < 8) : word superblock k =
      [FSMAGIC, BitVec.ofNat 32 sb.size, BitVec.ofNat 32 sb.nblocks, BitVec.ofNat 32 sb.ninodes,
        BitVec.ofNat 32 nlog, 2, BitVec.ofNat 32 sb.inodestart, BitVec.ofNat 32 sb.bmapstart].getD k 0 := by
    have hget := getField_setWords (0 : Block) 0 (fun k => [FSMAGIC, BitVec.ofNat 32 sb.size,
      BitVec.ofNat 32 sb.nblocks, BitVec.ofNat 32 sb.ninodes, BitVec.ofNat 32 nlog, 2,
      BitVec.ofNat 32 sb.inodestart, BitVec.ofNat 32 sb.bmapstart].getD k 0) hk (by decide)
    rw [zero_add] at hget
    exact hget
  rw [readsb, hword 0 (by decide), hword 1 (by decide), hword 2 (by decide), hword 3 (by decide),
    hword 6 (by decide), hword 7 (by decide)]
  exact if_pos rfl

variable {fs : List Input} {s : St} {N : ℕ}

theorem map_getD_range (c : List (BitVec 8)) (off len : ℕ) :
    (List.range (min len (c.length - off))).map (fun j => c.getD (off + j) 0) = (c.drop off).take len := by
  apply List.ext_getElem
  · rw [List.length_map, List.length_range, List.length_take, List.length_drop]
  · intro j h1 h2
    rw [List.length_take, List.length_drop] at h2
    rw [List.getElem_map, List.getElem_range, List.getElem_take, List.getElem_drop,
      List.getD_eq_getElem _ _ (by omega)]

/-- What the kernel finds at "/name": a file with these contents. -/
def Finds (img : Disk) (path : Path) (c : List (BitVec 8)) : Prop :=
  ∃ ip t t', namei sb 0 path (boot sb img) = .ok (some ip) t ∧ ilock sb 0 ip t = .ok () t' ∧
    (t'.itable ip).copy.type = T_FILE ∧ (t'.itable ip).copy.nlink = 1 ∧
    (t'.itable ip).copy.size.toNat = c.length ∧
    ∀ off len, off + len < 2 ^ 32 → Fs.readi sb ip (fun _ => true) off len t' =
      .ok ((((c.drop off).take len).length : ℤ), (c.drop off).take len) t'

theorem Made.used (h : Made N fs s) {k : ℕ} {f : Input} (hN : fs.length + 2 ≤ N) (hk : fs[k]? = some f) :
    Used (view N) (dinode (view N) s.img) (k + 2) := by
  have hlt := (List.getElem?_eq_some_iff.mp hk).1
  refine ⟨by change k + 2 < N; omega, ?_⟩
  rw [(h.files k f hk).fields.1]
  decide

theorem Made.finds (h : Made N fs s) (hN : N ≤ 208) (hle : fs.length + 2 ≤ N) (hvalid : ∀ f ∈ fs, f.Valid)
    {k : ℕ} {f : Input} (hk : fs[k]? = some f) (hname : Element f.shortname)
    (hfirst : ∀ j < k + 2, (rootNames fs)[j]? ≠ some f.shortname) {path : Path}
    (hpath : path.chars = slash :: f.shortname) : Finds s.img path f.contents := by
  have hK : (rootNames fs)[k + 2]? = some f.shortname := by
    rw [rootNames, List.getElem?_cons_succ, List.getElem?_cons_succ, List.getElem?_map, hk]
    rfl
  have hmax : max 1 (k + 2) = k + 2 := max_eq_right (by omega)
  have hroot : k + 2 ≠ ROOTINO := by
    change k + 2 ≠ 1
    omega
  have hused := h.used hle hk
  have hholds := h.files k f hk
  have hfull := h.blocks.full (k + 2) hused hroot
  set x : Inode := ⟨ROOTDEV, k + 2, 1, none, false, Dinode.zero⟩
  set x' : Inode := ⟨ROOTDEV, k + 2, 1, some 0, true, dinode sb s.img (k + 2)⟩ with hx'
  have hnamei : wp (namei sb 0 path) (fun r t => r = some 1 ∧ t = booted s.img 1 none x) (fun _ _ => False)
      (boot sb s.img) := by
    apply namei_made h (by omega) hvalid hname hpath hK hfirst
    intro t ht
    rw [hmax]
    apply iget_new ht (by decide) hroot
    apply iunlockput_root
    exact ⟨rfl, rfl⟩
  have hilock : wp (ilock sb 0 1) (fun _ t => t = booted s.img 1 none x') (fun _ _ => False)
      (booted s.img 1 none x) := ilock_one hused.2 rfl
  obtain ⟨r, t, hr, rfl, rfl⟩ := returns_of_wp hnamei
  obtain ⟨⟨⟩, t', ht', rfl⟩ := returns_of_wp hilock
  refine ⟨1, _, _, hr, ht', hholds.fields.1, hholds.fields.2.2.2, hholds.size, fun off len hlen => ?_⟩
  have hread := returns_of_wp (m := Fs.readi sb 1 (fun _ => true) off len) (s := booted s.img 1 none x')
    (Fs.readi_present rfl hfull)
  obtain ⟨r, t, hr, rfl, rfl⟩ := hread
  have hcount : Fs.readCount (dinode (view N) s.img (k + 2)).size.toNat off len =
      min len (f.contents.length - off) := by
    rw [Fs.readCount, hholds.size, Nat.mod_eq_of_lt hlen]
    split_ifs <;> omega
  have hbytes : (List.range (min len (f.contents.length - off))).map
      (fun j => (node s.img (dinode (view N) s.img (k + 2))).byte (off + j)) =
        (f.contents.drop off).take len := by
    rw [← map_getD_range]
    apply List.map_congr_left
    intro j hj
    have := List.mem_range.mp hj
    rw [Fs.node_byte, hholds.size, if_pos (by omega), hholds.bytes]
  rw [hr, Fs.readResult_all]
  change EStateM.Result.ok (((Fs.readCount (dinode (view N) s.img (k + 2)).size.toNat off len : ℕ) : ℤ),
    (List.range (Fs.readCount (dinode (view N) s.img (k + 2)).size.toNat off len)).map
      (fun j => (node s.img (dinode (view N) s.img (k + 2))).byte (off + j))) _ = _
  rw [hcount, hbytes, List.length_take, List.length_drop]

theorem Made.dots (h : Made N fs s) (hN : N ≤ 208) (hle : fs.length + 2 ≤ N) (hvalid : ∀ f ∈ fs, f.Valid)
    {name : Name} (hname : name = dot ∨ name = dotdot) {path : Path} (hpath : path.chars = slash :: name) :
    namei sb 0 path (boot sb s.img) = .ok (some 0) (booted s.img 2 none unused) := by
  have hlook (K : ℕ) (hmax : max 1 K = ROOTINO) (hel : Element name) (hK : (rootNames fs)[K]? = some name)
      (hfirst : ∀ j < K, (rootNames fs)[j]? ≠ some name) :
      namei sb 0 path (boot sb s.img) = .ok (some 0) (booted s.img 2 none unused) := by
    have hnamei : wp (namei sb 0 path) (fun r t => r = some 0 ∧ t = booted s.img 2 none unused)
        (fun _ _ => False) (boot sb s.img) := by
      apply namei_made h (by omega) hvalid hel hpath hK hfirst
      rintro t rfl
      rw [hmax]
      apply iget_root (by decide)
      apply iunlockput_root
      exact ⟨rfl, rfl⟩
    obtain ⟨r, t, hr, rfl, rfl⟩ := returns_of_wp hnamei
    exact hr
  rcases hname with rfl | rfl
  · exact hlook 0 rfl ⟨by decide, by decide, by decide, by decide⟩ rfl (by simp)
  · refine hlook 1 rfl ⟨by decide, by decide, by decide, by decide⟩ rfl (fun j hj => ?_)
    have hj0 : j = 0 := by omega
    subst hj0
    exact fun hc => absurd (Option.some.inj hc) (by decide)

/-- The bitmap marks the metadata and the blocks of the inodes. -/
theorem Made.bit_iff (h : Made N fs s) {b : ℕ} (hb : b < sb.size) : bit (view N) s.img b = true ↔
    b < nmeta ∨ ∃ n k, Used (view N) (dinode (view N) s.img) n ∧ slot s.img (dinode (view N) s.img n) k = b := by
  by_cases hlt : b < nmeta
  · exact ⟨fun _ => .inl hlt, fun _ => h.blocks.metadata b (by rwa [view_nmeta])⟩
  · have hpos : b ≠ 0 := by
      have : 0 < nmeta := by decide
      omega
    rw [h.blocks.owns.marked b (isData_iff.mpr ⟨not_lt.mp hlt, hb⟩)]
    constructor
    · rintro ⟨⟨n, k⟩, hslot⟩
      rw [Fs.slots] at hslot
      split at hslot
      · exact .inr ⟨n, k, ‹_›, hslot⟩
      · exact absurd hslot.symm hpos
    · rintro (hc | ⟨n, k, hused, hslot⟩)
      · exact absurd hc hlt
      · exact ⟨(n, k), (if_pos hused).trans hslot⟩

theorem first_of_nodup (hnames : (fs.map Input.shortname).Nodup) {k : ℕ} {f : Input} (hk : fs[k]? = some f)
    (hdot : f.shortname ≠ dot) (hdotdot : f.shortname ≠ dotdot) :
    ∀ j < k + 2, (rootNames fs)[j]? ≠ some f.shortname := by
  intro j hj hc
  match j, hj, hc with
  | 0, _, hc => exact hdot (Option.some.inj hc).symm
  | 1, _, hc => exact hdotdot (Option.some.inj hc).symm
  | j + 2, hj, hc =>
    rw [rootNames, List.getElem?_cons_succ, List.getElem?_cons_succ] at hc
    have hk' : (fs.map Input.shortname)[k]? = some f.shortname := by
      rw [List.getElem?_map, hk]
      rfl
    have hklt := (List.getElem?_eq_some_iff.mp hk').1
    exact List.nodup_iff_getElem?_ne_getElem?.mp hnames j k (by omega) hklt (hc.trans hk'.symm)

/-- The kernel finds the files that mkfs was given in the image that it wrote: for every list of
files with different names that a path can have, whose inodes and blocks fit. -/
theorem kernel_reads_image (fs : List Input) (hnames : (fs.map Input.shortname).Nodup)
    (hfiles : ∀ f ∈ fs, f.Valid ∧ f.shortname ≠ [] ∧ f.shortname ≠ dot ∧ f.shortname ≠ dotdot ∧
      f.contents.length ≤ MAXFILE * BSIZE)
    (hinodes : fs.length + 1 < NINODES) (hblocks : nmeta + dataBlocks fs ≤ FSSIZE) :
    ∃ s, main fs start = .ok () s ∧ readsb (s.img 1) = some sb ∧
      (∀ f ∈ fs, ∀ path : Path, path.chars = slash :: f.shortname → Finds s.img path f.contents) ∧
      (∀ name, name = dot ∨ name = dotdot → ∀ path : Path, path.chars = slash :: name →
        ∃ ip t, namei sb 0 path (boot sb s.img) = .ok (some ip) t ∧ (t.itable ip).inum = ROOTINO) ∧
      (∀ b < sb.size, bit sb s.img b = true ↔ b < nmeta ∨
        ∃ n k, Used sb (dinode sb s.img) n ∧ slot s.img (dinode sb s.img n) k = b) ∧
      word (s.img 2) 0 = 0 := by
  have hvalid : ∀ f ∈ fs, f.Valid := fun f hf => (hfiles f hf).1
  have hN : NINODES ≤ 208 := by decide
  obtain ⟨s, hs, h⟩ := main_returns hN hinodes (fun f hf => ⟨(hfiles f hf).1, (hfiles f hf).2.2.2.2⟩) hblocks
  refine ⟨s, hs, ?_, ?_, ?_, fun b hb => h.bit_iff hb, ?_⟩
  · rw [h.superblock, readsb_superblock]
  · intro f hf path hpath
    obtain ⟨hv, hne, hdot, hdotdot, -⟩ := hfiles f hf
    obtain ⟨k, hk⟩ := List.getElem?_of_mem hf
    have hel : Element f.shortname :=
      ⟨hne, fun hc => hv.noSlash (f.shortname_sublist.subset hc), f.shortname_noNul, hv.short⟩
    exact h.finds hN hinodes hvalid hk hel (first_of_nodup hnames hk hdot hdotdot) hpath
  · intro name hname path hpath
    exact ⟨0, _, h.dots hN hinodes hvalid hname hpath, rfl⟩
  · rw [h.log, word_zero]

theorem kernel_reads_one_file : ∃ s, main [emptyFile] start = .ok () s ∧ readsb (s.img 1) = some sb ∧
    Finds s.img ⟨[slash, 97], by decide, by decide⟩ [] := by
  obtain ⟨s, hs, hsb, hfiles, -⟩ := kernel_reads_image [emptyFile] (List.nodup_singleton _)
    (fun f hf => by
      rw [List.mem_singleton.mp hf]
      exact ⟨emptyFile_valid, by decide, by decide, by decide, by decide⟩) (by decide) (by decide)
  exact ⟨s, hs, hsb, hfiles emptyFile List.mem_cons_self ⟨[slash, 97], by decide, by decide⟩ rfl⟩

/-- The file "_." of the host. -/
def dotFile : Input where
  arg := [underscore, 46]
  noNul := by decide
  reads := some []
  reads_le := emptyFile.reads_le

/-- mkfs takes the file "_.", but "/." is the root directory. -/
theorem dot_file_not_found : ∃ s, main [dotFile] start = .ok () s ∧ dotFile.shortname = dot ∧
    ∀ path : Path, path.chars = slash :: dotFile.shortname → ¬ Finds s.img path dotFile.contents := by
  have hvalid : ∀ f ∈ [dotFile], f.Valid := by
    intro f hf
    rw [List.mem_singleton.mp hf]
    exact ⟨by decide, by decide, by decide⟩
  have hret : ∃ s, main [dotFile] start = .ok () s ∧ Made 208 [dotFile] s :=
    main_returns (le_refl 208) (by decide)
      (fun f hf => ⟨hvalid f hf, by rw [List.mem_singleton.mp hf]; decide⟩) (by decide)
  obtain ⟨s, hs, h⟩ := hret
  refine ⟨s, hs, by decide, ?_⟩
  rintro path hpath ⟨ip, t, t', hnamei, hilock, htype, -⟩
  rw [h.dots (le_refl 208) (by decide) hvalid (.inl rfl) hpath] at hnamei
  obtain ⟨hip, rfl⟩ := EStateM.Result.ok.inj hnamei
  cases hip
  have hroot : wp (ilock sb 0 0) (fun _ t => t = booted s.img 2 (some 0) unused) (fun _ _ => False)
      (booted s.img 2 none unused) := ilock_root (by decide) rfl
  have ht' := ok_of_wp hroot hilock
  subst ht'
  have hdir : (dinode sb s.img ROOTINO).type = T_DIR := h.rootType
  have hfile : (dinode sb s.img ROOTINO).type = T_FILE := htype
  rw [hdir] at hfile
  exact absurd hfile (by decide)

theorem Made.entries (h : Made NINODES fs s) (hle : fs.length + 1 < NINODES) :
    Fs.Entries sb (Fs.nodes sb s.img (dinode sb s.img)) := by
  intro n K hdir hK
  have hused : Used sb (dinode sb s.img) n := Fs.used_of_type (by rw [hdir]; decide)
  rw [Fs.nodes_of_used hused] at hdir hK ⊢
  have hroot : n = ROOTINO := by
    by_contra hne
    by_cases hfree : n = 0 ∨ fs.length + 2 ≤ n
    · exact hused.2 (h.free n hused.1 hfree)
    · -- the other inodes are those of the files
      obtain ⟨k, rfl⟩ : ∃ k, n = k + 2 := ⟨n - 2, by simp only [ROOTINO] at hne; omega⟩
      have hfile : (dinode sb s.img (k + 2)).type = T_FILE :=
        (h.files k _ (List.getElem?_eq_getElem (by omega))).fields.1
      exact absurd (hfile.symm.trans hdir) (by decide)
  subst hroot
  have hraw : (node s.img (dinode sb s.img ROOTINO)).entry K =
      Dirent.ofBytes ((List.range DESIZE).map fun j => rawByte s.img (dinode sb s.img ROOTINO) (DESIZE * K + j)) := by
    apply congrArg Dirent.ofBytes
    apply List.map_congr_left
    intro j hj
    have hj : j < DESIZE := List.mem_range.mp hj
    have hK : K < (dinode sb s.img ROOTINO).size.toNat / DESIZE := hK
    apply if_pos
    simp only [DESIZE] at hj hK ⊢
    omega
  rw [hraw]
  by_cases hlt : K < (rootNames fs).length
  · rw [length_rootNames] at hlt
    rw [h.entry (List.getElem?_eq_getElem (by rwa [length_rootNames])), makeDirent, BitVec.toNat_ofNat]
    exact (Nat.mod_le _ _).trans_lt (by simp only [sb]; omega)
  · -- `rootSize` counts the rest of the last block, which is zeros
    have hzero : (List.range DESIZE).map (fun j => rawByte s.img (dinode sb s.img ROOTINO) (DESIZE * K + j)) =
        List.replicate DESIZE 0 := by
      refine List.eq_replicate_iff.mpr ⟨by simp, fun b hb => ?_⟩
      obtain ⟨j, -, rfl⟩ := List.mem_map.mp hb
      rw [show rawByte s.img (dinode sb s.img ROOTINO) (DESIZE * K + j) = _ from h.rootBytes _]
      apply List.getD_eq_default
      rw [length_flatMap_direntBytes, length_rootEntries]
      rw [length_rootNames, not_lt] at hlt
      exact (Nat.mul_le_mul_left DESIZE hlt).trans (Nat.le_add_right _ j)
    rw [hzero]
    decide

theorem Made.image (h : Made NINODES fs s) (hle : fs.length + 1 < NINODES) (hmod : (fs.length + 2) % 64 ≠ 0) :
    Fs.Image sb s.img where
  wf := view_wellFormed (N := NINODES) (by decide)
  blocks := by
    refine ⟨h.blocks.owns, h.blocks.metadata, fun n hn _ => ?_, h.blocks.size_le⟩
    by_cases hroot : n = ROOTINO
    · rw [hroot]
      exact (made_holeFree_iff h (by simp only [NINODES] at hle; omega)).mpr hmod
    · exact h.blocks.full n hn hroot
  entries := h.entries hle
  root_lt := by decide
  root := by
    rw [show (dinode sb s.img ROOTINO).type = T_DIR from h.rootType]
    decide

/-- If the files fit in the inodes of mkfs and their entries do not fill the last block of the root
directory, then after every sequence of system calls on the image the bitmap marks exactly the blocks
of the inodes, no block has two owners, and no file has a hole. -/
theorem mkfs_image_stays_consistent (h : main fs start = .ok () s) (hle : fs.length + 1 < NINODES)
    (hmod : (fs.length + 2) % (BSIZE / DESIZE) ≠ 0) {es : List (ℕ × Fs.Call)} {t : Fs.St}
    (hrun : exec (Fs.step sb) (boot sb s.img) es = some t) : Fs.Blocks sb ∅ t.disk (dinode sb t.disk) := by
  obtain ⟨-, hmade⟩ := made_of_main h (by decide) hle
  have hboot := Fs.boot_free (hmade.image hle hmod)
  obtain ⟨A, H, hb⟩ := Fs.run_boundary (μ := Fs.freeMode) rfl (by decide : Panic.noType ≠ _)
    (by decide : Panic.noInodes ≠ _) hrun hboot
  exact hb.idle.blocks

theorem mkfs_image_after_fork : ∃ s t, main [emptyFile] start = .ok () s ∧
    exec (Fs.step sb) (boot sb s.img) [(0, .fork 1)] = some t ∧ Fs.Blocks sb ∅ t.disk (dinode sb t.disk) := by
  obtain ⟨s, hs, -⟩ := emptyFiles_accepted (k := 1) (by decide)
  have hrun : exec (Fs.step sb) (boot sb s.img) [(0, .fork 1)] = some _ := rfl
  exact ⟨s, _, hs, hrun, mkfs_image_stays_consistent hs (by decide) (by decide) hrun⟩

end Agreement

end Xv6.Mkfs
