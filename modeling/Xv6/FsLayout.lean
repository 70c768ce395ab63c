import Xv6.Disk
import Xv6.Icache

/-! The on-disk format (kernel/fs.h): where the inodes, the free map and the bytes of a block are,
and how they read back. A block is a bit vector, so bit `b % BPB` of a bitmap block is the one that
`data[bi/8] & (1 << (bi % 8))` tests. -/
namespace Xv6

section Fields

variable {n : ℕ} (x : BitVec n) (off : ℕ) (f : ℕ → BitVec 32)

/-- An array of 32-bit words at bit `off`. -/
def setWords : ℕ → BitVec n
  | 0 => x
  | k + 1 => setField (setWords k) (off + 32 * k) (f k)

theorem getField_setWords {k m : ℕ} (hk : k < m) (hn : off + 32 * m ≤ n) :
    getField (setWords x off f m) (off + 32 * k) 32 = f k := by
  induction m with
  | zero => omega
  | succ m ih =>
    rw [setWords]
    by_cases h : k = m
    · subst h
      rw [getField_setField _ _ _ (by omega)]
    · rw [getField_setField_of_disjoint _ _ _ _ (by omega)]
      exact ih (by omega) (by omega)

theorem getField_setWords_of_le (m : ℕ) {off' w : ℕ} (h : off' + w ≤ off) :
    getField (setWords x off f m) off' w = getField x off' w := by
  induction m with
  | zero => rfl
  | succ m ih => rw [setWords, getField_setField_of_disjoint _ _ _ _ (by omega), ih]

end Fields

def byte (b : Block) (o : ℕ) : BitVec 8 := getField b (8 * o) 8

def setByte (b : Block) (o : ℕ) (v : BitVec 8) : Block := setField b (8 * o) v

theorem byte_setByte (b : Block) {o o' : ℕ} (v : BitVec 8) (ho : o < BSIZE) :
    byte (setByte b o v) o' = if o' = o then v else byte b o' := by
  simp only [BSIZE] at ho
  split
  next h =>
    subst h
    exact getField_setField b (8 * o') v (by omega)
  next h => exact getField_setField_of_disjoint b (8 * o) (8 * o') v (by omega)

@[simp] theorem byte_zero (o : ℕ) : byte 0 o = 0 := by
  simp [byte, getField]

@[simp] theorem word_zero (i : ℕ) : word 0 i = 0 := by
  simp [word, getField]

namespace Fs

export Icache (Dinode Dinode.zero Inode NINODE NDIRECT scan scan_spec)

def NINDIRECT : ℕ := 256

def MAXFILE : ℕ := NDIRECT + NINDIRECT

def IPB : ℕ := 16

def BPB : ℕ := 8192

structure Superblock where
  size : ℕ
  nblocks : ℕ
  ninodes : ℕ
  inodestart : ℕ
  bmapstart : ℕ

namespace Superblock

def iblock (sb : Superblock) (inum : ℕ) : ℕ := inum / IPB + sb.inodestart

def bblock (sb : Superblock) (b : ℕ) : ℕ := b / BPB + sb.bmapstart

/-- The number of blocks before the data blocks. -/
def nmeta (sb : Superblock) : ℕ := sb.size - sb.nblocks

def IsData (sb : Superblock) (b : ℕ) : Prop := sb.nmeta ≤ b ∧ b < sb.size

/-- The regions follow each other as mkfs lays them out: the inode blocks, the bitmap, the data. -/
structure WellFormed (sb : Superblock) : Prop where
  inodes : ∀ inum < sb.ninodes, sb.iblock inum < sb.bmapstart
  bitmap : ∀ b < sb.size, sb.bblock b < sb.nmeta
  bmapstart_lt : sb.bmapstart < sb.nmeta
  size_lt : sb.size < 2 ^ 32

end Superblock

section Dinode

variable (d : Dinode) (k : ℕ)

def addr : ℕ := (d.addrs.toList.getD k 0).toNat

def setAddr (b : ℕ) : Dinode := { d with addrs := d.addrs.setIfInBounds k (BitVec.ofNat 32 b) }

theorem addr_of_zeros (type : BitVec 16) : addr { Dinode.zero with type := type } k = 0 := by
  simp only [addr, Dinode.zero, Vector.toList_replicate, List.getD_eq_getElem?_getD]
  rw [List.getElem?_replicate]
  split <;> rfl

theorem addr_setAddr {j b : ℕ} (hk : k ≤ NDIRECT) (hb : b < 2 ^ 32) :
    addr (setAddr d k b) j = if j = k then b else addr d j := by
  have hlen : k < d.addrs.toList.length := by
    simp only [Vector.length_toList]
    omega
  simp only [addr, setAddr, Vector.toList_setIfInBounds, List.getD_eq_getElem?_getD, List.getElem?_set]
  by_cases hj : k = j
  · subst hj
    simp only [Vector.length_toList] at hlen
    simp only [if_true, Vector.length_toList, hlen, Option.getD_some, BitVec.toNat_ofNat]
    omega
  · rw [if_neg hj, if_neg (Ne.symm hj)]

theorem addr_of_gt (h : NDIRECT < k) : addr d k = 0 := by
  have hlen : d.addrs.toList.length ≤ k := by
    simp only [Vector.length_toList]
    omega
  simp [addr, List.getD_eq_getElem?_getD, List.getElem?_eq_none hlen]

/-- `struct dinode` as the 64 bytes it takes on disk. -/
def toBits (d : Dinode) : BitVec 512 :=
  setWords (setField (setField (setField (setField (setField (0 : BitVec 512) 0 d.type) 16 d.major)
    32 d.minor) 48 d.nlink) 64 d.size) 96 (fun k => d.addrs.toList.getD k 0) (NDIRECT + 1)

def ofBits (x : BitVec 512) : Dinode where
  type := getField x 0 16
  major := getField x 16 16
  minor := getField x 32 16
  nlink := getField x 48 16
  size := getField x 64 32
  addrs := Vector.ofFn (fun k : Fin (NDIRECT + 1) => getField x (96 + 32 * k.val) 32)

theorem ofBits_toBits (d : Dinode) : ofBits (toBits d) = d := by
  obtain ⟨type, major, minor, nlink, size, addrs⟩ := d
  have haddrs (k : ℕ) (hk : k < NDIRECT + 1) :
      getField (toBits ⟨type, major, minor, nlink, size, addrs⟩) (96 + 32 * k) 32 = addrs.toList.getD k 0 :=
    getField_setWords _ _ _ hk (by decide)
  simp only [ofBits, Icache.Dinode.mk.injEq]
  refine ⟨?_, ?_, ?_, ?_, ?_, ?_⟩
  iterate 5
    · rw [toBits, getField_setWords_of_le _ _ _ _ (by decide)]
      simp [getField_setField_of_disjoint]
  · apply Vector.ext
    intro k hk
    rw [Vector.getElem_ofFn, haddrs k hk]
    simp [List.getD_eq_getElem?_getD, hk]

end Dinode

section Disk

variable (sb : Superblock) (disk : Disk)

/-- The inode `inum` on disk. -/
def dinode (inum : ℕ) : Dinode := ofBits (getField (disk (sb.iblock inum)) (512 * (inum % IPB)) 512)

def setDinode (inum : ℕ) (d : Dinode) : Disk :=
  update disk (sb.iblock inum)
    (setField (disk (sb.iblock inum)) (512 * (inum % IPB)) (toBits d))

/-- The bit of block `b` in the free map. -/
def bit (b : ℕ) : Bool := (getField (disk (sb.bblock b)) (b % BPB) 1) = 1

def setBit (b : ℕ) (v : Bool) : Disk :=
  update disk (sb.bblock b) (setField (disk (sb.bblock b)) (b % BPB) (BitVec.ofBool v))

variable {sb} {disk}

theorem dinode_setDinode (n m : ℕ) (d : Dinode) :
    dinode sb (setDinode sb disk n d) m = if m = n then d else dinode sb disk m := by
  unfold dinode setDinode
  have hn : n % 16 < 16 := Nat.mod_lt n (by decide)
  have hm : m % 16 < 16 := Nat.mod_lt m (by decide)
  by_cases h : m = n
  · subst h
    rw [if_pos rfl, update_self, getField_setField _ _ _ (by simp only [IPB]; omega),
      ofBits_toBits]
  · rw [if_neg h]
    by_cases hb : sb.iblock m = sb.iblock n
    · rw [hb, update_self, getField_setField_of_disjoint]
      simp only [Superblock.iblock, IPB] at hb ⊢
      omega
    · rw [update_of_ne hb]

theorem setDinode_of_ne {n b : ℕ} (d : Dinode) (h : b ≠ sb.iblock n) :
    setDinode sb disk n d b = disk b := update_of_ne h _ _

theorem bit_setBit (a b : ℕ) (v : Bool) :
    bit sb (setBit sb disk a v) b = if b = a then v else bit sb disk b := by
  unfold bit setBit
  have ha : a % 8192 < 8192 := Nat.mod_lt a (by decide)
  have hb : b % 8192 < 8192 := Nat.mod_lt b (by decide)
  by_cases h : b = a
  · subst h
    rw [if_pos rfl, update_self, getField_setField _ _ _ (by simp only [BPB]; omega)]
    cases v <;> decide
  · rw [if_neg h]
    by_cases he : sb.bblock b = sb.bblock a
    · rw [he, update_self, getField_setField_of_disjoint]
      simp only [Superblock.bblock, BPB] at he ⊢
      omega
    · rw [update_of_ne he]

theorem setBit_of_ne {a b : ℕ} (v : Bool) (h : b ≠ sb.bblock a) : setBit sb disk a v b = disk b :=
  update_of_ne h _ _

end Disk

end Fs

end Xv6
