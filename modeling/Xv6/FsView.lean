import Xv6.Fs
import Xv6.SlotMap

/-! What the blocks of the disk mean. `addrs[k]` is slot `k` of an inode, and the entry `j` of its
indirect block is slot `NDIRECT + 1 + j`. The contents are the blocks in the slots; a missing block
reads as zeros. `L n` is the inode `n` as the kernel sees it, in the table or on disk. -/
namespace Xv6.Fs

section Slots

def NSLOTS : ℕ := NDIRECT + 1 + NINDIRECT

def slot (disk : Disk) (d : Dinode) (k : ℕ) : ℕ :=
  if k ≤ NDIRECT then addr d k
  else if k < NSLOTS ∧ addr d NDIRECT ≠ 0 then
    (word (disk (addr d NDIRECT)) (k - (NDIRECT + 1))).toNat
  else 0

/-- The slot of the block `bn` of the contents. -/
def blockSlot (bn : ℕ) : ℕ := if bn < NDIRECT then bn else bn + 1

/-- What is in slot `k`. -/
def cell (disk : Disk) (d : Dinode) (k : ℕ) : Block :=
  if slot disk d k = 0 then 0 else disk (slot disk d k)

/-- Every block below the size of the inode is there. -/
def HoleFree (disk : Disk) (d : Dinode) : Prop :=
  d.size.toNat ≤ MAXFILE * BSIZE ∧
    ∀ bn, bn * BSIZE < d.size.toNat → slot disk d (blockSlot bn) ≠ 0

variable {disk disk' : Disk} {d : Dinode} {k b : ℕ}

theorem slot_of_le (hk : k ≤ NDIRECT) : slot disk d k = addr d k := if_pos hk

theorem blockSlot_ne (bn : ℕ) : blockSlot bn ≠ NDIRECT := by
  unfold blockSlot
  split <;> omega

theorem blockSlot_inj {bn bn' : ℕ} (h : blockSlot bn = blockSlot bn') : bn = bn' := by
  simp only [blockSlot] at h
  split at h <;> split at h <;> omega

theorem slot_of_ge (hk : NSLOTS ≤ k) : slot disk d k = 0 := by
  have h1 : ¬ k ≤ NDIRECT := by
    simp only [NSLOTS] at hk
    omega
  rw [slot, if_neg h1, if_neg (fun h => absurd h.1 (by omega))]

theorem slot_congr (h : addr d NDIRECT ≠ 0 → disk' (addr d NDIRECT) = disk (addr d NDIRECT)) :
    slot disk' d k = slot disk d k := by
  unfold slot
  by_cases hk : k ≤ NDIRECT
  · rw [if_pos hk, if_pos hk]
  · rw [if_neg hk, if_neg hk]
    by_cases hc : k < NSLOTS ∧ addr d NDIRECT ≠ 0
    · rw [if_pos hc, if_pos hc, h hc.2]
    · rw [if_neg hc, if_neg hc]

end Slots

section Nodes

/-- An inode as its users see it: no block numbers, and no bytes past the size. -/
@[ext] structure Node where
  type : BitVec 16
  major : BitVec 16
  minor : BitVec 16
  nlink : BitVec 16
  size : ℕ
  byte : ℕ → Byte

namespace Node

/-- An inode that is not in use. -/
def free : Node := ⟨0, 0, 0, 0, 0, fun _ => 0⟩

/-- The inode without its contents. -/
def truncated (x : Node) : Node := { x with size := 0, byte := fun _ => 0 }

/-- The directory entry `k`. -/
def entry (x : Node) (k : ℕ) : Dirent :=
  Dirent.ofBytes ((List.range DESIZE).map (fun i => x.byte (DESIZE * k + i)))

end Node

def node (disk : Disk) (d : Dinode) : Node where
  type := d.type
  major := d.major
  minor := d.minor
  nlink := d.nlink
  size := d.size.toNat
  byte := fun o =>
    if o < d.size.toNat then byte (cell disk d (blockSlot (o / BSIZE))) (o % BSIZE) else 0

/-- The inodes in use. -/
def Used (sb : Superblock) (L : ℕ → Dinode) (n : ℕ) : Prop := n < sb.ninodes ∧ (L n).type ≠ 0

instance (sb : Superblock) (L : ℕ → Dinode) (n : ℕ) : Decidable (Used sb L n) := by
  unfold Used
  infer_instance

def nodes (sb : Superblock) (disk : Disk) (L : ℕ → Dinode) (n : ℕ) : Node :=
  if n < sb.ninodes ∧ (L n).type ≠ 0 then node disk (L n) else .free

variable {sb : Superblock} {disk disk' : Disk} {L L' : ℕ → Dinode} {d d' : Dinode} {n : ℕ}

theorem node_congr (hfields : d'.type = d.type ∧ d'.major = d.major ∧ d'.minor = d.minor ∧
      d'.nlink = d.nlink ∧ d'.size = d.size)
    (hcell : ∀ k ≠ NDIRECT, cell disk' d' k = cell disk d k) : node disk' d' = node disk d := by
  obtain ⟨h1, h2, h3, h4, h5⟩ := hfields
  simp only [node, h1, h2, h3, h4, h5, hcell _ (blockSlot_ne _)]

theorem nodes_of_used (h : Used sb L n) : nodes sb disk L n = node disk (L n) := if_pos h

theorem nodes_of_not_used (h : ¬ Used sb L n) : nodes sb disk L n = .free := if_neg h

theorem nodes_type (n : ℕ) (hn : n < sb.ninodes) : (nodes sb disk L n).type = (L n).type := by
  by_cases h : Used sb L n
  · rw [nodes_of_used h]
    rfl
  · rw [nodes_of_not_used h]
    simp only [Used, not_and, not_not] at h
    exact (h hn).symm

theorem used_of_type (h : (nodes sb disk L n).type ≠ 0) : Used sb L n := by
  by_contra hn
  rw [nodes_of_not_used hn] at h
  exact h rfl

end Nodes

section Blocks

/-- The slots of all inodes in use. -/
def slots (sb : Superblock) (disk : Disk) (L : ℕ → Dinode) (x : ℕ × ℕ) : ℕ :=
  if Used sb L x.1 then slot disk (L x.1) x.2 else 0

/-- The blocks are owned as the bitmap says, and every inode outside of `holey` has all its
blocks. -/
structure Blocks (sb : Superblock) (holey : Set ℕ) (disk : Disk) (L : ℕ → Dinode) : Prop where
  owns : AllocMap (slots sb disk L) (bit sb disk) sb.IsData
  metadata : ∀ b < sb.nmeta, bit sb disk b = true
  full : ∀ n, Used sb L n → n ∉ holey → HoleFree disk (L n)
  size_le : ∀ n, Used sb L n → (L n).size.toNat ≤ MAXFILE * BSIZE

end Blocks

end Xv6.Fs
