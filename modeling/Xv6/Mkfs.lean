import Xv6.FsSys

/-! The program that makes the first image of the file system (mkfs/mkfs.c), for a host whose
`lseek` and `write` do not fail and on which a `read` past the end of the image fails. -/
namespace Xv6.Mkfs

open Icache (Dinode NDIRECT)
open Fs (Superblock IPB BPB NINDIRECT MAXFILE DIRSIZ DESIZE ROOTINO T_DIR T_FILE Dirent addr setAddr
  dinode setDinode dot dotdot slash)

section Layout

def NINODES : ℕ := 200

def FSSIZE : ℕ := 2000

def nbitmap : ℕ := FSSIZE / BPB + 1

def ninodeblocks : ℕ := NINODES / IPB + 1

/-- The header of the log and its blocks. -/
def nlog : ℕ := LOGBLOCKS + 1

/-- Boot block, superblock, log, inodes and bitmap. -/
def nmeta : ℕ := 2 + nlog + ninodeblocks + nbitmap

def nblocks : ℕ := FSSIZE - nmeta

def FSMAGIC : BitVec 32 := 0x10203040

/-- `sb`, as far as fs.c uses it. -/
def sb : Superblock := ⟨FSSIZE, nblocks, NINODES, 2 + nlog, 2 + nlog + ninodeblocks⟩

/-- `struct superblock` in a block: magic, size, nblocks, ninodes, nlog, logstart, inodestart and
bmapstart. -/
def superblock : Block :=
  setWords (0 : Block) 0 (fun k => [FSMAGIC, BitVec.ofNat 32 sb.size, BitVec.ofNat 32 sb.nblocks,
    BitVec.ofNat 32 sb.ninodes, BitVec.ofNat 32 nlog, 2, BitVec.ofNat 32 sb.inodestart,
    BitVec.ofNat 32 sb.bmapstart].getD k 0) 8

end Layout

section State

/-- How the program ends other than by `exit(0)`: `assert` fails, or `die`. -/
inductive Stop where
  | nameWithSlash
  | nameTooLong
  | rootino
  /-- `assert(fbn < MAXFILE)` -/
  | fileTooBig
  /-- `assert(used < BPB)` -/
  | tooManyBlocks
  | dieOpen
  | dieRead
  deriving DecidableEq, Repr

/-- The image and the counters. `len` is the length of the image file in blocks. Ghost state: the
inodes and blocks handed out, and the blocks that `winode` and `iappend` wrote. -/
structure St where
  img : Disk
  len : ℕ
  freeinode : ℕ
  freeblock : ℕ
  inodes : List ℕ
  blocks : List ℕ
  inodeWrites : List ℕ
  dataWrites : List ℕ

abbrev Mk (α : Type) := Prog Stop St α

end State

section Sectors

def wsect (sec : ℕ) (buf : Block) : Mk Unit :=
  modify (fun s => { s with img := update s.img sec buf, len := max s.len (sec + 1) })

def rsect (sec : ℕ) : Mk Block := do
  let s ← get
  if sec < s.len then pure (s.img sec) else throw .dieRead

def rinode (inum : ℕ) : Mk Dinode := do
  let buf ← rsect (sb.iblock inum)
  pure (Fs.ofBits (getField buf (512 * (inum % IPB)) 512))

def winode (inum : ℕ) (din : Dinode) : Mk Unit := do
  let buf ← rsect (sb.iblock inum)
  wsect (sb.iblock inum) (setField buf (512 * (inum % IPB)) (Fs.toBits din))
  modify (fun s => { s with inodeWrites := s.inodeWrites ++ [sb.iblock inum] })

/-- `wsect` of a block that `iappend` fills. -/
def wdata (sec : ℕ) (buf : Block) : Mk Unit := do
  wsect sec buf
  modify (fun s => { s with dataWrites := s.dataWrites ++ [sec] })

def ialloc (type : BitVec 16) : Mk ℕ := do
  let s ← get
  set { s with freeinode := s.freeinode + 1, inodes := s.inodes ++ [s.freeinode] }
  winode s.freeinode { Dinode.zero with type := type, nlink := 1 }
  pure s.freeinode

/-- `freeblock++` -/
def takeBlock : Mk ℕ := do
  let s ← get
  set { s with freeblock := s.freeblock + 1, blocks := s.blocks ++ [s.freeblock] }
  pure s.freeblock

/-- The loop of `balloc`: a bit for each of the first `used` blocks. -/
def bitmap (used : ℕ) : Block :=
  (List.range used).foldl
    (fun buf i => setByte buf (i / 8) (byte buf (i / 8) ||| (1 : BitVec 8) <<< (i % 8))) 0

def balloc (used : ℕ) : Mk Unit :=
  if used < BPB then wsect sb.bmapstart (bitmap used) else throw .tooManyBlocks

end Sectors

section Append

/-- `bcopy(p, buf + o, p.length)` -/
def bcopy (buf : Block) (o : ℕ) : List (BitVec 8) → Block
  | [] => buf
  | v :: p => bcopy (setByte buf o v) (o + 1) p

/-- The block in `addrs[k]`, taken if it is missing. -/
def addrBlock (din : Dinode) (k : ℕ) : Mk (Dinode × ℕ) :=
  if addr din k = 0 then do
    let b ← takeBlock
    pure (setAddr din k b, b)
  else pure (din, addr din k)

/-- The block in the entry `j` of the indirect block `ind`, taken if it is missing. -/
def entryBlock (ind j : ℕ) : Mk ℕ := do
  let indirect ← rsect ind
  if word indirect j = 0 then do
    let b ← takeBlock
    wdata ind (setWord indirect j (BitVec.ofNat 32 b))
    pure b
  else pure (word indirect j).toNat

/-- The part of `iappend` that finds the block `fbn` of the file. -/
def fileBlock (din : Dinode) (fbn : ℕ) : Mk (Dinode × ℕ) :=
  if fbn < NDIRECT then addrBlock din fbn
  else do
    let (din, ind) ← addrBlock din NDIRECT
    let x ← entryBlock ind (fbn - NDIRECT)
    pure (din, x)

/-- The loop of `iappend` with the bytes `p` left; each round takes one of them at least. -/
def appendLoop : ℕ → Dinode → ℕ → List (BitVec 8) → Mk (Dinode × ℕ)
  | 0, din, off, _ => pure (din, off)
  | fuel + 1, din, off, p =>
    if p = [] then pure (din, off)
    else if off / BSIZE < MAXFILE then do
      let (din, x) ← fileBlock din (off / BSIZE)
      let n1 := min p.length ((off / BSIZE + 1) * BSIZE - off)
      let buf ← rsect x
      wdata x (bcopy buf (off - off / BSIZE * BSIZE) (p.take n1))
      appendLoop fuel din (off + n1) (p.drop n1)
    else throw .fileTooBig

def iappend (inum : ℕ) (p : List (BitVec 8)) : Mk Unit := do
  let din ← rinode inum
  let (din, off) ← appendLoop p.length din din.size.toNat p
  winode inum { din with size := BitVec.ofNat 32 off }

end Append

section Main

/-- A file on the command line: its name, and what the calls of `read` return before the one that
returns 0, or `none` if it cannot be opened. -/
structure Input where
  arg : List (BitVec 8)
  noNul : 0 ∉ arg
  reads : Option (List (List (BitVec 8)))
  reads_le : ∀ cs, reads = some cs → ∀ c ∈ cs, c ≠ [] ∧ c.length ≤ BSIZE

def userDir : List (BitVec 8) := [117, 115, 101, 114, 47]

def underscore : BitVec 8 := 95

/-- The name without "user/" in front. -/
def Input.base (f : Input) : List (BitVec 8) := if userDir <+: f.arg then f.arg.drop 5 else f.arg

/-- `shortname`: without the leading '_' also. -/
def Input.shortname (f : Input) : List (BitVec 8) :=
  if f.base.head? = some underscore then f.base.tail else f.base

/-- The 16 bytes of a directory entry. -/
def direntBytes (de : Dirent) : List (BitVec 8) := (List.range DESIZE).map de.toByte

/-- `de` for the inode `inum` with the name `name`. -/
def makeDirent (inum : ℕ) (name : List (BitVec 8)) : Dirent :=
  ⟨BitVec.ofNat 16 inum, Fs.strncpy DIRSIZ name⟩

/-- `while((cc = read(fd, buf, sizeof(buf))) > 0) iappend(inum, buf, cc);` -/
def appendAll (inum : ℕ) : List (List (BitVec 8)) → Mk Unit
  | [] => pure ()
  | c :: cs => do
    iappend inum c
    appendAll inum cs

/-- The body of the loop of `main` over the files. -/
def addFile (rootino : ℕ) (f : Input) : Mk Unit :=
  if slash ∈ f.base then throw .nameWithSlash
  else
    match f.reads with
    | none => throw .dieOpen
    | some cs =>
      if f.shortname.length ≤ DIRSIZ then do
        let inum ← ialloc T_FILE
        iappend rootino (direntBytes (makeDirent inum f.shortname))
        appendAll inum cs
      else throw .nameTooLong

def addFiles (rootino : ℕ) : List Input → Mk Unit
  | [] => pure ()
  | f :: fs => do
    addFile rootino f
    addFiles rootino fs

/-- "fix size of root inode dir" -/
def fixRoot (rootino : ℕ) : Mk Unit := do
  let din ← rinode rootino
  winode rootino { din with size := BitVec.ofNat 32 ((din.size.toNat / BSIZE + 1) * BSIZE) }

/-- `for(i = 0; i < n; i++) wsect(i, zeroes);` -/
@[irreducible] def zeroes (n : ℕ) : Mk Unit := loop (fun i => wsect i 0) n 0

def main (files : List Input) : Mk Unit := do
  modify (fun s => { s with freeblock := nmeta })
  zeroes FSSIZE
  wsect 1 superblock
  let rootino ← ialloc T_DIR
  if rootino ≠ ROOTINO then throw .rootino
  else do
    iappend rootino (direntBytes (makeDirent rootino dot))
    iappend rootino (direntBytes (makeDirent rootino dotdot))
    addFiles rootino files
    fixRoot rootino
    let s ← get
    balloc s.freeblock

/-- When `main` starts: the image file is empty. -/
def start : St := ⟨fun _ => 0, 0, 1, 0, [], [], [], []⟩

end Main

end Xv6.Mkfs
