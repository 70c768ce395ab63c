import Xv6.Prog
import Xv6.Log
import Xv6.SysMem
import Xv6.FsLayout

/-! The file system (kernel/fs.c) as programs that run one at a time: blocks, inodes and their
contents, directories and path names. `disk` is the disk as the buffer cache shows it. Sleeping
where nobody can wake the caller stops the program with `blocked`. -/
namespace Xv6.Fs

export UserVm (NPROC NOFILE NFILE FileType)

def ROOTDEV : ℕ := 1

def ROOTINO : ℕ := 1

def DIRSIZ : ℕ := 14

def T_DIR : BitVec 16 := 1

def T_FILE : BitVec 16 := 2

def T_DEVICE : BitVec 16 := 3

section State

inductive Panic where
  | tooBig
  | outsideTrans
  | freeingFree
  | noInodes
  | ilock
  | noType
  | iunlock
  | bmapRange
  | dirlookupNotDir
  | dirlookupRead
  | dirlinkRead
  | isdiremptyRead
  | unlinkNlink
  | unlinkWritei
  | filedup
  | fileclose
  | fileread
  | filewrite
  | initExiting
  /-- the process has no current directory -/
  | noCwd
  /-- the process sleeps for ever -/
  | blocked
  deriving DecidableEq, Repr

/-- `struct file`; `ip` is an index of the inode table. Pipes are not part of this model. -/
structure File where
  type : FileType
  ref : ℕ
  readable : Bool
  writable : Bool
  ip : ℕ
  off : ℕ
  major : BitVec 16

structure Proc where
  ofile : ℕ → Option ℕ
  cwd : Option ℕ

/-- `lh` is the list of blocks in the log header and `outstanding` the number of operations, as in
log.c. Ghost state: `commits` has, for each `end_op` so far, the blocks it committed. -/
structure St where
  disk : Disk
  itable : ℕ → Inode
  file : ℕ → File
  proc : ℕ → Proc
  lh : List ℕ
  outstanding : ℕ
  commits : List (List ℕ)

abbrev Op (α : Type) := Prog Panic St α

namespace St

def setInode (s : St) (i : ℕ) (x : Inode) : St := { s with itable := update s.itable i x }

def setCopy (s : St) (i : ℕ) (d : Dinode) : St := s.setInode i { s.itable i with copy := d }

def setFile (s : St) (f : ℕ) (x : File) : St := { s with file := update s.file f x }

def setProc (s : St) (p : ℕ) (x : Proc) : St := { s with proc := update s.proc p x }

end St

/-- `ip->...`, the copy of the disk inode in the table. -/
def copyOf (i : ℕ) : Op Dinode := do
  let s ← get
  pure (s.itable i).copy

def setCopy (i : ℕ) (d : Dinode) : Op Unit := modify (fun s => s.setCopy i d)

/-- `if(c) m` -/
def onlyIf (c : Prop) [Decidable c] (m : Op Unit) : Op Unit := if c then m else pure ()

def setBlock (b : ℕ) (data : Block) : Op Unit :=
  modify (fun s => { s with disk := update s.disk b data })

end State

section Log

def beginOp : Op Unit := do
  let s ← get
  if LOGBLOCKS < s.lh.length + (s.outstanding + 1) * MAXOPBLOCKS then throw .blocked
  else set { s with outstanding := s.outstanding + 1 }

/-- `end_op`, with the commit when no operation is left. -/
def endOp : Op Unit := do
  let s ← get
  if s.outstanding - 1 = 0 then
    set { s with outstanding := 0, lh := [], commits := s.commits ++ [s.lh] }
  else set { s with outstanding := s.outstanding - 1 }

def logWrite (b : ℕ) : Op Unit := do
  let s ← get
  if LOGBLOCKS ≤ s.lh.length then throw .tooBig
  else if s.outstanding < 1 then throw .outsideTrans
  else if b ∈ s.lh then pure ()
  else set { s with lh := s.lh ++ [b] }

end Log

section Blocks

variable (sb : Superblock)

def bzero (bno : ℕ) : Op Unit := do
  setBlock bno 0
  logWrite bno

/-- The two loops of `balloc` visit the blocks below `sb.size` in order. -/
def balloc : Op ℕ := do
  let s ← get
  match (List.range sb.size).find? (fun b => !bit sb s.disk b) with
  | none => pure 0
  | some b => do
    modify (fun s => { s with disk := setBit sb s.disk b true })
    logWrite (sb.bblock b)
    bzero b
    pure b

def bfree (b : ℕ) : Op Unit := do
  let s ← get
  if bit sb s.disk b = false then throw .freeingFree
  else do
    modify (fun s => { s with disk := setBit sb s.disk b false })
    logWrite (sb.bblock b)

end Blocks

section Inodes

variable (sb : Superblock) (p : ℕ)

def iupdate (ip : ℕ) : Op Unit := do
  modify (fun s => { s with disk := setDinode sb s.disk (s.itable ip).inum (s.itable ip).copy })
  let s ← get
  logWrite (sb.iblock (s.itable ip).inum)

def iget (dev inum : ℕ) : Op ℕ := do
  let s ← get
  match scan s.itable dev inum (List.range NINODE) none with
  | .hit i => do
    set (s.setInode i { s.itable i with ref := (s.itable i).ref + 1 })
    pure i
  | .empty i => do
    set (s.setInode i { s.itable i with dev := dev, inum := inum, ref := 1, valid := false })
    pure i
  | .full => throw .noInodes

def ialloc (dev : ℕ) (type : BitVec 16) : Op (Option ℕ) := do
  let s ← get
  match (List.range' 1 (sb.ninodes - 1)).find? (fun inum => (dinode sb s.disk inum).type = 0) with
  | none => pure none
  | some inum => do
    modify (fun s => { s with disk := setDinode sb s.disk inum { Dinode.zero with type := type } })
    logWrite (sb.iblock inum)
    let ip ← iget dev inum
    pure (some ip)

def idup (ip : ℕ) : Op ℕ := do
  modify (fun s => s.setInode ip { s.itable ip with ref := (s.itable ip).ref + 1 })
  pure ip

def acquiresleep (ip : ℕ) : Op Unit := do
  let s ← get
  if (s.itable ip).lock = none then set (s.setInode ip { s.itable ip with lock := some p })
  else throw .blocked

def releasesleep (ip : ℕ) : Op Unit :=
  modify (fun s => s.setInode ip { s.itable ip with lock := none })

def ilock (ip : ℕ) : Op Unit := do
  let s ← get
  if (s.itable ip).ref < 1 then throw .ilock
  else do
    acquiresleep p ip
    let s ← get
    if (s.itable ip).valid = true then pure ()
    else do
      let d := dinode sb s.disk (s.itable ip).inum
      set (s.setInode ip { s.itable ip with copy := d, valid := true })
      if d.type = 0 then throw .noType else pure ()

def iunlock (ip : ℕ) : Op Unit := do
  let s ← get
  if (s.itable ip).lock ≠ some p ∨ (s.itable ip).ref < 1 then throw .iunlock
  else releasesleep ip

end Inodes

section Content

variable (sb : Superblock) (p : ℕ)

/-- The entry `bn` of the indirect block `ind`, allocated if it is missing. -/
def bmapIndirect (ind bn : ℕ) : Op ℕ := do
  let s ← get
  let a := (word (s.disk ind) bn).toNat
  if a ≠ 0 then pure a
  else do
    let b ← balloc sb
    if b = 0 then pure 0
    else do
      modify (fun s => { s with
        disk := update s.disk ind (setWord (s.disk ind) bn (BitVec.ofNat 32 b)) })
      logWrite ind
      pure b

/-- The block in `addrs[k]`, allocated if it is missing. -/
def bmapDirect (ip k : ℕ) : Op ℕ := do
  let d ← copyOf ip
  if addr d k ≠ 0 then pure (addr d k)
  else do
    let b ← balloc sb
    if b = 0 then pure 0
    else do
      modify (fun s => s.setCopy ip (setAddr (s.itable ip).copy k b))
      pure b

def bmap (ip bn : ℕ) : Op ℕ :=
  if bn < NDIRECT then bmapDirect sb ip bn
  else if bn - NDIRECT < NINDIRECT then do
    let ind ← bmapDirect sb ip NDIRECT
    if ind = 0 then pure 0 else bmapIndirect sb ind (bn - NDIRECT)
  else throw .bmapRange

/-- The loop of `itrunc` over the direct blocks. -/
def itruncDirect (ip : ℕ) : Op Unit :=
  loop (fun i => do
    let d ← copyOf ip
    if addr d i ≠ 0 then do
      bfree sb (addr d i)
      modify (fun s => s.setCopy ip (setAddr (s.itable ip).copy i 0))
    else pure ()) NDIRECT 0

/-- The part of `itrunc` for the indirect block. -/
def itruncIndirect (ip : ℕ) : Op Unit := do
  let d ← copyOf ip
  if addr d NDIRECT ≠ 0 then do
    loop (fun j => do
      let s ← get
      let a := (word (s.disk (addr d NDIRECT)) j).toNat
      if a ≠ 0 then bfree sb a else pure ()) NINDIRECT 0
    bfree sb (addr d NDIRECT)
    modify (fun s => s.setCopy ip (setAddr (s.itable ip).copy NDIRECT 0))
  else pure ()

def itrunc (ip : ℕ) : Op Unit := do
  itruncDirect sb ip
  itruncIndirect sb ip
  modify (fun s => s.setCopy ip { (s.itable ip).copy with size := 0 })
  iupdate sb ip

/-- The part of `iput` that frees the inode on disk, if this was the last reference to an inode
without links. -/
def ifree (ip : ℕ) : Op Unit := do
  let s ← get
  if (s.itable ip).ref = 1 ∧ (s.itable ip).valid = true ∧ (s.itable ip).copy.nlink = 0 then do
    acquiresleep p ip
    itrunc sb ip
    modify (fun s => s.setCopy ip { (s.itable ip).copy with type := 0 })
    iupdate sb ip
    modify (fun s => s.setInode ip { s.itable ip with valid := false })
    releasesleep ip
  else pure ()

def iput (ip : ℕ) : Op Unit := do
  ifree sb p ip
  modify (fun s => s.setInode ip { s.itable ip with ref := (s.itable ip).ref - 1 })

def iunlockput (ip : ℕ) : Op Unit := do
  iunlock p ip
  iput sb p ip

/-- The loop of `readi` with `tot` bytes done. `dst i` says whether the destination of byte `i` can
be written. The result is the return value and the bytes that were stored. -/
def readLoop (ip : ℕ) (dst : ℕ → Bool) (off n : ℕ) : ℕ → ℕ → List Byte → Op (ℤ × List Byte)
  | 0, tot, out => pure (tot, out)
  | fuel + 1, tot, out =>
    if tot < n then do
      let a ← bmap sb ip ((off + tot) / BSIZE)
      if a = 0 then pure (tot, out)
      else do
        let s ← get
        let m := min (n - tot) (BSIZE - (off + tot) % BSIZE)
        let bytes := (List.range m).map (fun i => byte (s.disk a) ((off + tot) % BSIZE + i))
        if (List.range m).all (fun i => dst (tot + i)) then
          readLoop ip dst off n fuel (tot + m) (out ++ bytes)
        else
          -- `either_copyout` stores what is before the first bad address
          pure (-1, out ++ bytes.take ((List.range m).takeWhile (fun i => dst (tot + i))).length)
    else pure (tot, out)

/-- `readi`; `off` and `n` are unsigned. -/
def readi (ip : ℕ) (dst : ℕ → Bool) (off n : ℕ) : Op (ℤ × List Byte) := do
  let d ← copyOf ip
  if d.size.toNat < off ∨ (off + n) % 2 ^ 32 < off then pure (0, [])
  else
    let n := if d.size.toNat < off + n then d.size.toNat - off else n
    readLoop sb ip dst off n n 0 []

/-- `either_copyin`: the bytes from `src` up to the first that cannot be read. -/
def copyBytes (b : Block) (o : ℕ) (src : ℕ → Option Byte) : ℕ → ℕ → Block × Bool
  | 0, _ => (b, true)
  | m + 1, i =>
    match src i with
    | none => (b, false)
    | some v => copyBytes (setByte b (o + i) v) o src m (i + 1)

/-- The loop of `writei`; `src i` is the byte `i` of the source, if it can be read. -/
def writeLoop (ip : ℕ) (src : ℕ → Option Byte) (off n : ℕ) : ℕ → ℕ → Op ℕ
  | 0, tot => pure tot
  | fuel + 1, tot =>
    if tot < n then do
      let a ← bmap sb ip ((off + tot) / BSIZE)
      if a = 0 then pure tot
      else do
        let s ← get
        let m := min (n - tot) (BSIZE - (off + tot) % BSIZE)
        let r := copyBytes (s.disk a) ((off + tot) % BSIZE) (fun i => src (tot + i)) m 0
        setBlock a r.1
        if r.2 then do
          logWrite a
          writeLoop ip src off n fuel (tot + m)
        else pure tot
    else pure tot

def writei (ip : ℕ) (src : ℕ → Option Byte) (off n : ℕ) : Op ℤ := do
  let d ← copyOf ip
  if d.size.toNat < off ∨ (off + n) % 2 ^ 32 < off then pure (-1)
  else if MAXFILE * BSIZE < off + n then pure (-1)
  else do
    let tot ← writeLoop sb ip src off n n 0
    modify (fun s =>
      if (s.itable ip).copy.size.toNat < off + tot then
        s.setCopy ip { (s.itable ip).copy with size := BitVec.ofNat 32 (off + tot) }
      else s)
    iupdate sb ip
    pure tot

end Content

section Directories

variable (sb : Superblock) (p : ℕ)

/-- A path element or the name in a directory entry: the characters before the NUL. -/
abbrev Name := List Byte

structure Dirent where
  inum : BitVec 16
  name : Name

/-- `sizeof(struct dirent)` -/
def DESIZE : ℕ := 16

def Dirent.ofBytes (bs : List Byte) : Dirent where
  inum := (bs.getD 1 0).append (bs.getD 0 0)
  name := (List.range DIRSIZ).map (fun i => bs.getD (i + 2) 0)

/-- The bytes of an entry; a shorter name is padded. -/
def Dirent.toByte (de : Dirent) : ℕ → Byte
  | 0 => de.inum.setWidth 8
  | 1 => de.inum.extractLsb' 8 8
  | i + 2 => de.name.getD i 0

/-- An array of characters is read as 0 past its end. -/
def strncmp : ℕ → Name → Name → ℤ
  | 0, _, _ => 0
  | n + 1, s, t =>
    if s.headD 0 ≠ 0 ∧ s.headD 0 = t.headD 0 then strncmp n s.tail t.tail
    else ((s.headD 0).toNat : ℤ) - (t.headD 0).toNat

def namecmp (s t : Name) : ℤ := strncmp DIRSIZ s t

/-- What `strncpy(de.name, name, DIRSIZ)` leaves in `de.name`. -/
def strncpy (n : ℕ) (t : Name) : Name :=
  (List.range n).map (fun i => (t.takeWhile (fun c => c ≠ 0)).getD i 0)

/-- `readi` of one entry into kernel memory. -/
def readDirent (ip off : ℕ) (e : Panic) : Op Dirent := do
  let r ← readi sb ip (fun _ => true) off DESIZE
  if r.1 ≠ DESIZE then throw e else pure (Dirent.ofBytes r.2)

/-- The loop of `dirlookup` over the entries that are left; the second part is `*poff`. -/
def dirlookupLoop (dp : ℕ) (name : Name) : List ℕ → Op (Option (ℕ × ℕ))
  | [] => pure none
  | k :: ks => do
    let de ← readDirent sb dp (DESIZE * k) .dirlookupRead
    if de.inum = 0 then dirlookupLoop dp name ks
    else if namecmp name de.name = 0 then do
      let s ← get
      let ip ← iget (s.itable dp).dev de.inum.toNat
      pure (some (ip, DESIZE * k))
    else dirlookupLoop dp name ks

/-- The number of entries that a loop over a directory visits. -/
def entries (d : Dinode) : ℕ := (d.size.toNat + DESIZE - 1) / DESIZE

def dirlookup (dp : ℕ) (name : Name) : Op (Option (ℕ × ℕ)) := do
  let d ← copyOf dp
  if d.type ≠ T_DIR then throw .dirlookupNotDir
  else dirlookupLoop sb dp name (List.range (entries d))

/-- The loop of `dirlink` that looks for an empty entry, from the entry `k` on. -/
def emptyDirent (dp : ℕ) : ℕ → ℕ → Op ℕ
  | 0, k => pure (DESIZE * k)
  | n + 1, k => do
    let de ← readDirent sb dp (DESIZE * k) .dirlinkRead
    if de.inum = 0 then pure (DESIZE * k) else emptyDirent dp n (k + 1)

/-- `dirlink`; the result is whether it returned 0. -/
def dirlink (dp : ℕ) (name : Name) (inum : ℕ) : Op Bool := do
  match ← dirlookup sb dp name with
  | some (ip, _) => do
    iput sb p ip
    pure false
  | none => do
    let d ← copyOf dp
    let off ← emptyDirent sb dp (entries d) 0
    let de : Dirent := ⟨BitVec.ofNat 16 inum, strncpy DIRSIZ name⟩
    let r ← writei sb dp (fun i => some (de.toByte i)) off DESIZE
    pure (r = DESIZE)

end Directories

section Paths

variable (sb : Superblock) (p : ℕ)

def slash : Byte := 47

/-- A string that `argstr` accepts. -/
structure Path where
  chars : List Byte
  noNul : 0 ∉ chars
  length_lt : chars.length < MAXPATH

def skipelem (path : List Byte) : Option (Name × List Byte) :=
  let path := path.dropWhile (fun c => c = slash)
  if path = [] then none
  else
    let s := path.takeWhile (fun c => c ≠ slash)
    some (s.take DIRSIZ, (path.dropWhile (fun c => c ≠ slash)).dropWhile (fun c => c = slash))

/-- The elements that the loop of `namex` gets from `skipelem`, at most `n`. -/
def elemsUpTo : ℕ → List Byte → List Name
  | 0, _ => []
  | n + 1, path =>
    match skipelem path with
    | none => []
    | some (name, rest) => name :: elemsUpTo n rest

/-- Every element has a character of the path, so this is all of them. -/
def elems (path : List Byte) : List Name := elemsUpTo path.length path

/-- The loop of `namex` with the elements that are left. -/
def namexLoop (nameiparent : Bool) : ℕ → List Name → Op (Option (ℕ × Name))
  | ip, [] =>
    if nameiparent then do
      iput sb p ip
      pure none
    else pure (some (ip, []))
  | ip, name :: rest => do
    ilock sb p ip
    let d ← copyOf ip
    if d.type ≠ T_DIR then do
      iunlockput sb p ip
      pure none
    else if nameiparent = true ∧ rest = [] then do
      -- stop one level early
      iunlock p ip
      pure (some (ip, name))
    else do
      match ← dirlookup sb ip name with
      | none => do
        iunlockput sb p ip
        pure none
      | some (next, _) => do
        iunlockput sb p ip
        namexLoop nameiparent next rest

/-- Where `namex` starts. -/
def namexStart (path : Path) : Op ℕ :=
  if path.chars.head? = some slash then iget ROOTDEV ROOTINO
  else do
    let s ← get
    match (s.proc p).cwd with
    | none => throw .noCwd
    | some cwd => idup cwd

def namex (path : Path) (nameiparent : Bool) : Op (Option (ℕ × Name)) := do
  let ip ← namexStart p path
  namexLoop sb p nameiparent ip (elems path.chars)

def namei (path : Path) : Op (Option ℕ) := do
  let r ← namex sb p path false
  pure (r.map Prod.fst)

def nameiparent (path : Path) : Op (Option (ℕ × Name)) := namex sb p path true

/-- The iteration of `ireclaim` for the inode `inum`. -/
def reclaim (inum : ℕ) : Op Unit := do
  let s ← get
  let d := dinode sb s.disk inum
  if d.type ≠ 0 ∧ d.nlink = 0 then do
    let ip ← iget ROOTDEV inum
    beginOp
    ilock sb p ip
    iunlock p ip
    iput sb p ip
    endOp
  else pure ()

def ireclaim : Op Unit := loop (reclaim sb p) (sb.ninodes - 1) 1

end Paths

end Xv6.Fs
