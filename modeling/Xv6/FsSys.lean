import Xv6.Exec
import Xv6.Fs

/-! The system calls on files (kernel/file.c, kernel/sysfile.c) and what `fork`, `exec` and `exit`
do with files and directories. One call runs at a time, by the process `p`. Pipes, the console and
the memory of a program are not part of this model. -/
namespace Xv6.Fs

def NDEV : ℕ := 10

def O_RDONLY : BitVec 32 := 0x000

def O_WRONLY : BitVec 32 := 0x001

def O_RDWR : BitVec 32 := 0x002

def O_CREATE : BitVec 32 := 0x200

def O_TRUNC : BitVec 32 := 0x400

section Files

variable (sb : Superblock) (p : ℕ)

def filealloc : Op (Option ℕ) := do
  let s ← get
  match (List.range NFILE).find? (fun f => (s.file f).ref = 0) with
  | none => pure none
  | some f => do
    set (s.setFile f { s.file f with ref := 1 })
    pure (some f)

def filedup (f : ℕ) : Op ℕ := do
  let s ← get
  if (s.file f).ref < 1 then throw .filedup
  else do
    set (s.setFile f { s.file f with ref := (s.file f).ref + 1 })
    pure f

def fileclose (f : ℕ) : Op Unit := do
  let s ← get
  let ff := s.file f
  if ff.ref < 1 then throw .fileclose
  else if 0 < ff.ref - 1 then set (s.setFile f { ff with ref := ff.ref - 1 })
  else do
    set (s.setFile f { ff with ref := 0, type := .FD_NONE })
    if ff.type = .FD_INODE ∨ ff.type = .FD_DEVICE then do
      beginOp
      iput sb p ff.ip
      endOp
    else pure ()

/-- `fileread`; a read from a device or a pipe leaves the file system alone. `n` is an `int` that
`readi` takes as unsigned. -/
def fileread (f : ℕ) (dst : ℕ → Bool) (n : ℤ) : Op (ℤ × List Byte) := do
  let s ← get
  let ff := s.file f
  if ff.readable = false then pure (-1, [])
  else match ff.type with
    | .FD_PIPE | .FD_DEVICE => pure (0, [])
    | .FD_NONE => throw .fileread
    | .FD_INODE => do
      ilock sb p ff.ip
      let r ← readi sb ff.ip dst ff.off (n % 2 ^ 32).toNat
      modify (fun s =>
        if 0 < r.1 then s.setFile f { s.file f with off := (s.file f).off + r.1.toNat } else s)
      iunlock p ff.ip
      pure r

/-- `max` in `filewrite` -/
def maxChunk : ℕ := (MAXOPBLOCKS - 1 - 1 - 2) / 2 * BSIZE

/-- One iteration of the loop of `filewrite`: `n1` bytes from byte `i` of the source. -/
def writeChunk (f : ℕ) (src : ℕ → Option Byte) (i n1 : ℕ) : Op ℤ := do
  let s ← get
  let ip := (s.file f).ip
  beginOp
  ilock sb p ip
  let s ← get
  let r ← writei sb ip (fun k => src (i + k)) (s.file f).off n1
  modify (fun s =>
    if 0 < r then s.setFile f { s.file f with off := (s.file f).off + r.toNat } else s)
  iunlock p ip
  endOp
  pure r

/-- The loop of `filewrite`; the result is `i` after it. -/
def chunks (f : ℕ) (src : ℕ → Option Byte) (n : ℕ) : ℕ → ℕ → Op ℕ
  | 0, i => pure i
  | fuel + 1, i =>
    if i < n then do
      let n1 := min (n - i) maxChunk
      let r ← writeChunk sb p f src i n1
      if r ≠ n1 then pure i else chunks f src n fuel (i + n1)
    else pure i

/-- `filewrite`; a write to a device or a pipe leaves the file system alone. -/
def filewrite (f : ℕ) (src : ℕ → Option Byte) (n : ℤ) : Op ℤ := do
  let s ← get
  let ff := s.file f
  if ff.writable = false then pure (-1)
  else match ff.type with
    | .FD_PIPE | .FD_DEVICE => pure 0
    | .FD_NONE => throw .filewrite
    | .FD_INODE => do
      let i ← chunks sb p f src n.toNat n.toNat 0
      pure (if (i : ℤ) = n then n else -1)

end Files

section Calls

variable (sb : Superblock) (p : ℕ)

def argfd (fd : ℤ) : Op (Option ℕ) := do
  let s ← get
  pure (if fd < 0 ∨ (NOFILE : ℤ) ≤ fd then none else (s.proc p).ofile fd.toNat)

def setOfile (q fd : ℕ) (o : Option ℕ) : Op Unit :=
  modify (fun s => s.setProc q { s.proc q with ofile := update (s.proc q).ofile fd o })

def fdalloc (f : ℕ) : Op (Option ℕ) := do
  let s ← get
  match (List.range NOFILE).find? (fun fd => (s.proc p).ofile fd = none) with
  | none => pure none
  | some fd => do
    setOfile p fd (some f)
    pure (some fd)

def sysDup (fd : ℤ) : Op ℤ := do
  match ← argfd p fd with
  | none => pure (-1)
  | some f => do
    match ← fdalloc p f with
    | none => pure (-1)
    | some fd => do
      let _ ← filedup f
      pure fd

def sysRead (fd : ℤ) (dst : ℕ → Bool) (n : ℤ) : Op (ℤ × List Byte) := do
  match ← argfd p fd with
  | none => pure (-1, [])
  | some f => fileread sb p f dst n

def sysWrite (fd : ℤ) (src : ℕ → Option Byte) (n : ℤ) : Op ℤ := do
  match ← argfd p fd with
  | none => pure (-1)
  | some f => filewrite sb p f src n

def sysClose (fd : ℤ) : Op ℤ := do
  match ← argfd p fd with
  | none => pure (-1)
  | some f => do
    setOfile p fd.toNat none
    fileclose sb p f
    pure 0

/-- `ip->nlink = v; iupdate(ip)` -/
def setNlink (ip : ℕ) (v : BitVec 16 → BitVec 16) : Op Unit := do
  modify (fun s => s.setCopy ip { (s.itable ip).copy with nlink := v (s.itable ip).copy.nlink })
  iupdate sb ip

def linkBad (ip : ℕ) : Op ℤ := do
  ilock sb p ip
  setNlink sb ip (fun n => n - 1)
  iunlockput sb p ip
  endOp
  pure (-1)

/-- `sys_link` once the inode `ip` has its new link. -/
def linkTo (ip : ℕ) (new : Path) : Op ℤ := do
  match ← nameiparent sb p new with
  | none => linkBad sb p ip
  | some (dp, name) => do
    ilock sb p dp
    let s ← get
    if (s.itable dp).dev ≠ (s.itable ip).dev then do
      iunlockput sb p dp
      linkBad sb p ip
    else if ← dirlink sb p dp name (s.itable ip).inum then do
      iunlockput sb p dp
      iput sb p ip
      endOp
      pure 0
    else do
      iunlockput sb p dp
      linkBad sb p ip

def sysLink (old new : Option Path) : Op ℤ :=
  match old, new with
  | some old, some new => do
    beginOp
    match ← namei sb p old with
    | none => do
      endOp
      pure (-1)
    | some ip => do
      ilock sb p ip
      let d ← copyOf ip
      if d.type = T_DIR then do
        iunlockput sb p ip
        endOp
        pure (-1)
      else do
        setNlink sb ip (fun n => n + 1)
        iunlock p ip
        linkTo sb p ip new
  | _, _ => pure (-1)

/-- The loop of `isdirempty`, from the entry `k` on. -/
def isdiremptyLoop (dp : ℕ) : ℕ → ℕ → Op Bool
  | 0, _ => pure true
  | n + 1, k => do
    let de ← readDirent sb dp (DESIZE * k) .isdiremptyRead
    if de.inum ≠ 0 then pure false else isdiremptyLoop dp n (k + 1)

def isdirempty (dp : ℕ) : Op Bool := do
  let d ← copyOf dp
  isdiremptyLoop sb dp (entries d - 2) 2

def dot : Name := [46]

def dotdot : Name := [46, 46]

/-- `sys_unlink` once the entry at `off` of `dp` is known to be removed; both inodes are locked. -/
def unlinkEntry (dp ip off : ℕ) : Op ℤ := do
  let r ← writei sb dp (fun _ => some 0) off DESIZE
  if r ≠ DESIZE then throw .unlinkWritei
  else do
    let d ← copyOf ip
    onlyIf (d.type = T_DIR) (setNlink sb dp (fun n => n - 1))
    iunlockput sb p dp
    setNlink sb ip (fun n => n - 1)
    iunlockput sb p ip
    endOp
    pure 0

def unlinkBad (dp : ℕ) : Op ℤ := do
  iunlockput sb p dp
  endOp
  pure (-1)

/-- Whether `ip` is a directory that is not empty. -/
def busyDir (ip : ℕ) : Op Bool := do
  let d ← copyOf ip
  if d.type = T_DIR then do
    let e ← isdirempty sb ip
    pure !e
  else pure false

def sysUnlink (path : Option Path) : Op ℤ :=
  match path with
  | none => pure (-1)
  | some path => do
    beginOp
    match ← nameiparent sb p path with
    | none => do
      endOp
      pure (-1)
    | some (dp, name) => do
      ilock sb p dp
      if namecmp name dot = 0 ∨ namecmp name dotdot = 0 then unlinkBad sb p dp
      else do
        match ← dirlookup sb dp name with
        | none => unlinkBad sb p dp
        | some (ip, off) => do
          ilock sb p ip
          let d ← copyOf ip
          if d.nlink.toInt < 1 then throw .unlinkNlink
          else if ← busyDir sb ip then do
            iunlockput sb p ip
            unlinkBad sb p dp
          else unlinkEntry sb p dp ip off

def createFail (dp ip : ℕ) : Op (Option ℕ) := do
  setNlink sb ip (fun _ => 0)
  iunlockput sb p ip
  iunlockput sb p dp
  pure none

/-- The entries `.` and `..` of a new directory. -/
def createDots (dp ip : ℕ) (type : BitVec 16) : Op Bool :=
  if type = T_DIR then do
    let s ← get
    if ← dirlink sb p ip dot (s.itable ip).inum then do
      let s ← get
      dirlink sb p ip dotdot (s.itable dp).inum
    else pure false
  else pure true

/-- `create` once the name is known to be new; `dp` is locked. -/
def createNew (dp : ℕ) (name : Name) (type major minor : BitVec 16) : Op (Option ℕ) := do
  let s ← get
  match ← ialloc sb (s.itable dp).dev type with
  | none => do
    iunlockput sb p dp
    pure none
  | some ip => do
    ilock sb p ip
    modify (fun s => s.setCopy ip { (s.itable ip).copy with major := major, minor := minor, nlink := 1 })
    iupdate sb ip
    if ← createDots sb p dp ip type then do
      let s ← get
      if ← dirlink sb p dp name (s.itable ip).inum then do
        onlyIf (type = T_DIR) (setNlink sb dp (fun n => n + 1))
        iunlockput sb p dp
        pure (some ip)
      else createFail sb p dp ip
    else createFail sb p dp ip

def create (path : Path) (type major minor : BitVec 16) : Op (Option ℕ) := do
  match ← nameiparent sb p path with
  | none => pure none
  | some (dp, name) => do
    ilock sb p dp
    match ← dirlookup sb dp name with
    | some (ip, _) => do
      iunlockput sb p dp
      ilock sb p ip
      let d ← copyOf ip
      if type = T_FILE ∧ (d.type = T_FILE ∨ d.type = T_DEVICE) then pure (some ip)
      else do
        iunlockput sb p ip
        pure none
    | none => createNew sb p dp name type major minor

/-- The first half of `sys_open`: the inode, locked. -/
def openInode (path : Path) (omode : BitVec 32) : Op (Option ℕ) :=
  if omode &&& O_CREATE ≠ 0 then create sb p path T_FILE 0 0
  else do
    match ← namei sb p path with
    | none => pure none
    | some ip => do
      ilock sb p ip
      let d ← copyOf ip
      if d.type = T_DIR ∧ omode ≠ O_RDONLY then do
        iunlockput sb p ip
        pure none
      else pure (some ip)

/-- `sys_open` where it gives up the locked inode `ip`. -/
def openFail (ip : ℕ) : Op ℤ := do
  iunlockput sb p ip
  endOp
  pure (-1)

/-- The file that `sys_open` fills in. -/
def openedFile (f : File) (ip : ℕ) (d : Dinode) (omode : BitVec 32) : File :=
  { f with
    type := if d.type = T_DEVICE then .FD_DEVICE else .FD_INODE
    major := if d.type = T_DEVICE then d.major else f.major
    off := if d.type = T_DEVICE then f.off else 0
    ip := ip
    readable := omode &&& O_WRONLY = 0
    writable := omode &&& O_WRONLY ≠ 0 ∨ omode &&& O_RDWR ≠ 0 }

/-- The second half of `sys_open`: a file and a descriptor for the locked inode `ip`. -/
def openFile (ip : ℕ) (omode : BitVec 32) : Op ℤ := do
  let d ← copyOf ip
  if d.type = T_DEVICE ∧ (d.major.toInt < 0 ∨ (NDEV : ℤ) ≤ d.major.toInt) then openFail sb p ip
  else do
    match ← filealloc with
    | none => openFail sb p ip
    | some f => do
      match ← fdalloc p f with
      | none => do
        fileclose sb p f
        openFail sb p ip
      | some fd => do
        modify (fun s => s.setFile f (openedFile (s.file f) ip d omode))
        onlyIf (omode &&& O_TRUNC ≠ 0 ∧ d.type = T_FILE) (itrunc sb ip)
        iunlock p ip
        endOp
        pure fd

def sysOpen (path : Option Path) (omode : BitVec 32) : Op ℤ :=
  match path with
  | none => pure (-1)
  | some path => do
    beginOp
    match ← openInode sb p path omode with
    | none => do
      endOp
      pure (-1)
    | some ip => openFile sb p ip omode

/-- `sys_mkdir` and `sys_mknod` -/
def sysCreate (path : Option Path) (type major minor : BitVec 16) : Op ℤ := do
  beginOp
  match path with
  | none => do
    endOp
    pure (-1)
  | some path => do
    match ← create sb p path type major minor with
    | none => do
      endOp
      pure (-1)
    | some ip => do
      iunlockput sb p ip
      endOp
      pure 0

def sysMkdir (path : Option Path) : Op ℤ := sysCreate sb p path T_DIR 0 0

/-- `sys_mknod`; `create` takes the numbers as `short`. -/
def sysMknod (path : Option Path) (major minor : BitVec 32) : Op ℤ :=
  sysCreate sb p path T_DEVICE (major.setWidth 16) (minor.setWidth 16)

/-- `sys_chdir` once the directory `ip` is found. -/
def chdirTo (ip : ℕ) : Op ℤ := do
  let s ← get
  match (s.proc p).cwd with
  | none => throw .noCwd
  | some cwd => do
    iput sb p cwd
    endOp
    modify (fun s => s.setProc p { s.proc p with cwd := some ip })
    pure 0

def sysChdir (path : Option Path) : Op ℤ := do
  beginOp
  match path with
  | none => do
    endOp
    pure (-1)
  | some path => do
    match ← namei sb p path with
    | none => do
      endOp
      pure (-1)
    | some ip => do
      ilock sb p ip
      let d ← copyOf ip
      if d.type ≠ T_DIR then do
        iunlockput sb p ip
        endOp
        pure (-1)
      else do
        iunlock p ip
        chdirTo sb p ip

end Calls

section Processes

variable (sb : Superblock) (p : ℕ)

/-- The reads of `kexec` and `loadseg`, each an offset and a length; all into kernel memory. -/
def readAll (ip : ℕ) : List (ℕ × ℕ) → Op Unit
  | [] => pure ()
  | (off, n) :: reads => do
    let _ ← readi sb ip (fun _ => true) off n
    readAll ip reads

/-- What `kexec` does with the file: it is read and put back, whatever the outcome. -/
def kexec (path : Path) (reads : List (ℕ × ℕ)) : Op ℤ := do
  beginOp
  match ← namei sb p path with
  | none => do
    endOp
    pure (-1)
  | some ip => do
    ilock sb p ip
    readAll sb ip reads
    iunlockput sb p ip
    endOp
    pure 0

def sysExec (path : Option Path) (reads : List (ℕ × ℕ)) : Op ℤ :=
  match path with
  | none => pure (-1)
  | some path => kexec sb p path reads

/-- What `kfork` does with the files, for the child in slot `q`. -/
def kfork (q : ℕ) : Op ℤ := do
  loop (fun i => do
    let s ← get
    match (s.proc p).ofile i with
    | none => pure ()
    | some f => do
      let f ← filedup f
      setOfile q i (some f)) NOFILE 0
  let s ← get
  match (s.proc p).cwd with
  | none => throw .noCwd
  | some cwd => do
    let ip ← idup cwd
    modify (fun s => s.setProc q { s.proc q with cwd := some ip })
    pure q

/-- `kexit`, up to where the process becomes a zombie. Process 0 is `initproc`. -/
def kexit : Op Unit :=
  if p = 0 then throw .initExiting
  else do
    loop (fun fd => do
      let s ← get
      match (s.proc p).ofile fd with
      | none => pure ()
      | some f => do
        fileclose sb p f
        setOfile p fd none) NOFILE 0
    beginOp
    let s ← get
    match (s.proc p).cwd with
    | none => throw .noCwd
    | some cwd => do
      iput sb p cwd
      endOp
      modify (fun s => s.setProc p { s.proc p with cwd := none })

end Processes

section Steps

/-- A system call with its arguments. A path is `none` if `argstr` fails. -/
inductive Call where
  | open (path : Option Path) (omode : BitVec 32)
  | mkdir (path : Option Path)
  | mknod (path : Option Path) (major minor : BitVec 32)
  | link (old new : Option Path)
  | unlink (path : Option Path)
  | chdir (path : Option Path)
  | read (fd : ℤ) (dst : ℕ → Bool) (n : ℤ)
  | write (fd : ℤ) (src : ℕ → Option Byte) (n : ℤ)
  | dup (fd : ℤ)
  | close (fd : ℤ)
  | exec (path : Option Path) (reads : List (ℕ × ℕ))
  /-- `fork`, with the slot of the child -/
  | fork (q : ℕ)
  | exit

/-- The system call `c` of process `p`, with the value it returns. -/
def syscall (sb : Superblock) (p : ℕ) : Call → Op ℤ
  | .open path omode => sysOpen sb p path omode
  | .mkdir path => sysMkdir sb p path
  | .mknod path major minor => sysMknod sb p path major minor
  | .link old new => sysLink sb p old new
  | .unlink path => sysUnlink sb p path
  | .chdir path => sysChdir sb p path
  | .read fd dst n => do
    let r ← sysRead sb p fd dst n
    pure r.1
  | .write fd src n => sysWrite sb p fd src n
  | .dup fd => sysDup p fd
  | .close fd => sysClose sb p fd
  | .exec path reads => sysExec sb p path reads
  | .fork q => kfork p q
  | .exit => do
    kexit sb p
    pure 0

/-- A process runs while it has a current directory; the child of `fork` gets a free slot. -/
def enabled (s : St) (p : ℕ) : Call → Bool
  | .fork q => p < NPROC && (s.proc p).cwd.isSome && q < NPROC && (s.proc q).cwd = none
  | _ => p < NPROC && (s.proc p).cwd.isSome

/-- A whole system call by one process; nothing follows a panic. -/
def step (sb : Superblock) (s : St) (e : ℕ × Call) : Option St :=
  if enabled s e.1 e.2 then
    match syscall sb e.1 e.2 s with
    | .ok _ s' => some s'
    | .error _ _ => none
  else none

/-- After boot: the first process has the root directory, which the lookup of `/init` has read. -/
def boot (sb : Superblock) (disk : Disk) : St where
  disk := disk
  itable := fun i =>
    if i = 0 then ⟨ROOTDEV, ROOTINO, 1, none, true, dinode sb disk ROOTINO⟩
    else ⟨0, 0, 0, none, false, Dinode.zero⟩
  file := fun _ => ⟨.FD_NONE, 0, false, false, 0, 0, 0⟩
  proc := fun p => ⟨fun _ => none, if p = 0 then some 0 else none⟩
  lh := []
  outstanding := 0
  commits := []

end Steps

end Xv6.Fs
