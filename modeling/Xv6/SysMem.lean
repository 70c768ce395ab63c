import Xv6.Kexec
import Xv6.ProcSleep
import Xv6.Exec

/-! The system calls that take and give back physical pages: fork, exec, exit, wait and sbrk
(kernel/proc.c, kernel/sysproc.c), page faults, and pipes through the file table (kernel/file.c,
kernel/pipe.c, kernel/sysfile.c). One call runs at a time. -/
namespace Xv6.UserVm

def NPROC : ℕ := 64

def NOFILE : ℕ := 16

def NFILE : ℕ := 100

section State

inductive FileType where
  | FD_NONE
  | FD_PIPE
  | FD_INODE
  | FD_DEVICE
  deriving DecidableEq, Repr

/-- The fields of `struct file` that matter here; a pipe is the page it is in. -/
structure File where
  ref : ℕ
  type : FileType
  pipe : ℕ
  writable : Bool

/-- The fields of `struct pipe` that matter here. -/
structure PipeEnds where
  readopen : Bool
  writeopen : Bool

/-- The fields of `struct proc` that matter here; 0 is the null pointer, and `cwd` is an index of
the inode table. -/
structure UProc extends Space where
  state : ProcState
  trapframe : ℕ
  parent : Option ℕ
  xstate : BitVec 32
  ofile : ℕ → Option ℕ
  cwd : Option ℕ

/-- `iref` has the references to inodes that current directories hold. -/
structure Sys where
  mem : Mem
  proc : ℕ → UProc
  file : ℕ → File
  pipe : ℕ → PipeEnds
  iref : ℕ → ℕ
  initproc : Option ℕ
  /-- `first` in `forkret` -/
  first : Bool

abbrev Os (α : Type) := Prog VmPanic Sys α

/-- A program of the memory layer. -/
def vm {α : Type} (m : Vm α) : Os α := zoom Sys.mem (fun mem s => { s with mem := mem }) m

def myproc (i : ℕ) : Os UProc := do
  let s ← get
  pure (s.proc i)

def setProc (i : ℕ) (f : UProc → UProc) : Os Unit :=
  modify (fun s => { s with proc := update s.proc i (f (s.proc i)) })

def setFile (f : ℕ) (v : File → File) : Os Unit :=
  modify (fun s => { s with file := update s.file f (v (s.file f)) })

def setPipe (pi : ℕ) (v : PipeEnds → PipeEnds) : Os Unit :=
  modify (fun s => { s with pipe := update s.pipe pi (v (s.pipe pi)) })

end State

section Files

def filealloc : Os (Option ℕ) := do
  let s ← get
  match (List.range NFILE).find? (fun f => (s.file f).ref = 0) with
  | none => pure none
  | some f => do
    setFile f (fun v => { v with ref := 1 })
    pure (some f)

def filedup (f : ℕ) : Os Unit := do
  let s ← get
  if (s.file f).ref < 1 then throw .filedup
  else setFile f (fun v => { v with ref := v.ref + 1 })

def pipeclose (pi : ℕ) (writable : Bool) : Os Unit := do
  (if writable then setPipe pi (fun v => { v with writeopen := false })
  else setPipe pi (fun v => { v with readopen := false }))
  let s ← get
  if (s.pipe pi).readopen = false ∧ (s.pipe pi).writeopen = false then vm (kfree pi) else pure ()

/-- The inode of another file is put in the file system. -/
def fileclose (f : ℕ) : Os Unit := do
  let s ← get
  let ff := s.file f
  if ff.ref < 1 then throw .fileclose
  else if 0 < ff.ref - 1 then setFile f (fun v => { v with ref := v.ref - 1 })
  else do
    setFile f (fun v => { v with ref := 0, type := .FD_NONE })
    if ff.type = .FD_PIPE then pipeclose ff.pipe ff.writable else pure ()

def pipealloc : Os (Option (ℕ × ℕ)) := do
  match ← filealloc with
  | none => pure none
  | some f0 => do
    match ← filealloc with
    | none => do
      fileclose f0
      pure none
    | some f1 => do
      match ← vm kalloc with
      | none => do
        fileclose f0
        fileclose f1
        pure none
      | some pi => do
        setPipe pi (fun _ => ⟨true, true⟩)
        setFile f0 (fun v => { v with type := .FD_PIPE, pipe := pi, writable := false })
        setFile f1 (fun v => { v with type := .FD_PIPE, pipe := pi, writable := true })
        pure (some (f0, f1))

/-- `none` if there is no free descriptor. -/
def fdalloc (i f : ℕ) : Os (Option ℕ) := do
  let p ← myproc i
  match (List.range NOFILE).find? (fun fd => p.ofile fd = none) with
  | none => pure none
  | some fd => do
    setProc i (fun p => { p with ofile := update p.ofile fd (some f) })
    pure (some fd)

/-- `p->ofile[fd] = 0` -/
def clearFd (i fd : ℕ) : Os Unit :=
  setProc i (fun p => { p with ofile := update p.ofile fd none })

/-- An `int` in memory. -/
def bytes32 (x : BitVec 32) : List Byte := (List.range 4).map (fun i => getField x (8 * i) 8)

def sysPipe (i fdarray : ℕ) : Os Unit := do
  match ← pipealloc with
  | none => pure ()
  | some (rf, wf) => do
    match ← fdalloc i rf with
    | none => do
      fileclose rf
      fileclose wf
    | some fd0 => do
      match ← fdalloc i wf with
      | none => do
        clearFd i fd0
        fileclose rf
        fileclose wf
      | some fd1 => do
        let p ← myproc i
        let ok0 ← vm (copyout p.toSpace p.pagetable fdarray (bytes32 (BitVec.ofNat 32 fd0)))
        let ok ← (if ok0 then vm (copyout p.toSpace p.pagetable ((fdarray + 4) % 2 ^ 64)
          (bytes32 (BitVec.ofNat 32 fd1))) else pure false)
        if ok then pure ()
        else do
          clearFd i fd0
          clearFd i fd1
          fileclose rf
          fileclose wf

/-- `none` if it is not an open descriptor. -/
def argfd (i fd : ℕ) : Os (Option ℕ) := do
  let p ← myproc i
  if NOFILE ≤ fd then pure none else pure (p.ofile fd)

def sysClose (i fd : ℕ) : Os Unit := do
  match ← argfd i fd with
  | none => pure ()
  | some f => do
    clearFd i fd
    fileclose f

def sysDup (i fd : ℕ) : Os Unit := do
  match ← argfd i fd with
  | none => pure ()
  | some f => do
    match ← fdalloc i f with
    | none => pure ()
    | some _ => filedup f

/-- The part of `sys_open` that concerns the file table, once the inode has been found. -/
def sysOpenFile (i : ℕ) (device : Bool) : Os Unit := do
  match ← filealloc with
  | none => pure ()
  | some f => do
    match ← fdalloc i f with
    | none => fileclose f
    | some _ => setFile f (fun v => { v with type := if device then .FD_DEVICE else .FD_INODE })

end Files

section Procs

def idup (ip : ℕ) : Os ℕ := do
  modify (fun s => { s with iref := update s.iref ip (s.iref ip + 1) })
  pure ip

/-- What `iput` does to the count. -/
def iput (ip : ℕ) : Os Unit :=
  modify (fun s => { s with iref := update s.iref ip (s.iref ip - 1) })

def freeproc (i : ℕ) : Os Unit := do
  let p ← myproc i
  (if p.trapframe ≠ 0 then vm (kfree p.trapframe) else pure ())
  (if p.pagetable ≠ 0 then vm (procFreepagetable p.pagetable p.sz) else pure ())
  setProc i (fun p => { p with
    trapframe := 0, pagetable := 0, sz := 0, parent := none, xstate := 0, state := .UNUSED })

def allocproc : Os (Option ℕ) := do
  let s ← get
  match (List.range NPROC).find? (fun i => (s.proc i).state = .UNUSED) with
  | none => pure none
  | some i => do
    setProc i (fun p => { p with state := .USED })
    match ← vm kalloc with
    | none => do
      setProc i (fun p => { p with trapframe := 0 })
      freeproc i
      pure none
    | some trapframe => do
      setProc i (fun p => { p with trapframe := trapframe })
      match ← vm (procPagetable trapframe) with
      | none => do
        setProc i (fun p => { p with pagetable := 0 })
        freeproc i
        pure none
      | some pagetable => do
        setProc i (fun p => { p with pagetable := pagetable })
        pure (some i)

/-- The entry of the inode table for the root: the first `iget` takes the first one. -/
def rootInode : ℕ := 0

/-- With no process to give, `userinit` follows a null pointer. -/
def userinit : Os Unit := do
  match ← allocproc with
  | none => throw .nullProc
  | some i => do
    modify (fun s => { s with initproc := some i })
    let cwd ← idup rootInode
    setProc i (fun p => { p with cwd := some cwd })
    setProc i (fun p => { p with state := .RUNNABLE })

/-- `sz + n`, for an `int n` -/
def addInt (sz : ℕ) (n : BitVec 32) : ℕ := (BitVec.ofNat 64 sz + n.signExtend 64).toNat

/-- Whether it succeeded. -/
def growproc (i : ℕ) (n : BitVec 32) : Os Bool := do
  let p ← myproc i
  if 0 < n.toInt then do
    let sz ← vm (uvmalloc p.pagetable p.sz (addInt p.sz n) PTE_W)
    if sz = 0 then pure false
    else do
      setProc i (fun p => { p with sz := sz })
      pure true
  else if n.toInt < 0 then do
    let sz ← vm (uvmdealloc p.pagetable p.sz (addInt p.sz n))
    setProc i (fun p => { p with sz := sz })
    pure true
  else pure true

def sysSbrk (i : ℕ) (n : BitVec 32) (eager : Bool) : Os Bool := do
  let p ← myproc i
  if eager = true ∨ n.toInt < 0 then growproc i n
  else if addInt p.sz n < p.sz then pure false
  else do
    setProc i (fun p => { p with sz := addInt p.sz n })
    pure true

/-- The number of 64-bit fields of `struct trapframe`. -/
def trapframeRegs : ℕ := 36

/-- The place of `a0` among them. -/
def a0Reg : ℕ := 14

/-- `*dst = *src` -/
def copyTrapframe (src dst : ℕ) : Vm Unit := do
  let x ← readPage src
  let y ← readPage dst
  writePage dst (setField y 0 (getField x 0 (64 * trapframeRegs)))

def kfork (i : ℕ) : Os (Option ℕ) := do
  match ← allocproc with
  | none => pure none
  | some np => do
    let p ← myproc i
    let n ← myproc np
    if ← vm (uvmcopy p.pagetable n.pagetable p.sz) then do
      setProc np (fun n => { n with sz := p.sz })
      vm (copyTrapframe p.trapframe n.trapframe)
      -- cause fork to return 0 in the child
      let x ← vm (readPage n.trapframe)
      vm (writePage n.trapframe (setField x (64 * a0Reg) (0 : BitVec 64)))
      loop (fun fd =>
        match p.ofile fd with
        | none => pure ()
        | some f => do
          filedup f
          setProc np (fun n => { n with ofile := update n.ofile fd (some f) })) NOFILE 0
      match p.cwd with
      | none => throw .nullCwd
      | some ip => do
        let cwd ← idup ip
        setProc np (fun n => { n with cwd := some cwd })
        setProc np (fun n => { n with parent := some i, state := .RUNNABLE })
        pure (some np)
    else do
      freeproc np
      pure none

/-- Pass `i`'s abandoned children to init. -/
def reparent (i : ℕ) : Os Unit :=
  modify (fun s => { s with proc := fun j =>
    if (s.proc j).parent = some i then { s.proc j with parent := s.initproc } else s.proc j })

def kexit (i : ℕ) (status : BitVec 32) : Os Unit := do
  let s ← get
  if s.initproc = some i then throw .initExiting
  else do
    loop (fun fd => do
      let p ← myproc i
      match p.ofile fd with
      | none => pure ()
      | some f => do
        fileclose f
        clearFd i fd) NOFILE 0
    let p ← myproc i
    match p.cwd with
    | none => throw .nullCwd
    | some ip => do
      iput ip
      setProc i (fun p => { p with cwd := none })
      reparent i
      setProc i (fun p => { p with xstate := status, state := .ZOMBIE })

/-- One scan of `kwait`; where it would sleep or has no children, nothing happens. -/
def kwait (i addr : ℕ) : Os Unit := do
  let s ← get
  match (List.range NPROC).find? (fun j =>
      (s.proc j).parent = some i ∧ (s.proc j).state = .ZOMBIE) with
  | none => pure ()
  | some j => do
    let p := s.proc i
    let ok ← (if addr ≠ 0 then vm (copyout p.toSpace p.pagetable addr (bytes32 (s.proc j).xstate))
      else pure true)
    if ok then freeproc j else pure ()

def execProc (i : ℕ) (m : UProc → Vm (Option Space)) : Os Bool := do
  let p ← myproc i
  match ← vm (m p) with
  | none => pure false
  | some sp => do
    setProc i (fun p => { p with toSpace := sp })
    pure true

/-- "/init" -/
def initArgv : List (List Byte) := [[0x2f, 0x69, 0x6e, 0x69, 0x74]]

/-- The first process to run starts the file system and becomes init. -/
def forkret (i : ℕ) (file : Option ExecFile) : Os Unit := do
  modify (fun s => { s with first := false })
  if ← execProc i (fun p => kexec p.toSpace p.trapframe file initArgv) then pure ()
  else throw .exec

/-- A store of the user program; where the page is not mapped for it nothing happens (the
fault is another event). -/
def userStore (pagetable va : ℕ) (c : Byte) : Vm Unit := do
  let pa ← walkaddr pagetable va
  if pa = 0 then pure ()
  else do
    match ← walk pagetable va false with
    | none => pure ()
    | some ptr => do
      let e ← load ptr
      if e &&& PTE_W = 0 then pure ()
      else do
        let x ← readPage pa
        writePage pa (setBytes x (va % PGSIZE) [c])

end Procs

section Machine

/-- What a process `i` may do. Other system calls touch user memory by `copyin` and
`copyout` only. -/
inductive Call where
  | userinit
  | forkret (i : ℕ) (file : Option ExecFile)
  | fork (i : ℕ)
  | exec (i : ℕ) (file : Option ExecFile) (upath uargv : ℕ)
  | exit (i : ℕ) (status : BitVec 32)
  | wait (i addr : ℕ)
  | sbrk (i : ℕ) (n : BitVec 32) (eager : Bool)
  | pageFault (i va : ℕ)
  | pipe (i fdarray : ℕ)
  | close (i fd : ℕ)
  | dup (i fd : ℕ)
  | openFile (i : ℕ) (device : Bool)
  | copyin (i srcva len : ℕ)
  | copyout (i dstva : ℕ) (src : List Byte)
  | store (i va : ℕ) (c : Byte)

/-- The process that makes the call. -/
def Call.proc : Call → Option ℕ
  | .userinit => none
  | .forkret i _ | .fork i | .exec i _ _ _ | .exit i _ | .wait i _ | .sbrk i _ _ | .pageFault i _
  | .pipe i _ | .close i _ | .dup i _ | .openFile i _ | .copyin i _ _ | .copyout i _ _
  | .store i _ _ => some i

/-- A program for its effect only. -/
def run {α : Type} (m : Os α) : Os Unit := do
  let _ ← m
  pure ()

/-- A program on the address space of a process. -/
def onSpace {α : Type} (i : ℕ) (m : Space → Vm α) : Os Unit := do
  let p ← myproc i
  run (vm (m p.toSpace))

def Call.prog : Call → Os Unit
  | .userinit => UserVm.userinit
  | .forkret i file => UserVm.forkret i file
  | .fork i => run (kfork i)
  | .exec i file upath uargv =>
    run (execProc i (fun p => sysExec p.toSpace p.trapframe file upath uargv))
  | .exit i status => kexit i status
  | .wait i addr => kwait i addr
  | .sbrk i n eager => run (sysSbrk i n eager)
  | .pageFault i va => onSpace i (fun sp => vmfault sp sp.pagetable va)
  | .pipe i fdarray => sysPipe i fdarray
  | .close i fd => sysClose i fd
  | .dup i fd => sysDup i fd
  | .openFile i device => sysOpenFile i device
  | .copyin i srcva len => onSpace i (fun sp => Xv6.copyin sp sp.pagetable srcva len)
  | .copyout i dstva src => onSpace i (fun sp => Xv6.copyout sp sp.pagetable dstva src)
  | .store i va c => onSpace i (fun sp => userStore sp.pagetable va c)

/-- Between calls, a process that has not exited is `RUNNABLE`. The first one goes through
`forkret` before it can do anything else; the others find `first` false there. -/
def Call.enabled (s : Sys) (c : Call) : Bool :=
  match c, c.proc with
  | .forkret _ _, some i => decide (i < NPROC) && (s.proc i).state == .RUNNABLE && s.first
  | _, some i => decide (i < NPROC) && (s.proc i).state == .RUNNABLE && !s.first
  | _, none => s.initproc.isNone

/-- The machine stops when the kernel panics. -/
structure OsState where
  sys : Sys
  panic : Option VmPanic

/-- A call; `deny` says which of its calls of `kalloc` fail. -/
structure OsEvent where
  call : Call
  deny : List Bool

def osStep (s : OsState) (e : OsEvent) : Option OsState :=
  if s.panic.isNone && e.call.enabled s.sys then
    match e.call.prog { s.sys with mem := { s.sys.mem with deny := e.deny } } with
    | .ok _ t => some ⟨t, none⟩
    | .error p t => some ⟨t, some p⟩
  else none

/-- The machine when the first process is about to be made: the pages `boot` are taken for
good, the others are free. -/
def osInit (mem : Mem) : OsState where
  sys :=
    { mem := mem
      proc := fun _ => ⟨⟨0, 0⟩, .UNUSED, 0, none, 0, fun _ => none, none⟩
      file := fun _ => ⟨0, .FD_NONE, 0, false⟩
      pipe := fun _ => ⟨false, false⟩
      iref := fun _ => 0
      initproc := none
      first := true }
  panic := none

end Machine

end Xv6.UserVm
