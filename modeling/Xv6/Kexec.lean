import Xv6.Vm

/-! Address spaces of processes: `proc_pagetable` and `proc_freepagetable` (kernel/proc.c), and exec
(kernel/exec.c, `sys_exec` in kernel/sysfile.c) over what `namei` and `readi` return. -/
namespace Xv6

def MAXARG : ℕ := 32

def MAXPATH : ℕ := 128

def USERSTACK : ℕ := 2

section ProcPagetable

def procPagetable (trapframe : ℕ) : Vm (Option ℕ) := do
  match ← uvmcreate with
  | none => pure none
  | some pagetable => do
    let m ← get
    if ← mappages pagetable TRAMPOLINE PGSIZE m.trampoline (PTE_R ||| PTE_X) then
      if ← mappages pagetable TRAPFRAME PGSIZE trapframe (PTE_R ||| PTE_W) then
        pure (some pagetable)
      else do
        uvmunmap pagetable TRAMPOLINE 1 false
        uvmfree pagetable 0
        pure none
    else do
      uvmfree pagetable 0
      pure none

def procFreepagetable (pagetable sz : ℕ) : Vm Unit := do
  uvmunmap pagetable TRAMPOLINE 1 false
  uvmunmap pagetable TRAPFRAME 1 false
  uvmfree pagetable sz

end ProcPagetable

section Elf

def ELF_MAGIC : BitVec 32 := 0x464C457F

def ELF_PROG_LOAD : BitVec 32 := 1

/-- The fields of `struct elfhdr` that exec uses. -/
structure ElfHdr where
  magic : BitVec 32
  entry : BitVec 64
  phoff : BitVec 64
  phnum : BitVec 16

/-- The fields of `struct proghdr` that exec uses. -/
structure ProgHdr where
  type : BitVec 32
  flags : BitVec 32
  off : BitVec 64
  vaddr : BitVec 64
  filesz : BitVec 64
  memsz : BitVec 64

/-- What `readi` finds in the file: the header, a program header at an offset, and `n` bytes
of a segment at an offset; `none` when it returns less. -/
structure ExecFile where
  elf : Option ElfHdr
  ph : BitVec 32 → Option ProgHdr
  seg : BitVec 32 → ℕ → Option (List Byte)

def flags2perm (flags : BitVec 32) : Pte :=
  (if flags &&& 1 ≠ 0 then PTE_X else 0) ||| (if flags &&& 2 ≠ 0 then PTE_W else 0)

/-- The loop of `loadseg`: `n` more pages, from byte `i` on. -/
def loadsegLoop (pagetable va : ℕ) (file : ExecFile) (offset : BitVec 32) (sz : ℕ) :
    ℕ → ℕ → Vm Bool
  | 0, _ => pure true
  | n + 1, i => do
    let pa ← walkaddr pagetable ((va + i) % 2 ^ 64)
    if pa = 0 then throw .loadseg
    else do
      match file.seg (offset + BitVec.ofNat 32 i) (min PGSIZE (sz - i)) with
      | none => pure false
      | some bytes => do
        let x ← readPage pa
        writePage pa (setBytes x 0 (bytes.take (min PGSIZE (sz - i))))
        loadsegLoop pagetable va file offset sz n (i + PGSIZE)

def loadseg (pagetable va : ℕ) (file : ExecFile) (offset : BitVec 32) (sz : ℕ) : Vm Bool :=
  loadsegLoop pagetable va file offset sz ((sz + (PGSIZE - 1)) / PGSIZE) 0

/-- The loop over the program headers, for `n` more of them. It returns whether all went well,
and the size so far. -/
def loadLoop (pagetable : ℕ) (file : ExecFile) : ℕ → BitVec 32 → ℕ → Vm (Bool × ℕ)
  | 0, _, sz => pure (true, sz)
  | n + 1, off, sz =>
    match file.ph off with
    | none => pure (false, sz)
    | some ph =>
      if ph.type ≠ ELF_PROG_LOAD then loadLoop pagetable file n (off + 56) sz
      else if ph.memsz < ph.filesz then pure (false, sz)
      else if ph.vaddr + ph.memsz < ph.vaddr then pure (false, sz)
      else if ph.vaddr.toNat % PGSIZE ≠ 0 then pure (false, sz)
      else do
        let sz1 ← uvmalloc pagetable sz (ph.vaddr + ph.memsz).toNat (flags2perm ph.flags)
        if sz1 = 0 then pure (false, sz)
        else do
          if ← loadseg pagetable ph.vaddr.toNat file (ph.off.setWidth 32)
              (ph.filesz.setWidth 32).toNat then
            loadLoop pagetable file n (off + 56) sz1
          else pure (false, sz1)

end Elf

section Args

/-- `a - b` in `uint64`. -/
def sub64 (a b : ℕ) : ℕ := (a + 2 ^ 64 - b) % 2 ^ 64

/-- A `uint64` in memory. -/
def bytes64 (x : ℕ) : List Byte := (List.range 8).map (fun i => BitVec.ofNat 8 (x / 256 ^ i))

/-- The number that the bytes are in memory. -/
def ofBytes : List Byte → ℕ
  | [] => 0
  | c :: cs => c.toNat + 256 * ofBytes cs

/-- The loop that copies the argument strings to the new stack; `ustack` are their addresses.
`none` where the source goes to `bad`. -/
def pushArgs (cur : Space) (pagetable stackbase : ℕ) :
    List (List Byte) → ℕ → List ℕ → Vm (Option (ℕ × List ℕ))
  | [], sp, ustack => pure (some (sp, ustack))
  | arg :: argv, sp, ustack =>
    if MAXARG ≤ ustack.length then pure none
    else do
      let sp := sub64 sp (arg.length + 1)
      let sp := sp - sp % 16
      if sp < stackbase then pure none
      else do
        if ← copyout cur pagetable sp (arg ++ [0]) then
          pushArgs cur pagetable stackbase argv sp (ustack ++ [sp])
        else pure none

/-- The part of `kexec` that builds the stack: `none`, or `sp`. -/
def pushStack (cur : Space) (pagetable stackbase : ℕ) (argv : List (List Byte)) (sp : ℕ) :
    Vm (Option ℕ) := do
  match ← pushArgs cur pagetable stackbase argv sp [] with
  | none => pure none
  | some (sp, ustack) => do
    let sp := sub64 sp ((argv.length + 1) * 8)
    let sp := sp - sp % 16
    if sp < stackbase then pure none
    else do
      if ← copyout cur pagetable sp ((ustack ++ [0]).flatMap bytes64) then pure (some sp)
      else pure none

end Args

/-- A field of the trapframe, at a byte offset. -/
def setTrapframe (trapframe off : ℕ) (v : ℕ) : Vm Unit := do
  let x ← readPage trapframe
  writePage trapframe (setField x (8 * off) (BitVec.ofNat 64 v))

/-- From the point where the program is loaded: the stack, the arguments, and the commit. The result
is the new address space, or `none` with what is to be freed freed. -/
def kexecStack (cur : Space) (trapframe pagetable : ℕ) (entry : BitVec 64)
    (argv : List (List Byte)) (sz : ℕ) : Vm (Option Space) := do
  let sz := PGROUNDUP sz
  let sz1 ← uvmalloc pagetable sz (sz + (USERSTACK + 1) * PGSIZE) PTE_W
  if sz1 = 0 then do
    procFreepagetable pagetable sz
    pure none
  else do
    uvmclear pagetable (sz1 - (USERSTACK + 1) * PGSIZE)
    match ← pushStack cur pagetable (sz1 - USERSTACK * PGSIZE) argv sz1 with
    | none => do
      procFreepagetable pagetable sz1
      pure none
    | some sp => do
      setTrapframe trapframe 120 sp
      setTrapframe trapframe 24 entry.toNat
      setTrapframe trapframe 48 sp
      procFreepagetable cur.pagetable cur.sz
      pure (some ⟨sz1, pagetable⟩)

/-- `kexec` of the running process `cur`; `file` is `none` if `namei` finds nothing. -/
def kexec (cur : Space) (trapframe : ℕ) (file : Option ExecFile) (argv : List (List Byte)) :
    Vm (Option Space) :=
  match file with
  | none => pure none
  | some file =>
    match file.elf with
    | none => pure none
    | some elf =>
      if elf.magic ≠ ELF_MAGIC then pure none
      else do
        match ← procPagetable trapframe with
        | none => pure none
        | some pagetable => do
          let (ok, sz) ← loadLoop pagetable file elf.phnum.toNat (elf.phoff.setWidth 32) 0
          if ok then kexecStack cur trapframe pagetable elf.entry argv sz
          else do
            procFreepagetable pagetable sz
            pure none

section SysExec

def fetchaddr (cur : Space) (addr : ℕ) : Vm (Option ℕ) :=
  if cur.sz ≤ addr ∨ cur.sz < (addr + 8) % 2 ^ 64 then pure none
  else do
    match ← copyin cur cur.pagetable addr 8 with
    | none => pure none
    | some bytes => pure (some (ofBytes bytes))

def fetchstr (cur : Space) (addr max : ℕ) : Vm (Option (List Byte)) :=
  copyinstr cur.pagetable addr max

/-- The loop of `sys_exec` that fetches the arguments, for `n` more of them. `argv` are the
pages allocated so far, with the strings in them; the result is whether all went well. -/
def fetchArgs (cur : Space) (uargv : ℕ) :
    ℕ → ℕ → List (ℕ × List Byte) → Vm (Bool × List (ℕ × List Byte))
  | 0, _, argv => pure (false, argv)
  | n + 1, i, argv => do
    match ← fetchaddr cur ((uargv + 8 * i) % 2 ^ 64) with
    | none => pure (false, argv)
    | some uarg =>
      if uarg = 0 then pure (true, argv)
      else do
        match ← kalloc with
        | none => pure (false, argv)
        | some page => do
          match ← fetchstr cur uarg PGSIZE with
          | none => pure (false, argv ++ [(page, [])])
          | some arg => do
            let x ← readPage page
            writePage page (setBytes x 0 (arg ++ [0]))
            fetchArgs cur uargv n (i + 1) (argv ++ [(page, arg)])

/-- `for(i = 0; i < NELEM(argv) && argv[i] != 0; i++) kfree(argv[i]);` -/
def freeArgs : List (ℕ × List Byte) → Vm Unit
  | [] => pure ()
  | (page, _) :: argv => do
    kfree page
    freeArgs argv

def sysExec (cur : Space) (trapframe : ℕ) (file : Option ExecFile) (upath uargv : ℕ) :
    Vm (Option Space) := do
  match ← fetchstr cur upath MAXPATH with
  | none => pure none
  | some _ => do
    let (ok, argv) ← fetchArgs cur uargv MAXARG 0 []
    if ok then do
      let ret ← kexec cur trapframe file (argv.map Prod.snd)
      freeArgs argv
      pure ret
    else do
      freeArgs argv
      pure none

end SysExec

end Xv6
