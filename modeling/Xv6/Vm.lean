import Xv6.Kalloc

/-! User page tables (kernel/vm.c): the Sv39 walk, mapping and unmapping, growing and shrinking,
copying for fork, page faults, and copying between kernel and user space. An address is a natural
number; a physical one is a page number. -/
namespace Xv6

section Pte

abbrev Pte := BitVec 64

def PTE_V : Pte := 1
def PTE_R : Pte := 2
def PTE_W : Pte := 4
def PTE_X : Pte := 8
def PTE_U : Pte := 16

def PA2PTE (p : ℕ) : Pte := BitVec.ofNat 64 p <<< 10

def PTE2PA (e : Pte) : ℕ := (e >>> 10).toNat

def PTE_FLAGS (e : Pte) : Pte := e &&& 0x3FF

def MAXVA : ℕ := 2 ^ 38

def TRAMPOLINE : ℕ := MAXVA - PGSIZE

def TRAPFRAME : ℕ := TRAMPOLINE - PGSIZE

def PGROUNDUP (sz : ℕ) : ℕ := (sz + (PGSIZE - 1)) % 2 ^ 64 / PGSIZE * PGSIZE

def PGROUNDDOWN (a : ℕ) : ℕ := a / PGSIZE * PGSIZE

/-- The index into the table of the given level. -/
def PX (level va : ℕ) : ℕ := va / 2 ^ (12 + 9 * level) % 512

/-- `pagetable[i]` -/
def pte (x : Page) (i : ℕ) : Pte := getField x (64 * i) 64

def setPte (x : Page) (i : ℕ) (e : Pte) : Page := setField x (64 * i) e

/-- `*pte & PTE_V` -/
def Valid (e : Pte) : Prop := e &&& PTE_V ≠ 0

instance (e : Pte) : Decidable (Valid e) := inferInstanceAs (Decidable (_ ≠ _))

/-- `(pte & (PTE_R|PTE_W|PTE_X)) == 0` -/
def Inner (e : Pte) : Prop := e &&& (PTE_R ||| PTE_W ||| PTE_X) = 0

instance (e : Pte) : Decidable (Inner e) := inferInstanceAs (Decidable (_ = _))

end Pte

section Walk

/-- The loop of `walk`, from a table of level `level` down. A pointer to a PTE is the page and
the index. -/
def walkFrom (va : ℕ) (alloc : Bool) : ℕ → ℕ → Vm (Option (ℕ × ℕ))
  | 0, p => pure (some (p, PX 0 va))
  | level + 1, p => do
    let x ← readPage p
    let e := pte x (PX (level + 1) va)
    if Valid e then walkFrom va alloc level (PTE2PA e)
    else if alloc then do
      match ← kalloc with
      | none => pure none
      | some q => do
        writePage q 0
        let x ← readPage p
        writePage p (setPte x (PX (level + 1) va) (PA2PTE q ||| PTE_V))
        walkFrom va alloc level q
    else pure none

def walk (pagetable va : ℕ) (alloc : Bool) : Vm (Option (ℕ × ℕ)) :=
  if MAXVA ≤ va then throw .walk else walkFrom va alloc 2 pagetable

def load (ptr : ℕ × ℕ) : Vm Pte := do
  let x ← readPage ptr.1
  pure (pte x ptr.2)

def store (ptr : ℕ × ℕ) (e : Pte) : Vm Unit := do
  let x ← readPage ptr.1
  writePage ptr.1 (setPte x ptr.2 e)

/-- 0 if not mapped for the user. -/
def walkaddr (pagetable va : ℕ) : Vm ℕ :=
  if MAXVA ≤ va then pure 0
  else do
    match ← walk pagetable va false with
    | none => pure 0
    | some ptr => do
      let e ← load ptr
      if ¬ Valid e then pure 0
      else if e &&& PTE_U = 0 then pure 0
      else pure (PTE2PA e)

/-- The loop of `mappages`, for `n` more pages. -/
def mapLoop (pagetable : ℕ) (perm : Pte) : ℕ → ℕ → ℕ → Vm Bool
  | 0, _, _ => pure true
  | n + 1, a, pa => do
    match ← walk pagetable a true with
    | none => pure false
    | some ptr => do
      let e ← load ptr
      if Valid e then throw .remap
      else do
        store ptr (PA2PTE pa ||| perm ||| PTE_V)
        mapLoop pagetable perm n (a + PGSIZE) (pa + 1)

/-- Whether all of it could be mapped. -/
def mappages (pagetable va size pa : ℕ) (perm : Pte) : Vm Bool :=
  if va % PGSIZE ≠ 0 then throw .mappagesVa
  else if size % PGSIZE ≠ 0 then throw .mappagesSize
  else if size = 0 then throw .mappagesZero
  else mapLoop pagetable perm (size / PGSIZE) va pa

def uvmcreate : Vm (Option ℕ) := do
  match ← kalloc with
  | none => pure none
  | some p => do
    writePage p 0
    pure (some p)

/-- The loop body of `uvmunmap`. -/
def unmapPage (pagetable : ℕ) (doFree : Bool) (a : ℕ) : Vm Unit := do
  match ← walk pagetable a false with
  | none => pure ()
  | some ptr => do
    let e ← load ptr
    if ¬ Valid e then pure ()
    else do
      (if doFree then kfree (PTE2PA e) else pure ())
      store ptr 0

def uvmunmap (pagetable va npages : ℕ) (doFree : Bool) : Vm Unit :=
  if va % PGSIZE ≠ 0 then throw .uvmunmap
  else loop (fun i => unmapPage pagetable doFree (va + i * PGSIZE)) npages 0

/-- `int npages = n`, passed on as a `uint64`. -/
def intPages (n : ℕ) : ℕ := ((BitVec.ofNat 32 n).signExtend 64).toNat

def uvmdealloc (pagetable oldsz newsz : ℕ) : Vm ℕ :=
  if oldsz ≤ newsz then pure oldsz
  else if PGROUNDUP newsz < PGROUNDUP oldsz then do
    uvmunmap pagetable (PGROUNDUP newsz)
      (intPages ((PGROUNDUP oldsz - PGROUNDUP newsz) / PGSIZE)) true
    pure newsz
  else pure newsz

/-- The loop of `uvmalloc`, for `n` more pages. -/
def allocLoop (pagetable oldsz : ℕ) (xperm : Pte) : ℕ → ℕ → Vm Bool
  | 0, _ => pure true
  | n + 1, a => do
    match ← kalloc with
    | none => do
      let _ ← uvmdealloc pagetable a oldsz
      pure false
    | some mem => do
      writePage mem 0
      if ← mappages pagetable a PGSIZE mem (PTE_R ||| PTE_U ||| xperm) then
        allocLoop pagetable oldsz xperm n (a + PGSIZE)
      else do
        kfree mem
        let _ ← uvmdealloc pagetable a oldsz
        pure false

def uvmalloc (pagetable oldsz newsz : ℕ) (xperm : Pte) : Vm ℕ :=
  if newsz < oldsz then pure oldsz
  else do
    let oldsz := PGROUNDUP oldsz
    if ← allocLoop pagetable oldsz xperm ((newsz - oldsz + (PGSIZE - 1)) / PGSIZE) oldsz then
      pure newsz
    else pure 0

/-- The recursion goes down at most `depth` tables. -/
def freewalk : ℕ → ℕ → Vm Unit
  | 0, _ => throw .freewalkDepth
  | depth + 1, p => do
    loop (fun i => do
      let x ← readPage p
      let e := pte x i
      if Valid e ∧ Inner e then do
        freewalk depth (PTE2PA e)
        let x ← readPage p
        writePage p (setPte x i 0)
      else if Valid e then throw .freewalkLeaf
      else pure ()) 512 0
    kfree p

def uvmfree (pagetable sz : ℕ) : Vm Unit := do
  (if 0 < sz then uvmunmap pagetable 0 (PGROUNDUP sz / PGSIZE) true else pure ())
  freewalk 3 pagetable

end Walk

section Copy

/-- The loop of `uvmcopy`, for `n` more pages. -/
def copyLoop (old new : ℕ) : ℕ → ℕ → Vm Bool
  | 0, _ => pure true
  | n + 1, i => do
    match ← walk old i false with
    | none => copyLoop old new n (i + PGSIZE)
    | some ptr => do
      let e ← load ptr
      if ¬ Valid e then copyLoop old new n (i + PGSIZE)
      else do
        match ← kalloc with
        | none => do
          uvmunmap new 0 (i / PGSIZE) true
          pure false
        | some mem => do
          let x ← readPage (PTE2PA e)
          writePage mem x
          if ← mappages new i PGSIZE mem (PTE_FLAGS e) then copyLoop old new n (i + PGSIZE)
          else do
            kfree mem
            uvmunmap new 0 (i / PGSIZE) true
            pure false

def uvmcopy (old new sz : ℕ) : Vm Bool := copyLoop old new ((sz + (PGSIZE - 1)) / PGSIZE) 0

def uvmclear (pagetable va : ℕ) : Vm Unit := do
  match ← walk pagetable va false with
  | none => throw .uvmclear
  | some ptr => do
    let e ← load ptr
    store ptr (e &&& ~~~PTE_U)

def ismapped (pagetable va : ℕ) : Vm Bool := do
  match ← walk pagetable va false with
  | none => pure false
  | some ptr => do
    let e ← load ptr
    pure (decide (Valid e))

/-- What vm.c reads of the running process. -/
structure Space where
  sz : ℕ
  pagetable : ℕ

def vmfault (cur : Space) (pagetable va : ℕ) : Vm ℕ :=
  if cur.sz ≤ va then pure 0
  else do
    let va := PGROUNDDOWN va
    if ← ismapped pagetable va then pure 0
    else do
      match ← kalloc with
      | none => pure 0
      | some mem => do
        writePage mem 0
        if ← mappages cur.pagetable va PGSIZE mem (PTE_W ||| PTE_U ||| PTE_R) then pure mem
        else do
          kfree mem
          pure 0

abbrev Byte := BitVec 8

/-- `memmove(dst, p + off, n)` -/
def getBytes (x : Page) (off n : ℕ) : List Byte :=
  (List.range n).map (fun i => getField x (8 * (off + i)) 8)

/-- `memmove(p + off, src, n)` -/
def setBytes (x : Page) (off : ℕ) : List Byte → Page
  | [] => x
  | c :: cs => setBytes (setField x (8 * off) c) (off + 1) cs

/-- `walkaddr`, and `vmfault` where it finds nothing. -/
def faultIn (cur : Space) (pagetable va0 : ℕ) : Vm ℕ := do
  let pa0 ← walkaddr pagetable va0
  if pa0 = 0 then vmfault cur pagetable va0 else pure pa0

/-- The loop of `copyout`; every iteration copies at least one byte. -/
def copyoutLoop (cur : Space) (pagetable : ℕ) : ℕ → ℕ → List Byte → Vm Bool
  | 0, _, _ => pure true
  | fuel + 1, dstva, src =>
    if src = [] then pure true
    else if MAXVA ≤ PGROUNDDOWN dstva then pure false
    else do
      let va0 := PGROUNDDOWN dstva
      let pa0 ← faultIn cur pagetable va0
      if pa0 = 0 then pure false
      else do
        match ← walk pagetable va0 false with
        | none => throw .nullPte
        | some ptr => do
          let e ← load ptr
          if e &&& PTE_W = 0 then pure false
          else do
            let n := PGSIZE - (dstva - va0)
            let x ← readPage pa0
            writePage pa0 (setBytes x (dstva - va0) (src.take n))
            copyoutLoop cur pagetable fuel (va0 + PGSIZE) (src.drop n)

def copyout (cur : Space) (pagetable dstva : ℕ) (src : List Byte) : Vm Bool :=
  copyoutLoop cur pagetable src.length dstva src

/-- The loop of `copyin`; every iteration copies at least one byte. -/
def copyinLoop (cur : Space) (pagetable : ℕ) : ℕ → ℕ → ℕ → List Byte → Vm (Option (List Byte))
  | 0, _, _, dst => pure (some dst)
  | fuel + 1, srcva, len, dst =>
    if len = 0 then pure (some dst)
    else do
      let va0 := PGROUNDDOWN srcva
      let pa0 ← faultIn cur pagetable va0
      if pa0 = 0 then pure none
      else do
        let n := min (PGSIZE - (srcva - va0)) len
        let x ← readPage pa0
        copyinLoop cur pagetable fuel (va0 + PGSIZE) (len - n) (dst ++ getBytes x (srcva - va0) n)

def copyin (cur : Space) (pagetable srcva len : ℕ) : Vm (Option (List Byte)) :=
  copyinLoop cur pagetable len srcva len []

/-- The loop of `copyinstr`; the string comes without its 0. -/
def copyinstrLoop (pagetable : ℕ) : ℕ → ℕ → ℕ → List Byte → Vm (Option (List Byte))
  | 0, _, _, _ => pure none
  | fuel + 1, srcva, max, dst =>
    if max = 0 then pure none
    else do
      let va0 := PGROUNDDOWN srcva
      let pa0 ← walkaddr pagetable va0
      if pa0 = 0 then pure none
      else do
        let n := min (PGSIZE - (srcva - va0)) max
        let x ← readPage pa0
        let bytes := getBytes x (srcva - va0) n
        if bytes.contains 0 then pure (some (dst ++ bytes.takeWhile (· ≠ 0)))
        else copyinstrLoop pagetable fuel (va0 + PGSIZE) (max - n) (dst ++ bytes)

def copyinstr (pagetable srcva max : ℕ) : Vm (Option (List Byte)) :=
  copyinstrLoop pagetable max srcva max []

end Copy

end Xv6
