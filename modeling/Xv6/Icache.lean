import Xv6.Exec

/-! The inode table (kernel/fs.c, `iget` to `iput`, `ialloc`, `iupdate`, `itrunc`) with any number
of processes. One step is a critical section of `itable.lock`, a sleep-lock operation, a change of a
locked in-memory inode, or one use of an inode's disk block. -/
namespace Xv6.Icache

def NINODE : ℕ := 50

def NDIRECT : ℕ := 12

/-- `struct dinode`, and the part of `struct inode` that is a copy of it. -/
structure Dinode where
  type : BitVec 16
  major : BitVec 16
  minor : BitVec 16
  nlink : BitVec 16
  size : BitVec 32
  addrs : Vector (BitVec 32) (NDIRECT + 1)
deriving DecidableEq

def Dinode.zero : Dinode := ⟨0, 0, 0, 0, 0, Vector.replicate _ 0⟩

/-- What `itrunc` leaves of the copy. -/
def Dinode.truncated (d : Dinode) : Dinode := { d with addrs := Vector.replicate _ 0, size := 0 }

/-- `struct inode`; `lock` is the process that holds the sleep-lock. -/
structure Inode where
  dev : ℕ
  inum : ℕ
  ref : ℕ
  lock : Option ℕ
  valid : Bool
  copy : Dinode

/-- A locked inode, by the pointer it was locked through; `dirty` if the copy was changed since
the last `iupdate`. -/
structure Held where
  ptr : ℕ
  dirty : Bool

inductive Pt where
  | run
  /-- `ilock`, before `acquiresleep` returns -/
  | wait (h : ℕ)
  /-- `ilock` with the sleep-lock, at the test of `valid` -/
  | load (h : ℕ)
  /-- the loop of `ialloc`, at `inum` -/
  | alloc (dev : ℕ) (type : BitVec 16) (inum : ℕ)
  /-- `iget` at the end of `ialloc` -/
  | allocGet (dev inum : ℕ)
  /-- `iput` of the last reference to an inode without links: `itrunc`, its `iupdate`,
  `type = 0`, `iupdate`, `valid = 0`, `releasesleep`, and the decrement of `ref` -/
  | putTrunc (h : ℕ)
  | putTruncUpdate (h : ℕ)
  | putType (h : ℕ)
  | putUpdate (h : ℕ)
  | putInvalid (h : ℕ)
  | putUnlock (h : ℕ)
  | putDrop (h : ℕ)
  /-- `panic("iget: no inodes")` -/
  | noInodes
  /-- `panic("ilock: no type")` -/
  | noType (h : ℕ)

structure Proc where
  pt : Pt
  held : List Held

/-- The table, the inodes on disk as the buffer cache has them, and the pointers into the table:
`ptr h` is the entry that the pointer `h` is to, while a file, a directory or a function has it. -/
structure St where
  itable : ℕ → Inode
  dinode : ℕ → ℕ → Dinode
  ptr : ℕ → Option ℕ
  next : ℕ
  proc : ℕ → Proc

inductive Act where
  | iget (dev inum : ℕ)
  | ialloc (dev : ℕ) (type : BitVec 16)
  | idup (h : ℕ)
  | ilock (h : ℕ)
  /-- a change of the locked copy, by `writei`, `itrunc`, or of `nlink`, `major`, `minor` -/
  | modify (h : ℕ) (d : Dinode)
  | iupdate (h : ℕ)
  | iunlock (h : ℕ)
  | iput (h : ℕ)
  | go

/-- What the loop of `iget` finds. -/
inductive Found where
  | hit (i : ℕ)
  | empty (i : ℕ)
  | full

/-- The loop of `iget` over the entries `is`, with the first empty one so far. -/
def scan (itable : ℕ → Inode) (dev inum : ℕ) : List ℕ → Option ℕ → Found
  | [], some i => .empty i
  | [], none => .full
  | i :: is, empty =>
    if 0 < (itable i).ref ∧ (itable i).dev = dev ∧ (itable i).inum = inum then .hit i
    else scan itable dev inum is
      (if empty = none ∧ (itable i).ref = 0 then some i else empty)

theorem scan_spec (itable : ℕ → Inode) (dev inum : ℕ) (is : List ℕ) (empty : Option ℕ)
    (hempty : ∀ i, empty = some i → (itable i).ref = 0) :
    match scan itable dev inum is empty with
    | .hit i => i ∈ is ∧ 0 < (itable i).ref ∧ (itable i).dev = dev ∧ (itable i).inum = inum
    | .empty i => (i ∈ is ∨ empty = some i) ∧ (itable i).ref = 0 ∧
        ∀ j ∈ is, 0 < (itable j).ref → ¬ ((itable j).dev = dev ∧ (itable j).inum = inum)
    | .full => empty = none ∧ ∀ j ∈ is, 0 < (itable j).ref := by
  induction is generalizing empty with
  | nil =>
    cases empty with
    | none => exact ⟨rfl, by simp⟩
    | some i => exact ⟨.inr rfl, hempty i rfl, by simp⟩
  | cons i is ih =>
    rw [scan]
    split_ifs with hmatch hfirst
    · exact ⟨List.mem_cons_self, hmatch⟩
    · have hrest := ih (some i) (fun j hj => by cases hj; exact hfirst.2)
      revert hrest
      split
      · exact fun hrest => ⟨List.mem_cons_of_mem i hrest.1, hrest.2⟩
      · rintro ⟨hmem, hzero, hnone⟩
        refine ⟨.inl ?_, hzero, ?_⟩
        · rcases hmem with hmem | hmem
          · exact List.mem_cons_of_mem i hmem
          · cases hmem
            exact List.mem_cons_self
        · intro j hj hpos hsame
          rcases List.mem_cons.mp hj with rfl | hj
          · exact hmatch ⟨hpos, hsame⟩
          · exact hnone j hj hpos hsame
      · exact fun hrest => absurd hrest.1 (by simp)
    · have hrest := ih empty hempty
      revert hrest
      split
      · exact fun hrest => ⟨List.mem_cons_of_mem i hrest.1, hrest.2⟩
      · rintro ⟨hmem, hzero, hnone⟩
        refine ⟨hmem.imp_left (List.mem_cons_of_mem i), hzero, ?_⟩
        intro j hj hpos hsame
        rcases List.mem_cons.mp hj with rfl | hj
        · exact hmatch ⟨hpos, hsame⟩
        · exact hnone j hj hpos hsame
      · rintro ⟨hnone, hpos⟩
        refine ⟨hnone, fun j hj => ?_⟩
        rcases List.mem_cons.mp hj with rfl | hj
        · exact Nat.pos_of_ne_zero (fun hz => hfirst ⟨hnone, hz⟩)
        · exact hpos j hj

namespace Pt

/-- The pointer that a process is inside `ilock` or `iput` with. -/
def uses : Pt → Option ℕ
  | .wait h | .load h | .noType h => some h
  | .putTrunc h | .putTruncUpdate h | .putType h | .putUpdate h | .putInvalid h | .putUnlock h
  | .putDrop h => some h
  | _ => none

/-- The pointer that a process is giving up. -/
def puts : Pt → Option ℕ
  | .putTrunc h | .putTruncUpdate h | .putType h | .putUpdate h | .putInvalid h | .putUnlock h
  | .putDrop h => some h
  | _ => none

end Pt

/-- The pointers that a process works with. -/
def Proc.uses (x : Proc) : List ℕ := x.pt.uses.toList ++ x.held.map Held.ptr

namespace St

def setProc (s : St) (p : ℕ) (x : Proc) : St := { s with proc := update s.proc p x }

def setPt (s : St) (p : ℕ) (pt : Pt) : St := s.setProc p { s.proc p with pt := pt }

def setInode (s : St) (i : ℕ) (x : Inode) : St :=
  { s with itable := update s.itable i x }

/-- A new pointer to entry `i`. -/
def addPtr (s : St) (i : ℕ) : St :=
  { s with ptr := update s.ptr s.next (some i), next := s.next + 1 }

def setDinode (s : St) (dev inum : ℕ) (d : Dinode) : St :=
  { s with dinode := update s.dinode dev (update (s.dinode dev) inum d) }

/-- `iget`, after which process `p` goes on in ordinary code. -/
def iget (s : St) (p dev inum : ℕ) : St :=
  match scan s.itable dev inum (List.range NINODE) none with
  | .hit i =>
    ((s.setInode i { s.itable i with ref := (s.itable i).ref + 1 }).addPtr i).setPt p .run
  | .empty i =>
    ((s.setInode i { s.itable i with dev := dev, inum := inum, ref := 1, valid := false }).addPtr
      i).setPt p .run
  | .full => s.setPt p .noInodes

def setCopy (s : St) (i : ℕ) (d : Dinode) : St := s.setInode i { s.itable i with copy := d }

def setLock (s : St) (i : ℕ) (o : Option ℕ) : St := s.setInode i { s.itable i with lock := o }

/-- `iupdate` of entry `i`. -/
def iupdate (s : St) (i : ℕ) : St :=
  s.setDinode (s.itable i).dev (s.itable i).inum (s.itable i).copy

/-- The end of `iput`: `ref--`, and the pointer `h` is gone. -/
def drop (s : St) (h i : ℕ) : St :=
  { s.setInode i { s.itable i with ref := (s.itable i).ref - 1 } with
    ptr := update s.ptr h none }

/-- Nobody but process `p` works with the pointer `h`, so that `p` may give it up. The counts of
struct file see to it for shared pointers. -/
def soleUser (s : St) (N p h : ℕ) : Bool :=
  (List.range N).all (fun q => q = p || !(s.proc q).uses.contains h) &&
    !((s.proc p).held.map Held.ptr).contains h

/-- Nobody is giving up the pointer `h`. -/
def inUse (s : St) (N h : ℕ) : Bool :=
  (List.range N).all (fun q => (s.proc q).pt.puts ≠ some h)

end St

/-- Change what is recorded of the inode locked through `h`. -/
def Held.mark (h : ℕ) (dirty : Bool) (held : List Held) : List Held :=
  held.map (fun x => if x.ptr = h then { x with dirty := dirty } else x)

/-- One step of process `p` inside `ilock`, `ialloc` or `iput`. -/
def go (ninodes : ℕ) (s : St) (p : ℕ) : Pt → Option St
  | .wait h =>
    match s.ptr h with
    | none => none
    | some i =>
      if (s.itable i).lock = none then some ((s.setLock i (some p)).setPt p (.load h)) else none
  | .load h =>
    match s.ptr h with
    | none => none
    | some i =>
      let locked : Proc := ⟨.run, ⟨h, false⟩ :: (s.proc p).held⟩
      if (s.itable i).valid then some (s.setProc p locked)
      else
        let d := s.dinode (s.itable i).dev (s.itable i).inum
        let s' := s.setInode i { s.itable i with copy := d, valid := true }
        if d.type = 0 then some (s'.setPt p (.noType h)) else some (s'.setProc p locked)
  | .alloc dev type inum =>
    if inum < ninodes then
      if (s.dinode dev inum).type = 0 then
        some ((s.setDinode dev inum { Dinode.zero with type := type }).setPt p (.allocGet dev inum))
      else some (s.setPt p (.alloc dev type (inum + 1)))
    else some (s.setPt p .run)
  | .allocGet dev inum => some (s.iget p dev inum)
  | .putTrunc h => (s.ptr h).map (fun i =>
    (s.setCopy i (s.itable i).copy.truncated).setPt p (.putTruncUpdate h))
  | .putTruncUpdate h => (s.ptr h).map (fun i => (s.iupdate i).setPt p (.putType h))
  | .putType h => (s.ptr h).map (fun i =>
    (s.setCopy i { (s.itable i).copy with type := 0 }).setPt p (.putUpdate h))
  | .putUpdate h => (s.ptr h).map (fun i => (s.iupdate i).setPt p (.putInvalid h))
  | .putInvalid h => (s.ptr h).map (fun i =>
    (s.setInode i { s.itable i with valid := false }).setPt p (.putUnlock h))
  | .putUnlock h => (s.ptr h).map (fun i => (s.setLock i none).setPt p (.putDrop h))
  | .putDrop h => (s.ptr h).map (fun i => (s.drop h i).setPt p .run)
  | .run | .noInodes | .noType _ => none

/-- One step of process `p` in ordinary code. A locked inode that was changed is passed to
`iupdate` before `iunlock`; nobody locks or copies a pointer that is being given up. -/
def call (N : ℕ) (s : St) (p : ℕ) : Act → Option St
  | .iget dev inum => some (s.iget p dev inum)
  | .ialloc dev type => if type ≠ 0 then some (s.setPt p (.alloc dev type 1)) else none
  | .idup h =>
    match s.ptr h with
    | none => none
    | some i =>
      if s.inUse N h then
        some ((s.setInode i { s.itable i with ref := (s.itable i).ref + 1 }).addPtr i)
      else none
  | .ilock h =>
    if s.ptr h ≠ none ∧ s.inUse N h then some (s.setPt p (.wait h)) else none
  | .modify h d =>
    match s.ptr h with
    | none => none
    | some i =>
      if h ∈ (s.proc p).held.map Held.ptr ∧ d.type = (s.itable i).copy.type then
        some ((s.setCopy i d).setProc p ⟨.run, Held.mark h true (s.proc p).held⟩)
      else none
  | .iupdate h =>
    match s.ptr h with
    | none => none
    | some i =>
      if h ∈ (s.proc p).held.map Held.ptr then
        some ((s.iupdate i).setProc p ⟨.run, Held.mark h false (s.proc p).held⟩)
      else none
  | .iunlock h =>
    match s.ptr h, (s.proc p).held.find? (fun x => x.ptr = h) with
    | some i, some x =>
      if x.dirty = false then
        some ((s.setLock i none).setProc p
          ⟨.run, (s.proc p).held.eraseP (fun x => x.ptr = h)⟩)
      else none
    | _, _ => none
  | .iput h =>
    match s.ptr h with
    | none => none
    | some i =>
      if s.soleUser N p h then
        let ip := s.itable i
        if ip.ref = 1 ∧ ip.valid = true ∧ ip.copy.nlink = 0 then
          -- `acquiresleep` under `itable.lock`
          if ip.lock = none then some ((s.setLock i (some p)).setPt p (.putTrunc h)) else none
        else some (s.drop h i)
      else none
  | .go => none

def step (N ninodes : ℕ) (s : St) (e : ℕ × Act) : Option St :=
  if e.1 < N then
    match (s.proc e.1).pt, e.2 with
    | .run, a => call N s e.1 a
    | pt, .go => go ninodes s e.1 pt
    | _, _ => none
  else none

/-- After `iinit`: an empty table over any inodes on disk. -/
def init (dinode : ℕ → ℕ → Dinode) : St where
  itable := fun _ => ⟨0, 0, 0, none, false, Dinode.zero⟩
  dinode := dinode
  ptr := fun _ => none
  next := 0
  proc := fun _ => ⟨.run, []⟩

end Xv6.Icache
