import Xv6.Exec
import Xv6.LinkedRing
import Xv6.Log

/-! The buffer cache (kernel/bio.c): `NBUF` buffers in the order of last use, used by operations and
by `commit`. Any number of processes take turns; one step is a critical section of `bcache.lock` or
`log.lock`, a sleep-lock operation, a disk transfer, or a use of a locked buffer's data. -/
namespace Xv6.Bio

def NBUF : ℕ := MAXOPBLOCKS * 3

def ROOTDEV : ℕ := 1

/-- `struct buf`; `lock` is the process that holds the sleep-lock. -/
structure Buf where
  valid : Bool
  dev : ℕ
  blockno : ℕ
  lock : Option ℕ
  refcnt : ℕ
  prev : ℕ
  next : ℕ
  data : Block

/-- A buffer that a process has from `bread`: whether it changed the data since, and whether
it called `log_write`. -/
structure Hold where
  buf : ℕ
  dirty : Bool
  logged : Bool

/-- Where a process is when it is not inside a function of bio.c. -/
inductive Code where
  /-- ordinary code, inside an operation that logged the blocks `logs` if there is one -/
  | run (op : Option (List ℕ)) (held : List Hold)
  /-- `write_log`: `bread` of the log block, `bread` of the cache block, copy and `bwrite`,
  `brelse` of both -/
  | wlTo (tail : ℕ)
  | wlFrom (tail dst : ℕ)
  | wlCopy (tail dst src : ℕ)
  | wlRelseFrom (tail dst src : ℕ)
  | wlRelseTo (tail dst : ℕ)
  /-- `write_head`; `full` is the first of the two calls in `commit` -/
  | headRead (full : Bool)
  | headWrite (full : Bool) (buf : ℕ)
  | headRelse (full : Bool) (buf : ℕ)
  /-- `install_trans`, in the same way -/
  | itLog (tail : ℕ)
  | itDst (tail lbuf : ℕ)
  | itCopy (tail lbuf dbuf : ℕ)
  | itRelseLog (tail lbuf dbuf : ℕ)
  | itRelseDst (tail dbuf : ℕ)
  | clear
  | done

inductive Panic where
  | noBuffers
  | tooBigTransaction
deriving DecidableEq

/-- Where a process is. -/
inductive Pt where
  | ready (k : Code)
  /-- `bget` counted the reference to buffer `i`; before `acquiresleep` returns -/
  | want (i : ℕ) (k : Code)
  /-- `bget` returned the buffer `i`; `bread` reads it if it is not valid -/
  | fill (i : ℕ) (k : Code)
  /-- in `brelse`, after `releasesleep` -/
  | unref (i : ℕ) (k : Code)
  | panic (why : Panic) (k : Code)

/-- `bcache` (the buffer at index `NBUF` is `bcache.head`), the disk and `log`. Ghost state: the
pinned blocks, and each block's contents at the last `brelse` of a modified buffer, with and without
the copies that `commit` makes. -/
structure St where
  buf : ℕ → Buf
  disk : Disk
  lh : List ℕ
  outstanding : ℕ
  committing : Bool
  pc : ℕ → Pt
  pins : List ℕ
  last : Disk
  lastOp : Disk

inductive Act where
  | beginOp
  | bread (b : ℕ)
  | modify (i : ℕ) (data : Block)
  | logWrite (i : ℕ)
  | brelse (i : ℕ)
  | endOp
  | go

namespace St

def setPc (s : St) (p : ℕ) (x : Pt) : St := { s with pc := update s.pc p x }

def setBuf (s : St) (i : ℕ) (x : Buf) : St := { s with buf := update s.buf i x }

def links (s : St) : Links ℕ := ⟨fun i => (s.buf i).next, fun i => (s.buf i).prev⟩

def setLinks (s : St) (l : Links ℕ) : St :=
  { s with buf := fun i => { s.buf i with next := l.next i, prev := l.prev i } }

/-- The first loop of `bget`. -/
def cached (s : St) (dev blockno : ℕ) : Option ℕ :=
  Links.scan s.links.next NBUF
    (fun i => (s.buf i).dev = dev && (s.buf i).blockno = blockno) (NBUF + 1) (s.links.next NBUF)

/-- The second loop of `bget`. -/
def unused (s : St) : Option ℕ :=
  Links.scan s.links.prev NBUF (fun i => (s.buf i).refcnt = 0) (NBUF + 1) (s.links.prev NBUF)

def hit (s : St) (i : ℕ) : St := s.setBuf i { s.buf i with refcnt := (s.buf i).refcnt + 1 }

def recycle (s : St) (i dev blockno : ℕ) : St :=
  s.setBuf i { s.buf i with dev := dev, blockno := blockno, valid := false, refcnt := 1 }

/-- `bget(dev, blockno)` called by process `p` at `k` up to `acquiresleep`; with the buffer
`i` the process goes on as `k' i`. -/
def bget (s : St) (p dev blockno : ℕ) (k : Code) (k' : ℕ → Code) : St :=
  match s.cached dev blockno with
  | some i => (s.hit i).setPc p (.want i (k' i))
  | none =>
    match s.unused with
    | some i => (s.recycle i dev blockno).setPc p (.want i (k' i))
    | none => s.setPc p (.panic .noBuffers k)

/-- The rest of `bread`: `virtio_disk_rw(b, 0)` if the buffer is not valid. -/
def fill (s : St) (i : ℕ) : St :=
  if (s.buf i).valid then s
  else s.setBuf i { s.buf i with valid := true, data := s.disk (s.buf i).blockno }

def setLock (s : St) (i : ℕ) (o : Option ℕ) : St := s.setBuf i { s.buf i with lock := o }

def setData (s : St) (i : ℕ) (data : Block) : St := s.setBuf i { s.buf i with data := data }

/-- The buffer gets new contents, and `bwrite` writes them to disk. -/
def bwrite (s : St) (i : ℕ) (data : Block) : St :=
  { s.setData i data with disk := update s.disk (s.buf i).blockno data }

/-- `brelse` up to `releasesleep`. -/
def brelse (s : St) (p i : ℕ) (k : Code) : St := (s.setLock i none).setPc p (.unref i k)

/-- The same by a process that modified the buffer. -/
def brelseModified (s : St) (p i : ℕ) (k : Code) : St :=
  { s.brelse p i k with last := update s.last (s.buf i).blockno (s.buf i).data }

/-- The rest of `brelse`, under `bcache.lock`. -/
def unref (s : St) (i : ℕ) : St :=
  let s' := s.setBuf i { s.buf i with refcnt := (s.buf i).refcnt - 1 }
  if (s'.buf i).refcnt = 0 then s'.setLinks ((s'.links.unlink i).insertFront NBUF i) else s'

def bpin (s : St) (i : ℕ) : St :=
  { s.hit i with pins := s.pins ++ [(s.buf i).blockno] }

def bunpin (s : St) (i : ℕ) : St :=
  { s.setBuf i { s.buf i with refcnt := (s.buf i).refcnt - 1 } with
    pins := s.pins.erase (s.buf i).blockno }

/-- `log_write` past its panic: absorbed, or appended and pinned. -/
def logWrite (s : St) (i : ℕ) : St :=
  if (s.buf i).blockno ∈ s.lh then s
  else { s.bpin i with lh := s.lh ++ [(s.buf i).blockno] }

end St

namespace Hold

def markDirty (h : Hold) : Hold := { h with dirty := true }

def markLogged (h : Hold) : Hold := { h with logged := true }

/-- Change the hold on buffer `i`. -/
def on (i : ℕ) (f : Hold → Hold) (held : List Hold) : List Hold :=
  held.map (fun h => if h.buf = i then f h else h)

end Hold

/-- One step of `commit`, by process `p` at `k`. -/
def commitStep (start : ℕ) (s : St) (p : ℕ) : Code → Option St
  | .wlTo tail =>
    if tail < s.lh.length then
      some (s.bget p ROOTDEV (start + tail + 1) (.wlTo tail) (.wlFrom tail))
    else some (s.setPc p (.ready (.headRead true)))
  | .wlFrom tail dst =>
    some (s.bget p ROOTDEV (s.lh.getD tail 0) (.wlFrom tail dst) (.wlCopy tail dst))
  | .wlCopy tail dst src =>
    some ((s.bwrite dst (s.buf src).data).setPc p (.ready (.wlRelseFrom tail dst src)))
  | .wlRelseFrom tail dst src => some (s.brelse p src (.wlRelseTo tail dst))
  | .wlRelseTo tail dst => some (s.brelseModified p dst (.wlTo (tail + 1)))
  | .headRead full => some (s.bget p ROOTDEV start (.headRead full) (.headWrite full))
  | .headWrite full i =>
    some ((s.bwrite i (writeHead (s.buf i).data s.lh)).setPc p (.ready (.headRelse full i)))
  | .headRelse full i => some (s.brelseModified p i (if full then .itLog 0 else .done))
  | .itLog tail =>
    if tail < s.lh.length then
      some (s.bget p ROOTDEV (start + tail + 1) (.itLog tail) (.itDst tail))
    else some (s.setPc p (.ready .clear))
  | .itDst tail lbuf =>
    some (s.bget p ROOTDEV (s.lh.getD tail 0) (.itDst tail lbuf) (.itCopy tail lbuf))
  | .itCopy tail lbuf dbuf =>
    some (((s.bwrite dbuf (s.buf lbuf).data).bunpin dbuf).setPc p
      (.ready (.itRelseLog tail lbuf dbuf)))
  | .itRelseLog tail lbuf dbuf => some (s.brelse p lbuf (.itRelseDst tail dbuf))
  | .itRelseDst tail dbuf => some (s.brelseModified p dbuf (.itLog (tail + 1)))
  | .clear => some ({ s with lh := [] }.setPc p (.ready (.headRead false)))
  -- back in `end_op`
  | .done => some ({ s with committing := false }.setPc p (.ready (.run none [])))
  | .run _ _ => none

/-- One step of process `p` in ordinary code. Only operations modify buffers, and they pass
every modified buffer to `log_write` before `brelse`. -/
def runStep (s : St) (p : ℕ) (op : Option (List ℕ)) (held : List Hold) : Act → Option St
  | .beginOp =>
    if op = none ∧ held = [] ∧ s.committing = false ∧
        s.lh.length + (s.outstanding + 1) * MAXOPBLOCKS ≤ LOGBLOCKS then
      some ({ s with outstanding := s.outstanding + 1 }.setPc p (.ready (.run (some []) [])))
    else none
  | .bread b =>
    some (s.bget p ROOTDEV b (.run op held) (fun i => .run op (⟨i, false, false⟩ :: held)))
  | .modify i data =>
    if op ≠ none ∧ i ∈ held.map Hold.buf then
      some ((s.setData i data).setPc p (.ready (.run op (Hold.on i Hold.markDirty held))))
    else none
  | .logWrite i =>
    match op with
    | none => none
    | some logs =>
      if i ∈ held.map Hold.buf then
        if LOGBLOCKS ≤ s.lh.length then
          some (s.setPc p (.panic .tooBigTransaction (.run op held)))
        else
          some ((s.logWrite i).setPc p
            (.ready (.run (some (logs.insert (s.buf i).blockno)) (Hold.on i Hold.markLogged held))))
      else none
  | .brelse i =>
    match held.find? (fun h => h.buf = i) with
    | none => none
    | some h =>
      let k := Code.run op (held.eraseP (fun h => h.buf = i))
      if h.dirty = false then some (s.brelse p i k)
      else if h.logged then
        some { s.brelseModified p i k with
          lastOp := update s.lastOp (s.buf i).blockno (s.buf i).data }
      else none
  | .endOp =>
    if op ≠ none ∧ held = [] then
      let s' := { s with outstanding := s.outstanding - 1 }
      if s'.outstanding = 0 then
        -- `commit` does nothing when the log is empty
        some ({ s' with committing := true }.setPc p
          (.ready (if s.lh = [] then .done else .wlTo 0)))
      else some (s'.setPc p (.ready (.run none [])))
    else none
  | .go => none

def step (N start : ℕ) (s : St) (e : ℕ × Act) : Option St :=
  if e.1 < N then
    match s.pc e.1, e.2 with
    | .ready (.run op held), a => runStep s e.1 op held a
    | .ready k, .go => commitStep start s e.1 k
    | .want i k, .go =>
      if (s.buf i).lock = none then some ((s.setLock i (some e.1)).setPc e.1 (.fill i k))
      else none
    | .fill i k, .go => some ((s.fill i).setPc e.1 (.ready k))
    | .unref i k, .go => some ((s.unref i).setPc e.1 (.ready k))
    | _, _ => none
  else none

/-- The list that `binit` makes. -/
def binit : Links ℕ :=
  (List.range NBUF).foldl (fun l b => l.insertFront NBUF b)
    ⟨update (fun _ => 0) NBUF NBUF, update (fun _ => 0) NBUF NBUF⟩

/-- After `binit`, with an empty log: nothing cached, nobody in the file system. -/
def init (disk : Disk) : St where
  buf := fun i => ⟨false, 0, 0, none, 0, binit.prev i, binit.next i, 0⟩
  disk := disk
  lh := []
  outstanding := 0
  committing := false
  pc := fun _ => .ready (.run none [])
  pins := []
  last := disk
  lastOp := disk

end Xv6.Bio
