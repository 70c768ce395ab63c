import Xv6.Disk
import Xv6.ProcSleep

/-! The redo log (kernel/log.c) over the buffer cache (kernel/bio.c) and the disk. Operations run
between `begin_op` and `end_op` on any number of processes; the last `end_op` commits. The condition
lock is `log.lock`. Every step makes at most one disk write, so a crash is any reachable state. -/
namespace Xv6

def MAXOPBLOCKS : ℕ := 10

def LOGBLOCKS : ℕ := MAXOPBLOCKS * 3

/-- `read_head`: `n`, an `int`, and `block[0..n)`. -/
def readHead (b : Block) : List ℕ :=
  (List.range (word b 0).toInt.toNat).map (fun i => (word b (i + 1)).toNat)

/-- The loop of `write_head`, from index `i` on. -/
def writeBlocks (b : Block) (i : ℕ) : List ℕ → Block
  | [] => b
  | x :: xs => writeBlocks (setWord b (i + 1) (BitVec.ofNat 32 x)) (i + 1) xs

def writeHead (b : Block) (lh : List ℕ) : Block :=
  writeBlocks (setWord b 0 (BitVec.ofNat 32 lh.length)) 0 lh

/-- A `struct buf` of the cache; `lock` is the holder of its sleep-lock. A block without a
buffer is one whose buffer is not valid and not referenced. -/
structure Buf where
  valid : Bool
  data : Block
  refcnt : ℕ
  lock : Option ℕ

/-- A call of `log_write`: the operation, the block and its contents at that time. -/
structure LogWrite where
  op : ℕ
  blockno : ℕ
  data : Block

/-- `struct log`, the buffer cache and the disk. Ghost state: the number of operations, the pinned
blocks, the calls of `log_write` since the last commit and those of every commit, how many commits
are on disk and how many have returned. -/
structure LogG where
  disk : Disk
  buf : ℕ → Buf
  lh : List ℕ
  outstanding : ℤ
  committing : Bool
  ops : ℕ
  pins : List ℕ
  current : List LogWrite
  commits : List (List LogWrite)
  durable : ℕ
  returned : ℕ

inductive LogPanic where
  | logCommitting
  | tooBigTransaction
  | outsideOfTrans

/-- The places of log.c between two lock operations, buffer operations or disk writes. -/
inductive LogPt where
  | user
  | beginLock
  | beginLoop
  /-- inside the operation `op`; the blocks `dirty` were modified since their last
  `log_write` -/
  | inOp (op : ℕ) (dirty : List ℕ)
  | endLock
  | endBody
  | endRelease (doCommit : Bool)
  | commit
  /-- `write_log`: `bread` of the log block, `bread` of the cache block, copy and `bwrite`,
  `brelse` of both -/
  | wlTo (tail : ℕ)
  | wlFrom (tail : ℕ)
  | wlCopy (tail : ℕ)
  | wlRelseFrom (tail : ℕ)
  | wlRelseTo (tail : ℕ)
  /-- `write_head`; `full` is the first of the two calls in `commit` -/
  | headRead (full : Bool)
  | headWrite (full : Bool)
  | headRelse (full : Bool)
  /-- `install_trans`, in the same way -/
  | itLog (tail : ℕ)
  | itDst (tail : ℕ)
  | itCopy (tail : ℕ)
  | itRelseLog (tail : ℕ)
  | itRelseDst (tail : ℕ)
  | clear
  | doneLock
  | doneBody
  | doneRelease
  | panic (why : LogPanic)

abbrev LogKern := Kern Unit LogPt LogG

/-- What a process does: operations with their reads, modifications and `log_write`s, reads
outside of operations, and `bget` taking the unreferenced buffer of block `b` for another
block. -/
inductive LogAct where
  | beginOp
  | bread (b : ℕ)
  | modify (b : ℕ) (data : Block)
  | logWrite (b : ℕ)
  | brelse (b : ℕ)
  | endOp
  | recycle (b : ℕ)
  | go

namespace LogG

def setBuf (g : LogG) (b : ℕ) (x : Buf) : LogG := { g with buf := update g.buf b x }

/-- `bread`, once the sleep-lock of the buffer is free. -/
def bread (g : LogG) (t b : ℕ) : LogG :=
  g.setBuf b
    { valid := true
      data := if (g.buf b).valid then (g.buf b).data else g.disk b
      refcnt := (g.buf b).refcnt + 1
      lock := some t }

def brelse (g : LogG) (b : ℕ) : LogG :=
  g.setBuf b { g.buf b with refcnt := (g.buf b).refcnt - 1, lock := none }

def modify (g : LogG) (b : ℕ) (data : Block) : LogG := g.setBuf b { g.buf b with data := data }

def recycle (g : LogG) (b : ℕ) : LogG := g.setBuf b { g.buf b with valid := false }

/-- The buffer gets new contents, and `bwrite` writes them to disk. -/
def bwrite (g : LogG) (b : ℕ) (data : Block) : LogG :=
  { g.modify b data with disk := update g.disk b data }

/-- `log_write` past its panics: absorbed, or appended and pinned. -/
def logWrite (g : LogG) (op b : ℕ) : LogG :=
  let g' := { g with current := g.current ++ [⟨op, b, (g.buf b).data⟩] }
  if b ∈ g.lh then g'
  else { g'.setBuf b { g.buf b with refcnt := (g.buf b).refcnt + 1 } with
    lh := g.lh ++ [b]
    pins := b :: g.pins }

def bunpin (g : LogG) (b : ℕ) : LogG :=
  { g.setBuf b { g.buf b with refcnt := (g.buf b).refcnt - 1 } with pins := g.pins.erase b }

end LogG

/-- Process `t` goes to the point `k`, with `log` and the cache as `g`. -/
def LogKern.goto (s : LogKern) (g : LogG) (t : ℕ) (k : LogPt) : LogKern :=
  Kern.setPc (Kern.setG s g) t (.run k)

/-- One step of process `t` in `commit()`. -/
def commitStep (start : ℕ) (s : LogKern) (t : ℕ) : LogPt → Option LogKern
  | .commit =>
    if s.g.lh = [] then
      some (s.goto { s.g with durable := s.g.commits.length, returned := s.g.commits.length } t
        .doneLock)
    else some (s.goto s.g t (.wlTo 0))
  | .wlTo tail =>
    if tail < s.g.lh.length then
      if (s.g.buf (start + tail + 1)).lock = none then
        some (s.goto (s.g.bread t (start + tail + 1)) t (.wlFrom tail))
      else none
    else some (s.goto s.g t (.headRead true))
  | .wlFrom tail =>
    if (s.g.buf (s.g.lh.getD tail 0)).lock = none then
      some (s.goto (s.g.bread t (s.g.lh.getD tail 0)) t (.wlCopy tail))
    else none
  | .wlCopy tail =>
    some (s.goto (s.g.bwrite (start + tail + 1) (s.g.buf (s.g.lh.getD tail 0)).data) t
      (.wlRelseFrom tail))
  | .wlRelseFrom tail => some (s.goto (s.g.brelse (s.g.lh.getD tail 0)) t (.wlRelseTo tail))
  | .wlRelseTo tail => some (s.goto (s.g.brelse (start + tail + 1)) t (.wlTo (tail + 1)))
  | .headRead full =>
    if (s.g.buf start).lock = none then
      some (s.goto (s.g.bread t start) t (.headWrite full))
    else none
  | .headWrite full =>
    some (s.goto { s.g.bwrite start (writeHead (s.g.buf start).data s.g.lh) with
      durable := s.g.commits.length } t (.headRelse full))
  | .headRelse true => some (s.goto (s.g.brelse start) t (.itLog 0))
  -- `commit()` returns
  | .headRelse false =>
    some (s.goto { s.g.brelse start with returned := s.g.commits.length } t .doneLock)
  | .itLog tail =>
    if tail < s.g.lh.length then
      if (s.g.buf (start + tail + 1)).lock = none then
        some (s.goto (s.g.bread t (start + tail + 1)) t (.itDst tail))
      else none
    else some (s.goto s.g t .clear)
  | .itDst tail =>
    if (s.g.buf (s.g.lh.getD tail 0)).lock = none then
      some (s.goto (s.g.bread t (s.g.lh.getD tail 0)) t (.itCopy tail))
    else none
  | .itCopy tail =>
    let dst := s.g.lh.getD tail 0
    some (s.goto ((s.g.bwrite dst (s.g.buf (start + tail + 1)).data).bunpin dst) t
      (.itRelseLog tail))
  | .itRelseLog tail => some (s.goto (s.g.brelse (start + tail + 1)) t (.itRelseDst tail))
  | .itRelseDst tail => some (s.goto (s.g.brelse (s.g.lh.getD tail 0)) t (.itLog (tail + 1)))
  | .clear => some (s.goto { s.g with lh := [] } t (.headRead false))
  | _ => none

/-- One step of process `t` in `begin_op`, `end_op` or `commit`. -/
def logGo (start : ℕ) (s : LogKern) (t : ℕ) : LogPt → Option LogKern
  | .beginLock =>
    if s.lk = none then some ((s.setLk (some t)).setPc t (.run .beginLoop)) else none
  | .beginLoop =>
    if s.g.committing ∨
        (s.g.lh.length : ℤ) + (s.g.outstanding + 1) * (MAXOPBLOCKS : ℕ) > (LOGBLOCKS : ℕ) then
      some (s.setPc t (.sleepLock () .beginLoop))
    else
      some (LogKern.goto (s.setLk none) { s.g with
        outstanding := s.g.outstanding + 1
        ops := s.g.ops + 1 } t (.inOp s.g.ops []))
  | .endLock =>
    if s.lk = none then some ((s.setLk (some t)).setPc t (.run .endBody)) else none
  | .endBody =>
    let g := { s.g with outstanding := s.g.outstanding - 1 }
    if g.committing then some (s.goto g t (.panic .logCommitting))
    else if g.outstanding = 0 then
      some (s.goto { g with
        committing := true
        commits := g.commits ++ [g.current]
        current := [] } t (.endRelease true))
    else some ((s.setG g).setPc t (.wakeup () 0 (.endRelease false)))
  | .endRelease doCommit =>
    some ((s.setLk none).setPc t (.run (if doCommit then .commit else .user)))
  | .doneLock =>
    if s.lk = none then some ((s.setLk (some t)).setPc t (.run .doneBody)) else none
  | .doneBody =>
    some ((s.setG { s.g with committing := false }).setPc t (.wakeup () 0 .doneRelease))
  | .doneRelease => some ((s.setLk none).setPc t (.run .user))
  | k => commitStep start s t k

/-- One step of process `t`. An operation passes every block it modifies to `log_write`
before it gives up the buffer. -/
def logStep (start : ℕ) (s : LogKern) (t : ℕ) : LogPt → LogAct → Option LogKern
  | .user, .beginOp => some (s.setPc t (.run .beginLock))
  | .user, .bread b =>
    if (s.g.buf b).lock = none then some (s.goto (s.g.bread t b) t .user) else none
  | .user, .brelse b =>
    if (s.g.buf b).lock = some t then some (s.goto (s.g.brelse b) t .user) else none
  | .inOp op dirty, .bread b =>
    if (s.g.buf b).lock = none then some (s.goto (s.g.bread t b) t (.inOp op dirty)) else none
  | .inOp op dirty, .modify b data =>
    if (s.g.buf b).lock = some t then
      some (s.goto (s.g.modify b data) t (.inOp op (b :: dirty)))
    else none
  | .inOp op dirty, .logWrite b =>
    if s.lk = none ∧ (s.g.buf b).lock = some t then
      if LOGBLOCKS ≤ s.g.lh.length then some (s.goto s.g t (.panic .tooBigTransaction))
      else if s.g.outstanding < 1 then some (s.goto s.g t (.panic .outsideOfTrans))
      else some (s.goto (s.g.logWrite op b) t (.inOp op (dirty.filter (· ≠ b))))
    else none
  | .inOp op dirty, .brelse b =>
    if (s.g.buf b).lock = some t ∧ b ∉ dirty then
      some (s.goto (s.g.brelse b) t (.inOp op dirty))
    else none
  | .inOp _ [], .endOp => some (s.setPc t (.run .endLock))
  | k, .recycle b =>
    if (s.g.buf b).refcnt = 0 then some (s.goto (s.g.recycle b) t k) else none
  | k, .go => logGo start s t k
  | _, _ => none

def LogPt.preemptible : LogPt → Bool
  | .beginLoop | .endBody | .endRelease _ | .doneBody | .doneRelease => false
  | _ => true

def logClient (start : ℕ) : Client Unit LogPt LogG LogAct where
  step := logStep start
  preemptible := LogPt.preemptible

/-- After `initlog` on a disk with an empty log: nothing cached, nobody in the file system. -/
def logInit (disk : Disk) : LogKern where
  proc := fun _ => ⟨.RUNNING, none, false, 0, 0, none⟩
  plock := fun _ => none
  lk := none
  pc := fun _ => .run .user
  g :=
    { disk := disk
      buf := fun _ => ⟨false, 0, 0, none⟩
      lh := []
      outstanding := 0
      committing := false
      ops := 0
      pins := []
      current := []
      commits := []
      durable := 0
      returned := 0 }

/-- Where `recover_from_log` is. -/
inductive RecoverPt where
  | readHead
  | install (tail : ℕ)
  | clear
  | done

/-- The machine after a reboot: the disk, an empty cache, and `recover_from_log`. -/
structure Recover where
  disk : Disk
  cache : ℕ → Option Block
  lh : List ℕ
  pt : RecoverPt

inductive RecoverAct where
  | go
  /-- `bget` takes the buffer of block `b` for another block -/
  | recycle (b : ℕ)
  /-- power fails; the kernel starts again -/
  | crash

def reboot (disk : Disk) : Recover := ⟨disk, fun _ => none, [], .readHead⟩

def Recover.bread (r : Recover) (b : ℕ) : Block := (r.cache b).getD (r.disk b)

def Recover.setCache (r : Recover) (b : ℕ) (o : Option Block) : Recover :=
  { r with cache := update r.cache b o }

def Recover.bwrite (r : Recover) (b : ℕ) (data : Block) : Recover :=
  { r.setCache b (some data) with disk := update r.disk b data }

/-- One step of `recover_from_log`, with at most one disk write. -/
def recoverStep (start : ℕ) (r : Recover) : RecoverAct → Option Recover
  | .go =>
    match r.pt with
    | .readHead =>
      some { r.setCache start (some (r.bread start)) with
        lh := readHead (r.bread start)
        pt := .install 0 }
    | .install tail =>
      if tail < r.lh.length then
        let lbuf := r.bread (start + tail + 1)
        some { (r.setCache (start + tail + 1) (some lbuf)).bwrite (r.lh.getD tail 0) lbuf with
          pt := .install (tail + 1) }
      else some { r with pt := .clear }
    | .clear =>
      some { r.bwrite start (writeHead (r.bread start) []) with lh := [], pt := .done }
    | .done => none
  | .recycle b => some (r.setCache b none)
  | .crash => some (reboot r.disk)

end Xv6
