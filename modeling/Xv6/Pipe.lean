import Xv6.ProcMonitor

/-! `pipewrite`, `piperead` and `pipeclose` (kernel/pipe.c) on one pipe, as a client of
`sleep` and `wakeup` with the condition lock `pi->lock`. -/
namespace Xv6

def PIPESIZE : ℕ := 512

/-- `struct pipe`, without its lock. The counters are `uint`: they wrap. -/
structure Pipe where
  data : ℕ → BitVec 8
  nread : BitVec 32
  nwrite : BitVec 32
  readopen : Bool
  writeopen : Bool

/-- The two wait channels `&pi->nread` and `&pi->nwrite`. -/
inductive PipeChan where
  | nread
  | nwrite
  deriving DecidableEq, Repr

/-- A call of `pipewrite(pi, addr, n)`: `buf i` is the byte that `copyin` finds at
`addr + i`, if it can. `id` tells calls apart. -/
structure WriteCall where
  id : ℕ
  buf : ℕ → Option (BitVec 8)
  n : ℤ

/-- A call of `piperead(pi, addr, n)`: `dst i` says whether `copyout` can store at
`addr + i`. -/
structure ReadCall where
  dst : ℕ → Bool
  n : ℤ

/-- The points of the code between two accesses to shared data. In `pipewrite`, `b`
records that a byte was stored since the last `wakeup(&pi->nread)`; no step looks at it. -/
inductive PipePt where
  | user
  | writeAcquire (w : WriteCall)
  | writeLoop (w : WriteCall) (i : ℕ) (b : Bool)
  | writeKilled (w : WriteCall) (i : ℕ) (b : Bool)
  | writeCopy (w : WriteCall) (i : ℕ) (b : Bool)
  | writeSleep (w : WriteCall) (i : ℕ)
  | writeReturn (r : ℤ)
  | readAcquire (c : ReadCall)
  | readLoop (c : ReadCall)
  | readKilled (c : ReadCall)
  | readCopy (c : ReadCall) (i : ℕ)
  | readReturn (r : ℤ)
  | closeAcquire (writable : Bool)
  | closeSet (writable : Bool)
  | closeReturn

/-- The pipe, the `pipewrite` calls so far, and what has passed through it: the bytes
stored by `pipewrite`, each with the `id` of its call, and the bytes `piperead` handed out. -/
structure PipeG where
  pi : Pipe
  calls : List WriteCall
  accepted : List (ℕ × BitVec 8)
  delivered : List (BitVec 8)

abbrev PipeKern := Kern PipeChan PipePt PipeG

inductive PipeAct where
  | pipewrite (buf : ℕ → Option (BitVec 8)) (n : ℤ)
  | piperead (dst : ℕ → Bool) (n : ℤ)
  | pipeclose (writable : Bool)
  /-- go on in the code -/
  | go

/-- `pi->data[pi->nwrite++ % PIPESIZE] = ch;` -/
def Pipe.push (pi : Pipe) (ch : BitVec 8) : Pipe :=
  { pi with
    data := update pi.data (pi.nwrite.toNat % PIPESIZE) ch
    nwrite := pi.nwrite + 1 }

/-- `pi->data[pi->nread % PIPESIZE]` -/
def Pipe.front (pi : Pipe) : BitVec 8 := pi.data (pi.nread.toNat % PIPESIZE)

/-- `pi->nread++` -/
def Pipe.pop (pi : Pipe) : Pipe := { pi with nread := pi.nread + 1 }

/-- `pi->nwrite == pi->nread + PIPESIZE`, on `uint`s -/
def Pipe.full (pi : Pipe) : Bool := pi.nwrite == pi.nread + BitVec.ofNat 32 PIPESIZE

/-- `pi->nread == pi->nwrite` -/
def Pipe.empty (pi : Pipe) : Bool := pi.nread == pi.nwrite

/-- `pi->writeopen = 0` or `pi->readopen = 0` -/
def Pipe.close (pi : Pipe) (writable : Bool) : Pipe :=
  if writable then { pi with writeopen := false } else { pi with readopen := false }

def PipeKern.goto (s : PipeKern) (t : ℕ) (k : PipePt) : PipeKern := Kern.setPc s t (.run k)

def PipeKern.setPi (s : PipeKern) (pi : Pipe) : PipeKern := Kern.setG s { s.g with pi := pi }

/-- One step of thread `t` in the code of pipe.c. -/
def pipeStep (s : PipeKern) (t : ℕ) : PipePt → PipeAct → Option PipeKern
  | .user, .pipewrite buf n =>
    let w : WriteCall := ⟨s.g.calls.length, buf, n⟩
    some (PipeKern.goto (s.setG { s.g with calls := s.g.calls ++ [w] }) t (.writeAcquire w))
  | .user, .piperead dst n => some (s.goto t (.readAcquire ⟨dst, n⟩))
  | .user, .pipeclose writable => some (s.goto t (.closeAcquire writable))
  -- pipewrite
  | .writeAcquire w, .go =>
    if s.lk = none then some (PipeKern.goto (s.setLk (some t)) t (.writeLoop w 0 false)) else none
  | .writeLoop w i b, .go =>
    if (i : ℤ) < w.n then
      if s.g.pi.readopen = false then some (s.goto t (.writeReturn (-1)))
      else some (s.goto t (.writeKilled w i b))
    else some (s.setPc t (.wakeup .nread 0 (.writeReturn i)))
  | .writeKilled w i b, .go =>
    -- `killed(pr)` takes `pr->lock`
    if s.plock t = none then
      if (s.proc t).killed then some (s.goto t (.writeReturn (-1)))
      else some (s.goto t (.writeCopy w i b))
    else none
  | .writeCopy w i _, .go =>
    if s.g.pi.full then some (s.setPc t (.wakeup .nread 0 (.writeSleep w i)))
    else
      match w.buf i with
      | none => some (s.setPc t (.wakeup .nread 0 (.writeReturn i)))
      | some ch =>
        some (PipeKern.goto (s.setG { s.g with
          pi := s.g.pi.push ch
          accepted := s.g.accepted ++ [(w.id, ch)] }) t (.writeLoop w (i + 1) true))
  | .writeSleep w i, .go => some (s.setPc t (.sleepLock .nwrite (.writeLoop w i false)))
  | .writeReturn _, .go => some (PipeKern.goto (s.setLk none) t .user)
  -- piperead
  | .readAcquire c, .go =>
    if s.lk = none then some (PipeKern.goto (s.setLk (some t)) t (.readLoop c)) else none
  | .readLoop c, .go =>
    if s.g.pi.empty ∧ s.g.pi.writeopen then some (s.goto t (.readKilled c))
    else some (s.goto t (.readCopy c 0))
  | .readKilled c, .go =>
    if s.plock t = none then
      if (s.proc t).killed then some (s.goto t (.readReturn (-1)))
      else some (s.setPc t (.sleepLock .nread (.readLoop c)))
    else none
  | .readCopy c i, .go =>
    if (i : ℤ) < c.n ∧ s.g.pi.empty = false then
      -- `nread` moves on before `copyout`, whether or not the byte can be stored
      if c.dst i then
        some (PipeKern.goto (s.setG { s.g with
          pi := s.g.pi.pop
          delivered := s.g.delivered ++ [s.g.pi.front] }) t (.readCopy c (i + 1)))
      else some (Kern.setPc (s.setPi s.g.pi.pop) t (.wakeup .nwrite 0 (.readReturn i)))
    else some (s.setPc t (.wakeup .nwrite 0 (.readReturn i)))
  | .readReturn _, .go => some (PipeKern.goto (s.setLk none) t .user)
  -- pipeclose
  | .closeAcquire writable, .go =>
    if s.lk = none then some (PipeKern.goto (s.setLk (some t)) t (.closeSet writable)) else none
  | .closeSet writable, .go =>
    some (Kern.setPc (s.setPi (s.g.pi.close writable)) t
      (.wakeup (if writable then .nread else .nwrite) 0 .closeReturn))
  -- the page goes back to `kfree` once both ends are closed; nothing looks at it again
  | .closeReturn, .go => some (PipeKern.goto (s.setLk none) t .user)
  | _, _ => none

def pipeClient : Client PipeChan PipePt PipeG PipeAct where
  step := pipeStep
  preemptible := fun k => match k with
    | .user | .writeAcquire _ | .readAcquire _ | .closeAcquire _ => true
    | _ => false

/-- After `pipealloc`: an empty open pipe, `N` processes running in user mode, no lock held. -/
def pipeInit (data : ℕ → BitVec 8) : PipeKern where
  proc := fun _ => ⟨.RUNNING, none, false, 0, 0, none⟩
  plock := fun _ => none
  lk := none
  pc := fun _ => .run .user
  g := ⟨⟨data, 0, 0, true, true⟩, [], [], []⟩

end Xv6
