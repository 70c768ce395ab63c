import Xv6.ProcSleep

/-! `kfork`, `kexit`, `reparent` and `kwait` (kernel/proc.c) as a client of the sleep/wakeup
machine, with the condition lock `wait_lock`. A process waits for its children on its own address,
so a wait channel is a slot number. -/
namespace Xv6

/-- `userinit` runs first, so `initproc` is `&proc[0]`. -/
def initproc : ℕ := 0

/-- A call of `kexit`: which process made it, its pid and the status it passed. Slots are
used again, so `uid` numbers the processes in the order of their `allocproc`. -/
structure Exited where
  uid : ℕ
  pid : ℤ
  status : ℤ

/-- What `kwait` hands back for a child: the pid it returns and, when `addr != 0`, the
status it copied out. -/
structure Reaped where
  uid : ℕ
  pid : ℤ
  status : Option ℤ

/-- The places of `kfork`, `kexit` and `kwait` between two lock operations. -/
inductive WaitPt where
  | user
  /-- `allocproc`, with loop variable `proc + i` -/
  | forkScan (i : ℕ)
  /-- the slot `np` is `USED`; about to `kalloc` the trapframe and the page table -/
  | forkAlloc (np : ℕ)
  /-- about to `uvmcopy` -/
  | forkCopy (np : ℕ)
  | forkRelease (np : ℕ) (pid : ℤ)
  | forkWaitLock (np : ℕ) (pid : ℤ)
  | forkParent (np : ℕ) (pid : ℤ)
  | forkWaitRelease (np : ℕ) (pid : ℤ)
  | forkReady (np : ℕ) (pid : ℤ)
  | exitWaitLock (status : ℤ)
  /-- `reparent`, with loop variable `proc + i` -/
  | exitReparent (status : ℤ) (i : ℕ)
  | exitLock (status : ℤ)
  /-- the process `me` holds `wait_lock` and its own lock, about to become a `ZOMBIE` -/
  | exitZombie (me : ℕ) (status : ℤ)
  /-- `panic("zombie exit")` -/
  | zombieExit
  | waitLock (addr : Bool)
  /-- the scan of the table, with `havekids` and loop variable `proc + i` -/
  | waitScan (addr havekids : Bool) (i : ℕ)
  /-- a child in slot `i`, its lock held -/
  | waitLook (addr : Bool) (i : ℕ)
  | waitCopyout (addr : Bool) (i : ℕ)
  | waitFail (i : ℕ)
  | waitFreed (i : ℕ) (r : Reaped)
  /-- `release(&wait_lock)`, then return the pid, or -1 -/
  | waitReturn (r : Option Reaped)
  | waitNone (addr havekids : Bool)

/-- `nextpid`, and ghost state: the number of the process in each slot and of its creator,
and the calls of `kexit` and returns of `kwait` so far. -/
structure WaitG where
  nextpid : ℤ
  births : ℕ
  uid : ℕ → ℕ
  creator : ℕ → ℕ
  exits : List Exited
  returns : List Reaped

/-- `allocpid`, and the number that process `u` gives to its child in slot `np`. -/
def WaitG.born (g : WaitG) (u np : ℕ) : WaitG :=
  { g with
    nextpid := g.nextpid + 1
    births := g.births + 1
    uid := update g.uid np g.births
    creator := update g.creator np (g.uid u) }

def WaitG.exit (g : WaitG) (x : Exited) : WaitG := { g with exits := g.exits ++ [x] }

def WaitG.waited (g : WaitG) (r : Option Reaped) : WaitG :=
  { g with returns := g.returns ++ r.toList }

abbrev WaitKern := Kern ℕ WaitPt WaitG

inductive WaitAct where
  | fork
  | exit (status : ℤ)
  | wait (addr : Bool)
  /-- go on in the code; `kalloc`, `uvmcopy` and `copyout` succeed -/
  | go
  /-- go on; the allocation or copy at this point fails -/
  | fail

/-- `freeproc`, as far as this model goes. -/
def Proc.free (_ : Proc ℕ) : Proc ℕ where
  state := .UNUSED
  chan := none
  killed := false
  xstate := 0
  pid := 0
  parent := none

/-- What `allocproc` does to the first `UNUSED` slot it finds. -/
def allocproc (s : WaitKern) (t np : ℕ) : WaitKern :=
  ((s.setProc np { s.proc np with pid := s.g.nextpid, state := .USED }).setPlock np (some t)).setG
    (s.g.born t np)

/-- `freeproc(np); release(&np->lock); return -1;` -/
def forkFailed (s : WaitKern) (t np : ℕ) : WaitKern :=
  ((s.setProc np (s.proc np).free).setPlock np none).setPc t (.run .user)

/-- One step of thread `t` in the code of `kfork`. -/
def forkStep (N : ℕ) (s : WaitKern) (t : ℕ) : WaitPt → WaitAct → Option WaitKern
  | .forkScan i, .go =>
    if i < N then
      if s.plock i = none then
        if (s.proc i).state = .UNUSED then some ((allocproc s t i).setPc t (.run (.forkAlloc i)))
        else some (s.setPc t (.run (.forkScan (i + 1))))
      else none
    else some (s.setPc t (.run .user))
  -- `p->context.ra = (uint64)forkret`: the child will start in user space
  | .forkAlloc np, .go =>
    some ((s.setPc np (.switched (.plain .user))).setPc t (.run (.forkCopy np)))
  | .forkAlloc np, .fail => some (forkFailed s t np)
  | .forkCopy np, .go => some (s.setPc t (.run (.forkRelease np (s.proc np).pid)))
  | .forkCopy np, .fail => some (forkFailed s t np)
  | .forkRelease np pid, .go =>
    some ((s.setPlock np none).setPc t (.run (.forkWaitLock np pid)))
  | .forkWaitLock np pid, .go =>
    if s.lk = none then some ((s.setLk (some t)).setPc t (.run (.forkParent np pid))) else none
  | .forkParent np pid, .go =>
    some ((s.setProc np { s.proc np with parent := some t }).setPc t
      (.run (.forkWaitRelease np pid)))
  | .forkWaitRelease np pid, .go => some ((s.setLk none).setPc t (.run (.forkReady np pid)))
  | .forkReady np _, .go =>
    if s.plock np = none then
      some ((s.setProc np { s.proc np with state := .RUNNABLE }).setPc t (.run .user))
    else none
  | _, _ => none

/-- One step of thread `t` in the code of `kexit` and `reparent`. -/
def exitStep (N : ℕ) (s : WaitKern) (t : ℕ) : WaitPt → WaitAct → Option WaitKern
  | .exitWaitLock status, .go =>
    if s.lk = none then some ((s.setLk (some t)).setPc t (.run (.exitReparent status 0))) else none
  | .exitReparent status i, .go =>
    if i < N then
      if (s.proc i).parent = some t then
        some ((s.setProc i { s.proc i with parent := some initproc }).setPc t
          (.wakeup initproc 0 (.exitReparent status (i + 1))))
      else some (s.setPc t (.run (.exitReparent status (i + 1))))
    else
      match (s.proc t).parent with
      | some p => some (s.setPc t (.wakeup p 0 (.exitLock status)))
      -- nobody sleeps on a null channel
      | none => some (s.setPc t (.run (.exitLock status)))
  | .exitLock status, .go =>
    if s.plock t = none then
      some ((s.setPlock t (some t)).setPc t (.run (.exitZombie t status)))
    else none
  -- the writes and `release(&wait_lock)` are one step: `p->lock` hides what is between them
  | .exitZombie _ status, .go =>
    some (((s.setProc t { s.proc t with xstate := status, state := .ZOMBIE }).setLk none).setPc t
      (.schedOut (.plain .zombieExit)))
  | _, _ => none

/-- One step of thread `t` in the code of `kwait`. -/
def kwaitStep (N : ℕ) (s : WaitKern) (t : ℕ) : WaitPt → WaitAct → Option WaitKern
  | .waitLock addr, .go =>
    if s.lk = none then some ((s.setLk (some t)).setPc t (.run (.waitScan addr false 0))) else none
  | .waitScan addr havekids i, .go =>
    if i < N then
      if (s.proc i).parent = some t then
        if s.plock i = none then
          some ((s.setPlock i (some t)).setPc t (.run (.waitLook addr i)))
        else none
      else some (s.setPc t (.run (.waitScan addr havekids (i + 1))))
    else some (s.setPc t (.run (.waitNone addr havekids)))
  | .waitLook addr i, .go =>
    if (s.proc i).state = .ZOMBIE then some (s.setPc t (.run (.waitCopyout addr i)))
    else some ((s.setPlock i none).setPc t (.run (.waitScan addr true (i + 1))))
  | .waitCopyout addr i, .fail => if addr then some (s.setPc t (.run (.waitFail i))) else none
  | .waitCopyout addr i, .go =>
    let r : Reaped :=
      ⟨s.g.uid i, (s.proc i).pid, if addr then some (s.proc i).xstate else none⟩
    some ((s.setProc i (s.proc i).free).setPc t (.run (.waitFreed i r)))
  | .waitFail i, .go => some ((s.setPlock i none).setPc t (.run (.waitReturn none)))
  | .waitFreed i r, .go => some ((s.setPlock i none).setPc t (.run (.waitReturn (some r))))
  | .waitReturn r, .go =>
    some (((s.setLk none).setG (s.g.waited r)).setPc t (.run .user))
  | .waitNone addr havekids, .go =>
    if havekids then
      -- `killed(p)` takes `p->lock`
      if s.plock t = none then
        if (s.proc t).killed then some (s.setPc t (.run (.waitReturn none)))
        else some (s.setPc t (.sleepLock t (.waitScan addr false 0)))
      else none
    else some (s.setPc t (.run (.waitReturn none)))
  | _, _ => none

/-- A system call starts. -/
def startStep (s : WaitKern) (t : ℕ) : WaitPt → WaitAct → Option WaitKern
  | .user, .fork => some (s.setPc t (.run (.forkScan 0)))
  | .user, .exit status =>
    -- `panic("init exiting")`
    if t = initproc then none
    else some ((s.setG (s.g.exit ⟨s.g.uid t, (s.proc t).pid, status⟩)).setPc t
      (.run (.exitWaitLock status)))
  | .user, .wait addr => some (s.setPc t (.run (.waitLock addr)))
  | _, _ => none

def waitStep (N : ℕ) (s : WaitKern) (t : ℕ) (k : WaitPt) (a : WaitAct) : Option WaitKern :=
  startStep s t k a <|> forkStep N s t k a <|> exitStep N s t k a <|> kwaitStep N s t k a

/-- Outside every lock-protected section. -/
def WaitPt.preemptible : WaitPt → Bool
  | .user | .forkScan _ | .forkWaitLock _ _ | .forkReady _ _ | .exitWaitLock _ | .waitLock _ => true
  | _ => false

def waitClient (N : ℕ) : Client ℕ WaitPt WaitG WaitAct where
  step := waitStep N
  preemptible := WaitPt.preemptible

/-- After `userinit`: `initproc` is in user space, every other slot is `UNUSED`. -/
def waitInit : WaitKern where
  proc := fun q =>
    if q = initproc then ⟨.RUNNING, none, false, 0, 1, none⟩ else ⟨.UNUSED, none, false, 0, 0, none⟩
  plock := fun _ => none
  lk := none
  pc := fun q => if q = initproc then .run .user else .switched (.plain .user)
  g := ⟨2, 1, fun _ => 0, fun _ => 0, [], []⟩

end Xv6
