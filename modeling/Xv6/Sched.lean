import Xv6.Wait

/-! The scheduler of a machine with any number of CPUs (kernel/proc.c): one `scheduler` loop a CPU,
and the threads of the processes in `yield`, `sleep`, `wakeup`, `kkill`, `kfork`, `kexit` and
`kwait`. The atomic steps are one `acquire`, one `release` (with the writes before it) and `swtch`.
A CPU holds a lock, so `swtch` hands `p->lock` over without touching it. -/
namespace Xv6.Smp

/-- Spinlocks other than the `p->lock`s are numbered; this is `wait_lock`. -/
def waitLk : ℕ := 0

/-- Where a kernel thread is. A wait channel is an address, that of a process its slot number. -/
inductive Pt where
  /-- other code, with the spinlocks it holds -/
  | user (held : List ℕ)
  /-- `sleep(ch, l)`, then go on at `k` -/
  | sleepLock (ch l : ℕ) (k : Pt)
  | sleepRelease (ch l : ℕ) (k : Pt)
  | sleepMark (ch l : ℕ) (k : Pt)
  | sleepReacquire (l : ℕ) (k : Pt)
  /-- `yield()` -/
  | yieldLock (k : Pt)
  | yieldMark (k : Pt)
  /-- `sched()`, about to `swtch` to the scheduler; `r` is where `swtch` will return -/
  | sched (r : Pt)
  /-- the four places where `swtch` returns: in `sleep`, in `yield`, at the start of `forkret`, and
  in `kexit` before `panic("zombie exit")` -/
  | woken (l : ℕ) (k : Pt)
  | yielded (k : Pt)
  | forkret
  | zombieExit
  /-- `wakeup(ch)`, with loop variable `proc + i` -/
  | wakeup (ch i : ℕ) (k : Pt)
  | wakeupLook (ch i : ℕ) (k : Pt)
  /-- `kkill(pid)` -/
  | killScan (pid : ℤ) (i : ℕ)
  | killLook (pid : ℤ) (i : ℕ)
  /-- `kfork`: first `allocproc` -/
  | forkScan (i : ℕ)
  | forkLook (i : ℕ)
  | forkAlloc (np : ℕ)
  | forkCopy (np : ℕ)
  | forkWaitLock (np : ℕ)
  | forkParent (np : ℕ)
  | forkWaitRelease (np : ℕ)
  | forkReady (np : ℕ)
  | forkRunnable (np : ℕ)
  /-- `kexit(status)` -/
  | exitWaitLock (status : ℤ)
  | exitReparent (status : ℤ) (i : ℕ)
  | exitLock (status : ℤ)
  | exitZombie (status : ℤ)
  | exitRelease
  /-- `kwait(addr)` -/
  | waitLock (addr : Bool)
  | waitScan (addr havekids : Bool) (i : ℕ)
  | waitLook (addr : Bool) (i : ℕ)
  | waitCopyout (addr : Bool) (i : ℕ)
  | waitFreed (i : ℕ)
  | waitReturn
  | waitNone (addr havekids : Bool)
  | waitKilled (addr : Bool)

/-- `struct context`: the thread whose registers it holds and where that thread goes on. `stamp` is
ghost state: how many times the thread had called `swtch` when this was stored. -/
structure Ctx where
  thread : ℕ
  resume : Pt
  stamp : ℕ

/-- What a CPU is doing: its `scheduler` loop, at `proc + i`, or the kernel thread `t`. -/
inductive Mode where
  /-- about to `acquire(&p->lock)` -/
  | scan (i : ℕ)
  /-- holds `p->lock`, about to test `p->state` -/
  | look (i : ℕ)
  /-- has set `p->state` and `c->proc`, about to `swtch` to `p` -/
  | switching (i : ℕ)
  | running (t : ℕ)
  /-- `swtch` has returned, about to clear `c->proc` -/
  | back (i : ℕ)
  /-- about to `release(&p->lock)` -/
  | done (i : ℕ)
  | panic

/-- `struct cpu`: `c->proc`, and the scheduler's variable `p` as `c->context` holds it. -/
structure Cpu where
  proc : Option ℕ
  mode : Mode
  saved : ℕ

/-- The machine: process table, `p->context`s, which CPU holds which lock, the CPUs, the place of
every kernel thread, how often it has called `swtch`, and `nextpid`. -/
structure St where
  proc : ℕ → Proc ℕ
  ctx : ℕ → Ctx
  plock : ℕ → Option ℕ
  lock : ℕ → Option ℕ
  cpu : ℕ → Cpu
  thread : ℕ → Pt
  swtchs : ℕ → ℕ
  nextpid : ℤ

/-- What a CPU or the thread on it does next, where there is a choice. -/
inductive Act where
  /-- go on; an allocation or copy succeeds -/
  | go
  /-- go on; the allocation or copy at this point fails -/
  | fail
  | acquire (l : ℕ)
  | release (l : ℕ)
  | sleep (ch l : ℕ)
  | wakeup (ch : ℕ)
  | kill (pid : ℤ)
  | fork
  | exit (status : ℤ)
  | wait (addr : Bool)
  /-- a timer interrupt -/
  | yield

/-- The effect of one atomic step of a thread, which then is at `k`. -/
inductive Effect where
  | move (k : Pt)
  /-- `acquire(&proc[x].lock)` -/
  | acquire (x : ℕ) (k : Pt)
  /-- store `p` in slot `x` -/
  | write (x : ℕ) (p : Proc ℕ) (k : Pt)
  /-- store `p` in slot `x` and `release(&proc[x].lock)` -/
  | release (x : ℕ) (p : Proc ℕ) (k : Pt)
  | lock (l : ℕ) (k : Pt)
  | unlock (l : ℕ) (k : Pt)
  /-- `allocproc` takes slot `np`: `p->pid = allocpid(); p->state = USED;` -/
  | take (np : ℕ) (k : Pt)
  /-- `p->context` of slot `np` is set to start at `forkret` -/
  | context (np : ℕ) (k : Pt)
  | swtch (r : Pt)
  | panic

/-- Interrupts are on: no spinlock is held. -/
def Pt.preemptible : Pt → Bool
  | .user held => held.isEmpty
  | .killScan _ _ | .forkScan _ | .forkWaitLock _ | .forkReady _ | .exitWaitLock _ | .waitLock _ => true
  | .wakeup _ _ k => k.preemptible
  | _ => false

/-- A thread outside the functions of this model starts something. -/
def userCode (t : ℕ) (held : List ℕ) : Act → Option Effect
  | .acquire l => if l ∈ held then none else some (.lock l (.user (l :: held)))
  | .release l => if l ∈ held then some (.unlock l (.user (held.erase l))) else none
  | .sleep ch l => if held = [l] then some (.move (.sleepLock ch l (.user [l]))) else none
  | .wakeup ch => some (.move (.wakeup ch 0 (.user held)))
  | .kill pid => if held = [] then some (.move (.killScan pid 0)) else none
  | .fork => if held = [] then some (.move (.forkScan 0)) else none
  -- `init` does not get past `panic("init exiting")`
  | .exit status =>
    if held = [] ∧ t ≠ initproc then some (.move (.exitWaitLock status)) else none
  | .wait addr => if held = [] then some (.move (.waitLock addr)) else none
  | _ => none

/-- `sleep`, `yield`, `wakeup` and `kkill` -/
def schedCode (N : ℕ) (s : St) (t : ℕ) : Pt → Act → Option Effect
  | .sleepLock ch l k, .go => some (.acquire t (.sleepRelease ch l k))
  | .sleepRelease ch l k, .go => some (.unlock l (.sleepMark ch l k))
  | .sleepMark ch l k, .go =>
    some (.write t { s.proc t with chan := some ch, state := .SLEEPING } (.sched (.woken l k)))
  | .woken l k, .go => some (.release t { s.proc t with chan := none } (.sleepReacquire l k))
  | .sleepReacquire l k, .go => some (.lock l k)
  | .yieldLock k, .go => some (.acquire t (.yieldMark k))
  | .yieldMark k, .go => some (.write t { s.proc t with state := .RUNNABLE } (.sched (.yielded k)))
  | .yielded k, .go => some (.release t (s.proc t) k)
  | .forkret, .go => some (.release t (s.proc t) (.user []))
  | .zombieExit, .go => some .panic
  | .sched r, .go => some (.swtch r)
  | .wakeup ch i k, .go =>
    if i < N then
      if i = t then some (.move (.wakeup ch (i + 1) k)) else some (.acquire i (.wakeupLook ch i k))
    else some (.move k)
  | .wakeupLook ch i k, .go => some (.release i ((s.proc i).wake ch) (.wakeup ch (i + 1) k))
  | .killScan pid i, .go =>
    if i < N then some (.acquire i (.killLook pid i)) else some (.move (.user []))
  | .killLook pid i, .go =>
    if (s.proc i).pid = pid then some (.release i (s.proc i).kill (.user []))
    else some (.release i (s.proc i) (.killScan pid (i + 1)))
  | _, _ => none

def forkCode (N : ℕ) (s : St) (t : ℕ) : Pt → Act → Option Effect
  | .forkScan i, .go => if i < N then some (.acquire i (.forkLook i)) else some (.move (.user []))
  | .forkLook i, .go =>
    if (s.proc i).state = .UNUSED then some (.take i (.forkAlloc i))
    else some (.release i (s.proc i) (.forkScan (i + 1)))
  | .forkAlloc np, .go => some (.context np (.forkCopy np))
  -- `freeproc(np); release(&np->lock); return -1;`
  | .forkAlloc np, .fail => some (.release np (s.proc np).free (.user []))
  | .forkCopy np, .go => some (.release np (s.proc np) (.forkWaitLock np))
  | .forkCopy np, .fail => some (.release np (s.proc np).free (.user []))
  | .forkWaitLock np, .go => some (.lock waitLk (.forkParent np))
  -- `np->parent` is protected by `wait_lock`
  | .forkParent np, .go =>
    some (.write np { s.proc np with parent := some t } (.forkWaitRelease np))
  | .forkWaitRelease np, .go => some (.unlock waitLk (.forkReady np))
  | .forkReady np, .go => some (.acquire np (.forkRunnable np))
  | .forkRunnable np, .go =>
    some (.release np { s.proc np with state := .RUNNABLE } (.user []))
  | _, _ => none

/-- `kexit`, after its files are closed -/
def exitCode (N : ℕ) (s : St) (t : ℕ) : Pt → Act → Option Effect
  | .exitWaitLock status, .go => some (.lock waitLk (.exitReparent status 0))
  | .exitReparent status i, .go =>
    if i < N then
      if (s.proc i).parent = some t then
        some (.write i { s.proc i with parent := some initproc }
          (.wakeup initproc 0 (.exitReparent status (i + 1))))
      else some (.move (.exitReparent status (i + 1)))
    else
      match (s.proc t).parent with
      | some pp => some (.move (.wakeup pp 0 (.exitLock status)))
      -- nobody sleeps on a null channel
      | none => some (.move (.exitLock status))
  | .exitLock status, .go => some (.acquire t (.exitZombie status))
  | .exitZombie status, .go =>
    some (.write t { s.proc t with xstate := status, state := .ZOMBIE } .exitRelease)
  | .exitRelease, .go => some (.unlock waitLk (.sched .zombieExit))
  | _, _ => none

def waitCode (N : ℕ) (s : St) (t : ℕ) : Pt → Act → Option Effect
  | .waitLock addr, .go => some (.lock waitLk (.waitScan addr false 0))
  | .waitScan addr havekids i, .go =>
    if i < N then
      if (s.proc i).parent = some t then some (.acquire i (.waitLook addr i))
      else some (.move (.waitScan addr havekids (i + 1)))
    else some (.move (.waitNone addr havekids))
  | .waitLook addr i, .go =>
    if (s.proc i).state = .ZOMBIE then some (.move (.waitCopyout addr i))
    else some (.release i (s.proc i) (.waitScan addr true (i + 1)))
  | .waitCopyout addr i, .fail =>
    if addr then some (.release i (s.proc i) .waitReturn) else none
  -- `freeproc(pp)`
  | .waitCopyout _ i, .go => some (.write i (s.proc i).free (.waitFreed i))
  | .waitFreed i, .go => some (.release i (s.proc i) .waitReturn)
  | .waitReturn, .go => some (.unlock waitLk (.user []))
  | .waitNone addr havekids, .go =>
    if havekids then some (.acquire t (.waitKilled addr)) else some (.move .waitReturn)
  -- `killed(p)`, then `sleep(p, &wait_lock)`
  | .waitKilled addr, .go =>
    some (.release t (s.proc t)
      (if (s.proc t).killed then .waitReturn else .sleepLock t waitLk (.waitScan addr false 0)))
  | _, _ => none

/-- The next atomic step of thread `t` at point `k`. -/
def code (N : ℕ) (s : St) (t : ℕ) (k : Pt) (a : Act) : Option Effect :=
  match k, a with
  | k, .yield => if k.preemptible then some (.move (.yieldLock k)) else none
  | .user held, a => userCode t held a
  | k, a => schedCode N s t k a <|> forkCode N s t k a <|> exitCode N s t k a <|> waitCode N s t k a

namespace St

variable (s : St)

def goto (t : ℕ) (k : Pt) : St := { s with thread := update s.thread t k }

def setProc (x : ℕ) (p : Proc ℕ) : St := { s with proc := update s.proc x p }

def setPlock (x : ℕ) (o : Option ℕ) : St := { s with plock := update s.plock x o }

def setLock (l : ℕ) (o : Option ℕ) : St := { s with lock := update s.lock l o }

def setCpu (c : ℕ) (x : Cpu) : St := { s with cpu := update s.cpu c x }

def setCtx (p : ℕ) (x : Ctx) : St := { s with ctx := update s.ctx p x }

end St

/-- `sched()` on CPU `c`, for thread `t` which will go on at `r`: the checks, then
`swtch(&p->context, &mycpu()->context)` with `p = myproc()`. -/
def sched (s : St) (c t : ℕ) (r : Pt) : Option St :=
  let cpu := s.cpu c
  match cpu.proc with
  | none => none
  | some p =>
    if s.plock p ≠ some c ∨ (s.proc p).state = .RUNNING then
      some (s.setCpu c { cpu with mode := .panic })
    else
      let s := { s with swtchs := update s.swtchs t (s.swtchs t + 1) }
      some (((s.setCtx p ⟨t, r, s.swtchs t⟩).goto t r).setCpu c { cpu with mode := .back cpu.saved })

/-- CPU `c` carries out an effect of the code of thread `t`. -/
def perform (s : St) (c t : ℕ) : Effect → Option St
  | .move k => some (s.goto t k)
  | .acquire x k => if s.plock x = none then some ((s.setPlock x (some c)).goto t k) else none
  | .write x p k => some ((s.setProc x p).goto t k)
  | .release x p k => some (((s.setProc x p).setPlock x none).goto t k)
  | .lock l k => if s.lock l = none then some ((s.setLock l (some c)).goto t k) else none
  | .unlock l k => some ((s.setLock l none).goto t k)
  | .take np k =>
    some ({ s.setProc np { s.proc np with pid := s.nextpid, state := .USED } with
      nextpid := s.nextpid + 1 }.goto t k)
  | .context np k =>
    some (((s.setCtx np ⟨np, .forkret, s.swtchs np⟩).goto np .forkret).goto t k)
  | .swtch r => sched s c t r
  | .panic => some (s.setCpu c { s.cpu c with mode := .panic })

/-- One step of the loop of `scheduler` on CPU `c`, or of the thread that it runs. -/
def step (N : ℕ) (s : St) (e : ℕ × Act) : Option St :=
  let c := e.1
  let cpu := s.cpu c
  match cpu.mode with
  | .scan i =>
    if i < N then
      if s.plock i = none then
        some ((s.setPlock i (some c)).setCpu c { cpu with mode := .look i })
      else none
    else some (s.setCpu c { cpu with mode := .scan 0 })
  | .look i =>
    if (s.proc i).state = .RUNNABLE then
      some ((s.setProc i { s.proc i with state := .RUNNING }).setCpu c
        { cpu with proc := some i, mode := .switching i })
    else some (s.setCpu c { cpu with mode := .done i })
  -- `swtch(&c->context, &p->context)`
  | .switching i =>
    some ((s.goto (s.ctx i).thread (s.ctx i).resume).setCpu c
      { cpu with mode := .running (s.ctx i).thread, saved := i })
  | .back i => some (s.setCpu c { cpu with proc := none, mode := .done i })
  | .done i => some ((s.setPlock i none).setCpu c { cpu with mode := .scan (i + 1) })
  | .running t => (code N s t (s.thread t) e.2).bind (perform s c t)
  | .panic => none

/-- After `userinit`: slot 0 is `RUNNABLE` and will start at `forkret`, every CPU is about to scan
the table. -/
def init : St where
  proc := fun q =>
    if q = initproc then ⟨.RUNNABLE, none, false, 0, 1, none⟩ else ⟨.UNUSED, none, false, 0, 0, none⟩
  ctx := fun q => ⟨q, .forkret, 0⟩
  plock := fun _ => none
  lock := fun _ => none
  cpu := fun _ => ⟨none, .scan 0, 0⟩
  thread := fun _ => .forkret
  swtchs := fun _ => 0
  nextpid := 2

end Xv6.Smp
