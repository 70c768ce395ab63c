import Xv6.Exec

/-! `sleep`, `wakeup`, `sched`, `yield` and the part of `kkill` under `p->lock` (kernel/proc.c), as
a machine over `N` process slots. The code that calls them is a client. Every step is one acquire,
one release, or one section under a `p->lock`, so any interleaving that the locks allow is a run. -/
namespace Xv6

/-- `enum procstate` (kernel/proc.h). -/
inductive ProcState where
  | UNUSED
  | USED
  | SLEEPING
  | RUNNABLE
  | RUNNING
  | ZOMBIE
  deriving DecidableEq, Repr

/-- The fields of `struct proc` that `p->lock` and `wait_lock` protect. `χ` is the
type of wait channels. -/
structure Proc (χ : Type) where
  state : ProcState
  chan : Option χ
  killed : Bool
  xstate : ℤ
  pid : ℤ
  parent : Option ℕ

/-- How a kernel thread goes on when the scheduler switches to it again. -/
inductive Resume (κ : Type) where
  /-- inside `sleep`: clear `p->chan`, release `p->lock`, take the condition lock, go to `k` -/
  | afterSleep (k : κ)
  /-- inside `yield` or at `forkret`: release `p->lock` and go to `k` -/
  | plain (k : κ)

/-- Where a kernel thread is: at a point `k` of the client, or inside `sleep`,
`sched` or `wakeup` with the client point to return to. -/
inductive Pc (χ κ : Type) where
  | run (k : κ)
  /-- `sleep(c, lk)`: about to `acquire(&p->lock)` -/
  | sleepLock (c : χ) (k : κ)
  /-- holds `p->lock` and `lk`, about to `release(lk)` -/
  | sleepRelease (c : χ) (k : κ)
  /-- about to set `p->chan` and `p->state` -/
  | sleepMark (c : χ) (k : κ)
  /-- in `sched()`; the scheduler it switches to releases `p->lock` -/
  | schedOut (r : Resume κ)
  /-- switched out -/
  | switched (r : Resume κ)
  /-- switched in again, with `p->lock` held -/
  | schedIn (r : Resume κ)
  /-- about to take the condition lock again -/
  | sleepReacquire (k : κ)
  /-- `wakeup(c)`, with loop variable `proc + i` -/
  | wakeup (c : χ) (i : ℕ) (k : κ)

/-- The state of the machine: the process table, the holder of each `p->lock` and of
the condition lock `lk`, every thread's place in the code, and the client's data. -/
structure Kern (χ κ G : Type) where
  proc : ℕ → Proc χ
  plock : ℕ → Option ℕ
  lk : Option ℕ
  pc : ℕ → Pc χ κ
  g : G

namespace Kern

variable {χ κ G : Type}

@[simps -fullyApplied] def setProc (s : Kern χ κ G) (q : ℕ) (p : Proc χ) : Kern χ κ G :=
  { s with proc := update s.proc q p }

@[simps -fullyApplied] def setPlock (s : Kern χ κ G) (q : ℕ) (o : Option ℕ) : Kern χ κ G :=
  { s with plock := update s.plock q o }

@[simps -fullyApplied] def setPc (s : Kern χ κ G) (t : ℕ) (p : Pc χ κ) : Kern χ κ G :=
  { s with pc := update s.pc t p }

@[simps -fullyApplied] def setLk (s : Kern χ κ G) (o : Option ℕ) : Kern χ κ G := { s with lk := o }

@[simps -fullyApplied] def setG (s : Kern χ κ G) (g : G) : Kern χ κ G := { s with g := g }

end Kern

/-- `if(p->state == SLEEPING && p->chan == chan) p->state = RUNNABLE;` -/
def Proc.wake {χ : Type} [DecidableEq χ] (p : Proc χ) (c : χ) : Proc χ :=
  if p.state = .SLEEPING ∧ p.chan = some c then { p with state := .RUNNABLE } else p

/-- What `kkill` does to the process it finds, under its `p->lock`. -/
def Proc.kill {χ : Type} (p : Proc χ) : Proc χ :=
  { p with
    killed := true
    state := if p.state = .SLEEPING then .RUNNABLE else p.state }

/-- The code around `sleep` and `wakeup`: what a thread does at a client point, and
where it may be preempted (no lock held, interrupts on). -/
structure Client (χ κ G A : Type) where
  step : Kern χ κ G → ℕ → κ → A → Option (Kern χ κ G)
  preemptible : κ → Bool

/-- `client t a`: thread `t` moves in its client code. `advance t`: it moves inside `sleep`, `sched`
or `wakeup`. `dispatch q`: some CPU's scheduler picks `q`. `yield t`: a timer interrupt takes the
CPU from `t`. `kill q`: some `kkill` has found its process in slot `q`. -/
inductive Event (A : Type) where
  | client (t : ℕ) (a : A)
  | advance (t : ℕ)
  | dispatch (q : ℕ)
  | yield (t : ℕ)
  | kill (q : ℕ)

variable {χ κ G A : Type} [DecidableEq χ]

/-- One step of a thread inside `sleep`, `sched` or `wakeup`. -/
def advance (N : ℕ) (s : Kern χ κ G) (t : ℕ) : Option (Kern χ κ G) :=
  match s.pc t with
  | .run _ => none
  | .sleepLock c k =>
    if s.plock t = none then
      some ((s.setPlock t (some t)).setPc t (.sleepRelease c k))
    else none
  | .sleepRelease c k => some ((s.setLk none).setPc t (.sleepMark c k))
  | .sleepMark c k =>
    some ((s.setProc t { s.proc t with chan := some c, state := .SLEEPING }).setPc t
      (.schedOut (.afterSleep k)))
  | .schedOut r => some ((s.setPlock t none).setPc t (.switched r))
  | .switched _ => none
  | .schedIn (.afterSleep k) =>
    some (((s.setProc t { s.proc t with chan := none }).setPlock t none).setPc t
      (.sleepReacquire k))
  | .schedIn (.plain k) => some ((s.setPlock t none).setPc t (.run k))
  | .sleepReacquire k =>
    if s.lk = none then some ((s.setLk (some t)).setPc t (.run k)) else none
  | .wakeup c i k =>
    if i < N then
      -- `if(p != myproc())`: a thread does not wake itself, nor take its own lock
      if i = t then some (s.setPc t (.wakeup c (i + 1) k))
      else if s.plock i = none then
        some ((s.setProc i ((s.proc i).wake c)).setPc t (.wakeup c (i + 1) k))
      else none
    else some (s.setPc t (.run k))

def kernStep (N : ℕ) (cl : Client χ κ G A) (s : Kern χ κ G) : Event A → Option (Kern χ κ G)
  | .client t a =>
    if t < N then
      match s.pc t with
      | .run k => cl.step s t k a
      | _ => none
    else none
  | .advance t => if t < N then advance N s t else none
  | .dispatch q =>
    match s.pc q with
    | .switched r =>
      if q < N ∧ s.plock q = none ∧ (s.proc q).state = .RUNNABLE then
        some (((s.setProc q { s.proc q with state := .RUNNING }).setPlock q (some q)).setPc q
          (.schedIn r))
      else none
    | _ => none
  | .yield t =>
    match s.pc t with
    | .run k =>
      if t < N ∧ s.plock t = none ∧ (s.proc t).state = .RUNNING ∧ cl.preemptible k then
        some (((s.setProc t { s.proc t with state := .RUNNABLE }).setPlock t (some t)).setPc t
          (.schedOut (.plain k)))
      else none
    | _ => none
  | .kill q =>
    if q < N ∧ s.plock q = none then some (s.setProc q (s.proc q).kill) else none

def Resume.point : Resume κ → κ
  | .afterSleep k | .plain k => k

/-- The client point at which a thread is, or to which it will return. -/
def Pc.point : Pc χ κ → κ
  | .run k | .sleepLock _ k | .sleepRelease _ k | .sleepMark _ k | .sleepReacquire k
  | .wakeup _ _ k => k
  | .schedOut r | .switched r | .schedIn r => r.point

/-- How a thread moves inside `sleep`, `sched`, `wakeup` and `yield`; `pre` says where
the client may be preempted. -/
inductive Pc.Next (pre : κ → Bool) : Pc χ κ → Pc χ κ → Prop where
  | sleepLock (c : χ) (k : κ) : Next pre (.sleepLock c k) (.sleepRelease c k)
  | sleepRelease (c : χ) (k : κ) : Next pre (.sleepRelease c k) (.sleepMark c k)
  | sleepMark (c : χ) (k : κ) : Next pre (.sleepMark c k) (.schedOut (.afterSleep k))
  | schedOut (r : Resume κ) : Next pre (.schedOut r) (.switched r)
  | dispatch (r : Resume κ) : Next pre (.switched r) (.schedIn r)
  | schedIn (k : κ) : Next pre (.schedIn (.afterSleep k)) (.sleepReacquire k)
  | resume (k : κ) : Next pre (.schedIn (.plain k)) (.run k)
  | reacquire (k : κ) : Next pre (.sleepReacquire k) (.run k)
  | wakeup (c : χ) (i : ℕ) (k : κ) : Next pre (.wakeup c i k) (.wakeup c (i + 1) k)
  | woken (c : χ) (i : ℕ) (k : κ) : Next pre (.wakeup c i k) (.run k)
  | yield (k : κ) (h : pre k = true) : Next pre (.run k) (.schedOut (.plain k))

omit [DecidableEq χ] in
theorem Pc.Next.point_eq {pre : κ → Bool} {p p' : Pc χ κ} (h : Pc.Next pre p p') :
    p'.point = p.point := by
  cases h <;> rfl

omit [DecidableEq χ] in
theorem forall_next_update {pre : κ → Bool} {pc : ℕ → Pc χ κ} {t : ℕ} {p p' : Pc χ κ}
    (hp : pc t = p) (h : Pc.Next pre p p') (u : ℕ) :
    update pc t p' u = pc u ∨ Pc.Next pre (pc u) (update pc t p' u) := by
  by_cases hu : u = t
  · subst hu
    rw [update_self, hp]
    exact .inr h
  · rw [update_of_ne hu]
    exact .inl rfl

/-- The steps that are not the client's: all that `sleep`, `sched`, `wakeup`, the schedulers, `yield` and
`kkill` do. -/
inductive SysStep (N : ℕ) (pre : κ → Bool) (s : Kern χ κ G) : Event A → Kern χ κ G → Prop where
  | sleepLock {t c k} (hp : s.pc t = .sleepLock c k) (hpl : s.plock t = none) :
    SysStep N pre s (.advance t) ((s.setPlock t (some t)).setPc t (.sleepRelease c k))
  | sleepRelease {t c k} (hp : s.pc t = .sleepRelease c k) :
    SysStep N pre s (.advance t) ((s.setLk none).setPc t (.sleepMark c k))
  | sleepMark {t c k} (hp : s.pc t = .sleepMark c k) : SysStep N pre s (.advance t)
    ((s.setProc t { s.proc t with chan := some c, state := .SLEEPING }).setPc t (.schedOut (.afterSleep k)))
  | schedOut {t r} (hp : s.pc t = .schedOut r) :
    SysStep N pre s (.advance t) ((s.setPlock t none).setPc t (.switched r))
  | schedIn {t k} (hp : s.pc t = .schedIn (.afterSleep k)) : SysStep N pre s (.advance t)
    (((s.setProc t { s.proc t with chan := none }).setPlock t none).setPc t (.sleepReacquire k))
  | resume {t k} (hp : s.pc t = .schedIn (.plain k)) :
    SysStep N pre s (.advance t) ((s.setPlock t none).setPc t (.run k))
  | reacquire {t k} (hp : s.pc t = .sleepReacquire k) (hlk : s.lk = none) :
    SysStep N pre s (.advance t) ((s.setLk (some t)).setPc t (.run k))
  | skip {t c k} (hp : s.pc t = .wakeup c t k) :
    SysStep N pre s (.advance t) (s.setPc t (.wakeup c (t + 1) k))
  | look {t c i k} (hp : s.pc t = .wakeup c i k) (hit : i ≠ t) (hpl : s.plock i = none) :
    SysStep N pre s (.advance t) ((s.setProc i ((s.proc i).wake c)).setPc t (.wakeup c (i + 1) k))
  | woken {t c i k} (hp : s.pc t = .wakeup c i k) (hN : N ≤ i) :
    SysStep N pre s (.advance t) (s.setPc t (.run k))
  | dispatch {t r} (hp : s.pc t = .switched r) (hpl : s.plock t = none) (hr : (s.proc t).state = .RUNNABLE) :
    SysStep N pre s (.dispatch t)
      (((s.setProc t { s.proc t with state := .RUNNING }).setPlock t (some t)).setPc t (.schedIn r))
  | yield {t k} (hp : s.pc t = .run k) (hpl : s.plock t = none) (hr : (s.proc t).state = .RUNNING)
    (hk : pre k = true) : SysStep N pre s (.yield t)
      (((s.setProc t { s.proc t with state := .RUNNABLE }).setPlock t (some t)).setPc t (.schedOut (.plain k)))
  | kill (q : ℕ) : SysStep N pre s (.kill q) (s.setProc q (s.proc q).kill)

theorem sysStep_of_advance {N : ℕ} {pre : κ → Bool} {s s' : Kern χ κ G} {t : ℕ}
    (h : advance N s t = some s') : SysStep (A := A) N pre s (.advance t) s' := by
  unfold advance at h
  split at h
  next => cases h
  next c k hp =>
    obtain ⟨hpl, rfl⟩ := ite_some_iff.mp h
    exact .sleepLock hp hpl
  next c k hp => exact Option.some.inj h ▸ .sleepRelease hp
  next c k hp => exact Option.some.inj h ▸ .sleepMark hp
  next r hp => exact Option.some.inj h ▸ .schedOut hp
  next => cases h
  next k hp => exact Option.some.inj h ▸ .schedIn hp
  next k hp => exact Option.some.inj h ▸ .resume hp
  next k hp =>
    obtain ⟨hlk, rfl⟩ := ite_some_iff.mp h
    exact .reacquire hp hlk
  next c i k hp =>
    split_ifs at h with hN hit hpl <;> cases h
    · exact hit ▸ .skip (hit ▸ hp)
    · exact .look hp hit hpl
    · exact .woken hp (Nat.le_of_not_lt hN)

/-- A step is a step of the client's code or one of the others. -/
theorem kernStep_or {N : ℕ} {cl : Client χ κ G A} {s s' : Kern χ κ G} {e : Event A}
    (h : kernStep N cl s e = some s') :
    (∃ t k a, e = .client t a ∧ t < N ∧ s.pc t = .run k ∧ cl.step s t k a = some s') ∨
    SysStep N cl.preemptible s e s' := by
  unfold kernStep at h
  split at h
  next t a =>
    obtain ⟨ht, h⟩ := Option.ite_none_right_eq_some.mp h
    split at h
    next k hp => exact .inl ⟨t, k, a, rfl, ht, hp, h⟩
    next => cases h
  next t => exact .inr (sysStep_of_advance (Option.ite_none_right_eq_some.mp h).2)
  next q =>
    split at h
    next r hp =>
      obtain ⟨⟨_, hpl, hr⟩, rfl⟩ := ite_some_iff.mp h
      exact .inr (.dispatch hp hpl hr)
    next => cases h
  next t =>
    split at h
    next k hp =>
      obtain ⟨⟨_, hpl, hr, hk⟩, rfl⟩ := ite_some_iff.mp h
      exact .inr (.yield hp hpl hr hk)
    next => cases h
  next q =>
    obtain ⟨_, rfl⟩ := ite_some_iff.mp h
    exact .inr (.kill q)

theorem SysStep.frame {N : ℕ} {pre : κ → Bool} {s s' : Kern χ κ G} {e : Event A} (h : SysStep N pre s e s') :
    (∀ t a, e ≠ .client t a) ∧ s'.g = s.g ∧ ∀ u, s'.pc u = s.pc u ∨ Pc.Next pre (s.pc u) (s'.pc u) := by
  cases h with
  | kill q => exact ⟨by simp, rfl, fun _ => .inl rfl⟩
  | yield hp _ _ hk => exact ⟨by simp, rfl, forall_next_update hp (.yield _ hk)⟩
  | sleepLock hp | sleepRelease hp | sleepMark hp | schedOut hp | schedIn hp | resume hp | reacquire hp
  | skip hp | look hp | woken hp | dispatch hp =>
    exact ⟨by simp, rfl, forall_next_update hp (by constructor)⟩

/-- A step is a step of the client's code, or leaves the client's data alone and moves
threads only as `Pc.Next` says. -/
theorem kernStep_cases {N : ℕ} {cl : Client χ κ G A} {s s' : Kern χ κ G} {e : Event A}
    (h : kernStep N cl s e = some s') :
    (∃ t k a, e = .client t a ∧ t < N ∧ s.pc t = .run k ∧ cl.step s t k a = some s') ∨
    ((∀ t a, e ≠ .client t a) ∧ s'.g = s.g ∧
      ∀ u, s'.pc u = s.pc u ∨ Pc.Next cl.preemptible (s.pc u) (s'.pc u)) :=
  (kernStep_or h).imp_right SysStep.frame

end Xv6
