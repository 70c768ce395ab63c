import Xv6.Sched

/-! A process runs on at most one CPU. `p->lock` is taken by one thread and released by another
across `swtch`; a CPU holds the lock of the process it is switching to or from, only the holder of
`p->lock` changes `p->state`, and no thread on its way to `swtch` gives it up. -/
namespace Xv6.Smp

/-- The `p->lock` that the CPU holds while its thread `t` is at this point. -/
def Pt.plock (t : ℕ) : Pt → Option ℕ
  | .sleepRelease _ _ _ | .sleepMark _ _ _ | .woken _ _ | .yieldMark _ | .yielded _ | .sched _
  | .forkret | .zombieExit | .exitZombie _ | .exitRelease | .waitKilled _ => some t
  | .wakeupLook _ i _ | .killLook _ i | .forkLook i | .waitLook _ i | .waitCopyout _ i
  | .waitFreed i => some i
  | .forkAlloc np | .forkCopy np | .forkRunnable np => some np
  | _ => none

/-- `p->state` of a process whose thread is being executed at this point. -/
def Pt.state : Pt → ProcState
  | .sched (.woken _ _) => .SLEEPING
  | .sched (.yielded _) => .RUNNABLE
  | .sched _ | .exitRelease => .ZOMBIE
  | _ => .RUNNING

/-- A thread may come back to this point with no `p->lock` held. -/
def Pt.idle : Pt → Bool
  | .user _ | .killScan _ _ | .forkScan _ | .forkWaitLock _ | .forkReady _ | .exitWaitLock _
  | .exitReparent _ _ | .exitLock _ | .waitLock _ | .waitScan _ _ _ => true
  | .wakeup _ _ k => k.idle
  | _ => false

/-- The states of a switched-out process that goes on at this point. -/
def Pt.Resumes : Pt → ProcState → Prop
  | .woken _ _, st => st = .SLEEPING ∨ st = .RUNNABLE ∨ st = .RUNNING
  | .yielded _, st | .forkret, st => st = .RUNNABLE ∨ st = .RUNNING
  | .zombieExit, st => st = .ZOMBIE
  | _, _ => False

/-- The points to which the functions at this point return are idle. -/
def Pt.Wf : Pt → Prop
  | .sleepLock _ _ k | .sleepRelease _ _ k | .sleepMark _ _ k | .sleepReacquire _ k | .yieldLock k
  | .yieldMark k | .woken _ k | .yielded k | .wakeup _ _ k | .wakeupLook _ _ k => k.idle = true
  | .sched r => r.Resumes (Pt.sched r).state ∧ r.Wf
  | _ => True

/-- The slot that a `kfork` is filling, and whether it has set the slot's context. -/
def Pt.creates : Pt → Option (ℕ × Bool)
  | .forkAlloc np => some (np, false)
  | .forkCopy np | .forkWaitLock np | .forkParent np | .forkWaitRelease np | .forkReady np
  | .forkRunnable np => some (np, true)
  | .sleepLock _ _ k | .sleepRelease _ _ k | .sleepMark _ _ k | .sleepReacquire _ k | .yieldLock k
  | .yieldMark k | .woken _ k | .yielded k | .wakeup _ _ k | .wakeupLook _ _ k => k.creates
  | .sched r => r.creates
  | _ => none

/-- `c->proc`, as far as the mode determines it. -/
def Mode.proc : Mode → Option ℕ
  | .switching i | .running i | .back i => some i
  | _ => none

/-- The `p->lock` that CPU `c` holds. -/
def St.holds (s : St) (c : ℕ) : Option ℕ :=
  match (s.cpu c).mode with
  | .look i | .switching i | .back i | .done i => some i
  | .running t => (s.thread t).plock t
  | _ => none

/-- The context of a process that is not being executed is the one stored by its latest `swtch`. -/
def St.Saved (s : St) (p : ℕ) : Prop :=
  ((s.proc p).state = .UNUSED ∨ (s.proc p).state = .USED) ∨
    (s.ctx p = ⟨p, s.thread p, s.swtchs p⟩ ∧ (s.thread p).Resumes (s.proc p).state)

/-- A process in `kfork` fills a slot that is its own, and ready to run once its context is set. -/
structure St.Creates (s : St) (t np : ℕ) (b : Bool) : Prop where
  used : (s.proc np).state = .USED
  ready : b = true → s.ctx np = ⟨np, .forkret, s.swtchs np⟩ ∧ s.thread np = .forkret
  own : ∀ u b', (s.thread u).creates = some (np, b') → u = t

/-- What a thread that is being executed relies on: `kwait` has found a zombie, and nobody returns to
`kexit`. -/
def Pt.RunOk (s : St) : Pt → Prop
  | .waitCopyout _ i => (s.proc i).state = .ZOMBIE
  | .zombieExit => False
  | _ => True

structure Inv (s : St) : Prop where
  proc : ∀ c, (s.cpu c).proc = (s.cpu c).mode.proc
  saved : ∀ c t, (s.cpu c).mode = .running t → (s.cpu c).saved = t
  calm : ∀ c, (s.cpu c).mode ≠ .panic
  one : ∀ c d p, (s.cpu c).mode.proc = some p → (s.cpu d).mode.proc = some p → c = d
  plock : ∀ c p, s.plock p = some c ↔ s.holds c = some p
  switching : ∀ c p, (s.cpu c).mode = .switching p → (s.proc p).state = .RUNNING
  running : ∀ c p, (s.cpu c).mode = .running p → (s.proc p).state = (s.thread p).state
  back : ∀ c p, (s.cpu c).mode = .back p →
    (s.proc p).state = .SLEEPING ∨ (s.proc p).state = .RUNNABLE ∨ (s.proc p).state = .ZOMBIE
  off : ∀ p, (∀ c, (s.cpu c).mode.proc ≠ some p) → (s.proc p).state ≠ .RUNNING
  ctx : ∀ p, (∀ c, (s.cpu c).mode ≠ .running p) → s.Saved p
  wf : ∀ t, (s.thread t).Wf
  creates : ∀ t np b, (s.thread t).creates = some (np, b) → s.Creates t np b
  runs : ∀ c t, (s.cpu c).mode = .running t → (s.thread t).RunOk s

theorem Pt.plock_of_state {k : Pt} (t : ℕ) (h : k.state ≠ .RUNNING) : k.plock t = some t := by
  cases k <;> first | rfl | exact absurd rfl h

theorem Pt.runOk_congr {s s' : St} {k : Pt}
    (hz : ∀ q, (s.proc q).state = .ZOMBIE → (s'.proc q).state = .ZOMBIE) (h : k.RunOk s) : k.RunOk s' := by
  cases k with
  | waitCopyout addr i => exact hz i h
  | zombieExit => exact h
  | _ => trivial

namespace Inv

variable {s s' : St} {c t : ℕ} (hi : Inv s)
include hi

/-- A process that is not `RUNNING`, and whose lock is held by a CPU that has another one or none,
is on no CPU. -/
theorem idle_of_held {q : ℕ} (hc : (s.cpu c).mode.proc ≠ some q) (hpl : s.plock q = some c)
    (hst : (s.proc q).state ≠ .RUNNING) (d : ℕ) : (s.cpu d).mode.proc ≠ some q := by
  intro hd
  have hdc (h : s.holds d = some q) : False := by
    have hd' := (hi.plock d q).mpr h
    rw [hpl] at hd'
    obtain rfl := Option.some.inj hd'
    exact hc hd
  cases hmd : (s.cpu d).mode with
  | switching i =>
    rw [hmd] at hd
    cases hd
    exact hst (hi.switching d q hmd)
  | running u =>
    rw [hmd] at hd
    cases hd
    have hrun := hi.running d q hmd
    rw [hrun] at hst
    exact hdc (by rw [St.holds, hmd]; exact Pt.plock_of_state q hst)
  | back i =>
    rw [hmd] at hd
    cases hd
    exact hdc (by rw [St.holds, hmd])
  | _ =>
    rw [hmd] at hd
    cases hd

theorem ne_of_running (hm : (s.cpu c).mode = .running t) {d p : ℕ}
    (hd : (s.cpu d).mode.proc = some p) (hdc : d ≠ c) : p ≠ t := by
  rintro rfl
  exact hdc (hi.one d c p hd (by rw [hm]; rfl))

end Inv

/-- How a thread that moves from `k` to `k'` may change the state of another process whose lock its
CPU holds. -/
inductive Change (k k' : Pt) (q : ℕ) : ProcState → ProcState → Prop where
  | wake : Change k k' q .SLEEPING .RUNNABLE
  | take (h : k'.creates = some (q, false)) : Change k k' q .UNUSED .USED
  | free (b : Bool) (h : k.creates = some (q, b)) (h' : k'.creates = none) :
    Change k k' q .USED .UNUSED
  | ready (h : k.creates = some (q, true)) (h' : k'.creates = none) : Change k k' q .USED .RUNNABLE
  | reap : Change k k' q .ZOMBIE .UNUSED

theorem Change.ne_running {k k' : Pt} {q : ℕ} {st st' : ProcState} (h : Change k k' q st st') :
    st ≠ .RUNNING ∧ st' ≠ .RUNNING := by
  cases h <;> simp

/-- What a step of CPU `c` does with the `p->lock`s: nothing, take one when it held none, or release
the one it held. -/
inductive Locks (pl pl' : ℕ → Option ℕ) (c : ℕ) : Option ℕ → Option ℕ → Prop where
  | same (o : Option ℕ) (h : pl' = pl) : Locks pl pl' c o o
  | acquire (x : ℕ) (hx : pl x = none) (h : pl' = update pl x (some c)) :
    Locks pl pl' c none (some x)
  | release (x : ℕ) (h : pl' = update pl x none) : Locks pl pl' c (some x) none

theorem Locks.holds {pl pl' H H' : ℕ → Option ℕ} {c : ℕ} (hl : Locks pl pl' c (H c) (H' c))
    (hH : ∀ d p, pl p = some d ↔ H d = some p) (hne : ∀ d, d ≠ c → H' d = H d) (d p : ℕ) :
    pl' p = some d ↔ H' d = some p := by
  have hold := hH d p
  have hc := hH c p
  revert hl
  generalize hHc : H c = o
  generalize hHc' : H' c = o'
  intro hl
  by_cases hdc : d = c
  · subst hdc
    rw [hHc'] at *
    rw [hHc] at hold
    cases hl with
    | same _ hpl => rw [hpl, hold]
    | acquire x hx hpl =>
      rw [hpl, Option.some.injEq]
      by_cases hpx : p = x
      · simp [hpx]
      · rw [update_of_ne hpx, hold]
        simp [Ne.symm hpx]
    | release x hpl =>
      rw [hpl]
      rw [Option.some.injEq] at hold
      by_cases hpx : p = x
      · simp [hpx]
      · rw [update_of_ne hpx, hold]
        simp [Ne.symm hpx]
  · rw [hne d hdc, ← hold]
    cases hl with
    | same _ hpl => rw [hpl]
    | acquire x hx hpl =>
      rw [hpl]
      by_cases hpx : p = x
      · subst hpx
        rw [update_self, hx, Option.some.injEq]
        simp [Ne.symm hdc]
      · rw [update_of_ne hpx]
    | release x hpl =>
      rw [hpl]
      by_cases hpx : p = x
      · subst hpx
        have hxc : pl p = some c := hc.mpr hHc
        rw [update_self, hxc, Option.some.injEq]
        simp [Ne.symm hdc]
      · rw [update_of_ne hpx]

/-- The step of a thread other than `swtch` and the setting of a context. -/
structure ThreadStep (s s' : St) (c t : ℕ) (k' : Pt) : Prop where
  cpu : s'.cpu = s.cpu
  ctx : s'.ctx = s.ctx
  swtchs : s'.swtchs = s.swtchs
  thread : s'.thread = update s.thread t k'
  locks : Locks s.plock s'.plock c ((s.thread t).plock t) (k'.plock t)
  self : (s'.proc t).state = k'.state
  other : ∀ q, q ≠ t → (s'.proc q).state = (s.proc q).state ∨ (s.plock q = some c ∧
    Change (s.thread t) k' q (s.proc q).state (s'.proc q).state)
  wf : k'.Wf
  creates : k'.creates = (s.thread t).creates ∨ k'.creates = none ∨ ∃ x, k'.creates = some (x, false) ∧
    x ≠ t ∧ (s.proc x).state = .UNUSED ∧ (s'.proc x).state = .USED
  runs : k'.RunOk s'

namespace Inv

variable {s s' : St} {c t : ℕ} {k' : Pt} (hi : Inv s) (hm : (s.cpu c).mode = .running t)
  (h : ThreadStep s s' c t k')
include hi hm h

theorem thread_plock (d p : ℕ) : s'.plock p = some d ↔ s'.holds d = some p := by
  have hc : s.holds c = (s.thread t).plock t := by rw [St.holds, hm]
  have hc' : s'.holds c = k'.plock t := by
    rw [St.holds, h.cpu, hm]
    simp only [h.thread, update_self]
  have hl : Locks s.plock s'.plock c (s.holds c) (s'.holds c) := by
    rw [hc, hc']
    exact h.locks
  refine hl.holds hi.plock (fun d hdc => ?_) d p
  rw [St.holds, St.holds, h.cpu]
  cases hmd : (s.cpu d).mode with
  | running u =>
    have hut : u ≠ t := hi.ne_of_running hm (by rw [hmd]; rfl) hdc
    simp only [h.thread, update_of_ne hut]
  | _ => rfl

theorem thread_other {d p : ℕ} (hd : (s.cpu d).mode.proc = some p) (hdc : d ≠ c) :
    p ≠ t ∧ (s'.proc p).state = (s.proc p).state := by
  have hpt := hi.ne_of_running hm hd hdc
  refine ⟨hpt, ?_⟩
  rcases h.other p hpt with he | ⟨hpl, hch⟩
  · exact he
  · refine absurd hd (hi.idle_of_held ?_ hpl hch.ne_running.1 d)
    rw [hm]
    exact fun he => hpt (Option.some.inj he).symm

theorem thread_saved {p : ℕ} (hp : ∀ d, (s.cpu d).mode ≠ .running p) : s'.Saved p := by
  have hpt : p ≠ t := by
    rintro rfl
    exact hp c hm
  have hsv := hi.ctx p hp
  unfold St.Saved at hsv ⊢
  rw [h.ctx, h.swtchs, h.thread, update_of_ne hpt]
  rcases h.other p hpt with he | ⟨_, hch⟩
  · rw [he]
    exact hsv
  · revert hch
    generalize hst : (s.proc p).state = st
    generalize hst' : (s'.proc p).state = st'
    intro hch
    cases hch with
    | wake =>
      -- a sleeper goes on in `sleep`, whether it sleeps or has been woken
      rw [hst] at hsv
      rcases hsv with (hsv | hsv) | ⟨hctx, hres⟩
      · cases hsv
      · cases hsv
      · refine .inr ⟨hctx, ?_⟩
        cases hth : s.thread p with
        | woken l k => exact .inr (.inl rfl)
        | _ => simp [hth, Pt.Resumes] at hres
    | take _ => exact .inl (.inr rfl)
    | free _ _ _ => exact .inl (.inl rfl)
    | ready hcr _ =>
      obtain ⟨hctx, hth⟩ := (hi.creates t p true hcr).ready rfl
      rw [hth]
      exact .inr ⟨hctx, .inl rfl⟩
    | reap => exact .inl (.inl rfl)

theorem thread_used {u np : ℕ} {b : Bool} (hu : (s.thread u).creates = some (np, b))
    (hcase : u ≠ t ∨ k'.creates ≠ none) : np ≠ t ∧ (s'.proc np).state = .USED := by
  have hcr := hi.creates u np b hu
  have hnt : np ≠ t := by
    rintro rfl
    have hst := hi.running c np hm
    rw [hcr.used] at hst
    revert hst
    cases s.thread np with
    | sched r => cases r <;> simp [Pt.state]
    | _ => simp [Pt.state]
  refine ⟨hnt, ?_⟩
  rcases h.other np hnt with he | ⟨_, hch⟩
  · rw [he]
    exact hcr.used
  · -- only its own `kfork` takes a slot out of `USED`, and it is then done with it
    exfalso
    rw [hcr.used] at hch
    have hown (b' : Bool) (ht : (s.thread t).creates = some (np, b')) (h' : k'.creates = none) :
        False := by
      have htu := hcr.own t b' ht
      rcases hcase with hne | hne
      · exact hne htu.symm
      · exact hne h'
    generalize (s'.proc np).state = st' at hch
    cases hch with
    | free b' ht h' => exact hown b' ht h'
    | ready ht h' => exact hown true ht h'

theorem thread_creates (u np : ℕ) (b : Bool) (hu : (s'.thread u).creates = some (np, b)) :
    s'.Creates u np b := by
  rw [h.thread] at hu
  -- a slot that `t` has just taken was nobody's
  have hnew (x : ℕ) (hx : (s.proc x).state = .UNUSED) (v : ℕ) (b' : Bool) :
      (s.thread v).creates ≠ some (x, b') := by
    intro hv
    have hused := (hi.creates v x b' hv).used
    rw [hx] at hused
    cases hused
  have hold (v : ℕ) (hv : (s.thread v).creates = some (np, b))
      (hcase : v ≠ t ∨ k'.creates = (s.thread t).creates ∧ v = t) : s'.Creates v np b := by
    have hcr := hi.creates v np b hv
    obtain ⟨hnt, hused⟩ := hi.thread_used hm h hv (hcase.imp_right fun ⟨he, hvt⟩ => by
      rw [he, ← hvt, hv]
      simp)
    refine ⟨hused, fun hb => ?_, fun w b' hw => ?_⟩
    · rw [h.ctx, h.swtchs, h.thread, update_of_ne hnt]
      exact hcr.ready hb
    · rw [h.thread] at hw
      by_cases hwt : w = t
      · subst hwt
        rw [update_self] at hw
        rcases h.creates with he | he | ⟨x, he, _, hx, _⟩
        · rw [he] at hw
          exact hcr.own w b' hw
        · rw [he] at hw
          cases hw
        · rw [he] at hw
          cases hw
          exact absurd hv (hnew np hx v b)
      · rw [update_of_ne hwt] at hw
        exact hcr.own w b' hw
  by_cases hut : u = t
  · subst hut
    rw [update_self] at hu
    rcases h.creates with he | he | ⟨x, he, hxt, hx, hx'⟩
    · exact hold u (he ▸ hu) (.inr ⟨he, rfl⟩)
    · rw [he] at hu
      cases hu
    · rw [he] at hu
      cases hu
      refine ⟨hx', (fun hb => by cases hb), fun w b' hw => ?_⟩
      rw [h.thread] at hw
      by_contra hwt
      rw [update_of_ne hwt] at hw
      exact hnew np hx w b' hw
  · rw [update_of_ne hut] at hu
    exact hold u hu (.inl hut)

theorem thread_runs (d u : ℕ) (hd : (s.cpu d).mode = .running u) : (s'.thread u).RunOk s' := by
  rw [h.thread]
  by_cases hut : u = t
  · rw [hut, update_self]
    exact h.runs
  · rw [update_of_ne hut]
    have hold := hi.runs d u hd
    have hdc : d ≠ c := by
      rintro rfl
      rw [hm] at hd
      exact hut (Mode.running.inj hd).symm
    cases hu : s.thread u with
    | waitCopyout addr i =>
      rw [hu] at hold
      have hz : (s.proc i).state = .ZOMBIE := hold
      have hpl : s.plock i = some d :=
        (hi.plock d i).mpr (by rw [St.holds, hd]; simp only [hu]; rfl)
      -- a zombie on this CPU would hold its own lock, but `u` holds it
      have hit : i ≠ t := by
        rintro rfl
        have hst := hi.running c i hm
        rw [hz] at hst
        have hmine : s.plock i = some c := (hi.plock c i).mpr (by
          rw [St.holds, hm]
          exact Pt.plock_of_state i (by rw [← hst]; simp))
        rw [hpl] at hmine
        exact hdc (Option.some.inj hmine)
      rcases h.other i hit with he | ⟨hc, _⟩
      · exact he.trans hz
      · rw [hpl] at hc
        exact absurd (Option.some.inj hc) hdc
    | zombieExit =>
      rw [hu] at hold
      exact hold
    | _ => trivial

theorem thread : Inv s' := by
  have hmode (d : ℕ) : s'.cpu d = s.cpu d := by rw [h.cpu]
  have hother {d p : ℕ} (hd : (s.cpu d).mode.proc = some p) (hne : (s.cpu d).mode ≠ .running t) :
      p ≠ t ∧ (s'.proc p).state = (s.proc p).state := by
    refine hi.thread_other hm h hd ?_
    rintro rfl
    exact hne hm
  refine ⟨?_, ?_, ?_, ?_, hi.thread_plock hm h, ?_, ?_, ?_, ?_, ?_, ?_, hi.thread_creates hm h, ?_⟩
  · simpa only [hmode] using hi.proc
  · simpa only [hmode] using hi.saved
  · simpa only [hmode] using hi.calm
  · simpa only [hmode] using hi.one
  · intro d p hd
    rw [hmode] at hd
    rw [(hother (by rw [hd]; rfl) (by rw [hd]; simp)).2]
    exact hi.switching d p hd
  · intro d p hd
    rw [hmode] at hd
    by_cases hpt : p = t
    · subst hpt
      rw [h.self, h.thread, update_self]
    · rw [(hother (d := d) (by rw [hd]; rfl) (by rw [hd]; simpa using hpt)).2, h.thread,
        update_of_ne hpt]
      exact hi.running d p hd
  · intro d p hd
    rw [hmode] at hd
    rw [(hother (by rw [hd]; rfl) (by rw [hd]; simp)).2]
    exact hi.back d p hd
  · intro p hp
    simp only [hmode] at hp
    have hpt : p ≠ t := by
      rintro rfl
      exact hp c (by rw [hm]; rfl)
    rcases h.other p hpt with he | ⟨_, hch⟩
    · rw [he]
      exact hi.off p hp
    · exact hch.ne_running.2
  · intro p hp
    simp only [hmode] at hp
    exact hi.thread_saved hm h hp
  · intro u
    rw [h.thread]
    by_cases hut : u = t
    · rw [hut, update_self]
      exact h.wf
    · rw [update_of_ne hut]
      exact hi.wf u
  · intro d u hd
    rw [hmode] at hd
    exact hi.thread_runs hm h d u hd

end Inv

namespace Inv

variable {s s' : St} {c t : ℕ} {k k' : Pt} (hi : Inv s) (hm : (s.cpu c).mode = .running t)
  (hk : s.thread t = k)
include hi hm hk

theorem held {x : ℕ} (hx : k.plock t = some x) : s.plock x = some c :=
  (hi.plock c x).mpr (by rw [St.holds, hm]; simpa only [hk] using hx)

theorem ne_self {x : ℕ} (hrun : k.state = .RUNNING) (hx : (s.proc x).state ≠ .RUNNING) : x ≠ t := by
  rintro rfl
  rw [hi.running c x hm, hk] at hx
  exact hx hrun

theorem change {x : ℕ} {st st' : ProcState} (hst : (s.proc x).state = st) (hrun : k.state = .RUNNING)
    (hx : k.plock t = some x) (hch : Change k k' x st st') :
    x ≠ t ∧ s.plock x = some c ∧ Change k k' x (s.proc x).state st' := by
  subst hst
  exact ⟨hi.ne_self hm hk hrun hch.ne_running.1, hi.held hm hk hx, hch⟩

/-- The thread stores `p` in slot `x`, and changes at most the state of another process. -/
theorem put {x : ℕ} {p : Proc ℕ} (hfr : (s'.cpu, s'.ctx, s'.swtchs) = (s.cpu, s.ctx, s.swtchs))
    (hth : s'.thread = update s.thread t k')
    (hproc : s'.proc = update s.proc x p)
    (hx : p.state = (s.proc x).state ∨ (x ≠ t ∧ s.plock x = some c ∧
      Change k k' x (s.proc x).state p.state))
    (hlocks : Locks s.plock s'.plock c (k.plock t) (k'.plock t)) (hst : k'.state = k.state) (hwf : k'.Wf)
    (hcr : k'.creates = k.creates ∨ k'.creates = none ∨ k'.creates = some (x, false) ∧
      (s.proc x).state = .UNUSED ∧ p.state = .USED)
    (hruns : k'.RunOk s') : Inv s' := by
  have hrun := hi.running c t hm
  rw [hk] at hrun
  have hstate (q : ℕ) (hq : q ≠ x) : (s'.proc q).state = (s.proc q).state := by
    rw [hproc, update_of_ne hq]
  have hnew : (s'.proc x).state = p.state := by rw [hproc, update_self]
  simp only [Prod.mk.injEq] at hfr
  suffices hstep : ThreadStep s s' c t k' from hi.thread hm hstep
  refine ⟨hfr.1, hfr.2.1, hfr.2.2, hth, by rwa [hk], ?_, ?_, hwf, ?_, ?_⟩
  · by_cases hxt : x = t
    · rcases hx with hx | ⟨hne, _⟩
      · rw [← hxt, hnew, hx, hxt, hrun, hst]
      · exact absurd hxt hne
    · rw [hstate t (Ne.symm hxt), hrun, hst]
  · intro q _
    by_cases hq : q = x
    · subst hq
      rw [hnew, hk]
      exact hx.imp_right And.right
    · exact .inl (hstate q hq)
  · rw [hk]
    refine hcr.imp_right (Or.imp_right ?_)
    rintro ⟨hcr, hu, hu'⟩
    refine ⟨x, hcr, ?_, hu, hnew.trans hu'⟩
    rcases hx with hx | ⟨hne, _⟩
    · rw [hu, hu'] at hx
      cases hx
    · exact hne
  · exact hruns

theorem mark {p : Proc ℕ} (hcpu : s'.cpu = s.cpu) (hctx : s'.ctx = s.ctx)
    (hsw : s'.swtchs = s.swtchs) (hth : s'.thread = update s.thread t k')
    (hproc : s'.proc = update s.proc t p) (hst : p.state = k'.state)
    (hlocks : Locks s.plock s'.plock c (k.plock t) (k'.plock t)) (hwf : k'.Wf) (hcr : k'.creates = k.creates)
    (hruns : k'.RunOk s') : Inv s' := by
  suffices hstep : ThreadStep s s' c t k' from hi.thread hm hstep
  refine ⟨hcpu, hctx, hsw, hth, by rwa [hk], ?_, ?_, hwf, ?_, ?_⟩
  · rw [hproc, update_self, hst]
  · intro q hq
    rw [hproc, update_of_ne hq]
    exact .inl rfl
  · rw [hk]
    exact .inl hcr
  · exact hruns

end Inv

namespace Inv

variable {s s' : St} {c t : ℕ} (hi : Inv s)
include hi

theorem context {np : ℕ} (hm : (s.cpu c).mode = .running t) (hk : s.thread t = .forkAlloc np)
    (hcpu : s'.cpu = s.cpu) (hproc : s'.proc = s.proc) (hpl : s'.plock = s.plock)
    (hsw : s'.swtchs = s.swtchs)
    (hctx : s'.ctx = update s.ctx np ⟨np, .forkret, s.swtchs np⟩)
    (hth : s'.thread = update (update s.thread np .forkret) t (.forkCopy np)) :
    Inv s' := by
  have hcr := hi.creates t np false (by rw [hk]; rfl)
  have hst := hi.running c t hm
  rw [hk] at hst
  have hnt : np ≠ t := hi.ne_self hm hk rfl (by rw [hcr.used]; simp)
  -- the new thread is on no CPU
  have hidle (d : ℕ) : (s.cpu d).mode.proc ≠ some np := by
    refine hi.idle_of_held (c := c) ?_ (hi.held hm hk rfl) (by rw [hcr.used]; simp) d
    rw [hm]
    exact fun he => hnt (Option.some.inj he).symm
  have htt : s'.thread t = .forkCopy np := by rw [hth, update_self]
  have htn : s'.thread np = .forkret := by
    rw [hth, update_of_ne hnt, update_self]
  have hto {u : ℕ} (hut : u ≠ t) (hun : u ≠ np) : s'.thread u = s.thread u := by
    rw [hth, update_of_ne hut, update_of_ne hun]
  have hrun {d u : ℕ} (h : (s.cpu d).mode = .running u) (hut : u ≠ t) :
      s'.thread u = s.thread u := by
    refine hto hut ?_
    rintro rfl
    exact hidle d (by rw [h]; rfl)
  refine ⟨?_, ?_, ?_, ?_, fun d p => ?_, ?_, fun d p h => ?_, ?_, ?_, fun p h => ?_, fun u => ?_,
    fun u x b h => ?_, fun d u h => ?_⟩
  · simpa only [hcpu] using hi.proc
  · simpa only [hcpu] using hi.saved
  · simpa only [hcpu] using hi.calm
  · simpa only [hcpu] using hi.one
  · have hholds : s'.holds d = s.holds d := by
      unfold St.holds
      rw [hcpu]
      cases hmd : (s.cpu d).mode with
      | running u =>
        by_cases hut : u = t
        · simp only [hut, htt, hk, Pt.plock]
        · simp only [hrun hmd hut]
      | _ => rfl
    rw [hpl, hholds]
    exact hi.plock d p
  · simpa only [hcpu, hproc] using hi.switching
  · rw [hcpu] at h
    rw [hproc]
    by_cases hpt : p = t
    · rw [hpt, htt, hst]
      rfl
    · rw [hrun h hpt]
      exact hi.running d p h
  · simpa only [hcpu, hproc] using hi.back
  · simpa only [hcpu, hproc] using hi.off
  · rw [hcpu] at h
    have hsv := hi.ctx p h
    unfold St.Saved at hsv ⊢
    rw [hproc, hsw]
    by_cases hpn : p = np
    · rw [hpn]
      exact .inl (.inr hcr.used)
    · have hpt : p ≠ t := by
        rintro rfl
        exact h c hm
      rwa [hctx, hto hpt hpn, update_of_ne hpn]
  · by_cases hut : u = t
    · rw [hut, htt]
      trivial
    · by_cases hun : u = np
      · rw [hun, htn]
        trivial
      · rw [hto hut hun]
        exact hi.wf u
  · -- whose slot is whose does not change
    have hcreates {v y : ℕ} {b' : Bool} (hv : (s'.thread v).creates = some (y, b')) :
        (v = t ∧ y = np) ∨ (v ≠ t ∧ y ≠ np ∧ (s.thread v).creates = some (y, b')) := by
      by_cases hvt : v = t
      · rw [hvt, htt] at hv
        cases hv
        exact .inl ⟨hvt, rfl⟩
      · by_cases hvn : v = np
        · rw [hvn, htn] at hv
          cases hv
        · rw [hto hvt hvn] at hv
          refine .inr ⟨hvt, ?_, hv⟩
          rintro rfl
          exact hvt (hcr.own v b' hv)
    rcases hcreates h with ⟨rfl, rfl⟩ | ⟨hut, hxn, hu⟩
    · refine ⟨by rw [hproc]; exact hcr.used, fun _ => ⟨?_, htn⟩, fun v b' hv => ?_⟩
      · rw [hctx, hsw, update_self]
      · rcases hcreates hv with ⟨hv, _⟩ | ⟨_, hne, _⟩
        · exact hv
        · exact absurd rfl hne
    · have hold := hi.creates u x b hu
      have hxt : x ≠ t := hi.ne_self hm hk rfl (by rw [hold.used]; simp)
      refine ⟨by rw [hproc]; exact hold.used, fun hb => ?_, fun v b' hv => ?_⟩
      · rw [hctx, hsw, hto hxt hxn, update_of_ne hxn]
        exact hold.ready hb
      · rcases hcreates hv with ⟨_, hv⟩ | ⟨_, _, hv⟩
        · exact absurd hv hxn
        · exact hold.own v b' hv
  · rw [hcpu] at h
    by_cases hut : u = t
    · rw [hut, htt]
      trivial
    · rw [hrun h hut]
      exact Pt.runOk_congr (fun q h => by rwa [hproc]) (hi.runs d u h)

end Inv

section Code

variable {N : ℕ} {s s' : St} {c t : ℕ} {k : Pt} {a : Act} {e : Effect} (hi : Inv s)
  (hm : (s.cpu c).mode = .running t) (hk : s.thread t = k)
include hi hm hk

end Code

namespace Inv

variable {s s' : St} {c i : ℕ} (hi : Inv s)
include hi

end Inv

end Xv6.Smp
