import Xv6.ProcSleep

/-! The invariant of a monitor built on `sleep` and `wakeup`: who holds which lock at which point,
what state a thread is in there, and that a sleeper still has its reason to sleep or is owed a
`wakeup` by the holder of the condition lock. The steps inside `sleep`, `wakeup`, `sched`, `yield`
and `kkill` keep it for any client. -/
namespace Xv6

variable {χ κ G A : Type}

/-- What a client says about its points: whether the condition lock is held there, which `p->lock`s
are, whether a `sleep` returns there, which channels are still to be woken before the condition lock
is released, and when a sleeper may go on sleeping. -/
structure Monitor (χ κ G : Type) where
  holds : κ → Prop
  holdsP : κ → ℕ → Prop
  resumes : κ → Prop
  owes : κ → χ → Prop
  calm : Kern χ κ G → χ → Prop

def ProcState.Live (st : ProcState) : Prop := st = .SLEEPING ∨ st = .RUNNABLE ∨ st = .RUNNING

/-- The two states differ only in what scheduling may change. -/
structure Quiet (s s' : Kern χ κ G) : Prop where
  g : s'.g = s.g
  parent : ∀ q, (s'.proc q).parent = (s.proc q).parent
  pid : ∀ q, (s'.proc q).pid = (s.proc q).pid
  xstate : ∀ q, (s'.proc q).xstate = (s.proc q).xstate
  state : ∀ q, (s'.proc q).state = (s.proc q).state ∨
    ((s.proc q).state.Live ∧ (s'.proc q).state.Live)
  point : ∀ q, (s'.pc q).point = (s.pc q).point

/-- The channel that a thread inside `sleep` is going to sleep on. -/
def Pc.bound : Pc χ κ → Option χ
  | .sleepLock c _ | .sleepRelease c _ | .sleepMark c _ => some c
  | _ => none

/-- Asleep on `c`, or inside `sleep(c, lk)` and past the last test of its condition. -/
def AsleepOn (s : Kern χ κ G) (q : ℕ) (c : χ) : Prop :=
  ((s.proc q).state = .SLEEPING ∧ (s.proc q).chan = some c) ∨ (s.pc q).bound = some c

namespace Monitor

variable (M : Monitor χ κ G)

def holdsLk : Pc χ κ → Prop
  | .run k | .wakeup _ _ k => M.holds k
  | .sleepLock _ _ | .sleepRelease _ _ => True
  | _ => False

def holdsPl (t : ℕ) : Pc χ κ → ℕ → Prop
  | .run k, q | .wakeup _ _ k, q => M.holdsP k q
  | .sleepRelease _ _, q | .sleepMark _ _, q | .schedOut _, q | .schedIn _, q => q = t
  | _, _ => False

/-- The point a thread inside `sleep` or `sched` returns to agrees with the locks it
will hold there. -/
def ContOk : Pc χ κ → Prop
  | .sleepLock _ k | .sleepRelease _ k | .sleepMark _ k | .sleepReacquire k
  | .schedOut (.afterSleep k) | .switched (.afterSleep k) | .schedIn (.afterSleep k) =>
    M.resumes k ∧ M.holds k ∧ ∀ q, ¬ M.holdsP k q
  | .schedOut (.plain k) | .switched (.plain k) | .schedIn (.plain k) =>
    ¬ M.holds k ∧ ∀ q, ¬ M.holdsP k q
  | .run _ | .wakeup _ _ _ => True

def StateOk : Pc χ κ → ProcState → Prop
  | .schedOut (.afterSleep _), st | .switched (.afterSleep _), st => st = .SLEEPING ∨ st = .RUNNABLE
  | .schedOut (.plain _), st | .switched (.plain _), st => st ≠ .SLEEPING ∧ st ≠ .RUNNING
  | _, st => st = .RUNNING

theorem stateOk_change {p : Pc χ κ} {st st' : ProcState} (h : StateOk p st) (hst : ¬ st.Live)
    (hst' : st' ≠ .SLEEPING ∧ st' ≠ .RUNNING) : StateOk p st' := by
  unfold ProcState.Live at hst
  cases p with
  | schedOut r => cases r <;> simp_all [StateOk]
  | switched r => cases r <;> simp_all [StateOk]
  | _ => simp_all [StateOk]

/-- At this point the thread will still look at slot `q` in a `wakeup(c)` before it
releases the condition lock. -/
def owesPc : Pc χ κ → χ → ℕ → Prop
  | .run k, c, _ => M.owes k c
  | .wakeup c' i k, c, q => (c' = c ∧ i ≤ q) ∨ M.owes k c
  | _, _, _ => False

structure Inv (N : ℕ) (s : Kern χ κ G) : Prop where
  lk : ∀ t, s.lk = some t ↔ M.holdsLk (s.pc t)
  plock : ∀ q t, s.plock q = some t ↔ M.holdsPl t (s.pc t) q
  cont : ∀ t, M.ContOk (s.pc t)
  state : ∀ t, StateOk (s.pc t) (s.proc t).state
  sleepers : ∀ q c, AsleepOn s q c →
    q < N ∧ (M.calm s c ∨ ∃ t, s.lk = some t ∧ M.owesPc (s.pc t) c q)

variable {M}

theorem sleeping_pc {N : ℕ} {s : Kern χ κ G} (hi : M.Inv N s) {q : ℕ}
    (h : (s.proc q).state = .SLEEPING) :
    ∃ k, s.pc q = .schedOut (.afterSleep k) ∨ s.pc q = .switched (.afterSleep k) := by
  have hs := hi.state q
  rw [h] at hs
  cases hp : s.pc q with
  | schedOut r => cases r <;> simp_all [StateOk]
  | switched r => cases r <;> simp_all [StateOk]
  | _ => simp [hp, StateOk] at hs

theorem holdsLk_of_point {N : ℕ} {s : Kern χ κ G} (hi : M.Inv N s) {t : ℕ}
    (hh : M.holds (s.pc t).point) (hr : ¬ M.resumes (s.pc t).point) : s.lk = some t := by
  rw [hi.lk t]
  have hc := hi.cont t
  cases hp : s.pc t with
  | schedOut r => cases r <;> simp_all [ContOk, Pc.point, Resume.point]
  | switched r => cases r <;> simp_all [ContOk, Pc.point, Resume.point]
  | schedIn r => cases r <;> simp_all [ContOk, Pc.point, Resume.point]
  | _ => simp_all [ContOk, Pc.point, holdsLk]

/-- What thread `t` does with a lock that it holds iff `h`, before, and iff `h'`, after. -/
inductive LkStep (lk lk' : Option ℕ) (t : ℕ) (h h' : Prop) : Prop
  | same (he : lk' = lk) (hh : h' ↔ h)
  | release (he : lk' = none) (hh : h) (hh' : ¬ h')
  | acquire (hlk : lk = none) (he : lk' = some t) (hh' : h')

/-- What thread `t` does with the `p->lock`s, of which it holds those of `H` and then those of `H'`. -/
inductive PlockStep (pl pl' : ℕ → Option ℕ) (t : ℕ) (H H' : ℕ → Prop) : Prop
  | same (he : pl' = pl) (hH : ∀ q, H' q ↔ H q)
  | release (x : ℕ) (he : pl' = update pl x none) (hx : H x) (hH : ∀ q, H' q ↔ q ≠ x ∧ H q)
  | acquire (x : ℕ) (hx : pl x = none) (he : pl' = update pl x (some t)) (hH : ∀ q, H' q ↔ q = x ∨ H q)

theorem lk_update {H : Pc χ κ → Prop} {lk lk' : Option ℕ} {pc : ℕ → Pc χ κ} {t : ℕ} {p : Pc χ κ}
    (h : ∀ u, lk = some u ↔ H (pc u)) (hcase : LkStep lk lk' t (H (pc t)) (H p)) (u : ℕ) :
    lk' = some u ↔ H (update pc t p u) := by
  have hu := h u
  have ht := h t
  by_cases hut : u = t
  · subst hut
    rw [update_self]
    cases hcase with
    | same he hp => rw [he, hp, hu]
    | release he hp hn => simp [he, hn]
    | acquire hlk he hp => simp [he, hp]
  · rw [update_of_ne hut]
    cases hcase with
    | same he hp => rw [he, hu]
    | release he hp hn =>
      rw [ht.mpr hp] at hu
      simp only [he, reduceCtorEq, false_iff]
      intro hH
      exact hut (Option.some.inj (hu.mpr hH)).symm
    | acquire hlk he hp =>
      rw [hlk] at hu
      simp only [he, Option.some.injEq]
      exact ⟨fun e => absurd e.symm hut, fun hH => absurd (hu.mpr hH) (by simp)⟩

theorem plock_update {H : ℕ → Pc χ κ → ℕ → Prop} {pl pl' : ℕ → Option ℕ} {pc : ℕ → Pc χ κ}
    {t : ℕ} {p : Pc χ κ} (h : ∀ q u, pl q = some u ↔ H u (pc u) q)
    (hcase : PlockStep pl pl' t (H t (pc t)) (H t p)) (q u : ℕ) :
    pl' q = some u ↔ H u (update pc t p u) q := by
  have hqu := h q u
  by_cases hut : u = t
  · subst hut
    rw [update_self]
    cases hcase with
    | same he hp => rw [he, hp, hqu]
    | release x he _ hp | acquire x _ he hp =>
      rw [he, hp, ← hqu]
      by_cases hqx : q = x <;> simp [hqx]
  · rw [update_of_ne hut, ← hqu]
    cases hcase with
    | same he _ => rw [he]
    | release x he hx _ =>
      rw [he]
      by_cases hqx : q = x
      · subst hqx
        have hq := (h q t).mpr hx
        simp only [update_self, hq, reduceCtorEq, Option.some.injEq, false_iff]
        exact fun e => hut e.symm
      · rw [update_of_ne hqx]
    | acquire x hx he _ =>
      rw [he]
      by_cases hqx : q = x
      · subst hqx
        simp only [update_self, hx, reduceCtorEq, Option.some.injEq, iff_false]
        exact fun e => hut e.symm
      · rw [update_of_ne hqx]

/-- The sleepers' part of the invariant, when thread `t` moves to `p` without touching
the condition lock, puts nobody to sleep, and still owes every `wakeup` it owed. -/
theorem sleepers_update {N : ℕ} {s s' : Kern χ κ G} (hi : M.Inv N s) {t : ℕ}
    (hlk : s'.lk = s.lk) (hpc : ∀ u, u ≠ t → s'.pc u = s.pc u)
    (hcalm : ∀ c, M.calm s c → M.calm s' c)
    (hsleep : ∀ q c, AsleepOn s' q c → AsleepOn s q c)
    (howes : ∀ q c, AsleepOn s' q c → s.lk = some t → M.owesPc (s.pc t) c q →
      M.owesPc (s'.pc t) c q) (q : ℕ) (c : χ) (h : AsleepOn s' q c) :
    q < N ∧ (M.calm s' c ∨ ∃ u, s'.lk = some u ∧ M.owesPc (s'.pc u) c q) := by
  obtain ⟨hq, hc | ⟨u, hu, ho⟩⟩ := hi.sleepers q c (hsleep q c h)
  · exact ⟨hq, .inl (hcalm c hc)⟩
  · refine ⟨hq, .inr ⟨u, hlk.trans hu, ?_⟩⟩
    by_cases hut : u = t
    · subst hut
      exact howes q c h hu ho
    · rw [hpc u hut]
      exact ho

/-- `calm` looks at nothing that scheduling changes. -/
def CalmQuiet (M : Monitor χ κ G) : Prop :=
  ∀ s s' c, Quiet s s' → M.calm s c → M.calm s' c

theorem point_update {pc : ℕ → Pc χ κ} {t : ℕ} {p p' : Pc χ κ} (hp : pc t = p)
    (h : p'.point = p.point) (u : ℕ) : (update pc t p' u).point = (pc u).point := by
  by_cases hu : u = t
  · subst hu
    rw [update_self, hp, h]
  · rw [update_of_ne hu]

theorem quiet_of_proc_eq {s s' : Kern χ κ G} (hg : s'.g = s.g) (hp : s'.proc = s.proc)
    (hpt : ∀ q, (s'.pc q).point = (s.pc q).point) : Quiet s s' := by
  refine ⟨hg, ?_, ?_, ?_, ?_, hpt⟩ <;> intro q <;> simp only [hp, true_or]

theorem quiet_of_setProc {s s' : Kern χ κ G} {q : ℕ} {p : Proc χ} (hg : s'.g = s.g)
    (hp : s'.proc = update s.proc q p) (hpar : p.parent = (s.proc q).parent)
    (hpid : p.pid = (s.proc q).pid) (hx : p.xstate = (s.proc q).xstate)
    (hs : p.state = (s.proc q).state ∨ ((s.proc q).state.Live ∧ p.state.Live))
    (hpt : ∀ q, (s'.pc q).point = (s.pc q).point) : Quiet s s' := by
  refine ⟨hg, ?_, ?_, ?_, ?_, hpt⟩ <;> intro u <;> by_cases hu : u = q
  all_goals first
    | (subst hu; simp only [hp, update_self]; assumption)
    | simp only [hp, update_of_ne hu, true_or]

theorem kill_quiet (s : Kern χ κ G) (q : ℕ) : Quiet s (s.setProc q (s.proc q).kill) := by
  refine quiet_of_setProc rfl rfl rfl rfl rfl ?_ (fun _ => rfl)
  unfold Proc.kill
  split_ifs with h
  · exact .inr ⟨.inl h, .inr (.inl rfl)⟩
  · exact .inl rfl

theorem forall_update {P : ℕ → Pc χ κ → Prop} {pc : ℕ → Pc χ κ} {t : ℕ} {p : Pc χ κ}
    (h : ∀ u, P u (pc u)) (hp : P t p) (u : ℕ) : P u (update pc t p u) := by
  by_cases hu : u = t
  · subst hu
    rwa [update_self]
  · rw [update_of_ne hu]
    exact h u

/-- Nobody falls asleep when thread `t` moves to a point outside `sleep`, or to a later
point of the same `sleep`, and the process table stays as it is. -/
theorem asleep_of_move {s s' : Kern χ κ G} {t q : ℕ} {c : χ} {p : Pc χ κ}
    (h : AsleepOn s' q c) (hproc : s'.proc = s.proc) (hpc : s'.pc = update s.pc t p)
    (hb : p.bound = none ∨ p.bound = (s.pc t).bound) : AsleepOn s q c := by
  rcases h with h | h
  · exact .inl (by rwa [hproc] at h)
  · right
    rw [hpc] at h
    by_cases hq : q = t
    · subst hq
      rw [update_self] at h
      rcases hb with hb | hb
      · rw [hb] at h
        cases h
      · rw [← hb]
        exact h
    · rwa [update_of_ne hq] at h

section Generic

variable {N : ℕ} {s s' : Kern χ κ G} {t : ℕ}

section Sleep

variable {c : χ} {k : κ} {r : Resume κ} (hcq : M.CalmQuiet) (hi : M.Inv N s)
include hcq hi

/-- A step inside `sleep` or `sched`: thread `t` changes only its own entry of the table, leaves the
condition lock alone, and owes nobody a `wakeup`. -/
theorem inv_own {p : Pc χ κ} {x : Proc χ} (hpc : s'.pc = update s.pc t p) (hproc : s'.proc = update s.proc t x)
    (hg : s'.g = s.g) (hlk : s'.lk = s.lk)
    (hpl : PlockStep s.plock s'.plock t (M.holdsPl t (s.pc t)) (M.holdsPl t p))
    (hx : x.parent = (s.proc t).parent ∧ x.pid = (s.proc t).pid ∧ x.xstate = (s.proc t).xstate)
    (hlive : x.state = (s.proc t).state ∨ ((s.proc t).state.Live ∧ x.state.Live))
    (hpt : p.point = (s.pc t).point) (hL : M.holdsLk p ↔ M.holdsLk (s.pc t)) (hcont : M.ContOk p)
    (hst : StateOk p x.state)
    (hsleep : ∀ c', (x.state = .SLEEPING ∧ x.chan = some c') ∨ p.bound = some c' → AsleepOn s t c')
    (howes : s.lk = some t → ∀ q c', ¬ M.owesPc (s.pc t) c' q) : M.Inv N s' := by
  have hquiet : Quiet s s' := by
    refine quiet_of_setProc hg hproc hx.1 hx.2.1 hx.2.2 hlive ?_
    rw [hpc]
    exact point_update rfl hpt
  refine ⟨?_, ?_, ?_, fun u => ?_, sleepers_update (t := t) hi hlk ?_ (fun c' => hcq s s' c' hquiet)
    (fun q c' ha => ?_) (fun q c' _ hl ho => absurd ho (howes hl q c'))⟩
  · rw [hpc]
    exact lk_update hi.lk (.same hlk hL)
  · rw [hpc]
    exact plock_update hi.plock hpl
  · rw [hpc]
    exact forall_update hi.cont hcont
  · rw [hpc, hproc]
    by_cases hu : u = t
    · rwa [hu, update_self, update_self]
    · rw [update_of_ne hu, update_of_ne hu]
      exact hi.state u
  · intro u hu
    rw [hpc, update_of_ne hu]
  · rw [AsleepOn, hpc, hproc] at ha
    by_cases hq : q = t
    · rw [hq, update_self, update_self] at ha
      exact hq ▸ hsleep c' ha
    · rwa [update_of_ne hq, update_of_ne hq] at ha

theorem inv_sleepLock (hp : s.pc t = .sleepLock c k) (hpl : s.plock t = none) :
    M.Inv N ((s.setPlock t (some t)).setPc t (.sleepRelease c k)) := by
  have hst := hi.state t
  have hcont := hi.cont t
  rw [hp] at hst hcont
  refine inv_own hcq hi rfl (update_eq_self t s.proc).symm rfl rfl
    (.acquire t hpl rfl (by simp [hp, holdsPl])) ⟨rfl, rfl, rfl⟩ (.inl rfl) (by rw [hp]; rfl)
    (by simp [hp, holdsLk]) hcont hst (fun c' h => ?_) (by simp [hp, owesPc])
  rwa [AsleepOn, hp]

theorem inv_sleepRelease (hp : s.pc t = .sleepRelease c k) :
    M.Inv N ((s.setLk none).setPc t (.sleepMark c k)) := by
  have hst := hi.state t
  have hcont := hi.cont t
  rw [hp] at hst hcont
  refine ⟨lk_update hi.lk (.release rfl (by simp [hp, holdsLk]) (by simp [holdsLk])),
    plock_update hi.plock (.same rfl (by simp [hp, holdsPl])),
    forall_update hi.cont hcont,
    forall_update (P := fun u p => StateOk p (s.proc u).state) hi.state hst, ?_⟩
  -- `t` itself held the lock and owed nothing, so every sleeper was calm
  intro q c' ha
  have ha' := asleep_of_move (s := s) ha rfl rfl (.inr (by rw [hp]; rfl))
  obtain ⟨hq, hc | ⟨u, hu, ho⟩⟩ := hi.sleepers q c' ha'
  · exact ⟨hq, .inl (hcq s _ c' (quiet_of_proc_eq rfl rfl (point_update hp rfl)) hc)⟩
  · have hlk : s.lk = some t := (hi.lk t).mpr (by simp [hp, holdsLk])
    rw [hlk, Option.some.injEq] at hu
    subst hu
    simp [hp, owesPc] at ho

theorem inv_sleepMark (hp : s.pc t = .sleepMark c k) :
    M.Inv N ((s.setProc t { s.proc t with chan := some c, state := .SLEEPING }).setPc t
      (.schedOut (.afterSleep k))) := by
  have hst := hi.state t
  have hcont := hi.cont t
  rw [hp] at hst hcont
  refine inv_own hcq hi rfl rfl rfl rfl (.same rfl (by simp [hp, holdsPl])) ⟨rfl, rfl, rfl⟩
    (.inr ⟨.inr (.inr hst), .inl rfl⟩) (by rw [hp]; rfl) (by simp [hp, holdsLk]) hcont (.inl rfl)
    (fun c' h => .inr ?_) (by simp [hp, owesPc])
  rw [hp]
  simpa [Pc.bound] using h

theorem inv_sleepReacquire (hp : s.pc t = .sleepReacquire k) (hlk : s.lk = none) :
    M.Inv N ((s.setLk (some t)).setPc t (.run k)) := by
  have hst := hi.state t
  have hcont := hi.cont t
  rw [hp] at hst hcont
  refine ⟨lk_update hi.lk (.acquire hlk rfl hcont.2.1),
    plock_update hi.plock (.same rfl (by simp [hp, holdsPl, hcont.2.2])),
    forall_update hi.cont trivial,
    forall_update (P := fun u p => StateOk p (s.proc u).state) hi.state hst, ?_⟩
  -- the lock was free, so every sleeper is calm
  intro q c' ha
  have ha' := asleep_of_move (s := s) ha rfl rfl (.inl rfl)
  obtain ⟨hq, hc | ⟨u, hu, _⟩⟩ := hi.sleepers q c' ha'
  · exact ⟨hq, .inl (hcq s _ c' (quiet_of_proc_eq rfl rfl (point_update hp rfl)) hc)⟩
  · rw [hlk] at hu
    cases hu

theorem inv_schedOut (hp : s.pc t = .schedOut r) :
    M.Inv N ((s.setPlock t none).setPc t (.switched r)) := by
  have hst := hi.state t
  have hcont := hi.cont t
  rw [hp] at hst hcont
  exact inv_own hcq hi rfl (update_eq_self t s.proc).symm rfl rfl
    (.release t rfl (by simp [hp, holdsPl]) (by simp [hp, holdsPl])) ⟨rfl, rfl, rfl⟩ (.inl rfl)
    (by rw [hp]; rfl) (by simp [hp, holdsLk]) (by cases r <;> exact hcont) (by cases r <;> exact hst)
    (fun c' h => .inl (by simpa [Pc.bound] using h)) (by simp [hp, owesPc])

theorem inv_schedIn_afterSleep (hp : s.pc t = .schedIn (.afterSleep k)) :
    M.Inv N (((s.setProc t { s.proc t with chan := none }).setPlock t none).setPc t
      (.sleepReacquire k)) := by
  have hst := hi.state t
  have hcont := hi.cont t
  rw [hp] at hst hcont
  exact inv_own hcq hi rfl rfl rfl rfl
    (.release t rfl (by simp [hp, holdsPl]) (by simp [hp, holdsPl])) ⟨rfl, rfl, rfl⟩ (.inl rfl)
    (by rw [hp]; rfl) (by simp [hp, holdsLk]) hcont hst (by simp [Pc.bound]) (by simp [hp, owesPc])

theorem inv_schedIn_plain (hp : s.pc t = .schedIn (.plain k)) :
    M.Inv N ((s.setPlock t none).setPc t (.run k)) := by
  have hst := hi.state t
  have hcont := hi.cont t
  rw [hp] at hst hcont
  exact inv_own hcq hi rfl (update_eq_self t s.proc).symm rfl rfl
    (.release t rfl (by simp [hp, holdsPl]) (by simp [hp, holdsPl, hcont.2])) ⟨rfl, rfl, rfl⟩ (.inl rfl)
    (by rw [hp]; rfl) (by simp [hp, holdsLk, hcont.1]) trivial hst
    (fun c' h => .inl (by simpa [Pc.bound] using h)) (by simp [hp, owesPc])

theorem inv_dispatch (hp : s.pc t = .switched r) (hpl : s.plock t = none)
    (hr : (s.proc t).state = .RUNNABLE) :
    M.Inv N (((s.setProc t { s.proc t with state := .RUNNING }).setPlock t (some t)).setPc t
      (.schedIn r)) := by
  have hcont := hi.cont t
  rw [hp] at hcont
  exact inv_own hcq hi rfl rfl rfl rfl (.acquire t hpl rfl (by simp [hp, holdsPl])) ⟨rfl, rfl, rfl⟩
    (.inr ⟨.inr (.inl hr), .inr (.inr rfl)⟩) (by rw [hp]; rfl) (by simp [hp, holdsLk])
    (by cases r <;> exact hcont) (by cases r <;> rfl) (by simp [Pc.bound]) (by simp [hp, owesPc])

theorem inv_yield (hp : s.pc t = .run k) (hpl : s.plock t = none)
    (hr : (s.proc t).state = .RUNNING) (hk : ¬ M.holds k ∧ ∀ q, ¬ M.holdsP k q) :
    M.Inv N (((s.setProc t { s.proc t with state := .RUNNABLE }).setPlock t (some t)).setPc t
      (.schedOut (.plain k))) := by
  have hnlk : s.lk ≠ some t := fun h => hk.1 (by simpa [hp, holdsLk] using (hi.lk t).mp h)
  exact inv_own hcq hi rfl rfl rfl rfl (.acquire t hpl rfl (by simp [hp, holdsPl, hk.2]))
    ⟨rfl, rfl, rfl⟩ (.inr ⟨.inr (.inr hr), .inr (.inl rfl)⟩) (by rw [hp]; rfl)
    (by simp [hp, holdsLk, hk.1]) hk (by simp [StateOk]) (by simp [Pc.bound])
    (fun hlk => absurd hlk hnlk)

theorem inv_kill (q : ℕ) : M.Inv N (s.setProc q (s.proc q).kill) := by
  have hkill : (s.proc q).kill.state = .SLEEPING → False := by
    unfold Proc.kill
    split_ifs with h
    · simp
    · exact fun h' => h h'
  refine ⟨hi.lk, hi.plock, hi.cont, ?_, ?_⟩
  · intro u
    by_cases hu : u = q
    · subst hu
      have hsu := hi.state u
      simp only [Kern.setProc_proc, Kern.setProc_pc, update_self]
      unfold Proc.kill
      split_ifs with h
      · obtain ⟨k', hk | hk⟩ := sleeping_pc hi h <;> simp [hk, StateOk]
      · exact hsu
    · simpa [hu] using hi.state u
  · refine sleepers_update (t := q) hi rfl (fun u _ => rfl) (fun c' => hcq s _ c' (kill_quiet s q)) ?_
      (fun _ _ _ _ ho => ho)
    intro u c' ha
    by_cases hu : u = q
    · subst hu
      rcases ha with ⟨ha, _⟩ | ha
      · simp only [Kern.setProc_proc, update_self] at ha
        exact (hkill ha).elim
      · exact .inr ha
    · simpa [AsleepOn, hu] using ha

end Sleep

theorem inv_context {q : ℕ} {k k' : κ} (hi : M.Inv N s) (hp : s.pc q = .switched (.plain k))
    (hk : ¬ M.holds k' ∧ ∀ x, ¬ M.holdsP k' x)
    (hcalm : ∀ c, M.calm s c → M.calm (s.setPc q (.switched (.plain k'))) c) :
    M.Inv N (s.setPc q (.switched (.plain k'))) := by
  have hst := hi.state q
  rw [hp] at hst
  refine ⟨lk_update hi.lk (.same rfl (by simp [hp, holdsLk])),
    plock_update hi.plock (.same rfl (by simp [hp, holdsPl])), forall_update hi.cont hk,
    forall_update (P := fun u p => StateOk p (s.proc u).state) hi.state hst,
    sleepers_update (t := q) hi rfl (fun u hu => by simp [hu]) hcalm
      (fun q c' ha => asleep_of_move ha rfl rfl (.inl rfl)) ?_⟩
  intro u c' _ _ ho
  simp [hp, owesPc] at ho

/-- Thread `t` moves from a client point to `p`: it puts nobody but itself to sleep, and
afterwards the `p->lock`s and the process states again agree with the points. -/
structure Moves (M : Monitor χ κ G) (s s' : Kern χ κ G) (t : ℕ) (p : Pc χ κ) : Prop where
  pc : s'.pc = update s.pc t p
  asleep : ∀ q c, AsleepOn s' q c → AsleepOn s q c ∨ (q = t ∧ p.bound = some c)
  plock : ∀ q u, s'.plock q = some u ↔ M.holdsPl u (s'.pc u) q
  cont : M.ContOk p
  state : ∀ u, StateOk (s'.pc u) (s'.proc u).state

theorem asleep_of_client {s s' : Kern χ κ G} {t : ℕ} {p : Pc χ κ}
    (hpc : s'.pc = update s.pc t p)
    (hproc : ∀ q, (s'.proc q).state = .SLEEPING →
      (s.proc q).state = .SLEEPING ∧ (s'.proc q).chan = (s.proc q).chan) (q : ℕ) (c : χ)
    (h : AsleepOn s' q c) : AsleepOn s q c ∨ (q = t ∧ p.bound = some c) := by
  rcases h with ⟨hs, hc⟩ | h
  · obtain ⟨hs', hc'⟩ := hproc q hs
    exact .inl (.inl ⟨hs', hc'.symm.trans hc⟩)
  · rw [hpc] at h
    by_cases hq : q = t
    · subst hq
      rw [update_self] at h
      exact .inr ⟨rfl, h⟩
    · rw [update_of_ne hq] at h
      exact .inl (.inr h)

section ClientRules

variable {k : κ} {p : Pc χ κ} (hi : M.Inv N s) (hp : s.pc t = .run k)
include hi hp

/-- The thread takes or releases at most one `p->lock`, and every entry of the table either
keeps its state and channel or gets a state other than `SLEEPING` that fits its point. -/
theorem moves_of (hpc : s'.pc = update s.pc t p)
    (hpl : PlockStep s.plock s'.plock t (M.holdsP k) (M.holdsPl t p))
    (hcont : M.ContOk p) (hst : StateOk p (s'.proc t).state)
    (hproc : ∀ q, q ≠ t →
      ((s'.proc q).state = (s.proc q).state ∧ (s'.proc q).chan = (s.proc q).chan) ∨
      ((s'.proc q).state ≠ .SLEEPING ∧ StateOk (s.pc q) (s'.proc q).state))
    (hself : (s'.proc t).state ≠ .SLEEPING) : M.Moves s s' t p := by
  refine ⟨hpc, asleep_of_client hpc ?_, ?_, hcont, ?_⟩
  · intro q hq
    by_cases hqt : q = t
    · exact absurd (hqt ▸ hq) hself
    · rcases hproc q hqt with ⟨hs, hc⟩ | ⟨hs, _⟩
      · exact ⟨hs ▸ hq, hc⟩
      · exact absurd hq hs
  · rw [hpc]
    refine plock_update hi.plock ?_
    rw [hp]
    exact hpl
  · intro q
    rw [hpc]
    by_cases hqt : q = t
    · subst hqt
      rwa [update_self]
    · rw [update_of_ne hqt]
      rcases hproc q hqt with ⟨hs, _⟩ | ⟨_, hs⟩
      · rw [hs]
        exact hi.state q
      · exact hs

theorem Moves.of_eq (hpc : s'.pc = update s.pc t p) (hfr : (s'.proc, s'.plock) = (s.proc, s.plock))
    (hP : M.holdsPl t p = M.holdsP k) (hto : M.ContOk p ∧ StateOk p .RUNNING) : M.Moves s s' t p := by
  obtain ⟨hproc, hpl⟩ := Prod.mk.inj hfr
  have hrun : (s'.proc t).state = .RUNNING := by
    have h := hi.state t
    rw [hp] at h
    rw [hproc]
    exact h
  refine moves_of hi hp hpc (.same hpl fun q => by rw [hP]) hto.1 (by rw [hrun]; exact hto.2) ?_ (by simp [hrun])
  exact fun q _ => .inl ⟨by rw [hproc], by rw [hproc]⟩

variable (hm : M.Moves s s' t p)
include hm

omit hp in
theorem inv_of_moves (hlk : ∀ u, s'.lk = some u ↔ M.holdsLk (update s.pc t p u))
    (hsl : ∀ q c, AsleepOn s' q c →
      q < N ∧ (M.calm s' c ∨ ∃ u, s'.lk = some u ∧ M.owesPc (s'.pc u) c q)) : M.Inv N s' := by
  refine ⟨by rwa [hm.pc], hm.plock, ?_, hm.state, hsl⟩
  rw [hm.pc]
  exact forall_update hi.cont hm.cont

omit hi hp in
theorem asleep_of_moves (hb : p.bound = none) {q : ℕ} {c : χ} (ha : AsleepOn s' q c) :
    AsleepOn s q c := by
  rcases hm.asleep q c ha with h | ⟨_, h⟩
  · exact h
  · rw [hb] at h
    cases h

omit hp in
theorem inv_acquire (hcalm : ∀ c, M.calm s c → M.calm s' c) (hlk : s.lk = none)
    (hlk' : s'.lk = some t) (hh : M.holdsLk p) (hb : p.bound = none) : M.Inv N s' := by
  refine inv_of_moves hi hm (lk_update hi.lk (.acquire hlk hlk' hh)) ?_
  intro q c ha
  obtain ⟨hq, hc | ⟨u, hu, _⟩⟩ := hi.sleepers q c (asleep_of_moves hm hb ha)
  · exact ⟨hq, .inl (hcalm c hc)⟩
  · rw [hlk] at hu
    cases hu

theorem inv_release (hcalm : ∀ c, M.calm s c → M.calm s' c) (hk : M.holds k)
    (howes : ∀ c, ¬ M.owes k c) (hlk' : s'.lk = none) (hh : ¬ M.holdsLk p)
    (hb : p.bound = none) : M.Inv N s' := by
  refine inv_of_moves hi hm (lk_update hi.lk (.release hlk' (by rwa [hp]) hh)) ?_
  intro q c ha
  obtain ⟨hq, hc | ⟨u, hu, ho⟩⟩ := hi.sleepers q c (asleep_of_moves hm hb ha)
  · exact ⟨hq, .inl (hcalm c hc)⟩
  · have hlk : s.lk = some t := (hi.lk t).mpr (by rwa [hp])
    rw [hlk, Option.some.injEq] at hu
    subst hu
    rw [hp] at ho
    exact absurd ho (howes c)

/-- A client moves while it holds the condition lock: whatever it makes false for a
sleeper it owes from then on. It may enter `sleep` on a calm channel. -/
theorem inv_locked_move (hk : M.holds k) (ht : t < N)
    (hsl : ∀ q c, AsleepOn s q c → M.calm s c ∨ M.owes k c → M.calm s' c ∨ M.owesPc p c q)
    (hlk' : s'.lk = s.lk) (hh : M.holdsLk p) (hb : ∀ c, p.bound = some c → M.calm s' c) :
    M.Inv N s' := by
  have hlk : s.lk = some t := (hi.lk t).mpr (by rwa [hp])
  refine inv_of_moves hi hm
    (lk_update hi.lk (.same hlk' (iff_of_true hh (by rwa [hp])))) ?_
  intro q c ha
  rcases hm.asleep q c ha with ha' | ⟨rfl, hq⟩
  · obtain ⟨hqN, hc⟩ := hi.sleepers q c ha'
    have hc' : M.calm s c ∨ M.owes k c := by
      rcases hc with hc | ⟨u, hu, ho⟩
      · exact .inl hc
      · rw [hlk, Option.some.injEq] at hu
        subst hu
        rw [hp] at ho
        exact .inr ho
    rcases hsl q c ha' hc' with h | h
    · exact ⟨hqN, .inl h⟩
    · exact ⟨hqN, .inr ⟨t, hlk'.trans hlk, by rw [hm.pc, update_self]; exact h⟩⟩
  · exact ⟨ht, .inl (hb c hq)⟩

theorem inv_free_move (hcalm : ∀ c, M.calm s c → M.calm s' c) (hk : ¬ M.holds k)
    (hlk' : s'.lk = s.lk) (hh : ¬ M.holdsLk p) (hb : p.bound = none) : M.Inv N s' := by
  refine inv_of_moves hi hm
    (lk_update hi.lk (.same hlk' (iff_of_false hh (by rwa [hp])))) ?_
  refine sleepers_update (t := t) hi hlk' (fun u hu => by rw [hm.pc, update_of_ne hu])
    hcalm (fun q c ha => asleep_of_moves hm hb ha) ?_
  intro q c _ hlk _
  exact absurd ((hi.lk t).mp hlk) (by rwa [hp])

end ClientRules

section WakeLemmas

variable [DecidableEq χ]

theorem quiet_wake {c : χ} {i : ℕ} {k : κ} (hp : s.pc t = .wakeup c i k) :
    Quiet s ((s.setProc i ((s.proc i).wake c)).setPc t (.wakeup c (i + 1) k)) := by
  by_cases h : (s.proc i).state = .SLEEPING ∧ (s.proc i).chan = some c
  · exact quiet_of_setProc rfl rfl (by simp [Proc.wake, h]) (by simp [Proc.wake, h])
      (by simp [Proc.wake, h]) (.inr (by simp [Proc.wake, h, ProcState.Live]))
      (point_update hp rfl)
  · refine quiet_of_proc_eq rfl ?_ (point_update hp rfl)
    simp [Proc.wake, h]

theorem sysStep_quiet {pre : κ → Bool} {e : Event A} (hi : M.Inv N s) (h : SysStep N pre s e s') : Quiet s s' := by
  cases h with
  | @sleepMark t c k hp =>
    have hst := hi.state t
    rw [hp] at hst
    exact quiet_of_setProc rfl rfl rfl rfl rfl (.inr ⟨.inr (.inr hst), .inl rfl⟩) (point_update hp rfl)
  | schedIn hp => exact quiet_of_setProc rfl rfl rfl rfl rfl (.inl rfl) (point_update hp rfl)
  | dispatch hp _ hr =>
    exact quiet_of_setProc rfl rfl rfl rfl rfl (.inr ⟨.inr (.inl hr), .inr (.inr rfl)⟩) (point_update hp rfl)
  | yield hp _ hr =>
    exact quiet_of_setProc rfl rfl rfl rfl rfl (.inr ⟨.inr (.inr hr), .inr (.inl rfl)⟩) (point_update hp rfl)
  | look hp => exact quiet_wake hp
  | kill q => exact kill_quiet s q
  | sleepLock hp | sleepRelease hp | schedOut hp | resume hp | reacquire hp | skip hp | woken hp =>
    exact quiet_of_proc_eq rfl rfl (point_update hp rfl)

theorem wake_chan (p : Proc χ) (c : χ) : (p.wake c).chan = p.chan := by
  unfold Proc.wake
  split <;> rfl

theorem wake_sleeping {p : Proc χ} {c : χ} (h : (p.wake c).state = .SLEEPING) :
    p.state = .SLEEPING ∧ p.chan ≠ some c := by
  unfold Proc.wake at h
  by_cases hs : p.state = .SLEEPING ∧ p.chan = some c
  · simp [hs] at h
  · rw [if_neg hs] at h
    exact ⟨h, fun hc => hs ⟨h, hc⟩⟩

section Wakeup

variable {c : χ} {i : ℕ} {k : κ} (hcq : M.CalmQuiet) (hi : M.Inv N s)
include hcq hi

omit [DecidableEq χ] in
theorem inv_wakeup_move {p : Pc χ κ} (hp : s.pc t = .wakeup c i k) (hp' : p = .wakeup c (i + 1) k ∨ p = .run k)
    (howes : ∀ q c', AsleepOn s q c' → M.owesPc (.wakeup c i k) c' q → M.owesPc p c' q) :
    M.Inv N (s.setPc t p) := by
  have hst := hi.state t
  rw [hp] at hst
  have hold (q : ℕ) (c' : χ) (ha : AsleepOn (s.setPc t p) q c') : AsleepOn s q c' := by
    rcases hp' with rfl | rfl <;> exact asleep_of_move ha rfl rfl (.inl rfl)
  refine ⟨lk_update hi.lk (.same rfl ?_), plock_update hi.plock (.same rfl ?_), forall_update hi.cont ?_,
    forall_update (P := fun u p => StateOk p (s.proc u).state) hi.state ?_,
    sleepers_update (t := t) hi rfl (fun u hu => by simp [hu])
      (fun c' => hcq s _ c' (quiet_of_proc_eq rfl rfl (point_update hp ?_))) hold fun q c' ha _ ho => ?_⟩
  case refine_6 =>
    rw [hp] at ho
    simpa only [Kern.setPc_pc, update_self] using howes q c' (hold q c' ha) ho
  all_goals rcases hp' with rfl | rfl <;> first | rfl | trivial | exact hst | simp [hp, holdsLk, holdsPl]

omit [DecidableEq χ] in
theorem inv_wakeup_skip (hp : s.pc t = .wakeup c t k) : M.Inv N (s.setPc t (.wakeup c (t + 1) k)) := by
  refine inv_wakeup_move hcq hi hp (.inl rfl) fun q c' ha ho => ?_
  -- `t` is running, so it is not the sleeper it skips
  have hqt : q ≠ t := by
    rintro rfl
    have hst := hi.state q
    rw [hp] at hst
    rcases ha with ⟨hs, _⟩ | hb
    · rw [hst] at hs
      cases hs
    · simp [hp, Pc.bound] at hb
  rcases ho with ⟨hc, hle⟩ | ho
  · exact .inl ⟨hc, by omega⟩
  · exact .inr ho

omit [DecidableEq χ] in
theorem inv_wakeup_done (hp : s.pc t = .wakeup c i k) (hN : N ≤ i) : M.Inv N (s.setPc t (.run k)) := by
  refine inv_wakeup_move hcq hi hp (.inr rfl) fun q c' ha ho => ?_
  have hq := (hi.sleepers q c' ha).1
  rcases ho with ⟨_, hle⟩ | ho
  · omega
  · exact ho

omit hcq in
/-- Whoever is still asleep on `c` after slot `i` was looked at is another process: a
thread on its way into `sleep(c, lk)` holds `lk` or its own `p->lock`. -/
theorem asleep_after_wake (hpl : s.plock i = none) (hlk : s.lk ≠ some i) (q : ℕ) (c' : χ)
    (ha : AsleepOn ((s.setProc i ((s.proc i).wake c)).setPc t (.wakeup c (i + 1) k)) q c') :
    AsleepOn s q c' ∧ (q = i → c' ≠ c) := by
  rcases ha with ⟨hs, hc⟩ | hb
  · by_cases hq : q = i
    · subst hq
      simp only [Kern.setPc_proc, Kern.setProc_proc, update_self, wake_chan] at hs hc
      obtain ⟨hs, hne⟩ := wake_sleeping hs
      exact ⟨.inl ⟨hs, hc⟩, fun _ e => hne (e ▸ hc)⟩
    · simp only [Kern.setPc_proc, Kern.setProc_proc, update_of_ne hq] at hs hc
      exact ⟨.inl ⟨hs, hc⟩, fun e => absurd e hq⟩
  · by_cases hq : q = t
    · subst hq
      simp [Pc.bound] at hb
    · simp only [Kern.setPc_pc, Kern.setProc_pc, update_of_ne hq] at hb
      refine ⟨.inr hb, ?_⟩
      rintro rfl
      exfalso
      cases hpq : s.pc q with
      | sleepLock c₁ k₁ => exact hlk ((hi.lk q).mpr (by simp [hpq, holdsLk]))
      | sleepRelease c₁ k₁ => exact hlk ((hi.lk q).mpr (by simp [hpq, holdsLk]))
      | sleepMark c₁ k₁ =>
        have hq := (hi.plock q q).mpr (by simp [hpq, holdsPl])
        rw [hpl] at hq
        cases hq
      | _ => simp [hpq, Pc.bound] at hb

theorem inv_wakeup_look (hp : s.pc t = .wakeup c i k) (hit : i ≠ t) (hpl : s.plock i = none) :
    M.Inv N ((s.setProc i ((s.proc i).wake c)).setPc t (.wakeup c (i + 1) k)) := by
  have hst := hi.state t
  rw [hp] at hst
  refine ⟨lk_update hi.lk (.same rfl (by simp [hp, holdsLk])),
    plock_update hi.plock (.same rfl (by simp [hp, holdsPl])),
    forall_update hi.cont trivial, ?_, ?_⟩
  · intro u
    by_cases hu : u = t
    · subst hu
      simpa [StateOk, Ne.symm hit] using hst
    · by_cases hui : u = i
      · subst hui
        have hsu := hi.state u
        simp only [Kern.setPc_proc, Kern.setProc_proc, update_self, Kern.setPc_pc,
          update_of_ne hu]
        unfold Proc.wake
        split
        next hw => obtain ⟨k', hk | hk⟩ := sleeping_pc hi hw.1 <;> simp [hk, StateOk]
        next => exact hsu
      · simpa [hu, hui] using hi.state u
  · by_cases hlk : s.lk = some i
    · -- `t` moves without the lock: the holder `i` keeps what it owes
      refine sleepers_update (t := t) hi rfl (fun u hu => by simp [hu])
        (fun c' => hcq s _ c' (quiet_wake hp)) ?_ ?_
      · intro q c' ha
        rcases ha with ⟨hs, hc⟩ | hb
        · by_cases hq : q = i
          · subst hq
            simp only [Kern.setPc_proc, Kern.setProc_proc, update_self, wake_chan] at hs hc
            exact .inl ⟨(wake_sleeping hs).1, hc⟩
          · simp only [Kern.setPc_proc, Kern.setProc_proc, update_of_ne hq] at hs hc
            exact .inl ⟨hs, hc⟩
        · by_cases hq : q = t
          · subst hq
            simp [Pc.bound] at hb
          · simp only [Kern.setPc_pc, Kern.setProc_pc, update_of_ne hq] at hb
            exact .inr hb
      · intro q c' _ hlkt _
        rw [hlk, Option.some.injEq] at hlkt
        exact absurd hlkt hit
    · refine sleepers_update (t := t) hi rfl (fun u hu => by simp [hu])
        (fun c' => hcq s _ c' (quiet_wake hp))
        (fun q c' ha => (asleep_after_wake hi hpl hlk q c' ha).1) ?_
      intro q c' ha _ ho
      simp only [hp, owesPc, Kern.setPc_pc, update_self] at ho ⊢
      rcases ho with ⟨hc, hle⟩ | ho
      · have hqi : q ≠ i := fun e => (asleep_after_wake hi hpl hlk q c' ha).2 e hc.symm
        exact .inl ⟨hc, by omega⟩
      · exact .inr ho

end Wakeup

theorem sysStep_inv {pre : κ → Bool} {e : Event A} (hcq : M.CalmQuiet)
    (hpre : ∀ k, pre k = true → ¬ M.holds k ∧ ∀ q, ¬ M.holdsP k q) (hi : M.Inv N s) (h : SysStep N pre s e s') :
    M.Inv N s' := by
  cases h with
  | sleepLock hp hpl => exact inv_sleepLock hcq hi hp hpl
  | sleepRelease hp => exact inv_sleepRelease hcq hi hp
  | sleepMark hp => exact inv_sleepMark hcq hi hp
  | schedOut hp => exact inv_schedOut hcq hi hp
  | schedIn hp => exact inv_schedIn_afterSleep hcq hi hp
  | resume hp => exact inv_schedIn_plain hcq hi hp
  | reacquire hp hlk => exact inv_sleepReacquire hcq hi hp hlk
  | skip hp => exact inv_wakeup_skip hcq hi hp
  | look hp hit hpl => exact inv_wakeup_look hcq hi hp hit hpl
  | woken hp hN => exact inv_wakeup_done hcq hi hp hN
  | dispatch hp hpl hr => exact inv_dispatch hcq hi hp hpl hr
  | yield hp hpl hr hk => exact inv_yield hcq hi hp hpl hr (hpre _ hk)
  | kill q => exact inv_kill hcq hi q

/-- A client whose own steps keep the invariant keeps it together with `sleep`,
`wakeup`, `sched`, `yield` and `kkill`. -/
theorem kernStep_inv {cl : Client χ κ G A} {e : Event A} (hcq : M.CalmQuiet)
    (hpre : ∀ k, cl.preemptible k = true → ¬ M.holds k ∧ ∀ q, ¬ M.holdsP k q)
    (hclient : ∀ t k a, e = .client t a → t < N → s.pc t = .run k →
      cl.step s t k a = some s' → M.Inv N s')
    (hi : M.Inv N s) (h : kernStep N cl s e = some s') : M.Inv N s' := by
  rcases kernStep_or h with ⟨t, k, a, he, ht, hp, hs⟩ | hs
  · exact hclient t k a he ht hp hs
  · exact sysStep_inv hcq hpre hi hs

end WakeLemmas

end Generic

end Monitor

end Xv6
