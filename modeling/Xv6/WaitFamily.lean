import Xv6.Wait

/-! The process family: who is whose parent, who is alive, who has exited and who has been waited
for. `wait_lock` keeps it consistent, and scheduling does not change it: every change by `kfork`,
`kexit`, `reparent` and `kwait` keeps its invariant. -/
namespace Xv6

/-- A process state up to scheduling. -/
inductive ProcClass where
  | unused
  | used
  | live
  | zombie
  deriving DecidableEq

/-- The family as the protocol sees it; `pt q` is where process `q` is in the code. -/
structure Family where
  parent : ℕ → Option ℕ
  cls : ℕ → ProcClass
  pid : ℕ → ℤ
  xstate : ℕ → ℤ
  pt : ℕ → WaitPt
  g : WaitG

def Family.goto (F : Family) (t : ℕ) (k : WaitPt) : Family :=
  { F with pt := update F.pt t k }

def ProcState.cls : ProcState → ProcClass
  | .UNUSED => .unused
  | .USED => .used
  | .SLEEPING | .RUNNABLE | .RUNNING => .live
  | .ZOMBIE => .zombie

/-- The entry of slot `q` becomes `p`. -/
def Family.put (F : Family) (q : ℕ) (p : Proc ℕ) : Family :=
  { F with
    parent := update F.parent q p.parent
    cls := update F.cls q p.state.cls
    pid := update F.pid q p.pid
    xstate := update F.xstate q p.xstate }

def Family.setG (F : Family) (g : WaitG) : Family := { F with g := g }

namespace WaitG

variable (g : WaitG) (u np : ℕ) (x : Exited) (r : Option Reaped)

@[grind =] theorem born_births : (g.born u np).births = g.births + 1 := rfl
@[grind =] theorem born_uid (q : ℕ) :
    (g.born u np).uid q = if q = np then g.births else g.uid q := update_apply _ _ _ _
@[grind =] theorem born_creator (q : ℕ) :
    (g.born u np).creator q = if q = np then g.uid u else g.creator q :=
  update_apply _ _ _ _
@[grind =] theorem born_exits : (g.born u np).exits = g.exits := rfl
@[grind =] theorem exit_uid : (g.exit x).uid = g.uid := rfl
@[grind =] theorem exit_creator : (g.exit x).creator = g.creator := rfl
@[grind =] theorem waited_uid : (g.waited r).uid = g.uid := rfl
@[grind =] theorem waited_creator : (g.waited r).creator = g.creator := rfl
@[grind =] theorem waited_exits : (g.waited r).exits = g.exits := rfl

end WaitG

namespace Family

variable (F : Family) (t q : ℕ) (k : WaitPt) (p : Proc ℕ) (g : WaitG)

@[grind =] theorem setG_g : (F.setG g).g = g := rfl
@[grind =] theorem setG_parent (u : ℕ) : (F.setG g).parent u = F.parent u := rfl
@[grind =] theorem setG_cls (u : ℕ) : (F.setG g).cls u = F.cls u := rfl
@[grind =] theorem setG_pid (u : ℕ) : (F.setG g).pid u = F.pid u := rfl
@[grind =] theorem setG_xstate (u : ℕ) : (F.setG g).xstate u = F.xstate u := rfl
@[grind =] theorem setG_pt (u : ℕ) : (F.setG g).pt u = F.pt u := rfl

@[grind =] theorem goto_pt (u : ℕ) : (F.goto t k).pt u = if u = t then k else F.pt u :=
  update_apply _ _ _ _
@[grind =] theorem goto_parent (u : ℕ) : (F.goto t k).parent u = F.parent u := rfl
@[grind =] theorem goto_cls (u : ℕ) : (F.goto t k).cls u = F.cls u := rfl
@[grind =] theorem goto_pid (u : ℕ) : (F.goto t k).pid u = F.pid u := rfl
@[grind =] theorem goto_xstate (u : ℕ) : (F.goto t k).xstate u = F.xstate u := rfl
@[grind =] theorem goto_g : (F.goto t k).g = F.g := rfl
@[grind =] theorem put_parent (u : ℕ) :
    (F.put q p).parent u = if u = q then p.parent else F.parent u := update_apply _ _ _ _
@[grind =] theorem put_cls (u : ℕ) :
    (F.put q p).cls u = if u = q then p.state.cls else F.cls u := update_apply _ _ _ _
@[grind =] theorem put_pid (u : ℕ) : (F.put q p).pid u = if u = q then p.pid else F.pid u :=
  update_apply _ _ _ _
@[grind =] theorem put_xstate (u : ℕ) :
    (F.put q p).xstate u = if u = q then p.xstate else F.xstate u := update_apply _ _ _ _
@[grind =] theorem put_pt (u : ℕ) : (F.put q p).pt u = F.pt u := rfl
@[grind =] theorem put_g : (F.put q p).g = F.g := rfl

end Family

def WaitPt.holds : WaitPt → Prop
  | .forkParent _ _ | .forkWaitRelease _ _ | .exitReparent _ _ | .exitLock _ | .exitZombie _ _
  | .waitScan _ _ _ | .waitLook _ _ | .waitCopyout _ _ | .waitFail _ | .waitFreed _ _
  | .waitReturn _ | .waitNone _ _ => True
  | _ => False

/-- Where `sleep(p, &wait_lock)` returns. -/
def WaitPt.resumes : WaitPt → Prop
  | .waitScan _ havekids i => havekids = false ∧ i = 0
  | _ => False

/-- The slot that a `kfork` is filling. -/
@[grind] def WaitPt.creating : WaitPt → Option ℕ
  | .forkAlloc np | .forkCopy np | .forkRelease np _ | .forkWaitLock np _ | .forkParent np _
  | .forkWaitRelease np _ | .forkReady np _ => some np
  | _ => none

/-- In `kexit`, or past it. -/
@[grind] def WaitPt.exiting : WaitPt → Prop
  | .exitWaitLock _ | .exitReparent _ _ | .exitLock _ | .exitZombie _ _ | .zombieExit => True
  | _ => False

/-- Not inside a system call. -/
@[grind] def WaitPt.idle : WaitPt → Prop
  | .user | .zombieExit => True
  | _ => False

/-- `kwait` returned the pid of the process that made the call `x`, and its status. -/
def Reaped.Of (r : Reaped) (x : Exited) : Prop :=
  r.uid = x.uid ∧ r.pid = x.pid ∧ ∀ st, r.status = some st → st = x.status

namespace Family

variable (F : Family)

/-- Process `t` fills the slot `np`, which nobody else has a claim to yet. -/
def Creates (t np : ℕ) (parent : Option ℕ) : Prop :=
  F.cls np = .used ∧ F.parent np = parent ∧ F.g.creator np = F.g.uid t

/-- Process `t` has called `kexit(status)`. -/
def Exits (t : ℕ) (status : ℤ) : Prop :=
  t ≠ initproc ∧ (⟨F.g.uid t, F.pid t, status⟩ : Exited) ∈ F.g.exits

/-- A reaped child that no `kwait` has returned yet. -/
def Pending (r : Reaped) : Prop :=
  (∃ x ∈ F.g.exits, r.Of x) ∧ (∀ q, F.cls q ≠ .unused → F.g.uid q ≠ r.uid) ∧
    ∀ r' ∈ F.g.returns, r'.uid ≠ r.uid

/-- What process `t` relies on at a point of its code. -/
def Relies (t : ℕ) : WaitPt → Prop
  | .forkAlloc np => F.Creates t np none
  | .forkCopy np | .forkRelease np _ | .forkWaitLock np _ | .forkParent np _ =>
    F.Creates t np none ∧ F.pt np = .user
  | .forkWaitRelease np _ | .forkReady np _ => F.Creates t np (some t) ∧ F.pt np = .user
  | .exitWaitLock status => F.Exits t status
  | .exitReparent status i => F.Exits t status ∧ ∀ q < i, F.parent q ≠ some t
  | .exitLock status => F.Exits t status ∧ ∀ q, F.parent q ≠ some t
  | .exitZombie me status => me = t ∧ F.Exits t status ∧ ∀ q, F.parent q ≠ some t
  | .zombieExit => F.parent t ≠ none → F.cls t = .zombie
  | .waitScan _ _ i => ∀ q < i, F.parent q = some t → F.pt q ≠ .zombieExit
  | .waitLook _ i => F.parent i = some t ∧ ∀ q < i, F.parent q = some t → F.pt q ≠ .zombieExit
  | .waitCopyout _ i => F.parent i = some t ∧ F.cls i = .zombie
  | .waitFreed _ r | .waitReturn (some r) => F.Pending r
  | .waitNone _ _ => ∀ q, F.parent q = some t → F.pt q ≠ .zombieExit
  | _ => True

/-- No process but `u` is at a point where `wait_lock` is held. -/
def Alone (u : ℕ) : Prop := ∀ t, t ≠ u → (F.pt t).holds → (F.pt t).resumes

structure Inv (N : ℕ) : Prop where
  outside : ∀ q, N ≤ q → F.cls q = .unused
  unused : ∀ q, F.cls q = .unused → F.parent q = none
  parent_live : ∀ q r, F.parent q = some r → F.cls r = .live
  has_parent : ∀ q, q ≠ initproc → F.cls q = .live ∨ F.cls q = .zombie → F.parent q ≠ none
  init_live : F.cls initproc = .live
  init_stays : ¬ (F.pt initproc).exiting
  creator : ∀ q r, F.parent q = some r →
    F.g.creator q = F.g.uid r ∨ (r = initproc ∧ ∃ x ∈ F.g.exits, x.uid = F.g.creator q)
  uid_lt : ∀ q, F.g.uid q < F.g.births
  exits_lt : ∀ x ∈ F.g.exits, x.uid < F.g.births
  uid_inj : ∀ q r, F.cls q ≠ .unused → F.cls r ≠ .unused → F.g.uid q = F.g.uid r → q = r
  alive : ∀ q, F.cls q = .used ∨ (F.cls q = .live ∧ ¬ (F.pt q).exiting) →
    ∀ x ∈ F.g.exits, x.uid ≠ F.g.uid q
  exits_nodup : (F.g.exits.map Exited.uid).Nodup
  zombie : ∀ q, F.cls q = .zombie → F.pt q = .zombieExit ∧
    (⟨F.g.uid q, F.pid q, F.xstate q⟩ : Exited) ∈ F.g.exits
  returned : ∀ r ∈ F.g.returns, (∃ x ∈ F.g.exits, r.Of x) ∧
    ∀ q, F.cls q ≠ .unused → F.g.uid q ≠ r.uid
  returns_nodup : (F.g.returns.map Reaped.uid).Nodup
  active : ∀ t, ¬ (F.pt t).idle → F.cls t = .live
  creating : ∀ t u q, (F.pt t).creating = some q → (F.pt u).creating = some q → t = u
  relies : ∀ t, F.Relies t (F.pt t)

variable {F} {N u : ℕ}

/-- What a process relies on survives what another process does, as far as it concerns the
slot it fills, its own exit, and, while it holds `wait_lock`, its children. -/
theorem relies_frame {F' : Family} {t : ℕ} {k : WaitPt}
    (hcr : ∀ np, k.creating = some np →
      F'.cls np = F.cls np ∧ F'.parent np = F.parent np ∧ F'.g.creator np = F.g.creator np ∧
        F'.g.uid t = F.g.uid t ∧ (F.pt np = .user → F'.pt np = .user))
    (hex : k.exiting → k ≠ .zombieExit → ∀ st, F.Exits t st → F'.Exits t st)
    (hlk : k.holds → ¬ k.resumes →
      (∀ q, F'.parent q = some t ↔ F.parent q = some t) ∧
      (∀ q, F.parent q = some t → F'.pt q = .zombieExit → F.pt q = .zombieExit) ∧
      (∀ q, F.cls q = .zombie → F'.cls q = .zombie) ∧ ∀ r, F.Pending r → F'.Pending r)
    (hz : k = .zombieExit → F'.parent t ≠ none → F'.cls t = .zombie)
    (h : F.Relies t k) : F'.Relies t k := by
  cases k
  case user | forkScan | waitLock | waitFail => trivial
  case waitReturn r =>
    cases r with
    | none => trivial
    | some r => exact (hlk trivial id).2.2.2 r h
  case waitFreed i r => exact (hlk trivial id).2.2.2 r h
  case waitScan addr hk i =>
    by_cases hr : hk = false ∧ i = 0
    · intro q hq
      omega
    · obtain ⟨hp, hpt, _, _⟩ := hlk trivial hr
      intro q hq hqt hzq
      exact h q hq ((hp q).mp hqt) (hpt q ((hp q).mp hqt) hzq)
  all_goals
    simp only [WaitPt.creating, WaitPt.exiting, WaitPt.holds, WaitPt.resumes, Relies, Creates] at *
    grind

theorem relies_creating {t np : ℕ} {k : WaitPt} (h : F.Relies t k) (hc : k.creating = some np) :
    F.cls np = .used ∧ (F.parent np = none ∨ F.parent np = some t) := by
  cases k <;> cases hc
  case forkAlloc => exact ⟨h.1, .inl h.2.1⟩
  case forkWaitRelease | forkReady => exact ⟨h.1.1, .inr h.1.2.1⟩
  all_goals exact ⟨h.1.1, .inl h.1.2.1⟩

theorem not_idle_of_creating {k : WaitPt} {np : ℕ} (hc : k.creating = some np) : ¬ k.idle := by
  cases k <;> first | exact id | cases hc

theorem not_idle_of_exiting {k : WaitPt} (he : k.exiting) (hz : k ≠ .zombieExit) : ¬ k.idle := by
  cases k <;> first | exact id | exact absurd rfl hz | exact absurd he id

section

variable (hi : F.Inv N)
include hi

theorem relies_other {F' : Family} {t : ℕ}
    (hlk : (F.pt t).holds → ¬ (F.pt t).resumes →
      (∀ q, F'.parent q = some t ↔ F.parent q = some t) ∧
      (∀ q, F.parent q = some t → F'.pt q = .zombieExit → F.pt q = .zombieExit) ∧
      (∀ q, F.cls q = .zombie → F'.cls q = .zombie) ∧ ∀ r, F.Pending r → F'.Pending r)
    (hcr : ∀ np, (F.pt t).creating = some np → F.cls np = .used →
      F'.cls np = F.cls np ∧ F'.parent np = F.parent np ∧ F'.g.creator np = F.g.creator np ∧
        (F.pt np = .user → F'.pt np = .user))
    (hz : F.pt t = .zombieExit → (F.parent t ≠ none → F.cls t = .zombie) →
      F'.parent t ≠ none → F'.cls t = .zombie)
    (hexits : ∀ x ∈ F.g.exits, x ∈ F'.g.exits) (hpt : F'.pt t = F.pt t)
    (hown : F.cls t = .live → F'.g.uid t = F.g.uid t ∧ F'.pid t = F.pid t) :
    F'.Relies t (F'.pt t) := by
  have hr := hi.relies t
  rw [hpt]
  refine relies_frame ?_ ?_ hlk ?_ hr
  · intro np hnp
    obtain ⟨hc, hp, hcreator, hup⟩ := hcr np hnp (relies_creating hr hnp).1
    have hlive := hi.active t (not_idle_of_creating hnp)
    exact ⟨hc, hp, hcreator, (hown hlive).1, hup⟩
  · intro he hne st h
    obtain ⟨hu, hpid⟩ := hown (hi.active t (not_idle_of_exiting he hne))
    refine ⟨h.1, ?_⟩
    rw [hu, hpid]
    exact hexits _ h.2
  · intro hk
    rw [hk] at hr
    exact hz hk hr

theorem inv_move {k' : WaitPt} (hu : F.cls u = .live)
    (hz : k' ≠ .zombieExit) (hex : k'.exiting ↔ (F.pt u).exiting)
    (hcr : k'.creating = none ∨ k'.creating = (F.pt u).creating)
    (hloc : (F.goto u k').Relies u k') : (F.goto u k').Inv N := by
  refine ⟨hi.outside, hi.unused, hi.parent_live, hi.has_parent, hi.init_live, ?_, hi.creator,
    hi.uid_lt, hi.exits_lt, hi.uid_inj, ?_, hi.exits_nodup, ?_, hi.returned, hi.returns_nodup, ?_,
    ?_, ?_⟩
  · grind [hi.init_stays]
  · grind [hi.alive]
  · grind [hi.zombie]
  · grind [hi.active]
  · grind [hi.creating]
  · intro t
    by_cases ht : t = u
    · grind
    · refine relies_other hi (fun _ _ => ⟨fun _ => .rfl, ?_, fun _ h => h, fun _ h => h⟩) ?_ ?_ ?_ ?_ ?_ <;> grind

theorem inv_alloc {np : ℕ} {p : Proc ℕ} (hN : np < N) (hu : F.cls u = .live)
    (hf : F.cls np = .unused) (hp : p.parent = F.parent np) (hs : p.state = .USED)
    (hcr : (F.pt u).creating = none) (hex : ¬ (F.pt u).exiting) :
    (((F.put np p).setG (F.g.born u np)).goto u (.forkAlloc np)).Inv N := by
  have hcls : p.state.cls = .used := by rw [hs]; rfl
  have hpar : F.parent np = none := hi.unused np hf
  have hne : np ≠ initproc := by grind [hi.init_live]
  have hnu : np ≠ u := by grind
  have hnew (r : Reaped) (h : ∃ x ∈ F.g.exits, r.Of x) : r.uid < F.g.births := by
    obtain ⟨x, hx, hrx, _⟩ := h
    rw [hrx]
    exact hi.exits_lt x hx
  refine ⟨?_, ?_, ?_, ?_, ?_, ?_, ?_, ?_, ?_, ?_, ?_, hi.exits_nodup, ?_, ?_, hi.returns_nodup, ?_,
    ?_, ?_⟩
  · grind [hi.outside]
  · grind [hi.unused]
  · grind [hi.parent_live]
  · grind [hi.has_parent]
  · grind [hi.init_live]
  · grind [hi.init_stays]
  · intro q r hq
    have hqr : F.parent q = some r := by grind
    have := hi.parent_live q r hqr
    have := hi.creator q r hqr
    grind
  · intro q
    have := hi.uid_lt q
    grind
  · intro x hx
    exact Nat.lt_succ_of_lt (hi.exits_lt x hx)
  · intro q r hq hr he
    have := hi.uid_lt q
    have := hi.uid_lt r
    have := hi.uid_inj q r
    grind
  · intro q hq x hx
    have := hi.exits_lt x hx
    have := hi.alive q
    grind
  · grind [hi.zombie]
  · intro r hr
    obtain ⟨hx, hq⟩ := hi.returned r hr
    have := hnew r hx
    exact ⟨hx, by grind⟩
  · grind [hi.active]
  · have hother (t : ℕ) (ht : (F.pt t).creating = some np) : False := by
      grind [relies_creating (hi.relies t) ht]
    grind [hi.creating]
  · intro t
    by_cases ht : t = u
    · subst ht
      rw [goto_pt, if_pos rfl]
      exact ⟨by grind, by grind, by grind⟩
    · refine relies_other hi (fun _ _ => ⟨?_, ?_, ?_, fun r h => ⟨h.1, ?_, h.2.2⟩⟩) ?_ ?_ ?_ ?_ ?_ <;> try grind
      have := hnew r h.1
      grind [h.2.1]

/-- What is left to show of a step of `u` to `k'` that changes the entry of one process. -/
theorem inv_put {F' G : Family} {k' : WaitPt} (hF : F' = G.goto u k') (hself : F'.Relies u k')
    (hother : ∀ t, t ≠ u → F'.Relies t (F'.pt t))
    (hcreator : ∀ q r, F'.parent q = some r → F.parent q = some r ∨ F.g.creator q = F.g.uid r ∨
      (r = initproc ∧ ∃ x ∈ F.g.exits, x.uid = F.g.creator q))
    (halive : ∀ q, F'.cls q = .used ∨ (F'.cls q = .live ∧ ¬ (F'.pt q).exiting) →
      F.cls q = .used ∨ (F.cls q = .live ∧ ¬ (F.pt q).exiting))
    (hparent : ∀ q r, F'.parent q = some r → (F.parent q = some r → F.cls r = .live) → F'.cls r = .live)
    (hunused : ∀ q, (F.cls q = .unused → F.parent q = none) → F'.cls q = .unused → F'.parent q = none)
    (hhas : ∀ q, q ≠ initproc → (F.cls q = .live ∨ F.cls q = .zombie → F.parent q ≠ none) →
      F'.cls q = .live ∨ F'.cls q = .zombie → F'.parent q ≠ none)
    (hinit : F.cls initproc = .live → F'.cls initproc = .live)
    (hstays : ¬ (F.pt initproc).exiting → ¬ (F'.pt initproc).exiting)
    (hused : ∀ q, F'.cls q ≠ .unused → F.cls q ≠ .unused)
    (hzombie : ∀ q, (F.cls q = .zombie → F.pt q = .zombieExit ∧
        (⟨F.g.uid q, F.pid q, F.xstate q⟩ : Exited) ∈ F.g.exits) → F'.cls q = .zombie →
      F'.pt q = .zombieExit ∧ (⟨F.g.uid q, F'.pid q, F'.xstate q⟩ : Exited) ∈ F.g.exits)
    (hactive : ∀ t, (¬ (F.pt t).idle → F.cls t = .live) → ¬ (F'.pt t).idle → F'.cls t = .live)
    (hcreating : (∀ t v q, (F.pt t).creating = some q → (F.pt v).creating = some q → t = v) →
      ∀ t v q, (F'.pt t).creating = some q → (F'.pt v).creating = some q → t = v)
    (hg : F'.g = F.g) : F'.Inv N := by
  refine ⟨fun q hq => ?_, fun q => hunused q (hi.unused q), fun q r h => hparent q r h (hi.parent_live q r),
    fun q hq => hhas q hq (hi.has_parent q hq), hinit hi.init_live, hstays hi.init_stays, ?_, ?_, ?_, ?_, ?_,
    ?_, ?_, ?_, ?_, fun t => hactive t (hi.active t), hcreating hi.creating, fun t => ?_⟩
  all_goals try rw [hg]
  · exact not_not.mp fun h => hused q h (hi.outside q hq)
  · exact fun q r h => (hcreator q r h).elim (hi.creator q r) id
  · exact hi.uid_lt
  · exact hi.exits_lt
  · exact fun q r hq hr => hi.uid_inj q r (hused q hq) (hused r hr)
  · exact fun q hq => hi.alive q (halive q hq)
  · exact hi.exits_nodup
  · exact fun q => hzombie q (hi.zombie q)
  · exact fun r hr => ⟨(hi.returned r hr).1, fun q hq => (hi.returned r hr).2 q (hused q hq)⟩
  · exact hi.returns_nodup
  · by_cases ht : t = u
    · rwa [ht, hF, goto_pt, if_pos rfl, ← hF]
    · exact hother t ht

theorem inv_free {np : ℕ} {p : Proc ℕ} (hu : F.cls u = .live)
    (hcr : (F.pt u).creating = some np) (hpar : F.parent np = none) (hp : p.parent = none)
    (hs : p.state = .UNUSED) : ((F.put np p).goto u .user).Inv N := by
  have hcls : p.state.cls = .unused := by rw [hs]; rfl
  have hused := (relies_creating (hi.relies u) hcr).1
  have hne : np ≠ initproc := by grind [hi.init_live]
  have hnu : np ≠ u := by grind
  have hex : ¬ (F.pt u).exiting := by
    generalize F.pt u = k at hcr
    cases k <;> first | exact id | cases hcr
  refine inv_put hi rfl trivial (fun t ht => ?_) ?_ ?_ ?_ ?_ ?_ ?_ ?_ ?_ ?_ ?_ ?_ ?_ <;> try grind
  refine relies_other hi (fun _ _ => ?_) ?_ ?_ ?_ ?_ ?_ <;> try grind [hi.creating]
  exact ⟨by grind, by grind, by grind, fun r h => ⟨h.1, by grind [h.2.1], h.2.2⟩⟩

theorem inv_context {np : ℕ} (hu : F.cls u = .live) (hk : F.pt u = .forkAlloc np) :
    ((F.goto np .user).goto u (.forkCopy np)).Inv N := by
  have hr := hi.relies u
  rw [hk] at hr
  have hused : F.cls np = .used := hr.1
  have hne : np ≠ initproc := by grind [hi.init_live]
  have hnu : np ≠ u := by grind
  have hcr : (F.pt u).creating = some np := by rw [hk]; rfl
  refine ⟨hi.outside, hi.unused, hi.parent_live, hi.has_parent, hi.init_live, ?_, hi.creator,
    hi.uid_lt, hi.exits_lt, hi.uid_inj, ?_, hi.exits_nodup, ?_, hi.returned, hi.returns_nodup, ?_,
    ?_, ?_⟩
  · grind [hi.init_stays]
  · intro q hq
    exact hi.alive q (by grind)
  · grind [hi.zombie]
  · grind [hi.active]
  · grind [hi.creating]
  · intro t
    by_cases ht : t = u
    · subst ht
      rw [goto_pt, if_pos rfl]
      exact ⟨hr, by grind⟩
    · by_cases htn : t = np
      · subst htn
        rw [goto_pt, if_neg ht, goto_pt, if_pos rfl]
        trivial
      · refine relies_other hi (fun _ _ => ⟨fun _ => .rfl, ?_, fun _ h => h, fun _ h => h⟩) ?_ ?_ ?_ ?_ ?_ <;> grind

theorem inv_link {np : ℕ} {pid : ℤ} {p : Proc ℕ} (hu : F.cls u = .live)
    (hk : F.pt u = .forkParent np pid) (ha : F.Alone u) (hp : p.parent = some u)
    (hs : p.state.cls = F.cls np) :
    ((F.put np p).goto u (.forkWaitRelease np pid)).Inv N := by
  have hr := hi.relies u
  rw [hk] at hr
  obtain ⟨⟨hused, hnone, hcreator⟩, huser⟩ := hr
  have hne : np ≠ initproc := by grind [hi.init_live]
  have hnu : np ≠ u := by grind
  have hcr : (F.pt u).creating = some np := by rw [hk]; rfl
  refine inv_put hi rfl ⟨⟨?_, ?_, hcreator⟩, ?_⟩ (fun t ht => ?_) ?_ ?_ ?_ ?_ ?_ ?_ ?_ ?_ ?_ ?_ ?_ ?_ <;> try grind
  refine relies_other hi (fun hh hn => absurd (ha t ht hh) hn) ?_ ?_ ?_ ?_ ?_ <;> grind [hi.creating]

theorem inv_ready {np : ℕ} {pid : ℤ} {p : Proc ℕ} (hu : F.cls u = .live)
    (hk : F.pt u = .forkReady np pid) (hp : p.parent = F.parent np) (hs : p.state = .RUNNABLE) :
    ((F.put np p).goto u .user).Inv N := by
  have hcls : p.state.cls = .live := by rw [hs]; rfl
  have hr := hi.relies u
  rw [hk] at hr
  obtain ⟨⟨hused, hpar, hcreator⟩, huser⟩ := hr
  have hne : np ≠ initproc := by grind [hi.init_live]
  have hnu : np ≠ u := by grind
  have hcr : (F.pt u).creating = some np := by rw [hk]; rfl
  refine inv_put hi rfl trivial (fun t ht => ?_) ?_ ?_ ?_ ?_ ?_ ?_ ?_ ?_ ?_ ?_ ?_ ?_ <;> try grind
  refine relies_other hi (fun _ _ => ?_) ?_ ?_ ?_ ?_ ?_ <;> try grind [hi.creating, hi.active]
  exact ⟨by grind, by grind, by grind, fun r h => ⟨h.1, by grind [h.2.1], h.2.2⟩⟩

theorem inv_exit {status : ℤ} (hu : F.cls u = .live) (hk : F.pt u = .user)
    (hne : u ≠ initproc) :
    ((F.setG (F.g.exit ⟨F.g.uid u, F.pid u, status⟩)).goto u (.exitWaitLock status)).Inv N := by
  have hfresh : ∀ x ∈ F.g.exits, x.uid ≠ F.g.uid u := by
    refine hi.alive u (.inr ⟨hu, ?_⟩)
    rw [hk]
    exact id
  refine ⟨hi.outside, hi.unused, hi.parent_live, hi.has_parent, hi.init_live, ?_, ?_, hi.uid_lt, ?_,
    hi.uid_inj, ?_, ?_, ?_, ?_, hi.returns_nodup, ?_, ?_, ?_⟩
  · grind [hi.init_stays]
  · intro q r hq
    rcases hi.creator q r hq with h | ⟨hr, x, hx, h⟩
    · exact .inl h
    · exact .inr ⟨hr, x, List.mem_append_left _ hx, h⟩
  · intro x hx
    rcases List.mem_append.mp hx with hx | hx
    · exact hi.exits_lt x hx
    · rw [List.mem_singleton.mp hx]
      exact hi.uid_lt u
  · intro q hq x hx
    have hqu : q ≠ u := by grind
    rcases List.mem_append.mp hx with hx | hx
    · exact hi.alive q (by grind) x hx
    · rw [List.mem_singleton.mp hx]
      intro he
      exact hqu (hi.uid_inj u q (by grind) (by grind) he).symm
  · have hmem : F.g.uid u ∉ F.g.exits.map Exited.uid := by
      intro h
      obtain ⟨x, hx, he⟩ := List.mem_map.mp h
      exact hfresh x hx he
    change ((F.g.exits ++ [_]).map Exited.uid).Nodup
    rw [List.map_append]
    exact hi.exits_nodup.append (List.nodup_singleton _)
      (List.disjoint_singleton.mpr hmem)
  · intro q hq
    obtain ⟨hz, hx⟩ := hi.zombie q hq
    exact ⟨by grind, List.mem_append_left _ hx⟩
  · intro r hr
    obtain ⟨⟨x, hx, h⟩, hq⟩ := hi.returned r hr
    exact ⟨⟨x, List.mem_append_left _ hx, h⟩, hq⟩
  · grind [hi.active]
  · grind [hi.creating]
  · intro t
    by_cases ht : t = u
    · subst ht
      rw [goto_pt, if_pos rfl]
      exact ⟨hne, List.mem_append_right _ (List.mem_singleton.mpr rfl)⟩
    · refine relies_other hi (fun _ _ => ?_) (by grind) (by grind) (fun x hx => List.mem_append_left _ hx)
        (by grind) (by grind)
      refine ⟨fun _ => .rfl, by grind, fun _ h => h, fun r h => ⟨?_, h.2⟩⟩
      obtain ⟨x, hx, h⟩ := h.1
      exact ⟨x, List.mem_append_left _ hx, h⟩

theorem inv_reparent {status : ℤ} {i : ℕ} {p : Proc ℕ} (hu : F.cls u = .live)
    (hk : F.pt u = .exitReparent status i) (ha : F.Alone u) (hc : F.parent i = some u)
    (hp : p.parent = some initproc) (hs : p.state.cls = F.cls i) (hpid : p.pid = F.pid i)
    (hx : p.xstate = F.xstate i) :
    ((F.put i p).goto u (.exitReparent status (i + 1))).Inv N := by
  have hr := hi.relies u
  rw [hk] at hr
  obtain ⟨⟨hne, hex⟩, hpassed⟩ := hr
  have hinit := hi.init_live
  refine inv_put hi rfl ⟨⟨hne, ?_⟩, fun q hq => ?_⟩ (fun t ht => ?_) (fun q r hq => ?_)
    ?_ ?_ ?_ ?_ ?_ ?_ ?_ ?_ ?_ ?_ ?_ <;> try grind
  · refine relies_other hi (fun hh hn => absurd (ha t ht hh) hn) ?_ ?_ ?_ ?_ ?_ <;> try grind
    intro np hnp hused
    have := (relies_creating (hi.relies t) hnp).2
    grind
  · by_cases hqi : q = i
    · subst hqi
      have hri : r = initproc := by grind
      -- the child was `u`'s own, since only `initproc` has other processes' children
      have hcr : F.g.creator q = F.g.uid u := by
        rcases hi.creator q u hc with h | ⟨h, _⟩
        · exact h
        · exact absurd h hne
      exact .inr (.inr ⟨hri, _, hex, hcr.symm⟩)
    · exact .inl (by grind)

theorem inv_zombie {me : ℕ} {status : ℤ} {p : Proc ℕ} (hu : F.cls u = .live)
    (hk : F.pt u = .exitZombie me status) (ha : F.Alone u) (hp : p.parent = F.parent u)
    (hs : p.state = .ZOMBIE) (hpid : p.pid = F.pid u) (hx : p.xstate = status) :
    ((F.put u p).goto u .zombieExit).Inv N := by
  have hcls : p.state.cls = .zombie := by rw [hs]; rfl
  have hr := hi.relies u
  rw [hk] at hr
  obtain ⟨_, ⟨hne, hex⟩, hpassed⟩ := hr
  refine inv_put hi rfl (fun _ => ?_) (fun t ht => ?_) ?_ ?_ ?_ ?_ ?_ ?_ ?_ ?_ ?_ ?_ ?_ ?_ <;> try grind
  refine relies_other hi (fun hh hn => absurd (ha t ht hh) hn) ?_ ?_ ?_ ?_ ?_ <;> grind

theorem inv_reap {addr : Bool} {i : ℕ} {p : Proc ℕ} {r : Reaped} (hu : F.cls u = .live)
    (hk : F.pt u = .waitCopyout addr i) (ha : F.Alone u) (hp : p.parent = none) (hs : p.state = .UNUSED)
    (hr : r = ⟨F.g.uid i, F.pid i, if addr then some (F.xstate i) else none⟩) :
    ((F.put i p).goto u (.waitFreed i r)).Inv N := by
  have hcls : p.state.cls = .unused := by rw [hs]; rfl
  have hrel := hi.relies u
  rw [hk] at hrel
  obtain ⟨hc, hz⟩ := hrel
  have hne : i ≠ initproc := by grind [hi.init_live]
  have hiu : i ≠ u := by grind
  refine inv_put hi rfl ?_ (fun t ht => ?_) ?_ ?_ ?_ ?_ ?_ ?_ ?_ ?_ ?_ ?_ ?_ ?_ <;> try grind
  · subst hr
    refine ⟨⟨_, (hi.zombie i hz).2, rfl, rfl, ?_⟩, ?_, ?_⟩
    · grind
    · intro q hq he
      have := hi.uid_inj q i
      grind
    · intro r' hr' he
      have := (hi.returned r' hr').2 i
      grind
  · refine relies_other hi (fun hh hn => absurd (ha t ht hh) hn) ?_ ?_ ?_ ?_ ?_ <;> grind

theorem inv_return {r : Option Reaped} (hu : F.cls u = .live)
    (hk : F.pt u = .waitReturn r) (ha : F.Alone u) :
    ((F.setG (F.g.waited r)).goto u .user).Inv N := by
  have hrel := hi.relies u
  rw [hk] at hrel
  refine ⟨hi.outside, hi.unused, hi.parent_live, hi.has_parent, hi.init_live, ?_, hi.creator,
    hi.uid_lt, hi.exits_lt, hi.uid_inj, ?_, hi.exits_nodup, ?_, ?_, ?_, ?_, ?_, ?_⟩
  · grind [hi.init_stays]
  · intro q hq
    exact hi.alive q (by grind)
  · grind [hi.zombie]
  · intro r' hr'
    rcases List.mem_append.mp hr' with h | h
    · exact hi.returned r' h
    · rw [Option.mem_toList] at h
      subst h
      exact ⟨hrel.1, hrel.2.1⟩
  · change ((F.g.returns ++ r.toList).map Reaped.uid).Nodup
    cases r with
    | none => simpa using hi.returns_nodup
    | some r =>
      have hmem : r.uid ∉ F.g.returns.map Reaped.uid := by
        intro h
        obtain ⟨r', hr', he⟩ := List.mem_map.mp h
        exact hrel.2.2 r' hr' he
      rw [List.map_append]
      exact hi.returns_nodup.append (List.nodup_singleton _)
        (List.disjoint_singleton.mpr hmem)
  · grind [hi.active]
  · grind [hi.creating]
  · intro t
    by_cases ht : t = u
    · subst ht
      rw [goto_pt, if_pos rfl]
      trivial
    · refine relies_other hi (fun hh hn => absurd (ha t ht hh) hn) ?_ ?_ ?_ ?_ ?_ <;> grind

end

end Family

end Xv6
