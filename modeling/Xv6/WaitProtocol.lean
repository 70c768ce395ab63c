import Xv6.ProcMonitor
import Xv6.WaitFamily

/-! The exit/wait protocol over every interleaving of `kfork`, `kexit`, `reparent`, `kwait` and
`kkill`: the code changes the family only in the ways of `Xv6.WaitFamily`, and a process that sleeps
in `kwait` has no child past its last `wakeup(p->parent)`. -/
namespace Xv6

def family (s : WaitKern) : Family where
  parent := fun q => (s.proc q).parent
  cls := fun q => (s.proc q).state.cls
  pid := fun q => (s.proc q).pid
  xstate := fun q => (s.proc q).xstate
  pt := fun q => (s.pc q).point
  g := s.g

theorem family_setPc (s : WaitKern) (t : ℕ) (p : Pc ℕ WaitPt) :
    family (s.setPc t p) = (family s).goto t p.point := by
  have h : (fun q => (update s.pc t p q).point) =
      update (fun q => (s.pc q).point) t p.point :=
    Function.comp_update Pc.point s.pc t p
  simp [family, Family.goto, h]

theorem family_setProc (s : WaitKern) (q : ℕ) (p : Proc ℕ) :
    family (s.setProc q p) = (family s).put q p := by
  have h {β : Type} (f : Proc ℕ → β) : (fun r => f (update s.proc q p r)) =
      update (fun r => f (s.proc r)) q (f p) := Function.comp_update f s.proc q p
  simp [family, Family.put, h (·.parent), h (·.state.cls), h (·.pid), h (·.xstate)]

theorem family_setPlock (s : WaitKern) (q : ℕ) (o : Option ℕ) :
    family (s.setPlock q o) = family s := rfl

theorem family_setLk (s : WaitKern) (o : Option ℕ) : family (s.setLk o) = family s := rfl

theorem family_setG (s : WaitKern) (g : WaitG) : family (s.setG g) = (family s).setG g := rfl

theorem cls_of_live {a b : ProcState} (h : a = b ∨ (b.Live ∧ a.Live)) : a.cls = b.cls := by
  rcases h with rfl | ⟨hb, ha⟩
  · rfl
  · rcases hb with rfl | rfl | rfl <;> rcases ha with rfl | rfl | rfl <;> rfl

theorem family_quiet {s s' : WaitKern} (h : Quiet s s') : family s' = family s := by
  have hcls (q : ℕ) := cls_of_live (h.state q)
  simp [family, h.parent, h.pid, h.xstate, h.point, h.g, hcls]

/-- Past the last `wakeup(p->parent)`. -/
@[grind] def WaitPt.leaving : WaitPt → Prop
  | .exitLock _ | .exitZombie _ _ | .zombieExit => True
  | _ => False

def WaitPt.holdsP : WaitPt → ℕ → Prop
  | .forkAlloc np, q | .forkCopy np, q | .forkRelease np _, q => q = np
  | .exitZombie me _, q => q = me
  | .waitLook _ i, q | .waitCopyout _ i, q | .waitFail i, q | .waitFreed i _, q => q = i
  | _, _ => False

/-- From `k` to `k'`, nothing starts that others are to know of. -/
def WaitPt.Calms (k k' : WaitPt) : Prop :=
  (k'.leaving → k.leaving) ∧ k' ≠ .zombieExit ∧ (k'.exiting ↔ k.exiting) ∧
    (k'.creating = none ∨ k'.creating = k.creating)

/-- Process `c` has no child that has passed its last `wakeup(p->parent)`. -/
def Family.Calm (F : Family) (c : ℕ) : Prop := ∀ q, F.parent q = some c → ¬ (F.pt q).leaving

/-- `c` stays calm as long as it gets no new child and nobody starts to leave. -/
theorem Family.calm_of {F F' : Family} {c : ℕ} (h : F.Calm c)
    (hp : ∀ q, F'.parent q = some c → F.parent q = some c)
    (hl : ∀ q, (F'.pt q).leaving → (F.pt q).leaving) : F'.Calm c :=
  fun q hq hq' => h q (hp q hq) (hl q hq')

def waitMonitor : Monitor ℕ WaitPt WaitG where
  holds := WaitPt.holds
  holdsP := WaitPt.holdsP
  resumes := WaitPt.resumes
  owes := fun _ _ => False
  calm := fun s => (family s).Calm

structure WaitInv (N : ℕ) (s : WaitKern) : Prop where
  monitor : waitMonitor.Inv N s
  family : (family s).Inv N

theorem wait_calmQuiet : waitMonitor.CalmQuiet := by
  intro s s' c hq hc
  change (family s').Calm c
  rw [family_quiet hq]
  exact hc

theorem alone_of_holds {N : ℕ} {s : WaitKern} {t : ℕ} {k : WaitPt} (hi : WaitInv N s)
    (hk : s.pc t = .run k) (hh : k.holds) : (family s).Alone t := by
  intro u hu hhu
  by_contra hr
  have ht : s.lk = some t := (hi.monitor.lk t).mpr (by rw [hk]; exact hh)
  have hlk : s.lk = some u := Monitor.holdsLk_of_point hi.monitor hhu hr
  rw [ht, Option.some.injEq] at hlk
  exact hu hlk.symm

theorem running_live {N : ℕ} {s : WaitKern} {t : ℕ} {k : WaitPt} (hi : WaitInv N s)
    (hk : s.pc t = .run k) : (s.proc t).state = .RUNNING ∧ (family s).cls t = .live := by
  have h := hi.monitor.state t
  rw [hk] at h
  refine ⟨h, ?_⟩
  change (s.proc t).state.cls = .live
  rw [show (s.proc t).state = .RUNNING from h]
  rfl

theorem family_pt {s : WaitKern} {t : ℕ} {k : WaitPt} (hk : s.pc t = .run k) :
    (family s).pt t = k := by
  change (s.pc t).point = k
  rw [hk]
  rfl

theorem relies_at {N : ℕ} {s : WaitKern} {t : ℕ} {k : WaitPt} (hi : WaitInv N s) (hk : s.pc t = .run k) :
    (family s).Relies t k :=
  family_pt hk ▸ hi.family.relies t

section Rules

variable {N : ℕ} {s s' : WaitKern} {t : ℕ} {k : WaitPt} {p : Pc ℕ WaitPt} (hi : WaitInv N s)
  (hk : s.pc t = .run k)
include hi hk

theorem wait_inv_of (ht : t < N) (hm : waitMonitor.Moves s s' t p) (hF : (family s').Inv N)
    (hcalm : ∀ c, (family s).Calm c → (family s').Calm c ∨ ∀ q, waitMonitor.owesPc p c q)
    (hlk : Monitor.LkStep s.lk s'.lk t k.holds (waitMonitor.holdsLk p))
    (howes : ∀ c, (∀ q, waitMonitor.owesPc p c q) → k.holds ∧ waitMonitor.holdsLk p)
    (hb : ∀ c, p.bound = some c → k.holds ∧ waitMonitor.holdsLk p ∧ (family s').Calm c) :
    WaitInv N s' := by
  refine ⟨?_, hF⟩
  by_cases hh : k.holds ∧ waitMonitor.holdsLk p
  · obtain ⟨hh, hh'⟩ := hh
    have hlk' : s'.lk = s.lk := by
      have hst : s.lk = some t := (hi.monitor.lk t).mpr (by rw [hk]; exact hh)
      cases hlk with
      | same h _ => exact h
      | acquire h _ _ =>
        rw [h] at hst
        cases hst
      | release _ _ h => exact absurd hh' h
    refine Monitor.inv_locked_move hi.monitor hk hm hh ht ?_ hlk' hh' (fun c hc => (hb c hc).2.2)
    intro q c _ hc
    rcases hcalm c (hc.resolve_right id) with h | h
    · exact .inl h
    · exact .inr (h q)
  · have hcalm' (c : ℕ) (hc : (family s).Calm c) : (family s').Calm c :=
      (hcalm c hc).resolve_right (fun h => hh (howes c h))
    have hb' : p.bound = none := by
      cases hp : p.bound with
      | none => rfl
      | some c => exact absurd ⟨(hb c hp).1, (hb c hp).2.1⟩ hh
    cases hlk with
    | same h he =>
      have hn : ¬ k.holds := fun hkh => hh ⟨hkh, he.mpr hkh⟩
      exact Monitor.inv_free_move hi.monitor hk hm hcalm' hn h (fun hp => hn (he.mp hp)) hb'
    | acquire h h' hp => exact Monitor.inv_acquire hi.monitor hm hcalm' h h' hp hb'
    | release h hh' hp => exact Monitor.inv_release hi.monitor hk hm hcalm' hh' (fun _ => id) h hp hb'

theorem wait_silent {k' : WaitPt} (ht : t < N) (hproc : s'.proc = s.proc) (hg : s'.g = s.g)
    (hpc : s'.pc = update s.pc t (.run k')) (hq : k.Calms k')
    (hpl : Monitor.PlockStep s.plock s'.plock t k.holdsP k'.holdsP)
    (hlk : Monitor.LkStep s.lk s'.lk t k.holds k'.holds) (hrel : ((family s).goto t k').Relies t k') :
    WaitInv N s' := by
  obtain ⟨hlv, hz, hex, hcr⟩ := hq
  obtain ⟨hrun, hlive⟩ := running_live hi hk
  have hpt := family_pt hk
  have hF : family s' = (family s).goto t k' := calc
    family s' = family (s.setPc t (.run k')) := by simp [family, hproc, hg, hpc]
    _ = (family s).goto t k' := family_setPc s t (.run k')
  have hrun' : (s'.proc t).state = .RUNNING := by rw [hproc, hrun]
  have hm : waitMonitor.Moves s s' t (.run k') :=
    Monitor.moves_of hi.monitor hk hpc hpl trivial hrun'
      (fun q _ => .inl ⟨by rw [hproc], by rw [hproc]⟩) (by simp [hrun'])
  refine wait_inv_of hi hk ht hm ?_ ?_ hlk (fun _ h => (h 0).elim) (by simp [Pc.bound])
  · rw [hF]
    exact Family.inv_move hi.family hlive hz (by rwa [hpt]) (by rwa [hpt]) hrel
  · intro c hc
    left
    rw [hF]
    intro q hq hl
    have := hc q hq
    grind

theorem wait_goto {k' : WaitPt} (ht : t < N) (hq : k.Calms k') (hpl : ∀ q, k'.holdsP q ↔ k.holdsP q)
    (hlk : k'.holds ↔ k.holds) (hrel : ((family s).goto t k').Relies t k') :
    WaitInv N (s.setPc t (.run k')) :=
  wait_silent hi hk ht rfl rfl rfl hq (.same rfl hpl) (.same rfl hlk) hrel

omit hi hk in
theorem not_live_of_cls {q : ℕ} (h : (family s).cls q ≠ .live) : ¬ (s.proc q).state.Live := by
  intro hl
  apply h
  rcases hl with h | h | h <;> simp [family, h, ProcState.cls]

/-- A step that moves process `t` and replaces the entry of another process that is not
running by one that is not put to sleep. -/
theorem wait_put {k' : WaitPt} {x : ℕ} {pr : Proc ℕ} (ht : t < N)
    (hproc : s'.proc = update s.proc x pr)
    (hpr : (pr.state = (s.proc x).state ∧ pr.chan = (s.proc x).chan) ∨
      ((family s).cls x ≠ .live ∧ pr.state ≠ .SLEEPING ∧ pr.state ≠ .RUNNING))
    (hpc : s'.pc = update s.pc t p) (hp : p = .run k' ∨ k.holds ∧ ∃ c, p = .wakeup c 0 k')
    (hpl : Monitor.PlockStep s.plock s'.plock t k.holdsP k'.holdsP)
    (hlk : s'.lk = s.lk) (hh : k'.holds ↔ k.holds) (hF : (family s').Inv N)
    (hcalm : ∀ c, (family s).Calm c →
      (family s').Calm c ∨ p = .wakeup c 0 k') : WaitInv N s' := by
  obtain ⟨hrun, hlive⟩ := running_live hi hk
  have hrun' : (s'.proc t).state = .RUNNING := by
    rw [hproc]
    by_cases hx : t = x
    · subst hx
      rw [update_self]
      rcases hpr with ⟨h, _⟩ | ⟨h, _⟩
      · rw [h, hrun]
      · exact absurd hlive h
    · rw [update_of_ne hx, hrun]
  have hholds : waitMonitor.holdsLk p ↔ k'.holds := by
    rcases hp with rfl | ⟨_, c, rfl⟩ <;> exact .rfl
  have hm : waitMonitor.Moves s s' t p := by
    refine Monitor.moves_of hi.monitor hk hpc ?_ ?_ ?_ ?_ (by simp [hrun'])
    · rcases hp with rfl | ⟨_, c, rfl⟩ <;> exact hpl
    · rcases hp with rfl | ⟨_, c, rfl⟩ <;> trivial
    · rcases hp with rfl | ⟨_, c, rfl⟩ <;> exact hrun'
    · intro q hq
      rw [hproc]
      by_cases hqx : q = x
      · subst hqx
        rw [update_self]
        rcases hpr with h | ⟨hcls, hs, hr⟩
        · exact .inl h
        · exact .inr ⟨hs, Monitor.stateOk_change (hi.monitor.state q)
            (not_live_of_cls hcls) ⟨hs, hr⟩⟩
      · rw [update_of_ne hqx]
        exact .inl ⟨rfl, rfl⟩
  refine wait_inv_of hi hk ht hm hF ?_ (.same hlk (hholds.trans hh)) ?_ ?_
  · intro c hc
    rcases hcalm c hc with h | rfl
    · exact .inl h
    · exact .inr (fun q => .inl ⟨rfl, zero_le⟩)
  · intro c ho
    rcases hp with rfl | ⟨hh', c', rfl⟩
    · exact (ho 0).elim
    · exact ⟨hh', hh.mpr hh'⟩
  · intro c hc
    rcases hp with rfl | ⟨_, c', rfl⟩ <;> cases hc

end Rules

section Fork

variable {N : ℕ} {s : WaitKern} {t np : ℕ} {pid : ℤ} (hi : WaitInv N s) (ht : t < N)
include hi

theorem creating_slot {k : WaitPt} (hk : s.pc t = .run k) (hc : k.creating = some np) :
    (family s).cls np = .used ∧ np ≠ t := by
  have hlive := (running_live hi hk).2
  have hrel := relies_at hi hk
  have hused := (Family.relies_creating hrel hc).1
  refine ⟨hused, ?_⟩
  rintro rfl
  rw [hused] at hlive
  cases hlive

theorem child_stays_user {k k' : WaitPt} (hk : s.pc t = .run k) (hc : k.creating = some np)
    (hu : (family s).pt np = .user) : ((family s).goto t k').pt np = .user := by
  rw [Family.goto_pt, if_neg (creating_slot hi hk hc).2]
  exact hu

include ht

theorem fork_alloc_inv (hk : s.pc t = .run (.forkScan np)) (hN : np < N) (hpl : s.plock np = none)
    (hst : (s.proc np).state = .UNUSED) :
    WaitInv N ((allocproc s t np).setPc t (.run (.forkAlloc np))) := by
  have hlive := (running_live hi hk).2
  have hpt := family_pt hk
  have hf : (family s).cls np = .unused := by simp [family, hst, ProcState.cls]
  have hne : np ≠ t := by
    rintro rfl
    rw [hf] at hlive
    cases hlive
  refine wait_put hi hk ht rfl (.inr ⟨by simp [hf], by simp, by simp⟩) rfl (.inl rfl)
    (.acquire np hpl rfl (by simp [WaitPt.holdsP])) rfl .rfl ?_ ?_
  all_goals simp only [allocproc, family_setPc, family_setG, family_setPlock, family_setProc, Pc.point]
  · exact Family.inv_alloc hi.family hN hlive hf rfl rfl (by rw [hpt]; rfl) (by rw [hpt]; exact id)
  · intro c hc
    have hpar : (s.proc np).parent = none := hi.family.unused np hf
    exact .inl (Family.calm_of hc (by grind) (by grind))

theorem fork_failed_inv {k : WaitPt} (hk : s.pc t = .run k)
    (hkind : k = .forkAlloc np ∨ k = .forkCopy np) : WaitInv N (forkFailed s t np) := by
  have hlive := (running_live hi hk).2
  have hpt := family_pt hk
  have hcr : k.creating = some np := by rcases hkind with rfl | rfl <;> rfl
  have hrel := relies_at hi hk
  have hpar : (family s).parent np = none := by
    rcases hkind with rfl | rfl
    · exact hrel.2.1
    · exact hrel.1.2.1
  obtain ⟨hused, hne⟩ := creating_slot hi hk hcr
  refine wait_put hi hk ht rfl (.inr ⟨by simp [hused], by simp [Proc.free], by simp [Proc.free]⟩)
    rfl (.inl rfl) (.release np rfl ?_ ?_) rfl ?_ ?_ ?_
  all_goals try simp only [forkFailed, family_setPc, family_setPlock, family_setProc, Pc.point]
  · rcases hkind with rfl | rfl <;> rfl
  · rcases hkind with rfl | rfl <;> simp [WaitPt.holdsP]
  · rcases hkind with rfl | rfl <;> exact .rfl
  · exact Family.inv_free hi.family hlive (by rw [hpt]; exact hcr) hpar rfl rfl
  · intro c hc
    exact .inl (Family.calm_of hc (by grind [Proc.free]) (by grind))

omit ht in
/-- The new process has not run yet: it is switched out, and no scheduler holds its lock. -/
theorem fork_context_inv (hk : s.pc t = .run (.forkAlloc np)) :
    WaitInv N ((s.setPc np (.switched (.plain .user))).setPc t (.run (.forkCopy np))) := by
  have hlive := (running_live hi hk).2
  have hpt := family_pt hk
  obtain ⟨hused, hne⟩ := creating_slot hi hk rfl
  have hlock : s.plock np = some t := (hi.monitor.plock np t).mpr (by rw [hk]; rfl)
  obtain ⟨k, hold⟩ : ∃ k, s.pc np = .switched (.plain k) := by
    have hst := hi.monitor.state np
    have hown := (hi.monitor.plock np np).mpr
    rw [hlock] at hown
    have hnl := not_live_of_cls (s := s) (q := np) (by simp [hused])
    cases hp : s.pc np with
    | schedOut r =>
      rw [hp] at hown
      exact absurd (Option.some.inj (hown rfl)) (Ne.symm hne)
    | switched r =>
      cases r with
      | plain k => exact ⟨k, rfl⟩
      | afterSleep k =>
        rw [hp] at hst
        rcases hst with h | h <;> exact absurd (by simp [h, ProcState.Live]) hnl
    | _ =>
      rw [hp] at hst
      exact absurd (.inr (.inr hst)) hnl
  refine ⟨?_, by simp only [family_setPc]; exact Family.inv_context hi.family hlive hpt⟩
  have hi' : waitMonitor.Inv N (s.setPc np (.switched (.plain .user))) := by
    refine Monitor.inv_context hi.monitor hold ⟨id, fun _ => id⟩ ?_
    intro c hc
    change (family (s.setPc np _)).Calm c
    rw [family_setPc]
    exact Family.calm_of hc (by grind) (by grind [Pc.point, Resume.point])
  have hk' : (s.setPc np (.switched (.plain .user))).pc t = .run (.forkAlloc np) := by
    rw [Kern.setPc_pc, update_of_ne (Ne.symm hne), hk]
  refine Monitor.inv_free_move hi' hk' (.of_eq hi' hk' rfl rfl rfl ⟨trivial, rfl⟩) ?_ id rfl id rfl
  intro c hc
  change (family _).Calm c
  rw [family_setPc]
  exact Family.calm_of hc (by grind) (by grind [Pc.point])

theorem fork_link_inv (hk : s.pc t = .run (.forkParent np pid)) :
    WaitInv N ((s.setProc np { s.proc np with parent := some t }).setPc t
      (.run (.forkWaitRelease np pid))) := by
  have hlive := (running_live hi hk).2
  have hpt := family_pt hk
  have hrel := relies_at hi hk
  have huser : (family s).pt np = .user := hrel.2
  obtain ⟨hused, hne⟩ := creating_slot hi hk rfl
  refine wait_put hi hk ht rfl (.inl ⟨rfl, rfl⟩) rfl (.inl rfl)
    (.same rfl fun _ => .rfl) rfl .rfl ?_ ?_
  all_goals simp only [family_setPc, family_setProc, Pc.point]
  · exact Family.inv_link hi.family hlive hpt (alone_of_holds hi hk trivial) rfl rfl
  · intro c hc
    left
    intro q hq hl
    have := hc q
    grind

theorem fork_ready_inv (hk : s.pc t = .run (.forkReady np pid)) :
    WaitInv N ((s.setProc np { s.proc np with state := .RUNNABLE }).setPc t (.run .user)) := by
  have hlive := (running_live hi hk).2
  have hpt := family_pt hk
  obtain ⟨hused, hne⟩ := creating_slot hi hk rfl
  refine wait_put hi hk ht rfl (.inr ⟨by simp [hused], by simp, by simp⟩) rfl (.inl rfl)
    (.same rfl fun _ => .rfl) rfl .rfl ?_ ?_
  all_goals simp only [family_setPc, family_setProc, Pc.point]
  · exact Family.inv_ready hi.family hlive hpt rfl rfl
  · intro c hc
    have hpar : (s.proc np).parent = (family s).parent np := rfl
    exact .inl (Family.calm_of hc (by grind) (by grind))

end Fork

section Exit

variable {N : ℕ} {s : WaitKern} {t i : ℕ} {status : ℤ} (hi : WaitInv N s) (ht : t < N)
include hi ht

theorem exit_call_inv (hk : s.pc t = .run .user) (hne : t ≠ initproc) :
    WaitInv N ((s.setG (s.g.exit ⟨s.g.uid t, (s.proc t).pid, status⟩)).setPc t
      (.run (.exitWaitLock status))) := by
  have hlive := (running_live hi hk).2
  refine wait_inv_of hi hk ht (.of_eq hi.monitor hk rfl rfl rfl ⟨trivial, rfl⟩) ?_ ?_
    (.same rfl .rfl) (fun _ h => (h 0).elim) (by simp [Pc.bound])
  all_goals simp only [family_setPc, family_setG, Pc.point]
  · exact Family.inv_exit hi.family hlive (family_pt hk) hne
  · intro c hc
    exact .inl (Family.calm_of hc (by grind) (by grind))

theorem reparent_child_inv (hk : s.pc t = .run (.exitReparent status i))
    (hc : (s.proc i).parent = some t) :
    WaitInv N ((s.setProc i { s.proc i with parent := some initproc }).setPc t
      (.wakeup initproc 0 (.exitReparent status (i + 1)))) := by
  have hlive := (running_live hi hk).2
  refine wait_put hi hk ht rfl (.inl ⟨rfl, rfl⟩) rfl (.inr ⟨trivial, _, rfl⟩)
    (.same rfl fun _ => .rfl) rfl .rfl ?_ ?_
  all_goals simp only [family_setPc, family_setProc, Pc.point]
  · exact Family.inv_reparent hi.family hlive (family_pt hk) (alone_of_holds hi hk trivial) hc
      rfl rfl rfl rfl
  · intro c hcalm
    -- only `initproc` gets a child, and it is woken next
    by_cases hci : c = initproc
    · exact .inr (by rw [hci])
    · exact .inl (Family.calm_of hcalm (by grind) (by grind))

theorem reparent_done_inv {q : ℕ} (hk : s.pc t = .run (.exitReparent status i)) (hN : N ≤ i)
    (hq : (s.proc t).parent = some q) :
    WaitInv N (s.setPc t (.wakeup q 0 (.exitLock status))) := by
  have hlive := (running_live hi hk).2
  have hpt := family_pt hk
  refine wait_inv_of hi hk ht (.of_eq hi.monitor hk rfl rfl rfl ⟨trivial, rfl⟩) ?_ ?_
    (.same rfl .rfl) (fun _ _ => ⟨trivial, trivial⟩) (by simp [Pc.bound])
  all_goals simp only [family_setPc, Pc.point]
  · have hrel := relies_at hi hk
    refine Family.inv_move hi.family hlive (by simp) (by rw [hpt]; exact .rfl) (.inl rfl)
      ⟨hrel.1, fun x => ?_⟩
    by_cases hx : x < i
    · exact hrel.2 x hx
    · have hnone := hi.family.unused x (hi.family.outside x (by omega))
      rw [Family.goto_parent, hnone]
      simp
  · intro c hc
    by_cases hcq : c = q
    · exact .inr (fun x => .inl ⟨hcq.symm, zero_le⟩)
    · left
      intro x hx hl
      have := hc x hx
      have : (family s).parent t = some q := hq
      grind

theorem zombie_inv {me : ℕ} (hk : s.pc t = .run (.exitZombie me status)) :
    WaitInv N (((s.setProc t { s.proc t with xstate := status, state := .ZOMBIE }).setLk
      none).setPc t (.schedOut (.plain .zombieExit))) := by
  have hlive := (running_live hi hk).2
  have hpt := family_pt hk
  have hrel := relies_at hi hk
  refine wait_inv_of hi hk ht
    (Monitor.moves_of hi.monitor hk rfl (.same rfl fun q => ?_) ⟨id, fun _ => id⟩ (by simp [Monitor.StateOk])
      (fun q hq => by simp [hq]) (by simp)) ?_ ?_ (.release rfl trivial id) (fun _ h => (h 0).elim)
    (by simp [Pc.bound])
  · change q = t ↔ q = me
    rw [hrel.1]
  all_goals simp only [family_setPc, family_setLk, family_setProc, Pc.point, Resume.point]
  · exact Family.inv_zombie hi.family hlive hpt (alone_of_holds hi hk trivial) rfl rfl rfl rfl
  · intro c hc
    have hpar : (s.proc t).parent = (family s).parent t := rfl
    refine .inl (Family.calm_of hc (by grind) ?_)
    intro q
    rw [Family.goto_pt]
    split
    next hq =>
      intro _
      rw [hq, hpt]
      trivial
    next => exact id

end Exit

section Kwait

variable {N : ℕ} {s : WaitKern} {t i : ℕ} {addr : Bool} (hi : WaitInv N s) (ht : t < N)
include hi ht

theorem reap_inv (hk : s.pc t = .run (.waitCopyout addr i)) {r : Reaped}
    (hr : r = ⟨s.g.uid i, (s.proc i).pid, if addr then some (s.proc i).xstate else none⟩) :
    WaitInv N ((s.setProc i (s.proc i).free).setPc t (.run (.waitFreed i r))) := by
  have hlive := (running_live hi hk).2
  have hpt := family_pt hk
  have hrel := relies_at hi hk
  refine wait_put hi hk ht rfl (.inr ⟨by simp [hrel.2], by simp [Proc.free], by simp [Proc.free]⟩)
    rfl (.inl rfl) (.same rfl fun _ => .rfl) rfl .rfl ?_ ?_
  all_goals simp only [family_setPc, family_setProc, Pc.point]
  · exact Family.inv_reap hi.family hlive hpt (alone_of_holds hi hk trivial) rfl rfl hr
  · intro c hc
    exact .inl (Family.calm_of hc (by grind [Proc.free]) (by grind))

theorem return_inv {r : Option Reaped} (hk : s.pc t = .run (.waitReturn r)) :
    WaitInv N (((s.setLk none).setG (s.g.waited r)).setPc t (.run .user)) := by
  have hlive := (running_live hi hk).2
  refine wait_inv_of hi hk ht (.of_eq hi.monitor hk rfl rfl rfl ⟨trivial, rfl⟩) ?_ ?_
    (.release rfl trivial id) (fun _ h => (h 0).elim) (by simp [Pc.bound])
  all_goals simp only [family_setPc, family_setG, family_setLk, Pc.point]
  · exact Family.inv_return hi.family hlive (family_pt hk) (alone_of_holds hi hk trivial)
  · intro c hc
    exact .inl (Family.calm_of hc (by grind) (by grind))

/-- `kwait` goes to sleep: it has seen every slot, and no child can have left meanwhile. -/
theorem wait_sleep_inv (hk : s.pc t = .run (.waitNone addr true)) :
    WaitInv N (s.setPc t (.sleepLock t (.waitScan addr false 0))) := by
  have hlive := (running_live hi hk).2
  have hpt := family_pt hk
  have hrel := relies_at hi hk
  have halone := alone_of_holds hi hk trivial
  have hF : family (s.setPc t (.sleepLock t (.waitScan addr false 0))) =
      (family s).goto t (.waitScan addr false 0) := family_setPc s t _
  have hcalm (c : ℕ) (hc : (family s).Calm c) :
      (family (s.setPc t (.sleepLock t (.waitScan addr false 0)))).Calm c := by
    rw [hF]
    exact Family.calm_of hc (by grind) (by grind)
  refine wait_inv_of hi hk ht (.of_eq hi.monitor hk rfl rfl rfl
    ⟨⟨⟨rfl, rfl⟩, trivial, fun _ => id⟩, rfl⟩) ?_ (fun c hc => .inl (hcalm c hc)) (.same rfl .rfl)
    (fun _ h => (h 0).elim) ?_
  · rw [hF]
    exact Family.inv_move hi.family hlive (by simp) (by rw [hpt]; exact .rfl) (.inl rfl)
      (fun q hq => absurd hq (Nat.not_lt_zero q))
  · intro c hc
    obtain rfl : t = c := by simpa [Pc.bound] using hc
    refine ⟨trivial, trivial, hcalm t ?_⟩
    intro q hq hl
    have hz : (family s).pt q ≠ .zombieExit := hrel q hq
    by_cases hqt : q = t
    · rw [hqt, hpt] at hl
      exact hl
    · have hres := halone q hqt
      cases hpq : (family s).pt q <;> rw [hpq] at hl hres hz
      case exitLock => exact (hres trivial).elim
      case exitZombie => exact (hres trivial).elim
      case zombieExit => exact hz rfl
      all_goals exact hl

end Kwait

section Steps

variable {N : ℕ} {s s' : WaitKern} {t : ℕ} {k : WaitPt} {a : WaitAct} (hi : WaitInv N s)
  (ht : t < N) (hk : s.pc t = .run k)
include hi ht hk

theorem startStep_inv (h : startStep s t k a = some s') : WaitInv N s' := by
  unfold startStep at h
  split at h
  all_goals try split_ifs at h with hne
  all_goals cases h
  all_goals try exact wait_goto hi hk ht ⟨id, by simp, .rfl, .inl rfl⟩ (fun _ => .rfl) .rfl trivial
  exact exit_call_inv hi ht hk hne

theorem forkStep_inv (h : forkStep N s t k a = some s') : WaitInv N s' := by
  have hpt := family_pt hk
  have hrel := relies_at hi hk
  unfold forkStep at h
  split at h
  all_goals try split_ifs at h with hN hpl hst
  all_goals cases h
  all_goals try exact wait_goto hi hk ht ⟨id, by simp, .rfl, .inl rfl⟩ (fun _ => .rfl) .rfl trivial
  · exact fork_alloc_inv hi ht hk hN hpl hst
  · exact fork_context_inv hi hk
  · exact fork_failed_inv hi ht hk (.inl rfl)
  · exact wait_goto hi hk ht ⟨id, by simp, .rfl, .inr rfl⟩ (fun _ => .rfl) .rfl ⟨hrel.1, child_stays_user hi hk rfl hrel.2⟩
  · exact fork_failed_inv hi ht hk (.inr rfl)
  · rename_i np pid
    exact wait_silent hi hk ht rfl rfl rfl ⟨id, by simp, .rfl, .inr rfl⟩
      (.release np rfl rfl (by simp [WaitPt.holdsP])) (.same rfl .rfl) ⟨hrel.1, child_stays_user hi hk rfl hrel.2⟩
  · exact wait_silent hi hk ht rfl rfl rfl ⟨id, by simp, .rfl, .inr rfl⟩ (.same rfl fun _ => .rfl)
      (.acquire hN rfl trivial) ⟨hrel.1, child_stays_user hi hk rfl hrel.2⟩
  · exact fork_link_inv hi ht hk
  · exact wait_silent hi hk ht rfl rfl rfl ⟨id, by simp, .rfl, .inr rfl⟩ (.same rfl fun _ => .rfl)
      (.release rfl trivial id) ⟨hrel.1, child_stays_user hi hk rfl hrel.2⟩
  · exact fork_ready_inv hi ht hk

theorem exitStep_inv (h : exitStep N s t k a = some s') : WaitInv N s' := by
  have hpt := family_pt hk
  have hrel := relies_at hi hk
  unfold exitStep at h
  split at h
  · simp only [ite_some_iff] at h
    obtain ⟨hlk, rfl⟩ := h
    exact wait_silent hi hk ht rfl rfl rfl ⟨id, by simp, .rfl, .inl rfl⟩ (.same rfl fun _ => .rfl)
      (.acquire hlk rfl trivial) ⟨hrel, fun q hq => absurd hq (Nat.not_lt_zero q)⟩
  · rename_i status i
    split_ifs at h with hN hc
    · cases h
      exact reparent_child_inv hi ht hk hc
    · cases h
      refine wait_goto hi hk ht ⟨id, by simp, .rfl, .inl rfl⟩ (fun _ => .rfl) .rfl ⟨hrel.1, fun q hq => ?_⟩
      rcases Nat.lt_succ_iff_lt_or_eq.mp hq with hq | rfl
      · exact hrel.2 q hq
      · exact hc
    · have hlive := (running_live hi hk).2
      have hpar := hi.family.has_parent t hrel.1.1 (.inl hlive)
      cases hq : (s.proc t).parent with
      | none => exact absurd hq hpar
      | some q =>
        simp only [hq, Option.some.injEq] at h
        subst h
        exact reparent_done_inv hi ht hk (Nat.le_of_not_lt hN) hq
  · simp only [ite_some_iff] at h
    obtain ⟨hpl, rfl⟩ := h
    exact wait_silent hi hk ht rfl rfl rfl ⟨id, by simp, .rfl, .inl rfl⟩
      (.acquire t hpl rfl (by simp [WaitPt.holdsP])) (.same rfl .rfl) ⟨rfl, hrel⟩
  · cases h
    exact zombie_inv hi ht hk
  · cases h

theorem kwaitStep_inv (h : kwaitStep N s t k a = some s') : WaitInv N s' := by
  have hpt := family_pt hk
  have hrel := relies_at hi hk
  unfold kwaitStep at h
  split at h
  · simp only [ite_some_iff] at h
    obtain ⟨hlk, rfl⟩ := h
    exact wait_silent hi hk ht rfl rfl rfl ⟨id, by simp, .rfl, .inl rfl⟩ (.same rfl fun _ => .rfl)
      (.acquire hlk rfl trivial) (fun q hq => absurd hq (Nat.not_lt_zero q))
  · rename_i addr havekids i
    have hscan (k' : WaitPt) (hz : k' ≠ .zombieExit) (q : ℕ) (hq : q < i)
        (hqt : (family s).parent q = some t) : ((family s).goto t k').pt q ≠ .zombieExit := by
      have := hrel q hq hqt
      grind
    split_ifs at h with hN hc hpl
    · cases h
      exact wait_silent hi hk ht rfl rfl rfl ⟨id, by simp, .rfl, .inl rfl⟩
        (.acquire i hpl rfl (by simp [WaitPt.holdsP])) (.same rfl .rfl) ⟨hc, hscan _ (by simp)⟩
    · cases h
      refine wait_goto hi hk ht ⟨id, by simp, .rfl, .inl rfl⟩ (fun _ => .rfl) .rfl (fun q hq hqt => ?_)
      rcases Nat.lt_succ_iff_lt_or_eq.mp hq with hq | rfl
      · exact hscan _ (by simp) q hq hqt
      · exact absurd hqt hc
    · cases h
      refine wait_goto hi hk ht ⟨id, by simp, .rfl, .inl rfl⟩ (fun _ => .rfl) .rfl (fun q hqt => ?_)
      by_cases hq : q < i
      · exact hscan _ (by simp) q hq hqt
      · have hnone := hi.family.unused q (hi.family.outside q (by omega))
        rw [Family.goto_parent, hnone] at hqt
        cases hqt
  · rename_i addr i
    split_ifs at h with hz
    · cases h
      refine wait_goto hi hk ht ⟨id, by simp, .rfl, .inl rfl⟩ (fun _ => .rfl) .rfl ⟨hrel.1, ?_⟩
      simp [family, Family.goto, hz, ProcState.cls]
    · cases h
      refine wait_silent hi hk ht rfl rfl rfl ⟨id, by simp, .rfl, .inl rfl⟩
        (.release i rfl rfl (by simp [WaitPt.holdsP])) (.same rfl .rfl) (fun q hq hqt => ?_)
      have hq' : (family s).pt q ≠ .zombieExit := by
        rcases Nat.lt_succ_iff_lt_or_eq.mp hq with hq | rfl
        · exact hrel.2 q hq hqt
        · -- a child that has left would be a `ZOMBIE`
          intro he
          have hq := hi.family.relies q
          rw [he] at hq
          have hcls := hq (by rw [hrel.1]; simp)
          apply hz
          revert hcls
          change (s.proc q).state.cls = .zombie → _
          cases (s.proc q).state <;> simp [ProcState.cls]
      grind
  · split_ifs at h
    cases h
    exact wait_goto hi hk ht ⟨id, by simp, .rfl, .inl rfl⟩ (fun _ => .rfl) .rfl trivial
  · cases h
    exact reap_inv hi ht hk rfl
  · rename_i i
    cases h
    exact wait_silent hi hk ht rfl rfl rfl ⟨id, by simp, .rfl, .inl rfl⟩
      (.release i rfl rfl (by simp [WaitPt.holdsP])) (.same rfl .rfl) trivial
  · rename_i i r
    cases h
    exact wait_silent hi hk ht rfl rfl rfl ⟨id, by simp, .rfl, .inl rfl⟩
      (.release i rfl rfl (by simp [WaitPt.holdsP])) (.same rfl .rfl) hrel
  · cases h
    exact return_inv hi ht hk
  · rename_i addr havekids
    split_ifs at h with hkids hpl hkilled
    · cases h
      exact wait_goto hi hk ht ⟨id, by simp, .rfl, .inl rfl⟩ (fun _ => .rfl) .rfl trivial
    · cases h
      subst hkids
      exact wait_sleep_inv hi ht hk
    · cases h
      exact wait_goto hi hk ht ⟨id, by simp, .rfl, .inl rfl⟩ (fun _ => .rfl) .rfl trivial
  · cases h

theorem waitStep_inv (h : waitStep N s t k a = some s') : WaitInv N s' := by
  simp only [waitStep, Option.orElse_eq_orElse, Option.orElse_eq_or, Option.or_eq_some_iff] at h
  rcases h with h | ⟨_, h | ⟨_, h | ⟨_, h⟩⟩⟩
  · exact startStep_inv hi ht hk h
  · exact forkStep_inv hi ht hk h
  · exact exitStep_inv hi ht hk h
  · exact kwaitStep_inv hi ht hk h

end Steps

theorem wait_step_inv {N : ℕ} (s : WaitKern) (e : Event WaitAct) (s' : WaitKern)
    (h : kernStep N (waitClient N) s e = some s') (hi : WaitInv N s) : WaitInv N s' := by
  rcases kernStep_or h with ⟨t, k, a, rfl, ht, hk, hs⟩ | hs
  · exact waitStep_inv hi ht hk hs
  · refine ⟨Monitor.sysStep_inv wait_calmQuiet (fun k hk => ?_) hi.monitor hs, ?_⟩
    · cases k <;> first | exact ⟨id, fun _ => id⟩ | cases hk
    · rw [family_quiet (Monitor.sysStep_quiet hi.monitor hs)]
      exact hi.family

theorem wait_inv_init {N : ℕ} (hN : 0 < N) : WaitInv N waitInit := by
  have hpt (q : ℕ) : (family waitInit).pt q = .user := by
    by_cases hq : q = initproc <;> simp [family, waitInit, hq, Pc.point, Resume.point]
  have hpar (q : ℕ) : (family waitInit).parent q = none := by
    by_cases hq : q = initproc <;> simp [family, waitInit, hq]
  have hcls (q : ℕ) : (family waitInit).cls q = if q = initproc then .live else .unused := by
    by_cases hq : q = initproc <;> simp [family, waitInit, hq, ProcState.cls]
  have hex : (family waitInit).g.exits = [] := rfl
  have hret : (family waitInit).g.returns = [] := rfl
  have hinit : initproc = 0 := rfl
  refine ⟨⟨?_, ?_, ?_, ?_, ?_⟩,
    ⟨?_, ?_, ?_, ?_, ?_, ?_, ?_, ?_, ?_, ?_, ?_, ?_, ?_, ?_, ?_, ?_, ?_, ?_⟩⟩
  · intro t
    by_cases ht : t = initproc <;>
      simp [waitInit, ht, Monitor.holdsLk, waitMonitor, WaitPt.holds]
  · intro q t
    by_cases ht : t = initproc <;>
      simp [waitInit, ht, Monitor.holdsPl, waitMonitor, WaitPt.holdsP]
  · intro t
    by_cases ht : t = initproc <;>
      simp [waitInit, ht, Monitor.ContOk, waitMonitor, WaitPt.holds, WaitPt.holdsP]
  · intro t
    by_cases ht : t = initproc <;> simp [waitInit, ht, Monitor.StateOk]
  · intro q c ha
    by_cases hq : q = initproc <;> simp [AsleepOn, waitInit, hq, Pc.bound] at ha
  · intro q hq
    rw [hcls, if_neg (by omega)]
  · exact fun q _ => hpar q
  · intro q r hq
    rw [hpar] at hq
    cases hq
  · intro q hq hc
    rw [hcls, if_neg hq] at hc
    simp at hc
  · rw [hcls, if_pos rfl]
  · rw [hpt]
    exact id
  · intro q r hq
    rw [hpar] at hq
    cases hq
  · exact fun q => Nat.one_pos
  · simp [hex]
  · grind
  · simp [hex]
  · simp [hex]
  · grind
  · simp [hret]
  · simp [hret]
  · intro t ht
    rw [hpt] at ht
    exact absurd trivial ht
  · intro t u q ht
    rw [hpt] at ht
    cases ht
  · intro t
    rw [hpt]
    trivial

/-- The entry of a `ZOMBIE` keeps its state, pid and status, unless the step is the
`freeproc` of a `kwait` that found it. -/
def ZombieStays (s s' : WaitKern) (t : ℕ) (k : WaitPt) (a : WaitAct) (q : ℕ) : Prop :=
  ((s'.proc q).state = .ZOMBIE ∧ (s'.proc q).pid = (s.proc q).pid ∧
    (s'.proc q).xstate = (s.proc q).xstate ∧ s'.g.uid q = s.g.uid q) ∨
  ∃ addr, k = .waitCopyout addr q ∧ a = .go ∧ (s.proc q).parent = some t ∧
    (s'.proc q).state = .UNUSED

section ZombieStays

variable {N : ℕ} {s s' : WaitKern} {t q : ℕ} {k : WaitPt} {a : WaitAct} (hi : WaitInv N s)
  (hk : s.pc t = .run k) (hz : (s.proc q).state = .ZOMBIE)
include hi hk hz

theorem forkStep_zombie (h : forkStep N s t k a = some s') : ZombieStays s s' t k a q := by
  have hcls : (family s).cls q = .zombie := by simp [family, hz, ProcState.cls]
  have hslot (np : ℕ) (hc : k.creating = some np) : q ≠ np := by
    rintro rfl
    rw [(creating_slot hi hk hc).1] at hcls
    cases hcls
  unfold forkStep at h
  split at h
  all_goals try split_ifs at h with hN hpl hst
  all_goals cases h
  all_goals try exact .inl ⟨hz, rfl, rfl, rfl⟩
  · rename_i i
    have hne : q ≠ i := by
      rintro rfl
      rw [hz] at hst
      cases hst
    exact .inl (by simp [allocproc, hne, hz, WaitG.born])
  · exact .inl (by simp [forkFailed, hslot _ rfl, hz])
  · exact .inl (by simp [forkFailed, hslot _ rfl, hz])
  · exact .inl (by simp [hslot _ rfl, hz])
  · exact .inl (by simp [hslot _ rfl, hz])

theorem exitStep_zombie (h : exitStep N s t k a = some s') : ZombieStays s s' t k a q := by
  have hne : q ≠ t := by
    rintro rfl
    rw [(running_live hi hk).1] at hz
    cases hz
  unfold exitStep at h
  split at h
  all_goals try split_ifs at h
  all_goals try cases h
  all_goals try exact .inl ⟨hz, rfl, rfl, rfl⟩
  · rename_i status i _ _
    left
    by_cases hq : q = i
    · subst hq
      simp [hz]
    · simp [hq, hz]
  · split at h <;> cases h <;> exact .inl ⟨hz, rfl, rfl, rfl⟩
  · exact .inl (by simp [hne, hz])

theorem kwaitStep_zombie (h : kwaitStep N s t k a = some s') : ZombieStays s s' t k a q := by
  have hrel := relies_at hi hk
  unfold kwaitStep at h
  split at h
  case h_5 addr i =>
    cases h
    by_cases hq : q = i
    · subst hq
      exact .inr ⟨addr, rfl, rfl, hrel.1, by simp [Proc.free]⟩
    · exact .inl (by simp [hq, hz])
  all_goals
    try split_ifs at h
    all_goals
      cases h
      try exact .inl ⟨hz, rfl, rfl, rfl⟩

omit hi hk in
theorem startStep_zombie (h : startStep s t k a = some s') : ZombieStays s s' t k a q := by
  unfold startStep at h
  split at h
  all_goals try split_ifs at h
  all_goals cases h
  all_goals exact .inl ⟨hz, rfl, rfl, rfl⟩

theorem waitStep_zombie (h : waitStep N s t k a = some s') : ZombieStays s s' t k a q := by
  simp only [waitStep, Option.orElse_eq_orElse, Option.orElse_eq_or, Option.or_eq_some_iff] at h
  rcases h with h | ⟨_, h | ⟨_, h | ⟨_, h⟩⟩⟩
  · exact startStep_zombie hz h
  · exact forkStep_zombie hi hk hz h
  · exact exitStep_zombie hi hk hz h
  · exact kwaitStep_zombie hi hk hz h

end ZombieStays

/-- The step is one of a `kwait` whose `copyout` fails, from there to its return. -/
def FailedWait (s : WaitKern) (t : ℕ) (a : WaitAct) : Prop :=
  (∃ addr i, s.pc t = .run (.waitCopyout addr i) ∧ a = .fail) ∨
  (∃ i, s.pc t = .run (.waitFail i)) ∨ s.pc t = .run (.waitReturn none)

theorem failed_wait_step {N : ℕ} {s s' : WaitKern} {t : ℕ} {a : WaitAct} (hf : FailedWait s t a)
    (h : kernStep N (waitClient N) s (.client t a) = some s') :
    s'.proc = s.proc ∧ s'.g.returns = s.g.returns ∧
      (s'.pc t = .run .user ∨ ∀ b, FailedWait s' t b) := by
  simp only [kernStep, Option.ite_none_right_eq_some] at h
  obtain ⟨_, h⟩ := h
  rcases hf with ⟨addr, i, hp, rfl⟩ | ⟨i, hp⟩ | hp
  · rw [hp] at h
    cases addr
    · cases h
    · obtain rfl := Option.some.inj h
      exact ⟨rfl, rfl, .inr (fun b => .inr (.inl ⟨i, by simp⟩))⟩
  · rw [hp] at h
    cases a
    case go =>
      obtain rfl := Option.some.inj h
      exact ⟨rfl, rfl, .inr (fun b => .inr (.inr (by simp)))⟩
    all_goals cases h
  · rw [hp] at h
    cases a
    case go =>
      obtain rfl := Option.some.inj h
      exact ⟨rfl, by simp [WaitG.waited], .inl (by simp)⟩
    all_goals cases h

/-- The protocol, in every state `s` that any interleaving reaches: a `ZOMBIE` has a parent
that is in use and no `ZOMBIE`, its creator or `initproc` once the creator has called
`kexit`; it stays what it is until its parent's `kwait` frees it; no process is returned
twice, and what is returned is its own pid and status; a `kwait` whose `copyout` fails
changes nothing; and nobody sleeps in `kwait` over a `ZOMBIE` child while `wait_lock` is
free. -/
theorem exit_wait_protocol {N : ℕ} (hN : 0 < N) {es : List (Event WaitAct)} {s : WaitKern}
    (h : exec (kernStep N (waitClient N)) waitInit es = some s) :
    (∀ q, (s.proc q).state = .ZOMBIE → ∃ r, (s.proc q).parent = some r ∧
      (s.proc r).state ≠ .UNUSED ∧ (s.proc r).state ≠ .ZOMBIE ∧
      (s.g.uid r = s.g.creator q ∨
        (r = initproc ∧ ∃ x ∈ s.g.exits, x.uid = s.g.creator q))) ∧
    (∀ e s' q, kernStep N (waitClient N) s e = some s' → (s.proc q).state = .ZOMBIE →
      ((s'.proc q).state = .ZOMBIE ∧ (s'.proc q).pid = (s.proc q).pid ∧
        (s'.proc q).xstate = (s.proc q).xstate ∧ s'.g.uid q = s.g.uid q) ∨
      ∃ t addr, e = .client t .go ∧ s.pc t = .run (.waitCopyout addr q) ∧
        (s.proc q).parent = some t ∧ (s'.proc q).state = .UNUSED) ∧
    (s.g.exits.map Exited.uid).Nodup ∧ (s.g.returns.map Reaped.uid).Nodup ∧
    (∀ r ∈ s.g.returns, ∃ x ∈ s.g.exits, r.uid = x.uid ∧ r.pid = x.pid ∧
      ∀ st, r.status = some st → st = x.status) ∧
    (∀ t a s', FailedWait s t a → kernStep N (waitClient N) s (.client t a) = some s' →
      s'.proc = s.proc ∧ s'.g.returns = s.g.returns ∧
        (s'.pc t = .run .user ∨ ∀ b, FailedWait s' t b)) ∧
    (s.lk = none → ∀ q, (s.proc q).state = .SLEEPING → (s.proc q).chan = some q →
      ∀ z, (s.proc z).parent = some q → (s.proc z).state ≠ .ZOMBIE) := by
  have hi : WaitInv N s := exec_invariant wait_step_inv h (wait_inv_init hN)
  have hzc {q : ℕ} (hz : (s.proc q).state = .ZOMBIE) : (family s).cls q = .zombie := by
    simp [family, hz, ProcState.cls]
  refine ⟨?_, ?_, hi.family.exits_nodup, hi.family.returns_nodup,
    fun r hr => (hi.family.returned r hr).1, fun t a s' => failed_wait_step, ?_⟩
  · intro q hz
    have hne : q ≠ initproc := by
      rintro rfl
      have := hi.family.init_live
      rw [hzc hz] at this
      cases this
    obtain ⟨r, hr⟩ := Option.ne_none_iff_exists'.mp (hi.family.has_parent q hne (.inr (hzc hz)))
    have hlive : (s.proc r).state.cls = .live := hi.family.parent_live q r hr
    refine ⟨r, hr, ?_, ?_, ?_⟩
    · intro he
      simp [he, ProcState.cls] at hlive
    · intro he
      simp [he, ProcState.cls] at hlive
    · rcases hi.family.creator q r hr with hc | hc
      · exact .inl hc.symm
      · exact .inr hc
  · intro e s' q hstep hz
    rcases kernStep_or hstep with ⟨t, k, a, rfl, ht, hk, hs⟩ | hs
    · rcases waitStep_zombie hi hk hz hs with hq | ⟨addr, rfl, rfl, hpar, hun⟩
      · exact .inl hq
      · exact .inr ⟨t, addr, rfl, hk, hpar, hun⟩
    · have hq := Monitor.sysStep_quiet hi.monitor hs
      have hst : (s'.proc q).state = .ZOMBIE := by
        rcases hq.state q with hs | ⟨hl, _⟩
        · rw [hs, hz]
        · rw [hz] at hl
          simp [ProcState.Live] at hl
      exact .inl ⟨hst, hq.pid q, hq.xstate q, by rw [hq.g]⟩
  · intro hlk q hs hc z hz hzz
    obtain ⟨_, hcalm | ⟨u, hu, _⟩⟩ := hi.monitor.sleepers q q (.inl ⟨hs, hc⟩)
    · have hl := hcalm z hz
      rw [(hi.family.zombie z (hzc hzz)).1] at hl
      exact hl trivial
    · rw [hlk] at hu
      cases hu

/-- `initproc` forks, the child calls `kexit(7)`, and `initproc` waits for it. -/
def forkExitWait : List (Event WaitAct) :=
  [.client 0 .fork, .client 0 .go, .client 0 .go, .client 0 .go, .client 0 .go, .client 0 .go,
    .client 0 .go, .client 0 .go, .client 0 .go, .client 0 .go, .dispatch 1, .advance 1,
    .client 1 (.exit 7), .client 1 .go, .client 1 .go, .client 1 .go, .client 1 .go, .advance 1,
    .advance 1, .advance 1, .client 1 .go, .client 1 .go, .advance 1, .client 0 (.wait true),
    .client 0 .go, .client 0 .go, .client 0 .go, .client 0 .go, .client 0 .go, .client 0 .go,
    .client 0 .go]

theorem exit_wait_protocol_one_child : ∃ s, exec (kernStep 2 (waitClient 2)) waitInit
    forkExitWait = some s ∧ s.g.returns = [⟨1, 2, some 7⟩] ∧
    ∀ r ∈ s.g.returns, ∃ x ∈ s.g.exits, r.uid = x.uid ∧ r.pid = x.pid ∧
      ∀ st, r.status = some st → st = x.status := by
  obtain ⟨s, hs, hr⟩ : ∃ s, exec (kernStep 2 (waitClient 2)) waitInit forkExitWait = some s ∧
      s.g.returns = [⟨1, 2, some 7⟩] := ⟨_, rfl, rfl⟩
  exact ⟨s, hs, hr, (exit_wait_protocol (by decide) hs).2.2.2.2.1⟩

end Xv6
