import Xv6.Pipe
import Xv6.Wait
import Xv6.Console
import Xv6.Ticks

/-! Waits that `kkill` is meant to interrupt: `piperead`, `pipewrite`, `consoleread`, `kwait` and
`sys_pause` test `killed(p)` before `sleep`. The test and the change to `SLEEPING` take `p->lock`
separately, so a `kkill` in between is not noticed. -/
namespace Xv6

section Window

variable {χ κ G A : Type} (tested : κ → Bool)

/-- The thread has found `p->killed` zero and is on its way to `sleep`; `tested` says at
which points of the client that is so. -/
def Pc.inWindow : Pc χ κ → Bool
  | .run k | .wakeup _ _ k => tested k
  | .sleepLock _ _ | .sleepRelease _ _ | .sleepMark _ _ => true
  | _ => false

/-- A thread that has been switched out goes on at a point where it has tested nothing. -/
def Pc.Retests : Pc χ κ → Prop
  | .run _ | .wakeup _ _ _ => True
  | p => tested p.point = false

structure WindowInv (s : Kern χ κ G) : Prop where
  killed : ∀ q, (s.proc q).killed = true →
    (s.pc q).inWindow tested = false ∧ (s.proc q).state ≠ .SLEEPING
  retests : ∀ q, (s.pc q).Retests tested

/-- No `kkill` reaches its process between the test of `p->killed` and `sleep`. -/
def NoKillInWindow (s : Kern χ κ G) : Event A → Prop
  | .kill q => (s.pc q).inWindow tested = false
  | _ => True

instance (s : Kern χ κ G) (e : Event A) : Decidable (NoKillInWindow tested s e) :=
  match e with
  | .kill q => inferInstanceAs (Decidable ((s.pc q).inWindow tested = false))
  | .client _ _ | .advance _ | .dispatch _ | .yield _ => .isTrue trivial

/-- Whenever its lock is free, a sleeping process has not been killed. -/
def NoKilledSleeper (s : Kern χ κ G) : Prop :=
  ∀ q, s.plock q = none → (s.proc q).state = .SLEEPING → (s.proc q).killed = false

variable {tested} {N : ℕ} {s s' : Kern χ κ G} {t : ℕ}

theorem WindowInv.noKilledSleeper (hi : WindowInv tested s) : NoKilledSleeper s := by
  intro q _ hq
  by_contra hk
  exact (hi.killed q (by simpa using hk)).2 hq

/-- A step keeps the invariant if it kills nobody, if only threads in the window fall
asleep, and if a thread enters the window only when it has not been killed. -/
theorem WindowInv.step (hi : WindowInv tested s)
    (hkilled : ∀ q, (s'.proc q).killed = true → (s.proc q).killed = true)
    (hsleep : ∀ q, (s'.proc q).state = .SLEEPING →
      (s.proc q).state = .SLEEPING ∨ (s.pc q).inWindow tested = true)
    (hpc : ∀ q, s'.pc q = s.pc q ∨ ((s'.pc q).Retests tested ∧
      ((s'.pc q).inWindow tested = true →
        (s.pc q).inWindow tested = true ∨ (s.proc q).killed = false))) :
    WindowInv tested s' := by
  refine ⟨fun q hq => ?_, fun q => ?_⟩
  · have hk := hkilled q hq
    obtain ⟨hout, hawake⟩ := hi.killed q hk
    constructor
    · by_contra hin
      rw [Bool.not_eq_false] at hin
      rcases hpc q with he | ⟨_, hw⟩
      · rw [he, hout] at hin
        cases hin
      · rcases hw hin with h | h
        · rw [hout] at h
          cases h
        · rw [hk] at h
          cases h
    · intro hs
      rcases hsleep q hs with h | h
      · exact hawake h
      · rw [hout] at h
        cases h
  · rcases hpc q with he | ⟨h, _⟩
    · rw [he]
      exact hi.retests q
    · exact h

theorem WindowInv.kill (hi : WindowInv tested s) {q : ℕ}
    (hq : (s.pc q).inWindow tested = false) :
    WindowInv tested (s.setProc q (s.proc q).kill) := by
  refine ⟨fun u hu => ?_, hi.retests⟩
  by_cases huq : u = q
  · subst huq
    refine ⟨hq, ?_⟩
    simp only [Kern.setProc_proc, update_self, Proc.kill]
    split_ifs with hs
    · simp
    · exact hs
  · simp only [Kern.setProc_proc, update_of_ne huq] at hu ⊢
    exact hi.killed u hu

theorem Pc.Next.window {pre : κ → Bool} (hpre : ∀ k, pre k = true → tested k = false)
    {p p' : Pc χ κ} (h : Pc.Next pre p p') (hp : p.Retests tested) :
    p'.Retests tested ∧ (p'.inWindow tested = true → p.inWindow tested = true) := by
  cases h with
  | sleepLock c k | sleepRelease c k | dispatch r => exact ⟨hp, id⟩
  | sleepMark c k | schedOut r | schedIn k => exact ⟨hp, fun h => by cases h⟩
  | resume k | reacquire k =>
    refine ⟨trivial, fun h => ?_⟩
    have hk : tested k = false := hp
    rw [Pc.inWindow, hk] at h
    cases h
  | wakeup c i k | woken c i k => exact ⟨trivial, id⟩
  | yield k hk => exact ⟨hpre k hk, fun h => by cases h⟩

variable [DecidableEq χ]

theorem SysStep.sleeps {pre : κ → Bool} {e : Event A} (tested : κ → Bool) (h : SysStep N pre s e s')
    (he : ∀ q, e ≠ .kill q) (q : ℕ) :
    ((s'.proc q).killed = true → (s.proc q).killed = true) ∧
    ((s'.proc q).state = .SLEEPING →
      (s.proc q).state = .SLEEPING ∨ (s.pc q).inWindow tested = true) := by
  cases h with
  | kill q => exact absurd rfl (he q)
  | @look t c i k hp =>
    by_cases hq : q = i
    · subst hq
      simp only [Kern.setPc_proc, Kern.setProc_proc, update_self, Proc.wake]
      split_ifs <;> simp_all
    · simpa [hq] using .inl
  | @sleepMark t c k hp | @schedIn t k hp | @dispatch t r hp | @yield t k hp =>
    by_cases hq : q = t
    · subst hq
      simp_all [Pc.inWindow]
    · simpa [hq] using .inl
  | _ => exact ⟨id, .inl⟩

/-- A client whose own steps keep the invariant keeps it together with the rest of the
machine, as long as no `kkill` hits the window. -/
theorem WindowInv.kernStep {cl : Client χ κ G A} {e : Event A}
    (hpre : ∀ k, cl.preemptible k = true → tested k = false)
    (hclient : ∀ t k a, s.pc t = .run k → cl.step s t k a = some s' → WindowInv tested s')
    (hc : NoKillInWindow tested s e) (h : kernStep N cl s e = some s')
    (hi : WindowInv tested s) : WindowInv tested s' := by
  rcases kernStep_or h with ⟨t, k, a, rfl, _, hk, hstep⟩ | hs
  · exact hclient t k a hk hstep
  by_cases he : ∀ q, e ≠ .kill q
  · refine hi.step (fun q => (hs.sleeps tested he q).1) (fun q => (hs.sleeps tested he q).2) fun q => ?_
    refine (hs.frame.2.2 q).imp_right fun hn => ?_
    obtain ⟨hr, hw⟩ := hn.window hpre (hi.retests q)
    exact ⟨hr, fun h => .inl (hw h)⟩
  · cases hs with
    | kill q => exact hi.kill hc
    | _ => exact absurd (by simp) he

theorem noKilledSleeper_of_run {cl : Client χ κ G A} {es : List (Event A)}
    (hpre : ∀ k, cl.preemptible k = true → tested k = false)
    (hclient : ∀ s s' t k a, WindowInv tested s → s.pc t = .run k → cl.step s t k a = some s' →
      WindowInv tested s')
    (hinit : WindowInv tested s)
    (hc : Along (Xv6.kernStep N cl) (NoKillInWindow tested) s es)
    (h : exec (Xv6.kernStep N cl) s es = some s') : NoKilledSleeper s' := by
  refine (exec_invariant_along ?_ hc h hinit).noKilledSleeper
  intro s e s' hc hstep hi
  exact hi.kernStep hpre (fun t k a hk => hclient s s' t k a hi hk) hc hstep

theorem along_noKill {cl : Client χ κ G A} {es : List (Event A)}
    (h : checkAlong (Xv6.kernStep N cl) (fun s e => decide (NoKillInWindow tested s e)) s es = true) :
    Along (Xv6.kernStep N cl) (NoKillInWindow tested) s es :=
  along_of_check (fun _ _ => of_decide_eq_true) h

omit [DecidableEq χ] in
theorem WindowInv.client {k : κ} {p : Pc χ κ} (hi : WindowInv tested s) (hk : s.pc t = .run k)
    (x : ℕ) (hproc : s'.proc = update s.proc x (s'.proc x))
    (hkilled : (s'.proc x).killed = true → (s.proc x).killed = true)
    (hsleep : (s'.proc x).state = .SLEEPING → (s.proc x).state = .SLEEPING)
    (hpc : s'.pc = update s.pc t p) (hp : p.Retests tested)
    (hw : p.inWindow tested = false ∨ tested k = true ∨ (s.proc t).killed = false) :
    WindowInv tested s' := by
  have hother (q : ℕ) (hq : q ≠ x) : s'.proc q = s.proc q := by
    rw [hproc, update_of_ne hq]
  refine hi.step (fun q hkd => ?_) (fun q hs => ?_) (fun q => ?_)
  · by_cases hq : q = x
    · subst hq
      exact hkilled hkd
    · rwa [hother q hq] at hkd
  · by_cases hq : q = x
    · subst hq
      exact .inl (hsleep hs)
    · exact .inl (by rwa [hother q hq] at hs)
  · rw [hpc]
    by_cases hq : q = t
    · subst hq
      rw [update_self, hk]
      refine .inr ⟨hp, fun h => ?_⟩
      rcases hw with hw | hw
      · rw [hw] at h
        cases h
      · exact hw
    · exact .inl (update_of_ne hq _ _)

omit [DecidableEq χ] in
theorem WindowInv.move {k : κ} {p : Pc χ κ} (hi : WindowInv tested s) (hk : s.pc t = .run k)
    (hproc : s'.proc = s.proc) (hpc : s'.pc = update s.pc t p) (hp : p.Retests tested)
    (hw : p.inWindow tested = false ∨ tested k = true ∨ (s.proc t).killed = false) :
    WindowInv tested s' := by
  refine hi.client hk 0 ?_ (by rw [hproc]; exact id) (by rw [hproc]; exact id) hpc hp hw
  rw [hproc, update_eq_self]

end Window

/-- The points of `pipewrite` between the test and `sleep`; in `piperead` the test is the last thing
before `sleep`. -/
def PipePt.tested : PipePt → Bool
  | .writeCopy _ _ _ | .writeSleep _ _ => true
  | _ => false

theorem pipeStep_window {s s' : PipeKern} {t : ℕ} {k : PipePt} {a : PipeAct}
    (hi : WindowInv PipePt.tested s) (hk : s.pc t = .run k) (h : pipeStep s t k a = some s') :
    WindowInv PipePt.tested s' := by
  unfold pipeStep at h
  split at h
  all_goals try split_ifs at h
  all_goals try cases h
  -- most steps end outside the window
  all_goals try exact hi.move hk rfl rfl trivial (.inl rfl)
  · exact hi.move hk rfl rfl trivial (.inr (.inr (by simp_all)))
  · exact hi.move hk rfl rfl trivial (.inr (.inl rfl))
  · split at h <;> cases h <;> exact hi.move hk rfl rfl trivial (.inl rfl)
  · exact hi.move hk rfl rfl rfl (.inr (.inl rfl))
  · exact hi.move hk rfl rfl rfl (.inr (.inr (by simp_all)))

/-- In `consoleread`, `kwait` and `sys_pause` the test is the last thing before `sleep`. -/
def neverTested {κ : Type} (_ : κ) : Bool := false

theorem retests_neverTested {χ κ : Type} (p : Pc χ κ) : p.Retests neverTested := by
  cases p <;> trivial

theorem consoleStep_window {s s' : ConsKern} {t : ℕ} {k : ConsPt} {a : ConsAct}
    (hi : WindowInv neverTested s) (hk : s.pc t = .run k) (h : consoleStep s t k a = some s') :
    WindowInv neverTested s' := by
  unfold consoleStep at h
  split at h
  all_goals try split_ifs at h
  all_goals try cases h
  all_goals try exact hi.move hk rfl rfl trivial (.inl rfl)
  · exact hi.move hk rfl rfl rfl (.inr (.inr (by simp_all)))
  · refine hi.move hk rfl rfl (retests_neverTested _) (.inl ?_)
    split_ifs <;> rfl

theorem tickStep_window {s s' : TickKern} {t : ℕ} {k : TickPt} {a : TickAct}
    (hi : WindowInv neverTested s) (hk : s.pc t = .run k) (h : tickStep s t k a = some s') :
    WindowInv neverTested s' := by
  unfold tickStep at h
  split at h
  all_goals try split_ifs at h
  all_goals try cases h
  all_goals try exact hi.move hk rfl rfl trivial (.inl rfl)
  exact hi.move hk rfl rfl rfl (.inr (.inr (by simp_all)))

section Wait

variable {N : ℕ} {s s' : WaitKern} {t : ℕ} {k : WaitPt} {a : WaitAct}
  (hi : WindowInv neverTested s) (hk : s.pc t = .run k)
include hi hk

theorem WindowInv.put {x : ℕ} {pr : Proc ℕ} {p : Pc ℕ WaitPt}
    (hproc : s'.proc = update s.proc x pr)
    (hkilled : pr.killed = true → (s.proc x).killed = true)
    (hsleep : pr.state = .SLEEPING → (s.proc x).state = .SLEEPING)
    (hpc : s'.pc = update s.pc t p) (hp : p.inWindow neverTested = false) :
    WindowInv neverTested s' := by
  have hx : s'.proc x = pr := by rw [hproc, update_self]
  exact hi.client hk x (by rw [hx]; exact hproc) (by rwa [hx]) (by rwa [hx]) hpc
    (retests_neverTested p) (.inl hp)

theorem startStep_window (h : startStep s t k a = some s') : WindowInv neverTested s' := by
  unfold startStep at h
  split at h
  all_goals try split_ifs at h
  all_goals cases h
  all_goals exact hi.move hk rfl rfl trivial (.inl rfl)

theorem forkStep_window (h : forkStep N s t k a = some s') : WindowInv neverTested s' := by
  unfold forkStep at h
  split at h
  all_goals try split_ifs at h
  all_goals try cases h
  all_goals try exact hi.move hk rfl rfl trivial (.inl rfl)
  · exact hi.put hk rfl id (by simp) rfl rfl
  · rename_i np
    -- the only step that writes another thread's context
    refine hi.step (fun _ => id) (fun _ => .inl) fun q => ?_
    by_cases hqt : q = t
    · subst hqt
      exact .inr ⟨by simp [Pc.Retests], by simp [Pc.inWindow, neverTested]⟩
    · by_cases hq : q = np
      · subst hq
        exact .inr ⟨retests_neverTested _, by simp [hqt, Pc.inWindow]⟩
      · exact .inl (by simp [hqt, hq])
  · exact hi.put hk rfl (by simp [Proc.free]) (by simp [Proc.free]) rfl rfl
  · exact hi.put hk rfl (by simp [Proc.free]) (by simp [Proc.free]) rfl rfl
  · exact hi.put hk rfl id id rfl rfl
  · exact hi.put hk rfl id (by simp) rfl rfl

theorem exitStep_window (h : exitStep N s t k a = some s') : WindowInv neverTested s' := by
  unfold exitStep at h
  split at h
  all_goals try split_ifs at h
  all_goals try cases h
  all_goals try exact hi.move hk rfl rfl trivial (.inl rfl)
  · exact hi.put hk rfl id id rfl rfl
  · split at h <;> cases h <;> exact hi.move hk rfl rfl trivial (.inl rfl)
  · exact hi.put hk rfl id (by simp) rfl rfl

theorem kwaitStep_window (h : kwaitStep N s t k a = some s') : WindowInv neverTested s' := by
  unfold kwaitStep at h
  split at h
  all_goals try split_ifs at h
  all_goals try cases h
  all_goals try exact hi.move hk rfl rfl trivial (.inl rfl)
  · exact hi.put hk rfl (by simp [Proc.free]) (by simp [Proc.free]) rfl rfl
  · exact hi.put hk rfl (by simp [Proc.free]) (by simp [Proc.free]) rfl rfl
  · exact hi.move hk rfl rfl rfl (.inr (.inr (by simp_all)))

theorem waitStep_window (h : waitStep N s t k a = some s') : WindowInv neverTested s' := by
  simp only [waitStep, Option.orElse_eq_orElse, Option.orElse_eq_or, Option.or_eq_some_iff] at h
  rcases h with h | ⟨_, h | ⟨_, h | ⟨_, h⟩⟩⟩
  · exact startStep_window hi hk h
  · exact forkStep_window hi hk h
  · exact exitStep_window hi hk h
  · exact kwaitStep_window hi hk h

end Wait

theorem windowInv_init {χ κ G : Type} {tested : κ → Bool} {s : Kern χ κ G}
    (hkilled : ∀ q, (s.proc q).killed = false) (hpc : ∀ q, (s.pc q).Retests tested) :
    WindowInv tested s :=
  ⟨fun q hq => absurd hq (by simp [hkilled q]), hpc⟩

/-- If no `kkill` lands between the test of `p->killed` and `sleep`, no process ends up asleep in
one of the interruptible loops with `p->killed` set. -/
theorem killed_process_not_asleep (N : ℕ) :
    (∀ (data : ℕ → BitVec 8) (es : List (Event PipeAct)) (s : PipeKern),
      Along (kernStep N pipeClient) (NoKillInWindow PipePt.tested) (pipeInit data) es →
      exec (kernStep N pipeClient) (pipeInit data) es = some s → NoKilledSleeper s) ∧
    (∀ (es : List (Event WaitAct)) (s : WaitKern),
      Along (kernStep N (waitClient N)) (NoKillInWindow neverTested) waitInit es →
      exec (kernStep N (waitClient N)) waitInit es = some s → NoKilledSleeper s) ∧
    (∀ (es : List (Event ConsAct)) (s : ConsKern),
      Along (kernStep N consoleClient) (NoKillInWindow neverTested) consoleInit es →
      exec (kernStep N consoleClient) consoleInit es = some s → NoKilledSleeper s) ∧
    (∀ (ticks : BitVec 32) (es : List (Event TickAct)) (s : TickKern),
      Along (kernStep N tickClient) (NoKillInWindow neverTested) (tickInit ticks) es →
      exec (kernStep N tickClient) (tickInit ticks) es = some s → NoKilledSleeper s) := by
  refine ⟨fun data es s => ?_, fun es s => ?_, fun es s => ?_, fun ticks es s => ?_⟩
  · refine noKilledSleeper_of_run ?_ (fun _ _ _ _ _ => pipeStep_window)
      (windowInv_init (fun _ => rfl) fun _ => trivial)
    intro k hk
    cases k <;> first | rfl | cases hk
  · refine noKilledSleeper_of_run (fun _ _ => rfl) (fun _ _ _ _ _ => waitStep_window)
      (windowInv_init (fun q => ?_) fun _ => retests_neverTested _)
    by_cases hq : q = initproc <;> simp [waitInit, hq]
  · exact noKilledSleeper_of_run (fun _ _ => rfl) (fun _ _ _ _ _ => consoleStep_window)
      (windowInv_init (fun _ => rfl) fun _ => trivial)
  · exact noKilledSleeper_of_run (fun _ _ => rfl) (fun _ _ _ _ _ => tickStep_window)
      (windowInv_init (fun _ => rfl) fun _ => trivial)

/-- Process 0 reads from an empty pipe and goes to sleep; process 1 is killed meanwhile. -/
def readerSleepsUnharmed : List (Event PipeAct) :=
  [.client 0 (.piperead (fun _ => true) 1), .client 0 .go, .client 0 .go, .client 0 .go,
    .kill 1, .advance 0, .advance 0, .advance 0, .advance 0]

/-- Process 0 waits for a second tick and is killed in its sleep. -/
def pauseKilledAsleep : List (Event TickAct) :=
  [.client 0 (.pause 2), .client 0 .go, .client 0 .go, .client 0 .go,
    .advance 0, .advance 0, .advance 0, .advance 0, .kill 0]

theorem killed_process_not_asleep_runs :
    (∃ s, exec (kernStep 2 pipeClient) (pipeInit (fun _ => 0)) readerSleepsUnharmed = some s ∧
      (s.proc 0).state = .SLEEPING ∧ (s.proc 1).killed = true ∧ NoKilledSleeper s) ∧
    (∃ s, exec (kernStep 2 tickClient) (tickInit 0) pauseKilledAsleep = some s ∧
      (s.proc 0).killed = true ∧ NoKilledSleeper s) := by
  obtain ⟨hpipe, -, -, htick⟩ := killed_process_not_asleep 2
  constructor
  · obtain ⟨s, hs, hsleep, hkilled⟩ : ∃ s, exec (kernStep 2 pipeClient) (pipeInit (fun _ => 0))
        readerSleepsUnharmed = some s ∧ (s.proc 0).state = .SLEEPING ∧ (s.proc 1).killed = true :=
      ⟨_, rfl, rfl, rfl⟩
    exact ⟨s, hs, hsleep, hkilled, hpipe _ _ s (along_noKill (by decide)) hs⟩
  · obtain ⟨s, hs, hkilled⟩ : ∃ s, exec (kernStep 2 tickClient) (tickInit 0) pauseKilledAsleep =
        some s ∧ (s.proc 0).killed = true := ⟨_, rfl, rfl⟩
    exact ⟨s, hs, hkilled, htick _ _ s (along_noKill (by decide)) hs⟩

/-- Process 0 finds the pipe empty and itself not killed; the `kkill` comes before it has
called `sleep`. -/
def readerKilledInWindow : List (Event PipeAct) :=
  [.client 0 (.piperead (fun _ => true) 1), .client 0 .go, .client 0 .go, .client 0 .go,
    .kill 0, .advance 0, .advance 0, .advance 0, .advance 0]

theorem killed_reader_sleeps : ∃ s, exec (kernStep 2 pipeClient) (pipeInit (fun _ => 0))
    readerKilledInWindow = some s ∧ ¬ NoKilledSleeper s := by
  refine ⟨_, rfl, fun h => ?_⟩
  have hbad := h 0 rfl rfl
  revert hbad
  decide

end Xv6
