import Xv6.ProcMonitor

/-! The waiting pattern of the kernel: `acquire(lk); while(cond) sleep(chan, lk);`, where whoever
makes `cond` false does so under `lk` and calls `wakeup(chan)` before releasing it
(kernel/sleeplock.c, and every other caller of `sleep`). -/
namespace Xv6

/-- Where a user of the pattern is. `b` says that it has made `cond` false and not called
`wakeup(chan)` since. -/
inductive CondPt where
  | out
  /-- about to test `cond` in the `while` -/
  | test (b : Bool)
  | body (b : Bool)
  deriving DecidableEq

inductive CondAct (χ D : Type) where
  | acquire
  | enterLoop
  | testCond
  | modify (d : D)
  | wakeup (c : χ)
  | sleepOn (c : χ)
  | release
  /-- a change without the lock, which does not make `cond` false -/
  | touch (d : D)

variable {χ D : Type} [DecidableEq χ] {cond : D → Bool} {ch : χ}

/-- One step of a thread that follows the pattern. A thread that owes a `wakeup` neither releases
`lk` nor sleeps; other channels, and changes that leave `cond` true, are not restricted. -/
def condStep (cond : D → Bool) (ch : χ) (s : Kern χ CondPt D) (t : ℕ) :
    CondPt → CondAct χ D → Option (Kern χ CondPt D)
  | .out, .acquire =>
    if s.lk = none then some ((s.setLk (some t)).setPc t (.run (.body false))) else none
  | .body b, .enterLoop => some (s.setPc t (.run (.test b)))
  | .test b, .testCond =>
    if cond s.g then
      if b then none else some (s.setPc t (.sleepLock ch (.test false)))
    else some (s.setPc t (.run (.body b)))
  | .body b, .modify d =>
    some ((s.setG d).setPc t (.run (.body (b || (cond s.g && !cond d)))))
  | .body b, .wakeup c => some (s.setPc t (.wakeup c 0 (.body (if c = ch then false else b))))
  | .out, .wakeup c => some (s.setPc t (.wakeup c 0 .out))
  | .body b, .sleepOn c =>
    if b = false ∧ c ≠ ch then some (s.setPc t (.sleepLock c (.body false))) else none
  | .body b, .release =>
    if b then none else some ((s.setLk none).setPc t (.run .out))
  | k, .touch d =>
    if cond s.g = true ∧ cond d = false then none else some ((s.setG d).setPc t (.run k))
  | _, _ => none

def condClient (cond : D → Bool) (ch : χ) : Client χ CondPt D (CondAct χ D) where
  step := condStep cond ch
  preemptible := fun k => k = .out

/-- `N` running processes, no lock held. -/
def condInit (d : D) : Kern χ CondPt D where
  proc := fun _ => ⟨.RUNNING, none, false, 0, 0, none⟩
  plock := fun _ => none
  lk := none
  pc := fun _ => .run .out
  g := d

def CondPt.holds : CondPt → Prop
  | .out => False
  | _ => True

def CondPt.owes : CondPt → Prop
  | .out => False
  | .test b | .body b => b = true

/-- A sleeper on `chan` may go on sleeping while `cond` holds; the other channels are
nobody's business. -/
def condMonitor (cond : D → Bool) (ch : χ) : Monitor χ CondPt D where
  holds := CondPt.holds
  holdsP := fun _ _ => False
  resumes := fun _ => True
  owes := fun k c => c = ch ∧ k.owes
  calm := fun s c => c = ch → cond s.g = true

omit [DecidableEq χ] in
theorem cond_calmQuiet : (condMonitor cond ch).CalmQuiet := by
  intro s s' c hq hc hch
  rw [hq.g]
  exact hc hch

omit [DecidableEq χ] in
theorem cond_touch {N : ℕ} {s : Kern χ CondPt D} {t : ℕ} {k : CondPt} {d : D}
    (hi : (condMonitor cond ch).Inv N s) (ht : t < N) (hk : s.pc t = .run k)
    (hd : ¬ (cond s.g = true ∧ cond d = false)) :
    (condMonitor cond ch).Inv N ((s.setG d).setPc t (.run k)) := by
  have hcalm : ∀ c, (condMonitor cond ch).calm s c →
      (condMonitor cond ch).calm ((s.setG d).setPc t (.run k)) c := by
    intro c hc hch
    by_contra hcon
    exact hd ⟨hc hch, by simpa using hcon⟩
  have hm : (condMonitor cond ch).Moves s ((s.setG d).setPc t (.run k)) t (.run k) :=
    .of_eq hi hk rfl rfl rfl ⟨trivial, rfl⟩
  cases k with
  | out => exact Monitor.inv_free_move hi hk hm hcalm id rfl id rfl
  | test b | body b =>
    refine Monitor.inv_locked_move hi hk hm trivial ht ?_ rfl trivial (by simp [Pc.bound])
    intro q c _ hc
    exact hc.imp (hcalm c) id

theorem cond_client_step {N : ℕ} {s s' : Kern χ CondPt D} {t : ℕ} {k : CondPt} {a : CondAct χ D}
    (hi : (condMonitor cond ch).Inv N s) (ht : t < N) (hk : s.pc t = .run k)
    (h : condStep cond ch s t k a = some s') : (condMonitor cond ch).Inv N s' := by
  unfold condStep at h
  split at h
  · -- acquire
    simp only [ite_some_iff] at h
    obtain ⟨hlk, rfl⟩ := h
    exact Monitor.inv_acquire hi (.of_eq hi hk rfl rfl rfl ⟨trivial, rfl⟩)
      (fun _ hc => hc) hlk rfl trivial rfl
  · cases h
    refine Monitor.inv_locked_move hi hk (.of_eq hi hk rfl rfl rfl ⟨trivial, rfl⟩) trivial
      ht ?_ rfl trivial (by simp [Pc.bound])
    exact fun q c _ hc => hc
  · rename_i b
    split_ifs at h with hcond hb
    · -- the condition holds and nothing is owed: go to sleep
      cases h
      refine Monitor.inv_locked_move hi hk
        (.of_eq hi hk rfl rfl rfl ⟨⟨trivial, trivial, fun _ => id⟩, rfl⟩) trivial ht ?_ rfl
        trivial (fun _ _ _ => hcond)
      rintro q c _ (hc | ⟨_, ho⟩)
      · exact .inl hc
      · exact absurd ho hb
    · cases h
      refine Monitor.inv_locked_move hi hk (.of_eq hi hk rfl rfl rfl ⟨trivial, rfl⟩) trivial
        ht ?_ rfl trivial (by simp [Pc.bound])
      exact fun q c _ hc => hc
  · rename_i b d
    cases h
    refine Monitor.inv_locked_move hi hk (.of_eq hi hk rfl rfl rfl ⟨trivial, rfl⟩) trivial
      ht ?_ rfl trivial (by simp [Pc.bound])
    rintro q c _ (hc | ⟨hch, ho⟩)
    · -- whoever makes the condition false owes the `wakeup` from now on
      by_cases hch : c = ch
      · by_cases hd : cond d = true
        · exact .inl fun _ => hd
        · exact .inr ⟨hch, by simp [CondPt.owes, hc hch, hd]⟩
      · exact .inl fun e => absurd e hch
    · replace ho : b = true := ho
      exact .inr ⟨hch, by simp [CondPt.owes, ho]⟩
  · rename_i b c'
    cases h
    refine Monitor.inv_locked_move hi hk
      (.of_eq hi hk rfl rfl rfl ⟨trivial, rfl⟩) trivial ht ?_ rfl trivial
      (by simp [Pc.bound])
    rintro q c _ (hc | ⟨hch, ho⟩)
    · exact .inl hc
    · right
      by_cases hc' : c' = ch
      · exact .inl ⟨hc'.trans hch.symm, zero_le⟩
      · exact .inr ⟨hch, by simpa [CondPt.owes, hc'] using ho⟩
  · cases h
    exact Monitor.inv_free_move hi hk
      (.of_eq hi hk rfl rfl rfl ⟨trivial, rfl⟩) (fun _ hc => hc) id rfl id rfl
  · simp only [ite_some_iff] at h
    obtain ⟨⟨rfl, hne⟩, rfl⟩ := h
    refine Monitor.inv_locked_move hi hk
      (.of_eq hi hk rfl rfl rfl ⟨⟨trivial, trivial, fun _ => id⟩, rfl⟩) trivial ht ?_ rfl
      trivial ?_
    · rintro q c _ (hc | ⟨_, ho⟩)
      · exact .inl hc
      · cases ho
    · intro c hb hch
      exact absurd ((Option.some.inj hb).trans hch) hne
  · rename_i b
    split_ifs at h with hb
    cases h
    refine Monitor.inv_release hi hk (.of_eq hi hk rfl rfl rfl ⟨trivial, rfl⟩)
      (fun _ hc => hc) trivial ?_ rfl id rfl
    rintro c ⟨_, ho⟩
    exact hb ho
  · rename_i d
    split_ifs at h with hd
    cases h
    exact cond_touch hi ht hk hd
  · cases h

theorem cond_step_inv {N : ℕ} (s : Kern χ CondPt D) (e : Event (CondAct χ D))
    (s' : Kern χ CondPt D) (h : kernStep N (condClient cond ch) s e = some s')
    (hi : (condMonitor cond ch).Inv N s) : (condMonitor cond ch).Inv N s' := by
  refine Monitor.kernStep_inv cond_calmQuiet ?_ ?_ hi h
  · intro k hk
    obtain rfl : k = .out := by simpa [condClient] using hk
    exact ⟨id, fun _ => id⟩
  · intro t k a _ ht hk hstep
    exact cond_client_step hi ht hk hstep

omit [DecidableEq χ] in
theorem cond_inv_init (N : ℕ) {s : Kern χ CondPt D} (hpc : ∀ t, s.pc t = .run .out)
    (hst : ∀ t, (s.proc t).state = .RUNNING) (hpl : ∀ q, s.plock q = none) (hlk : s.lk = none) :
    (condMonitor cond ch).Inv N s := by
  refine ⟨?_, ?_, ?_, ?_, ?_⟩
  · simp [hpc, hlk, Monitor.holdsLk, condMonitor, CondPt.holds]
  · simp [hpc, hpl, Monitor.holdsPl, condMonitor]
  · simp [hpc, Monitor.ContOk]
  · simp [hpc, hst, Monitor.StateOk]
  · simp [hpc, hst, AsleepOn, Pc.bound]

omit [DecidableEq χ] in
theorem cond_of_sleeping {N : ℕ} {s : Kern χ CondPt D} (hi : (condMonitor cond ch).Inv N s)
    (hlk : s.lk = none) {q : ℕ} (hq : (s.proc q).state = .SLEEPING)
    (hc : (s.proc q).chan = some ch) : cond s.g = true := by
  obtain ⟨_, hcalm | ⟨u, hu, _⟩⟩ := hi.sleepers q ch (.inl ⟨hq, hc⟩)
  · exact hcalm rfl
  · rw [hlk] at hu
    cases hu

/-- No wakeup is lost: in every interleaving, once `lk` is free, a process that sleeps on
`chan` still finds its condition true. -/
theorem no_lost_wakeup {N : ℕ} {d : D} {es : List (Event (CondAct χ D))} {s : Kern χ CondPt D}
    (h : exec (kernStep N (condClient cond ch)) (condInit d) es = some s) (hlk : s.lk = none)
    {q : ℕ} (hq : (s.proc q).state = .SLEEPING) (hc : (s.proc q).chan = some ch) :
    cond s.g = true := by
  have hinit : (condMonitor cond ch).Inv N (condInit d) :=
    cond_inv_init N (fun _ => rfl) (fun _ => rfl) (fun _ => rfl) rfl
  exact cond_of_sleeping (exec_invariant cond_step_inv h hinit) hlk hq hc

/-- Process 0 waits while the data is `true`. -/
def waiterSleeps : List (Event (CondAct Unit Bool)) :=
  [.client 0 .acquire, .client 0 .enterLoop, .client 0 .testCond, .advance 0, .advance 0,
    .advance 0, .advance 0]

theorem no_lost_wakeup_waiter : ∃ s, exec (kernStep 2 (condClient id ())) (condInit true)
    waiterSleeps = some s ∧ (s.proc 0).state = .SLEEPING ∧ s.g = true := by
  obtain ⟨s, hs, hlk, hst, hch⟩ : ∃ s, exec (kernStep 2 (condClient id ())) (condInit true)
      waiterSleeps = some s ∧ s.lk = none ∧ (s.proc 0).state = .SLEEPING ∧
      (s.proc 0).chan = some () := ⟨_, rfl, rfl, rfl, rfl⟩
  exact ⟨s, hs, hst, no_lost_wakeup hs hlk hst hch⟩

end Xv6
