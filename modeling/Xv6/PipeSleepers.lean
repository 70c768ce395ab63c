import Xv6.PipeFifo

/-! Who sleeps on a pipe, and why. Every exit of `pipewrite` and `piperead` but one wakes the other
side: a `pipewrite` that finds itself killed returns at once, also after it has stored bytes that no
`wakeup(&pi->nread)` has announced. -/
namespace Xv6

def PipePt.holds : PipePt → Prop
  | .user | .writeAcquire _ | .readAcquire _ | .closeAcquire _ => False
  | _ => True

/-- A sleeper on `&pi->nread` waits for bytes or for the end of the writers, one on
`&pi->nwrite` for space or for the end of the readers. -/
def Pipe.calm (pi : Pipe) : PipeChan → Prop
  | .nread => pi.empty = true ∧ pi.writeopen = true
  | .nwrite => pi.full = true ∧ pi.readopen = true

def PipePt.owes : PipePt → PipeChan → Prop
  | .writeLoop _ _ b, c | .writeKilled _ _ b, c | .writeCopy _ _ b, c => c = .nread ∧ b = true
  | .readCopy _ _, c => c = .nwrite
  | _, _ => False

def pipeMonitor : Monitor PipeChan PipePt PipeG where
  holds := PipePt.holds
  holdsP := fun _ _ => False
  resumes := fun _ => True
  owes := PipePt.owes
  calm := fun s => s.g.pi.calm

/-- What the tests made since `pi->lock` was taken say about the pipe. -/
def PipePt.Tested (pi : Pipe) : PipePt → Prop
  | .writeLoop _ _ b => b = true → pi.readopen = true
  | .writeKilled _ _ _ | .writeCopy _ _ _ => pi.readopen = true
  | .writeSleep _ _ => pi.full = true ∧ pi.readopen = true
  | .readKilled _ => pi.empty = true ∧ pi.writeopen = true
  | _ => True

/-- A thread that has tested the pipe and not released `pi->lock` since still sees it that
way; a thread that goes back to a point after `sleep` has tested nothing. -/
def PcTested (pi : Pipe) : Pc PipeChan PipePt → Prop
  | .run k | .wakeup _ _ k => k.Tested pi
  | p => ∀ pi', p.point.Tested pi'

structure PipeInv (N : ℕ) (s : PipeKern) : Prop where
  monitor : pipeMonitor.Inv N s
  tested : ∀ t, PcTested s.g.pi (s.pc t)

/-- The step is not a killed `pipewrite` that leaves with bytes stored since its last
`wakeup(&pi->nread)` while a process sleeps, or is falling asleep, on `&pi->nread`. -/
def NoSilentExit (s : PipeKern) : Event PipeAct → Prop
  | .client t _ => ∀ w i, s.pc t = .run (.writeKilled w i true) → (s.proc t).killed = true →
      ∀ q, ¬ AsleepOn s q .nread
  | _ => True

theorem pipe_calmQuiet : pipeMonitor.CalmQuiet := by
  intro s s' c hq hc
  change s'.g.pi.calm c
  rw [hq.g]
  exact hc

theorem pcTested_next {pi : Pipe} {p p' : Pc PipeChan PipePt}
    (h : Pc.Next pipeClient.preemptible p p') (hp : PcTested pi p) : PcTested pi p' := by
  cases h with
  | yield k hk =>
    cases k <;> first | exact fun _ => trivial | cases hk
  | resume k => exact hp pi
  | reacquire k => exact hp pi
  | _ => exact hp

theorem pcTested_update {N : ℕ} {s : PipeKern} {t : ℕ} {k : PipePt} {p : Pc PipeChan PipePt}
    {pi' : Pipe} (hi : PipeInv N s) (hk : s.pc t = .run k)
    (hcase : k.holds ∨ pi' = s.g.pi) (hp : PcTested pi' p) (u : ℕ) :
    PcTested pi' (update s.pc t p u) := by
  by_cases hu : u = t
  · subst hu
    rwa [update_self]
  · rw [update_of_ne hu]
    have hold := hi.tested u
    rcases hcase with hh | rfl
    · -- `u` does not hold the lock
      have hlk : s.lk = some t := (hi.monitor.lk t).mpr (by rw [hk]; exact hh)
      have hnot : ¬ pipeMonitor.holdsLk (s.pc u) := by
        intro h
        have hlk' := (hi.monitor.lk u).mpr h
        rw [hlk, Option.some.injEq] at hlk'
        exact hu hlk'.symm
      cases hpu : s.pc u with
      | run k' =>
        rw [hpu] at hnot
        cases k' <;> first | exact trivial | exact absurd trivial hnot
      | wakeup c i k' =>
        rw [hpu] at hnot
        cases k' <;> first | exact trivial | exact absurd trivial hnot
      | _ =>
        rw [hpu] at hold
        exact hold
    · exact hold

section Steps

variable {N : ℕ} {s s' : PipeKern} {t : ℕ} {k : PipePt} {p : Pc PipeChan PipePt}
  (hi : PipeInv N s) (hk : s.pc t = .run k) (hm : pipeMonitor.Moves s s' t p)
include hi hk hm

theorem pipe_acquire (hg : s'.g = s.g) (hlk : s.lk = none) (hlk' : s'.lk = some t)
    (hh : pipeMonitor.holdsLk p) (hb : p.bound = none) (hp : PcTested s.g.pi p) :
    PipeInv N s' := by
  refine ⟨Monitor.inv_acquire hi.monitor hm ?_ hlk hlk' hh hb, ?_⟩
  · intro c hc
    change s'.g.pi.calm c
    rwa [hg]
  · rw [hm.pc, hg]
    exact pcTested_update hi hk (.inr rfl) hp

theorem pipe_release (hg : s'.g = s.g) (hh : k.holds) (ho : ∀ c, ¬ k.owes c)
    (hlk' : s'.lk = none) (hp : p = .run .user) : PipeInv N s' := by
  subst hp
  refine ⟨Monitor.inv_release hi.monitor hk hm ?_ hh ho hlk' id rfl, ?_⟩
  · intro c hc
    change s'.g.pi.calm c
    rwa [hg]
  · rw [hm.pc, hg]
    exact pcTested_update hi hk (.inr rfl) trivial

theorem pipe_locked (ht : t < N) (hlk' : s'.lk = s.lk) (hh : k.holds ∧ pipeMonitor.holdsLk p)
    (hsl : ∀ q c, AsleepOn s q c → s.g.pi.calm c ∨ k.owes c → s'.g.pi.calm c ∨ pipeMonitor.owesPc p c q)
    (hb : ∀ c, p.bound = some c → s'.g.pi.calm c) (hp : PcTested s'.g.pi p) : PipeInv N s' := by
  refine ⟨Monitor.inv_locked_move hi.monitor hk hm hh.1 ht hsl hlk' hh.2 hb, ?_⟩
  rw [hm.pc]
  exact pcTested_update hi hk (.inl hh.1) hp

theorem pipe_locked_same (ht : t < N) (hfr : (s'.g, s'.lk) = (s.g, s.lk))
    (hh : k.holds ∧ pipeMonitor.holdsLk p)
    (ho : ∀ q c, AsleepOn s q c → k.owes c → pipeMonitor.owesPc p c q)
    (hb : ∀ c, p.bound = some c → s.g.pi.calm c) (hp : PcTested s.g.pi p) : PipeInv N s' := by
  obtain ⟨hg, hlk⟩ := Prod.mk.inj hfr
  refine pipe_locked hi hk hm ht hlk hh ?_ (by rwa [hg]) (by rwa [hg])
  intro q c ha hc
  rcases hc with hc | hc
  · exact .inl (by rwa [hg])
  · exact .inr (ho q c ha hc)

theorem pipe_free (hfr : (s'.g.pi, s'.lk) = (s.g.pi, s.lk)) (hh : ¬ k.holds) (hh' : ¬ pipeMonitor.holdsLk p)
    (hb : p.bound = none) (hp : PcTested s.g.pi p) : PipeInv N s' := by
  obtain ⟨hg, hlk'⟩ := Prod.mk.inj hfr
  refine ⟨Monitor.inv_free_move hi.monitor hk hm ?_ hh hlk' hh' hb, ?_⟩
  · intro c hc
    change s'.g.pi.calm c
    rwa [hg]
  · rw [hm.pc, hg]
    exact pcTested_update hi hk (.inr rfl) hp

end Steps

/-- One step of `pipewrite` keeps the invariant, unless it is the silent exit. -/
theorem pipewrite_step {N : ℕ} {s s' : PipeKern} {t : ℕ} {w : WriteCall} {i : ℕ} {b : Bool}
    {k : PipePt} (hkind : k = .writeLoop w i b ∨ k = .writeKilled w i b ∨ k = .writeCopy w i b)
    (hi : PipeInv N s) (ht : t < N) (hk : s.pc t = .run k)
    (hc : NoSilentExit s (.client t .go)) (h : pipeStep s t k .go = some s') : PipeInv N s' := by
  have htest := hi.tested t
  rw [hk] at htest
  rcases hkind with rfl | rfl | rfl
  · simp only [pipeStep] at h
    split_ifs at h with hn hr
    · cases h
      -- with `readopen = 0` nothing was stored since the lock was taken
      have hb : b = false := by
        by_contra hb
        have hro : s.g.pi.readopen = true := htest (by simpa using hb)
        rw [hr] at hro
        cases hro
      subst hb
      exact pipe_locked_same hi hk (.of_eq hi.monitor hk rfl rfl rfl ⟨trivial, rfl⟩) ht rfl
        ⟨trivial, trivial⟩ (fun q c _ ho => absurd ho.2 (by simp)) (by simp [Pc.bound]) trivial
    · cases h
      exact pipe_locked_same hi hk (.of_eq hi.monitor hk rfl rfl rfl ⟨trivial, rfl⟩) ht rfl
        ⟨trivial, trivial⟩ (fun q c _ ho => ho) (by simp [Pc.bound]) (Bool.eq_true_of_not_eq_false hr)
    · cases h
      exact pipe_locked_same hi hk (.of_eq hi.monitor hk rfl rfl rfl ⟨trivial, rfl⟩) ht rfl
        ⟨trivial, trivial⟩ (fun q c _ ho => .inl ⟨ho.1.symm, zero_le⟩) (by simp [Pc.bound]) trivial
  · simp only [pipeStep, Option.ite_none_right_eq_some] at h
    obtain ⟨_, h⟩ := h
    split_ifs at h with hkd
    · cases h
      refine pipe_locked_same hi hk (.of_eq hi.monitor hk rfl rfl rfl ⟨trivial, rfl⟩) ht rfl
        ⟨trivial, trivial⟩ ?_ (by simp [Pc.bound]) trivial
      rintro q c ha ⟨rfl, rfl⟩
      exact absurd ha (hc w i hk hkd q)
    · cases h
      exact pipe_locked_same hi hk (.of_eq hi.monitor hk rfl rfl rfl ⟨trivial, rfl⟩) ht rfl
        ⟨trivial, trivial⟩ (fun q c _ ho => ho) (by simp [Pc.bound]) htest
  · simp only [pipeStep] at h
    split_ifs at h with hf
    · cases h
      exact pipe_locked_same hi hk (.of_eq hi.monitor hk rfl rfl rfl ⟨trivial, rfl⟩) ht rfl
        ⟨trivial, trivial⟩ (fun q c _ ho => .inl ⟨ho.1.symm, zero_le⟩) (by simp [Pc.bound]) ⟨hf, htest⟩
    · split at h
      · cases h
        exact pipe_locked_same hi hk (.of_eq hi.monitor hk rfl rfl rfl ⟨trivial, rfl⟩) ht rfl
          ⟨trivial, trivial⟩ (fun q c _ ho => .inl ⟨ho.1.symm, zero_le⟩) (by simp [Pc.bound]) trivial
      · cases h
        -- the stored byte ends the reason to sleep on `&pi->nread`: `wakeup` is owed from now on
        refine pipe_locked hi hk (.of_eq hi.monitor hk rfl rfl rfl ⟨trivial, rfl⟩) ht rfl ⟨trivial, trivial⟩
          ?_ (by simp [Pc.bound]) (fun _ => htest)
        intro q c _ hcalm
        cases c with
        | nread => exact .inr ⟨rfl, rfl⟩
        | nwrite =>
          rcases hcalm with hcalm | ho
          · exact absurd hcalm.1 hf
          · cases ho.1

theorem pipe_client_step {N : ℕ} {s s' : PipeKern} {t : ℕ} {k : PipePt} {a : PipeAct}
    (hi : PipeInv N s) (ht : t < N) (hk : s.pc t = .run k)
    (hc : NoSilentExit s (.client t a)) (h : pipeStep s t k a = some s') : PipeInv N s' := by
  have htest := hi.tested t
  rw [hk] at htest
  unfold pipeStep at h
  split at h
  · cases h
    exact pipe_free hi hk (.of_eq hi.monitor hk rfl rfl rfl ⟨trivial, rfl⟩) rfl id id rfl trivial
  · cases h
    exact pipe_free hi hk (.of_eq hi.monitor hk rfl rfl rfl ⟨trivial, rfl⟩) rfl id id rfl trivial
  · cases h
    exact pipe_free hi hk (.of_eq hi.monitor hk rfl rfl rfl ⟨trivial, rfl⟩) rfl id id rfl trivial
  · simp only [ite_some_iff] at h
    obtain ⟨hlk, rfl⟩ := h
    exact pipe_acquire hi hk (.of_eq hi.monitor hk rfl rfl rfl ⟨trivial, rfl⟩) rfl hlk rfl trivial rfl
      (by simp [PcTested, PipePt.Tested])
  · exact pipewrite_step (.inl rfl) hi ht hk hc h
  · exact pipewrite_step (.inr (.inl rfl)) hi ht hk hc h
  · exact pipewrite_step (.inr (.inr rfl)) hi ht hk hc h
  · cases h
    exact pipe_locked_same hi hk (.of_eq hi.monitor hk rfl rfl rfl ⟨⟨trivial, trivial, fun _ => id⟩, rfl⟩)
      ht rfl ⟨trivial, trivial⟩ (fun _ _ _ ho => ho.elim) (fun c hc => by cases hc; exact htest)
      (fun _ => by simp [Pc.point, PipePt.Tested])
  · cases h
    exact pipe_release hi hk (.of_eq hi.monitor hk rfl rfl rfl ⟨trivial, rfl⟩) rfl trivial (fun _ => id)
      rfl rfl
  · simp only [ite_some_iff] at h
    obtain ⟨hlk, rfl⟩ := h
    exact pipe_acquire hi hk (.of_eq hi.monitor hk rfl rfl rfl ⟨trivial, rfl⟩) rfl hlk rfl trivial rfl trivial
  · split_ifs at h with he
    · cases h
      exact pipe_locked_same hi hk (.of_eq hi.monitor hk rfl rfl rfl ⟨trivial, rfl⟩) ht rfl
        ⟨trivial, trivial⟩ (fun _ _ _ ho => ho.elim) (by simp [Pc.bound]) he
    · cases h
      exact pipe_locked_same hi hk (.of_eq hi.monitor hk rfl rfl rfl ⟨trivial, rfl⟩) ht rfl
        ⟨trivial, trivial⟩ (fun _ _ _ ho => ho.elim) (by simp [Pc.bound]) trivial
  · simp only [Option.ite_none_right_eq_some] at h
    obtain ⟨_, h⟩ := h
    split_ifs at h
    · cases h
      exact pipe_locked_same hi hk (.of_eq hi.monitor hk rfl rfl rfl ⟨trivial, rfl⟩) ht rfl
        ⟨trivial, trivial⟩ (fun _ _ _ ho => ho.elim) (by simp [Pc.bound]) trivial
    · cases h
      exact pipe_locked_same hi hk (.of_eq hi.monitor hk rfl rfl rfl ⟨⟨trivial, trivial, fun _ => id⟩, rfl⟩)
        ht rfl ⟨trivial, trivial⟩ (fun _ _ _ ho => ho.elim) (fun c hc => by cases hc; exact htest)
        (fun _ => trivial)
  · split_ifs at h with hn hd
    · cases h
      refine pipe_locked hi hk (.of_eq hi.monitor hk rfl rfl rfl ⟨trivial, rfl⟩) ht rfl ⟨trivial, trivial⟩
        ?_ (by simp [Pc.bound]) trivial
      intro q c _ hcalm
      cases c with
      | nwrite => exact .inr rfl
      | nread =>
        rcases hcalm with hcalm | ho
        · exact absurd hcalm.1 (by simp [hn.2])
        · cases ho
    · cases h
      refine pipe_locked hi hk (.of_eq hi.monitor hk rfl rfl rfl ⟨trivial, rfl⟩) ht rfl ⟨trivial, trivial⟩
        ?_ (by simp [Pc.bound]) trivial
      intro q c _ hcalm
      cases c with
      | nwrite => exact .inr (.inl ⟨rfl, zero_le⟩)
      | nread =>
        rcases hcalm with hcalm | ho
        · exact absurd hcalm.1 (by simp [hn.2])
        · cases ho
    · cases h
      exact pipe_locked_same hi hk (.of_eq hi.monitor hk rfl rfl rfl ⟨trivial, rfl⟩) ht rfl
        ⟨trivial, trivial⟩ (fun q c _ ho => .inl ⟨ho.symm, zero_le⟩) (by simp [Pc.bound]) trivial
  · cases h
    exact pipe_release hi hk (.of_eq hi.monitor hk rfl rfl rfl ⟨trivial, rfl⟩) rfl trivial (fun _ => id)
      rfl rfl
  · simp only [ite_some_iff] at h
    obtain ⟨hlk, rfl⟩ := h
    exact pipe_acquire hi hk (.of_eq hi.monitor hk rfl rfl rfl ⟨trivial, rfl⟩) rfl hlk rfl trivial rfl trivial
  · rename_i writable
    cases h
    refine pipe_locked hi hk (.of_eq hi.monitor hk rfl rfl rfl ⟨trivial, rfl⟩) ht rfl ⟨trivial, trivial⟩ ?_
      (by simp [Pc.bound]) trivial
    -- closing one end ends the reason to sleep of the other side only, which is woken next
    intro q c _ hcalm
    replace hcalm : s.g.pi.calm c := hcalm.resolve_right id
    cases writable <;> cases c
    · exact .inl hcalm
    · exact .inr (.inl ⟨rfl, zero_le⟩)
    · exact .inr (.inl ⟨rfl, zero_le⟩)
    · exact .inl hcalm
  · cases h
    exact pipe_release hi hk (.of_eq hi.monitor hk rfl rfl rfl ⟨trivial, rfl⟩) rfl trivial (fun _ => id)
      rfl rfl
  · cases h

theorem pipe_step_inv {N : ℕ} (s : PipeKern) (e : Event PipeAct) (s' : PipeKern)
    (hc : NoSilentExit s e) (h : kernStep N pipeClient s e = some s') (hi : PipeInv N s) :
    PipeInv N s' := by
  rcases kernStep_or h with ⟨t, k, a, rfl, ht, hk, hstep⟩ | hs
  · exact pipe_client_step hi ht hk hc hstep
  · obtain ⟨-, hg, hnext⟩ := hs.frame
    refine ⟨Monitor.sysStep_inv pipe_calmQuiet (fun k hk => ?_) hi.monitor hs, fun u => ?_⟩
    · cases k <;> first | exact ⟨id, fun _ => id⟩ | cases hk
    · rw [hg]
      rcases hnext u with hu | hu
      · rw [hu]
        exact hi.tested u
      · exact pcTested_next hu (hi.tested u)

theorem pipe_inv_init (N : ℕ) (data : ℕ → BitVec 8) : PipeInv N (pipeInit data) := by
  refine ⟨⟨?_, ?_, ?_, ?_, ?_⟩, ?_⟩
  · simp [pipeInit, Monitor.holdsLk, pipeMonitor, PipePt.holds]
  · simp [pipeInit, Monitor.holdsPl, pipeMonitor]
  · simp [pipeInit, Monitor.ContOk]
  · simp [pipeInit, Monitor.StateOk]
  · simp [pipeInit, AsleepOn, Pc.bound]
  · simp [pipeInit, PcTested, PipePt.Tested]

/-- No process sleeps on a channel of the pipe whose condition has changed, once `pi->lock`
is free. -/
def NoStrandedSleeper (s : PipeKern) : Prop :=
  s.lk = none → ∀ q, (s.proc q).state = .SLEEPING →
    ((s.proc q).chan = some .nread → ringCount s.g.pi.nread s.g.pi.nwrite = 0 ∧
      s.g.pi.writeopen = true) ∧
    ((s.proc q).chan = some .nwrite → ¬ ringCount s.g.pi.nread s.g.pi.nwrite < PIPESIZE ∧
      s.g.pi.readopen = true)

theorem no_stranded_of_inv {N : ℕ} {s : PipeKern} (hi : PipeInv N s) : NoStrandedSleeper s := by
  intro hlk q hq
  have calm (c : PipeChan) (hc : (s.proc q).chan = some c) : s.g.pi.calm c := by
    obtain ⟨_, h | ⟨u, hu, _⟩⟩ := hi.monitor.sleepers q c (.inl ⟨hq, hc⟩)
    · exact h
    · rw [hlk] at hu
      cases hu
  constructor
  · intro hc
    obtain ⟨he, hw⟩ := calm .nread hc
    exact ⟨ringCount_eq_zero.mpr (by simpa [Pipe.empty] using he), hw⟩
  · intro hc
    obtain ⟨hf, hr⟩ := calm .nwrite hc
    have he : s.g.pi.nwrite = s.g.pi.nread + BitVec.ofNat 32 PIPESIZE := by
      simpa [Pipe.full] using hf
    refine ⟨?_, hr⟩
    have hcount : ringCount s.g.pi.nread s.g.pi.nwrite = PIPESIZE := by
      rw [ringCount, he, BitVec.add_comm, BitVec.add_sub_cancel]
      rfl
    omega

/-- As long as no killed `pipewrite` leaves with bytes it has not announced while someone
sleeps on `&pi->nread`, no interleaving of `pipewrite`, `piperead`, `pipeclose` and `kkill`
strands a sleeper. -/
theorem no_stranded_sleeper {N : ℕ} {data : ℕ → BitVec 8} {es : List (Event PipeAct)}
    {s : PipeKern} (hc : Along (kernStep N pipeClient) NoSilentExit (pipeInit data) es)
    (h : exec (kernStep N pipeClient) (pipeInit data) es = some s) : NoStrandedSleeper s :=
  no_stranded_of_inv (exec_invariant_along pipe_step_inv hc h (pipe_inv_init N data))

/-- Process 0 calls `piperead` on an empty pipe and goes to sleep. -/
def readerSleeps : List (Event PipeAct) :=
  [.client 0 (.piperead (fun _ => true) 1), .client 0 .go, .client 0 .go, .client 0 .go,
    .advance 0, .advance 0, .advance 0, .advance 0]

theorem no_stranded_sleeper_reader : ∃ s, exec (kernStep 2 pipeClient) (pipeInit (fun _ => 0))
    readerSleeps = some s ∧ (s.proc 0).state = .SLEEPING ∧ NoStrandedSleeper s := by
  obtain ⟨s, hs, hstate⟩ : ∃ s, exec (kernStep 2 pipeClient) (pipeInit (fun _ => 0))
      readerSleeps = some s ∧ (s.proc 0).state = .SLEEPING := ⟨_, rfl, rfl⟩
  refine ⟨s, hs, hstate, no_stranded_sleeper ?_ hs⟩
  unfold readerSleeps
  iterate 4
    refine ⟨(by intro w i h; cases h), fun t ht => ?_⟩
    obtain rfl := Option.some.inj ht
  iterate 4
    refine ⟨trivial, fun t ht => ?_⟩
    obtain rfl := Option.some.inj ht
  trivial

/-- Process 1 then writes: it stores a byte, is killed, and leaves without a `wakeup`. -/
def killedWriterLeaves : List (Event PipeAct) :=
  [.client 1 (.pipewrite (fun _ => some 7) 2), .client 1 .go, .client 1 .go, .client 1 .go,
    .client 1 .go, .client 1 .go, .kill 1, .client 1 .go, .client 1 .go]

/-- The reader sleeps on `&pi->nread`, the pipe holds a byte and `pi->lock` is free. -/
theorem killed_writer_strands_reader : ∃ s, exec (kernStep 2 pipeClient) (pipeInit (fun _ => 0))
    (readerSleeps ++ killedWriterLeaves) = some s ∧ ¬ NoStrandedSleeper s := by
  refine ⟨_, rfl, fun h => ?_⟩
  have hbad := ((h rfl 0 rfl).1 rfl).1
  revert hbad
  decide

end Xv6
