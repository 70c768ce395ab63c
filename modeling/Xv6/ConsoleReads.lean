import Xv6.ConsoleHistory

/-! Whole runs of the console: any number of `consoleread` calls and input characters in any order
that `cons.lock` allows. The reads take the stream of the line discipline, and one at a time they
return it in order. -/
namespace Xv6

section Lock

/-- The points of console.c at which `cons.lock` is held. -/
def ConsPt.holds : ConsPt → Prop
  | .user | .readAcquire _ | .intrAcquire _ => False
  | _ => True

/-- Only who holds which lock matters here, so nobody is owed a `wakeup`. -/
def consMonitor : Monitor Unit ConsPt ConsG where
  holds := ConsPt.holds
  holdsP := fun _ _ => False
  resumes := fun k => ∃ c got, k = .readWait c got
  owes := fun _ _ => False
  calm := fun _ _ => True

theorem cons_calmQuiet : consMonitor.CalmQuiet := fun _ _ _ _ _ => trivial

variable {N : ℕ} {s s' : ConsKern} {t : ℕ} {k : ConsPt} {p : Pc Unit ConsPt}

theorem cons_locked (hi : consMonitor.Inv N s) (ht : t < N) (hk : s.pc t = .run k)
    (hm : consMonitor.Moves s s' t p) (hlk : s'.lk = s.lk) (hh : k.holds) (hh' : consMonitor.holdsLk p) :
    consMonitor.Inv N s' :=
  Monitor.inv_locked_move hi hk hm hh ht (fun _ _ _ _ => .inl trivial) hlk hh' (fun _ _ => trivial)

theorem Cons.take_cases (c : Cons) (rd : ConsRead) (got : List (BitVec 8)) :
    (c.at c.r = ctrlD ∧ got = [] ∧ c.take rd got = ({ c with r := c.r + 1 }, .readReturn (some got))) ∨
    (c.at c.r = ctrlD ∧ got ≠ [] ∧ c.take rd got = (c, .readReturn (some got))) ∨
    (c.at c.r ≠ ctrlD ∧ rd.dst got.length = true ∧ c.take rd got = ({ c with r := c.r + 1 },
      if c.at c.r = newline then .readReturn (some (got ++ [c.at c.r])) else .readLoop rd (got ++ [c.at c.r]))) ∨
    (c.at c.r ≠ ctrlD ∧ rd.dst got.length = false ∧
      c.take rd got = ({ c with r := c.r + 1 }, .readReturn (some got))) := by
  simp only [Cons.take]
  by_cases hD : c.at c.r = ctrlD
  · rw [if_pos hD]
    by_cases hgot : got = []
    · exact .inl ⟨hD, hgot, by rw [if_pos hgot]⟩
    · exact .inr (.inl ⟨hD, hgot, by rw [if_neg hgot]⟩)
  · rw [if_neg hD]
    by_cases hdst : rd.dst got.length = true
    · exact .inr (.inr (.inl ⟨hD, hdst, by rw [if_pos hdst]⟩))
    · exact .inr (.inr (.inr ⟨hD, Bool.eq_false_of_not_eq_true hdst, by rw [if_neg hdst]⟩))

theorem Cons.take_holds (c : Cons) (rd : ConsRead) (got : List (BitVec 8)) : (c.take rd got).2.holds := by
  rcases c.take_cases rd got with ⟨-, -, h⟩ | ⟨-, -, h⟩ | ⟨-, -, h⟩ | ⟨-, -, h⟩
  · rw [h]
    trivial
  · rw [h]
    trivial
  · rw [h]
    change (if _ then _ else _ : ConsPt).holds
    split <;> trivial
  · rw [h]
    trivial

theorem consoleStep_inv {a : ConsAct} (hi : consMonitor.Inv N s) (ht : t < N) (hk : s.pc t = .run k)
    (h : consoleStep s t k a = some s') : consMonitor.Inv N s' := by
  unfold consoleStep at h
  split at h
  · cases h
    exact Monitor.inv_free_move hi hk (.of_eq hi hk rfl rfl rfl ⟨trivial, rfl⟩) (fun _ _ => trivial) id rfl id rfl
  · cases h
    exact Monitor.inv_free_move hi hk (.of_eq hi hk rfl rfl rfl ⟨trivial, rfl⟩) (fun _ _ => trivial) id rfl id rfl
  · obtain ⟨hlk, h⟩ := Option.ite_none_right_eq_some.mp h
    cases h
    exact Monitor.inv_acquire hi (.of_eq hi hk rfl rfl rfl ⟨trivial, rfl⟩) (fun _ _ => trivial) hlk rfl trivial rfl
  · split at h
    · cases h
      exact cons_locked hi ht hk (.of_eq hi hk rfl rfl rfl ⟨trivial, rfl⟩) rfl trivial trivial
    · cases h
      exact cons_locked hi ht hk (.of_eq hi hk rfl rfl rfl ⟨trivial, rfl⟩) rfl trivial trivial
  · split at h
    · cases h
      exact cons_locked hi ht hk (.of_eq hi hk rfl rfl rfl ⟨trivial, rfl⟩) rfl trivial trivial
    · cases h
      exact cons_locked hi ht hk (.of_eq hi hk rfl rfl rfl ⟨trivial, rfl⟩) rfl trivial trivial
  · obtain ⟨-, h⟩ := Option.ite_none_right_eq_some.mp h
    split at h
    · cases h
      exact cons_locked hi ht hk (.of_eq hi hk rfl rfl rfl ⟨trivial, rfl⟩) rfl trivial trivial
    · cases h
      exact cons_locked hi ht hk (.of_eq hi hk rfl rfl rfl ⟨⟨⟨_, _, rfl⟩, trivial, fun _ => id⟩, rfl⟩) rfl trivial trivial
  · cases h
    exact cons_locked hi ht hk (.of_eq hi hk rfl rfl rfl ⟨trivial, rfl⟩) rfl trivial (Cons.take_holds _ _ _)
  · cases h
    exact Monitor.inv_release hi hk (.of_eq hi hk rfl rfl rfl ⟨trivial, rfl⟩) (fun _ _ => trivial) trivial
      (fun _ => id) rfl id rfl
  · obtain ⟨hlk, h⟩ := Option.ite_none_right_eq_some.mp h
    cases h
    exact Monitor.inv_acquire hi (.of_eq hi hk rfl rfl rfl ⟨trivial, rfl⟩) (fun _ _ => trivial) hlk rfl trivial rfl
  · next ch =>
    rcases hintr : s.g.cons.intr ch with ⟨c, wake⟩
    rw [hintr] at h
    cases wake <;> cases h
    · exact cons_locked hi ht hk (.of_eq hi hk rfl rfl rfl ⟨trivial, rfl⟩) rfl trivial trivial
    · exact cons_locked hi ht hk (.of_eq hi hk rfl rfl rfl ⟨trivial, rfl⟩) rfl trivial trivial
  · cases h
    exact Monitor.inv_release hi hk (.of_eq hi hk rfl rfl rfl ⟨trivial, rfl⟩) (fun _ _ => trivial) trivial
      (fun _ => id) rfl id rfl
  · cases h

theorem console_kernStep_inv {e : Event ConsAct} (hi : consMonitor.Inv N s)
    (h : kernStep N consoleClient s e = some s') : consMonitor.Inv N s' := by
  refine Monitor.kernStep_inv cons_calmQuiet ?_ ?_ hi h
  · intro k hk
    cases k <;> first | exact ⟨id, fun _ => id⟩ | cases hk
  · rintro t k a - ht hk hstep
    exact consoleStep_inv hi ht hk hstep

end Lock

section Steps

/-- The steps of console.c that neither type nor take anything. -/
inductive ConsMove (c : Cons) : ConsPt → ConsPt → Prop where
  | interrupt (ch : BitVec 8) : ConsMove c .user (.intrAcquire ch)
  | acquire (rd : ConsRead) : ConsMove c (.readAcquire rd) (.readLoop rd [])
  | more (rd : ConsRead) (got : List (BitVec 8)) : ConsMove c (.readLoop rd got) (.readWait rd got)
  | enough (rd : ConsRead) (got : List (BitVec 8)) : ConsMove c (.readLoop rd got) (.readReturn (some got))
  | empty (rd : ConsRead) (got : List (BitVec 8)) : ConsMove c (.readWait rd got) (.readKilled rd got)
  | ready (rd : ConsRead) (got : List (BitVec 8)) (h : c.r ≠ c.w) : ConsMove c (.readWait rd got) (.readByte rd got)
  | killed (rd : ConsRead) (got : List (BitVec 8)) : ConsMove c (.readKilled rd got) (.readReturn none)
  | sleep (rd : ConsRead) (got : List (BitVec 8)) : ConsMove c (.readKilled rd got) (.readWait rd got)
  | intrAcquire (ch : BitVec 8) : ConsMove c (.intrAcquire ch) (.intrBody ch)
  | intrReturn : ConsMove c .intrReturn .user

/-- What a step of thread `t` at the point `k` can do to the stream and to the reads. -/
inductive ConsClient (s s' : ConsKern) (t : ℕ) (a : ConsAct) : ConsPt → Prop where
  | start (dst : ℕ → Bool) (n : ℤ) (ha : a = .consoleread dst n)
    (hpc : s'.pc = update s.pc t (.run (.readAcquire ⟨dst, n⟩))) (hg : s'.g = s.g) :
    ConsClient s s' t a .user
  | move {k : ConsPt} {p : Pc Unit ConsPt} (hmove : ConsMove s.g.cons k p.point)
    (hobs : ∀ h, consObs s (.client t a) h = h) (hpc : s'.pc = update s.pc t p) (hg : s'.g = s.g) :
    ConsClient s s' t a k
  | take (rd : ConsRead) (got : List (BitVec 8))
    (hobs : ∀ h, consObs s (.client t a) h = h.add (takeEvent s.g.cons got (h.call t)))
    (hpc : s'.pc = update s.pc t (.run (s.g.cons.take rd got).2))
    (hg : s'.g = { s.g with cons := (s.g.cons.take rd got).1 }) : ConsClient s s' t a (.readByte rd got)
  | ret (res : Option (List (BitVec 8))) (hobs : ∀ h, consObs s (.client t a) h = h.add (.ret (h.call t) res))
    (hpc : s'.pc = update s.pc t (.run .user)) (hg : s'.g = { s.g with returned := s.g.returned ++ [res] }) :
    ConsClient s s' t a (.readReturn res)
  | key (ch : BitVec 8) {p : Pc Unit ConsPt} (hobs : ∀ h, consObs s (.client t a) h = h.add (.key ch))
    (hpc : s'.pc = update s.pc t p) (hp : p.point = .intrReturn)
    (hg : s'.g = { s.g with cons := (s.g.cons.intr ch).1, input := s.g.input ++ [ch] }) :
    ConsClient s s' t a (.intrBody ch)

theorem consObs_go {s : ConsKern} {t : ℕ} {k : ConsPt} (hk : s.pc t = .run k) (h : ConsHist) :
    consObs s (.client t .go) h = match k with
      | .intrBody ch => h.add (.key ch)
      | .readByte _ got => h.add (takeEvent s.g.cons got (h.call t))
      | .readReturn res => h.add (.ret (h.call t) res)
      | _ => h := by
  simp only [consObs, hk]
  cases k <;> rfl

theorem consoleStep_client {s s' : ConsKern} {t : ℕ} {k : ConsPt} {a : ConsAct} (hk : s.pc t = .run k)
    (h : consoleStep s t k a = some s') : ConsClient s s' t a k := by
  unfold consoleStep at h
  split at h
  · cases h
    exact .start _ _ rfl rfl rfl
  · cases h
    exact .move (.interrupt _) (fun _ => rfl) rfl rfl
  · obtain ⟨-, h⟩ := Option.ite_none_right_eq_some.mp h
    cases h
    exact .move (.acquire _) (consObs_go hk) rfl rfl
  · split at h
    · cases h
      exact .move (.more _ _) (consObs_go hk) rfl rfl
    · cases h
      exact .move (.enough _ _) (consObs_go hk) rfl rfl
  · split at h
    · cases h
      exact .move (.empty _ _) (consObs_go hk) rfl rfl
    · next hne =>
      cases h
      exact .move (.ready _ _ hne) (consObs_go hk) rfl rfl
  · obtain ⟨-, h⟩ := Option.ite_none_right_eq_some.mp h
    split at h
    · cases h
      exact .move (.killed _ _) (consObs_go hk) rfl rfl
    · cases h
      exact .move (.sleep _ _) (consObs_go hk) rfl rfl
  · cases h
    exact .take _ _ (consObs_go hk) rfl rfl
  · cases h
    exact .ret _ (consObs_go hk) rfl rfl
  · obtain ⟨-, h⟩ := Option.ite_none_right_eq_some.mp h
    cases h
    exact .move (.intrAcquire _) (consObs_go hk) rfl rfl
  · next ch =>
    cases h
    by_cases hw : (s.g.cons.intr ch).2 = true
    · exact .key ch (consObs_go hk) (congrArg (update s.pc t) (if_pos hw)) rfl rfl
    · exact .key ch (consObs_go hk) (congrArg (update s.pc t) (if_neg hw)) rfl rfl
  · cases h
    exact .move .intrReturn (consObs_go hk) rfl rfl
  · cases h

end Steps

section Runs

/-- The invariant of a run with its history. -/
structure ConsInv (N : ℕ) (s : ConsKern) (h : ConsHist) : Prop where
  monitor : consMonitor.Inv N s
  stream : StreamOk s.g.cons h.events
  calls : CallsOk (fun u => (s.pc u).point) h
  tested : ∀ t c got, (s.pc t).point = .readByte c got → s.g.cons.r ≠ s.g.cons.w
  input : s.g.input = h.events.filterMap ConsEvent.typed
  returned : s.g.returned = h.events.filterMap ConsEvent.result

/-- Every destination can be written. -/
def ValidDst : Event ConsAct → Prop
  | .client _ (.consoleread dst _) => ∀ i, dst i = true
  | _ => True

variable {N : ℕ} {s s' : ConsKern} {h : ConsHist} {t : ℕ} {k : ConsPt} {p : Pc Unit ConsPt}

theorem points_update (pc : ℕ → Pc Unit ConsPt) (t : ℕ) (p : Pc Unit ConsPt) :
    (fun u => (update pc t p u).point) = update (fun u => (pc u).point) t p.point := by
  funext u
  exact Function.apply_update (fun _ q => Pc.point q) pc t p u

theorem ConsInv.tested_update (hi : ConsInv N s h) (hk : s.pc t = .run k) (hpc : s'.pc = update s.pc t p)
    (hcase : s'.g.cons = s.g.cons ∨ k.holds)
    (hp : ∀ c got, p.point = .readByte c got → s'.g.cons.r ≠ s'.g.cons.w) (u : ℕ) (c : ConsRead)
    (got : List (BitVec 8)) (hu : (s'.pc u).point = .readByte c got) : s'.g.cons.r ≠ s'.g.cons.w := by
  rw [hpc] at hu
  by_cases hut : u = t
  · rw [hut, update_self] at hu
    exact hp c got hu
  · rw [update_of_ne hut] at hu
    rcases hcase with hcons | hh
    · rw [hcons]
      exact hi.tested u c got hu
    · have ht : s.lk = some t := (hi.monitor.lk t).mpr (by rw [hk]; exact hh)
      have hu' : s.lk = some u := by
        apply Monitor.holdsLk_of_point hi.monitor
        · rw [hu]
          trivial
        · rw [hu]
          rintro ⟨c', got', hc⟩
          cases hc
      rw [ht] at hu'
      exact absurd (Option.some.inj hu').symm hut

theorem ConsMove.inRead {c : Cons} {k k' : ConsPt} (h : ConsMove c k k') : k'.inRead ↔ k.inRead := by
  cases h <;> exact .rfl

theorem ConsMove.callOk {c : Cons} {k k' : ConsPt} (h : ConsMove c k k') {st : Option CallSt} (hk : k.CallOk st) :
    k'.CallOk st := by
  cases h with
  | enough rd got => exact ⟨.reading, CallPhase.noConfusion, hk.1⟩
  | killed rd got => exact ⟨got, hk.1⟩
  | interrupt | intrAcquire | intrReturn => trivial
  | _ => exact hk

theorem ConsInv.move (hi : ConsInv N s h) (hm : consMonitor.Inv N s') (hk : s.pc t = .run k)
    (hpc : s'.pc = update s.pc t p) (hg : s'.g = s.g) (hmove : ConsMove s.g.cons k p.point) :
    ConsInv N s' h := by
  have hpt : (s.pc t).point = k := by rw [hk]; rfl
  refine ⟨hm, by rw [hg]; exact hi.stream, ?_, ?_, by rw [hg]; exact hi.input, by rw [hg]; exact hi.returned⟩
  · rw [hpc, points_update]
    refine hi.calls.move ?_ ?_
    · rw [hpt]
      exact hmove.inRead.mp
    · rw [hpt]
      exact hmove.callOk
  · refine hi.tested_update hk hpc (.inl (by rw [hg])) (fun c got hc => ?_)
    rw [hg]
    rw [hc] at hmove
    cases hmove with
    | ready _ _ hne => exact hne

theorem ConsInv.take (hi : ConsInv N s h) {c : ConsRead} {got : List (BitVec 8)} (hk : s.pc t = .run (.readByte c got))
    (hm : consMonitor.Inv N s') (hpc : s'.pc = update s.pc t (.run (s.g.cons.take c got).2))
    (hg : s'.g = { s.g with cons := (s.g.cons.take c got).1 }) :
    ConsInv N s' (h.add (takeEvent s.g.cons got (h.call t))) := by
  have hpt : (s.pc t).point = .readByte c got := by rw [hk]; rfl
  have hcall := hi.calls.points t
  have hne := hi.tested t c got hpt
  have hin : (s.pc t).point.inRead := by rw [hpt]; trivial
  rw [hpt] at hcall
  obtain ⟨hst, hvalid⟩ := hcall
  have htested (hp : ∀ c' got', (s.g.cons.take c got).2 ≠ .readByte c' got') (u : ℕ) (c' : ConsRead)
      (got' : List (BitVec 8)) (hu : (s'.pc u).point = .readByte c' got') : s'.g.cons.r ≠ s'.g.cons.w :=
    hi.tested_update hk hpc (.inr trivial) (fun c' got' heq => absurd heq (hp c' got')) u c' got' hu
  have hinput (ev : ConsEvent) (hev : ev.typed = none) : s'.g.input = (h.events ++ [ev]).filterMap ConsEvent.typed := by
    rw [filterMap_concat_none _ hev, hg]
    exact hi.input
  have hret (ev : ConsEvent) (hev : ev.result = none) :
      s'.g.returned = (h.events ++ [ev]).filterMap ConsEvent.result := by
    rw [filterMap_concat_none _ hev, hg]
    exact hi.returned
  rcases s.g.cons.take_cases c got with ⟨hD, hgot, htake⟩ | ⟨hD, hgot, htake⟩ | ⟨hD, -, htake⟩ | ⟨-, hdst, -⟩
  · -- a ^D ends a read without bytes
    rw [takeEvent, if_pos hD, if_pos hgot]
    rw [htake] at hpc hg htested
    refine ⟨hm, ?_, ?_, htested (fun _ _ => ConsPt.noConfusion), hinput _ rfl, hret _ rfl⟩
    · rw [hg]
      exact hi.stream.take hne (by rw [hD]; rfl) (fun _ _ => ConsEvent.noConfusion)
    · rw [hpc, points_update]
      refine hi.calls.event (s := ⟨got, .ended⟩) hin rfl ?_ ⟨.ended, CallPhase.noConfusion, rfl⟩
      rw [hst, Option.bind_some, callStep, if_pos ⟨rfl, hgot⟩]
  · -- a ^D after some bytes stays
    rw [takeEvent, if_pos hD, if_neg hgot]
    rw [htake] at hpc hg htested
    refine ⟨hm, ?_, ?_, htested (fun _ _ => ConsPt.noConfusion), hinput _ rfl, hret _ rfl⟩
    · rw [hg]
      exact hi.stream.leave _ hne hD
    · rw [hpc, points_update]
      refine hi.calls.event (s := ⟨got, .ended⟩) hin rfl ?_ ⟨.ended, CallPhase.noConfusion, rfl⟩
      rw [hst, Option.bind_some, callStep, if_pos ⟨rfl, hgot⟩]
  · rw [takeEvent, if_neg hD]
    rw [htake] at hpc hg htested
    refine ⟨hm, ?_, ?_, htested ?_, hinput _ rfl, hret _ rfl⟩
    · rw [hg]
      refine hi.stream.take hne rfl (fun call ch heq => ?_)
      cases heq
      exact hD
    · rw [hpc, points_update]
      by_cases hnl : s.g.cons.at s.g.cons.r = newline
      · refine hi.calls.event (s := ⟨got ++ [s.g.cons.at s.g.cons.r], .ended⟩) hin rfl ?_ ?_
        · rw [hst, Option.bind_some, callStep, if_pos ⟨rfl, hD⟩, if_pos hnl]
        · rw [if_pos hnl]
          exact ⟨.ended, CallPhase.noConfusion, rfl⟩
      · refine hi.calls.event (s := ⟨got ++ [s.g.cons.at s.g.cons.r], .reading⟩) hin rfl ?_ ?_
        · rw [hst, Option.bind_some, callStep, if_pos ⟨rfl, hD⟩, if_neg hnl]
        · rw [if_neg hnl]
          exact ⟨rfl, hvalid⟩
    · intro c' got'
      change (if _ then _ else _ : ConsPt) ≠ _
      split <;> exact ConsPt.noConfusion
  · rw [hvalid] at hdst
    cases hdst

theorem ConsInv.key (hi : ConsInv N s h) {ch : BitVec 8} (hk : s.pc t = .run (.intrBody ch))
    (hm : consMonitor.Inv N s') (hpc : s'.pc = update s.pc t p) (hp : p.point = .intrReturn)
    (hg : s'.g = { s.g with cons := (s.g.cons.intr ch).1, input := s.g.input ++ [ch] }) :
    ConsInv N s' (h.add (.key ch)) := by
  refine ⟨hm, by rw [hg]; exact hi.stream.key ch, ?_, hi.tested_update hk hpc (.inr trivial) ?_, ?_, ?_⟩
  · rw [hpc, points_update, hp]
    exact (hi.calls.move (k := .intrReturn) False.elim (fun _ => trivial)).key ch
  · intro c got hc
    rw [hp] at hc
    cases hc
  · have hev : (ConsEvent.key ch).typed = some ch := rfl
    rw [ConsHist.add, filterMap_concat_some h.events hev, hg, ← hi.input]
  · rw [ConsHist.add, filterMap_concat_none h.events rfl, hg]
    exact hi.returned

theorem ConsInv.client {a : ConsAct} (hi : ConsInv N s h) (ht : t < N) (hk : s.pc t = .run k)
    (hvalid : ValidDst (.client t a)) (hstep : consoleStep s t k a = some s') :
    ConsInv N s' (consObs s (.client t a) h) := by
  have hm := consoleStep_inv hi.monitor ht hk hstep
  have hpt : (s.pc t).point = k := by rw [hk]; rfl
  cases consoleStep_client hk hstep with
  | start dst n ha hpc hg =>
    subst ha
    refine ⟨hm, by rw [hg]; exact hi.stream, ?_, ?_, by rw [hg]; exact hi.input, by rw [hg]; exact hi.returned⟩
    · rw [hpc, points_update]
      exact hi.calls.start (fun st hst => ⟨hst, hvalid⟩)
    · exact hi.tested_update hk hpc (.inl (by rw [hg])) (fun _ _ hc => by cases hc)
  | move hmove hobs hpc hg =>
    rw [hobs]
    exact hi.move hm hk hpc hg hmove
  | take rd got hobs hpc hg =>
    rw [hobs]
    exact hi.take hk hm hpc hg
  | ret res hobs hpc hg =>
    rw [hobs]
    have hcall := hi.calls.points t
    have hin : (s.pc t).point.inRead := by rw [hpt]; trivial
    rw [hpt] at hcall
    refine ⟨hm, by rw [hg]; exact hi.stream.ret _ _, ?_, ?_, ?_, ?_⟩
    · rw [hpc, points_update]
      cases res with
      | none =>
        obtain ⟨got, hst⟩ := hcall
        refine hi.calls.event (s := ⟨got, .returned⟩) hin rfl ?_ trivial
        rw [hst, Option.bind_some, callStep, if_pos rfl]
      | some got =>
        obtain ⟨ph, hph, hst⟩ := hcall
        refine hi.calls.event (s := ⟨got, .returned⟩) hin rfl ?_ trivial
        rw [hst, Option.bind_some, callStep, if_pos ⟨hph, rfl⟩]
    · exact hi.tested_update hk hpc (.inl (by rw [hg])) (fun _ _ hc => by cases hc)
    · rw [ConsHist.add, filterMap_concat_none h.events rfl, hg]
      exact hi.input
    · have hev : (ConsEvent.ret (h.call t) res).result = some res := rfl
      rw [ConsHist.add, filterMap_concat_some h.events hev, hg, ← hi.returned]
  | key ch hobs hpc hp hg =>
    rw [hobs]
    exact hi.key hk hm hpc hp hg

theorem ConsInv.step {e : Event ConsAct} (hvalid : ValidDst e) (hstep : kernStep N consoleClient s e = some s')
    (hi : ConsInv N s h) : ConsInv N s' (consObs s e h) := by
  rcases kernStep_cases hstep with ⟨t, k, a, rfl, ht, hk, hclient⟩ | ⟨hno, hg, hnext⟩
  · exact hi.client ht hk hvalid hclient
  · have hobs : consObs s e h = h := by
      cases e with
      | client t a => exact absurd rfl (hno t a)
      | _ => rfl
    have hpt (u : ℕ) : (s'.pc u).point = (s.pc u).point := by
      rcases hnext u with heq | hn
      · rw [heq]
      · exact hn.point_eq
    rw [hobs]
    refine ⟨console_kernStep_inv hi.monitor hstep, by rw [hg]; exact hi.stream, ?_, ?_, by rw [hg]; exact hi.input,
      by rw [hg]; exact hi.returned⟩
    · rw [funext hpt]
      exact hi.calls
    · intro u c got hu
      rw [hg]
      exact hi.tested u c got ((hpt u).symm.trans hu)

theorem consInv_init (N : ℕ) : ConsInv N consoleInit ⟨0, fun _ => 0, []⟩ := by
  refine ⟨⟨?_, ?_, ?_, ?_, ?_⟩, ⟨?_, rfl, ?_, ?_⟩, ⟨fun _ => trivial, ?_, ?_, fun _ _ => rfl, fun _ => rfl⟩, ?_, rfl, rfl⟩
  · simp [consoleInit, Monitor.holdsLk, consMonitor, ConsPt.holds]
  · simp [consoleInit, Monitor.holdsPl, consMonitor]
  · simp [consoleInit, Monitor.ContOk]
  · simp [consoleInit, Monitor.StateOk]
  · simp [consoleInit, AsleepOn, Pc.bound]
  · exact ⟨le_refl _, rfl, rfl, Nat.zero_le _, List.not_mem_nil⟩
  · intro call ch hmem
    cases hmem
  · intro a call b heq
    exact absurd heq.symm (by simp)
  · exact fun _ hread => hread.elim
  · exact fun _ _ hread => hread.elim
  · intro t c got hc
    cases hc

end Runs

section Sequential

/-- A `consoleread` begins only when no other is under way. -/
def Alone (s : ConsKern) : Event ConsAct → Prop
  | .client _ (.consoleread _ _) => ∀ u, ¬ (s.pc u).point.inRead
  | _ => True

/-- The bytes that the read at this point has copied. -/
def ConsPt.hand : ConsPt → List (BitVec 8)
  | .readLoop _ got | .readWait _ got | .readKilled _ got | .readByte _ got | .readReturn (some got) => got
  | _ => []

/-- The bytes of all reads that have returned. -/
def returnedBytes (rets : List (Option (List (BitVec 8)))) : List (BitVec 8) := (rets.filterMap id).flatten

/-- With one read at a time, what the reads have returned and what the current one has in hand is
all that was copied, as long as none was killed. -/
structure SeqOk (pt : ℕ → ConsPt) (rets : List (Option (List (BitVec 8)))) (evs : List ConsEvent) : Prop where
  one : ∀ t u, (pt t).inRead → (pt u).inRead → t = u
  idle : none ∉ rets → (∀ t, ¬ (pt t).inRead) → returnedBytes rets = evs.filterMap ConsEvent.copied
  busy : none ∉ rets → ∀ t, (pt t).inRead → pt t ≠ .readReturn none →
    returnedBytes rets ++ (pt t).hand = evs.filterMap ConsEvent.copied
  before : none ∉ rets → returnedBytes rets <+: evs.filterMap ConsEvent.copied

theorem ConsMove.hand {c : Cons} {k k' : ConsPt} (h : ConsMove c k k') (hk : k.inRead) :
    k ≠ .readReturn none ∧ (k' = .readReturn none ∨ k'.hand = k.hand) := by
  cases h with
  | interrupt | intrAcquire | intrReturn => exact hk.elim
  | killed => exact ⟨ConsPt.noConfusion, .inl rfl⟩
  | _ => exact ⟨ConsPt.noConfusion, .inr rfl⟩

namespace SeqOk

variable {pt : ℕ → ConsPt} {rets : List (Option (List (BitVec 8)))} {evs evs' : List ConsEvent} {t : ℕ} {k : ConsPt}

/-- The bytes `x` are copied by the read of thread `t`, if it is in one. -/
theorem step (h : SeqOk pt rets evs) (x : List (BitVec 8)) (hread : k.inRead ↔ (pt t).inRead)
    (hcopy : evs'.filterMap ConsEvent.copied = evs.filterMap ConsEvent.copied ++ x)
    (hhand : (pt t).inRead → pt t ≠ .readReturn none ∧ (k = .readReturn none ∨ k.hand = (pt t).hand ++ x))
    (hx : ¬ (pt t).inRead → x = []) : SeqOk (update pt t k) rets evs' := by
  have hin (u : ℕ) : (update pt t k u).inRead ↔ (pt u).inRead := by
    by_cases hut : u = t
    · rw [hut, update_self]
      exact hread
    · rw [update_of_ne hut]
  refine ⟨fun u v hu hv => h.one u v ((hin u).mp hu) ((hin v).mp hv), fun hno hidle => ?_,
    fun hno u hu hne => ?_, fun hno => ?_⟩
  · have hidle' (u : ℕ) : ¬ (pt u).inRead := fun hu => hidle u ((hin u).mpr hu)
    rw [hcopy, hx (hidle' t), List.append_nil]
    exact h.idle hno hidle'
  · have hu' := (hin u).mp hu
    by_cases hut : u = t
    · subst hut
      rw [update_self] at hne ⊢
      obtain ⟨hne', heq | heq⟩ := hhand hu'
      · exact absurd heq hne
      · rw [heq, hcopy, ← h.busy hno u hu' hne', List.append_assoc]
    · rw [update_of_ne hut] at hne ⊢
      rw [hcopy, hx (fun ht => hut (h.one u t hu' ht)), List.append_nil]
      exact h.busy hno u hu' hne
  · rw [hcopy]
    exact (h.before hno).trans (List.prefix_append _ _)

theorem start (h : SeqOk pt rets evs) (hidle : ∀ u, ¬ (pt u).inRead) (rd : ConsRead) :
    SeqOk (update pt t (.readAcquire rd)) rets evs := by
  have honly (u : ℕ) (hu : (update pt t (.readAcquire rd) u).inRead) : u = t := by
    by_contra hut
    rw [update_of_ne hut] at hu
    exact hidle u hu
  refine ⟨fun u v hu hv => (honly u hu).trans (honly v hv).symm, fun _ hno => ?_, fun hno u hu _ => ?_, h.before⟩
  · refine absurd ?_ (hno t)
    rw [update_self]
    trivial
  · rw [honly u hu, update_self]
    exact (List.append_nil _).trans (h.idle hno hidle)

theorem ret (h : SeqOk pt rets evs) {res : Option (List (BitVec 8))} (hpt : pt t = .readReturn res) (call : ℕ) :
    SeqOk (update pt t .user) (rets ++ [res]) (evs ++ [.ret call res]) := by
  have hin : (pt t).inRead := by rw [hpt]; trivial
  have hidle (u : ℕ) : ¬ (update pt t .user u).inRead := by
    by_cases hut : u = t
    · rw [hut, update_self]
      exact id
    · rw [update_of_ne hut]
      exact fun hu => hut (h.one u t hu hin)
  have hall (hno : none ∉ rets ++ [res]) :
      returnedBytes (rets ++ [res]) = (evs ++ [ConsEvent.ret call res]).filterMap ConsEvent.copied := by
    rw [List.mem_append, not_or] at hno
    rw [filterMap_concat_none evs rfl]
    cases res with
    | none => exact absurd (List.mem_singleton_self _) hno.2
    | some got =>
      have hbusy := h.busy hno.1 t hin (by rw [hpt]; exact fun hc => by cases hc)
      rw [hpt] at hbusy
      have hsome : id (some got) = some got := rfl
      rw [returnedBytes, filterMap_concat_some rets hsome, List.flatten_concat]
      exact hbusy
  refine ⟨fun u _ hu => absurd hu (hidle u), fun hno _ => hall hno, fun _ u hu => absurd hu (hidle u), fun hno => ?_⟩
  rw [hall hno]

end SeqOk

variable {N : ℕ} {s s' : ConsKern} {h : ConsHist}

theorem SeqOk.client {t : ℕ} {k : ConsPt} {a : ConsAct} (hi : ConsInv N s h) (hk : s.pc t = .run k)
    (halone : Alone s (.client t a)) (hstep : consoleStep s t k a = some s')
    (hs : SeqOk (fun u => (s.pc u).point) s.g.returned h.events) :
    SeqOk (fun u => (s'.pc u).point) s'.g.returned (consObs s (.client t a) h).events := by
  have hpt : (s.pc t).point = k := by rw [hk]; rfl
  have hcall := hi.calls.points t
  rw [hpt] at hcall
  cases consoleStep_client hk hstep with
  | start dst n ha hpc hg =>
    subst ha
    rw [hpc, points_update, hg]
    exact hs.start halone _
  | move hmove hobs hpc hg =>
    rw [hobs, hpc, points_update, hg]
    refine hs.step [] ?_ (List.append_nil _).symm ?_ (fun _ => rfl)
    · rw [hpt]
      exact hmove.inRead
    · rw [hpt, List.append_nil]
      exact hmove.hand
  | take rd got hobs hpc hg =>
    rw [hobs, hpc, points_update, hg]
    rcases s.g.cons.take_cases rd got with ⟨hD, hgot, htake⟩ | ⟨hD, hgot, htake⟩ | ⟨hD, -, htake⟩ | ⟨-, hdst, -⟩
    · rw [takeEvent, if_pos hD, if_pos hgot, htake]
      refine hs.step [] (by rw [hpt]; exact .rfl) ?_ ?_ (fun _ => rfl)
      · rw [ConsHist.add, filterMap_concat_none h.events rfl, List.append_nil]
      · rw [hpt]
        exact fun _ => ⟨ConsPt.noConfusion, .inr (List.append_nil _).symm⟩
    · rw [takeEvent, if_pos hD, if_neg hgot, htake]
      refine hs.step [] (by rw [hpt]; exact .rfl) ?_ ?_ (fun _ => rfl)
      · rw [ConsHist.add, filterMap_concat_none h.events rfl, List.append_nil]
      · rw [hpt]
        exact fun _ => ⟨ConsPt.noConfusion, .inr (List.append_nil _).symm⟩
    · rw [takeEvent, if_neg hD, htake]
      refine hs.step [s.g.cons.at s.g.cons.r] ?_ ?_ ?_ (fun hno => absurd ?_ hno)
      · rw [hpt]
        change (if _ then _ else _ : ConsPt).inRead ↔ _
        split <;> exact .rfl
      · have hev : (ConsEvent.byte (h.call t) (s.g.cons.at s.g.cons.r)).copied = some (s.g.cons.at s.g.cons.r) := rfl
        rw [ConsHist.add, filterMap_concat_some h.events hev]
      · rw [hpt]
        refine fun _ => ⟨ConsPt.noConfusion, .inr ?_⟩
        change (if _ then _ else _ : ConsPt).hand = _
        split <;> rfl
      · rw [hpt]
        trivial
    · rw [hcall.2] at hdst
      cases hdst
  | ret res hobs hpc hg =>
    rw [hobs, hpc, points_update, hg]
    exact hs.ret hpt _
  | key ch hobs hpc hp hg =>
    rw [hobs, hpc, points_update, hg]
    refine hs.step [] ?_ ?_ ?_ (fun _ => rfl)
    · rw [hpt, hp]
      exact .rfl
    · rw [ConsHist.add, filterMap_concat_none h.events rfl, List.append_nil]
    · rw [hpt]
      exact False.elim

theorem SeqOk.kern {e : Event ConsAct} (hi : ConsInv N s h) (halone : Alone s e)
    (hstep : kernStep N consoleClient s e = some s') (hs : SeqOk (fun u => (s.pc u).point) s.g.returned h.events) :
    SeqOk (fun u => (s'.pc u).point) s'.g.returned (consObs s e h).events := by
  rcases kernStep_cases hstep with ⟨t, k, a, rfl, -, hk, hclient⟩ | ⟨hno, hg, hnext⟩
  · exact hs.client hi hk halone hclient
  · have hobs : consObs s e h = h := by
      cases e with
      | client t a => exact absurd rfl (hno t a)
      | _ => rfl
    have hpt (u : ℕ) : (s'.pc u).point = (s.pc u).point := by
      rcases hnext u with heq | hn
      · rw [heq]
      · exact hn.point_eq
    rw [hobs, funext hpt, hg]
    exact hs

theorem seqOk_init : SeqOk (fun u => (consoleInit.pc u).point) consoleInit.g.returned [] :=
  ⟨fun _ _ hu => hu.elim, fun _ _ => rfl, fun _ _ hu => hu.elim, fun _ => List.nil_prefix⟩

end Sequential

theorem along_and {σ ε : Type*} {step : σ → ε → Option σ} {C D : σ → ε → Prop} {s : σ} {es : List ε}
    (hc : Along step C s es) (hd : Along step D s es) : Along step (fun s e => C s e ∧ D s e) s es := by
  induction es generalizing s with
  | nil => trivial
  | cons e es ih => exact ⟨⟨hc.1, hd.1⟩, fun t ht => ih (hc.2 t ht) (hd.2 t ht)⟩

section LineDiscipline

variable {N : ℕ} {es : List (Event ConsAct)} {s : ConsKern}

/-- The console in every run. The indices are in order, and the ring holds what was typed and not
yet read. The bytes that the reads copy, in this order, are the beginning of the stream without its
^Ds. Every read does what a read may do. After a ^D that was left the next thing taken is this ^D.
If no two reads overlap and none is killed, what the reads return is the beginning of the stream. -/
theorem console_line_discipline (h : exec (kernStep N consoleClient) consoleInit es = some s)
    (hvalid : ∀ e ∈ es, ValidDst e) :
    (ringCount s.g.cons.r s.g.cons.w ≤ ringCount s.g.cons.r s.g.cons.e ∧
      ringCount s.g.cons.r s.g.cons.e ≤ INPUT_BUF_SIZE) ∧
    (ringContents INPUT_BUF_SIZE s.g.cons.buf s.g.cons.r s.g.cons.w =
        (lineAfter (consHistory N es)).committed.drop (lineAfter (consHistory N es)).consumed ∧
      ringContents INPUT_BUF_SIZE s.g.cons.buf s.g.cons.r s.g.cons.e =
        (lineAfter (consHistory N es)).committed.drop (lineAfter (consHistory N es)).consumed ++
          (lineAfter (consHistory N es)).pending) ∧
    (s.g.input = (consHistory N es).filterMap ConsEvent.typed ∧
      s.g.returned = (consHistory N es).filterMap ConsEvent.result) ∧
    (consHistory N es).filterMap ConsEvent.copied <+:
      (lineAfter (consHistory N es)).committed.filter (fun ch => ch ≠ ctrlD) ∧
    (∀ c, (callAfter c (consHistory N es)).isSome) ∧
    (∀ a call b, consHistory N es = a ++ .left call :: b →
      b.filterMap ConsEvent.taken = [] ∨ ∃ rest, b.filterMap ConsEvent.taken = ctrlD :: rest) ∧
    (Along (kernStep N consoleClient) Alone consoleInit es → none ∉ s.g.returned →
      returnedBytes s.g.returned <+: (lineAfter (consHistory N es)).committed.filter (fun ch => ch ≠ ctrlD)) := by
  have hi : ConsInv N s (history (kernStep N consoleClient) consObs consoleInit es ⟨0, fun _ => 0, []⟩) :=
    history_invariant_along (fun _ _ _ _ hv hstep hi => hi.step hv hstep) (along_of_forall hvalid) h (consInv_init N)
  have hstream : StreamOk s.g.cons (consHistory N es) := hi.stream
  refine ⟨⟨hstream.holds.written_le, hstream.holds.le⟩, ⟨hstream.holds.contents_written, hstream.holds.contents⟩,
    ⟨hi.input, hi.returned⟩, hstream.copied_prefix, hi.calls.accepted, fun a call b heq => ?_, fun halone hno => ?_⟩
  · exact (hstream.left a call b heq).imp_left And.left
  · have hpair : ∀ s e s' x, ValidDst e ∧ Alone s e → kernStep N consoleClient s e = some s' →
        (ConsInv N s x ∧ SeqOk (fun u => (s.pc u).point) s.g.returned x.events) →
        ConsInv N s' (consObs s e x) ∧ SeqOk (fun u => (s'.pc u).point) s'.g.returned (consObs s e x).events :=
      fun s e s' x hc hstep hi => ⟨hi.1.step hc.1 hstep, hi.2.kern hi.1 hc.2 hstep⟩
    have hboth := history_invariant_along hpair (along_and (along_of_forall hvalid) halone) h
      ⟨consInv_init N, seqOk_init⟩
    exact (hboth.2.before hno).trans hstream.copied_prefix

/-- The interrupt on thread `t` for a character that wakes nobody, and for one that wakes the readers
among three processes. -/
def typing (t : ℕ) (ch : BitVec 8) : List (Event ConsAct) :=
  [.client t (.intr ch), .client t .go, .client t .go, .client t .go]

def typingLast (t : ℕ) (ch : BitVec 8) : List (Event ConsAct) :=
  [.client t (.intr ch), .client t .go, .client t .go, .advance t, .advance t, .advance t, .advance t, .client t .go]

/-- Thread `t` calls `consoleread` for 200 bytes and takes `n`. -/
def reading (t n : ℕ) : List (Event ConsAct) :=
  [.client t (.consoleread (fun _ => true) 200), .client t .go] ++ List.replicate (3 * n) (.client t .go)

theorem validDst_typing (t : ℕ) (ch : BitVec 8) : ∀ e ∈ typing t ch, ValidDst e := by
  simp [typing, ValidDst]

theorem validDst_typingLast (t : ℕ) (ch : BitVec 8) : ∀ e ∈ typingLast t ch, ValidDst e := by
  simp [typingLast, ValidDst]

theorem validDst_reading (t n : ℕ) : ∀ e ∈ reading t n, ValidDst e := by
  intro e he
  rcases List.mem_append.mp he with he | he
  · simp only [List.mem_cons, List.not_mem_nil, or_false] at he
    rcases he with rfl | rfl
    · exact fun _ => rfl
    · trivial
  · rw [List.eq_of_mem_replicate he]
    trivial

/-- Somebody types "x", erases it, types "b" and a newline, and a read returns. -/
def erasedLine : List (Event ConsAct) :=
  typing 2 120 ++ typing 2 ctrlH ++ typing 2 98 ++ typingLast 2 newline ++ reading 0 2 ++ [.client 0 .go]

theorem console_line_discipline_erased : ∃ s, exec (kernStep 3 consoleClient) consoleInit erasedLine = some s ∧
    s.g.returned = [some [98, newline]] ∧
    (consHistory 3 erasedLine).filterMap ConsEvent.copied <+:
      (lineAfter (consHistory 3 erasedLine)).committed.filter (fun ch => ch ≠ ctrlD) := by
  have hrun : (exec (kernStep 3 consoleClient) consoleInit erasedLine).map (fun s => s.g.returned) =
      some [some [98, newline]] := by decide +kernel
  obtain ⟨s, hs, hret⟩ := Option.map_eq_some_iff.mp hrun
  have hvalid : ∀ e ∈ erasedLine, ValidDst e := by
    simp only [erasedLine, List.forall_mem_append]
    exact ⟨⟨⟨⟨⟨validDst_typing _ _, validDst_typing _ _⟩, validDst_typing _ _⟩, validDst_typingLast _ _⟩,
      validDst_reading _ _⟩, by simp [ValidDst]⟩
  exact ⟨s, hs, hret, (console_line_discipline hs hvalid).2.2.2.1⟩

/-- A full buffer without a newline: the read of thread 0 takes it and waits for more, and the read
of thread 1 gets the end of the line. -/
def splitLine : List (Event ConsAct) :=
  (List.replicate 127 (typing 2 97)).flatten ++ typingLast 2 97 ++ reading 0 128 ++
    [.client 0 .go, .client 0 .go, .client 0 .go, .advance 0, .advance 0, .advance 0, .advance 0] ++
    typing 2 98 ++ typingLast 2 newline ++ reading 1 2 ++ [.client 1 .go]

/-- Two reads share a line, and what is returned is not its beginning. -/
theorem split_line_out_of_order : ∃ s, exec (kernStep 3 consoleClient) consoleInit splitLine = some s ∧
    (∀ e ∈ splitLine, ValidDst e) ∧
    ¬ returnedBytes s.g.returned <+: (lineAfter (consHistory 3 splitLine)).committed.filter (fun ch => ch ≠ ctrlD) := by
  have hrun : (exec (kernStep 3 consoleClient) consoleInit splitLine).map (fun s => s.g.returned) =
      some [some [98, newline]] := by decide +kernel
  have hfirst : (lineAfter (consHistory 3 splitLine)).committed.head? = some 97 := by decide +kernel
  obtain ⟨s, hs, hret⟩ := Option.map_eq_some_iff.mp hrun
  refine ⟨s, hs, ?_, fun hprefix => ?_⟩
  · have hmany : ∀ e ∈ (List.replicate 127 (typing 2 97)).flatten, ValidDst e := by
      intro e he
      obtain ⟨l, hl, he⟩ := List.mem_flatten.mp he
      rw [List.eq_of_mem_replicate hl] at he
      exact validDst_typing _ _ e he
    simp only [splitLine, List.forall_mem_append]
    exact ⟨⟨⟨⟨⟨⟨⟨hmany, validDst_typingLast _ _⟩, validDst_reading _ _⟩, by simp [ValidDst]⟩, validDst_typing _ _⟩,
      validDst_typingLast _ _⟩, validDst_reading _ _⟩, by simp [ValidDst]⟩
  · obtain ⟨rest, hrest⟩ := List.head?_eq_some_iff.mp hfirst
    rw [hret, hrest, List.filter_cons_of_pos (by decide)] at hprefix
    exact absurd (List.cons_prefix_cons.mp hprefix).1 (by decide)

end LineDiscipline

end Xv6
