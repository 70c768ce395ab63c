import Xv6.ConsoleLine

/-! The history of a run of the console: what was typed and what the `consoleread` calls met. It is
judged call by call, and against the stream of the line discipline. -/
namespace Xv6

section History

/-- What happens to the stream. A read either copies a byte out, or meets a ^D: without bytes it
takes it (`eof`), with bytes it leaves it where it is. -/
inductive ConsEvent where
  | key (ch : BitVec 8)
  | byte (call : ℕ) (ch : BitVec 8)
  | eof (call : ℕ)
  | left (call : ℕ)
  | ret (call : ℕ) (res : Option (List (BitVec 8)))

namespace ConsEvent

/-- The call that the event belongs to. -/
def call? : ConsEvent → Option ℕ
  | key _ => none
  | byte c _ | eof c | left c | ret c _ => some c

def taken : ConsEvent → Option (BitVec 8)
  | byte _ ch => some ch
  | eof _ => some ctrlD
  | _ => none

def copied : ConsEvent → Option (BitVec 8)
  | byte _ ch => some ch
  | _ => none

def typed : ConsEvent → Option (BitVec 8)
  | key ch => some ch
  | _ => none

def result : ConsEvent → Option (Option (List (BitVec 8)))
  | ret _ res => some res
  | _ => none

end ConsEvent

/-- The line after an event. -/
def Line.see (l : Line) : ConsEvent → Line
  | .key ch => l.key ch
  | .byte _ _ | .eof _ => l.read
  | _ => l

/-- The stream that the line discipline makes of what was typed, given when its bytes were read. -/
def lineAfter (evs : List ConsEvent) : Line := evs.foldl Line.see ⟨[], [], 0⟩

theorem lineAfter_append (evs : List ConsEvent) (ev : ConsEvent) :
    lineAfter (evs ++ [ev]) = (lineAfter evs).see ev := by
  rw [lineAfter, List.foldl_append]
  rfl

/-- How far a call is: it reads, it has met a LF or a ^D, or it has returned. -/
inductive CallPhase where
  | reading
  | ended
  | returned
  deriving DecidableEq

structure CallSt where
  got : List (BitVec 8)
  phase : CallPhase

/-- What a single call may do. It copies no ^D; after a LF or a ^D it takes nothing more; and it
returns what it copied, or -1 if it was killed while it waited. -/
def callStep (s : CallSt) : ConsEvent → Option CallSt
  | .byte _ ch =>
    if s.phase = .reading ∧ ch ≠ ctrlD then
      some ⟨s.got ++ [ch], if ch = newline then .ended else .reading⟩
    else none
  | .eof _ => if s.phase = .reading ∧ s.got = [] then some ⟨s.got, .ended⟩ else none
  | .left _ => if s.phase = .reading ∧ s.got ≠ [] then some ⟨s.got, .ended⟩ else none
  | .ret _ (some bs) => if s.phase ≠ .returned ∧ bs = s.got then some ⟨s.got, .returned⟩ else none
  | .ret _ none => if s.phase = .reading then some ⟨s.got, .returned⟩ else none
  | .key _ => none

/-- The events of one call. -/
def ownEvents (call : ℕ) (evs : List ConsEvent) : List ConsEvent := evs.filter (fun ev => ev.call? = some call)

/-- Where the events have brought the call. -/
def callAfter (call : ℕ) (evs : List ConsEvent) : Option CallSt :=
  exec callStep ⟨[], .reading⟩ (ownEvents call evs)

/-- Calls are numbered from 0 on; `call t` is the one that thread `t` is in. -/
structure ConsHist where
  calls : ℕ
  call : ℕ → ℕ
  events : List ConsEvent

def ConsHist.add (h : ConsHist) (ev : ConsEvent) : ConsHist := { h with events := h.events ++ [ev] }

/-- What a byte in the loop of `consoleread` is to its call. -/
def takeEvent (c : Cons) (got : List (BitVec 8)) (call : ℕ) : ConsEvent :=
  if c.at c.r = ctrlD then if got = [] then .eof call else .left call else .byte call (c.at c.r)

/-- The history of a run. -/
def consObs (s : ConsKern) (e : Event ConsAct) (h : ConsHist) : ConsHist :=
  match e with
  | .client t (.consoleread _ _) => { h with calls := h.calls + 1, call := update h.call t h.calls }
  | .client t .go =>
    match s.pc t with
    | .run (.intrBody ch) => h.add (.key ch)
    | .run (.readByte _ got) => h.add (takeEvent s.g.cons got (h.call t))
    | .run (.readReturn res) => h.add (.ret (h.call t) res)
    | _ => h
  | _ => h

def consHistory (N : ℕ) (es : List (Event ConsAct)) : List ConsEvent :=
  (history (kernStep N consoleClient) consObs consoleInit es ⟨0, fun _ => 0, []⟩).events

end History

section Calls

theorem callAfter_append (call : ℕ) (evs : List ConsEvent) (ev : ConsEvent) :
    callAfter call (evs ++ [ev]) =
      if ev.call? = some call then (callAfter call evs).bind (fun s => callStep s ev) else callAfter call evs := by
  unfold callAfter ownEvents
  rw [List.filter_append, exec_append]
  by_cases h : ev.call? = some call
  · rw [if_pos h, List.filter_singleton, decide_eq_true h]
    congr 1
    funext s
    exact Option.bind_fun_some _
  · rw [if_neg h, List.filter_singleton, decide_eq_false h]
    exact Option.bind_fun_some _

/-- The point is in `consoleread`. -/
def ConsPt.inRead : ConsPt → Prop
  | .user | .intrAcquire _ | .intrBody _ | .intrReturn => False
  | _ => True

/-- How far the call at this point is. -/
def ConsPt.CallOk (st : Option CallSt) : ConsPt → Prop
  | .readAcquire c => st = some ⟨[], .reading⟩ ∧ ∀ i, c.dst i = true
  | .readLoop c got | .readWait c got | .readKilled c got | .readByte c got =>
    st = some ⟨got, .reading⟩ ∧ ∀ i, c.dst i = true
  | .readReturn (some got) => ∃ ph, ph ≠ .returned ∧ st = some ⟨got, ph⟩
  | .readReturn none => ∃ got, st = some ⟨got, .reading⟩
  | .user | .intrAcquire _ | .intrBody _ | .intrReturn => True

/-- Every call has done what a call may do, and each thread's point says how far its own one is. -/
structure CallsOk (pt : ℕ → ConsPt) (h : ConsHist) : Prop where
  points : ∀ t, (pt t).CallOk (callAfter (h.call t) h.events)
  started : ∀ t, (pt t).inRead → h.call t < h.calls
  distinct : ∀ t u, (pt t).inRead → (pt u).inRead → h.call t = h.call u → t = u
  fresh : ∀ c, h.calls ≤ c → ownEvents c h.events = []
  accepted : ∀ c, (callAfter c h.events).isSome

theorem callOk_of_not_inRead {k : ConsPt} (h : ¬ k.inRead) (st : Option CallSt) : k.CallOk st := by
  cases k <;> first | trivial | exact absurd trivial h

namespace CallsOk

variable {pt : ℕ → ConsPt} {h : ConsHist} {t : ℕ} {k : ConsPt}

theorem move (hc : CallsOk pt h) (hread : k.inRead → (pt t).inRead)
    (hk : (pt t).CallOk (callAfter (h.call t) h.events) → k.CallOk (callAfter (h.call t) h.events)) :
    CallsOk (update pt t k) h := by
  have hin (u : ℕ) (hu : (update pt t k u).inRead) : (pt u).inRead := by
    by_cases hut : u = t
    · subst hut
      rw [update_self] at hu
      exact hread hu
    · rwa [update_of_ne hut] at hu
  refine ⟨fun u => ?_, fun u hu => hc.started u (hin u hu), fun u v hu hv => hc.distinct u v (hin u hu) (hin v hv),
    hc.fresh, hc.accepted⟩
  by_cases hut : u = t
  · subst hut
    rw [update_self]
    exact hk (hc.points u)
  · rw [update_of_ne hut]
    exact hc.points u

theorem start (hc : CallsOk pt h) (hk : ∀ st, st = some ⟨[], .reading⟩ → k.CallOk st) :
    CallsOk (update pt t k)
      { h with calls := h.calls + 1, call := update h.call t h.calls } := by
  have hcall (u : ℕ) (hut : u ≠ t) : update h.call t h.calls u = h.call u := update_of_ne hut _ _
  refine ⟨fun u => ?_, fun u hu => ?_, fun u v hu hv heq => ?_, fun c hle => hc.fresh c (Nat.le_of_succ_le hle),
    hc.accepted⟩
  · by_cases hut : u = t
    · subst hut
      rw [update_self]
      change k.CallOk (callAfter (update h.call u h.calls u) h.events)
      rw [update_self]
      refine hk _ ?_
      rw [callAfter, hc.fresh h.calls (le_refl _)]
      rfl
    · rw [update_of_ne hut]
      change (pt u).CallOk (callAfter (update h.call t h.calls u) h.events)
      rw [hcall u hut]
      exact hc.points u
  · change update h.call t h.calls u < h.calls + 1
    by_cases hut : u = t
    · rw [hut, update_self]
      exact Nat.lt_succ_self _
    · rw [update_of_ne hut] at hu
      rw [hcall u hut]
      exact Nat.lt_succ_of_lt (hc.started u hu)
  · change update h.call t h.calls u = update h.call t h.calls v at heq
    by_cases hut : u = t
    · by_cases hvt : v = t
      · rw [hut, hvt]
      · rw [hut, update_self, hcall v hvt] at heq
        rw [update_of_ne hvt] at hv
        exact absurd (hc.started v hv) (by omega)
    · by_cases hvt : v = t
      · rw [hvt, update_self, hcall u hut] at heq
        rw [update_of_ne hut] at hu
        exact absurd (hc.started u hu) (by omega)
      · rw [hcall u hut, hcall v hvt] at heq
        rw [update_of_ne hut] at hu
        rw [update_of_ne hvt] at hv
        exact hc.distinct u v hu hv heq

theorem event (hc : CallsOk pt h) {ev : ConsEvent} {s : CallSt} (hin : (pt t).inRead)
    (hev : ev.call? = some (h.call t)) (hstep : (callAfter (h.call t) h.events).bind (fun s => callStep s ev) = some s)
    (hk : k.CallOk (some s)) : CallsOk (update pt t k) (h.add ev) := by
  have hin' (u : ℕ) (hu : (update pt t k u).inRead) : (pt u).inRead := by
    by_cases hut : u = t
    · rw [hut]
      exact hin
    · rwa [update_of_ne hut] at hu
  have hown : callAfter (h.call t) (h.events ++ [ev]) = some s := by
    rw [callAfter_append, if_pos hev, hstep]
  have hother (c : ℕ) (hne : c ≠ h.call t) : callAfter c (h.events ++ [ev]) = callAfter c h.events := by
    rw [callAfter_append, hev, if_neg (fun heq => hne (Option.some.inj heq).symm)]
  refine ⟨fun u => ?_, fun u hu => hc.started u (hin' u hu), fun u v hu hv => hc.distinct u v (hin' u hu) (hin' v hv),
    fun c hle => ?_, fun c => ?_⟩
  · by_cases hut : u = t
    · subst hut
      rw [update_self]
      change k.CallOk (callAfter (h.call u) (h.events ++ [ev]))
      rw [hown]
      exact hk
    · rw [update_of_ne hut]
      change (pt u).CallOk (callAfter (h.call u) (h.events ++ [ev]))
      by_cases hu : (pt u).inRead
      · rw [hother _ (fun heq => hut (hc.distinct u t hu hin heq))]
        exact hc.points u
      · exact callOk_of_not_inRead hu _
  · have hlt := hc.started t hin
    have hno : ev.call? ≠ some c := by
      rw [hev]
      intro heq
      have := Option.some.inj heq
      change h.calls ≤ c at hle
      omega
    change ownEvents c (h.events ++ [ev]) = []
    rw [ownEvents, List.filter_append, List.filter_singleton, decide_eq_false hno]
    exact (List.append_nil _).trans (hc.fresh c hle)
  · change (callAfter c (h.events ++ [ev])).isSome
    by_cases hct : c = h.call t
    · rw [hct, hown]
      rfl
    · rw [hother c hct]
      exact hc.accepted c

theorem key (hc : CallsOk pt h) (ch : BitVec 8) : CallsOk pt (h.add (.key ch)) := by
  have hsame (c : ℕ) : callAfter c (h.events ++ [.key ch]) = callAfter c h.events := by
    rw [callAfter_append, if_neg (fun heq => Option.some_ne_none _ heq.symm)]
  refine ⟨fun u => ?_, hc.started, hc.distinct, fun c hle => ?_, fun c => ?_⟩
  · change (pt u).CallOk (callAfter (h.call u) (h.events ++ [.key ch]))
    rw [hsame]
    exact hc.points u
  · change ownEvents c (h.events ++ [.key ch]) = []
    rw [ownEvents, List.filter_append, List.filter_singleton]
    exact (List.append_nil _).trans (hc.fresh c hle)
  · change (callAfter c (h.events ++ [.key ch])).isSome
    rw [hsame]
    exact hc.accepted c

end CallsOk

end Calls

section Stream

theorem Line.key_committed (l : Line) (ch : BitVec 8) :
    (l.key ch).consumed = l.consumed ∧ ∃ x, (l.key ch).committed = l.committed ++ x := by
  unfold Line.key
  split_ifs
  all_goals first | exact ⟨rfl, [], (List.append_nil _).symm⟩ | exact ⟨rfl, _, rfl⟩

/-- The ring is what the history says, the reads have taken the first bytes of the stream, and
after a ^D that was left the next thing taken is that ^D. -/
structure StreamOk (c : Cons) (evs : List ConsEvent) : Prop where
  holds : c.Holds (lineAfter evs)
  taken : evs.filterMap ConsEvent.taken = (lineAfter evs).committed.take (lineAfter evs).consumed
  noEof : ∀ call ch, .byte call ch ∈ evs → ch ≠ ctrlD
  left : ∀ a call b, evs = a ++ .left call :: b →
    (b.filterMap ConsEvent.taken = [] ∧ (lineAfter evs).committed[(lineAfter evs).consumed]? = some ctrlD) ∨
      ∃ rest, b.filterMap ConsEvent.taken = ctrlD :: rest

theorem append_singleton_eq_cases {α : Type*} {evs a b : List α} {ev x : α} (h : evs ++ [ev] = a ++ x :: b) :
    (b = [] ∧ ev = x) ∨ ∃ b', b = b' ++ [ev] ∧ evs = a ++ x :: b' := by
  rcases List.eq_nil_or_concat b with rfl | ⟨b', y, rfl⟩
  · exact .inl ⟨rfl, (List.cons.inj (List.append_inj' h rfl).2).1⟩
  · rw [List.concat_eq_append, ← List.cons_append, ← List.append_assoc] at h
    obtain ⟨h1, h2⟩ := List.append_inj' h rfl
    exact .inr ⟨b', by rw [List.concat_eq_append, (List.cons.inj h2).1], h1⟩

section FilterMap

variable {α β : Type*} {f : α → Option β} {x : α}

theorem filterMap_concat_none (l : List α) (h : f x = none) : (l ++ [x]).filterMap f = l.filterMap f := by
  rw [List.filterMap_append, List.filterMap_cons_none h, List.filterMap_nil, List.append_nil]

theorem filterMap_concat_some (l : List α) {y : β} (h : f x = some y) :
    (l ++ [x]).filterMap f = l.filterMap f ++ [y] := by
  rw [List.filterMap_append, List.filterMap_cons_some h, List.filterMap_nil]

end FilterMap

namespace StreamOk

variable {c : Cons} {evs : List ConsEvent}

theorem quiet (h : StreamOk c evs) {c' : Cons} {ev : ConsEvent} (hev : ev.taken = none) (hleft : ∀ call, ev ≠ .left call)
    (hc : c'.Holds ((lineAfter evs).see ev)) (hsee : ((lineAfter evs).see ev).consumed = (lineAfter evs).consumed)
    (hgrow : ∃ x, ((lineAfter evs).see ev).committed = (lineAfter evs).committed ++ x) : StreamOk c' (evs ++ [ev]) := by
  obtain ⟨x, hx⟩ := hgrow
  refine ⟨by rwa [lineAfter_append], ?_, ?_, ?_⟩
  · rw [lineAfter_append, hsee, hx, filterMap_concat_none evs hev, h.taken,
      List.take_append_of_le_length h.holds.consumed]
  · intro call ch hmem
    rcases List.mem_append.mp hmem with hmem | hmem
    · exact h.noEof call ch hmem
    · rw [← List.mem_singleton.mp hmem] at hev
      cases hev
  · intro a call b heq
    rcases append_singleton_eq_cases heq with ⟨-, hlast⟩ | ⟨b', rfl, hevs⟩
    · exact absurd hlast (hleft call)
    · rw [lineAfter_append, hsee, hx, filterMap_concat_none b' hev]
      refine (h.left a call b' hevs).imp_left (fun hn => ⟨hn.1, ?_⟩)
      rw [List.getElem?_append_left (List.getElem?_eq_some_iff.mp hn.2).1]
      exact hn.2

theorem key (h : StreamOk c evs) (ch : BitVec 8) : StreamOk (c.intr ch).1 (evs ++ [.key ch]) := by
  obtain ⟨hc, hx⟩ := (lineAfter evs).key_committed ch
  exact h.quiet rfl (fun _ => ConsEvent.noConfusion) (h.holds.intr ch) hc hx

theorem ret (h : StreamOk c evs) (call : ℕ) (res : Option (List (BitVec 8))) :
    StreamOk c (evs ++ [.ret call res]) :=
  h.quiet rfl (fun _ => ConsEvent.noConfusion) h.holds rfl ⟨[], (List.append_nil _).symm⟩

theorem take (h : StreamOk c evs) {ev : ConsEvent} (hne : c.r ≠ c.w) (hev : ev.taken = some (c.at c.r))
    (hbyte : ∀ call ch, ev = .byte call ch → ch ≠ ctrlD) : StreamOk { c with r := c.r + 1 } (evs ++ [ev]) := by
  obtain ⟨hnext, hholds⟩ := h.holds.read hne
  have hsee : (lineAfter evs).see ev = (lineAfter evs).read := by
    cases ev <;> first | rfl | cases hev
  have hlt := (List.getElem?_eq_some_iff.mp hnext).1
  refine ⟨by rwa [lineAfter_append, hsee], ?_, ?_, ?_⟩
  · rw [lineAfter_append, hsee, filterMap_concat_some evs hev, h.taken]
    change _ = (lineAfter evs).committed.take ((lineAfter evs).consumed + 1)
    rw [List.take_add_one, hnext]
    rfl
  · intro call ch hmem
    rcases List.mem_append.mp hmem with hmem | hmem
    · exact h.noEof call ch hmem
    · exact hbyte call ch (List.mem_singleton.mp hmem).symm
  · intro a call b heq
    rcases append_singleton_eq_cases heq with ⟨-, hlast⟩ | ⟨b', rfl, hevs⟩
    · rw [hlast] at hev
      cases hev
    · right
      rw [filterMap_concat_some b' hev]
      rcases h.left a call b' hevs with ⟨hnil, hD⟩ | ⟨rest, hrest⟩
      · -- it is the ^D that was left
        rw [hnext] at hD
        rw [hnil, Option.some.inj hD]
        exact ⟨[], rfl⟩
      · exact ⟨rest ++ [c.at c.r], by rw [hrest]; rfl⟩

theorem leave (h : StreamOk c evs) (call : ℕ) (hne : c.r ≠ c.w) (hD : c.at c.r = ctrlD) :
    StreamOk c (evs ++ [.left call]) := by
  obtain ⟨hnext, -⟩ := h.holds.read hne
  have hsee : lineAfter (evs ++ [.left call]) = lineAfter evs := lineAfter_append evs _
  refine ⟨by rw [hsee]; exact h.holds, ?_, ?_, ?_⟩
  · rw [hsee, filterMap_concat_none evs rfl, h.taken]
  · intro call' ch hmem
    rcases List.mem_append.mp hmem with hmem | hmem
    · exact h.noEof call' ch hmem
    · cases List.mem_singleton.mp hmem
  · intro a call' b heq
    rw [hsee]
    rcases append_singleton_eq_cases heq with ⟨rfl, -⟩ | ⟨b', rfl, hevs⟩
    · exact .inl ⟨rfl, by rw [hnext, hD]⟩
    · rw [filterMap_concat_none b' rfl]
      exact h.left a call' b' hevs

/-- The bytes that were copied out are a part of the stream, from its beginning and without the ^Ds. -/
theorem copied_prefix (h : StreamOk c evs) :
    evs.filterMap ConsEvent.copied <+: (lineAfter evs).committed.filter (fun ch => ch ≠ ctrlD) := by
  have hcopied : evs.filterMap ConsEvent.copied = (evs.filterMap ConsEvent.taken).filter (fun ch => ch ≠ ctrlD) := by
    have hno := h.noEof
    clear h
    induction evs with
    | nil => rfl
    | cons ev evs ih =>
      have ih := ih (fun call ch hmem => hno call ch (List.mem_cons_of_mem ev hmem))
      cases ev with
      | byte call ch =>
        have hch : decide (ch ≠ ctrlD) = true := decide_eq_true (hno call ch List.mem_cons_self)
        have htake : (ConsEvent.byte call ch :: evs).filterMap ConsEvent.taken = ch :: evs.filterMap ConsEvent.taken := rfl
        rw [htake, List.filter_cons_of_pos (p := fun ch => decide (ch ≠ ctrlD)) hch, ← ih]
        rfl
      | eof call =>
        have htake : (ConsEvent.eof call :: evs).filterMap ConsEvent.taken = ctrlD :: evs.filterMap ConsEvent.taken := rfl
        rw [htake, List.filter_cons_of_neg (by decide), ← ih]
        rfl
      | key ch => exact ih
      | left call => exact ih
      | ret call res => exact ih
  rw [hcopied, h.taken]
  exact List.IsPrefix.filter _ (List.take_prefix _ _)

end StreamOk

end Stream

end Xv6
