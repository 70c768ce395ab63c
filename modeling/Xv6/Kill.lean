import Xv6.Wait

/-! `kkill` and the reuse of process slots (kernel/proc.c), one call at a time over the whole table.
`kkill` compares `p->pid` in every slot, in use or not, and `allocproc` does not reset `p->killed`:
what a kill of pid 0 finds is a slot that nobody uses. -/
namespace Xv6

/-- The process table and `nextpid`. `named q` is ghost state: since the `allocproc` of the
process in slot `q`, some `kkill` has named its pid or `setkilled` was applied to it. -/
structure ProcTable where
  proc : ℕ → Proc ℕ
  nextpid : ℤ
  named : ℕ → Bool

namespace ProcTable

variable (N : ℕ) (s : ProcTable)

/-- The first slot below `N` that a loop over the table stops at. -/
def find (f : Proc ℕ → Bool) : Option ℕ := (List.range N).find? fun q => f (s.proc q)

def put (q : ℕ) (p : Proc ℕ) : ProcTable := { s with proc := update s.proc q p }

/-- `nextpid = nextpid + 1;` on an `int` -/
def allocpid : ProcTable := { s with nextpid := (s.nextpid + 1).bmod (2 ^ 32) }

/-- `allocproc`, up to the allocations: the slot it takes. -/
def allocproc : Option (ProcTable × ℕ) :=
  (s.find N fun p => p.state = .UNUSED).map fun np =>
    ({ (s.put np { s.proc np with pid := s.nextpid, state := .USED }).allocpid with
      named := update s.named np false }, np)

def freeproc (q : ℕ) : ProcTable := s.put q (s.proc q).free

/-- `kfork` by process `p`; `mem` says whether `kalloc`, `proc_pagetable` and `uvmcopy` all
find the memory they need. -/
def kfork (p : ℕ) (mem : Bool) : ProcTable × ℤ :=
  match s.allocproc N with
  | none => (s, -1)
  | some (t, np) =>
    if mem then
      (t.put np { t.proc np with parent := some p, state := .RUNNABLE }, (t.proc np).pid)
    else (t.freeproc np, -1)

def wakeup (me c : ℕ) : ProcTable :=
  { s with proc := fun q => if q < N ∧ q ≠ me then (s.proc q).wake c else s.proc q }

/-- The children of `p` become children of `init`. -/
def adopt (p : ℕ) : ProcTable where
  proc := fun q =>
    if q < N ∧ (s.proc q).parent = some p then { s.proc q with parent := some initproc }
    else s.proc q
  nextpid := s.nextpid
  named := s.named

/-- `reparent(p)`: `init` is woken if it gets a child. -/
def reparent (p : ℕ) : ProcTable :=
  if (s.find N fun pr => pr.parent = some p).isSome then (s.adopt N p).wakeup N p initproc else s

/-- `kexit(status)` by process `p`, which is not `init` -/
def kexit (p : ℕ) (status : ℤ) : ProcTable :=
  let t := s.reparent N p
  let t := match (t.proc p).parent with
    | some pp => t.wakeup N p pp
    | none => t
  t.put p { t.proc p with xstate := status, state := .ZOMBIE }

def sleep (p c : ℕ) : ProcTable := s.put p { s.proc p with chan := some c, state := .SLEEPING }

/-- One pass of `kwait`'s loop by process `p`; `copied` says whether the status could be
copied out. The result is `none` if the process goes to sleep. -/
def kwait (p : ℕ) (copied : Bool) : ProcTable × Option ℤ :=
  match s.find N fun pr => decide (pr.parent = some p ∧ pr.state = .ZOMBIE) with
  | some q => if copied then (s.freeproc q, some (s.proc q).pid) else (s, some (-1))
  | none =>
    if (s.find N fun pr => pr.parent = some p).isNone ∨ (s.proc p).killed then (s, some (-1))
    else (s.sleep p p, none)

def kkill (pid : ℤ) : ProcTable × ℤ :=
  match s.find N fun p => p.pid = pid with
  | some q => (s.put q (s.proc q).kill, 0)
  | none => (s, -1)

def setkilled (p : ℕ) : ProcTable :=
  { s.put p { s.proc p with killed := true } with named := update s.named p true }

/-- The processes that a `kkill(pid)` names. -/
def markNamed (pid : ℤ) : ProcTable :=
  { s with named := fun q =>
    s.named q || (decide ((s.proc q).state ≠ .UNUSED) && decide ((s.proc q).pid = pid)) }

end ProcTable

/-- What the running process `p` does, or what the scheduler does with process `p`. -/
inductive TableCall where
  | fork (p : ℕ) (mem : Bool)
  | exit (p : ℕ) (status : ℤ)
  | wait (p : ℕ) (copied : Bool)
  | kill (p : ℕ) (pid : ℤ)
  | setkilled (p : ℕ)
  | sleep (p c : ℕ)
  | wakeup (p c : ℕ)
  | yield (p : ℕ)
  /-- the scheduler picks `p`, which clears `p->chan` if it returns from `sleep` -/
  | dispatch (p : ℕ)

/-- The state a process must be in for the call; `kexit` by `init` panics. -/
def TableCall.enabled (N : ℕ) (s : ProcTable) : TableCall → Prop
  | .dispatch p => p < N ∧ (s.proc p).state = .RUNNABLE
  | .exit p _ => p < N ∧ (s.proc p).state = .RUNNING ∧ p ≠ initproc
  | .fork p _ | .wait p _ | .kill p _ | .setkilled p | .sleep p _ | .wakeup p _ | .yield p =>
    p < N ∧ (s.proc p).state = .RUNNING

instance (N : ℕ) (s : ProcTable) (c : TableCall) : Decidable (c.enabled N s) := by
  cases c <;> unfold TableCall.enabled <;> infer_instance

/-- The table after a call. -/
def TableCall.run (N : ℕ) (s : ProcTable) : TableCall → ProcTable
  | .fork p mem => (s.kfork N p mem).1
  | .exit p status => s.kexit N p status
  | .wait p copied => (s.kwait N p copied).1
  | .kill _ pid => (s.kkill N pid).1.markNamed pid
  | .setkilled p => s.setkilled p
  | .sleep p c => s.sleep p c
  | .wakeup p c => s.wakeup N p c
  | .yield p => s.put p { s.proc p with state := .RUNNABLE }
  | .dispatch p => s.put p { s.proc p with state := .RUNNING, chan := none }

def tableStep (N : ℕ) (s : ProcTable) (c : TableCall) : Option ProcTable :=
  if c.enabled N s then some (c.run N s) else none

/-- After `userinit`: `init` runs with pid 1, every other slot is `UNUSED`. -/
def tableInit : ProcTable where
  proc := fun q =>
    if q = initproc then ⟨.RUNNING, none, false, 0, 1, none⟩ else ⟨.UNUSED, none, false, 0, 0, none⟩
  nextpid := 2
  named := fun _ => false

namespace ProcTable

variable {N : ℕ} {s : ProcTable}

theorem find_eq_some {f : Proc ℕ → Bool} {q : ℕ} (h : s.find N f = some q) :
    q < N ∧ f (s.proc q) = true := by
  have hmem := List.mem_of_find?_eq_some h
  have hf := List.find?_some h
  exact ⟨List.mem_range.mp hmem, hf⟩

theorem find_eq_none {f : Proc ℕ → Bool} (h : s.find N f = none) {q : ℕ} (hq : q < N) :
    f (s.proc q) = false := by
  have hno := List.find?_eq_none.mp h q (List.mem_range.mpr hq)
  simpa using hno

/-- A slot that is not in use has pid 0, and `p->killed` is clear in it and in every process
that nobody has named. -/
structure Inv (s : ProcTable) : Prop where
  pid : ∀ q, (s.proc q).state = .UNUSED → (s.proc q).pid = 0
  killed : ∀ q, (s.proc q).state = .UNUSED ∨ s.named q = false → (s.proc q).killed = false

theorem Inv.put (hi : s.Inv) {q : ℕ} {p : Proc ℕ} (hpid : p.state = .UNUSED → p.pid = 0)
    (hkilled : p.state = .UNUSED ∨ s.named q = false → p.killed = false) : (s.put q p).Inv := by
  refine ⟨fun u hu => ?_, fun u hu => ?_⟩
  · by_cases huq : u = q
    · subst huq
      simp only [ProcTable.put, update_self] at hu ⊢
      exact hpid hu
    · simp only [ProcTable.put, update_of_ne huq] at hu ⊢
      exact hi.pid u hu
  · by_cases huq : u = q
    · subst huq
      simp only [ProcTable.put, update_self] at hu ⊢
      exact hkilled hu
    · simp only [ProcTable.put, update_of_ne huq] at hu ⊢
      exact hi.killed u hu

theorem Inv.of_eq {t : ProcTable} (hi : s.Inv) (hnamed : t.named = s.named)
    (hpid : ∀ q, (t.proc q).pid = (s.proc q).pid)
    (hkilled : ∀ q, (t.proc q).killed = (s.proc q).killed)
    (hused : ∀ q, (t.proc q).state = .UNUSED → (s.proc q).state = .UNUSED) : t.Inv := by
  refine ⟨fun q hq => ?_, fun q hq => ?_⟩
  · rw [hpid q]
    exact hi.pid q (hused q hq)
  · rw [hkilled q]
    rw [hnamed] at hq
    exact hi.killed q (hq.imp_left (hused q))

theorem wake_fields (p : Proc ℕ) (c : ℕ) : (p.wake c).pid = p.pid ∧ (p.wake c).killed = p.killed ∧
    ((p.wake c).state = .UNUSED → p.state = .UNUSED) := by
  unfold Proc.wake
  split_ifs <;> simp

theorem Inv.wakeup (hi : s.Inv) (me c : ℕ) : (s.wakeup N me c).Inv := by
  have hq (q : ℕ) : (s.wakeup N me c).proc q = (s.proc q).wake c ∨
      (s.wakeup N me c).proc q = s.proc q := by
    simp only [ProcTable.wakeup]
    split_ifs
    · exact .inl rfl
    · exact .inr rfl
  refine hi.of_eq rfl (fun q => ?_) (fun q => ?_) (fun q => ?_)
  all_goals
    rcases hq q with h | h
    all_goals rw [h]
  · exact (wake_fields _ c).1
  · exact (wake_fields _ c).2.1
  · exact (wake_fields _ c).2.2
  · exact id

theorem Inv.adopt (hi : s.Inv) (p : ℕ) : (s.adopt N p).Inv := by
  refine hi.of_eq rfl (fun q => ?_) (fun q => ?_) (fun q => ?_)
  all_goals
    simp only [ProcTable.adopt]
    split_ifs
  all_goals first | rfl | exact id

theorem Inv.reparent (hi : s.Inv) (p : ℕ) : (s.reparent N p).Inv := by
  unfold ProcTable.reparent
  split_ifs
  · exact (hi.adopt p).wakeup p initproc
  · exact hi

theorem Inv.freeproc (hi : s.Inv) (q : ℕ) : (s.freeproc q).Inv :=
  hi.put (fun _ => rfl) (fun _ => rfl)

/-- The slot that `allocproc` takes has `p->killed` clear, although nothing resets it there. -/
theorem Inv.allocproc (hi : s.Inv) {t : ProcTable} {np : ℕ} (h : s.allocproc N = some (t, np)) :
    t.Inv ∧ (t.proc np).killed = false ∧ (t.proc np).state = .USED := by
  simp only [ProcTable.allocproc, Option.map_eq_some_iff, Prod.mk.injEq] at h
  obtain ⟨np', hfind, rfl, rfl⟩ := h
  have hunused : (s.proc np').state = .UNUSED := by simpa using (find_eq_some hfind).2
  have hkilled := hi.killed np' (.inl hunused)
  refine ⟨⟨fun q hq => ?_, fun q hq => ?_⟩, ?_, ?_⟩
  · by_cases hqn : q = np'
    · subst hqn
      simp [ProcTable.put, allocpid] at hq
    · simp only [ProcTable.put, allocpid, update_of_ne hqn] at hq ⊢
      exact hi.pid q hq
  · by_cases hqn : q = np'
    · subst hqn
      simpa [ProcTable.put, allocpid] using hkilled
    · simp only [ProcTable.put, allocpid, update_of_ne hqn] at hq ⊢
      exact hi.killed q hq
  · simpa [ProcTable.put, allocpid] using hkilled
  · simp [ProcTable.put, allocpid]

theorem Inv.kfork (hi : s.Inv) (p : ℕ) (mem : Bool) : (s.kfork N p mem).1.Inv := by
  unfold ProcTable.kfork
  split
  · exact hi
  · rename_i t np h
    obtain ⟨ht, hkilled, _⟩ := hi.allocproc h
    split_ifs
    · exact ht.put (fun hu => by cases hu) (fun _ => hkilled)
    · exact ht.freeproc np

theorem Inv.kexit (hi : s.Inv) (p : ℕ) (status : ℤ) : (s.kexit N p status).Inv := by
  have ht := hi.reparent (N := N) p
  unfold ProcTable.kexit
  generalize s.reparent N p = t at ht
  have hu : (match (t.proc p).parent with
      | some pp => t.wakeup N p pp
      | none => t).Inv := by
    split
    · exact ht.wakeup p _
    · exact ht
  refine Inv.put hu (fun h => by cases h) fun h => ?_
  rcases h with h | h
  · cases h
  · exact hu.killed p (.inr h)

theorem Inv.sleep (hi : s.Inv) (p c : ℕ) : (s.sleep p c).Inv := by
  refine hi.put (fun h => by cases h) fun h => ?_
  rcases h with h | h
  · cases h
  · exact hi.killed p (.inr h)

theorem Inv.kwait (hi : s.Inv) (p : ℕ) (copied : Bool) : (s.kwait N p copied).1.Inv := by
  unfold ProcTable.kwait
  split
  · split_ifs
    · exact hi.freeproc _
    · exact hi
  · split_ifs
    · exact hi
    · exact hi.sleep p p

theorem Inv.setkilled (hi : s.Inv) {p : ℕ} (hp : (s.proc p).state ≠ .UNUSED) :
    (s.setkilled p).Inv := by
  refine ⟨fun q hq => ?_, fun q hq => ?_⟩
  · by_cases hqp : q = p
    · subst hqp
      simp only [ProcTable.setkilled, ProcTable.put, update_self] at hq
      exact absurd hq hp
    · simp only [ProcTable.setkilled, ProcTable.put, update_of_ne hqp] at hq ⊢
      exact hi.pid q hq
  · by_cases hqp : q = p
    · subst hqp
      simp only [ProcTable.setkilled, ProcTable.put, update_self] at hq
      rcases hq with hq | hq
      · exact absurd hq hp
      · cases hq
    · simp only [ProcTable.setkilled, ProcTable.put, update_of_ne hqp] at hq ⊢
      exact hi.killed q hq

/-- `pid` is not the pid of the unused slots, or there are none. -/
def Kills (N : ℕ) (s : ProcTable) (pid : ℤ) : Prop :=
  pid = 0 → ∀ q < N, (s.proc q).state ≠ .UNUSED

theorem used_of_find (hi : s.Inv) {pid : ℤ} (hc : s.Kills N pid) {q : ℕ}
    (h : s.find N (fun p => p.pid = pid) = some q) :
    q < N ∧ (s.proc q).state ≠ .UNUSED ∧ (s.proc q).pid = pid := by
  obtain ⟨hq, hpid⟩ := find_eq_some h
  rw [decide_eq_true_eq] at hpid
  refine ⟨hq, fun hu => ?_, hpid⟩
  have hzero : pid = 0 := hpid ▸ hi.pid q hu
  exact hc hzero q hq hu

theorem Inv.kkill (hi : s.Inv) {pid : ℤ} (hc : s.Kills N pid) :
    ((s.kkill N pid).1.markNamed pid).Inv := by
  unfold ProcTable.kkill
  split
  · rename_i q h
    obtain ⟨hq, hused, hpid⟩ := used_of_find hi hc h
    have hused' : (s.proc q).kill.state ≠ .UNUSED := by
      unfold Proc.kill
      simp only
      split_ifs
      · simp
      · exact hused
    refine ⟨fun u hu => ?_, fun u hu => ?_⟩
    · by_cases huq : u = q
      · subst huq
        simp only [ProcTable.put, ProcTable.markNamed, update_self] at hu
        exact absurd hu hused'
      · simp only [ProcTable.put, ProcTable.markNamed, update_of_ne huq] at hu ⊢
        exact hi.pid u hu
    · by_cases huq : u = q
      · subst huq
        -- the process that is hit is one that the call names
        have hp : (s.proc u).kill.pid = pid := hpid
        simp [ProcTable.put, ProcTable.markNamed, hused', hp] at hu
      · simp only [ProcTable.put, ProcTable.markNamed, update_of_ne huq,
          Bool.or_eq_false_iff] at hu ⊢
        exact hi.killed u (hu.imp_right And.left)
  · refine ⟨hi.pid, fun u hu => hi.killed u (hu.imp_right fun h => ?_)⟩
    simp only [ProcTable.markNamed, Bool.or_eq_false_iff] at h
    exact h.1

end ProcTable

/-- Every `kkill` of the run names a pid other than 0, or finds every slot in use. -/
def KillsNamed (N : ℕ) (s : ProcTable) : TableCall → Prop
  | .kill _ pid => s.Kills N pid
  | _ => True

theorem tableStep_inv {N : ℕ} (s : ProcTable) (c : TableCall) (t : ProcTable)
    (hc : KillsNamed N s c) (h : tableStep N s c = some t) (hi : s.Inv) : t.Inv := by
  simp only [tableStep, ite_some_iff] at h
  obtain ⟨he, rfl⟩ := h
  cases c with
  | fork p mem => exact hi.kfork p mem
  | exit p status => exact hi.kexit p status
  | wait p copied => exact hi.kwait p copied
  | kill p pid => exact hi.kkill hc
  | setkilled p =>
    refine hi.setkilled fun hu => ?_
    rw [he.2] at hu
    cases hu
  | sleep p c => exact hi.sleep p c
  | wakeup p c => exact hi.wakeup p c
  | yield p =>
    exact hi.put (fun hu => by cases hu) fun hu => hi.killed p (hu.imp (fun h => by cases h) id)
  | dispatch p =>
    exact hi.put (fun hu => by cases hu) fun hu => hi.killed p (hu.imp (fun h => by cases h) id)

theorem tableInit_inv : tableInit.Inv := by
  refine ⟨fun q hq => ?_, fun q _ => ?_⟩
  · by_cases hq0 : q = initproc
    · simp [tableInit, hq0] at hq
    · simp [tableInit, hq0]
  · by_cases hq0 : q = initproc <;> simp [tableInit, hq0]

/-- `kkill(pid)` returns 0 iff some process in use has that pid; then it sets the killed flag of
such a process, makes it `RUNNABLE` if it sleeps, and changes nothing else; otherwise it returns
-1 and changes nothing. -/
def KillExact (N : ℕ) (s : ProcTable) (pid : ℤ) : Prop :=
  ((s.kkill N pid).2 = 0 ↔ ∃ q < N, (s.proc q).state ≠ .UNUSED ∧ (s.proc q).pid = pid) ∧
  ((s.kkill N pid).2 = 0 → ∃ q < N, (s.proc q).state ≠ .UNUSED ∧ (s.proc q).pid = pid ∧
    (s.kkill N pid).1 = s.put q { s.proc q with
      killed := true
      state := if (s.proc q).state = .SLEEPING then .RUNNABLE else (s.proc q).state }) ∧
  ((s.kkill N pid).2 ≠ 0 → (s.kkill N pid) = (s, -1))

theorem killExact_of_inv {N : ℕ} {s : ProcTable} (hi : s.Inv) {pid : ℤ} (hc : s.Kills N pid) :
    KillExact N s pid := by
  unfold KillExact ProcTable.kkill
  split
  · rename_i q h
    obtain ⟨hq, hused, hpid⟩ := ProcTable.used_of_find hi hc h
    exact ⟨iff_of_true rfl ⟨q, hq, hused, hpid⟩, fun _ => ⟨q, hq, hused, hpid, rfl⟩,
      fun h => absurd rfl h⟩
  · rename_i h
    refine ⟨iff_of_false (by simp) ?_, fun h => absurd h (by simp), fun _ => rfl⟩
    rintro ⟨q, hq, _, hpid⟩
    have hno := ProcTable.find_eq_none h hq
    simp [hpid] at hno

/-- In every run whose `kkill`s all name a pid other than 0, or find the table full, `kkill` hits
exactly the process it names, and a process has `p->killed` clear until it is named by a
`kkill` or `setkilled` is applied to it. -/
theorem kill_targets_named_process {N : ℕ} {cs : List TableCall} {s : ProcTable}
    (hc : Along (tableStep N) (KillsNamed N) tableInit cs)
    (h : exec (tableStep N) tableInit cs = some s) :
    (∀ pid, s.Kills N pid → KillExact N s pid) ∧
    ∀ q, (s.proc q).state ≠ .UNUSED → s.named q = false → (s.proc q).killed = false := by
  have hi := exec_invariant_along tableStep_inv hc h tableInit_inv
  exact ⟨fun pid => killExact_of_inv hi, fun q _ hq => hi.killed q (.inr hq)⟩

/-- `init` forks, the child runs, sleeps and is killed by its pid. -/
def killSleepingChild : List TableCall :=
  [.fork 0 true, .dispatch 1, .sleep 1 7, .kill 0 2]

theorem kill_targets_named_process_child : ∃ s, exec (tableStep 3) tableInit killSleepingChild =
    some s ∧ (s.proc 1).state = .RUNNABLE ∧ (s.proc 1).killed = true ∧ KillExact 3 s 2 := by
  obtain ⟨s, hs, hst, hk⟩ : ∃ s, exec (tableStep 3) tableInit killSleepingChild = some s ∧
      (s.proc 1).state = .RUNNABLE ∧ (s.proc 1).killed = true := ⟨_, rfl, rfl, rfl⟩
  refine ⟨s, hs, hst, hk, (kill_targets_named_process ?_ hs).1 2 fun h => by cases h⟩
  refine ⟨trivial, fun t _ => ⟨trivial, fun t _ => ⟨trivial, fun t _ => ⟨?_, fun t _ => trivial⟩⟩⟩⟩
  intro h
  cases h

/-- `kkill(0)` reports success although no process has pid 0, and the next child of `init` is
born killed, though nobody named it. -/
theorem kill_zero_hits_unused_slot : ¬ KillExact 3 tableInit 0 ∧
    ∃ s, exec (tableStep 3) tableInit [.kill 0 0, .fork 0 true] = some s ∧
      (s.proc 1).state = .RUNNABLE ∧ s.named 1 = false ∧ (s.proc 1).killed = true := by
  refine ⟨fun h => ?_, _, rfl, rfl, rfl, rfl⟩
  obtain ⟨q, hq, hused, hpid⟩ := h.1.mp rfl
  by_cases hq0 : q = initproc
  · simp [tableInit, hq0] at hpid
  · simp [tableInit, hq0] at hused

end Xv6
