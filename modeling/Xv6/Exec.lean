import Mathlib

/-! Executions of a labelled machine: a partial function `step : σ → ε → Option σ`. The label fixes
every choice (which party moves, which allocation fails), and `none` means that it is not enabled.
-/
namespace Xv6

export Function (update update_self update_of_ne update_idem update_eq_self update_comm update_apply update_eq_self_iff)

theorem ite_some_iff {α : Type*} {c : Prop} [Decidable c] {a b : α} : (if c then some a else none) = some b ↔ c ∧ a = b := by
  rw [Option.ite_none_right_eq_some, Option.some.injEq]

variable {σ ε : Type*}

/-- Run a list of events; `none` as soon as one of them is not enabled. -/
def exec (step : σ → ε → Option σ) : σ → List ε → Option σ
  | s, [] => some s
  | s, e :: es => (step s e).bind (fun t => exec step t es)

/-- Every step of the run `es` from `s` meets the condition `C` in the state in
which it is taken. -/
def Along (step : σ → ε → Option σ) (C : σ → ε → Prop) : σ → List ε → Prop
  | _, [] => True
  | s, e :: es => C s e ∧ ∀ t, step s e = some t → Along step C t es

theorem along_of_forall {step : σ → ε → Option σ} {C : ε → Prop} {s : σ} {es : List ε}
    (h : ∀ e ∈ es, C e) : Along step (fun _ e => C e) s es := by
  induction es generalizing s with
  | nil => trivial
  | cons e es ih =>
    exact ⟨h e List.mem_cons_self, fun t _ => ih (fun f hf => h f (List.mem_cons_of_mem e hf))⟩

/-- `Along` for a condition that can be tested, by running the machine. -/
def checkAlong (step : σ → ε → Option σ) (c : σ → ε → Bool) : σ → List ε → Bool
  | _, [] => true
  | s, e :: es =>
    c s e && match step s e with
      | some t => checkAlong step c t es
      | none => true

theorem along_of_check {step : σ → ε → Option σ} {C : σ → ε → Prop} {c : σ → ε → Bool}
    (hc : ∀ s e, c s e = true → C s e) {s : σ} {es : List ε} (h : checkAlong step c s es = true) :
    Along step C s es := by
  induction es generalizing s with
  | nil => trivial
  | cons e es ih =>
    rw [checkAlong, Bool.and_eq_true] at h
    refine ⟨hc s e h.1, fun t ht => ih ?_⟩
    have hrest := h.2
    rwa [ht] at hrest

theorem exec_cons_eq_some {step : σ → ε → Option σ} {s u : σ} {e : ε} {es : List ε} :
    exec step s (e :: es) = some u ↔ ∃ t, step s e = some t ∧ exec step t es = some u := by
  simp only [exec, Option.bind_eq_some_iff]

theorem exec_append {step : σ → ε → Option σ} (s : σ) (es fs : List ε) :
    exec step s (es ++ fs) = (exec step s es).bind (fun t => exec step t fs) := by
  induction es generalizing s with
  | nil => rfl
  | cons e es ih =>
    simp only [List.cons_append, exec, Option.bind_assoc]
    congr 1
    funext t
    exact ih t

/-- Invariant rule: what one step preserves under `C`, a run whose steps all meet
`C` preserves. -/
theorem exec_invariant_along {step : σ → ε → Option σ} {C : σ → ε → Prop} {P : σ → Prop}
    (hstep : ∀ s e t, C s e → step s e = some t → P s → P t)
    {s u : σ} {es : List ε} (hc : Along step C s es) (h : exec step s es = some u)
    (hs : P s) : P u := by
  induction es generalizing s with
  | nil =>
    cases h
    exact hs
  | cons e es ih =>
    obtain ⟨t, ht, hu⟩ := exec_cons_eq_some.mp h
    exact ih (hc.2 t ht) hu (hstep s e t hc.1 ht hs)

theorem exec_invariant {step : σ → ε → Option σ} {P : σ → Prop}
    (hstep : ∀ s e t, step s e = some t → P s → P t)
    {s u : σ} {es : List ε} (h : exec step s es = some u) (hs : P s) : P u := by
  induction es generalizing s with
  | nil =>
    cases h
    exact hs
  | cons e es ih =>
    obtain ⟨t, ht, hu⟩ := exec_cons_eq_some.mp h
    exact ih hu (hstep s e t ht hs)

section History

variable {η : Type*}

/-- What an observer of the run has noted down: `obs` says what one step adds. -/
def history (step : σ → ε → Option σ) (obs : σ → ε → η → η) : σ → List ε → η → η
  | _, [], h => h
  | s, e :: es, h =>
    match step s e with
    | some t => history step obs t es (obs s e h)
    | none => h

/-- Invariant rule for a state together with what has been observed. -/
theorem history_invariant_along {step : σ → ε → Option σ} {C : σ → ε → Prop} {obs : σ → ε → η → η}
    {P : σ → η → Prop} (hstep : ∀ s e t h, C s e → step s e = some t → P s h → P t (obs s e h))
    {s u : σ} {es : List ε} {h : η} (hc : Along step C s es) (hu : exec step s es = some u) (hs : P s h) :
    P u (history step obs s es h) := by
  induction es generalizing s h with
  | nil =>
    cases hu
    exact hs
  | cons e es ih =>
    obtain ⟨t, ht, hu⟩ := exec_cons_eq_some.mp hu
    rw [history, ht]
    exact ih (hc.2 t ht) hu (hstep s e t h hc.1 ht hs)

end History

end Xv6
