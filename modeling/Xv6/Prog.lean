import Mathlib

/-! Programs with a state that may panic, and weakest preconditions for them. A panic keeps the
state in which it happened, so there are two postconditions: `Q` for a return and `E` for a panic. A
rule is an equation for `simp only`; a call is replaced by its specification with `wp_mono`. -/
namespace Xv6

export Function (update update_self update_of_ne update_idem update_eq_self update_comm update_apply update_eq_self_iff)
export Multiset (mem_cons_self mem_cons_of_mem mem_add notMem_zero nodup_add nodup_cons cons_swap)

abbrev Prog (ε σ α : Type) := EStateM ε σ α

variable {ε σ τ α β : Type}

/-- From `s`, the program returns a value and a state with `Q`, or panics with `E`. -/
def wp (m : Prog ε σ α) (Q : α → σ → Prop) (E : ε → σ → Prop) (s : σ) : Prop :=
  match m s with
  | .ok a s' => Q a s'
  | .error e s' => E e s'

section Rules

variable {Q Q' : α → σ → Prop} {E E' : ε → σ → Prop} {s : σ}

theorem wp_pure (a : α) : wp (pure a : Prog ε σ α) Q E s = Q a s := rfl

theorem wp_bind (m : Prog ε σ β) (f : β → Prog ε σ α) :
    wp (m >>= f) Q E s = wp m (fun b => wp (f b) Q E) E s := by
  simp only [wp, bind, EStateM.bind]
  cases m s <;> rfl

theorem wp_get {Q : σ → σ → Prop} : wp (get : Prog ε σ σ) Q E s = Q s s := rfl

theorem wp_set {Q : PUnit → σ → Prop} (s' : σ) : wp (set s' : Prog ε σ PUnit) Q E s = Q ⟨⟩ s' := rfl

theorem wp_modify {Q : PUnit → σ → Prop} (f : σ → σ) :
    wp (modify f : Prog ε σ PUnit) Q E s = Q ⟨⟩ (f s) := rfl

theorem wp_throw (e : ε) : wp (throw e : Prog ε σ α) Q E s = E e s := rfl

theorem wp_ite {c : Prop} [Decidable c] (m m' : Prog ε σ α) :
    wp (if c then m else m') Q E s = if c then wp m Q E s else wp m' Q E s := by
  split <;> rfl

theorem wp_mono {m : Prog ε σ α} (h : wp m Q E s) (hQ : ∀ a s', Q a s' → Q' a s')
    (hE : ∀ e s', E e s' → E' e s') : wp m Q' E' s := by
  unfold wp at h ⊢
  cases hm : m s with
  | ok a s' =>
    simp only [hm] at h
    exact hQ a s' h
  | error e s' =>
    simp only [hm] at h
    exact hE e s' h

theorem wp_imp {m : Prog ε σ α} (h : wp m Q E s) (hQ : ∀ a s', Q a s' → Q' a s') : wp m Q' E s :=
  wp_mono h hQ (fun _ _ h => h)

/-- A call with its specification, and then the rest. -/
theorem wp_seq {m : Prog ε σ β} {f : β → Prog ε σ α} {P : β → σ → Prop} (h : wp m P E s)
    (hf : ∀ b s', P b s' → wp (f b) Q E s') : wp (m >>= f) Q E s := by
  rw [wp_bind]
  exact wp_imp h hf

theorem ok_of_wp {m : Prog ε σ α} {a : α} {s' : σ} (h : wp m Q E s) (hm : m s = .ok a s') : Q a s' := by
  unfold wp at h
  rwa [hm] at h

theorem error_of_wp {m : Prog ε σ α} {e : ε} {s' : σ} (h : wp m Q E s) (hm : m s = .error e s') :
    E e s' := by
  unfold wp at h
  rwa [hm] at h

theorem wp_and {m : Prog ε σ α} (h : wp m Q E s) (h' : wp m Q' E' s) :
    wp m (fun a s' => Q a s' ∧ Q' a s') (fun e s' => E e s' ∧ E' e s') s := by
  unfold wp at h h' ⊢
  cases hm : m s with
  | ok a s' =>
    simp only [hm] at h h'
    exact ⟨h, h'⟩
  | error e s' =>
    simp only [hm] at h h'
    exact ⟨h, h'⟩

theorem returns_of_wp {m : Prog ε σ α} (h : wp m Q (fun _ _ => False) s) :
    ∃ a s', m s = .ok a s' ∧ Q a s' := by
  cases hm : m s with
  | ok a s' => exact ⟨a, s', rfl, ok_of_wp h hm⟩
  | error e s' => exact absurd (error_of_wp h hm) id

end Rules

/-- `for(; n > 0; n--, i++) f(i)` -/
def loop (f : ℕ → Prog ε σ Unit) : ℕ → ℕ → Prog ε σ Unit
  | 0, _ => pure ()
  | n + 1, i => do
    f i
    loop f n (i + 1)

/-- The rule for a loop: `I i` holds before the iteration `i`. -/
theorem wp_loop {f : ℕ → Prog ε σ Unit} {I : ℕ → σ → Prop} {E : ε → σ → Prop} (n i : ℕ)
    (hf : ∀ j s, i ≤ j → j < i + n → I j s → wp (f j) (fun _ s' => I (j + 1) s') E s) {s : σ}
    (h : I i s) : wp (loop f n i) (fun _ s' => I (i + n) s') E s := by
  induction n generalizing i s with
  | zero => exact h
  | succ n ih =>
    rw [loop, wp_bind]
    refine wp_mono (hf i s (le_refl i) (by omega) h) (fun _ s' h' => ?_) (fun _ _ h => h)
    rw [show i + (n + 1) = i + 1 + n by omega]
    exact ih (i + 1) (fun j t h1 h2 => hf j t (by omega) (by omega)) h'

/-- Run a program on a part of the state. -/
def zoom (view : σ → τ) (put : τ → σ → σ) (m : Prog ε τ α) : Prog ε σ α := fun s =>
  match m (view s) with
  | .ok a t => .ok a (put t s)
  | .error e t => .error e (put t s)

theorem wp_zoom {view : σ → τ} {put : τ → σ → σ} (m : Prog ε τ α) {Q : α → σ → Prop}
    {E : ε → σ → Prop} {s : σ} :
    wp (zoom view put m) Q E s = wp m (fun a t => Q a (put t s)) (fun e t => E e (put t s)) (view s) := by
  simp only [wp, zoom]
  cases m (view s) <;> rfl

section Keeps

variable {R : σ → σ → Prop} {E : ε → Prop}

/-- Whatever it starts from, the program relates its first state to its last by `R`, and it panics
with `E` only. -/
def Keeps (R : σ → σ → Prop) (E : ε → Prop) (m : Prog ε σ α) : Prop :=
  ∀ s, wp m (fun _ s' => R s s') (fun e _ => E e) s

namespace Keeps

theorem throw {e : ε} (he : E e) : Keeps R E (throw e : Prog ε σ α) := fun _ => he

theorem modify {f : σ → σ} (hf : ∀ s, R s (f s)) : Keeps R E (modify f : Prog ε σ PUnit) := fun s => hf s

theorem ite {c : Prop} [Decidable c] {m m' : Prog ε σ α} (h : Keeps R E m) (h' : Keeps R E m') :
    Keeps R E (if c then m else m') := by
  split
  · exact h
  · exact h'

/-- A program that looks at the state first. -/
theorem get_bind {f : σ → Prog ε σ α} (hf : ∀ s, wp (f s) (fun _ s' => R s s') (fun e _ => E e) s) :
    Keeps R E (MonadState.get >>= f) := fun s => hf s

variable [IsPreorder σ R]

theorem pure (a : α) : Keeps R E (pure a : Prog ε σ α) := fun s => refl_of R s

theorem get : Keeps R E (get : Prog ε σ σ) := fun s => refl_of R s

theorem bind {m : Prog ε σ β} {f : β → Prog ε σ α} (hm : Keeps R E m) (hf : ∀ b, Keeps R E (f b)) :
    Keeps R E (m >>= f) := by
  intro s
  rw [wp_bind]
  refine wp_mono (hm s) (fun b s1 h1 => ?_) (fun _ _ h => h)
  exact wp_mono (hf b s1) (fun _ s2 h2 => trans_of R h1 h2) (fun _ _ h => h)

theorem loop {f : ℕ → Prog ε σ Unit} (hf : ∀ i, Keeps R E (f i)) (n i : ℕ) : Keeps R E (loop f n i) := by
  induction n generalizing i with
  | zero => exact Keeps.pure ()
  | succ n ih => exact Keeps.bind (hf i) (fun _ => ih (i + 1))

end Keeps

end Keeps

end Xv6
