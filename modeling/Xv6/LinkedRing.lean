import Mathlib

/-! Cyclic doubly linked lists over nodes of any type; `next` and `prev` are total functions, as
fields of a node record are. A ring runs from a head node through other nodes back to it. -/
namespace Xv6

open Function (update update_self update_of_ne)

variable {α : Type*}

structure Links (α : Type*) where
  next : α → α
  prev : α → α

namespace Links

/-- From `a` through the nodes `xs` to `b`, with every pair of neighbours linked both ways. -/
def Path (l : Links α) (a : α) : List α → α → Prop
  | [], b => l.next a = b ∧ l.prev b = a
  | x :: xs, b => (l.next a = x ∧ l.prev x = a) ∧ Path l x xs b

/-- `xs` are the nodes of the ring through `head`, in the order of `next`. -/
structure Ring (l : Links α) (head : α) (xs : List α) : Prop where
  nodup : (head :: xs).Nodup
  path : l.Path head xs head

theorem path_congr {l l' : Links α} {a b : α} {xs : List α} (h : l.Path a xs b)
    (hnext : ∀ x ∈ a :: xs, l'.next x = l.next x) (hprev : ∀ x ∈ xs ++ [b], l'.prev x = l.prev x) :
    l'.Path a xs b := by
  induction xs generalizing a with
  | nil =>
    refine ⟨?_, ?_⟩
    · rw [hnext a (by simp)]
      exact h.1
    · rw [hprev b (by simp)]
      exact h.2
  | cons x xs ih =>
    refine ⟨⟨?_, ?_⟩, ih h.2 (fun y hy => hnext y (by simp_all)) (fun y hy => hprev y (by simp_all))⟩
    · rw [hnext a (by simp)]
      exact h.1.1
    · rw [hprev x (by simp)]
      exact h.1.2

theorem path_append {l : Links α} {a b c : α} {xs ys : List α} :
    l.Path a (xs ++ b :: ys) c ↔ l.Path a xs b ∧ l.Path b ys c := by
  induction xs generalizing a with
  | nil => rfl
  | cons x xs ih => simp only [List.cons_append, Path, ih, and_assoc]

theorem path_prev {l : Links α} {a b : α} {xs : List α} (h : l.Path a xs b) :
    l.prev b ∈ a :: xs := by
  induction xs generalizing a with
  | nil => simp [h.2]
  | cons x xs ih => exact List.mem_cons_of_mem a (ih h.2)

theorem path_next {l : Links α} {a b : α} {xs : List α} (h : l.Path a xs b) :
    l.next a ∈ xs ++ [b] := by
  cases xs with
  | nil => simp [h.1]
  | cons x xs => simp [h.1.1]

/-- The same ring, walked the other way. -/
def flip (l : Links α) : Links α := ⟨l.prev, l.next⟩

theorem path_flip {l : Links α} {a b : α} {xs : List α} (h : l.Path a xs b) :
    l.flip.Path b xs.reverse a := by
  induction xs generalizing a with
  | nil => exact ⟨h.2, h.1⟩
  | cons x xs ih =>
    rw [List.reverse_cons]
    exact path_append.mpr ⟨ih h.2, h.1.2, h.1.1⟩

variable [DecidableEq α]

/-- Take `b` out: `b.next.prev = b.prev; b.prev.next = b.next`. -/
def unlink (l : Links α) (b : α) : Links α :=
  let l' : Links α := { l with prev := update l.prev (l.next b) (l.prev b) }
  { l' with next := update l'.next (l'.prev b) (l'.next b) }

/-- Put `b` after `head`: `b.next = head.next; b.prev = head; head.next.prev = b;
head.next = b`. -/
def insertFront (l : Links α) (head b : α) : Links α :=
  let l' : Links α :=
    { next := update l.next b (l.next head)
      prev := update l.prev b head }
  { next := update l'.next head b
    prev := update l'.prev (l'.next head) b }

/-- Walk along `f` until `head`, and return the first node that meets `P`. -/
def scan (f : α → α) (head : α) (P : α → Bool) : ℕ → α → Option α
  | 0, _ => none
  | fuel + 1, b => if b = head then none else if P b then some b else scan f head P fuel (f b)

theorem unlink_prev (l : Links α) (b : α) :
    (l.unlink b).prev = update l.prev (l.next b) (l.prev b) := rfl

theorem unlink_next {l : Links α} {b : α} (h : l.next b ≠ b) :
    (l.unlink b).next = update l.next (l.prev b) (l.next b) := by
  simp only [unlink, update_of_ne h.symm]

theorem path_unlink {l : Links α} {a b c : α} {xs ys : List α} (hx : l.Path a xs b)
    (hy : l.Path b ys c) (hnodup : (xs ++ b :: ys).Nodup) (ha : a ∉ xs ++ b :: ys)
    (hc : c ∉ xs ++ b :: ys) : (l.unlink b).Path a (xs ++ ys) c := by
  have hnb : l.next b ≠ b := by
    intro h
    have hmem := path_next hy
    rw [h, List.mem_append, List.mem_singleton] at hmem
    rcases hmem with hmem | rfl
    · exact (List.nodup_cons.mp (List.nodup_append.mp hnodup).2.1).1 hmem
    · simp at hc
  induction xs generalizing a with
  | nil =>
    have hab : l.prev b = a := hx.2
    cases ys with
    | nil =>
      refine ⟨?_, ?_⟩
      · rw [unlink_next hnb, hab, update_self]
        exact hy.1
      · rw [unlink_prev, hy.1, hab, update_self]
    | cons y ys =>
      have hby : l.next b = y := hy.1.1
      simp only [List.nil_append, List.nodup_cons, List.mem_cons, not_or] at hnodup ha hc
      refine ⟨⟨?_, ?_⟩, path_congr hy.2 ?_ ?_⟩
      · rw [unlink_next hnb, hab, update_self, hby]
      · rw [unlink_prev, hby, hab, update_self]
      · intro x hx'
        rw [unlink_next hnb, hab]
        refine update_of_ne ?_ _ _
        rintro rfl
        simp_all
      · intro x hx'
        rw [unlink_prev, hby]
        refine update_of_ne ?_ _ _
        rintro rfl
        simp_all
  | cons x xs ih =>
    have hrest := ih hx.2 (List.nodup_cons.mp hnodup).2 (List.nodup_cons.mp hnodup).1
      (fun h => hc (List.mem_cons_of_mem x h))
    refine ⟨⟨?_, ?_⟩, hrest⟩
    · rw [unlink_next hnb, update_of_ne]
      · exact hx.1.1
      · intro h
        have hmem := path_prev hx.2
        rw [← h] at hmem
        exact ha (by simp_all)
    · rw [unlink_prev, update_of_ne]
      · exact hx.1.2
      · rintro rfl
        have hmem := path_next hy
        rw [List.mem_append, List.mem_singleton] at hmem
        rcases hmem with hmem | hmem
        · exact (List.nodup_cons.mp hnodup).1 (by simp [hmem])
        · exact hc (by simp [← hmem])

theorem Ring.unlink {l : Links α} {head b : α} {xs : List α} (h : l.Ring head xs) (hb : b ∈ xs) :
    (l.unlink b).Ring head (xs.erase b) := by
  obtain ⟨ys, zs, rfl⟩ := List.append_of_mem hb
  have hnodup := (List.nodup_cons.mp h.nodup).2
  have hys : b ∉ ys := fun hmem =>
    (List.nodup_append.mp hnodup).2.2 b hmem b (by simp) rfl
  have hhead := (List.nodup_cons.mp h.nodup).1
  rw [List.erase_append_right _ hys, List.erase_cons_head]
  refine ⟨?_, ?_⟩
  · refine List.Nodup.sublist ?_ h.nodup
    exact List.Sublist.cons_cons _ (List.Sublist.append_left (List.sublist_cons_self b zs) ys)
  · obtain ⟨hpre, hpost⟩ := path_append.mp h.path
    exact path_unlink hpre hpost hnodup hhead hhead

theorem Ring.insertFront {l : Links α} {head b : α} {xs : List α} (h : l.Ring head xs)
    (hb : b ∉ head :: xs) : (l.insertFront head b).Ring head (b :: xs) := by
  simp only [List.mem_cons, not_or] at hb
  have hnodup := List.nodup_cons.mp h.nodup
  refine ⟨?_, ?_, ?_⟩
  · simp only [List.nodup_cons, List.mem_cons, not_or]
    exact ⟨⟨Ne.symm hb.1, hnodup.1⟩, hb.2, hnodup.2⟩
  · have hnb : b ≠ l.next head := by
      intro hnb
      have hmem := path_next h.path
      rw [← hnb] at hmem
      simp_all
    simp only [Links.insertFront, update_self, true_and,
      update_of_ne (Ne.symm hb.1), update_of_ne hnb]
  · have hpath := h.path
    cases xs with
    | nil =>
      simp only [Path] at hpath
      simp only [Path, Links.insertFront, update_of_ne hb.1,
        update_of_ne (Ne.symm hb.1), update_self, hpath.1, and_self]
    | cons x xs =>
      have hx : l.next head = x := hpath.1.1
      simp only [List.mem_cons, not_or] at hb
      refine ⟨⟨?_, ?_⟩, path_congr hpath.2 ?_ ?_⟩
      · simp only [Links.insertFront, update_of_ne hb.1, update_self, hx]
      · simp only [Links.insertFront, update_of_ne (Ne.symm hb.1), hx, update_self]
      · intro y hy
        have hyh : y ≠ head := by
          rintro rfl
          exact hnodup.1 hy
        have hyb : y ≠ b := by
          rintro rfl
          simp_all
        simp only [Links.insertFront, update_of_ne hyh, update_of_ne hyb]
      · intro y hy
        have hyx : y ≠ x := by
          rintro rfl
          simp_all
        have hyb : y ≠ b := by
          rintro rfl
          simp_all
        simp only [Links.insertFront, update_of_ne (Ne.symm hb.1), hx,
          update_of_ne hyx, update_of_ne hyb]

/-- A walk from any node of a path finds the first node of the rest that meets `P`. -/
theorem scan_next {l : Links α} {head a : α} {xs : List α} (P : α → Bool)
    (h : l.Path a xs head) (hhead : head ∉ xs) {fuel : ℕ} (hfuel : xs.length < fuel) :
    scan l.next head P fuel (l.next a) = xs.find? P := by
  induction xs generalizing a fuel with
  | nil =>
    obtain ⟨fuel, rfl⟩ := Nat.exists_eq_succ_of_ne_zero (Nat.pos_iff_ne_zero.mp hfuel)
    simp [scan, h.1]
  | cons x xs ih =>
    obtain ⟨fuel, rfl⟩ := Nat.exists_eq_succ_of_ne_zero (Nat.pos_iff_ne_zero.mp (Nat.zero_lt_of_lt hfuel))
    have hne : x ≠ head := fun hx => hhead (by simp [hx])
    have hrest := ih h.2 (fun hmem => hhead (List.mem_cons_of_mem x hmem))
      (Nat.lt_of_succ_lt_succ hfuel)
    rw [scan, h.1.1, if_neg hne, List.find?_cons]
    cases hP : P x
    · simpa using hrest
    · simp

theorem Ring.scan_next {l : Links α} {head : α} {xs : List α} (h : l.Ring head xs) (P : α → Bool)
    {fuel : ℕ} (hfuel : xs.length < fuel) :
    scan l.next head P fuel (l.next head) = xs.find? P :=
  Links.scan_next P h.path (List.nodup_cons.mp h.nodup).1 hfuel

theorem Ring.scan_prev {l : Links α} {head : α} {xs : List α} (h : l.Ring head xs) (P : α → Bool)
    {fuel : ℕ} (hfuel : xs.length < fuel) :
    scan l.prev head P fuel (l.prev head) = xs.reverse.find? P :=
  Links.scan_next P (path_flip h.path) (by simpa using (List.nodup_cons.mp h.nodup).1) (by simpa using hfuel)

end Links

end Xv6
