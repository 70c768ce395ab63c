import Xv6.Icache

/-! The invariant of the inode table: how many pointers there are to each entry, who has its
sleep-lock, and when its copy agrees with the inode on disk. -/
namespace Xv6.Icache

/-- The pointer through which a process inside `ilock` or `iput` has the sleep-lock. -/
def Pt.locks : Pt → Option ℕ
  | .load h | .noType h => some h
  | .putTrunc h | .putTruncUpdate h | .putType h | .putUpdate h | .putInvalid h | .putUnlock h =>
    some h
  | _ => none

/-- The pointers through which a process has sleep-locks. -/
def Proc.locks (x : Proc) : List ℕ := x.pt.locks.toList ++ x.held.map Held.ptr

namespace St

/-- The number of pointers to entry `i`. -/
def refs (s : St) (i : ℕ) : ℕ := ((Finset.range s.next).filter (fun h => s.ptr h = some i)).card

/-- The inode on disk that entry `i` is a copy of. -/
def onDisk (s : St) (i : ℕ) : Dinode := s.dinode (s.itable i).dev (s.itable i).inum

/-- The entries that process `p` has locked. -/
def locked (s : St) (p : ℕ) : List ℕ := (s.proc p).locks.filterMap s.ptr

/-- Entry `i` agrees with the disk. -/
def Coherent (s : St) (i : ℕ) : Prop := (s.itable i).copy = s.onDisk i ∧ (s.onDisk i).type ≠ 0

/-- Entry `i` is locked and perhaps changed; `ialloc` does not touch its inode. -/
def Allocated (s : St) (i : ℕ) : Prop :=
  (s.itable i).copy.type = (s.onDisk i).type ∧ (s.onDisk i).type ≠ 0

end St

/-- What holds inside `ilock` and at the end of the critical section of `iput`. -/
def Pt.Ok (s : St) : Pt → Prop
  | .load h => ∀ i, s.ptr h = some i → (s.itable i).valid = true → s.Coherent i
  | .putUnlock h => ∀ i, s.ptr h = some i → (s.itable i).valid = false
  | _ => True

/-- What holds of an inode that a process has locked. -/
def Held.Ok (s : St) (x : Held) : Prop :=
  ∀ i, s.ptr x.ptr = some i →
    (s.itable i).valid = true ∧ s.Allocated i ∧ (x.dirty = false → s.Coherent i)

structure Inv (s : St) : Prop where
  unique : ∀ i j, 0 < (s.itable i).ref → 0 < (s.itable j).ref →
    (s.itable i).dev = (s.itable j).dev → (s.itable i).inum = (s.itable j).inum → i = j
  refs : ∀ i, (s.itable i).ref = s.refs i
  ptrs : ∀ h i, s.ptr h = some i → h < s.next ∧ i < NINODE
  uses : ∀ p, ∀ h ∈ (s.proc p).uses, s.ptr h ≠ none
  puts : ∀ p q h, (s.proc p).pt.puts = some h → h ∈ (s.proc q).uses →
    q = p ∧ h ∉ (s.proc p).held.map Held.ptr
  lock : ∀ i p, (s.itable i).lock = some p ↔ i ∈ s.locked p
  nodup : ∀ p, (s.locked p).Nodup
  clean : ∀ i, 0 < (s.itable i).ref → (s.itable i).lock = none → (s.itable i).valid = true →
    s.Coherent i
  pt : ∀ p, (s.proc p).pt.Ok s
  held : ∀ p, ∀ x ∈ (s.proc p).held, x.Ok s

theorem Pt.uses_of_locks {pt : Pt} {h : ℕ} (hl : pt.locks = some h) : pt.uses = some h := by
  cases pt <;> simp_all [Pt.locks, Pt.uses]

theorem Pt.uses_of_puts {pt : Pt} {h : ℕ} (hl : pt.puts = some h) : pt.uses = some h := by
  cases pt <;> simp_all [Pt.puts, Pt.uses]

theorem Proc.uses_of_locks {x : Proc} {h : ℕ} (hl : h ∈ x.locks) : h ∈ x.uses := by
  simp only [Proc.locks, Proc.uses, List.mem_append, Option.mem_toList] at hl ⊢
  exact hl.imp_left Pt.uses_of_locks

theorem nodup_filterMap_inj {α β : Type*} {f : α → Option β} {l : List α}
    (h : (l.filterMap f).Nodup) {a b : α} {c : β} (ha : a ∈ l) (hb : b ∈ l) (hfa : f a = some c)
    (hfb : f b = some c) : a = b := by
  obtain ⟨l₁, l₂, rfl⟩ := List.append_of_mem ha
  rw [List.filterMap_append, List.filterMap_cons, hfa, List.nodup_middle, List.nodup_cons,
    List.mem_append] at h
  simp only [List.mem_append, List.mem_cons] at hb
  rcases hb with hb | rfl | hb
  · exact absurd (.inl (List.mem_filterMap.mpr ⟨b, hb, hfb⟩)) h.1
  · rfl
  · exact absurd (.inr (List.mem_filterMap.mpr ⟨b, hb, hfb⟩)) h.1

/-- What a process does not change of an inode that it has locked. -/
def Inode.Like (x y : Inode) : Prop := x.ref = y.ref ∧ x.dev = y.dev ∧ x.inum = y.inum ∧ x.lock = y.lock

namespace Inv

variable {s t : St} {p : ℕ} {x : Proc}

theorem ref_pos (h : Inv s) {j k : ℕ} (hj : s.ptr k = some j) : 0 < (s.itable j).ref := by
  rw [h.refs j, St.refs, Finset.card_pos]
  exact ⟨k, by simp [hj, (h.ptrs k j hj).1]⟩

theorem ref_pos_of_locked (h : Inv s) {j q : ℕ} (hj : j ∈ s.locked q) : 0 < (s.itable j).ref := by
  obtain ⟨k, -, hk⟩ := List.mem_filterMap.mp hj
  exact h.ref_pos hk

/-- What is left to show of a step of process `p` to `x`: the table and the pointers, the new place
and locks of `p`, and that what another process has locked or what is unlocked and valid stays. -/
theorem step (h : Inv s) (hproc : t.proc = update s.proc p x)
    (hunique : ∀ i j, 0 < (t.itable i).ref → 0 < (t.itable j).ref →
      (t.itable i).dev = (t.itable j).dev → (t.itable i).inum = (t.itable j).inum → i = j)
    (hrefs : ∀ i, (t.itable i).ref = t.refs i)
    (hptrs : ∀ k i, t.ptr k = some i → k < t.next ∧ i < NINODE)
    (hsame : ∀ q, q ≠ p → ∀ k ∈ (s.proc q).uses, t.ptr k = s.ptr k)
    (huse : ∀ k ∈ x.uses, t.ptr k ≠ none ∧ ∀ q, q ≠ p → (s.proc q).pt.puts ≠ some k)
    (hput : ∀ k, x.pt.puts = some k →
      k ∉ x.held.map Held.ptr ∧ ∀ q, q ≠ p → k ∉ (s.proc q).uses)
    (hlock : ∀ i, (∀ q, q ≠ p → ((t.itable i).lock = some q ↔ (s.itable i).lock = some q)) ∧
      ((t.itable i).lock = some p ↔ i ∈ x.locks.filterMap t.ptr))
    (hnodup : (x.locks.filterMap t.ptr).Nodup)
    (hclean : ∀ i, 0 < (t.itable i).ref → (t.itable i).lock = none → (t.itable i).valid = true →
      t.Coherent i)
    (hother : ∀ q, q ≠ p → ∀ i ∈ s.locked q, (t.itable i).valid = (s.itable i).valid ∧
      (s.Coherent i → t.Coherent i) ∧ (s.Allocated i → t.Allocated i))
    (hpt : x.pt.Ok t) (hheld : ∀ y ∈ x.held, y.Ok t) : Inv t := by
  have hself : t.proc p = x := by rw [hproc, update_self]
  have hne : ∀ q, q ≠ p → t.proc q = s.proc q := fun q hq => by rw [hproc, update_of_ne hq]
  have hlocked : ∀ q, q ≠ p → t.locked q = s.locked q := by
    intro q hq
    rw [St.locked, St.locked, hne q hq]
    exact List.filterMap_congr (fun k hk => hsame q hq k (Proc.uses_of_locks hk))
  refine ⟨hunique, hrefs, hptrs, ?_, ?_, ?_, ?_, hclean, ?_, ?_⟩
  · intro q k hk
    by_cases hq : q = p
    · subst hq
      rw [hself] at hk
      exact (huse k hk).1
    · rw [hne q hq] at hk
      rw [hsame q hq k hk]
      exact h.uses q k hk
  · intro q r k hk hr
    by_cases hq : q = p
    · subst hq
      rw [hself] at hk ⊢
      refine ⟨?_, (hput k hk).1⟩
      by_contra hrq
      rw [hne r hrq] at hr
      exact (hput k hk).2 r hrq hr
    · rw [hne q hq] at hk ⊢
      by_cases hrp : r = p
      · subst hrp
        rw [hself] at hr
        exact absurd hk ((huse k hr).2 q hq)
      · rw [hne r hrp] at hr
        exact h.puts q r k hk hr
  · intro i q
    by_cases hq : q = p
    · subst hq
      rw [St.locked, hself]
      exact (hlock i).2
    · rw [hlocked q hq, ← h.lock]
      exact (hlock i).1 q hq
  · intro q
    by_cases hq : q = p
    · subst hq
      rw [St.locked, hself]
      exact hnodup
    · rw [hlocked q hq]
      exact h.nodup q
  · intro q
    by_cases hq : q = p
    · rwa [hq, hself]
    · rw [hne q hq]
      have hok := h.pt q
      have huses : ∀ k, (s.proc q).pt.locks = some k → t.ptr k = s.ptr k ∧
          ∀ i, s.ptr k = some i → i ∈ s.locked q := by
        intro k hk
        have hmem : k ∈ (s.proc q).locks := by simp [Proc.locks, hk]
        exact ⟨hsame q hq k (Proc.uses_of_locks hmem),
          fun i hi => List.mem_filterMap.mpr ⟨k, hmem, hi⟩⟩
      cases hpt' : (s.proc q).pt with
      | load k =>
        rw [hpt'] at hok huses
        obtain ⟨hptr, hin⟩ := huses k rfl
        intro i hi hv
        rw [hptr] at hi
        obtain ⟨hvalid, hcoh, -⟩ := hother q hq i (hin i hi)
        exact hcoh (hok i hi (hvalid ▸ hv))
      | putUnlock k =>
        rw [hpt'] at hok huses
        obtain ⟨hptr, hin⟩ := huses k rfl
        intro i hi
        rw [hptr] at hi
        rw [(hother q hq i (hin i hi)).1]
        exact hok i hi
      | _ => trivial
  · intro q y hy
    by_cases hq : q = p
    · subst hq
      rw [hself] at hy
      exact hheld y hy
    · rw [hne q hq] at hy
      have hmem : y.ptr ∈ (s.proc q).locks := by
        simp only [Proc.locks, List.mem_append]
        exact .inr (List.mem_map_of_mem hy)
      intro i hi
      rw [hsame q hq y.ptr (Proc.uses_of_locks hmem)] at hi
      obtain ⟨hv, hall, hclean⟩ := h.held q y hy i hi
      obtain ⟨hvalid, hcoh, halloc⟩ :=
        hother q hq i (List.mem_filterMap.mpr ⟨y.ptr, hmem, hi⟩)
      exact ⟨hvalid.trans hv, halloc hall, fun hd => hcoh (hclean hd)⟩

theorem uses_ok (h : Inv s) {k : ℕ} (hk : k ∈ (s.proc p).uses) :
    s.ptr k ≠ none ∧ ∀ q, q ≠ p → (s.proc q).pt.puts ≠ some k :=
  ⟨h.uses p k hk, fun q hq hput => hq (h.puts q p k hput hk).1.symm⟩

theorem puts_ok (h : Inv s) {k : ℕ} (hk : (s.proc p).pt.puts = some k) :
    k ∉ (s.proc p).held.map Held.ptr ∧ ∀ q, q ≠ p → k ∉ (s.proc q).uses := by
  have hmem : k ∈ (s.proc p).uses := by
    simp only [Proc.uses, List.mem_append, Option.mem_toList]
    exact .inl (Pt.uses_of_puts hk)
  exact ⟨(h.puts p p k hk hmem).2, fun q hq hkq => hq (h.puts p q k hk hkq).1⟩

theorem move (h : Inv s) (hproc : t.proc = update s.proc p x) (hptr : t.ptr = s.ptr)
    (hnext : t.next = s.next) (href : ∀ i, (t.itable i).ref = (s.itable i).ref)
    (hdev : ∀ i, (t.itable i).dev = (s.itable i).dev)
    (hinum : ∀ i, (t.itable i).inum = (s.itable i).inum)
    (huse : ∀ k ∈ x.uses, s.ptr k ≠ none ∧ ∀ q, q ≠ p → (s.proc q).pt.puts ≠ some k)
    (hput : ∀ k, x.pt.puts = some k →
      k ∉ x.held.map Held.ptr ∧ ∀ q, q ≠ p → k ∉ (s.proc q).uses)
    (hlock : ∀ i, (∀ q, q ≠ p → ((t.itable i).lock = some q ↔ (s.itable i).lock = some q)) ∧
      ((t.itable i).lock = some p ↔ i ∈ x.locks.filterMap s.ptr))
    (hnodup : (x.locks.filterMap s.ptr).Nodup)
    (hclean : ∀ i, 0 < (s.itable i).ref → (t.itable i).lock = none → (t.itable i).valid = true →
      t.Coherent i)
    (hother : ∀ q, q ≠ p → ∀ i ∈ s.locked q, (t.itable i).valid = (s.itable i).valid ∧
      (s.Coherent i → t.Coherent i) ∧ (s.Allocated i → t.Allocated i))
    (hpt : x.pt.Ok t) (hheld : ∀ y ∈ x.held, y.Ok t) : Inv t := by
  refine h.step hproc ?_ ?_ ?_ (fun _ _ k _ => congrFun hptr k) (hptr ▸ huse) hput (hptr ▸ hlock)
    (hptr ▸ hnodup) ?_ hother hpt hheld
  · intro i j hi hj hd hn
    rw [href] at hi hj
    rw [hdev, hdev] at hd
    rw [hinum, hinum] at hn
    exact h.unique i j hi hj hd hn
  · intro i
    rw [href, h.refs i, St.refs, St.refs, hptr, hnext]
  · rw [hptr, hnext]
    exact h.ptrs
  · intro i hi
    rw [href] at hi
    exact hclean i hi

theorem setProc (h : Inv s)
    (huse : ∀ k ∈ x.uses, s.ptr k ≠ none ∧ ∀ q, q ≠ p → (s.proc q).pt.puts ≠ some k)
    (hput : ∀ k, x.pt.puts = some k →
      k ∉ x.held.map Held.ptr ∧ ∀ q, q ≠ p → k ∉ (s.proc q).uses)
    (hlocks : x.locks = (s.proc p).locks) (hpt : x.pt.Ok s) (hheld : ∀ y ∈ x.held, y.Ok s) :
    Inv (s.setProc p x) := by
  refine h.move rfl rfl rfl (fun _ => rfl) (fun _ => rfl) (fun _ => rfl) huse hput (fun i => ?_) ?_
    h.clean (fun _ _ _ _ => ⟨rfl, id, id⟩) ?_ hheld
  · rw [hlocks]
    exact ⟨fun _ _ => .rfl, h.lock i p⟩
  · rw [hlocks]
    exact h.nodup p
  · cases hx : x.pt <;> rw [hx] at hpt <;> exact hpt

theorem ne_of_locked (h : Inv s) {i j q : ℕ} (hi : i ∈ s.locked p) (hq : q ≠ p)
    (hj : j ∈ s.locked q) : j ≠ i := by
  rintro rfl
  exact hq (Option.some.inj (((h.lock j q).mpr hj).symm.trans ((h.lock j p).mpr hi)))

theorem onDisk_ne (h : Inv s) {i j : ℕ} (hi : 0 < (s.itable i).ref) (hj : 0 < (s.itable j).ref)
    (hne : j ≠ i) : ¬ ((s.itable j).dev = (s.itable i).dev ∧ (s.itable j).inum = (s.itable i).inum) :=
  fun hsame => hne (h.unique j i hj hi hsame.1 hsame.2)

theorem own_frame {i : ℕ} (h : Inv s) (hi : 0 < (s.itable i).ref)
    (hne : ∀ j, j ≠ i → t.itable j = s.itable j)
    (hdisk : ∀ dev inum, ¬ (dev = (s.itable i).dev ∧ inum = (s.itable i).inum) →
      t.dinode dev inum = s.dinode dev inum) (j : ℕ) (hj : j ≠ i) (hpos : 0 < (s.itable j).ref) :
    (s.Coherent j → t.Coherent j) ∧ (s.Allocated j → t.Allocated j) := by
  have honDisk : t.onDisk j = s.onDisk j := by
    rw [St.onDisk, St.onDisk, hne j hj]
    exact hdisk _ _ (h.onDisk_ne hi hpos hj)
  simp only [St.Coherent, St.Allocated, honDisk, hne j hj]
  exact ⟨id, id⟩

/-- A step of process `p` on the entry `i` that it has locked, and on its inode on disk. -/
theorem own {i : ℕ} (h : Inv s) (hi : i ∈ s.locked p) (hproc : t.proc = update s.proc p x)
    (hptr : t.ptr = s.ptr) (hnext : t.next = s.next)
    (hne : ∀ j, j ≠ i → t.itable j = s.itable j)
    {y : Inode} (hself : t.itable i = y) (hy : y.Like (s.itable i))
    (hdisk : ∀ dev inum, ¬ (dev = (s.itable i).dev ∧ inum = (s.itable i).inum) →
      t.dinode dev inum = s.dinode dev inum)
    (huse : ∀ k ∈ x.uses, k ∈ (s.proc p).uses)
    (hput : ∀ k, x.pt.puts = some k → (s.proc p).pt.puts = some k)
    (hlocks : x.locks = (s.proc p).locks) (hmap : x.held.map Held.ptr ⊆ (s.proc p).held.map Held.ptr ∨
      x.pt.puts = none) (hpt : x.pt.Ok t) (hheld : ∀ y ∈ x.held, y.Ok t) : Inv t := by
  have hframe := h.own_frame (h.ref_pos_of_locked hi) hne hdisk
  have hfield : ∀ {β : Type} (f : Inode → β), f y = f (s.itable i) →
      ∀ j, f (t.itable j) = f (s.itable j) := by
    intro β f hf j
    by_cases hj : j = i
    · rw [hj, hself, hf]
    · rw [hne j hj]
  have hlock := hfield Inode.lock hy.2.2.2
  refine h.move hproc hptr hnext (hfield Inode.ref hy.1) (hfield Inode.dev hy.2.1)
    (hfield Inode.inum hy.2.2.1) (fun k hk => h.uses_ok (huse k hk)) (fun k hk => ?_)
    (fun j => ?_) ?_ ?_ ?_ hpt hheld
  · have hok := h.puts_ok (hput k hk)
    refine ⟨fun hmem => ?_, hok.2⟩
    rcases hmap with hmap | hnone
    · exact hok.1 (hmap hmem)
    · rw [hnone] at hk
      cases hk
  · rw [hlock, hlocks]
    exact ⟨fun _ _ => .rfl, h.lock j p⟩
  · rw [hlocks]
    exact h.nodup p
  · intro j hjpos hfree hv
    have hj : j ≠ i := by
      rintro rfl
      rw [hlock, (h.lock j p).mpr hi] at hfree
      cases hfree
    rw [hne j hj] at hfree hv
    exact (hframe j hj hjpos).1 (h.clean j hjpos hfree hv)
  · intro q hq j hj
    have hji := h.ne_of_locked hi hq hj
    exact ⟨by rw [hne j hji], hframe j hji (h.ref_pos_of_locked hj)⟩

theorem held_frame {i : ℕ} {y : Held} (h : Inv s) (hptr : t.ptr = s.ptr)
    (hi : 0 < (s.itable i).ref) (hne : ∀ j, j ≠ i → t.itable j = s.itable j)
    (hdisk : ∀ dev inum, ¬ (dev = (s.itable i).dev ∧ inum = (s.itable i).inum) →
      t.dinode dev inum = s.dinode dev inum) (hy : y ∈ (s.proc p).held)
    (hyi : s.ptr y.ptr ≠ some i) : y.Ok t := by
  intro j hj
  rw [hptr] at hj
  have hji : j ≠ i := fun hji => hyi (hji ▸ hj)
  obtain ⟨hv, hall, hcoh⟩ := h.held p y hy j hj
  obtain ⟨hc, ha⟩ := h.own_frame hi hne hdisk j hji (h.ref_pos hj)
  rw [hne j hji]
  exact ⟨hv, ha hall, fun hd => hc (hcoh hd)⟩

theorem held_ne_pt {i k : ℕ} (h : Inv s) (hk : (s.proc p).pt.locks = some k) (hi : s.ptr k = some i)
    {y : Held} (hy : y ∈ (s.proc p).held) : s.ptr y.ptr ≠ some i := by
  intro hyi
  have hnodup := h.nodup p
  simp only [St.locked, Proc.locks, hk, Option.toList_some, List.singleton_append,
    List.filterMap_cons, hi, List.nodup_cons] at hnodup
  exact hnodup.1 (List.mem_filterMap.mpr ⟨y.ptr, List.mem_map_of_mem hy, hyi⟩)

theorem mem_locked_pt {i k : ℕ} (hk : (s.proc p).pt.locks = some k) (hi : s.ptr k = some i) :
    i ∈ s.locked p :=
  List.mem_filterMap.mpr ⟨k, by simp [Proc.locks, hk], hi⟩

theorem mem_locked_held {i k : ℕ} (hk : k ∈ (s.proc p).held.map Held.ptr) (hi : s.ptr k = some i) :
    i ∈ s.locked p :=
  List.mem_filterMap.mpr ⟨k, by simp only [Proc.locks, List.mem_append]; exact .inr hk, hi⟩

theorem held_inj {i : ℕ} (h : Inv s) {j k : ℕ} (hj : j ∈ (s.proc p).held.map Held.ptr)
    (hk : k ∈ (s.proc p).held.map Held.ptr) (hji : s.ptr j = some i) (hki : s.ptr k = some i) :
    j = k := by
  refine nodup_filterMap_inj (h.nodup p) ?_ ?_ hji hki
  · simp only [Proc.locks, List.mem_append]
    exact .inr hj
  · simp only [Proc.locks, List.mem_append]
    exact .inr hk

end Inv

@[simp] theorem setInode_self (s : St) (i : ℕ) (x : Inode) : (s.setInode i x).itable i = x :=
  update_self ..

theorem setInode_of_ne (s : St) {i j : ℕ} (x : Inode) (h : j ≠ i) :
    (s.setInode i x).itable j = s.itable j :=
  update_of_ne h ..

theorem setInode_field {β : Type} (f : Inode → β) (s : St) {i : ℕ} {x : Inode} (hf : f x = f (s.itable i))
    (j : ℕ) : f ((s.setInode i x).itable j) = f (s.itable j) := by
  by_cases hj : j = i
  · rw [hj, setInode_self, hf]
  · rw [setInode_of_ne s _ hj]

/-- All entries but for their counts and locks, and the disk. -/
structure SameCopies (s t : St) : Prop where
  dinode : t.dinode = s.dinode
  dev : ∀ j, (t.itable j).dev = (s.itable j).dev
  inum : ∀ j, (t.itable j).inum = (s.itable j).inum
  valid : ∀ j, (t.itable j).valid = (s.itable j).valid
  copy : ∀ j, (t.itable j).copy = (s.itable j).copy

namespace SameCopies

variable {s t : St} {i : ℕ} {x : Inode}

theorem of_setInode (hdisk : t.dinode = s.dinode) (ht : t.itable = (s.setInode i x).itable)
    (hdev : x.dev = (s.itable i).dev) (hinum : x.inum = (s.itable i).inum)
    (hvalid : x.valid = (s.itable i).valid) (hcopy : x.copy = (s.itable i).copy) : SameCopies s t := by
  refine ⟨hdisk, ?_, ?_, ?_, ?_⟩ <;> rw [ht]
  · exact setInode_field Inode.dev s hdev
  · exact setInode_field Inode.inum s hinum
  · exact setInode_field Inode.valid s hvalid
  · exact setInode_field Inode.copy s hcopy

theorem coherent (h : SameCopies s t) {j : ℕ} (hj : s.Coherent j) : t.Coherent j := by
  simpa only [St.Coherent, St.onDisk, h.copy, h.dev, h.inum, h.dinode] using hj

theorem allocated (h : SameCopies s t) {j : ℕ} (hj : s.Allocated j) : t.Allocated j := by
  simpa only [St.Allocated, St.onDisk, h.copy, h.dev, h.inum, h.dinode] using hj

theorem held (h : SameCopies s t) {y : Held} (hptr : t.ptr y.ptr = s.ptr y.ptr) (hy : y.Ok s) : y.Ok t := by
  intro j hj
  obtain ⟨hv, ha, hc⟩ := hy j (hptr.symm.trans hj)
  exact ⟨(h.valid j).trans hv, h.allocated ha, fun hd => h.coherent (hc hd)⟩

end SameCopies

theorem setDinode_self (s : St) (dev inum : ℕ) (d : Dinode) :
    (s.setDinode dev inum d).dinode dev inum = d := by
  simp [St.setDinode]

theorem setDinode_of_ne (s : St) {dev inum dev' inum' : ℕ} (d : Dinode)
    (h : ¬ (dev' = dev ∧ inum' = inum)) :
    (s.setDinode dev inum d).dinode dev' inum' = s.dinode dev' inum' := by
  by_cases hd : dev' = dev
  · subst hd
    have hn : inum' ≠ inum := fun hn => h ⟨rfl, hn⟩
    simp [St.setDinode, update_of_ne hn]
  · simp [St.setDinode, update_of_ne hd]

theorem setInode_eq_self (s : St) (i : ℕ) : s.setInode i (s.itable i) = s := by
  rw [St.setInode, update_eq_self]

theorem setPt_self {s : St} {p : ℕ} {pt : Pt} (h : (s.proc p).pt = pt) : s.setPt p pt = s := by
  subst h
  exact congrArg (fun f => { s with proc := f }) (update_eq_self p s.proc)

theorem Held.map_ptr_mark (h : ℕ) (b : Bool) (held : List Held) :
    (Held.mark h b held).map Held.ptr = held.map Held.ptr := by
  simp only [Held.mark, List.map_map]
  refine List.map_congr_left (fun x _ => ?_)
  simp only [Function.comp_apply]
  split_ifs <;> rfl

theorem Held.mem_mark {h : ℕ} {b : Bool} {held : List Held} {y : Held}
    (hy : y ∈ Held.mark h b held) :
    (y.ptr = h ∧ y.dirty = b ∧ h ∈ held.map Held.ptr) ∨ (y.ptr ≠ h ∧ y ∈ held) := by
  obtain ⟨z, hz, rfl⟩ := List.mem_map.mp hy
  by_cases hzh : z.ptr = h
  · rw [if_pos hzh]
    exact .inl ⟨hzh, rfl, hzh ▸ List.mem_map_of_mem hz⟩
  · rw [if_neg hzh]
    exact .inr ⟨hzh, hz⟩

namespace Inv

variable {s t : St} {p i h : ℕ}

theorem heldStep {b : Bool} {x : Inode} {d : ℕ → ℕ → Dinode} (hinv : Inv s)
    (hrun : (s.proc p).pt = .run) (hk : h ∈ (s.proc p).held.map Held.ptr) (hi : s.ptr h = some i)
    (hx : x.Like (s.itable i))
    (hdisk : ∀ dev inum, ¬ (dev = (s.itable i).dev ∧ inum = (s.itable i).inum) →
      d dev inum = s.dinode dev inum)
    (hvalid : x.valid = true) (htype : x.copy.type = (d x.dev x.inum).type)
    (hne0 : (d x.dev x.inum).type ≠ 0) (hclean : b = false → x.copy = d x.dev x.inum) :
    Inv ({ s.setInode i x with dinode := d }.setProc p ⟨.run, Held.mark h b (s.proc p).held⟩) := by
  have hne : ∀ j, j ≠ i → (s.setInode i x).itable j = s.itable j :=
    fun j hj => setInode_of_ne s x hj
  have hself : (s.setInode i x).itable i = x := setInode_self ..
  refine hinv.own (mem_locked_held hk hi) rfl rfl rfl hne hself hx hdisk ?_ ?_ ?_ (.inr rfl) trivial ?_
  · simp only [Proc.uses, Held.map_ptr_mark, hrun]
    exact fun k hk => hk
  · exact fun k hk' => by cases hk'
  · simp only [Proc.locks, Held.map_ptr_mark, hrun]
  · intro y hy
    rcases Held.mem_mark hy with ⟨hyh, hyb, -⟩ | ⟨hyh, hy⟩
    · intro j hj
      change s.ptr y.ptr = some j at hj
      rw [hyh, hi] at hj
      cases hj
      simp only [St.Coherent, St.Allocated, St.onDisk, St.setProc, hself]
      exact ⟨hvalid, ⟨htype, hne0⟩, fun hd => ⟨hclean (hyb.symm.trans hd), hne0⟩⟩
    · refine hinv.held_frame
        (t := { s.setInode i x with dinode := d }.setProc p ⟨.run, Held.mark h b (s.proc p).held⟩)
        rfl (hinv.ref_pos hi) hne hdisk hy (fun hyi => hyh ?_)
      exact hinv.held_inj (List.mem_map_of_mem hy) hk hyi hi

theorem stage {pt : Pt} {x : Inode} {d : ℕ → ℕ → Dinode} (hinv : Inv s)
    (hk : (s.proc p).pt.locks = some h) (hi : s.ptr h = some i) (hx : x.Like (s.itable i))
    (hdisk : ∀ dev inum, ¬ (dev = (s.itable i).dev ∧ inum = (s.itable i).inum) →
      d dev inum = s.dinode dev inum)
    (hlocks : pt.locks = some h) (huses : pt.uses = (s.proc p).pt.uses)
    (hputs : pt.puts = (s.proc p).pt.puts)
    (hpt : pt.Ok ({ s.setInode i x with dinode := d }.setPt p pt)) :
    Inv ({ s.setInode i x with dinode := d }.setPt p pt) := by
  have hne : ∀ j, j ≠ i → (s.setInode i x).itable j = s.itable j :=
    fun j hj => setInode_of_ne s x hj
  refine hinv.own (mem_locked_pt hk hi) rfl rfl rfl hne (setInode_self ..) hx hdisk ?_ ?_ ?_
    (.inl (List.Subset.refl _)) hpt ?_
  · simp only [Proc.uses, huses]
    exact fun k hk => hk
  · intro k hk'
    rw [← hputs]
    exact hk'
  · simp only [Proc.locks, hlocks, hk]
    rfl
  · intro y hy
    exact hinv.held_frame (t := { s.setInode i x with dinode := d }.setPt p pt) rfl
      (hinv.ref_pos hi) hne hdisk hy (hinv.held_ne_pt hk hi hy)

theorem acquire {pt : Pt} (hinv : Inv s) (hi : s.ptr h = some i) (hfree : (s.itable i).lock = none)
    (hold : (s.proc p).pt.locks = none) (hlocks : pt.locks = some h)
    (huse : pt.uses = some h ∧ ∀ q, q ≠ p → (s.proc q).pt.puts ≠ some h)
    (hput : pt.puts = some h → h ∉ (s.proc p).held.map Held.ptr ∧
      ∀ q, q ≠ p → h ∉ (s.proc q).uses)
    (hpt : pt.Ok ((s.setLock i (some p)).setPt p pt)) :
    Inv ((s.setLock i (some p)).setPt p pt) := by
  have hnot : ∀ q, i ∉ s.locked q := by
    intro q hq
    rw [← hinv.lock, hfree] at hq
    cases hq
  have hsame : SameCopies s ((s.setLock i (some p)).setPt p pt) := .of_setInode rfl rfl rfl rfl rfl rfl
  have hlocked : (Proc.mk pt (s.proc p).held).locks.filterMap s.ptr = i :: s.locked p := by
    simp only [Proc.locks, hlocks, hold, St.locked, Option.toList_some, Option.toList_none,
      List.singleton_append, List.nil_append, List.filterMap_cons, hi]
  refine hinv.move (x := ⟨pt, (s.proc p).held⟩) rfl rfl rfl (setInode_field Inode.ref s rfl)
    hsame.dev hsame.inum ?_ ?_ ?_ ?_ ?_ (fun _ _ j _ => ⟨hsame.valid j, hsame.coherent, hsame.allocated⟩) hpt
    (fun y hy => hsame.held rfl (hinv.held p y hy))
  · intro k hk
    simp only [Proc.uses, huse.1, Option.toList_some, List.singleton_append, List.mem_cons] at hk
    rcases hk with rfl | hk
    · exact ⟨by rw [hi]; simp, huse.2⟩
    · refine hinv.uses_ok ?_
      simp only [Proc.uses, List.mem_append]
      exact .inr hk
  · intro k hk
    have hkh : k = h := by
      have h1 := Pt.uses_of_puts hk
      rw [huse.1] at h1
      exact (Option.some.inj h1).symm
    subst hkh
    exact hput hk
  · intro j
    rw [hlocked]
    have hset : (((s.setLock i (some p)).setPt p pt).itable j).lock =
        ((s.setLock i (some p)).itable j).lock := rfl
    rw [hset]
    by_cases hj : j = i
    · subst hj
      rw [St.setLock, setInode_self]
      refine ⟨fun q hq => ?_, by simp⟩
      rw [hfree]
      simp [Ne.symm hq]
    · rw [St.setLock, setInode_of_ne s _ hj]
      refine ⟨fun _ _ => .rfl, ?_⟩
      rw [hinv.lock, List.mem_cons]
      simp [hj]
  · rw [hlocked, List.nodup_cons]
    exact ⟨hnot p, hinv.nodup p⟩
  · intro j hpos hjfree hv
    have hj : j ≠ i := by
      rintro rfl
      change ((s.setLock j (some p)).itable j).lock = none at hjfree
      rw [St.setLock, setInode_self] at hjfree
      cases hjfree
    refine hsame.coherent (hinv.clean j hpos ?_ ((hsame.valid j).symm.trans hv))
    change ((s.setLock i (some p)).itable j).lock = none at hjfree
    rwa [St.setLock, setInode_of_ne s _ hj] at hjfree

theorem load {x : Inode} (hinv : Inv s) (hpt : (s.proc p).pt = .load h) (hi : s.ptr h = some i)
    (hx : x.Like (s.itable i))
    (hvalid : x.valid = true) (hcopy : x.copy = s.onDisk i) (hne0 : (s.onDisk i).type ≠ 0) :
    Inv ((s.setInode i x).setProc p ⟨.run, ⟨h, false⟩ :: (s.proc p).held⟩) := by
  have hne : ∀ j, j ≠ i → (s.setInode i x).itable j = s.itable j :=
    fun j hj => setInode_of_ne s x hj
  have hself : (s.setInode i x).itable i = x := setInode_self ..
  have hk : (s.proc p).pt.locks = some h := by rw [hpt]; rfl
  refine hinv.own (mem_locked_pt hk hi) rfl rfl rfl hne hself hx (fun _ _ _ => rfl) ?_ ?_ ?_ (.inr rfl)
    trivial ?_
  · simp only [Proc.uses, hpt]
    exact fun k hk => hk
  · exact fun k hk' => by cases hk'
  · simp only [Proc.locks, hpt]
    rfl
  · intro y hy
    rcases List.mem_cons.mp hy with rfl | hy
    · intro j hj
      change s.ptr h = some j at hj
      rw [hi] at hj
      cases hj
      have honDisk : ((s.setInode i x).setProc p ⟨.run, ⟨h, false⟩ :: (s.proc p).held⟩).onDisk i =
          s.onDisk i := by
        simp only [St.onDisk, St.setProc, hself, hx.2.1, hx.2.2.1]
        rfl
      simp only [St.Coherent, St.Allocated, honDisk]
      simp only [St.setProc, hself, hcopy]
      exact ⟨hvalid, ⟨trivial, hne0⟩, fun _ => ⟨trivial, hne0⟩⟩
    · exact hinv.held_frame
        (t := (s.setInode i x).setProc p ⟨.run, ⟨h, false⟩ :: (s.proc p).held⟩) rfl
        (hinv.ref_pos hi) hne (fun _ _ _ => rfl) hy (hinv.held_ne_pt hk hi hy)

theorem setDinode {pt : Pt} {dev inum : ℕ} {d : Dinode} (hinv : Inv s)
    (hzero : (s.dinode dev inum).type = 0) (hold : (s.proc p).pt.locks = none)
    (hlocks : pt.locks = none) (huses : pt.uses = none) (hputs : pt.puts = none)
    (hok : ∀ u, pt.Ok u) : Inv ((s.setDinode dev inum d).setPt p pt) := by
  have honDisk : ∀ j, (s.onDisk j).type ≠ 0 →
      ((s.setDinode dev inum d).setPt p pt).onDisk j = s.onDisk j := by
    intro j hj
    refine setDinode_of_ne s d (fun hsame => hj ?_)
    have hinode : (s.itable j).dev = dev ∧ (s.itable j).inum = inum := hsame
    rw [St.onDisk, hinode.1, hinode.2]
    exact hzero
  have hcoh : ∀ j, s.Coherent j → ((s.setDinode dev inum d).setPt p pt).Coherent j := by
    intro j hj
    rw [St.Coherent, honDisk j hj.2]
    exact hj
  have hall : ∀ j, s.Allocated j → ((s.setDinode dev inum d).setPt p pt).Allocated j := by
    intro j hj
    rw [St.Allocated, honDisk j hj.2]
    exact hj
  have hsame : (Proc.mk pt (s.proc p).held).locks = (s.proc p).locks := by
    simp only [Proc.locks, hlocks, hold]
  refine hinv.move (x := ⟨pt, (s.proc p).held⟩) rfl rfl rfl (fun _ => rfl) (fun _ => rfl)
    (fun _ => rfl) ?_ ?_ (fun j => ?_) ?_ (fun j hpos hfree hv => hcoh j (hinv.clean j hpos hfree hv))
    (fun _ _ j _ => ⟨rfl, hcoh j, hall j⟩) (hok _) ?_
  · intro k hk
    refine hinv.uses_ok ?_
    simp only [Proc.uses, huses, List.mem_append] at hk ⊢
    rcases hk with hk | hk
    · simp at hk
    · exact .inr hk
  · intro k hk
    simp only [hputs] at hk
    cases hk
  · rw [hsame]
    exact ⟨fun _ _ => .rfl, hinv.lock j p⟩
  · rw [hsame]
    exact hinv.nodup p
  · intro y hy j hj
    obtain ⟨hv, ha, hc⟩ := hinv.held p y hy j hj
    exact ⟨hv, hall j ha, fun hd => hcoh j (hc hd)⟩

theorem release {x : Proc} (hinv : Inv s) (hi : s.ptr h = some i)
    (hperm : (s.proc p).locks.Perm (h :: x.locks)) (huse : ∀ k ∈ x.uses, k ∈ (s.proc p).uses)
    (hput : ∀ k, x.pt.puts = some k → (s.proc p).pt.puts = some k)
    (hsub : x.held.map Held.ptr ⊆ (s.proc p).held.map Held.ptr)
    (hclean : (s.itable i).valid = true → s.Coherent i) (hpt : ∀ u, x.pt.Ok u)
    (hheld : ∀ y ∈ x.held, y ∈ (s.proc p).held) : Inv ((s.setLock i none).setProc p x) := by
  have hlocked : (s.locked p).Perm (i :: x.locks.filterMap s.ptr) := by
    have hmap := hperm.filterMap s.ptr
    rwa [List.filterMap_cons, hi] at hmap
  have hnodup := hlocked.nodup_iff.mp (hinv.nodup p)
  have hsame : SameCopies s ((s.setLock i none).setProc p x) := .of_setInode rfl rfl rfl rfl rfl rfl
  refine hinv.move rfl rfl rfl (setInode_field Inode.ref s rfl) hsame.dev hsame.inum
    (fun k hk => hinv.uses_ok (huse k hk)) (fun k hk => ?_) (fun j => ?_)
    (List.nodup_cons.mp hnodup).2 (fun j hpos hfree hv => ?_)
    (fun _ _ j _ => ⟨hsame.valid j, hsame.coherent, hsame.allocated⟩) (hpt _)
    (fun y hy => hsame.held rfl (hinv.held p y (hheld y hy)))
  · have hok := hinv.puts_ok (hput k hk)
    exact ⟨fun hmem => hok.1 (hsub hmem), hok.2⟩
  · change (∀ q, q ≠ p → (((s.setLock i none).itable j).lock = some q ↔ _)) ∧
      (((s.setLock i none).itable j).lock = some p ↔ _)
    by_cases hj : j = i
    · subst hj
      have hmine : (s.itable j).lock = some p :=
        (hinv.lock j p).mpr (hlocked.mem_iff.mpr List.mem_cons_self)
      rw [St.setLock, setInode_self, hmine]
      refine ⟨fun q hq => by simp [Ne.symm hq], ?_⟩
      simp only [reduceCtorEq, false_iff]
      exact (List.nodup_cons.mp hnodup).1
    · rw [St.setLock, setInode_of_ne s _ hj]
      refine ⟨fun _ _ => .rfl, ?_⟩
      rw [hinv.lock, hlocked.mem_iff, List.mem_cons]
      simp [hj]
  · refine hsame.coherent ?_
    have hv' : (s.itable j).valid = true := (hsame.valid j).symm.trans hv
    by_cases hj : j = i
    · subst hj
      exact hclean hv'
    · refine hinv.clean j hpos ?_ hv'
      change ((s.setLock i none).itable j).lock = none at hfree
      rwa [St.setLock, setInode_of_ne s _ hj] at hfree

theorem refs_addPtr (hnext : t.next = s.next + 1)
    (hptr : t.ptr = update s.ptr s.next (some i)) (j : ℕ) :
    t.refs j = s.refs j + if j = i then 1 else 0 := by
  have hold : (Finset.range s.next).filter (fun k => t.ptr k = some j) =
      (Finset.range s.next).filter (fun k => s.ptr k = some j) := by
    refine Finset.filter_congr (fun k hk => ?_)
    rw [hptr, update_of_ne (Finset.mem_range.mp hk).ne]
  have hnew : t.ptr s.next = some i := by rw [hptr, update_self]
  rw [St.refs, St.refs, hnext, Finset.range_add_one, Finset.filter_insert, hold, hnew]
  by_cases hj : j = i
  · subst hj
    rw [if_pos rfl, if_pos rfl, Finset.card_insert_of_notMem]
    simp
  · rw [if_neg (fun heq => hj (Option.some.inj heq).symm), if_neg hj, add_zero]

theorem refs_drop (hh : h < s.next) (hi : s.ptr h = some i) (hnext : t.next = s.next)
    (hptr : t.ptr = update s.ptr h none) (j : ℕ) :
    t.refs j + (if j = i then 1 else 0) = s.refs j := by
  have hfilter : (Finset.range t.next).filter (fun k => t.ptr k = some j) =
      ((Finset.range s.next).filter (fun k => s.ptr k = some j)).erase h := by
    ext k
    simp only [Finset.mem_filter, Finset.mem_erase, hnext, hptr]
    by_cases hk : k = h
    · simp [hk]
    · simp [hk]
  rw [St.refs, St.refs, hfilter]
  by_cases hj : j = i
  · subst hj
    rw [if_pos rfl]
    exact Finset.card_erase_add_one (by simp [hh, hi])
  · rw [if_neg hj, add_zero, Finset.erase_eq_of_notMem]
    simp [hi, Ne.symm hj]

/-- `iget` or `idup`: one more pointer to entry `i`, which was referenced or is taken for an
inode that no referenced entry is for. -/
theorem addPtr {pt : Pt} {x : Inode} (hinv : Inv s) (hlt : i < NINODE)
    (hold : (s.proc p).pt.locks = none) (hlocks : pt.locks = none) (huses : pt.uses = none)
    (hputs : pt.puts = none) (hok : ∀ u, pt.Ok u) (href : x.ref = (s.itable i).ref + 1)
    (hlock : x.lock = (s.itable i).lock)
    (hcase : (0 < (s.itable i).ref ∧ x.dev = (s.itable i).dev ∧ x.inum = (s.itable i).inum ∧
        x.valid = (s.itable i).valid ∧ x.copy = (s.itable i).copy) ∨
      ((s.itable i).ref = 0 ∧ x.valid = false ∧ ∀ j, 0 < (s.itable j).ref →
        ¬ ((s.itable j).dev = x.dev ∧ (s.itable j).inum = x.inum))) :
    Inv (((s.setInode i x).addPtr i).setPt p pt) := by
  set u := ((s.setInode i x).addPtr i).setPt p pt with hu
  have hself : u.itable i = x := setInode_self ..
  have hne : ∀ j, j ≠ i → u.itable j = s.itable j := fun j hj => setInode_of_ne s x hj
  have hfresh : ∀ k j, s.ptr k = some j → k ≠ s.next := by
    rintro k j hk rfl
    exact absurd (hinv.ptrs _ _ hk).1 (lt_irrefl _)
  have hptr : ∀ k, k ≠ s.next → u.ptr k = s.ptr k := fun k hk => update_of_ne hk ..
  have hlive : ∀ q, ∀ k ∈ (s.proc q).uses, k ≠ s.next := by
    intro q k hk
    obtain ⟨j, hj⟩ := Option.ne_none_iff_exists'.mp (hinv.uses q k hk)
    exact hfresh k j hj
  -- a locked entry was referenced
  have hframe : ∀ j, 0 < (s.itable j).ref → (u.itable j).valid = (s.itable j).valid ∧
      (s.Coherent j → u.Coherent j) ∧ (s.Allocated j → u.Allocated j) := by
    intro j hj
    by_cases hji : j = i
    · subst hji
      rcases hcase with ⟨-, hd, hn, hv, hc⟩ | ⟨hzero, -⟩
      · have honDisk : u.onDisk j = s.onDisk j := by
          rw [St.onDisk, hself, hd, hn]
          rfl
        simp only [St.Coherent, St.Allocated, honDisk]
        rw [hself, hv, hc]
        exact ⟨rfl, id, id⟩
      · omega
    · have honDisk : u.onDisk j = s.onDisk j := by
        rw [St.onDisk, hne j hji]
        rfl
      simp only [St.Coherent, St.Allocated, honDisk, hne j hji]
      exact ⟨trivial, id, id⟩
  have hother : ∀ j, j ≠ i → 0 < (s.itable j).ref → ¬ ((s.itable j).dev = x.dev ∧ (s.itable j).inum = x.inum) := by
    intro j hji hj hsame
    rcases hcase with ⟨hpos, hd, hn, -⟩ | ⟨-, -, hnone⟩
    · exact hinv.onDisk_ne hpos hj hji ⟨hsame.1.trans hd, hsame.2.trans hn⟩
    · exact hnone j hj hsame
  have hsub : ∀ k ∈ (Proc.mk pt (s.proc p).held).uses, k ∈ (s.proc p).uses := by
    intro k hk
    simp only [Proc.uses, huses, Option.toList_none, List.nil_append] at hk
    simp only [Proc.uses, List.mem_append]
    exact .inr hk
  have hlocked : (Proc.mk pt (s.proc p).held).locks.filterMap u.ptr = s.locked p := by
    have hsame : (Proc.mk pt (s.proc p).held).locks = (s.proc p).locks := by
      simp only [Proc.locks, hlocks, hold]
    rw [hsame, St.locked]
    exact List.filterMap_congr (fun k hk => hptr k (hlive p k (Proc.uses_of_locks hk)))
  refine hinv.step (x := ⟨pt, (s.proc p).held⟩) rfl ?_ ?_ ?_ (fun q _ k hk => hptr k (hlive q k hk))
    ?_ ?_ (fun j => ?_) ?_ ?_ (fun q _ j hj => hframe j (hinv.ref_pos_of_locked hj)) (hok _) ?_
  · -- the new entry differs from the referenced ones
    intro j k hj hk hd hn
    by_cases hji : j = i <;> by_cases hki : k = i
    · rw [hji, hki]
    · rw [hji, hself, hne k hki] at hd hn
      rw [hne k hki] at hk
      exact absurd ⟨hd.symm, hn.symm⟩ (hother k hki hk)
    · rw [hki, hself, hne j hji] at hd hn
      rw [hne j hji] at hj
      exact absurd ⟨hd, hn⟩ (hother j hji hj)
    · rw [hne j hji, hne k hki] at hd hn
      rw [hne j hji] at hj
      rw [hne k hki] at hk
      exact hinv.unique j k hj hk hd hn
  · intro j
    rw [refs_addPtr (s := s) (i := i) rfl rfl j]
    by_cases hji : j = i
    · rw [hji, hself, href, hinv.refs, if_pos rfl]
    · rw [hne j hji, hinv.refs, if_neg hji, add_zero]
  · intro k j hk
    by_cases hkn : k = s.next
    · subst hkn
      have hnew : u.ptr s.next = some i := update_self ..
      rw [hnew] at hk
      cases hk
      exact ⟨Nat.lt_succ_self _, hlt⟩
    · rw [hptr k hkn] at hk
      obtain ⟨h1, h2⟩ := hinv.ptrs k j hk
      exact ⟨Nat.lt_succ_of_lt h1, h2⟩
  · intro k hk
    rw [hptr k (hlive p k (hsub k hk))]
    exact hinv.uses_ok (hsub k hk)
  · intro k hk
    simp only [hputs] at hk
    cases hk
  · have hsame : (u.itable j).lock = (s.itable j).lock := setInode_field Inode.lock s hlock j
    rw [hsame, hlocked]
    exact ⟨fun _ _ => .rfl, hinv.lock j p⟩
  · rw [hlocked]
    exact hinv.nodup p
  · intro j hpos hfree hv
    by_cases hji : j = i
    · subst hji
      rw [hself] at hfree hv
      rcases hcase with ⟨hpos', -, -, hxv, -⟩ | ⟨-, hxv, -⟩
      · exact (hframe j hpos').2.1
          (hinv.clean j hpos' (hlock.symm.trans hfree) (hxv.symm.trans hv))
      · rw [hxv] at hv
        cases hv
    · rw [hne j hji] at hpos hfree hv
      exact (hframe j hpos).2.1 (hinv.clean j hpos hfree hv)
  · intro y hy j hj
    have hmem : y.ptr ∈ (s.proc p).uses := by
      simp only [Proc.uses, List.mem_append]
      exact .inr (List.mem_map_of_mem hy)
    rw [hptr _ (hlive p _ hmem)] at hj
    obtain ⟨hv, ha, hc⟩ := hinv.held p y hy j hj
    obtain ⟨hfv, hfc, hfa⟩ := hframe j (hinv.ref_pos hj)
    exact ⟨hfv.trans hv, hfa ha, fun hd => hfc (hc hd)⟩

theorem drop (hinv : Inv s) (hi : s.ptr h = some i) (hold : (s.proc p).pt.locks = none)
    (hsole : h ∉ (s.proc p).held.map Held.ptr ∧ ∀ q, q ≠ p → h ∉ (s.proc q).uses) :
    Inv ((s.drop h i).setPt p .run) := by
  obtain ⟨hh, hlt⟩ := hinv.ptrs h i hi
  set u := (s.drop h i).setPt p .run with hu
  have hptr : ∀ k, k ≠ h → u.ptr k = s.ptr k := fun k hk => update_of_ne hk ..
  have href : ∀ j, (u.itable j).ref + (if j = i then 1 else 0) = (s.itable j).ref := by
    intro j
    change ((s.setInode i _).itable j).ref + _ = _
    by_cases hj : j = i
    · subst hj
      have hpos := hinv.ref_pos hi
      rw [setInode_self, if_pos rfl]
      dsimp only
      omega
    · rw [setInode_of_ne s _ hj, if_neg hj, add_zero]
  have hle : ∀ j, (u.itable j).ref ≤ (s.itable j).ref := by
    intro j
    have := href j
    omega
  have hlock (j : ℕ) : (u.itable j).lock = (s.itable j).lock :=
    setInode_field Inode.lock s (x := { s.itable i with ref := (s.itable i).ref - 1 }) rfl j
  have hcopies : SameCopies s u := .of_setInode rfl rfl rfl rfl rfl rfl
  have huses : ∀ k, k ∈ (Proc.mk .run (s.proc p).held).uses → k ∈ (s.proc p).uses ∧ k ≠ h := by
    intro k hk
    have hk' : k ∈ (s.proc p).held.map Held.ptr := by simpa [Proc.uses, Pt.uses] using hk
    refine ⟨?_, fun hkh => hsole.1 (hkh ▸ hk')⟩
    simp only [Proc.uses, List.mem_append]
    exact .inr hk'
  have hlocked : (Proc.mk .run (s.proc p).held).locks.filterMap u.ptr = s.locked p := by
    have hsame : (Proc.mk .run (s.proc p).held).locks = (s.proc p).locks := by
      simp only [Proc.locks, hold]
      rfl
    rw [St.locked, ← hsame]
    exact List.filterMap_congr (fun k hk => hptr k (huses k (Proc.uses_of_locks hk)).2)
  refine hinv.step (x := ⟨.run, (s.proc p).held⟩) rfl ?_ ?_ ?_ ?_ ?_ (fun k hk => by cases hk)
    (fun j => ?_) ?_ ?_ (fun _ _ j _ => ⟨hcopies.valid j, hcopies.coherent, hcopies.allocated⟩) trivial ?_
  · intro j k hj hk hd hn
    exact hinv.unique j k (lt_of_lt_of_le hj (hle j)) (lt_of_lt_of_le hk (hle k))
      (by rwa [hcopies.dev, hcopies.dev] at hd) (by rwa [hcopies.inum, hcopies.inum] at hn)
  · intro j
    have hcount : u.refs j + (if j = i then 1 else 0) = s.refs j :=
      refs_drop (t := u) hh hi rfl rfl j
    have hj := href j
    rw [hinv.refs] at hj
    omega
  · intro k j hk
    by_cases hkh : k = h
    · subst hkh
      have hnone : u.ptr k = none := update_self ..
      rw [hnone] at hk
      cases hk
    · exact hinv.ptrs k j ((hptr k hkh).symm.trans hk)
  · intro q hq k hk
    refine hptr k (fun hkh => hsole.2 q hq (hkh ▸ hk))
  · intro k hk
    obtain ⟨hmem, hkh⟩ := huses k hk
    rw [hptr k hkh]
    exact hinv.uses_ok hmem
  · rw [hlock, hlocked]
    exact ⟨fun _ _ => .rfl, hinv.lock j p⟩
  · rw [hlocked]
    exact hinv.nodup p
  · intro j hpos hfree hv
    exact hcopies.coherent (hinv.clean j (lt_of_lt_of_le hpos (hle j)) ((hlock j).symm.trans hfree)
      ((hcopies.valid j).symm.trans hv))
  · intro y hy
    have hmem : y.ptr ∈ (Proc.mk .run (s.proc p).held).uses := by
      simp only [Proc.uses, List.mem_append]
      exact .inr (List.mem_map_of_mem hy)
    exact hcopies.held (hptr _ (huses _ hmem).2) (hinv.held p y hy)

theorem iget {dev inum : ℕ} (hinv : Inv s) (hold : (s.proc p).pt.locks = none) :
    Inv (s.iget p dev inum) := by
  have hspec := scan_spec s.itable dev inum (List.range NINODE) none (fun _ hc => by cases hc)
  unfold St.iget
  cases hscan : scan s.itable dev inum (List.range NINODE) none with
  | hit i =>
    rw [hscan] at hspec
    obtain ⟨hmem, hpos, -⟩ := hspec
    exact hinv.addPtr (List.mem_range.mp hmem) hold rfl rfl rfl (fun _ => trivial) rfl rfl
      (.inl ⟨hpos, rfl, rfl, rfl, rfl⟩)
  | empty i =>
    rw [hscan] at hspec
    obtain ⟨hmem, hzero, hnone⟩ := hspec
    have hlt : i < NINODE := by
      rcases hmem with hmem | hmem
      · exact List.mem_range.mp hmem
      · cases hmem
    refine hinv.addPtr hlt hold rfl rfl rfl (fun _ => trivial) ?_ rfl (.inr ⟨hzero, rfl, ?_⟩)
    · change 1 = (s.itable i).ref + 1
      omega
    · intro j hj
      refine hnone j (List.mem_range.mpr ?_) hj
      rw [hinv.refs] at hj
      obtain ⟨k, hk⟩ := Finset.card_pos.mp hj
      exact (hinv.ptrs k j (Finset.mem_filter.mp hk).2).2
  | full =>
    refine hinv.setProc (fun k hk => hinv.uses_ok ?_) (fun k hk => by cases hk) ?_ trivial
      (hinv.held p)
    · simp only [Proc.uses, List.mem_append]
      exact .inr (by simpa [Proc.uses, Pt.uses] using hk)
    · simp only [Proc.locks, hold]
      rfl

theorem setPt {pt : Pt} (hinv : Inv s) (hold : (s.proc p).pt.locks = none)
    (hlocks : pt.locks = none) (huses : ∀ k, pt.uses = some k → s.ptr k ≠ none ∧
      ∀ q, q ≠ p → (s.proc q).pt.puts ≠ some k) (hputs : pt.puts = none) (hok : ∀ u, pt.Ok u) :
    Inv (s.setPt p pt) := by
  refine hinv.setProc (fun k hk => ?_) (fun k hk => ?_) ?_ (hok _) (hinv.held p)
  · simp only [Proc.uses, List.mem_append, Option.mem_toList] at hk
    rcases hk with hk | hk
    · exact huses k hk
    · refine hinv.uses_ok ?_
      simp only [Proc.uses, List.mem_append]
      exact .inr hk
  · simp only [hputs] at hk
    cases hk
  · simp only [Proc.locks, hlocks, hold]

theorem go_inv {ninodes : ℕ} {pt : Pt} (hinv : Inv s) (hpt : (s.proc p).pt = pt)
    (hs : go ninodes s p pt = some t) : Inv t := by
  have hdisk : ∀ i, ∀ dev inum, ¬ (dev = (s.itable i).dev ∧ inum = (s.itable i).inum) →
      (s.iupdate i).dinode dev inum = s.dinode dev inum := fun i _ _ => setDinode_of_ne s _
  cases pt with
  | run => cases hs
  | noInodes => cases hs
  | noType h => cases hs
  | wait h =>
    simp only [go] at hs
    split at hs
    · cases hs
    · rename_i i hi
      split_ifs at hs with hfree
      cases hs
      have huse : h ∈ (s.proc p).uses := by simp [Proc.uses, hpt, Pt.uses]
      refine hinv.acquire hi hfree (by rw [hpt]; rfl) rfl ⟨rfl, (hinv.uses_ok huse).2⟩
        (fun hc => by cases hc) ?_
      intro j hj hv
      change s.ptr h = some j at hj
      rw [hi] at hj
      cases hj
      have hsame : SameCopies s ((s.setLock i (some p)).setPt p (.load h)) :=
        .of_setInode rfl rfl rfl rfl rfl rfl
      exact hsame.coherent (hinv.clean i (hinv.ref_pos hi) hfree ((hsame.valid i).symm.trans hv))
  | load h =>
    simp only [go] at hs
    split at hs
    · cases hs
    · rename_i i hi
      split_ifs at hs with hv hzero <;> cases hs
      · -- the inode was valid
        have hok := hinv.pt p
        rw [hpt] at hok
        obtain ⟨hcopy, hne0⟩ := hok i hi hv
        have hload := hinv.load (x := s.itable i) hpt hi ⟨rfl, rfl, rfl, rfl⟩ hv hcopy hne0
        rwa [setInode_eq_self] at hload
      · exact hinv.stage (d := s.dinode) (by rw [hpt]; rfl) hi ⟨rfl, rfl, rfl, rfl⟩
          (fun _ _ _ => rfl) rfl (by rw [hpt]; rfl) (by rw [hpt]; rfl) trivial
      · exact hinv.load hpt hi ⟨rfl, rfl, rfl, rfl⟩ rfl rfl hzero
  | alloc dev type inum =>
    simp only [go] at hs
    split_ifs at hs with hlt hzero <;> cases hs
    · exact hinv.setDinode hzero (by rw [hpt]; rfl) rfl rfl rfl (fun _ => trivial)
    · exact hinv.setPt (by rw [hpt]; rfl) rfl (fun k hk => by cases hk) rfl (fun _ => trivial)
    · exact hinv.setPt (by rw [hpt]; rfl) rfl (fun k hk => by cases hk) rfl (fun _ => trivial)
  | allocGet dev inum =>
    cases hs
    exact hinv.iget (by rw [hpt]; rfl)
  | putTrunc h =>
    obtain ⟨i, hi, rfl⟩ := Option.map_eq_some_iff.mp hs
    exact hinv.stage (d := s.dinode) (by rw [hpt]; rfl) hi ⟨rfl, rfl, rfl, rfl⟩
      (fun _ _ _ => rfl) rfl (by rw [hpt]; rfl) (by rw [hpt]; rfl) trivial
  | putTruncUpdate h =>
    obtain ⟨i, hi, rfl⟩ := Option.map_eq_some_iff.mp hs
    have hstage : Inv ({ s.setInode i (s.itable i) with dinode := (s.iupdate i).dinode }.setPt p
        (.putType h)) := hinv.stage (by rw [hpt]; rfl) hi
      ⟨rfl, rfl, rfl, rfl⟩ (hdisk i) rfl (by rw [hpt]; rfl) (by rw [hpt]; rfl) trivial
    rwa [setInode_eq_self] at hstage
  | putType h =>
    obtain ⟨i, hi, rfl⟩ := Option.map_eq_some_iff.mp hs
    exact hinv.stage (d := s.dinode) (by rw [hpt]; rfl) hi ⟨rfl, rfl, rfl, rfl⟩
      (fun _ _ _ => rfl) rfl (by rw [hpt]; rfl) (by rw [hpt]; rfl) trivial
  | putUpdate h =>
    obtain ⟨i, hi, rfl⟩ := Option.map_eq_some_iff.mp hs
    have hstage : Inv ({ s.setInode i (s.itable i) with dinode := (s.iupdate i).dinode }.setPt p
        (.putInvalid h)) := hinv.stage (by rw [hpt]; rfl) hi
      ⟨rfl, rfl, rfl, rfl⟩ (hdisk i) rfl (by rw [hpt]; rfl) (by rw [hpt]; rfl) trivial
    rwa [setInode_eq_self] at hstage
  | putInvalid h =>
    obtain ⟨i, hi, rfl⟩ := Option.map_eq_some_iff.mp hs
    refine hinv.stage (d := s.dinode) (by rw [hpt]; rfl) hi ⟨rfl, rfl, rfl, rfl⟩
      (fun _ _ _ => rfl) rfl (by rw [hpt]; rfl) (by rw [hpt]; rfl) ?_
    intro j hj
    change s.ptr h = some j at hj
    rw [hi] at hj
    cases hj
    change ((s.setInode i _).itable i).valid = false
    rw [setInode_self]
  | putUnlock h =>
    obtain ⟨i, hi, rfl⟩ := Option.map_eq_some_iff.mp hs
    have hinvalid : (s.itable i).valid = false := by
      have hok := hinv.pt p
      rw [hpt] at hok
      exact hok i hi
    refine hinv.release (x := ⟨.putDrop h, (s.proc p).held⟩) hi ?_ ?_ ?_ (List.Subset.refl _) ?_
      (fun _ => trivial) (fun y hy => hy)
    · simp only [Proc.locks, hpt]
      exact List.Perm.refl _
    · simp only [Proc.uses, hpt]
      exact fun k hk => hk
    · intro k hk
      rw [hpt]
      exact hk
    · intro hv
      rw [hinvalid] at hv
      cases hv
  | putDrop h =>
    obtain ⟨i, hi, rfl⟩ := Option.map_eq_some_iff.mp hs
    exact hinv.drop hi (by rw [hpt]; rfl) (hinv.puts_ok (by rw [hpt]; rfl))

theorem inUse_spec {N : ℕ} (hN : ∀ q, N ≤ q → s.proc q = ⟨.run, []⟩) (hk : s.inUse N h = true)
    (q : ℕ) : (s.proc q).pt.puts ≠ some h := by
  by_cases hq : q < N
  · have hall := List.all_eq_true.mp hk q (List.mem_range.mpr hq)
    simpa using hall
  · rw [hN q (Nat.le_of_not_lt hq)]
    simp [Pt.puts]

theorem soleUser_spec {N : ℕ} (hN : ∀ q, N ≤ q → s.proc q = ⟨.run, []⟩)
    (hk : s.soleUser N p h = true) :
    h ∉ (s.proc p).held.map Held.ptr ∧ ∀ q, q ≠ p → h ∉ (s.proc q).uses := by
  simp only [St.soleUser, Bool.and_eq_true, Bool.not_eq_true'] at hk
  refine ⟨by simpa using hk.2, fun q hq => ?_⟩
  by_cases hqN : q < N
  · have hall := List.all_eq_true.mp hk.1 q (List.mem_range.mpr hqN)
    simpa [hq] using hall
  · rw [hN q (Nat.le_of_not_lt hqN)]
    simp [Proc.uses, Pt.uses]

theorem call_inv {N : ℕ} {a : Act} (hinv : Inv s) (hN : ∀ q, N ≤ q → s.proc q = ⟨.run, []⟩)
    (hrun : (s.proc p).pt = .run) (hs : call N s p a = some t) : Inv t := by
  have hlocks : (s.proc p).pt.locks = none := by rw [hrun]; rfl
  cases a with
  | iget dev inum =>
    cases hs
    exact hinv.iget hlocks
  | ialloc dev type =>
    simp only [call] at hs
    split_ifs at hs
    cases hs
    exact hinv.setPt hlocks rfl (fun k hk => by cases hk) rfl (fun _ => trivial)
  | idup h =>
    simp only [call] at hs
    split at hs
    · cases hs
    · rename_i i hi
      split_ifs at hs
      cases hs
      have hadd : Inv (((s.setInode i { s.itable i with ref := (s.itable i).ref + 1 }).addPtr
          i).setPt p .run) := hinv.addPtr (hinv.ptrs h i hi).2 hlocks rfl rfl
        rfl (fun _ => trivial) rfl rfl (.inl ⟨hinv.ref_pos hi, rfl, rfl, rfl, rfl⟩)
      rw [setPt_self] at hadd
      · exact hadd
      · exact hrun
  | ilock h =>
    simp only [call] at hs
    split_ifs at hs with hguard
    cases hs
    refine hinv.setPt hlocks rfl (fun k hk => ?_) rfl (fun _ => trivial)
    cases hk
    exact ⟨hguard.1, fun q _ => inUse_spec hN hguard.2 q⟩
  | modify h d =>
    simp only [call] at hs
    split at hs
    · cases hs
    · rename_i i hi
      split_ifs at hs with hguard
      cases hs
      obtain ⟨x, hx, rfl⟩ := List.mem_map.mp hguard.1
      obtain ⟨hv, ⟨htype, hne0⟩, -⟩ := hinv.held p x hx i hi
      exact hinv.heldStep (d := s.dinode) hrun hguard.1 hi ⟨rfl, rfl, rfl, rfl⟩ (fun _ _ _ => rfl)
        hv (hguard.2.trans htype) hne0 (fun hb => by cases hb)
  | iupdate h =>
    simp only [call] at hs
    split at hs
    · cases hs
    · rename_i i hi
      split_ifs at hs with hguard
      cases hs
      obtain ⟨x, hx, rfl⟩ := List.mem_map.mp hguard
      obtain ⟨hv, ⟨htype, hne0⟩, -⟩ := hinv.held p x hx i hi
      have hdisk : (s.iupdate i).dinode (s.itable i).dev (s.itable i).inum = (s.itable i).copy :=
        setDinode_self ..
      have hstep := hinv.heldStep (b := false) (x := s.itable i) (d := (s.iupdate i).dinode) hrun
        hguard hi ⟨rfl, rfl, rfl, rfl⟩ (fun _ _ => setDinode_of_ne s _) hv
        (congrArg Dinode.type hdisk.symm)
        (by rw [hdisk, htype]; exact hne0) (fun _ => hdisk.symm)
      rwa [setInode_eq_self] at hstep
  | iunlock h =>
    simp only [call] at hs
    split at hs
    · rename_i i x hi hx
      split_ifs at hs with hclean
      cases hs
      have hmem := List.mem_of_find?_eq_some hx
      have hxh : x.ptr = h := by simpa using List.find?_some hx
      obtain ⟨hv, -, hcoh⟩ := hinv.held p x hmem i (hxh ▸ hi)
      have hperm : ((s.proc p).held.map Held.ptr).Perm
          (h :: ((s.proc p).held.eraseP (fun y => y.ptr = h)).map Held.ptr) := by
        obtain ⟨y, pre, post, hpre, hy, hheld, herase⟩ := List.exists_of_eraseP hmem
          (p := fun y => y.ptr = h) (decide_eq_true hxh)
        have hyh : y.ptr = h := by simpa using hy
        rw [herase, hheld, List.map_append, List.map_append, List.map_cons, hyh]
        exact List.perm_middle
      have hsub : ((s.proc p).held.eraseP (fun y => y.ptr = h)).map Held.ptr ⊆
          (s.proc p).held.map Held.ptr :=
        List.map_subset _ List.eraseP_subset
      refine hinv.release (x := ⟨.run, (s.proc p).held.eraseP (fun y => y.ptr = h)⟩) hi ?_ ?_
        (fun k hk => by cases hk) hsub (fun _ => hcoh hclean) (fun _ => trivial)
        (fun y hy => List.mem_of_mem_eraseP hy)
      · simp only [Proc.locks, hrun]
        exact hperm
      · simp only [Proc.uses, hrun]
        exact fun k hk => hsub hk
    · cases hs
  | iput h =>
    simp only [call] at hs
    split at hs
    · cases hs
    · rename_i i hi
      split_ifs at hs with hsole hfree hlock
      · cases hs
        obtain ⟨hheld, hothers⟩ := soleUser_spec hN hsole
        refine hinv.acquire hi hlock hlocks rfl ⟨rfl, fun q hq hput => ?_⟩
          (fun _ => ⟨hheld, hothers⟩) trivial
        refine hothers q hq ?_
        simp [Proc.uses, Pt.uses_of_puts hput]
      · cases hs
        have hdrop := hinv.drop hi hlocks (soleUser_spec hN hsole)
        rw [setPt_self] at hdrop
        · exact hdrop
        · exact hrun
  | go => cases hs

end Inv

section Proc

variable {s t : St} {p q : ℕ}

theorem setPt_proc_of_ne (u : St) (pt : Pt) (hq : q ≠ p) : (u.setPt p pt).proc q = u.proc q :=
  update_of_ne hq ..

theorem setProc_proc_of_ne (u : St) (x : Proc) (hq : q ≠ p) : (u.setProc p x).proc q = u.proc q :=
  update_of_ne hq ..

theorem iget_proc_of_ne (dev inum : ℕ) (hq : q ≠ p) : (s.iget p dev inum).proc q = s.proc q := by
  unfold St.iget
  split <;> exact setPt_proc_of_ne _ _ hq

theorem go_proc_of_ne {ninodes : ℕ} {pt : Pt} (hq : q ≠ p) (hs : go ninodes s p pt = some t) :
    t.proc q = s.proc q := by
  cases pt with
  | run => cases hs
  | noInodes => cases hs
  | noType h => cases hs
  | wait h =>
    simp only [go] at hs
    split at hs
    · cases hs
    · split_ifs at hs
      cases hs
      exact setPt_proc_of_ne _ _ hq
  | load h =>
    simp only [go] at hs
    split at hs
    · cases hs
    · split_ifs at hs <;> cases hs
      · exact setProc_proc_of_ne _ _ hq
      · exact setPt_proc_of_ne _ _ hq
      · exact setProc_proc_of_ne _ _ hq
  | alloc dev type inum =>
    simp only [go] at hs
    split_ifs at hs <;> cases hs <;> exact setPt_proc_of_ne _ _ hq
  | allocGet dev inum =>
    cases hs
    exact iget_proc_of_ne dev inum hq
  | _ =>
    obtain ⟨i, -, rfl⟩ := Option.map_eq_some_iff.mp hs
    exact setPt_proc_of_ne _ _ hq

theorem call_proc_of_ne {N : ℕ} {a : Act} (hq : q ≠ p) (hs : call N s p a = some t) :
    t.proc q = s.proc q := by
  cases a
  all_goals simp only [call] at hs
  all_goals try split at hs
  all_goals try split_ifs at hs
  all_goals cases hs
  all_goals first
    | rfl
    | exact update_of_ne hq ..
    | exact iget_proc_of_ne _ _ hq

end Proc

/-- The invariant, with the processes that take no steps. -/
structure Reach (N : ℕ) (s : St) : Prop where
  inv : Inv s
  idle : ∀ q, N ≤ q → s.proc q = ⟨.run, []⟩

theorem Reach.step {N ninodes : ℕ} {s t : St} {e : ℕ × Act} (h : Reach N s)
    (hs : step N ninodes s e = some t) : Reach N t := by
  obtain ⟨p, a⟩ := e
  simp only [Icache.step] at hs
  split_ifs at hs with hp
  split at hs
  · rename_i hrun
    refine ⟨h.inv.call_inv h.idle hrun hs, fun q hq => ?_⟩
    rw [call_proc_of_ne (by omega) hs]
    exact h.idle q hq
  · refine ⟨h.inv.go_inv rfl hs, fun q hq => ?_⟩
    rw [go_proc_of_ne (by omega) hs]
    exact h.idle q hq
  · cases hs

theorem reach_init (N : ℕ) (dinode : ℕ → ℕ → Dinode) : Reach N (init dinode) := by
  refine ⟨⟨?_, ?_, ?_, ?_, ?_, ?_, ?_, ?_, ?_, ?_⟩, fun _ _ => rfl⟩
  · exact fun i j hi => absurd hi (lt_irrefl 0)
  · exact fun i => rfl
  · exact fun k i hk => by cases hk
  · exact fun p k hk => by cases hk
  · exact fun p q k hk => by cases hk
  · exact fun i p => ⟨fun hl => (by cases hl), fun hl => (by cases hl)⟩
  · exact fun p => List.nodup_nil
  · exact fun i hi => absurd hi (lt_irrefl 0)
  · exact fun p => trivial
  · exact fun p y hy => by cases hy

end Xv6.Icache
