import Xv6.Bio

/-! What the buffers, the list and the sleep-locks say about each other: the bookkeeping half of the
cache's invariant, and what each step of bio.c does to it. -/
namespace Xv6.Bio

/-- The buffers a process has references to. A buffer it has just asked for comes first. -/
def Code.bufs : Code → List ℕ
  | .run _ held => held.map Hold.buf
  | .wlFrom _ dst => [dst]
  | .wlCopy _ dst src => [src, dst]
  | .wlRelseFrom _ dst src => [src, dst]
  | .wlRelseTo _ dst => [dst]
  | .headWrite _ i | .headRelse _ i => [i]
  | .itDst _ lbuf => [lbuf]
  | .itCopy _ lbuf dbuf => [dbuf, lbuf]
  | .itRelseLog _ lbuf dbuf => [lbuf, dbuf]
  | .itRelseDst _ dbuf => [dbuf]
  | _ => []

/-- The buffers whose data a process changed since it locked them. -/
def Code.modified : Code → List ℕ
  | .run _ held => (held.filter Hold.dirty).map Hold.buf
  | .wlRelseFrom _ dst _ | .wlRelseTo _ dst => [dst]
  | .headRelse _ i => [i]
  | .itRelseLog _ _ dbuf | .itRelseDst _ dbuf => [dbuf]
  | _ => []

namespace Pt

def code : Pt → Code
  | .ready k | .want _ k | .fill _ k | .unref _ k | .panic _ k => k

def refs : Pt → List ℕ
  | .unref i k => i :: k.bufs
  | x => x.code.bufs

/-- The buffers whose sleep-lock the process holds. -/
def locks : Pt → List ℕ
  | .want _ k => k.bufs.tail
  | x => x.code.bufs

/-- The buffers that `bread` has returned. -/
def filled : Pt → List ℕ
  | .want _ k | .fill _ k => k.bufs.tail
  | x => x.code.bufs

/-- A buffer that is still on its way from `bget` is the first of the buffers, and not
modified yet. -/
def Fresh : Pt → Prop
  | .want i k | .fill i k => ∃ l, k.bufs = i :: l ∧ ∀ j ∈ k.modified, j ∈ l
  | _ => True

end Pt

namespace St

/-- How many references processes have to buffer `i`. -/
def refs (s : St) (N i : ℕ) : ℕ := ∑ p ∈ Finset.range N, (s.pc p).refs.count i

def pinned (s : St) (i : ℕ) : Bool := (s.buf i).dev = ROOTDEV && (s.buf i).blockno ∈ s.pins

/-- Buffer `i` is for block `b`. -/
def Holds (s : St) (i b : ℕ) : Prop := i < NBUF ∧ (s.buf i).dev = ROOTDEV ∧ (s.buf i).blockno = b

@[simp] theorem setBuf_self (s : St) (i : ℕ) (x : Buf) : (s.setBuf i x).buf i = x :=
  update_self ..

theorem setBuf_of_ne (s : St) {i j : ℕ} (x : Buf) (h : j ≠ i) : (s.setBuf i x).buf j = s.buf j :=
  update_of_ne h ..

@[simp] theorem setPc_self (s : St) (p : ℕ) (x : Pt) : (s.setPc p x).pc p = x :=
  update_self ..

theorem setPc_of_ne (s : St) {p q : ℕ} (x : Pt) (h : q ≠ p) : (s.setPc p x).pc q = s.pc q :=
  update_of_ne h ..

theorem setBuf_field {β : Type*} (f : Buf → β) {s : St} {i : ℕ} {x : Buf} (h : f x = f (s.buf i))
    (j : ℕ) : f ((s.setBuf i x).buf j) = f (s.buf j) := by
  by_cases hj : j = i
  · rw [hj, setBuf_self, h]
  · rw [setBuf_of_ne s x hj]

theorem setBuf_links {s : St} {i : ℕ} {x : Buf} (hnext : x.next = (s.buf i).next)
    (hprev : x.prev = (s.buf i).prev) : (s.setBuf i x).links = s.links := by
  simp only [links, setBuf_field Buf.next hnext, setBuf_field Buf.prev hprev]

theorem fill_eq (s : St) (i : ℕ) :
    s.fill i = s.setBuf i
      { s.buf i with
        valid := true
        data := if (s.buf i).valid then (s.buf i).data else s.disk (s.buf i).blockno } := by
  unfold fill
  split_ifs with h
  · have hself : s.buf i = { s.buf i with valid := true } := by rw [← h]
    rw [← hself, setBuf, update_eq_self]
  · rfl

theorem unref_field {β : Type*} (f : Buf → β)
    (hf : ∀ x n m r, f { x with next := n, prev := m, refcnt := r } = f x) (s : St) (i j : ℕ) :
    f ((s.unref i).buf j) = f (s.buf j) := by
  unfold unref
  dsimp only
  split_ifs
  · exact (hf _ _ _ _).trans (setBuf_field f (hf (s.buf i) _ _ _) j)
  · exact setBuf_field f (hf (s.buf i) _ _ _) j

theorem unref_eq (s : St) (i : ℕ) : s.unref i = { s with buf := (s.unref i).buf } := by
  unfold unref
  dsimp only
  split_ifs <;> rfl

theorem sum_update (f : Pt → ℕ) {s t : St} {N p : ℕ} {x : Pt} (hp : p < N)
    (ht : t.pc = update s.pc p x) :
    ∑ q ∈ Finset.range N, f (t.pc q) + f (s.pc p) = ∑ q ∈ Finset.range N, f (s.pc q) + f x := by
  have hmem := Finset.mem_range.mpr hp
  have hrest : ∑ q ∈ (Finset.range N).erase p, f (t.pc q) =
      ∑ q ∈ (Finset.range N).erase p, f (s.pc q) := by
    refine Finset.sum_congr rfl (fun q hq => ?_)
    rw [ht, update_of_ne (Finset.ne_of_mem_erase hq)]
  have hx : f (t.pc p) = f x := by rw [ht, update_self]
  have hnew := Finset.add_sum_erase _ (fun q => f (t.pc q)) hmem
  have hold := Finset.add_sum_erase _ (fun q => f (s.pc q)) hmem
  omega

theorem refs_update {s t : St} {N p : ℕ} {x : Pt} (hp : p < N)
    (ht : t.pc = update s.pc p x) (i : ℕ) :
    t.refs N i + (s.pc p).refs.count i = s.refs N i + x.refs.count i :=
  sum_update (fun y => y.refs.count i) hp ht

theorem refs_eq_zero {s : St} {N i : ℕ} (h : s.refs N i = 0) {p : ℕ} (hp : p < N) :
    i ∉ (s.pc p).refs := by
  have := (Finset.sum_eq_zero_iff.mp h) p (Finset.mem_range.mpr hp)
  exact List.count_eq_zero.mp this

end St

theorem Code.bufs_of_mem_modified {k : Code} {i : ℕ} (h : i ∈ k.modified) : i ∈ k.bufs := by
  cases k <;> simp_all [Code.modified, Code.bufs]
  obtain ⟨a, ha, rfl⟩ := h
  exact ⟨a, ha.1, rfl⟩

namespace Pt

theorem locks_subset_refs {x : Pt} {i : ℕ} (h : i ∈ x.locks) : i ∈ x.refs := by
  cases x with
  | want j k => exact List.mem_of_mem_tail h
  | unref j k => exact List.mem_cons_of_mem j h
  | ready k => exact h
  | fill j k => exact h
  | panic w k => exact h

theorem filled_subset_locks {x : Pt} {i : ℕ} (h : i ∈ x.filled) : i ∈ x.locks := by
  cases x with
  | fill j k => exact List.mem_of_mem_tail h
  | ready k => exact h
  | want j k => exact h
  | unref j k => exact h
  | panic w k => exact h

theorem modified_subset_filled {x : Pt} (hx : x.Fresh) {i : ℕ} (h : i ∈ x.code.modified) :
    i ∈ x.filled := by
  cases x with
  | want j k =>
    obtain ⟨l, hl, hmod⟩ := hx
    simp only [filled, hl]
    exact hmod i h
  | fill j k =>
    obtain ⟨l, hl, hmod⟩ := hx
    simp only [filled, hl]
    exact hmod i h
  | ready k => exact Code.bufs_of_mem_modified h
  | unref j k => exact Code.bufs_of_mem_modified h
  | panic w k => exact Code.bufs_of_mem_modified h

end Pt

/-- What holds of each process, at the place `x`. -/
structure ProcOk (buf : ℕ → Buf) (x : Pt) : Prop where
  nodup : x.locks.Nodup
  bound : ∀ i ∈ x.refs, i < NBUF ∧ (buf i).dev = ROOTDEV
  valid : ∀ i ∈ x.filled, (buf i).valid = true
  fresh : x.Fresh

structure Cache (N : ℕ) (s : St) : Prop where
  ring : ∃ xs, s.links.Ring NBUF xs ∧ xs.Perm (List.range NBUF)
  unique : ∀ i j b, s.Holds i b → s.Holds j b → i = j
  refcnt : ∀ i < NBUF, (s.buf i).refcnt = s.refs N i + (s.pinned i).toNat
  lock : ∀ i p, (s.buf i).lock = some p ↔ i ∈ (s.pc p).locks
  proc : ∀ p, ProcOk s.buf (s.pc p)
  idle : ∀ p, N ≤ p → s.pc p = .ready (.run none [])
  pins : ∀ b ∈ s.pins, ∃ i, s.Holds i b ∧ (s.buf i).valid = true

theorem ProcOk.congr {buf buf' : ℕ → Buf} {x : Pt} (h : ProcOk buf x)
    (hdev : ∀ i ∈ x.refs, (buf' i).dev = (buf i).dev)
    (hvalid : ∀ i ∈ x.refs, (buf i).valid = true → (buf' i).valid = true) : ProcOk buf' x where
  nodup := h.nodup
  bound := by
    intro i hi
    rw [hdev i hi]
    exact h.bound i hi
  valid := fun i hi =>
    hvalid i (Pt.locks_subset_refs (Pt.filled_subset_locks hi)) (h.valid i hi)
  fresh := h.fresh

/-- From a call of `bget` to the wait for the sleep-lock of its buffer. -/
theorem ProcOk.want {buf : ℕ → Buf} {k k' : Code} {i : ℕ} (h : ProcOk buf (.ready k))
    (hi : i < NBUF ∧ (buf i).dev = ROOTDEV) (hbufs : k'.bufs = i :: k.bufs)
    (hmod : k'.modified = k.modified) : ProcOk buf (.want i k') where
  nodup := by
    simpa only [Pt.locks, Pt.code, hbufs, List.tail_cons] using h.nodup
  bound := by
    simp only [Pt.refs, Pt.code, hbufs, List.mem_cons]
    rintro j (rfl | hj)
    · exact hi
    · exact h.bound j hj
  valid := by
    simpa only [Pt.filled, Pt.code, hbufs, List.tail_cons] using h.valid
  fresh := ⟨k.bufs, hbufs, fun j hj => Code.bufs_of_mem_modified (hmod ▸ hj)⟩

namespace Cache

variable {N : ℕ} {s t : St} {p i b : ℕ}

section

variable (hc : Cache N s)
include hc

theorem of_lock {q : ℕ} (hi : i ∈ (s.pc p).locks) (hj : i ∈ (s.pc q).locks) :
    p = q :=
  Option.some.inj (((hc.lock i p).mpr hi).symm.trans ((hc.lock i q).mpr hj))

theorem lt_of_mem_refs (hi : i ∈ (s.pc p).refs) : p < N := by
  by_contra hp
  rw [hc.idle p (Nat.le_of_not_lt hp)] at hi
  simp [Pt.refs, Pt.code, Code.bufs] at hi

theorem holds_of_mem_refs (hi : i ∈ (s.pc p).refs) :
    s.Holds i (s.buf i).blockno :=
  ⟨((hc.proc p).bound i hi).1, ((hc.proc p).bound i hi).2, rfl⟩

theorem not_mem_refs (hi : i < NBUF) (hzero : (s.buf i).refcnt = 0) (q : ℕ) :
    i ∉ (s.pc q).refs := by
  intro hmem
  have hsum := hc.refcnt i hi
  exact St.refs_eq_zero (by omega) (hc.lt_of_mem_refs hmem) hmem

theorem not_pinned (hi : i < NBUF) (hzero : (s.buf i).refcnt = 0) :
    s.pinned i = false := by
  have hsum := hc.refcnt i hi
  cases hpin : s.pinned i
  · rfl
  · rw [hpin, Bool.toNat_true] at hsum
    omega

theorem cached_eq_some (h : s.cached ROOTDEV b = some i) : s.Holds i b := by
  obtain ⟨xs, hring, hperm⟩ := hc.ring
  have hlen : xs.length < NBUF + 1 := by
    rw [hperm.length_eq, List.length_range]
    omega
  rw [St.cached, hring.scan_next _ hlen] at h
  have hmem := List.mem_of_find?_eq_some h
  have hP := List.find?_some h
  simp only [Bool.and_eq_true, decide_eq_true_eq] at hP
  exact ⟨List.mem_range.mp (hperm.mem_iff.mp hmem), hP⟩

theorem cached_eq_none : s.cached ROOTDEV b = none ↔ ∀ i, ¬ s.Holds i b := by
  obtain ⟨xs, hring, hperm⟩ := hc.ring
  have hlen : xs.length < NBUF + 1 := by
    rw [hperm.length_eq, List.length_range]
    omega
  rw [St.cached, hring.scan_next _ hlen, List.find?_eq_none]
  simp only [Bool.and_eq_true, decide_eq_true_eq, hperm.mem_iff, List.mem_range, St.Holds]
  exact ⟨fun h i hi => h i hi.1 hi.2, fun h i hi hP => h i ⟨hi, hP⟩⟩

theorem unused_eq_some (h : s.unused = some i) :
    i < NBUF ∧ (s.buf i).refcnt = 0 := by
  obtain ⟨xs, hring, hperm⟩ := hc.ring
  have hlen : xs.length < NBUF + 1 := by
    rw [hperm.length_eq, List.length_range]
    omega
  rw [St.unused, hring.scan_prev _ hlen] at h
  have hmem := List.mem_reverse.mp (List.mem_of_find?_eq_some h)
  exact ⟨List.mem_range.mp (hperm.mem_iff.mp hmem), by simpa using List.find?_some h⟩

theorem step {x : Pt} (hp : p < N) (hpc : t.pc = update s.pc p x)
    (hring : ∃ xs, t.links.Ring NBUF xs ∧ xs.Perm (List.range NBUF))
    (hdev : ∀ j, (t.buf j).dev = (s.buf j).dev) (hno : ∀ j, (t.buf j).blockno = (s.buf j).blockno)
    (hvalid : ∀ j, (s.buf j).valid = true → (t.buf j).valid = true)
    (hpins : ∀ b ∈ t.pins, ∃ i, s.Holds i b ∧ (s.buf i).valid = true)
    (hrefcnt : ∀ j < NBUF, (t.buf j).refcnt + (s.pc p).refs.count j + (s.pinned j).toNat =
      (s.buf j).refcnt + x.refs.count j + (t.pinned j).toNat)
    (hlock : ∀ j q, (t.buf j).lock = some q ↔ j ∈ (t.pc q).locks) (hx : ProcOk t.buf x) :
    Cache N t where
  ring := hring
  unique := by
    intro i j b hi hj
    simp only [St.Holds, hdev, hno] at hi hj
    exact hc.unique i j b hi hj
  refcnt := by
    intro j hj
    have hsum := St.refs_update hp hpc j
    have hold := hc.refcnt j hj
    have hnew := hrefcnt j hj
    omega
  lock := hlock
  proc := by
    intro q
    rw [hpc]
    by_cases hq : q = p
    · rwa [hq, update_self]
    · rw [update_of_ne hq]
      exact (hc.proc q).congr (fun i _ => hdev i) (fun i _ => hvalid i)
  idle := by
    intro q hq
    rw [hpc, update_of_ne (by omega)]
    exact hc.idle q hq
  pins := by
    intro b hb
    obtain ⟨i, hi, hv⟩ := hpins b hb
    refine ⟨i, ?_, hvalid i hv⟩
    simpa only [St.Holds, hdev, hno] using hi

theorem move {x : Pt} (hp : p < N) (hpc : t.pc = update s.pc p x)
    (hpins : t.pins = s.pins) (hlinks : t.links = s.links)
    (hdev : ∀ j, (t.buf j).dev = (s.buf j).dev) (hno : ∀ j, (t.buf j).blockno = (s.buf j).blockno)
    (hvalid : ∀ j, (s.buf j).valid = true → (t.buf j).valid = true)
    (hrefcnt : ∀ j, (t.buf j).refcnt = (s.buf j).refcnt)
    (hrefs : ∀ j, x.refs.count j = (s.pc p).refs.count j)
    (hlock : ∀ j q, (t.buf j).lock = some q ↔ j ∈ (t.pc q).locks) (hx : ProcOk t.buf x) :
    Cache N t := by
  refine hc.step hp hpc (hlinks ▸ hc.ring) hdev hno hvalid (hpins ▸ hc.pins) ?_ hlock hx
  intro j _
  have hpin : t.pinned j = s.pinned j := by simp only [St.pinned, hdev, hno, hpins]
  rw [hrefcnt, hrefs, hpin]

theorem lock_of_same {x : Pt} (hpc : t.pc = update s.pc p x)
    (hlock : ∀ j, (t.buf j).lock = (s.buf j).lock) (hx : ∀ j, j ∈ x.locks ↔ j ∈ (s.pc p).locks)
    (j q : ℕ) : (t.buf j).lock = some q ↔ j ∈ (t.pc q).locks := by
  rw [hlock, hc.lock, hpc]
  by_cases hq : q = p
  · subst hq
    rw [update_self, hx]
  · rw [update_of_ne hq]

theorem hit {k k' : Code} (hp : p < N) (hk : s.pc p = .ready k)
    (hi : s.Holds i b) (hbufs : k'.bufs = i :: k.bufs) (hmod : k'.modified = k.modified) :
    Cache N ((s.hit i).setPc p (.want i k')) := by
  have hdev : ∀ j, ((s.hit i).buf j).dev = (s.buf j).dev := St.setBuf_field Buf.dev rfl
  have hvalid : ∀ j, ((s.hit i).buf j).valid = (s.buf j).valid := St.setBuf_field Buf.valid rfl
  have hok : ProcOk s.buf (.want i k') := (hk ▸ hc.proc p).want ⟨hi.1, hi.2.1⟩ hbufs hmod
  have hno : ∀ j, ((s.hit i).buf j).blockno = (s.buf j).blockno := St.setBuf_field Buf.blockno rfl
  refine hc.step hp rfl ?_ hdev hno (fun j => (hvalid j).trans) hc.pins ?_
    (hc.lock_of_same rfl (St.setBuf_field Buf.lock rfl) (fun j => ?_))
    (hok.congr (fun j _ => hdev j) (fun j _ => (hvalid j).trans))
  · exact (St.setBuf_links rfl rfl : (s.hit i).links = s.links) ▸ hc.ring
  · intro j _
    have hpin : (s.hit i).pinned j = s.pinned j := by
      simp only [St.pinned, hdev, hno]
      rfl
    change ((s.hit i).buf j).refcnt + _ + _ = _ + _ + ((s.hit i).pinned j).toNat
    rw [hk, hpin]
    simp only [Pt.refs, Pt.code, hbufs]
    by_cases hj : j = i
    · rw [hj, List.count_cons_self]
      change ((s.setBuf i _).buf i).refcnt + _ + _ = _
      rw [St.setBuf_self]
      dsimp only
      omega
    · rw [List.count_cons_of_ne (Ne.symm hj)]
      change ((s.setBuf i _).buf j).refcnt + _ + _ = _
      rw [St.setBuf_of_ne s _ hj]
  · simp only [hk, Pt.locks, Pt.code, hbufs, List.tail_cons]

theorem recycle {k k' : Code} (hp : p < N) (hk : s.pc p = .ready k)
    (hmiss : ∀ j, ¬ s.Holds j b) (hi : i < NBUF) (hzero : (s.buf i).refcnt = 0)
    (hbufs : k'.bufs = i :: k.bufs) (hmod : k'.modified = k.modified) :
    Cache N ((s.recycle i ROOTDEV b).setPc p (.want i k')) := by
  have hself : (s.recycle i ROOTDEV b).buf i =
      { s.buf i with dev := ROOTDEV, blockno := b, valid := false, refcnt := 1 } :=
    update_self ..
  have hother : ∀ j, j ≠ i → (s.recycle i ROOTDEV b).buf j = s.buf j :=
    fun j hj => update_of_ne hj ..
  have hnone := hc.not_mem_refs hi hzero
  have hunpinned := hc.not_pinned hi hzero
  -- no pinned block is `b`, since pinned blocks have buffers
  have hb : b ∉ s.pins := fun hmem => by
    obtain ⟨j, hj, _⟩ := hc.pins b hmem
    exact hmiss j hj
  have hHolds : ∀ j c, (s.recycle i ROOTDEV b).Holds j c → (j = i ∧ c = b) ∨ (j ≠ i ∧ s.Holds j c) := by
    intro j c hj
    by_cases hji : j = i
    · subst hji
      exact .inl ⟨rfl, by simpa [hself] using hj.2.2.symm⟩
    · refine .inr ⟨hji, ?_⟩
      simpa only [St.Holds, hother j hji] using hj
  have hok : ∀ x, i ∉ x.refs → ProcOk s.buf x → ProcOk (s.recycle i ROOTDEV b).buf x := by
    intro x hx h
    exact h.congr (fun j hj => by rw [hother j (fun hji => hx (hji ▸ hj))])
      (fun j hj => by rw [hother j (fun hji => hx (hji ▸ hj))]; exact id)
  constructor
  · exact (St.setBuf_links rfl rfl : (s.recycle i ROOTDEV b).links = s.links) ▸ hc.ring
  · intro j j' c hj hj'
    rcases hHolds j c hj with ⟨hji, hcb⟩ | ⟨-, hold⟩ <;>
      rcases hHolds j' c hj' with ⟨hji', hcb'⟩ | ⟨-, hold'⟩
    · rw [hji, hji']
    · exact absurd (hcb ▸ hold') (hmiss j')
    · exact absurd (hcb' ▸ hold) (hmiss j)
    · exact hc.unique j j' c hold hold'
  · intro j hj
    have hsum : ((s.recycle i ROOTDEV b).setPc p (.want i k')).refs N j + (s.pc p).refs.count j =
      s.refs N j + (Pt.want i k').refs.count j := St.refs_update hp rfl j
    have hold := hc.refcnt j hj
    rw [hk] at hsum
    simp only [Pt.refs, Pt.code, hbufs] at hsum
    change ((s.recycle i ROOTDEV b).buf j).refcnt = _ + ((s.recycle i ROOTDEV b).pinned j).toNat
    by_cases hji : j = i
    · subst hji
      have hpin : (s.recycle j ROOTDEV b).pinned j = false := by
        simp only [St.pinned, hself, Bool.and_eq_false_iff, decide_eq_false_iff_not]
        exact .inr hb
      rw [List.count_cons_self] at hsum
      rw [hunpinned, Bool.toNat_false] at hold
      rw [hpin, hself]
      change 1 = _ + 0
      omega
    · have hpin : (s.recycle i ROOTDEV b).pinned j = s.pinned j := by
        simp only [St.pinned, hother j hji]
        rfl
      rw [List.count_cons_of_ne (Ne.symm hji)] at hsum
      rw [hother j hji, hpin]
      omega
  · exact hc.lock_of_same rfl (St.setBuf_field Buf.lock rfl)
      (fun j => by simp only [hk, Pt.locks, Pt.code, hbufs, List.tail_cons])
  · intro q
    simp only [St.setPc]
    by_cases hq : q = p
    · subst hq
      have hready : ProcOk (s.recycle i ROOTDEV b).buf (.ready k) :=
        hok _ (hk ▸ hnone q) (hk ▸ hc.proc q)
      rw [update_self]
      exact hready.want (by simp [hself, hi]) hbufs hmod
    · rw [update_of_ne hq]
      exact hok _ (hnone q) (hc.proc q)
  · intro q hq
    simp only [St.setPc, update_of_ne (by omega : q ≠ p)]
    exact hc.idle q hq
  · intro c hmem
    obtain ⟨j, hj, hv⟩ := hc.pins c hmem
    have hji : j ≠ i := by
      rintro rfl
      have hpin : s.pinned j = true := by
        simp only [St.pinned, hj.2.1, hj.2.2, decide_true, Bool.true_and, decide_eq_true_eq]
        exact hmem
      rw [hunpinned] at hpin
      cases hpin
    refine ⟨j, ?_, ?_⟩
    · simpa only [St.Holds, St.setPc, hother j hji] using hj
    · simpa only [St.setPc, hother j hji] using hv

theorem acquire {k : Code} (hp : p < N) (hk : s.pc p = .want i k)
    (hfree : (s.buf i).lock = none) : Cache N ((s.setLock i (some p)).setPc p (.fill i k)) := by
  have hok : ProcOk s.buf (.want i k) := hk ▸ hc.proc p
  obtain ⟨l, hl, hmod⟩ := hok.fresh
  have hnot : ∀ q, i ∉ (s.pc q).locks := by
    intro q hq
    rw [← hc.lock, hfree] at hq
    cases hq
  have hil : i ∉ l := by simpa [hk, Pt.locks, hl] using hnot p
  have hdev : ∀ j, ((s.setLock i (some p)).buf j).dev = (s.buf j).dev :=
    St.setBuf_field Buf.dev rfl
  have hvalid : ∀ j, ((s.setLock i (some p)).buf j).valid = (s.buf j).valid :=
    St.setBuf_field Buf.valid rfl
  refine hc.move hp rfl rfl (St.setBuf_links rfl rfl) hdev (St.setBuf_field Buf.blockno rfl)
    (fun j => (hvalid j).trans) (St.setBuf_field Buf.refcnt rfl) (fun j => by rw [hk]; rfl) ?_ ?_
  · intro j q
    change ((s.setBuf i _).buf j).lock = some q ↔ _
    by_cases hq : q = p
    · subst hq
      rw [St.setPc_self]
      by_cases hj : j = i
      · subst hj
        simp [Pt.locks, Pt.code, hl]
      · rw [St.setBuf_of_ne s _ hj, hc.lock]
        simp [hk, Pt.locks, Pt.code, hl, hj]
    · rw [St.setPc_of_ne _ _ hq]
      by_cases hj : j = i
      · subst hj
        simp only [St.setBuf_self, Option.some.injEq, Ne.symm hq, false_iff]
        exact hnot q
      · rw [St.setBuf_of_ne s _ hj]
        exact hc.lock j q
  · have hnodup : l.Nodup := by simpa only [Pt.locks, hl, List.tail_cons] using hok.nodup
    have hfill : ProcOk s.buf (.fill i k) :=
      ⟨by simpa only [Pt.locks, Pt.code, hl, List.nodup_cons] using ⟨hil, hnodup⟩, hok.bound,
        hok.valid, hok.fresh⟩
    exact hfill.congr (fun j _ => hdev j) (fun j _ => (hvalid j).trans)

theorem fill {k : Code} (hp : p < N) (hk : s.pc p = .fill i k) :
    Cache N ((s.fill i).setPc p (.ready k)) := by
  have hok : ProcOk s.buf (.fill i k) := hk ▸ hc.proc p
  obtain ⟨l, hl, hmod⟩ := hok.fresh
  rw [St.fill_eq]
  generalize hy : ({ s.buf i with valid := true, data := _ } : Buf) = y
  have hdev : ∀ j, ((s.setBuf i y).buf j).dev = (s.buf j).dev :=
    St.setBuf_field Buf.dev (by rw [← hy])
  have hvalid : ∀ j, (s.buf j).valid = true → ((s.setBuf i y).buf j).valid = true := by
    intro j hj
    by_cases hji : j = i
    · rw [hji, St.setBuf_self, ← hy]
    · rwa [St.setBuf_of_ne s y hji]
  refine hc.move (x := .ready k) hp rfl rfl
    (St.setBuf_links (by rw [← hy]) (by rw [← hy])) hdev
    (St.setBuf_field Buf.blockno (by rw [← hy])) hvalid
    (St.setBuf_field Buf.refcnt (by rw [← hy])) (fun j => by rw [hk]; rfl) ?_ ?_
  · exact hc.lock_of_same rfl (St.setBuf_field Buf.lock (by rw [← hy])) (fun j => by rw [hk]; rfl)
  · refine ⟨hok.nodup, fun j hj => (hdev j).symm ▸ hok.bound j hj, ?_, trivial⟩
    intro j hj
    change ((s.setBuf i y).buf j).valid = true
    simp only [Pt.filled, Pt.code, hl, List.mem_cons] at hj
    rcases hj with rfl | hj
    · rw [St.setBuf_self, ← hy]
    · exact hvalid j (hok.valid j (by simpa only [Pt.filled, hl, List.tail_cons] using hj))

theorem brelse {k k' : Code} (hp : p < N) (hk : s.pc p = .ready k)
    (hbufs : k.bufs.Perm (i :: k'.bufs)) : Cache N (s.brelse p i k') := by
  have hok : ProcOk s.buf (.ready k) := hk ▸ hc.proc p
  have hnodup : (i :: k'.bufs).Nodup := hbufs.nodup_iff.mp hok.nodup
  have hmem : i ∈ (s.pc p).locks := by
    rw [hk]
    exact hbufs.mem_iff.mpr List.mem_cons_self
  have hdev : ∀ j, ((s.setLock i none).buf j).dev = (s.buf j).dev := St.setBuf_field Buf.dev rfl
  have hvalid : ∀ j, ((s.setLock i none).buf j).valid = (s.buf j).valid :=
    St.setBuf_field Buf.valid rfl
  refine hc.move hp rfl rfl (St.setBuf_links rfl rfl) hdev (St.setBuf_field Buf.blockno rfl)
    (fun j => (hvalid j).trans) (St.setBuf_field Buf.refcnt rfl) (fun j => ?_) ?_ ?_
  · rw [hk]
    exact (hbufs.count_eq j).symm
  · intro j q
    change ((s.setBuf i _).buf j).lock = some q ↔ j ∈ (((s.setLock i none).setPc p _).pc q).locks
    by_cases hj : j = i
    · subst hj
      simp only [St.setBuf_self, reduceCtorEq, false_iff]
      by_cases hq : q = p
      · rw [hq, St.setPc_self]
        exact (List.nodup_cons.mp hnodup).1
      · rw [St.setPc_of_ne _ _ hq]
        exact fun h => hq (hc.of_lock h hmem)
    · rw [St.setBuf_of_ne s _ hj, hc.lock]
      by_cases hq : q = p
      · rw [hq, St.setPc_self, hk]
        simp only [Pt.locks, Pt.code, hbufs.mem_iff, List.mem_cons, hj, false_or]
      · rw [St.setPc_of_ne _ _ hq]
        rfl
  · have hunref : ProcOk s.buf (.unref i k') :=
      ⟨(List.nodup_cons.mp hnodup).2, fun j hj => hok.bound j (hbufs.mem_iff.mpr hj),
        fun j hj => hok.valid j (hbufs.mem_iff.mpr (List.mem_cons_of_mem i hj)), trivial⟩
    exact hunref.congr (fun j _ => hdev j) (fun j _ => (hvalid j).trans)

theorem setPc {x : Pt} (hp : p < N) (hbuf : t.buf = s.buf)
    (hpins : t.pins = s.pins) (hpc : t.pc = update s.pc p x)
    (hrefs : ∀ j, x.refs.count j = (s.pc p).refs.count j)
    (hlocks : ∀ j, j ∈ x.locks ↔ j ∈ (s.pc p).locks) (hx : ProcOk s.buf x) : Cache N t :=
  hc.move hp hpc hpins (by simp only [St.links, hbuf]) (fun j => by rw [hbuf])
    (fun j => by rw [hbuf]) (fun j => by rw [hbuf]; exact id) (fun j => by rw [hbuf]) hrefs
    (hc.lock_of_same hpc (fun j => by rw [hbuf]) hlocks) (hbuf ▸ hx)

theorem unref {k : Code} (hp : p < N) (hk : s.pc p = .unref i k) :
    Cache N ((s.unref i).setPc p (.ready k)) := by
  have hok : ProcOk s.buf (.unref i k) := hk ▸ hc.proc p
  have hi := (hok.bound i List.mem_cons_self).1
  have hpos : 0 < (s.buf i).refcnt := by
    have hne : (s.buf i).refcnt ≠ 0 := fun h =>
      hc.not_mem_refs hi h p (by rw [hk]; exact List.mem_cons_self)
    omega
  have hrefcnt : ∀ j, ((s.unref i).buf j).refcnt =
      if j = i then (s.buf i).refcnt - 1 else (s.buf j).refcnt := by
    intro j
    have hset : ((s.setBuf i { s.buf i with refcnt := (s.buf i).refcnt - 1 }).buf j).refcnt =
        if j = i then (s.buf i).refcnt - 1 else (s.buf j).refcnt := by
      split_ifs with hj
      · rw [hj, St.setBuf_self]
      · rw [St.setBuf_of_ne s _ hj]
    unfold St.unref
    dsimp only
    split_ifs at * <;> exact hset
  have hring : ∃ xs, (s.unref i).links.Ring NBUF xs ∧ xs.Perm (List.range NBUF) := by
    obtain ⟨xs, hxs, hperm⟩ := hc.ring
    have hmem : i ∈ xs := hperm.mem_iff.mpr (List.mem_range.mpr hi)
    have hsame : (s.setBuf i { s.buf i with refcnt := (s.buf i).refcnt - 1 }).links = s.links :=
      St.setBuf_links rfl rfl
    unfold St.unref
    dsimp only
    split_ifs
    · refine ⟨i :: xs.erase i, ?_, (List.perm_cons_erase hmem).symm.trans hperm⟩
      rw [hsame]
      refine (hxs.unlink hmem).insertFront ?_
      have hnodup := List.nodup_cons.mp hxs.nodup
      simp only [List.mem_cons, not_or]
      exact ⟨fun h => hnodup.1 (h ▸ hmem), hnodup.2.not_mem_erase⟩
    · exact ⟨xs, hsame.symm ▸ hxs, hperm⟩
  have hdev := St.unref_field Buf.dev (fun _ _ _ _ => rfl) s i
  have hno := St.unref_field Buf.blockno (fun _ _ _ _ => rfl) s i
  have hvalid := St.unref_field Buf.valid (fun _ _ _ _ => rfl) s i
  have hpins : (s.unref i).pins = s.pins := by rw [St.unref_eq]
  have hpc : ((s.unref i).setPc p (.ready k)).pc = update s.pc p (.ready k) := by
    rw [St.unref_eq]
    rfl
  refine hc.step hp hpc hring hdev hno (fun j => (hvalid j).trans) (hpins.symm ▸ hc.pins) ?_ ?_ ?_
  · intro j _
    have hpin : ((s.unref i).setPc p (.ready k)).pinned j = s.pinned j := by
      simp only [St.pinned, St.setPc, hdev, hno, hpins]
    have hnew : (((s.unref i).setPc p (.ready k)).buf j).refcnt = _ := hrefcnt j
    rw [hpin, hnew, hk]
    simp only [Pt.refs, Pt.code]
    split_ifs with hj
    · rw [hj, List.count_cons_self]
      omega
    · rw [List.count_cons_of_ne (Ne.symm hj)]
  · exact hc.lock_of_same hpc (St.unref_field Buf.lock (fun _ _ _ _ => rfl) s i)
      (fun j => by rw [hk]; rfl)
  · have hready : ProcOk s.buf (.ready k) :=
      ⟨hok.nodup, fun j hj => hok.bound j (List.mem_cons_of_mem i hj), hok.valid, trivial⟩
    exact hready.congr (fun j _ => hdev j) (fun j _ => (hvalid j).trans)

theorem bpin {k k' : Code} (hp : p < N) (hk : s.pc p = .ready k)
    (hi : i ∈ k.bufs) (hb : (s.buf i).blockno ∉ s.pins) (hbufs : k'.bufs = k.bufs)
    (hbuf : t.buf = (s.hit i).buf) (hpins : t.pins = s.pins ++ [(s.buf i).blockno])
    (hpc : t.pc = update s.pc p (.ready k')) : Cache N t := by
  have hok : ProcOk s.buf (.ready k) := hk ▸ hc.proc p
  have hHolds : s.Holds i (s.buf i).blockno := ⟨(hok.bound i hi).1, (hok.bound i hi).2, rfl⟩
  have hdev : ∀ j, (t.buf j).dev = (s.buf j).dev := hbuf ▸ St.setBuf_field Buf.dev rfl
  have hno : ∀ j, (t.buf j).blockno = (s.buf j).blockno := hbuf ▸ St.setBuf_field Buf.blockno rfl
  have hvalid : ∀ j, (t.buf j).valid = (s.buf j).valid := hbuf ▸ St.setBuf_field Buf.valid rfl
  refine hc.step hp hpc ?_ hdev hno (fun j => (hvalid j).trans) ?_ ?_ ?_ ?_
  · have hlinks : t.links = s.links := by
      simp only [St.links, hbuf]
      exact St.setBuf_links (s := s) (i := i) rfl rfl
    rw [hlinks]
    exact hc.ring
  · rw [hpins]
    intro b hmem
    rcases List.mem_append.mp hmem with hmem | hmem
    · exact hc.pins b hmem
    · exact ⟨i, List.mem_singleton.mp hmem ▸ hHolds, hok.valid i hi⟩
  · intro j hj
    have hrefs : (Pt.ready k').refs = (s.pc p).refs := by rw [hk]; exact hbufs
    rw [hrefs, hbuf]
    by_cases hji : j = i
    · subst hji
      have hold : s.pinned j = false := by simp [St.pinned, hb]
      have hnew : t.pinned j = true := by
        simp [St.pinned, hdev, hno, hpins, hHolds.2.1]
      rw [hold, hnew]
      change ((s.setBuf j _).buf j).refcnt + _ + 0 = _ + _ + 1
      rw [St.setBuf_self]
      dsimp only
      omega
    · have hpin : t.pinned j = s.pinned j := by
        by_cases hd : (s.buf j).dev = ROOTDEV
        · have hne : (s.buf j).blockno ≠ (s.buf i).blockno := fun h =>
            hji (hc.unique j i _ ⟨hj, hd, h⟩ hHolds)
          simp [St.pinned, hdev, hno, hpins, hne]
        · simp [St.pinned, hdev, hd]
      rw [hpin]
      change ((s.setBuf i _).buf j).refcnt + _ + _ = _
      rw [St.setBuf_of_ne s _ hji]
  · exact hc.lock_of_same hpc (hbuf ▸ St.setBuf_field Buf.lock rfl)
      (fun j => by rw [hk]; simp only [Pt.locks, Pt.code, hbufs])
  · have hready : ProcOk s.buf (.ready k') :=
      ⟨by simpa only [Pt.locks, Pt.code, hbufs] using hok.nodup,
        by simpa only [Pt.refs, Pt.code, hbufs] using hok.bound,
        by simpa only [Pt.filled, Pt.code, hbufs] using hok.valid, trivial⟩
    exact hready.congr (fun j _ => hdev j) (fun j _ => (hvalid j).trans)

theorem bunpin {k k' : Code} {data : Block} (hp : p < N) (hk : s.pc p = .ready k)
    (hi : i ∈ k.bufs) (hb : (s.buf i).blockno ∈ s.pins) (hnodup : s.pins.Nodup)
    (hbufs : k'.bufs.Perm k.bufs) :
    Cache N (((s.bwrite i data).bunpin i).setPc p (.ready k')) := by
  have hok : ProcOk s.buf (.ready k) := hk ▸ hc.proc p
  have hHolds : s.Holds i (s.buf i).blockno := ⟨(hok.bound i hi).1, (hok.bound i hi).2, rfl⟩
  have hself : ((s.bwrite i data).bunpin i).buf i =
      { s.buf i with data := data, refcnt := (s.buf i).refcnt - 1 } := by
    simp [St.bunpin, St.bwrite, St.setData, St.setBuf]
  have hother : ∀ j, j ≠ i → ((s.bwrite i data).bunpin i).buf j = s.buf j := by
    intro j hj
    simp [St.bunpin, St.bwrite, St.setData, St.setBuf, update_of_ne hj]
  have hpins : ((s.bwrite i data).bunpin i).pins = s.pins.erase (s.buf i).blockno := by
    simp [St.bunpin, St.bwrite, St.setData, St.setBuf]
  generalize hu : (s.bwrite i data).bunpin i = u at hself hother hpins
  have hpc : u.pc = s.pc := by rw [← hu]; rfl
  have hfield : ∀ {β : Type} (f : Buf → β), (∀ x d r, f { x with data := d, refcnt := r } = f x) →
      ∀ j, f (u.buf j) = f (s.buf j) := by
    intro β f hf j
    by_cases hj : j = i
    · rw [hj, hself]
      exact hf _ _ _
    · rw [hother j hj]
  have hdev := hfield Buf.dev (fun _ _ _ => rfl)
  have hno := hfield Buf.blockno (fun _ _ _ => rfl)
  have hvalid := hfield Buf.valid (fun _ _ _ => rfl)
  have hupd : (u.setPc p (.ready k')).pc = update s.pc p (.ready k') := by
    simp only [St.setPc, hpc]
  have hrefs : ∀ j, (Pt.ready k').refs.count j = (s.pc p).refs.count j := by
    intro j
    rw [hk]
    exact hbufs.count_eq j
  refine hc.step hp hupd ?_ hdev hno (fun j => (hvalid j).trans) ?_ ?_ ?_ ?_
  · have hlinks : (u.setPc p (.ready k')).links = s.links := by
      simp only [St.links, St.setPc, hfield Buf.next (fun _ _ _ => rfl),
        hfield Buf.prev (fun _ _ _ => rfl)]
    rw [hlinks]
    exact hc.ring
  · intro b hmem
    exact hc.pins b (List.mem_of_mem_erase (hpins ▸ hmem))
  · intro j hj
    have hpinned : ∀ v, (u.setPc p v).pinned j =
        ((s.buf j).dev = ROOTDEV && (s.buf j).blockno ∈ s.pins.erase (s.buf i).blockno) := by
      intro v
      simp only [St.pinned, St.setPc, hdev, hno, hpins]
    change (u.buf j).refcnt + _ + _ = _
    rw [hrefs, hpinned]
    by_cases hji : j = i
    · subst hji
      have hpos : 0 < (s.buf j).refcnt := by
        have hne : (s.buf j).refcnt ≠ 0 := fun h =>
          hc.not_mem_refs hj h p (by rw [hk]; exact hi)
        omega
      have hold : s.pinned j = true := by simp [St.pinned, hHolds.2.1, hb]
      have hnew : (s.buf j).blockno ∉ s.pins.erase (s.buf j).blockno := hnodup.not_mem_erase
      rw [hself, hold]
      simp only [hnew, decide_false, Bool.and_false, Bool.toNat_false, Bool.toNat_true]
      omega
    · rw [hother j hji]
      by_cases hd : (s.buf j).dev = ROOTDEV
      · have hne : (s.buf j).blockno ≠ (s.buf i).blockno := fun h =>
          hji (hc.unique j i _ ⟨hj, hd, h⟩ hHolds)
        simp [St.pinned, List.mem_erase_of_ne hne]
      · simp [St.pinned, hd]
  · refine hc.lock_of_same hupd (hfield Buf.lock (fun _ _ _ => rfl)) (fun j => ?_)
    rw [hk]
    exact hbufs.mem_iff
  · have hready : ProcOk s.buf (.ready k') :=
      ⟨hbufs.nodup_iff.mpr hok.nodup, fun j hj => hok.bound j (hbufs.mem_iff.mp hj),
        fun j hj => hok.valid j (hbufs.mem_iff.mp hj), trivial⟩
    exact hready.congr (fun j _ => hdev j) (fun j _ => (hvalid j).trans)

theorem setData {k k' : Code} {data : Block} (hp : p < N)
    (hk : s.pc p = .ready k) (hbufs : k'.bufs = k.bufs) (hbuf : t.buf = (s.setData i data).buf)
    (hpins : t.pins = s.pins) (hpc : t.pc = update s.pc p (.ready k')) : Cache N t := by
  have hok : ProcOk s.buf (.ready k) := hk ▸ hc.proc p
  have hdev : ∀ j, (t.buf j).dev = (s.buf j).dev := hbuf ▸ St.setBuf_field Buf.dev rfl
  have hvalid : ∀ j, (t.buf j).valid = (s.buf j).valid := hbuf ▸ St.setBuf_field Buf.valid rfl
  refine hc.move hp hpc hpins ?_ hdev (hbuf ▸ St.setBuf_field Buf.blockno rfl)
    (fun j => (hvalid j).trans) (hbuf ▸ St.setBuf_field Buf.refcnt rfl) ?_
    (hc.lock_of_same hpc (hbuf ▸ St.setBuf_field Buf.lock rfl) (fun j => ?_)) ?_
  · simp only [St.links, hbuf]
    exact St.setBuf_links (s := s) (i := i) rfl rfl
  · intro j
    simp only [hk, Pt.refs, Pt.code, hbufs]
  · simp only [hk, Pt.locks, Pt.code, hbufs]
  · have hready : ProcOk s.buf (.ready k') :=
      ⟨by simpa only [Pt.locks, Pt.code, hbufs] using hok.nodup,
        by simpa only [Pt.refs, Pt.code, hbufs] using hok.bound,
        by simpa only [Pt.filled, Pt.code, hbufs] using hok.valid, trivial⟩
    exact hready.congr (fun j _ => hdev j) (fun j _ => (hvalid j).trans)

end

end Cache

end Xv6.Bio
