import Xv6.Pipe
import Xv6.Ring

/-! The pipe is a FIFO: for any number of readers and writers, what the readers got is a prefix of
what the writers stored, and the rest is in the ring. -/
namespace Xv6

/-- The call a thread in `pipewrite` works on, and how many of its bytes are stored. -/
def PipePt.writing : PipePt → Option (WriteCall × ℕ)
  | .writeAcquire w => some (w, 0)
  | .writeLoop w i _ | .writeKilled w i _ | .writeCopy w i _ | .writeSleep w i => some (w, i)
  | _ => none

def PipePt.reading : PipePt → Option ReadCall
  | .readAcquire c | .readLoop c | .readKilled c | .readCopy c _ => some c
  | _ => none

/-- Past the test `i < n` of the loop in `pipewrite`. -/
def PipePt.inLoop : PipePt → Option (WriteCall × ℕ)
  | .writeKilled w i _ | .writeCopy w i _ => some (w, i)
  | _ => none

/-- A step of the pipe's code that leaves the pipe and its history alone. -/
structure PipeIdle (s s' : PipeKern) (t : ℕ) (k : PipePt) (p : Pc PipeChan PipePt) : Prop where
  g : s'.g = s.g
  writing : p.point.writing = none ∨ p.point.writing = k.writing
  reading : p.point.reading = none ∨ p.point.reading = k.reading
  inLoop : ∀ w i, p.point.inLoop = some (w, i) → (i : ℤ) < w.n ∨ k.inLoop = some (w, i)

theorem PipeIdle.of_none {s s' : PipeKern} {t : ℕ} {k : PipePt} {p : Pc PipeChan PipePt} (hg : s'.g = s.g)
    (hw : p.point.writing = none ∨ p.point.writing = k.writing)
    (hr : p.point.reading = none ∨ p.point.reading = k.reading) (hl : p.point.inLoop = none) :
    PipeIdle s s' t k p := by
  refine ⟨hg, hw, hr, fun w i h => ?_⟩
  rw [hl] at h
  cases h

/-- What a step of `pipewrite`, `piperead` or `pipeclose` can do to the pipe and its history. -/
inductive PipeEffect (s s' : PipeKern) (t : ℕ) : PipePt → PipeAct → Pc PipeChan PipePt → Prop where
  | write (buf : ℕ → Option (BitVec 8)) (n : ℤ)
      (hg : s'.g = { s.g with calls := s.g.calls ++ [⟨s.g.calls.length, buf, n⟩] }) :
      PipeEffect s s' t .user (.pipewrite buf n) (.run (.writeAcquire ⟨s.g.calls.length, buf, n⟩))
  | read (dst : ℕ → Bool) (n : ℤ) (hg : s'.g = s.g) :
      PipeEffect s s' t .user (.piperead dst n) (.run (.readAcquire ⟨dst, n⟩))
  | push (w : WriteCall) (i : ℕ) (b : Bool) (ch : BitVec 8) (hf : s.g.pi.full = false)
      (hb : w.buf i = some ch)
      (hg : s'.g = { s.g with
        pi := s.g.pi.push ch
        accepted := s.g.accepted ++ [(w.id, ch)] }) :
      PipeEffect s s' t (.writeCopy w i b) .go (.run (.writeLoop w (i + 1) true))
  | pop (c : ReadCall) (i : ℕ) (he : s.g.pi.empty = false)
      (hg : s'.g = { s.g with
        pi := s.g.pi.pop
        delivered := s.g.delivered ++ [s.g.pi.front] }) :
      PipeEffect s s' t (.readCopy c i) .go (.run (.readCopy c (i + 1)))
  | drop (c : ReadCall) (i : ℕ) (hn : (i : ℤ) < c.n) (hd : c.dst i = false)
      (hg : s'.g = { s.g with pi := s.g.pi.pop }) :
      PipeEffect s s' t (.readCopy c i) .go (.wakeup .nwrite 0 (.readReturn i))
  | close (writable : Bool) (hg : s'.g = { s.g with pi := s.g.pi.close writable }) :
      PipeEffect s s' t (.closeSet writable) .go
        (.wakeup (if writable then .nread else .nwrite) 0 .closeReturn)
  | idle (k : PipePt) (a : PipeAct) (p : Pc PipeChan PipePt) (h : PipeIdle s s' t k p) :
      PipeEffect s s' t k a p

theorem pipeStep_effect {s s' : PipeKern} {t : ℕ} {k : PipePt} {a : PipeAct}
    (h : pipeStep s t k a = some s') :
    ∃ p, s'.pc = update s.pc t p ∧ PipeEffect s s' t k a p := by
  unfold pipeStep at h
  split at h
  all_goals try split_ifs at h
  all_goals try cases h
  -- the steps that leave the pipe alone: the call is over, goes on in `pipewrite`, or in `piperead`
  all_goals try exact ⟨_, rfl, .idle _ _ _ (.of_none rfl (.inl rfl) (.inl rfl) rfl)⟩
  all_goals try exact ⟨_, rfl, .idle _ _ _ (.of_none rfl (.inr rfl) (.inl rfl) rfl)⟩
  all_goals try exact ⟨_, rfl, .idle _ _ _ (.of_none rfl (.inl rfl) (.inr rfl) rfl)⟩
  · exact ⟨_, rfl, .write _ _ rfl⟩
  · exact ⟨_, rfl, .read _ _ rfl⟩
  · refine ⟨_, rfl, .idle _ _ _ ⟨rfl, .inr rfl, .inl rfl, fun w i hw => .inl ?_⟩⟩
    simp only [Pc.point, PipePt.inLoop, Option.some.injEq, Prod.mk.injEq] at hw
    obtain ⟨rfl, rfl⟩ := hw
    assumption
  · exact ⟨_, rfl, .idle _ _ _ ⟨rfl, .inr rfl, .inl rfl, fun _ _ hw => .inr hw⟩⟩
  · rename_i hfull
    split at h <;> cases h
    · exact ⟨_, rfl, .idle _ _ _ (.of_none rfl (.inl rfl) (.inl rfl) rfl)⟩
    · exact ⟨_, rfl, .push _ _ _ _ (by simpa using hfull) (by assumption) rfl⟩
  · rename_i hn _
    exact ⟨_, rfl, .pop _ _ hn.2 rfl⟩
  · rename_i hn hd
    exact ⟨_, rfl, .drop _ _ hn.1 (by simpa using hd) rfl⟩
  · rename_i hw
    subst hw
    exact ⟨_, rfl, .close true rfl⟩
  · obtain rfl := Bool.eq_false_of_not_eq_true ‹_›
    exact ⟨_, rfl, .close false rfl⟩

/-- The bytes the call `w` has stored are the first `m` bytes of its buffer, in order. -/
structure Sent (g : PipeG) (w : WriteCall) (m : ℕ) : Prop where
  le : (m : ℤ) ≤ max w.n 0
  bytes : (g.accepted.filter (fun x => x.1 = w.id)).map (fun x => some x.2) =
    (List.range m).map w.buf

/-- Every address the call may store to is valid. -/
def ReadCall.Valid (c : ReadCall) : Prop := ∀ i : ℕ, (i : ℤ) < c.n → c.dst i = true

/-- The arguments of a system call name valid user buffers. -/
def ValidBuffers : Event PipeAct → Prop
  | .client _ (.pipewrite buf n) => ∀ i : ℕ, (i : ℤ) < n → (buf i).isSome
  | .client _ (.piperead dst n) => (⟨dst, n⟩ : ReadCall).Valid
  | _ => True

/-- The bytes in the ring that have not been read. -/
def Pipe.unread (pi : Pipe) : List (BitVec 8) := ringContents PIPESIZE pi.data pi.nread pi.nwrite

/-- The invariant behind the FIFO property. -/
structure Fifo (s : PipeKern) : Prop where
  count : ringCount s.g.pi.nread s.g.pi.nwrite ≤ PIPESIZE
  stream : s.g.accepted.map Prod.snd = s.g.delivered ++ s.g.pi.unread
  ids : s.g.calls.map WriteCall.id = List.range s.g.calls.length
  fresh : ∀ x ∈ s.g.accepted, x.1 < s.g.calls.length
  sent : ∀ w ∈ s.g.calls, ∃ m, Sent s.g w m
  writing : ∀ t w i, (s.pc t).point.writing = some (w, i) → w ∈ s.g.calls ∧ Sent s.g w i
  inLoop : ∀ t w i, (s.pc t).point.inLoop = some (w, i) → (i : ℤ) < w.n
  alone : ∀ t u w i w' j, (s.pc t).point.writing = some (w, i) →
    (s.pc u).point.writing = some (w', j) → w.id = w'.id → t = u
  reading : ∀ t c, (s.pc t).point.reading = some c → c.Valid

theorem pipesize_dvd : PIPESIZE ∣ 2 ^ 32 := by decide

theorem push_unread {pi : Pipe} (ch : BitVec 8) (h : ringCount pi.nread pi.nwrite < PIPESIZE) :
    (pi.push ch).unread = pi.unread ++ [ch] :=
  ringContents_push pipesize_dvd (by decide) pi.data ch h

theorem pop_unread {pi : Pipe} (h : pi.empty = false) : pi.unread = pi.front :: pi.pop.unread :=
  ringContents_pop pipesize_dvd pi.data (by simpa [Pipe.empty] using h)

theorem count_lt_of_not_full {pi : Pipe} (hc : ringCount pi.nread pi.nwrite ≤ PIPESIZE)
    (hf : pi.full = false) : ringCount pi.nread pi.nwrite < PIPESIZE := by
  rcases Nat.lt_or_eq_of_le hc with h | h
  · exact h
  · have he : pi.nwrite = pi.nread + BitVec.ofNat 32 PIPESIZE := by
      apply BitVec.eq_of_toNat_eq
      rw [ring_write_eq pi.nread pi.nwrite, h, BitVec.toNat_add]
      rfl
    simp [Pipe.full, he] at hf

theorem id_lt {g : PipeG} (hids : g.calls.map WriteCall.id = List.range g.calls.length)
    {w : WriteCall} (hw : w ∈ g.calls) : w.id < g.calls.length := by
  have hm : w.id ∈ g.calls.map WriteCall.id := List.mem_map_of_mem hw
  rw [hids] at hm
  exact List.mem_range.mp hm

theorem eq_of_id_eq {g : PipeG} (hids : g.calls.map WriteCall.id = List.range g.calls.length)
    {w w' : WriteCall} (hw : w ∈ g.calls) (hw' : w' ∈ g.calls) (h : w.id = w'.id) : w = w' := by
  have hnd : (g.calls.map WriteCall.id).Nodup := by
    rw [hids]
    exact List.nodup_range
  exact List.inj_on_of_nodup_map hnd hw hw' h

theorem Sent.push_other {g g' : PipeG} {w : WriteCall} {m id : ℕ} {ch : BitVec 8} (hs : Sent g w m)
    (hg : g'.accepted = g.accepted ++ [(id, ch)]) (hne : id ≠ w.id) : Sent g' w m := by
  refine ⟨hs.le, ?_⟩
  rw [hg, List.filter_append, List.map_append, hs.bytes]
  simp [hne]

theorem Sent.push_self {g g' : PipeG} {w : WriteCall} {i : ℕ} {ch : BitVec 8} (hs : Sent g w i)
    (hg : g'.accepted = g.accepted ++ [(w.id, ch)]) (hn : (i : ℤ) < w.n)
    (hb : w.buf i = some ch) : Sent g' w (i + 1) := by
  refine ⟨by push_cast; omega, ?_⟩
  rw [hg, List.filter_append, List.map_append, hs.bytes, List.range_succ, List.map_append]
  simp [hb]

theorem forall_point_update {P : ℕ → PipePt → Prop} {s s' : PipeKern} {t : ℕ}
    {p : Pc PipeChan PipePt} (hpc : s'.pc = update s.pc t p)
    (h : ∀ u, u ≠ t → P u (s.pc u).point) (hp : P t p.point) (u : ℕ) : P u (s'.pc u).point := by
  rw [hpc]
  by_cases hu : u = t
  · subst hu
    rwa [update_self]
  · rw [update_of_ne hu]
    exact h u hu

section Preservation

variable {s s' : PipeKern} {t : ℕ} {k : PipePt} {p : Pc PipeChan PipePt}
  (hf : Fifo s) (hk : s.pc t = .run k) (hpc : s'.pc = update s.pc t p)
include hf hk hpc

/-- The writing threads still work on different calls when `t` gives up its call or
keeps it. -/
theorem alone_of_writing (hw : ∀ w i, p.point.writing = some (w, i) →
    ∃ i', k.writing = some (w, i')) (u v : ℕ) (w : WriteCall) (i : ℕ) (w' : WriteCall) (j : ℕ)
    (hu : (s'.pc u).point.writing = some (w, i)) (hv : (s'.pc v).point.writing = some (w', j))
    (hid : w.id = w'.id) : u = v := by
  have old (x : ℕ) (y : WriteCall) (m : ℕ) (h : (s'.pc x).point.writing = some (y, m)) :
      ∃ m', (s.pc x).point.writing = some (y, m') := by
    rw [hpc] at h
    by_cases hx : x = t
    · subst hx
      rw [update_self] at h
      rw [hk]
      exact hw y m h
    · rw [update_of_ne hx] at h
      exact ⟨m, h⟩
  obtain ⟨i', hi'⟩ := old u w i hu
  obtain ⟨j', hj'⟩ := old v w' j hv
  exact hf.alone u v w i' w' j' hi' hj' hid

theorem fifo_idle (h : PipeIdle s s' t k p) : Fifo s' := by
  obtain ⟨hg, hwr, hrd, hil⟩ := h
  have hkp : (s.pc t).point = k := by rw [hk]; rfl
  refine ⟨by rw [hg]; exact hf.count, by rw [hg]; exact hf.stream, by rw [hg]; exact hf.ids,
    by rw [hg]; exact hf.fresh, by rw [hg]; exact hf.sent, ?_, ?_, ?_, ?_⟩
  · rw [hg]
    refine forall_point_update (P := fun _ k => ∀ w i, k.writing = some (w, i) →
      w ∈ s.g.calls ∧ Sent s.g w i) hpc (fun u _ => hf.writing u) ?_
    intro w i hw
    rcases hwr with h | h <;> rw [h] at hw
    · cases hw
    · exact hf.writing t w i (by rwa [hkp])
  · refine forall_point_update (P := fun _ k => ∀ w i, k.inLoop = some (w, i) →
      (i : ℤ) < w.n) hpc (fun u _ => hf.inLoop u) ?_
    intro w i hw
    rcases hil w i hw with h | h
    · exact h
    · exact hf.inLoop t w i (by rwa [hkp])
  · refine alone_of_writing hf hk hpc ?_
    intro w i hw
    rcases hwr with h | h <;> rw [h] at hw
    · cases hw
    · exact ⟨i, hw⟩
  · refine forall_point_update (P := fun _ k => ∀ c, k.reading = some c → c.Valid) hpc
      (fun u _ => hf.reading u) ?_
    intro c hc
    rcases hrd with h | h <;> rw [h] at hc
    · cases hc
    · exact hf.reading t c (by rwa [hkp])

theorem fifo_write {buf : ℕ → Option (BitVec 8)} {n : ℤ}
    (hp : p = .run (.writeAcquire ⟨s.g.calls.length, buf, n⟩))
    (hg : s'.g = { s.g with calls := s.g.calls ++ [⟨s.g.calls.length, buf, n⟩] }) : Fifo s' := by
  have hnew : Sent s.g ⟨s.g.calls.length, buf, n⟩ 0 := by
    refine ⟨by simp, ?_⟩
    have hnone : s.g.accepted.filter (fun x => x.1 = s.g.calls.length) = [] := by
      apply List.filter_eq_nil_iff.mpr
      intro x hx
      have hlt := hf.fresh x hx
      simp only [decide_eq_true_eq]
      omega
    simp [hnone]
  have hold (w : WriteCall) (m : ℕ) (h : Sent s.g w m) : Sent s'.g w m := by
    refine ⟨h.le, ?_⟩
    rw [hg]
    exact h.bytes
  refine ⟨by rw [hg]; exact hf.count, by rw [hg]; exact hf.stream, ?_, ?_, ?_, ?_, ?_, ?_, ?_⟩
  · rw [hg]
    simp [hf.ids, List.range_succ]
  · rw [hg]
    intro x hx
    have hlt := hf.fresh x hx
    simp only [List.length_append, List.length_singleton]
    omega
  · rw [hg]
    intro w hw
    rcases List.mem_append.mp hw with h | h
    · obtain ⟨m, hm⟩ := hf.sent w h
      exact ⟨m, hg ▸ hold w m hm⟩
    · rw [List.mem_singleton] at h
      subst h
      exact ⟨0, hg ▸ hold _ 0 hnew⟩
  · refine forall_point_update (P := fun _ k => ∀ w i, k.writing = some (w, i) →
      w ∈ s'.g.calls ∧ Sent s'.g w i) hpc ?_ ?_
    · intro u _ w i hw
      obtain ⟨hmem, hs⟩ := hf.writing u w i hw
      exact ⟨by rw [hg]; exact List.mem_append_left _ hmem, hold w i hs⟩
    · intro w i hw
      rw [hp] at hw
      simp only [Pc.point, PipePt.writing, Option.some.injEq, Prod.mk.injEq] at hw
      obtain ⟨rfl, rfl⟩ := hw
      exact ⟨by rw [hg]; simp, hold _ 0 hnew⟩
  · exact forall_point_update (P := fun _ k => ∀ w i, k.inLoop = some (w, i) → (i : ℤ) < w.n) hpc
      (fun u _ => hf.inLoop u) (by simp [hp, Pc.point, PipePt.inLoop])
  · -- the new call's number is larger than every number in use
    have hbig (u : ℕ) (hu : u ≠ t) (w : WriteCall) (i : ℕ)
        (hw : (s'.pc u).point.writing = some (w, i)) : w.id < s.g.calls.length := by
      rw [hpc, update_of_ne hu] at hw
      exact id_lt hf.ids (hf.writing u w i hw).1
    have hself (w : WriteCall) (i : ℕ) (hw : (s'.pc t).point.writing = some (w, i)) :
        w.id = s.g.calls.length := by
      rw [hpc, update_self, hp] at hw
      simp only [Pc.point, PipePt.writing, Option.some.injEq, Prod.mk.injEq] at hw
      rw [← hw.1]
    intro u v w i w' j hu hv hid
    by_cases hut : u = t <;> by_cases hvt : v = t
    · rw [hut, hvt]
    · subst hut
      have h1 := hself w i hu
      have h2 := hbig v hvt w' j hv
      omega
    · subst hvt
      have h1 := hself w' j hv
      have h2 := hbig u hut w i hu
      omega
    · rw [hpc, update_of_ne hut] at hu
      rw [hpc, update_of_ne hvt] at hv
      exact hf.alone u v w i w' j hu hv hid
  · exact forall_point_update (P := fun _ k => ∀ c, k.reading = some c → c.Valid) hpc
      (fun u _ => hf.reading u) (by simp [hp, Pc.point, PipePt.reading])

theorem fifo_read {dst : ℕ → Bool} {n : ℤ} (hv : (⟨dst, n⟩ : ReadCall).Valid)
    (hp : p = .run (.readAcquire ⟨dst, n⟩)) (hg : s'.g = s.g) : Fifo s' := by
  refine ⟨by rw [hg]; exact hf.count, by rw [hg]; exact hf.stream, by rw [hg]; exact hf.ids,
    by rw [hg]; exact hf.fresh, by rw [hg]; exact hf.sent, ?_, ?_, ?_, ?_⟩
  · rw [hg]
    exact forall_point_update (P := fun _ k => ∀ w i, k.writing = some (w, i) →
      w ∈ s.g.calls ∧ Sent s.g w i) hpc (fun u _ => hf.writing u)
      (by simp [hp, Pc.point, PipePt.writing])
  · exact forall_point_update (P := fun _ k => ∀ w i, k.inLoop = some (w, i) → (i : ℤ) < w.n) hpc
      (fun u _ => hf.inLoop u) (by simp [hp, Pc.point, PipePt.inLoop])
  · exact alone_of_writing hf hk hpc (by simp [hp, Pc.point, PipePt.writing])
  · refine forall_point_update (P := fun _ k => ∀ c, k.reading = some c → c.Valid) hpc
      (fun u _ => hf.reading u) ?_
    intro c hc
    simp only [hp, Pc.point, PipePt.reading, Option.some.injEq] at hc
    rwa [← hc]

theorem fifo_push {w : WriteCall} {i : ℕ} {b : Bool} {ch : BitVec 8}
    (hkw : k = .writeCopy w i b) (hp : p = .run (.writeLoop w (i + 1) true))
    (hfull : s.g.pi.full = false) (hb : w.buf i = some ch)
    (hg : s'.g = { s.g with
      pi := s.g.pi.push ch
      accepted := s.g.accepted ++ [(w.id, ch)] }) : Fifo s' := by
  have hkp : (s.pc t).point = .writeCopy w i b := by rw [hk, hkw]; rfl
  have hlt := count_lt_of_not_full hf.count hfull
  obtain ⟨hmem, hsent⟩ := hf.writing t w i (by rw [hkp]; rfl)
  have hn := hf.inLoop t w i (by rw [hkp]; rfl)
  have hacc : s'.g.accepted = s.g.accepted ++ [(w.id, ch)] := by rw [hg]
  have hcalls : s'.g.calls = s.g.calls := by rw [hg]
  have hself : Sent s'.g w (i + 1) := hsent.push_self hacc hn hb
  refine ⟨?_, ?_, by rw [hcalls]; exact hf.ids, ?_, ?_, ?_, ?_, ?_, ?_⟩
  · rw [hg]
    change ringCount s.g.pi.nread (s.g.pi.nwrite + 1) ≤ PIPESIZE
    rw [ringCount_push (lt_of_le_of_lt hlt (by decide))]
    exact hlt
  · rw [hg]
    simp only [List.map_append, List.map_singleton, push_unread ch hlt, hf.stream,
      List.append_assoc]
  · rw [hcalls, hacc]
    intro x hx
    rcases List.mem_append.mp hx with h | h
    · exact hf.fresh x h
    · rw [List.mem_singleton] at h
      subst h
      exact id_lt hf.ids hmem
  · rw [hcalls]
    intro w' hw'
    by_cases hid : w.id = w'.id
    · rw [← eq_of_id_eq hf.ids hmem hw' hid]
      exact ⟨i + 1, hself⟩
    · obtain ⟨m, hm⟩ := hf.sent w' hw'
      exact ⟨m, hm.push_other hacc hid⟩
  · rw [hcalls]
    refine forall_point_update (P := fun _ k => ∀ w i, k.writing = some (w, i) →
      w ∈ s.g.calls ∧ Sent s'.g w i) hpc ?_ ?_
    · intro u hu w' j hw'
      obtain ⟨hmem', hs'⟩ := hf.writing u w' j hw'
      refine ⟨hmem', hs'.push_other hacc ?_⟩
      intro hid
      exact hu (hf.alone u t w' j w i hw' (by rw [hkp]; rfl) hid.symm)
    · intro w' j hw'
      simp only [hp, Pc.point, PipePt.writing, Option.some.injEq, Prod.mk.injEq] at hw'
      obtain ⟨rfl, rfl⟩ := hw'
      exact ⟨hmem, hself⟩
  · exact forall_point_update (P := fun _ k => ∀ w i, k.inLoop = some (w, i) → (i : ℤ) < w.n) hpc
      (fun u _ => hf.inLoop u) (by simp [hp, Pc.point, PipePt.inLoop])
  · refine alone_of_writing hf hk hpc ?_
    intro w' j hw'
    simp only [hp, Pc.point, PipePt.writing, Option.some.injEq, Prod.mk.injEq] at hw'
    exact ⟨i, by rw [hkw, ← hw'.1]; rfl⟩
  · exact forall_point_update (P := fun _ k => ∀ c, k.reading = some c → c.Valid) hpc
      (fun u _ => hf.reading u) (by simp [hp, Pc.point, PipePt.reading])

theorem fifo_pop {c : ReadCall} {i : ℕ} (hkc : k = .readCopy c i)
    (hp : p = .run (.readCopy c (i + 1))) (he : s.g.pi.empty = false)
    (hg : s'.g = { s.g with
      pi := s.g.pi.pop
      delivered := s.g.delivered ++ [s.g.pi.front] }) : Fifo s' := by
  have hkp : (s.pc t).point = .readCopy c i := by rw [hk, hkc]; rfl
  have hcalls : s'.g.calls = s.g.calls := by rw [hg]
  have hacc : s'.g.accepted = s.g.accepted := by rw [hg]
  have hsame (w : WriteCall) (m : ℕ) (h : Sent s.g w m) : Sent s'.g w m :=
    ⟨h.le, by rw [hacc]; exact h.bytes⟩
  refine ⟨?_, ?_, by rw [hcalls]; exact hf.ids, by rw [hcalls, hacc]; exact hf.fresh, ?_, ?_, ?_,
    ?_, ?_⟩
  · rw [hg]
    have hcount := ringCount_pop (show s.g.pi.nread ≠ s.g.pi.nwrite by simpa [Pipe.empty] using he)
    have hle := hf.count
    change ringCount (s.g.pi.nread + 1) s.g.pi.nwrite ≤ PIPESIZE
    omega
  · rw [hg]
    simp only [hf.stream, pop_unread he, List.append_assoc, List.singleton_append]
  · rw [hcalls]
    intro w hw
    obtain ⟨m, hm⟩ := hf.sent w hw
    exact ⟨m, hsame w m hm⟩
  · rw [hcalls]
    refine forall_point_update (P := fun _ k => ∀ w i, k.writing = some (w, i) →
      w ∈ s.g.calls ∧ Sent s'.g w i) hpc ?_ (by simp [hp, Pc.point, PipePt.writing])
    intro u _ w j hw
    obtain ⟨hmem, hs⟩ := hf.writing u w j hw
    exact ⟨hmem, hsame w j hs⟩
  · exact forall_point_update (P := fun _ k => ∀ w i, k.inLoop = some (w, i) → (i : ℤ) < w.n) hpc
      (fun u _ => hf.inLoop u) (by simp [hp, Pc.point, PipePt.inLoop])
  · exact alone_of_writing hf hk hpc (by simp [hp, Pc.point, PipePt.writing])
  · refine forall_point_update (P := fun _ k => ∀ c, k.reading = some c → c.Valid) hpc
      (fun u _ => hf.reading u) ?_
    intro c' hc'
    exact hf.reading t c' (by rw [hkp]; simpa [hp, Pc.point, PipePt.reading] using hc')

theorem fifo_close {writable : Bool} (hpp : p.point = .closeReturn)
    (hg : s'.g = { s.g with pi := s.g.pi.close writable }) : Fifo s' := by
  have hpi : s'.g.pi.nread = s.g.pi.nread ∧ s'.g.pi.nwrite = s.g.pi.nwrite ∧
      s'.g.pi.data = s.g.pi.data := by
    rw [hg]
    cases writable <;> simp [Pipe.close]
  obtain ⟨hr, hw, hd⟩ := hpi
  have hcalls : s'.g.calls = s.g.calls := by rw [hg]
  have hacc : s'.g.accepted = s.g.accepted := by rw [hg]
  have hdel : s'.g.delivered = s.g.delivered := by rw [hg]
  have hsame (w : WriteCall) (m : ℕ) (h : Sent s.g w m) : Sent s'.g w m :=
    ⟨h.le, by rw [hacc]; exact h.bytes⟩
  refine ⟨by rw [hr, hw]; exact hf.count, ?_, by rw [hcalls]; exact hf.ids,
    by rw [hcalls, hacc]; exact hf.fresh, ?_, ?_, ?_, ?_, ?_⟩
  · rw [hacc, hdel, hf.stream]
    simp only [Pipe.unread, hr, hw, hd]
  · rw [hcalls]
    intro w hw
    obtain ⟨m, hm⟩ := hf.sent w hw
    exact ⟨m, hsame w m hm⟩
  · rw [hcalls]
    refine forall_point_update (P := fun _ k => ∀ w i, k.writing = some (w, i) →
      w ∈ s.g.calls ∧ Sent s'.g w i) hpc ?_ (by simp [hpp, PipePt.writing])
    intro u _ w j hw
    obtain ⟨hmem, hs⟩ := hf.writing u w j hw
    exact ⟨hmem, hsame w j hs⟩
  · exact forall_point_update (P := fun _ k => ∀ w i, k.inLoop = some (w, i) → (i : ℤ) < w.n) hpc
      (fun u _ => hf.inLoop u) (by simp [hpp, PipePt.inLoop])
  · exact alone_of_writing hf hk hpc (by simp [hpp, PipePt.writing])
  · exact forall_point_update (P := fun _ k => ∀ c, k.reading = some c → c.Valid) hpc
      (fun u _ => hf.reading u) (by simp [hpp, PipePt.reading])

end Preservation

theorem fifo_step {N : ℕ} (s : PipeKern) (e : Event PipeAct) (s' : PipeKern) (hv : ValidBuffers e)
    (h : kernStep N pipeClient s e = some s') (hf : Fifo s) : Fifo s' := by
  rcases kernStep_cases h with ⟨t, k, a, rfl, _, hk, hstep⟩ | ⟨_, hg, hnext⟩
  · obtain ⟨p, hpc, heff⟩ := pipeStep_effect hstep
    have hkp : (s.pc t).point = k := by rw [hk]; rfl
    cases heff with
    | write buf n hg => exact fifo_write hf hk hpc rfl hg
    | read dst n hg => exact fifo_read hf hk hpc hv rfl hg
    | push w i b ch hfull hb hg => exact fifo_push hf hk hpc rfl rfl hfull hb hg
    | pop c i he hg => exact fifo_pop hf hk hpc rfl rfl he hg
    | drop c i hn hd hg =>
      -- `copyout` to a valid buffer does not fail
      have hc := hf.reading t c (by rw [hkp]; rfl) i hn
      rw [hd] at hc
      cases hc
    | close writable hg => exact fifo_close hf hk hpc rfl hg
    | idle _ _ _ hidle => exact fifo_idle hf hk hpc hidle
  · have hpt (u : ℕ) : (s'.pc u).point = (s.pc u).point := by
      rcases hnext u with hu | hu
      · rw [hu]
      · exact hu.point_eq
    refine ⟨by rw [hg]; exact hf.count, by rw [hg]; exact hf.stream, by rw [hg]; exact hf.ids,
      by rw [hg]; exact hf.fresh, by rw [hg]; exact hf.sent, ?_, ?_, ?_, ?_⟩
    · intro t w i hw
      rw [hpt] at hw
      rw [hg]
      exact hf.writing t w i hw
    · intro t w i hw
      rw [hpt] at hw
      exact hf.inLoop t w i hw
    · intro t u w i w' j ht hu
      rw [hpt] at ht hu
      exact hf.alone t u w i w' j ht hu
    · intro t c hc
      rw [hpt] at hc
      exact hf.reading t c hc

theorem fifo_init (data : ℕ → BitVec 8) : Fifo (pipeInit data) := by
  constructor <;>
    simp [pipeInit, Pc.point, PipePt.writing, PipePt.reading, PipePt.inLoop, Pipe.unread,
      ringContents, ringCount, PIPESIZE]

/-- In every state that any interleaving of readers, writers and closers reaches, the
counters are at most `PIPESIZE` apart, what `piperead` delivered is a prefix of what
`pipewrite` accepted, the rest is what lies in the ring from `data[nread % PIPESIZE]` on,
and every call's bytes stand in the stream in the order of its buffer. -/
theorem pipe_is_fifo {N : ℕ} {data : ℕ → BitVec 8} {es : List (Event PipeAct)} {s : PipeKern}
    (hv : ∀ e ∈ es, ValidBuffers e)
    (h : exec (kernStep N pipeClient) (pipeInit data) es = some s) :
    (s.g.pi.nwrite - s.g.pi.nread).toNat ≤ PIPESIZE ∧
    s.g.delivered <+: s.g.accepted.map Prod.snd ∧
    (s.g.accepted.map Prod.snd).drop s.g.delivered.length =
      (List.range (s.g.pi.nwrite - s.g.pi.nread).toNat).map
        (fun k => s.g.pi.data ((s.g.pi.nread.toNat + k) % PIPESIZE)) ∧
    (s.g.calls.map WriteCall.id).Nodup ∧
    (∀ x ∈ s.g.accepted, ∃ w ∈ s.g.calls, w.id = x.1) ∧
    ∀ w ∈ s.g.calls, ∃ m : ℕ, (m : ℤ) ≤ max w.n 0 ∧
      (s.g.accepted.filter (fun x => x.1 = w.id)).map (fun x => some x.2) =
        (List.range m).map w.buf := by
  have hf : Fifo s := by
    refine exec_invariant_along (C := fun _ e => ValidBuffers e) fifo_step ?_ h (fifo_init data)
    exact along_of_forall hv
  refine ⟨hf.count, ?_, ?_, ?_, ?_, ?_⟩
  · rw [hf.stream]
    exact List.prefix_append _ _
  · rw [hf.stream, List.drop_left]
    rfl
  · rw [hf.ids]
    exact List.nodup_range
  · intro x hx
    have hm : x.1 ∈ s.g.calls.map WriteCall.id := by
      rw [hf.ids]
      exact List.mem_range.mpr (hf.fresh x hx)
    obtain ⟨w, hw, hid⟩ := List.mem_map.mp hm
    exact ⟨w, hw, hid⟩
  · intro w hw
    obtain ⟨m, hm⟩ := hf.sent w hw
    exact ⟨m, hm.le, hm.bytes⟩

/-- Process 1 writes two bytes and process 0 reads one of them. -/
def writeThenRead : List (Event PipeAct) :=
  [.client 1 (.pipewrite (fun i => some (BitVec.ofNat 8 (i + 7))) 2), .client 1 .go, .client 1 .go,
    .client 1 .go, .client 1 .go, .client 1 .go, .client 1 .go, .client 1 .go, .client 1 .go,
    .advance 1, .advance 1, .advance 1, .client 1 .go,
    .client 0 (.piperead (fun _ => true) 1), .client 0 .go, .client 0 .go, .client 0 .go]

theorem pipe_is_fifo_one_read : ∃ s, exec (kernStep 2 pipeClient) (pipeInit (fun _ => 0))
    writeThenRead = some s ∧ s.g.delivered = [7] ∧ s.g.accepted = [(0, 7), (0, 8)] ∧
    s.g.delivered <+: s.g.accepted.map Prod.snd := by
  obtain ⟨s, hs, hd, ha⟩ : ∃ s, exec (kernStep 2 pipeClient) (pipeInit (fun _ => 0))
      writeThenRead = some s ∧ s.g.delivered = [7] ∧ s.g.accepted = [(0, 7), (0, 8)] :=
    ⟨_, rfl, by decide, by decide⟩
  refine ⟨s, hs, hd, ha, (pipe_is_fifo ?_ hs).2.1⟩
  simp [writeThenRead, ValidBuffers, ReadCall.Valid]

section Removed

variable {N t : ℕ} {c : ReadCall} {s : PipeKern}

theorem kernStep_readCopy (ht : t < N) {i : ℕ} (hk : s.pc t = .run (.readCopy c i)) :
    kernStep N pipeClient s (.client t .go) = pipeStep s t (.readCopy c i) .go := by
  simp only [kernStep, ht, if_true, hk]
  rfl

/-- The copy loop of `piperead` from byte `i` on, with the bytes `l` in the pipe. -/
theorem readCopy_run (ht : t < N) (l : List (BitVec 8)) {i : ℕ} (hk : s.pc t = .run (.readCopy c i))
    (hl : s.g.pi.unread = l) :
    ∃ j s', exec (kernStep N pipeClient) s (List.replicate (j + 1) (.client t .go)) = some s' ∧
      s'.pc t = .wakeup .nwrite 0 (.readReturn (i + j : ℕ)) ∧ j ≤ l.length ∧
      s'.g.delivered = s.g.delivered ++ l.take j ∧
      (s'.g.pi = { s.g.pi with nread := s.g.pi.nread + BitVec.ofNat 32 j } ↔
        ∀ x < l.length, ((i + x : ℕ) : ℤ) < c.n → c.dst (i + x) = true) := by
  induction l generalizing s i with
  | nil =>
    have he : s.g.pi.empty = true := by
      by_contra he
      rw [pop_unread (Bool.eq_false_of_not_eq_true he)] at hl
      cases hl
    refine ⟨0, s.setPc t (.wakeup .nwrite 0 (.readReturn i)), ?_, update_self _ _ _, le_refl _,
      (List.append_nil _).symm, iff_of_true ?_ (by simp)⟩
    · rw [List.replicate_one, exec, kernStep_readCopy ht hk, pipeStep, if_neg (by simp [he])]
      rfl
    · simp
  | cons ch l ih =>
    have he : s.g.pi.empty = false := by
      by_contra he
      have hempty : s.g.pi.nread = s.g.pi.nwrite := by simpa [Pipe.empty] using he
      rw [Pipe.unread, ringContents, ringCount_eq_zero.mpr hempty] at hl
      cases hl
    obtain ⟨rfl, hrest⟩ := List.cons.inj ((pop_unread he).symm.trans hl)
    by_cases hn : (i : ℤ) < c.n
    · cases hd : c.dst i with
      | true =>
        -- the byte is stored and removed, and the loop goes on
        obtain ⟨j, s', hrun, hpc, hj, hdel, hiff⟩ := ih (i := i + 1)
          (s := PipeKern.goto (s.setG { s.g with
            pi := s.g.pi.pop
            delivered := s.g.delivered ++ [s.g.pi.front] }) t (.readCopy c (i + 1)))
          (update_self _ _ _) hrest
        refine ⟨j + 1, s', ?_, by rw [hpc, Nat.add_right_comm, Nat.add_assoc], Nat.succ_le_succ hj, ?_, ?_⟩
        · rw [List.replicate_succ, exec, kernStep_readCopy ht hk, pipeStep, if_pos ⟨hn, he⟩, if_pos hd]
          exact hrun
        · rw [hdel, List.take_succ_cons]
          exact List.append_assoc _ _ _
        · have hcount : s.g.pi.pop.nread + BitVec.ofNat 32 j = s.g.pi.nread + BitVec.ofNat 32 (j + 1) := by
            rw [Pipe.pop, BitVec.add_assoc, Nat.add_comm, BitVec.ofNat_add]
            rfl
          rw [← hcount]
          refine hiff.trans ⟨fun h x hx hxn => ?_, fun h x hx hxn => ?_⟩
          · cases x with
            | zero => exact hd
            | succ x =>
              rw [Nat.add_comm x, ← Nat.add_assoc] at hxn ⊢
              exact h x (Nat.lt_of_succ_lt_succ hx) hxn
          · rw [Nat.add_assoc, Nat.add_comm 1] at hxn ⊢
            exact h (x + 1) (Nat.succ_lt_succ hx) hxn
      | false =>
        -- the byte is removed although it cannot be stored
        refine ⟨0, Kern.setPc (s.setPi s.g.pi.pop) t (.wakeup .nwrite 0 (.readReturn i)), ?_, update_self _ _ _,
          zero_le, (List.append_nil _).symm, iff_of_false ?_ ?_⟩
        · rw [List.replicate_one, exec, kernStep_readCopy ht hk, pipeStep, if_pos ⟨hn, he⟩, if_neg (by simp [hd])]
          rfl
        · intro h
          have hread : s.g.pi.nread + 1 = s.g.pi.nread + 0 := congrArg Pipe.nread h
          exact absurd ((BitVec.add_right_inj _).mp hread) (by decide)
        · intro h
          have h0 := h 0 (Nat.succ_pos _) hn
          rw [add_zero, hd] at h0
          cases h0
    · refine ⟨0, s.setPc t (.wakeup .nwrite 0 (.readReturn i)), ?_, update_self _ _ _, zero_le,
        (List.append_nil _).symm, iff_of_true ?_ ?_⟩
      · rw [List.replicate_one, exec, kernStep_readCopy ht hk, pipeStep, if_neg (fun h => hn h.1)]
        rfl
      · simp
      · intro x _ hx
        omega

/-- `piperead` removes the bytes that it delivers, and no others, iff it can store all that it takes:
a byte is taken out of the pipe before `copyout` is asked to store it. -/
theorem piperead_removes_iff (ht : t < N) (hk : s.pc t = .run (.readLoop c))
    (hready : ¬ (s.g.pi.empty = true ∧ s.g.pi.writeopen = true)) :
    ∃ i s', exec (kernStep N pipeClient) s (List.replicate (i + 2) (.client t .go)) = some s' ∧
      s'.pc t = .wakeup .nwrite 0 (.readReturn i) ∧ i ≤ s.g.pi.unread.length ∧
      s'.g.delivered = s.g.delivered ++ s.g.pi.unread.take i ∧
      (s'.g.pi = { s.g.pi with nread := s.g.pi.nread + BitVec.ofNat 32 i } ↔
        ∀ j < s.g.pi.unread.length, (j : ℤ) < c.n → c.dst j = true) := by
  obtain ⟨i, s', hrun, hpc, hi, hdel, hiff⟩ := readCopy_run (s := s.goto t (.readCopy c 0)) (i := 0) ht
    s.g.pi.unread (update_self _ _ _) rfl
  simp only [zero_add] at hpc hiff
  refine ⟨i, s', ?_, hpc, hi, hdel, hiff⟩
  rw [List.replicate_succ, exec, ← hrun]
  simp only [kernStep, ht, if_true, hk, pipeClient, pipeStep, if_neg hready]
  rfl

/-- Process 0 writes a byte and reads it to an address that is not mapped. -/
def readToNowhere : List (Event PipeAct) :=
  [.client 0 (.pipewrite (fun _ => some 7) 1)] ++ List.replicate 5 (.client 0 .go) ++
    [.advance 0, .advance 0, .client 0 .go, .client 0 (.piperead (fun _ => false) 1)] ++
    List.replicate 3 (.client 0 .go)

/-- Nothing has been delivered, and the byte is gone. -/
theorem undelivered_byte_lost : ∃ s, exec (kernStep 1 pipeClient) (pipeInit (fun _ => 0)) readToNowhere = some s ∧
    s.pc 0 = .wakeup .nwrite 0 (.readReturn 0) ∧ s.g.accepted = [(0, 7)] ∧ s.g.delivered = [] ∧
    s.g.pi.nread = 1 ∧ s.g.pi.unread = [] := by
  refine ⟨_, rfl, rfl, rfl, rfl, rfl, rfl⟩

theorem piperead_removes_iff_one : ∃ i s', exec (kernStep 1 pipeClient)
    ((pipeInit (fun _ => 0)).goto 0 (.readLoop ⟨fun _ => true, 1⟩) |>.setPi ⟨fun _ => 7, 0, 1, true, true⟩)
      (List.replicate (i + 2) (.client 0 .go)) = some s' ∧ s'.g.delivered = [7].take i ∧
    s'.g.pi = ⟨fun _ => 7, 0 + BitVec.ofNat 32 i, 1, true, true⟩ := by
  obtain ⟨i, s', hrun, -, -, hdel, hiff⟩ := piperead_removes_iff (N := 1) (t := 0) (c := ⟨fun _ => true, 1⟩)
    (s := (pipeInit (fun _ => 0)).goto 0 (.readLoop ⟨fun _ => true, 1⟩) |>.setPi ⟨fun _ => 7, 0, 1, true, true⟩)
    (by decide) rfl (by decide)
  exact ⟨i, s', hrun, hdel, hiff.mpr fun _ _ _ => rfl⟩

end Removed
end Xv6
