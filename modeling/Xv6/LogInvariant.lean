import Xv6.LogRecover

/-! The invariant of the running log, in four parts: who is inside an operation or a commit, which
operation made which write, what the buffers hold, and how far the commit has got on disk. -/
namespace Xv6

/-- Counted in `log.outstanding`. -/
def LogPt.active : LogPt → Bool
  | .inOp _ _ | .endLock | .endBody | .panic .tooBigTransaction | .panic .outsideOfTrans => true
  | _ => false

/-- Between `log.committing = 1` and `log.committing = 0`. -/
def LogPt.committer : LogPt → Bool
  | .endRelease true | .commit | .wlTo _ | .wlFrom _ | .wlCopy _ | .wlRelseFrom _ | .wlRelseTo _
  | .headRead _ | .headWrite _ | .headRelse _ | .itLog _ | .itDst _ | .itCopy _ | .itRelseLog _
  | .itRelseDst _ | .clear | .doneLock | .doneBody => true
  | _ => false

/-- The operation that a process is in. -/
def LogPt.op : LogPt → Option ℕ
  | .inOp op _ => some op
  | _ => none

/-- The blocks that a process has modified and not logged since. -/
def LogPt.dirty : LogPt → List ℕ
  | .inOp _ dirty => dirty
  | _ => []

/-- Whether a buffer that the process holds may differ from what was last logged. -/
def LogPt.mayDiffer (k : LogPt) (b : ℕ) : Prop := b ∈ k.dirty ∨ ∃ why, k = .panic why

section Control

/-- Who is inside an operation, and who commits. -/
structure ControlInv (N : ℕ) (g : LogG) (pt : ℕ → LogPt) : Prop where
  outside : ∀ t, N ≤ t → pt t = .user
  outstanding : g.outstanding = ∑ t ∈ Finset.range N, if (pt t).active then 1 else 0
  busy : g.committing = true → g.outstanding = 0 ∧ g.current = []
  committer : ∀ t, (pt t).committer = true → g.committing = true
  one : ∀ t u, (pt t).committer = true → (pt u).committer = true → t = u

variable {N t : ℕ} {g g' : LogG} {pt : ℕ → LogPt} {k' : LogPt}

theorem active_sum_update (pt : ℕ → LogPt) (k' : LogPt) (ht : t < N) :
    (∑ u ∈ Finset.range N, if (update pt t k' u).active then (1 : ℤ) else 0) +
      (if (pt t).active then 1 else 0) =
    (∑ u ∈ Finset.range N, if (pt u).active then (1 : ℤ) else 0) + (if k'.active then 1 else 0) := by
  have hmem : t ∈ Finset.range N := Finset.mem_range.mpr ht
  rw [← Finset.add_sum_erase _ _ hmem, ← Finset.add_sum_erase (Finset.range N)
    (fun u => if (pt u).active then (1 : ℤ) else 0) hmem]
  have hrest : ∑ u ∈ (Finset.range N).erase t,
      (if (update pt t k' u).active then (1 : ℤ) else 0) =
      ∑ u ∈ (Finset.range N).erase t, if (pt u).active then (1 : ℤ) else 0 := by
    refine Finset.sum_congr rfl (fun u hu => ?_)
    rw [update_of_ne (Finset.ne_of_mem_erase hu)]
  rw [hrest, update_self]
  ring

theorem not_active_of_sum (hi : (∑ u ∈ Finset.range N, if (pt u).active then (1 : ℤ) else 0) = 0)
    (hout : ∀ t, N ≤ t → pt t = .user) (u : ℕ) : (pt u).active = false := by
  by_cases hu : u < N
  · have hz := (Finset.sum_eq_zero_iff_of_nonneg (fun i _ => by split <;> simp)).mp hi u
      (Finset.mem_range.mpr hu)
    simpa using hz
  · rw [hout u (by omega)]
    rfl

theorem ControlInv.no_active (hi : ControlInv N g pt) (hb : g.committing = true) (u : ℕ) :
    (pt u).active = false :=
  not_active_of_sum (hi.outstanding ▸ (hi.busy hb).1) hi.outside u

theorem ControlInv.move (hi : ControlInv N g pt) (ht : t < N) (ha : k'.active = (pt t).active)
    (hc : k'.committer = (pt t).committer) (ho : g'.outstanding = g.outstanding)
    (hb : g'.committing = g.committing) (hcur : g.committing = true → g'.current = g.current) :
    ControlInv N g' (update pt t k') := by
  refine ⟨?_, ?_, ?_, ?_, ?_⟩
  · intro u hu
    rw [update_of_ne (by omega)]
    exact hi.outside u hu
  · have hs := active_sum_update pt k' ht
    rw [ha] at hs
    rw [ho, hi.outstanding]
    omega
  · intro h
    rw [hb] at h
    rw [ho, hcur h]
    exact hi.busy h
  · grind [hi.committer]
  · grind [hi.one]

theorem ControlInv.begin (hi : ControlInv N g pt) (ht : t < N) (ha : (pt t).active = false)
    (ha' : k'.active = true) (hc' : k'.committer = false)
    (ho : g'.outstanding = g.outstanding + 1) (hb : g.committing = false)
    (hb' : g'.committing = false) : ControlInv N g' (update pt t k') := by
  refine ⟨?_, ?_, ?_, ?_, ?_⟩
  · intro u hu
    rw [update_of_ne (by omega)]
    exact hi.outside u hu
  · have hs := active_sum_update pt k' ht
    simp only [ha, ha', if_true, Bool.false_eq_true, if_false] at hs
    rw [ho, hi.outstanding]
    omega
  · intro h
    rw [hb'] at h
    cases h
  · grind [hi.committer]
  · grind [hi.one]

theorem ControlInv.finish (hi : ControlInv N g pt) (ht : t < N) (ha : (pt t).active = true)
    (ha' : k'.active = false)
    (ho : g'.outstanding = g.outstanding - 1) (hb : g.committing = false)
    (hcase : (k'.committer = false ∧ g'.committing = false) ∨
      (k'.committer = true ∧ g'.committing = true ∧ g'.outstanding = 0 ∧ g'.current = [])) :
    ControlInv N g' (update pt t k') := by
  have hno (u : ℕ) : (pt u).committer = false := by
    cases h : (pt u).committer with
    | false => rfl
    | true => rw [hi.committer u h] at hb; cases hb
  refine ⟨?_, ?_, ?_, ?_, ?_⟩
  · intro u hu
    rw [update_of_ne (by omega)]
    exact hi.outside u hu
  · have hs := active_sum_update pt k' ht
    simp only [ha, ha', if_true, Bool.false_eq_true, if_false] at hs
    rw [ho, hi.outstanding]
    omega
  · intro h
    rcases hcase with ⟨_, h'⟩ | ⟨_, _, h1, h2⟩
    · rw [h'] at h
      cases h
    · exact ⟨h1, h2⟩
  · grind
  · grind

theorem ControlInv.done (hi : ControlInv N g pt) (ht : t < N) (ha : (pt t).active = false)
    (ha' : k'.active = false) (hc : (pt t).committer = true) (hc' : k'.committer = false)
    (ho : g'.outstanding = g.outstanding) (hb' : g'.committing = false) :
    ControlInv N g' (update pt t k') := by
  refine ⟨?_, ?_, ?_, ?_, ?_⟩
  · intro u hu
    rw [update_of_ne (by omega)]
    exact hi.outside u hu
  · have hs := active_sum_update pt k' ht
    rw [ha, ha'] at hs
    rw [ho, hi.outstanding]
    omega
  · intro h
    rw [hb'] at h
    cases h
  · grind [hi.one]
  · grind [hi.one]

end Control

section Ops

/-- Which operation made which write: the commits have no operation in common, and no
operation of a commit is still going on. -/
structure OpsInv (g : LogG) (pt : ℕ → LogPt) : Prop where
  fresh : ∀ w ∈ g.commits.flatten ++ g.current, w.op < g.ops
  active_fresh : ∀ t op, (pt t).op = some op → op < g.ops
  active : ∀ t op, (pt t).op = some op → ∀ w ∈ g.commits.flatten, w.op ≠ op
  current : ∀ w ∈ g.current, ∀ v ∈ g.commits.flatten, w.op ≠ v.op
  separate : g.commits.Pairwise (fun c d => ∀ w ∈ c, ∀ v ∈ d, w.op ≠ v.op)

variable {t : ℕ} {g g' : LogG} {pt : ℕ → LogPt} {k' : LogPt}

theorem OpsInv.move (hi : OpsInv g pt) (hk : k'.op = none ∨ k'.op = (pt t).op)
    (ho : g'.ops = g.ops) (hc : g'.commits = g.commits) (hu : g'.current = g.current) :
    OpsInv g' (update pt t k') := by
  refine ⟨by rw [ho, hc, hu]; exact hi.fresh, ?_, ?_, by rw [hc, hu]; exact hi.current,
    by rw [hc]; exact hi.separate⟩
  · intro u op hop
    have := hi.active_fresh u op
    grind
  · grind [hi.active]

theorem OpsInv.begin (hi : OpsInv g pt) (hk : k'.op = some g.ops) (ho : g'.ops = g.ops + 1)
    (hc : g'.commits = g.commits) (hu : g'.current = g.current) :
    OpsInv g' (update pt t k') := by
  refine ⟨?_, ?_, ?_, by rw [hc, hu]; exact hi.current, by rw [hc]; exact hi.separate⟩
  · intro w hw
    rw [hc, hu] at hw
    rw [ho]
    exact Nat.lt_succ_of_lt (hi.fresh w hw)
  · intro u op hop
    have := hi.active_fresh u op
    grind
  · intro u op hop w hw
    rw [hc] at hw
    have := hi.active u op
    have := hi.fresh w (List.mem_append_left _ hw)
    grind

theorem OpsInv.write {w : LogWrite} (hi : OpsInv g pt) (hk : k'.op = (pt t).op)
    (hop : (pt t).op = some w.op) (ho : g'.ops = g.ops) (hc : g'.commits = g.commits)
    (hu : g'.current = g.current ++ [w]) : OpsInv g' (update pt t k') := by
  refine ⟨?_, ?_, ?_, ?_, by rw [hc]; exact hi.separate⟩
  · intro v hv
    rw [hc, hu, ← List.append_assoc, List.mem_append, List.mem_singleton] at hv
    rw [ho]
    rcases hv with hv | rfl
    · exact hi.fresh v hv
    · exact hi.active_fresh t v.op hop
  · intro u op hop
    have := hi.active_fresh u op
    grind
  · grind [hi.active]
  · intro v hv
    rw [hu, List.mem_append, List.mem_singleton] at hv
    rw [hc]
    rcases hv with hv | rfl
    · exact hi.current v hv
    · exact fun x hx => Ne.symm (hi.active t v.op hop x hx)

theorem OpsInv.commit (hi : OpsInv g pt) (hk : k'.op = none)
    (hno : ∀ u, u ≠ t → (pt u).op = none) (ho : g'.ops = g.ops)
    (hc : g'.commits = g.commits ++ [g.current]) (hu : g'.current = []) :
    OpsInv g' (update pt t k') := by
  have hflat : g'.commits.flatten ++ g'.current = g.commits.flatten ++ g.current := by
    simp [hc, hu]
  refine ⟨by rw [hflat, ho]; exact hi.fresh, ?_, ?_, by simp [hu], ?_⟩
  · grind
  · grind
  · rw [hc, List.pairwise_append]
    refine ⟨hi.separate, List.pairwise_singleton _ _, ?_⟩
    intro c hcm d hd w hw v hv
    rw [List.mem_singleton] at hd
    subst hd
    exact Ne.symm (hi.current v hv w (List.mem_flatten.mpr ⟨c, hcm, hw⟩))

end Ops

/-- The home blocks as the operations see them. -/
def LogG.view (d0 : Disk) (g : LogG) : Disk := applyWrites d0 (g.commits.flatten ++ g.current)

namespace LogG

variable (d0 : Disk) (g : LogG) (b x : ℕ) (v : Buf) (data : Block)

@[grind =] theorem setBuf_buf : (g.setBuf b v).buf x = if x = b then v else g.buf x :=
  update_apply _ _ _ _
@[grind =] theorem setBuf_pins : (g.setBuf b v).pins = g.pins := rfl
@[grind =] theorem setBuf_disk : (g.setBuf b v).disk x = g.disk x := rfl
@[grind =] theorem setBuf_view : (g.setBuf b v).view d0 x = g.view d0 x := rfl
theorem bread_lock (t : ℕ) : ((g.bread t b).buf b).lock = some t := by
  rw [bread, setBuf_buf, if_pos rfl]
theorem bread_lock_of_ne (t : ℕ) (h : x ≠ b) : ((g.bread t b).buf x).lock = (g.buf x).lock := by
  rw [bread, setBuf_buf, if_neg h]
theorem brelse_lock_of_ne (h : x ≠ b) : ((g.brelse b).buf x).lock = (g.buf x).lock := by
  rw [brelse, setBuf_buf, if_neg h]
@[grind =] theorem bwrite_buf :
    (g.bwrite b data).buf x = if x = b then { g.buf b with data := data } else g.buf x :=
  update_apply _ _ _ _
@[grind =] theorem bwrite_lh : (g.bwrite b data).lh = g.lh := rfl
@[grind =] theorem bwrite_pins : (g.bwrite b data).pins = g.pins := rfl
@[grind =] theorem bwrite_disk :
    (g.bwrite b data).disk x = if x = b then data else g.disk x := update_apply _ _ _ _
@[grind =] theorem bwrite_view : (g.bwrite b data).view d0 x = g.view d0 x := rfl
@[grind =] theorem bunpin_buf : (g.bunpin b).buf x =
    if x = b then { g.buf b with refcnt := (g.buf b).refcnt - 1 } else g.buf x :=
  update_apply _ _ _ _
@[grind =] theorem bunpin_pins : (g.bunpin b).pins = g.pins.erase b := rfl
@[grind =] theorem bunpin_disk : (g.bunpin b).disk x = g.disk x := rfl
@[grind =] theorem bunpin_view : (g.bunpin b).view d0 x = g.view d0 x := rfl
@[grind =] theorem logWrite_buf (op : ℕ) : (g.logWrite op b).buf x =
    if b ∉ g.lh ∧ x = b then { g.buf b with refcnt := (g.buf b).refcnt + 1 } else g.buf x := by
  unfold logWrite
  split <;> simp_all [setBuf, update_apply]
@[grind =] theorem logWrite_lh (op : ℕ) :
    (g.logWrite op b).lh = if b ∈ g.lh then g.lh else g.lh ++ [b] := by
  unfold logWrite
  split <;> rfl
@[grind =] theorem logWrite_pins (op : ℕ) :
    (g.logWrite op b).pins = if b ∈ g.lh then g.pins else b :: g.pins := by
  unfold logWrite
  split <;> rfl
@[grind =] theorem logWrite_disk (op : ℕ) : (g.logWrite op b).disk x = g.disk x := by
  unfold logWrite
  split <;> rfl
@[grind =] theorem logWrite_view (op : ℕ) :
    (g.logWrite op b).view d0 x = if x = b then (g.buf b).data else g.view d0 x := by
  have hv : (g.logWrite op b).view d0 = applyWrites (g.view d0) [⟨op, b, (g.buf b).data⟩] := by
    rw [view, view, ← applyWrites_append, List.append_assoc]
    unfold logWrite
    split <;> rfl
  rw [hv]
  exact update_apply _ _ _ _

end LogG

section Cache

/-- What the buffers hold. A pinned block is valid and holds the logged contents; any other
home block holds them on disk, too. -/
structure CacheInv (start : ℕ) (d0 : Disk) (g : LogG) (pt : ℕ → LogPt) : Prop where
  lh_home : ∀ b ∈ g.lh, Home start b
  lh_nodup : g.lh.Nodup
  lh_length : g.lh.length ≤ LOGBLOCKS
  pins_nodup : g.pins.Nodup
  pins_lh : ∀ b ∈ g.pins, b ∈ g.lh
  refcnt : ∀ b, (g.buf b).refcnt =
    (if (g.buf b).lock = none then 0 else 1) + (if b ∈ g.pins then 1 else 0)
  clean : ∀ b, Home start b → b ∉ g.pins → g.disk b = g.view d0 b
  cached : ∀ b, Home start b → (g.buf b).valid = true →
    (∀ t, (g.buf b).lock = some t → ¬ (pt t).mayDiffer b) → (g.buf b).data = g.view d0 b
  pinned : ∀ b ∈ g.pins, (g.buf b).valid = true
  locked : ∀ b, (g.buf b).lock ≠ none → (g.buf b).valid = true
  dirty : ∀ t, ∀ b ∈ (pt t).dirty, (g.buf b).lock = some t
  logArea : ∀ b, ¬ Home start b → (g.buf b).valid = true →
    (∀ t, (g.buf b).lock = some t → ¬ (pt t).mayDiffer b) → (g.buf b).data = g.disk b

variable {start t b : ℕ} {d0 : Disk} {g g' : LogG} {pt : ℕ → LogPt} {k' : LogPt}

section

variable (hi : CacheInv start d0 g pt)
include hi

theorem CacheInv.congr (hbuf : g'.buf = g.buf) (hlh : g'.lh = g.lh)
    (hpins : g'.pins = g.pins) (hdisk : g'.disk = g.disk) (hview : g'.view d0 = g.view d0) :
    CacheInv start d0 g' pt := by
  refine ⟨?_, ?_, ?_, ?_, ?_, ?_, ?_, ?_, ?_, ?_, ?_, ?_⟩ <;>
    simp only [hbuf, hlh, hpins, hdisk, hview]
  · exact hi.lh_home
  · exact hi.lh_nodup
  · exact hi.lh_length
  · exact hi.pins_nodup
  · exact hi.pins_lh
  · exact hi.refcnt
  · exact hi.clean
  · exact hi.cached
  · exact hi.pinned
  · exact hi.locked
  · exact hi.dirty
  · exact hi.logArea

theorem CacheInv.move (hd : k'.dirty = [] ∨ k'.dirty = (pt t).dirty)
    (hm : ∀ b, (pt t).mayDiffer b → k'.mayDiffer b) :
    CacheInv start d0 g (update pt t k') := by
  refine ⟨hi.lh_home, hi.lh_nodup, hi.lh_length, hi.pins_nodup, hi.pins_lh, hi.refcnt, hi.clean, ?_,
    hi.pinned, hi.locked, ?_, ?_⟩
  · intro b hb hv hn
    refine hi.cached b hb hv (fun u hu => ?_)
    have := hn u hu
    grind
  · intro u b hb
    refine hi.dirty u b ?_
    grind
  · intro b hb hv hn
    refine hi.logArea b hb hv (fun u hu => ?_)
    have := hn u hu
    grind

theorem CacheInv.bread (hl : (g.buf b).lock = none)
    (hd : k'.dirty = (pt t).dirty) (hm : ∀ b, k'.mayDiffer b ↔ (pt t).mayDiffer b) :
    CacheInv start d0 (g.bread t b) (update pt t k') := by
  unfold LogG.bread
  have hrc := hi.refcnt
  refine ⟨hi.lh_home, hi.lh_nodup, hi.lh_length, hi.pins_nodup, hi.pins_lh, ?_, hi.clean, ?_, ?_,
    ?_, ?_, ?_⟩
  · grind
  · intro x hx hv hn
    by_cases hxb : x = b
    · subst hxb
      have h1 := hi.cached x hx
      have h2 := hi.clean x hx
      have h3 := hi.pinned x
      grind
    · have h1 := hi.cached x hx
      grind
  · grind [hi.pinned]
  · grind [hi.locked]
  · grind [hi.dirty]
  · intro x hx hv hn
    have h1 := hi.logArea x hx
    grind

theorem CacheInv.brelse (hl : (g.buf b).lock = some t)
    (hnd : ¬ (pt t).mayDiffer b) (hd : k'.dirty = (pt t).dirty)
    (hm : ∀ b, k'.mayDiffer b ↔ (pt t).mayDiffer b) :
    CacheInv start d0 (g.brelse b) (update pt t k') := by
  unfold LogG.brelse
  have hrc := hi.refcnt
  have hnb : b ∉ (pt t).dirty := fun h => hnd (.inl h)
  refine ⟨hi.lh_home, hi.lh_nodup, hi.lh_length, hi.pins_nodup, hi.pins_lh, ?_, hi.clean, ?_, ?_,
    ?_, ?_, ?_⟩
  · grind
  · intro x hx hv hn
    have h1 := hi.cached x hx
    grind
  · grind [hi.pinned]
  · grind [hi.locked]
  · intro u x hx
    have h1 := hi.dirty u x
    grind
  · intro x hx hv hn
    have h1 := hi.logArea x hx
    grind

theorem CacheInv.recycle (hr : (g.buf b).refcnt = 0) :
    CacheInv start d0 (g.recycle b) pt := by
  unfold LogG.recycle
  have hrc := hi.refcnt
  have hfree : (g.buf b).lock = none ∧ b ∉ g.pins := by
    have := hrc b
    grind
  refine ⟨hi.lh_home, hi.lh_nodup, hi.lh_length, hi.pins_nodup, hi.pins_lh, ?_, hi.clean, ?_, ?_,
    ?_, ?_, ?_⟩
  · grind
  · intro x hx hv hn
    have h1 := hi.cached x hx
    grind
  · grind [hi.pinned]
  · grind [hi.locked]
  · intro u x hx
    have h1 := hi.dirty u x
    grind
  · intro x hx hv hn
    have h1 := hi.logArea x hx
    grind

theorem CacheInv.modify {data : Block} (hl : (g.buf b).lock = some t) (hd : k'.dirty = b :: (pt t).dirty)
    (hp : ¬ ∃ why, pt t = .panic why) :
    CacheInv start d0 (g.modify b data) (update pt t k') := by
  unfold LogG.modify
  have hrc := hi.refcnt
  refine ⟨hi.lh_home, hi.lh_nodup, hi.lh_length, hi.pins_nodup, hi.pins_lh, ?_, hi.clean, ?_, ?_,
    ?_, ?_, ?_⟩
  · grind
  · intro x hx hv hn
    have h1 := hi.cached x hx
    grind [LogPt.mayDiffer]
  · grind [hi.pinned]
  · grind [hi.locked]
  · intro u x hx
    have h1 := hi.dirty u x
    grind
  · intro x hx hv hn
    have h1 := hi.logArea x hx
    grind [LogPt.mayDiffer]

end

theorem CacheInv.bwrite (data : Block) (hi : CacheInv start d0 g pt) (hb : ¬ Home start b)
    (hd : k'.dirty = (pt t).dirty) (hm : ∀ b, k'.mayDiffer b ↔ (pt t).mayDiffer b) :
    CacheInv start d0 (g.bwrite b data) (update pt t k') := by
  have hrc := hi.refcnt
  refine ⟨hi.lh_home, hi.lh_nodup, hi.lh_length, hi.pins_nodup, hi.pins_lh, ?_, ?_, ?_, ?_, ?_, ?_,
    ?_⟩
  · grind
  · intro x hx hp
    have h1 := hi.clean x hx hp
    grind
  · intro x hx hv hn
    have h1 := hi.cached x hx
    grind
  · grind [hi.pinned]
  · grind [hi.locked]
  · intro u x hx
    have h1 := hi.dirty u x
    grind
  · intro x hx hv hn
    have h1 := hi.logArea x hx
    grind

theorem CacheInv.install {data : Block} (hi : CacheInv start d0 g pt) (hb : b ∈ g.pins)
    (hl : (g.buf b).lock = some t) (hdata : data = g.view d0 b) (hd : k'.dirty = (pt t).dirty)
    (hm : ∀ b, k'.mayDiffer b ↔ (pt t).mayDiffer b) :
    CacheInv start d0 ((g.bwrite b data).bunpin b) (update pt t k') := by
  have hrc := hi.refcnt
  have hhome := hi.lh_home b (hi.pins_lh b hb)
  have hmem (x : ℕ) : x ∈ g.pins.erase b ↔ x ≠ b ∧ x ∈ g.pins := hi.pins_nodup.mem_erase_iff
  refine ⟨hi.lh_home, hi.lh_nodup, hi.lh_length, hi.pins_nodup.erase b, ?_, ?_, ?_, ?_, ?_, ?_, ?_,
    ?_⟩
  · intro x hx
    exact hi.pins_lh x ((hmem x).mp hx).2
  · intro x
    have := hrc x
    grind
  · intro x hx hp
    have h1 := hi.clean x hx
    grind
  · intro x hx hv hn
    have h1 := hi.cached x hx
    grind
  · grind [hi.pinned]
  · grind [hi.locked]
  · intro u x hx
    have h1 := hi.dirty u x
    grind
  · intro x hx hv hn
    have h1 := hi.logArea x hx
    grind

theorem CacheInv.clear (hi : CacheInv start d0 g pt) (hp : g.pins = [])
    (hd : k'.dirty = (pt t).dirty) (hm : ∀ b, k'.mayDiffer b ↔ (pt t).mayDiffer b) :
    CacheInv start d0 { g with lh := [] } (update pt t k') := by
  refine ⟨by simp, by simp, zero_le, hi.pins_nodup, by simp [hp], hi.refcnt, hi.clean, ?_,
    hi.pinned, hi.locked, ?_, ?_⟩
  · intro x hx hv hn
    refine hi.cached x hx hv (fun u hu => ?_)
    have h1 := hn u hu
    grind
  · intro u x hx
    have h1 := hi.dirty u x
    grind
  · intro x hx hv hn
    refine hi.logArea x hx hv (fun u hu => ?_)
    have h1 := hn u hu
    grind

/-- `log_write`: the block is pinned, and from now on its contents are the logged ones. -/
theorem CacheInv.logWrite {op : ℕ} (hi : CacheInv start d0 g pt) (hl : (g.buf b).lock = some t)
    (hb : Home start b) (hlen : g.lh.length < LOGBLOCKS) (hpin : ∀ x, x ∈ g.pins ↔ x ∈ g.lh)
    (hd : ∀ x, x ∈ k'.dirty ↔ x ∈ (pt t).dirty ∧ x ≠ b)
    (hp : ¬ ∃ why, k' = .panic why) (hp' : ¬ ∃ why, pt t = .panic why) :
    CacheInv start d0 (g.logWrite op b) (update pt t k') := by
  have hrc := hi.refcnt
  refine ⟨?_, ?_, ?_, ?_, ?_, ?_, ?_, ?_, ?_, ?_, ?_, ?_⟩
  · grind [hi.lh_home]
  · have := hi.lh_nodup
    grind
  · grind [hi.lh_length]
  · have := hi.pins_nodup
    grind
  · grind
  · grind
  · intro x hx hxp
    have h1 := hi.clean x hx
    grind
  · intro x hx hxv hn
    have h1 := hi.cached x hx
    grind [LogPt.mayDiffer]
  · grind [hi.pinned, hi.locked]
  · grind [hi.locked]
  · intro u x hx
    have h1 := hi.dirty u x
    grind
  · intro x hx hv hn
    have h1 := hi.logArea x hx
    grind [LogPt.mayDiffer]

end Cache

end Xv6
