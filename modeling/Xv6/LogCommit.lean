import Xv6.LogInvariant

/-! How far `commit()` has got: what the disk and the pins are at each of its points, and
that every one of its steps keeps this. -/
namespace Xv6

/-- Nothing of the commit can be seen on disk yet. -/
def Pre (start : ℕ) (g : LogG) : Prop :=
  (∀ b, b ∈ g.pins ↔ b ∈ g.lh) ∧ readHead (g.disk start) = [] ∧
    g.durable + 1 = g.commits.length ∧ g.returned + 1 = g.commits.length

/-- The first `j` logged blocks are in the log. -/
def Logged (start : ℕ) (d0 : Disk) (g : LogG) (j : ℕ) : Prop :=
  ∀ i < j, g.disk (start + i + 1) = g.view d0 (g.lh.getD i 0)

/-- The header on disk describes the commit. -/
def Post (start : ℕ) (d0 : Disk) (g : LogG) : Prop :=
  readHead (g.disk start) = g.lh ∧ g.durable = g.commits.length ∧
    g.returned + 1 = g.commits.length ∧ Logged start d0 g g.lh.length

/-- The first `j` logged blocks have been installed. -/
def Unpinned (g : LogG) (j : ℕ) : Prop := ∀ b, b ∈ g.pins ↔ b ∈ g.lh.drop j

/-- Everything has been installed. -/
def Installed (g : LogG) : Prop :=
  g.lh = [] ∧ g.pins = [] ∧ g.durable = g.commits.length

/-- What process `t` can rely on at a point of `commit()`. -/
def Relies (start : ℕ) (d0 : Disk) (g : LogG) (t : ℕ) : LogPt → Prop
  | .endRelease true | .commit => Pre start g
  | .wlTo j => Pre start g ∧ j ≤ g.lh.length ∧ Logged start d0 g j
  | .wlFrom j => Pre start g ∧ j < g.lh.length ∧ Logged start d0 g j ∧
    (g.buf (start + j + 1)).lock = some t
  | .wlCopy j => Pre start g ∧ j < g.lh.length ∧ Logged start d0 g j ∧
    (g.buf (start + j + 1)).lock = some t ∧ (g.buf (g.lh.getD j 0)).lock = some t
  | .wlRelseFrom j => Pre start g ∧ j < g.lh.length ∧ Logged start d0 g (j + 1) ∧
    (g.buf (start + j + 1)).lock = some t ∧ (g.buf (g.lh.getD j 0)).lock = some t
  | .wlRelseTo j => Pre start g ∧ j < g.lh.length ∧ Logged start d0 g (j + 1) ∧
    (g.buf (start + j + 1)).lock = some t
  | .headRead true => Pre start g ∧ Logged start d0 g g.lh.length
  | .headWrite true => Pre start g ∧ Logged start d0 g g.lh.length ∧ (g.buf start).lock = some t
  | .headRelse true => Post start d0 g ∧ Unpinned g 0 ∧ (g.buf start).lock = some t
  | .itLog j => Post start d0 g ∧ j ≤ g.lh.length ∧ Unpinned g j
  | .itDst j => Post start d0 g ∧ j < g.lh.length ∧ Unpinned g j ∧
    (g.buf (start + j + 1)).lock = some t
  | .itCopy j => Post start d0 g ∧ j < g.lh.length ∧ Unpinned g j ∧
    (g.buf (start + j + 1)).lock = some t ∧ (g.buf (g.lh.getD j 0)).lock = some t
  | .itRelseLog j => Post start d0 g ∧ j < g.lh.length ∧ Unpinned g (j + 1) ∧
    (g.buf (start + j + 1)).lock = some t ∧ (g.buf (g.lh.getD j 0)).lock = some t
  | .itRelseDst j => Post start d0 g ∧ j < g.lh.length ∧ Unpinned g (j + 1) ∧
    (g.buf (g.lh.getD j 0)).lock = some t
  | .clear => Post start d0 g ∧ g.pins = []
  | .headRead false => Installed g
  | .headWrite false => Installed g ∧ (g.buf start).lock = some t
  | .headRelse false => Installed g ∧ readHead (g.disk start) = [] ∧ (g.buf start).lock = some t
  | .doneLock | .doneBody => Installed g ∧ readHead (g.disk start) = [] ∧
    g.returned = g.commits.length
  | _ => True

/-- How much of the commits is on disk. -/
structure DurInv (start : ℕ) (d0 : Disk) (g : LogG) (pt : ℕ → LogPt) : Prop where
  durable : Durable start g.disk (applyWrites d0 (g.commits.take g.durable).flatten)
  returned_le : g.returned ≤ g.durable
  durable_le : g.durable ≤ g.commits.length
  idle : g.committing = false → g.returned = g.commits.length ∧ readHead (g.disk start) = [] ∧
    ∀ b, b ∈ g.pins ↔ b ∈ g.lh
  relies : ∀ t, Relies start d0 g t (pt t)

structure LogInv (N start : ℕ) (d0 : Disk) (g : LogG) (pt : ℕ → LogPt) : Prop where
  control : ControlInv N g pt
  ops : OpsInv g pt
  cache : CacheInv start d0 g pt
  dur : DurInv start d0 g pt

/-- Two states that differ in the buffers only. -/
structure SameLog (g g' : LogG) : Prop where
  lh : g'.lh = g.lh
  pins : g'.pins = g.pins
  disk : g'.disk = g.disk
  outstanding : g'.outstanding = g.outstanding
  committing : g'.committing = g.committing
  ops : g'.ops = g.ops
  current : g'.current = g.current
  commits : g'.commits = g.commits
  durable : g'.durable = g.durable
  returned : g'.returned = g.returned

theorem sameLog_setBuf (g : LogG) (b : ℕ) (x : Buf) : SameLog g (g.setBuf b x) := by
  constructor <;> rfl

theorem sameLog_refl (g : LogG) : SameLog g g := by
  constructor <;> rfl

variable {N start t u : ℕ} {d0 : Disk} {g g' : LogG} {pt : ℕ → LogPt} {k k' : LogPt}

theorem SameLog.view (hs : SameLog g g') : g'.view d0 = g.view d0 := by
  rw [LogG.view, LogG.view, hs.commits, hs.current]

theorem relies_of_not_committer (h : k.committer = false) : Relies start d0 g t k := by
  cases k with
  | endRelease b | headRead b | headWrite b | headRelse b =>
    cases b <;> simp_all [LogPt.committer, Relies]
  | _ => simp_all [LogPt.committer, Relies]

theorem relies_frame (h : Relies start d0 g u k) (hs : SameLog g g')
    (hl : ∀ b, (g.buf b).lock = some u → (g'.buf b).lock = some u) :
    Relies start d0 g' u k := by
  have hv : g'.view d0 = g.view d0 := hs.view
  obtain ⟨h1, h2, h3, -, -, -, -, h8, h9, h10⟩ := hs
  cases k with
  | endRelease b | headRead b | headWrite b | headRelse b =>
    cases b <;> simp_all [Relies, Pre, Post, Logged, Unpinned, Installed]
  | _ =>
    simp_all [Relies, Pre, Post, Logged, Unpinned, Installed, -List.getD_eq_getElem?_getD]

/-- Points that the first three parts of the invariant do not tell apart. -/
structure LogPt.Like (k k' : LogPt) : Prop where
  active : k'.active = k.active
  committer : k'.committer = k.committer
  op : k'.op = k.op
  dirty : k'.dirty = k.dirty
  mayDiffer : ∀ b, k'.mayDiffer b ↔ k.mayDiffer b

theorem LogPt.like_refl (k : LogPt) : k.Like k := by
  constructor <;> simp

theorem LogPt.committer_plain (h : k.committer = true) :
    k.active = false ∧ k.op = none ∧ k.dirty = [] ∧ ∀ b, ¬ k.mayDiffer b := by
  cases k <;> simp_all [LogPt.active, LogPt.committer, LogPt.op, LogPt.dirty, LogPt.mayDiffer]

theorem LogPt.like_of_committer (h : k.committer = true) (h' : k'.committer = true) :
    k.Like k' := by
  obtain ⟨ha, ho, hd, hm⟩ := LogPt.committer_plain h
  obtain ⟨ha', ho', hd', hm'⟩ := LogPt.committer_plain h'
  exact ⟨by rw [ha, ha'], by rw [h, h'], by rw [ho, ho'], by rw [hd, hd'],
    fun b => iff_of_false (hm' b) (hm b)⟩

section

variable (hi : LogInv N start d0 g pt)
include hi

theorem LogInv.buffers (ht : t < N) (hs : SameLog g g')
    (ha : k'.active = (pt t).active) (hc : k'.committer = (pt t).committer)
    (hop : k'.op = none ∨ k'.op = (pt t).op)
    (hcache : CacheInv start d0 g' (update pt t k'))
    (hl : ∀ u, u ≠ t → ∀ b, (g.buf b).lock = some u → (g'.buf b).lock = some u)
    (hr : Relies start d0 g' t k') : LogInv N start d0 g' (update pt t k') := by
  refine ⟨hi.control.move ht ha hc hs.outstanding hs.committing (fun _ => hs.current),
    hi.ops.move hop hs.ops hs.commits hs.current, hcache, ?_⟩
  refine ⟨?_, ?_, ?_, ?_, ?_⟩
  · rw [hs.disk, hs.commits, hs.durable]
    exact hi.dur.durable
  · rw [hs.returned, hs.durable]
    exact hi.dur.returned_le
  · rw [hs.commits, hs.durable]
    exact hi.dur.durable_le
  · rw [hs.committing, hs.returned, hs.commits, hs.disk, hs.pins, hs.lh]
    exact hi.dur.idle
  · intro u
    by_cases hu : u = t
    · subst hu
      rwa [update_self]
    · rw [update_of_ne hu]
      exact relies_frame (hi.dur.relies u) hs (hl u hu)

theorem LogInv.move (ht : t < N) (hk : (pt t).Like k')
    (hr : Relies start d0 g t k') : LogInv N start d0 g (update pt t k') :=
  hi.buffers ht (sameLog_refl g) hk.active hk.committer (.inr hk.op)
    (hi.cache.move (.inr hk.dirty) (fun b => (hk.mayDiffer b).mpr))
    (fun _ _ _ h => h) hr

theorem LogInv.leave (ht : t < N)
    (ha : k'.active = (pt t).active) (hc : (pt t).committer = false) (hc' : k'.committer = false)
    (hop : k'.op = none) (hd : k'.dirty = []) (hm : ∀ b, (pt t).mayDiffer b → k'.mayDiffer b) :
    LogInv N start d0 g (update pt t k') :=
  hi.buffers ht (sameLog_refl g) ha (by rw [hc, hc']) (.inl hop) (hi.cache.move (.inl hd) hm)
    (fun _ _ _ h => h) (relies_of_not_committer hc')

theorem LogInv.bread {b : ℕ} (ht : t < N) (hk : (pt t).Like k')
    (hl : (g.buf b).lock = none) (hr : Relies start d0 (g.bread t b) t k') :
    LogInv N start d0 (g.bread t b) (update pt t k') := by
  refine hi.buffers ht (sameLog_setBuf g b _) hk.active hk.committer (.inr hk.op)
    (hi.cache.bread hl hk.dirty hk.mayDiffer) ?_ hr
  intro u _ x hx
  unfold LogG.bread
  grind

theorem LogInv.brelse {b : ℕ} (ht : t < N) (hk : (pt t).Like k')
    (hl : (g.buf b).lock = some t) (hd : ¬ (pt t).mayDiffer b)
    (hr : Relies start d0 (g.brelse b) t k') :
    LogInv N start d0 (g.brelse b) (update pt t k') := by
  refine hi.buffers ht (sameLog_setBuf g b _) hk.active hk.committer (.inr hk.op)
    (hi.cache.brelse hl hd hk.dirty hk.mayDiffer) ?_ hr
  intro u hu x hx
  unfold LogG.brelse
  grind

theorem LogInv.recycle {b : ℕ} (ht : t < N)
    (hr : (g.buf b).refcnt = 0) : LogInv N start d0 (g.recycle b) pt := by
  have hl (x u : ℕ) (hx : (g.buf x).lock = some u) : ((g.recycle b).buf x).lock = some u := by
    unfold LogG.recycle
    grind
  have h : LogInv N start d0 (g.recycle b) (update pt t (pt t)) :=
    hi.buffers ht (sameLog_setBuf g b _) rfl rfl (.inr rfl)
      (by rw [update_eq_self]; exact hi.cache.recycle hr) (fun u _ x => hl x u)
      (relies_frame (hi.dur.relies t) (sameLog_setBuf g b _) (fun x => hl x t))
  rwa [update_eq_self] at h

theorem LogInv.modify {b op : ℕ} {dirty : List ℕ} {data : Block} (ht : t < N) (hp : pt t = .inOp op dirty) (hl : (g.buf b).lock = some t) :
    LogInv N start d0 (g.modify b data) (update pt t (.inOp op (b :: dirty))) := by
  refine hi.buffers ht (sameLog_setBuf g b _) (by rw [hp]; rfl) (by rw [hp]; rfl)
    (.inr (by rw [hp]; rfl)) (hi.cache.modify hl (by rw [hp]; rfl) (by simp [hp])) ?_ trivial
  intro u _ x hx
  unfold LogG.modify
  grind

end

section Operations

section

variable (hi : LogInv N start d0 g pt)
include hi

theorem DurInv.idle_step (hb : g.committing = false)
    (hdisk : g'.disk = g.disk) (hcom : g'.commits = g.commits) (hdur : g'.durable = g.durable)
    (hret : g'.returned = g.returned) (hpins : ∀ b, b ∈ g'.pins ↔ b ∈ g'.lh)
    (hk : k'.committer = false) : DurInv start d0 g' (update pt t k') := by
  obtain ⟨h1, h2, h3⟩ := hi.dur.idle hb
  refine ⟨?_, ?_, ?_, fun _ => ⟨?_, ?_, hpins⟩, fun u => relies_of_not_committer ?_⟩
  · rw [hdisk, hcom, hdur]
    exact hi.dur.durable
  · rw [hret, hdur]
    exact hi.dur.returned_le
  · rw [hcom, hdur]
    exact hi.dur.durable_le
  · rw [hret, hcom, h1]
  · rw [hdisk, h2]
  · have := hi.control.committer u
    grind

theorem LogInv.begin (ht : t < N) (hp : pt t = .beginLoop)
    (hb : g.committing = false) :
    LogInv N start d0 { g with outstanding := g.outstanding + 1, ops := g.ops + 1 }
      (update pt t (.inOp g.ops [])) := by
  refine ⟨hi.control.begin ht (by rw [hp]; rfl) rfl rfl rfl hb hb, hi.ops.begin rfl rfl rfl rfl, ?_,
    DurInv.idle_step hi hb rfl rfl rfl rfl (hi.dur.idle hb).2.2 rfl⟩
  refine CacheInv.congr (hi.cache.move (.inl rfl) ?_) rfl rfl rfl rfl rfl
  intro b h
  rw [hp] at h
  simp [LogPt.mayDiffer, LogPt.dirty] at h

theorem LogInv.not_committing (ha : (pt t).active = true) :
    g.committing = false := by
  cases hb : g.committing with
  | false => rfl
  | true => rw [hi.control.no_active hb t] at ha; cases ha

theorem LogInv.logWrite {b op : ℕ} {dirty : List ℕ} (ht : t < N)
    (hp : pt t = .inOp op dirty) (hl : (g.buf b).lock = some t) (hh : Home start b)
    (hlen : g.lh.length < LOGBLOCKS) :
    LogInv N start d0 (g.logWrite op b)
      (update pt t (.inOp op (dirty.filter (· ≠ b)))) := by
  have hb : g.committing = false := hi.not_committing (t := t) (by rw [hp]; rfl)
  have hpins := (hi.dur.idle hb).2.2
  have hfields : (g.logWrite op b).outstanding = g.outstanding ∧
      (g.logWrite op b).committing = g.committing ∧ (g.logWrite op b).ops = g.ops ∧
      (g.logWrite op b).commits = g.commits ∧ (g.logWrite op b).durable = g.durable ∧
      (g.logWrite op b).returned = g.returned ∧ (g.logWrite op b).disk = g.disk ∧
      (g.logWrite op b).current = g.current ++ [⟨op, b, (g.buf b).data⟩] := by
    unfold LogG.logWrite
    split <;> simp [LogG.setBuf]
  obtain ⟨h1, h2, h3, h4, h5, h6, h7, h8⟩ := hfields
  refine ⟨hi.control.move ht (by rw [hp]; rfl) (by rw [hp]; rfl) h1 h2 ?_,
    hi.ops.write (by rw [hp]; rfl) (by rw [hp]; rfl) h3 h4 h8, ?_,
    DurInv.idle_step hi hb h7 h4 h5 h6 ?_ rfl⟩
  · intro h
    rw [hb] at h
    cases h
  · refine hi.cache.logWrite hl hh hlen hpins ?_ (by simp) (by simp [hp])
    intro x
    simp [hp, LogPt.dirty]
  · intro x
    rw [LogG.logWrite_pins, LogG.logWrite_lh]
    split <;> simp [hpins, or_comm]

theorem LogInv.endOp (ht : t < N) (hp : pt t = .endBody) :
    LogInv N start d0 { g with outstanding := g.outstanding - 1 }
      (update pt t (.endRelease false)) := by
  have hb : g.committing = false := hi.not_committing (t := t) (by rw [hp]; rfl)
  refine ⟨hi.control.finish ht (by rw [hp]; rfl) rfl rfl hb (.inl ⟨rfl, hb⟩),
    hi.ops.move (.inl rfl) rfl rfl rfl, ?_,
    DurInv.idle_step hi hb rfl rfl rfl rfl (hi.dur.idle hb).2.2 rfl⟩
  refine CacheInv.congr (hi.cache.move (.inl rfl) ?_) rfl rfl rfl rfl rfl
  intro b h
  rw [hp] at h
  simp [LogPt.mayDiffer, LogPt.dirty] at h

theorem LogInv.endOp_last (ht : t < N) (hp : pt t = .endBody)
    (ho : g.outstanding - 1 = 0) :
    LogInv N start d0 { g with
      outstanding := g.outstanding - 1
      committing := true
      commits := g.commits ++ [g.current]
      current := [] } (update pt t (.endRelease true)) := by
  have hb : g.committing = false := hi.not_committing (t := t) (by rw [hp]; rfl)
  obtain ⟨hret, hhead, hpins⟩ := hi.dur.idle hb
  have hdur : g.durable = g.commits.length :=
    le_antisymm hi.dur.durable_le (hret ▸ hi.dur.returned_le)
  have hcontrol : ControlInv N { g with
      outstanding := g.outstanding - 1
      committing := true
      commits := g.commits ++ [g.current]
      current := [] } (update pt t (.endRelease true)) :=
    hi.control.finish ht (by rw [hp]; rfl) rfl rfl hb (.inr ⟨rfl, rfl, ho, rfl⟩)
  refine ⟨hcontrol, hi.ops.commit rfl ?_ rfl rfl rfl, ?_, ?_⟩
  · intro u hu
    have h := hcontrol.no_active rfl u
    rw [update_of_ne hu] at h
    cases hk : pt u <;> simp_all [LogPt.active, LogPt.op]
  · refine CacheInv.congr (hi.cache.move (.inl rfl) ?_) rfl rfl rfl rfl ?_
    · intro b h
      rw [hp] at h
      simp [LogPt.mayDiffer, LogPt.dirty] at h
    · simp [LogG.view]
  · refine ⟨?_, hi.dur.returned_le, ?_, ?_, ?_⟩
    · show Durable start g.disk (applyWrites d0 ((g.commits ++ [g.current]).take g.durable).flatten)
      rw [List.take_append_of_le_length hi.dur.durable_le]
      exact hi.dur.durable
    · simp [hdur]
    · intro h
      cases h
    · intro u
      by_cases hu : u = t
      · subst hu
        rw [update_self]
        exact ⟨hpins, hhead, by simp [hdur], by simp [hret]⟩
      · rw [update_of_ne hu]
        have := hi.control.committer u
        exact relies_of_not_committer (by grind)

theorem LogInv.endOp_done (ht : t < N) (hp : pt t = .doneBody) :
    LogInv N start d0 { g with committing := false } (update pt t .doneRelease) := by
  have hc : (pt t).committer = true := by rw [hp]; rfl
  have hr : Relies start d0 g t (pt t) := hi.dur.relies t
  rw [hp] at hr
  obtain ⟨⟨hlh, hpins, hdur⟩, hhead, hret⟩ := hr
  refine ⟨hi.control.done ht (by rw [hp]; rfl) rfl hc rfl rfl rfl,
    hi.ops.move (.inl rfl) rfl rfl rfl, ?_, ?_⟩
  · refine CacheInv.congr (hi.cache.move (.inl rfl) ?_) rfl rfl rfl rfl rfl
    intro b h
    exact absurd h ((LogPt.committer_plain hc).2.2.2 b)
  · refine ⟨hi.dur.durable, hi.dur.returned_le, hi.dur.durable_le, fun _ => ⟨hret, hhead, ?_⟩, ?_⟩
    · simp [hlh, hpins]
    · intro u
      refine relies_of_not_committer ?_
      have := hi.control.one u t
      grind [LogPt.committer]

end

end Operations

section Commit

theorem LogInv.committed (hi : LogInv N start d0 g pt) (ht : t < N)
    (hc : (pt t).committer = true) (hc' : k'.committer = true)
    (ho : g'.outstanding = g.outstanding) (hb : g'.committing = g.committing)
    (hops : g'.ops = g.ops) (hcur : g'.current = g.current) (hcom : g'.commits = g.commits)
    (hcache : CacheInv start d0 g' (update pt t k'))
    (hd : Durable start g'.disk (applyWrites d0 (g'.commits.take g'.durable).flatten))
    (hle : g'.returned ≤ g'.durable ∧ g'.durable ≤ g'.commits.length)
    (hr : Relies start d0 g' t k') : LogInv N start d0 g' (update pt t k') := by
  have hk := LogPt.like_of_committer hc hc'
  refine ⟨hi.control.move ht hk.active hk.committer ho hb (fun _ => hcur),
    hi.ops.move (.inr hk.op) hops hcom hcur, hcache, hd, hle.1, hle.2, ?_, ?_⟩
  · intro h
    rw [hb, hi.control.committer t hc] at h
    cases h
  · intro u
    by_cases hu : u = t
    · subst hu
      rwa [update_self]
    · rw [update_of_ne hu]
      refine relies_of_not_committer ?_
      cases h : (pt u).committer with
      | false => rfl
      | true => exact absurd (hi.control.one u t h hc) hu

theorem not_mayDiffer_of_lock {b : ℕ} (hc : (pt t).committer = true)
    (hl : (g.buf b).lock = some t) (u : ℕ) (hu : (g.buf b).lock = some u) :
    ¬ (pt u).mayDiffer b := by
  obtain rfl : t = u := Option.some.inj (hl.symm.trans hu)
  exact (LogPt.committer_plain hc).2.2.2 b

section

variable (hi : LogInv N start d0 g pt)
include hi

theorem LogInv.view_eq (hc : (pt t).committer = true) :
    g.view d0 = applyWrites d0 (g.commits.take g.commits.length).flatten := by
  have := (hi.control.busy (hi.control.committer t hc)).2
  rw [LogG.view, this, List.append_nil, List.take_length]

theorem LogInv.durable_installed (hc : (pt t).committer = true)
    (hp : g.pins = []) {d : Disk} (hd : readHead (d start) = [])
    (hhome : ∀ b, Home start b → d b = g.disk b) :
    Durable start d (applyWrites d0 (g.commits.take g.commits.length).flatten) := by
  rw [← hi.view_eq hc]
  refine durable_of_empty hd (fun b hb => ?_)
  rw [hhome b hb, hi.cache.clean b hb (by rw [hp]; exact List.not_mem_nil)]

theorem LogInv.commit_empty (ht : t < N) (hp : pt t = .commit)
    (hlh : g.lh = []) :
    LogInv N start d0 { g with durable := g.commits.length, returned := g.commits.length }
      (update pt t .doneLock) := by
  have hc : (pt t).committer = true := by rw [hp]; rfl
  have hr : Relies start d0 g t (pt t) := hi.dur.relies t
  rw [hp] at hr
  obtain ⟨hpins, hhead, -, -⟩ := hr
  have hnil : g.pins = [] := by
    refine List.eq_nil_iff_forall_not_mem.mpr (fun b hb => ?_)
    rw [hpins, hlh] at hb
    cases hb
  have hk := LogPt.like_of_committer hc (rfl : LogPt.committer (.doneLock) = true)
  refine hi.committed ht hc rfl rfl rfl rfl rfl rfl ?_
    (hi.durable_installed hc hnil hhead (fun _ _ => rfl)) ⟨le_refl _, le_refl _⟩
    ⟨⟨hlh, hnil, rfl⟩, hhead, rfl⟩
  exact (hi.cache.move (.inr hk.dirty) (fun b => (hk.mayDiffer b).mpr)).congr rfl rfl rfl rfl rfl

theorem LogInv.wlCopy {j : ℕ} (ht : t < N)
    (hp : pt t = .wlCopy j) :
    LogInv N start d0 (g.bwrite (start + j + 1) (g.buf (g.lh.getD j 0)).data)
      (update pt t (.wlRelseFrom j)) := by
  have hc : (pt t).committer = true := by rw [hp]; rfl
  have hr : Relies start d0 g t (pt t) := hi.dur.relies t
  rw [hp] at hr
  obtain ⟨⟨hpins, hhead, hdur, hret⟩, hj, hlog, hlock, hlock'⟩ := hr
  have hk := LogPt.like_of_committer hc (rfl : LogPt.committer (.wlRelseFrom j) = true)
  have hlen := hi.cache.lh_length
  have hhome : Home start (g.lh.getD j 0) := hi.cache.lh_home _ (getD_mem hj)
  have hnot : ¬ Home start (start + j + 1) := fun h => home_ne_log h (by omega) rfl
  have hdata : (g.buf (g.lh.getD j 0)).data = g.view d0 (g.lh.getD j 0) := by
    exact hi.cache.cached _ hhome (hi.cache.locked _ (by rw [hlock']; simp))
      (not_mayDiffer_of_lock hc hlock')
  have hhead' : (g.bwrite (start + j + 1) (g.buf (g.lh.getD j 0)).data).disk start =
      g.disk start := by
    rw [LogG.bwrite_disk, if_neg (by omega)]
  refine hi.committed ht hc rfl rfl rfl rfl rfl rfl (hi.cache.bwrite _ hnot hk.dirty hk.mayDiffer)
    ?_ ⟨hi.dur.returned_le, hi.dur.durable_le⟩ ⟨⟨hpins, ?_, hdur, hret⟩, hj, ?_, ?_, ?_⟩
  · refine durable_of_empty (by rw [hhead']; exact hhead) (fun b hb => ?_)
    rw [LogG.bwrite_disk, if_neg (home_ne_log hb (by omega))]
    exact hi.dur.durable.rest b hb (by rw [hhead]; exact List.not_mem_nil)
  · rw [hhead']
    exact hhead
  · intro i hij
    rw [LogG.bwrite_disk, LogG.bwrite_view, LogG.bwrite_lh]
    by_cases he : i = j
    · rw [if_pos (by omega), he]
      exact hdata
    · rw [if_neg (by omega)]
      exact hlog i (by omega)
  · rw [LogG.bwrite_buf, if_pos rfl]
    exact hlock
  · rw [LogG.bwrite_buf]
    split
    · exact hlock
    · exact hlock'

/-- The first `write_head`: the commit point. -/
theorem LogInv.headWrite_full (ht : t < N)
    (hp : pt t = .headWrite true) :
    LogInv N start d0 { g.bwrite start (writeHead (g.buf start).data g.lh) with
      durable := g.commits.length } (update pt t (.headRelse true)) := by
  have hc : (pt t).committer = true := by rw [hp]; rfl
  have hr : Relies start d0 g t (pt t) := hi.dur.relies t
  rw [hp] at hr
  obtain ⟨⟨hpins, hhead, hdur, hret⟩, hlog, hlock⟩ := hr
  have hk := LogPt.like_of_committer hc (rfl : LogPt.committer (.headRelse true) = true)
  have hcache := hi.cache.bwrite (writeHead (g.buf start).data g.lh)
    (fun h => home_ne_start h rfl) hk.dirty hk.mayDiffer
  have hread : readHead (writeHead (g.buf start).data g.lh) = g.lh :=
    readHead_writeHead _ hi.cache.lh_length (fun x hx => (hi.cache.lh_home x hx).1)
  have hhead' : readHead ((g.bwrite start (writeHead (g.buf start).data g.lh)).disk start) =
      g.lh := by
    rw [LogG.bwrite_disk, if_pos rfl, hread]
  have hlog' (i : ℕ) (h : i < g.lh.length) :
      (g.bwrite start (writeHead (g.buf start).data g.lh)).disk (start + i + 1) =
        g.view d0 (g.lh.getD i 0) := by
    rw [LogG.bwrite_disk, if_neg (by omega)]
    exact hlog i h
  refine hi.committed ht hc rfl rfl rfl rfl rfl rfl (hcache.congr rfl rfl rfl rfl rfl) ?_
    ⟨?_, le_refl _⟩ ⟨⟨hhead', rfl, hret, hlog'⟩, hpins, ?_⟩
  · show Durable start (g.bwrite start (writeHead (g.buf start).data g.lh)).disk
      (applyWrites d0 (g.commits.take g.commits.length).flatten)
    rw [← hi.view_eq hc]
    refine ⟨?_, ?_, ?_, ?_⟩ <;> rw [hhead']
    · exact hi.cache.lh_length
    · exact hi.cache.lh_home
    · exact hlog'
    · intro b hb hn
      rw [LogG.bwrite_disk, if_neg (home_ne_start hb)]
      exact hi.cache.clean b hb (fun h => hn ((hpins b).mp h))
  · show g.returned ≤ g.commits.length
    omega
  · show ((g.bwrite start (writeHead (g.buf start).data g.lh)).buf start).lock = some t
    rw [LogG.bwrite_buf, if_pos rfl]
    exact hlock

/-- The second `write_head`: the log is empty again. -/
theorem LogInv.headWrite_empty (ht : t < N)
    (hp : pt t = .headWrite false) :
    LogInv N start d0 { g.bwrite start (writeHead (g.buf start).data g.lh) with
      durable := g.commits.length } (update pt t (.headRelse false)) := by
  have hc : (pt t).committer = true := by rw [hp]; rfl
  have hr : Relies start d0 g t (pt t) := hi.dur.relies t
  rw [hp] at hr
  obtain ⟨⟨hlh, hpins, hdur⟩, hlock⟩ := hr
  have hk := LogPt.like_of_committer hc (rfl : LogPt.committer (.headRelse false) = true)
  have hcache := hi.cache.bwrite (writeHead (g.buf start).data g.lh)
    (fun h => home_ne_start h rfl) hk.dirty hk.mayDiffer
  have hhead' : readHead ((g.bwrite start (writeHead (g.buf start).data g.lh)).disk start) =
      [] := by
    rw [LogG.bwrite_disk, if_pos rfl, hlh]
    exact readHead_writeHead _ zero_le (by simp)
  refine hi.committed ht hc rfl rfl rfl rfl rfl rfl (hcache.congr rfl rfl rfl rfl rfl)
    (hi.durable_installed hc hpins hhead' ?_) ⟨?_, le_refl _⟩ ⟨⟨hlh, hpins, rfl⟩, hhead', ?_⟩
  · intro b hb
    exact (LogG.bwrite_disk _ _ _ _).trans (if_neg (home_ne_start hb))
  · exact hi.dur.returned_le.trans hi.dur.durable_le
  · show ((g.bwrite start (writeHead (g.buf start).data g.lh)).buf start).lock = some t
    rw [LogG.bwrite_buf, if_pos rfl]
    exact hlock

theorem LogInv.commit_return (ht : t < N)
    (hp : pt t = .headRelse false) :
    LogInv N start d0 { g.brelse start with returned := g.commits.length }
      (update pt t .doneLock) := by
  have hc : (pt t).committer = true := by rw [hp]; rfl
  have hr : Relies start d0 g t (pt t) := hi.dur.relies t
  rw [hp] at hr
  obtain ⟨⟨hlh, hpins, hdur⟩, hhead, hlock⟩ := hr
  have hk := LogPt.like_of_committer hc (rfl : LogPt.committer (.doneLock) = true)
  have hcache := hi.cache.brelse hlock ((LogPt.committer_plain hc).2.2.2 _) hk.dirty hk.mayDiffer
  exact hi.committed ht hc rfl rfl rfl rfl rfl rfl (hcache.congr rfl rfl rfl rfl rfl)
    hi.dur.durable ⟨hdur.ge, hi.dur.durable_le⟩ ⟨⟨hlh, hpins, hdur⟩, hhead, rfl⟩

theorem LogInv.itCopy {j : ℕ} (ht : t < N)
    (hp : pt t = .itCopy j) :
    LogInv N start d0
      ((g.bwrite (g.lh.getD j 0) (g.buf (start + j + 1)).data).bunpin (g.lh.getD j 0))
      (update pt t (.itRelseLog j)) := by
  have hc : (pt t).committer = true := by rw [hp]; rfl
  have hr : Relies start d0 g t (pt t) := hi.dur.relies t
  rw [hp] at hr
  obtain ⟨⟨hhead, hdur, hret, hlog⟩, hj, hun, hlock, hlock'⟩ := hr
  have hk := LogPt.like_of_committer hc (rfl : LogPt.committer (.itRelseLog j) = true)
  have hlen := hi.cache.lh_length
  have hmem := getD_mem hj
  have hhome : Home start (g.lh.getD j 0) := hi.cache.lh_home _ hmem
  have hpin : g.lh.getD j 0 ∈ g.pins := by
    rw [hun, List.drop_eq_getElem_cons hj, List.getD_eq_getElem _ 0 hj]
    exact List.mem_cons_self
  have hdisk : (g.buf (start + j + 1)).data = g.disk (start + j + 1) :=
    hi.cache.logArea _ (fun h => home_ne_log h (by omega) rfl)
      (hi.cache.locked _ (by rw [hlock]; simp)) (not_mayDiffer_of_lock hc hlock)
  have hdata : (g.buf (start + j + 1)).data = g.view d0 (g.lh.getD j 0) := hdisk.trans (hlog j hj)
  have hd' (x : ℕ) (hx : x ≠ g.lh.getD j 0) :
      ((g.bwrite (g.lh.getD j 0) (g.buf (start + j + 1)).data).bunpin (g.lh.getD j 0)).disk x =
        g.disk x := by
    rw [LogG.bunpin_disk, LogG.bwrite_disk, if_neg hx]
  refine hi.committed ht hc rfl rfl rfl rfl rfl rfl
    (hi.cache.install hpin hlock' hdata hk.dirty hk.mayDiffer) ?_
    ⟨hi.dur.returned_le, hi.dur.durable_le⟩ ⟨⟨?_, hdur, hret, ?_⟩, hj, ?_, ?_, ?_⟩
  · have h := hi.dur.durable.install (i := j) (by rw [hhead]; exact hj)
    rw [hhead, ← hdisk] at h
    exact h
  · rw [hd' _ (home_ne_start hhome).symm]
    exact hhead
  · intro i hin
    rw [hd' _ (home_ne_log hhome (lt_of_lt_of_le hin hlen)).symm]
    exact hlog i hin
  · intro b
    have hnd := hi.cache.lh_nodup
    rw [LogG.bunpin_pins, LogG.bwrite_pins, hi.cache.pins_nodup.mem_erase_iff, hun,
      List.drop_eq_getElem_cons hj, List.getD_eq_getElem _ 0 hj, List.mem_cons]
    have hnot : g.lh[j] ∉ g.lh.drop (j + 1) := by
      have := hnd.sublist (List.drop_sublist j g.lh)
      rw [List.drop_eq_getElem_cons hj] at this
      exact (List.nodup_cons.mp this).1
    constructor
    · rintro ⟨hne, h | h⟩
      · exact absurd h hne
      · exact h
    · intro h
      exact ⟨fun he => hnot (he ▸ h), .inr h⟩
  · rw [LogG.bunpin_buf, LogG.bwrite_buf, LogG.bwrite_buf,
      if_neg (home_ne_log hhome (by omega)).symm, if_neg (home_ne_log hhome (by omega)).symm]
    exact hlock
  · show (((g.bwrite (g.lh.getD j 0) (g.buf (start + j + 1)).data).bunpin
      (g.lh.getD j 0)).buf (g.lh.getD j 0)).lock = some t
    rw [LogG.bunpin_buf, if_pos rfl, LogG.bwrite_buf, if_pos rfl]
    exact hlock'

theorem LogInv.clear (ht : t < N) (hp : pt t = .clear) :
    LogInv N start d0 { g with lh := [] } (update pt t (.headRead false)) := by
  have hc : (pt t).committer = true := by rw [hp]; rfl
  have hr : Relies start d0 g t (pt t) := hi.dur.relies t
  rw [hp] at hr
  obtain ⟨⟨hhead, hdur, hret, hlog⟩, hpins⟩ := hr
  have hk := LogPt.like_of_committer hc (rfl : LogPt.committer (.headRead false) = true)
  exact hi.committed ht hc rfl rfl rfl rfl rfl rfl (hi.cache.clear hpins hk.dirty hk.mayDiffer)
    hi.dur.durable ⟨hi.dur.returned_le, hi.dur.durable_le⟩ ⟨rfl, hpins, hdur⟩

end

end Commit

end Xv6
