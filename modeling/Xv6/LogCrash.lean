import Xv6.LogCommit

/-! Crash atomicity of the log: whatever the interleaving and the crashes, also of the recovery, the
home blocks end up as some prefix of the commits left them. -/
namespace Xv6

/-- Where every process is in log.c. -/
def LogKern.points (s : LogKern) : ℕ → LogPt := fun q => (s.pc q).point

theorem points_setPc (s : LogKern) (t : ℕ) (p : Pc Unit LogPt) :
    LogKern.points (s.setPc t p) = update s.points t p.point := by
  funext u
  simp only [LogKern.points, Kern.setPc_pc, update_apply]
  split <;> rfl

variable {N start t : ℕ} {d0 : Disk} {s s' : LogKern} {g : LogG} {k : LogPt}

/-- The invariant, of a state. -/
def LogKern.Inv (N start : ℕ) (d0 : Disk) (s : LogKern) : Prop := LogInv N start d0 s.g s.points

theorem inv_setPc {p : Pc Unit LogPt} (h : LogInv N start d0 s.g (update s.points t p.point)) :
    LogKern.Inv N start d0 (s.setPc t p) := by
  rw [LogKern.Inv, points_setPc]
  exact h

theorem inv_goto (h : LogInv N start d0 g (update s.points t k)) :
    LogKern.Inv N start d0 (s.goto g t k) :=
  inv_setPc h

theorem commitStep_inv (hi : s.Inv N start d0) (ht : t < N)
    (hp : s.points t = k) (h : commitStep start s t k = some s') :
    s'.Inv N start d0 := by
  have hc : k.committer = true := by
    cases k <;> first | rfl | cases h
  have hct : (s.points t).committer = true := by rw [hp]; exact hc
  have hclean (b : ℕ) : ¬ (s.points t).mayDiffer b := (LogPt.committer_plain hct).2.2.2 b
  have hlike {k' : LogPt} (h : k'.committer = true) := LogPt.like_of_committer hct h
  have hr : Relies start d0 s.g t k := hp ▸ hi.dur.relies t
  cases k with
  | commit =>
    simp only [commitStep] at h
    split_ifs at h with hlh
    · obtain rfl := Option.some.inj h
      exact inv_goto (hi.commit_empty ht hp hlh)
    · obtain rfl := Option.some.inj h
      exact inv_goto (hi.move ht (hlike rfl)
        ⟨hr, zero_le, fun i h => absurd h (Nat.not_lt_zero i)⟩)
  | wlTo j =>
    obtain ⟨hpre, hj, hlog⟩ := hr
    simp only [commitStep] at h
    split_ifs at h with hlt hl
    · obtain rfl := Option.some.inj h
      exact inv_goto (hi.bread ht (hlike rfl) hl ⟨hpre, hlt, hlog, LogG.bread_lock _ _ _⟩)
    · obtain rfl := Option.some.inj h
      obtain rfl : j = s.g.lh.length := by omega
      exact inv_goto (hi.move ht (hlike rfl) ⟨hpre, hlog⟩)
  | wlFrom j =>
    obtain ⟨hpre, hj, hlog, hlk⟩ := hr
    simp only [commitStep, Option.ite_none_right_eq_some] at h
    obtain ⟨hl, h⟩ := h
    obtain rfl := Option.some.inj h
    refine inv_goto (hi.bread ht (hlike rfl) hl ⟨hpre, hj, hlog, ?_, LogG.bread_lock _ _ _⟩)
    have hne : start + j + 1 ≠ s.g.lh.getD j 0 := by
      intro he
      rw [he, hl] at hlk
      cases hlk
    exact (LogG.bread_lock_of_ne _ _ _ _ hne).trans hlk
  | wlCopy j =>
    obtain rfl := Option.some.inj h
    exact inv_goto (hi.wlCopy ht hp)
  | wlRelseFrom j =>
    obtain ⟨hpre, hj, hlog, hlk, hlk'⟩ := hr
    obtain rfl := Option.some.inj h
    refine inv_goto (hi.brelse ht (hlike rfl) hlk' (hclean _) ⟨hpre, hj, hlog, ?_⟩)
    have hne := home_ne_log (hi.cache.lh_home _ (getD_mem hj)) (lt_of_lt_of_le hj hi.cache.lh_length)
    exact (LogG.brelse_lock_of_ne _ _ _ hne.symm).trans hlk
  | wlRelseTo j =>
    obtain ⟨hpre, hj, hlog, hlk⟩ := hr
    obtain rfl := Option.some.inj h
    exact inv_goto (hi.brelse ht (hlike rfl) hlk (hclean _) ⟨hpre, hj, hlog⟩)
  | headRead full =>
    simp only [commitStep, Option.ite_none_right_eq_some] at h
    obtain ⟨hl, h⟩ := h
    obtain rfl := Option.some.inj h
    cases full with
    | true =>
      obtain ⟨hpre, hlog⟩ := hr
      exact inv_goto (hi.bread ht (hlike rfl) hl ⟨hpre, hlog, LogG.bread_lock _ _ _⟩)
    | false => exact inv_goto (hi.bread ht (hlike rfl) hl ⟨hr, LogG.bread_lock _ _ _⟩)
  | headWrite full =>
    obtain rfl := Option.some.inj h
    cases full with
    | true => exact inv_goto (hi.headWrite_full ht hp)
    | false => exact inv_goto (hi.headWrite_empty ht hp)
  | headRelse full =>
    cases full with
    | true =>
      obtain ⟨hpost, hun, hlk⟩ := hr
      obtain rfl := Option.some.inj h
      exact inv_goto (hi.brelse ht (hlike rfl) hlk (hclean _) ⟨hpost, zero_le, hun⟩)
    | false =>
      obtain rfl := Option.some.inj h
      exact inv_goto (hi.commit_return ht hp)
  | itLog j =>
    obtain ⟨hpost, hj, hun⟩ := hr
    simp only [commitStep] at h
    split_ifs at h with hlt hl
    · obtain rfl := Option.some.inj h
      exact inv_goto (hi.bread ht (hlike rfl) hl ⟨hpost, hlt, hun, LogG.bread_lock _ _ _⟩)
    · obtain rfl := Option.some.inj h
      refine inv_goto (hi.move ht (hlike rfl) ⟨hpost, ?_⟩)
      refine List.eq_nil_iff_forall_not_mem.mpr (fun b hb => ?_)
      rw [hun b, List.drop_eq_nil_of_le (by omega)] at hb
      cases hb
  | itDst j =>
    obtain ⟨hpost, hj, hun, hlk⟩ := hr
    simp only [commitStep, Option.ite_none_right_eq_some] at h
    obtain ⟨hl, h⟩ := h
    obtain rfl := Option.some.inj h
    refine inv_goto (hi.bread ht (hlike rfl) hl ⟨hpost, hj, hun, ?_, LogG.bread_lock _ _ _⟩)
    have hne : start + j + 1 ≠ s.g.lh.getD j 0 := by
      intro he
      rw [he, hl] at hlk
      cases hlk
    exact (LogG.bread_lock_of_ne _ _ _ _ hne).trans hlk
  | itCopy j =>
    obtain rfl := Option.some.inj h
    exact inv_goto (hi.itCopy ht hp)
  | itRelseLog j =>
    obtain ⟨hpost, hj, hun, hlk, hlk'⟩ := hr
    obtain rfl := Option.some.inj h
    refine inv_goto (hi.brelse ht (hlike rfl) hlk (hclean _) ⟨hpost, hj, hun, ?_⟩)
    have hne := home_ne_log (hi.cache.lh_home _ (getD_mem hj)) (lt_of_lt_of_le hj hi.cache.lh_length)
    exact (LogG.brelse_lock_of_ne _ _ _ hne).trans hlk'
  | itRelseDst j =>
    obtain ⟨hpost, hj, hun, hlk⟩ := hr
    obtain rfl := Option.some.inj h
    exact inv_goto (hi.brelse ht (hlike rfl) hlk (hclean _) ⟨hpost, hj, hun⟩)
  | clear =>
    obtain rfl := Option.some.inj h
    exact inv_goto (hi.clear ht hp)
  | _ => cases h

/-- In no operation, no commit and no panic. -/
def LogPt.plain : LogPt → Bool
  | .user | .beginLock | .beginLoop | .endRelease false | .doneRelease => true
  | _ => false

theorem LogPt.like_of_plain {k k' : LogPt} (h : k.plain = true) (h' : k'.plain = true) :
    k.Like k' := by
  have hk {k : LogPt} (h : k.plain = true) : k.active = false ∧ k.committer = false ∧
      k.op = none ∧ k.dirty = [] ∧ ∀ b, ¬ k.mayDiffer b := by
    cases k with
    | endRelease b => cases b <;> simp_all [plain, active, committer, op, dirty, mayDiffer]
    | _ => simp_all [plain, active, committer, op, dirty, mayDiffer]
  obtain ⟨ha, hc, ho, hd, hm⟩ := hk h
  obtain ⟨ha', hc', ho', hd', hm'⟩ := hk h'
  exact ⟨by rw [ha, ha'], by rw [hc, hc'], by rw [ho, ho'], by rw [hd, hd'],
    fun b => iff_of_false (hm' b) (hm b)⟩

theorem logGo_inv (hi : s.Inv N start d0) (ht : t < N) (hp : s.points t = k)
    (h : logGo start s t k = some s') : s'.Inv N start d0 := by
  have hlike {k' : LogPt} (h : k.Like k') : (s.points t).Like k' := by rw [hp]; exact h
  cases k with
  | beginLock =>
    simp only [logGo, ite_some_iff] at h
    obtain ⟨_, rfl⟩ := h
    exact inv_setPc (hi.move ht (hlike (LogPt.like_of_plain rfl rfl)) trivial)
  | beginLoop =>
    simp only [logGo] at h
    split_ifs at h with hwait
    · obtain rfl := Option.some.inj h
      exact inv_setPc (hi.move ht (hlike (LogPt.like_refl _)) trivial)
    · obtain rfl := Option.some.inj h
      have hb : s.g.committing = false := by
        simp only [not_or, Bool.not_eq_true] at hwait
        exact hwait.1
      exact inv_goto (hi.begin ht hp hb)
  | endLock =>
    simp only [logGo, ite_some_iff] at h
    obtain ⟨_, rfl⟩ := h
    refine inv_setPc (hi.leave ht (by rw [hp]; rfl) (by rw [hp]; rfl) rfl rfl rfl ?_)
    simp [hp, LogPt.mayDiffer, LogPt.dirty]
  | endBody =>
    -- an operation that is going on excludes a commit, so the first panic is not reached
    have hb : s.g.committing = false := LogInv.not_committing hi (t := t) (by rw [hp]; rfl)
    simp only [logGo] at h
    split_ifs at h with hb' ho
    · rw [hb] at hb'
      cases hb'
    · obtain rfl := Option.some.inj h
      exact inv_goto (hi.endOp_last ht hp ho)
    · obtain rfl := Option.some.inj h
      exact inv_setPc (hi.endOp ht hp)
  | endRelease doCommit =>
    obtain rfl := Option.some.inj h
    cases doCommit with
    | true =>
      have hr : Relies start d0 s.g t (.endRelease true) := hp ▸ hi.dur.relies t
      exact inv_setPc (hi.move ht (hlike (LogPt.like_of_committer rfl rfl)) hr)
    | false =>
      exact inv_setPc (hi.move ht (hlike (LogPt.like_of_plain rfl rfl)) trivial)
  | doneLock =>
    simp only [logGo, ite_some_iff] at h
    obtain ⟨_, rfl⟩ := h
    have hr : Relies start d0 s.g t .doneLock := hp ▸ hi.dur.relies t
    exact inv_setPc (hi.move ht (hlike (LogPt.like_of_committer rfl rfl)) hr)
  | doneBody =>
    obtain rfl := Option.some.inj h
    exact inv_setPc (hi.endOp_done ht hp)
  | doneRelease =>
    obtain rfl := Option.some.inj h
    exact inv_setPc (hi.move ht (hlike (LogPt.like_of_plain rfl rfl)) trivial)
  | _ => exact commitStep_inv hi ht hp h

/-- The condition on a step: only home blocks are logged. -/
def LogsHome (start : ℕ) : Event LogAct → Prop
  | .client _ (.logWrite b) => Home start b
  | _ => True

theorem logStep_inv {a : LogAct} (hi : s.Inv N start d0) (ht : t < N) (hp : s.points t = k)
    (hh : LogsHome start (.client t a)) (h : logStep start s t k a = some s') :
    s'.Inv N start d0 := by
  have hlike : (s.points t).Like k := by rw [hp]; exact LogPt.like_refl k
  cases a with
  | recycle b =>
    have h : (if (s.g.buf b).refcnt = 0 then some (s.goto (s.g.recycle b) t k) else none) =
        some s' := by
      cases k <;> exact h
    simp only [ite_some_iff] at h
    obtain ⟨hr, rfl⟩ := h
    refine inv_goto ?_
    rw [← hp, update_eq_self]
    exact LogInv.recycle hi ht hr
  | go =>
    have h : logGo start s t k = some s' := by
      cases k <;> exact h
    exact logGo_inv hi ht hp h
  | beginOp =>
    cases k with
    | user =>
      obtain rfl := Option.some.inj h
      exact inv_setPc (hi.move ht (hp ▸ LogPt.like_of_plain rfl rfl) trivial)
    | _ => cases h
  | bread b =>
    cases k with
    | user | inOp op dirty =>
      simp only [logStep, ite_some_iff] at h
      obtain ⟨hl, rfl⟩ := h
      exact inv_goto (hi.bread ht hlike hl trivial)
    | _ => cases h
  | modify b data =>
    cases k with
    | inOp op dirty =>
      simp only [logStep, ite_some_iff] at h
      obtain ⟨hl, rfl⟩ := h
      exact inv_goto (hi.modify ht hp hl)
    | _ => cases h
  | logWrite b =>
    cases k with
    | inOp op dirty =>
      simp only [logStep, Option.ite_none_right_eq_some] at h
      obtain ⟨⟨_, hl⟩, h⟩ := h
      split_ifs at h with hlen hout
      · obtain rfl := Option.some.inj h
        refine inv_goto (hi.leave ht (by rw [hp]; rfl) (by rw [hp]; rfl) rfl rfl rfl ?_)
        simp [LogPt.mayDiffer]
      · obtain rfl := Option.some.inj h
        refine inv_goto (hi.leave ht (by rw [hp]; rfl) (by rw [hp]; rfl) rfl rfl rfl ?_)
        simp [LogPt.mayDiffer]
      · obtain rfl := Option.some.inj h
        exact inv_goto (hi.logWrite ht hp hl hh (by omega))
    | _ => cases h
  | brelse b =>
    cases k with
    | user =>
      simp only [logStep, ite_some_iff] at h
      obtain ⟨hl, rfl⟩ := h
      exact inv_goto (hi.brelse ht hlike hl (by simp [hp, LogPt.mayDiffer, LogPt.dirty]) trivial)
    | inOp op dirty =>
      simp only [logStep, ite_some_iff] at h
      obtain ⟨⟨hl, hd⟩, rfl⟩ := h
      exact inv_goto (hi.brelse ht hlike hl (by simp [hp, LogPt.mayDiffer, LogPt.dirty, hd]) trivial)
    | _ => cases h
  | endOp =>
    cases k with
    | inOp op dirty =>
      cases dirty with
      | nil =>
        obtain rfl := Option.some.inj h
        refine inv_setPc (hi.leave ht (by rw [hp]; rfl) (by rw [hp]; rfl) rfl rfl rfl ?_)
        simp [hp, LogPt.mayDiffer, LogPt.dirty]
      | cons b bs => cases h
    | _ => cases h

theorem log_step_inv (s : LogKern) (e : Event LogAct) (s' : LogKern) (hh : LogsHome start e)
    (h : kernStep N (logClient start) s e = some s') (hi : s.Inv N start d0) :
    s'.Inv N start d0 := by
  rcases kernStep_cases h with ⟨t, k, a, rfl, ht, hpc, hs⟩ | ⟨_, hg, hpc⟩
  · exact logStep_inv hi ht (by rw [LogKern.points, hpc]; rfl) hh hs
  · have hpt : s'.points = s.points := by
      funext u
      rcases hpc u with h | h
      · rw [LogKern.points, LogKern.points, h]
      · exact h.point_eq
    rw [LogKern.Inv, hg, hpt]
    exact hi

theorem logInit_inv (hd : readHead (d0 start) = []) : (logInit d0).Inv N start d0 := by
  refine ⟨⟨?_, ?_, ?_, ?_, ?_⟩, ⟨?_, ?_, ?_, ?_, ?_⟩, ⟨?_, ?_, ?_, ?_, ?_, ?_, ?_, ?_, ?_, ?_, ?_, ?_⟩,
    ⟨durable_of_empty hd (fun _ _ => rfl), le_refl _, le_refl _, ?_, fun _ => trivial⟩⟩ <;>
    simp [logInit, LogKern.points, Pc.point, LogPt.active, LogPt.committer, LogPt.op, LogPt.dirty,
      LogG.view, applyWrites, hd]

/-- Crash atomicity. Stop a run on a disk whose header has `n = 0` at any point, start
`recover_from_log`, and cut it off as often as you like: once it has finished (and left
alone it does), the home blocks are the original ones with the writes of the first `k`
commits applied. Every `commit()` that had returned is among them, and no operation has
writes both among them and outside. -/
theorem log_crash_atomic (hd : word (d0 start) 0 = 0) {es : List (Event LogAct)}
    (hh : ∀ e ∈ es, LogsHome start e)
    (h : exec (kernStep N (logClient start)) (logInit d0) es = some s) :
    ∃ k, s.g.returned ≤ k ∧ k ≤ s.g.commits.length ∧
      (∀ op, (∀ w ∈ (s.g.commits.take k).flatten, w.op ≠ op) ∨
        ∀ w ∈ (s.g.commits.drop k).flatten ++ s.g.current, w.op ≠ op) ∧
      ∀ rs r, exec (recoverStep start) (reboot s.g.disk) rs = some r →
        (∃ n r', exec (recoverStep start) r (List.replicate n .go) = some r' ∧ r'.pt = .done) ∧
        (r.pt = .done →
          ∀ b, Home start b → r.disk b = applyWrites d0 (s.g.commits.take k).flatten b) := by
  have hhead : readHead (d0 start) = [] := by simp [readHead, hd]
  have hi : s.Inv N start d0 :=
    exec_invariant_along log_step_inv (along_of_forall hh) h (logInit_inv hhead)
  refine ⟨s.g.durable, hi.dur.returned_le, hi.dur.durable_le, ?_, ?_⟩
  · intro op
    by_cases hop : ∀ w ∈ (s.g.commits.take s.g.durable).flatten, w.op ≠ op
    · exact .inl hop
    · right
      push Not at hop
      obtain ⟨w, hw, rfl⟩ := hop
      intro v hv
      obtain ⟨c, hc, hwc⟩ := List.mem_flatten.mp hw
      rcases List.mem_append.mp hv with hv | hv
      · obtain ⟨d, hd, hvd⟩ := List.mem_flatten.mp hv
        have hsep := hi.ops.separate
        rw [← List.take_append_drop s.g.durable s.g.commits, List.pairwise_append] at hsep
        exact (hsep.2.2 c hc d hd w hwc v hvd).symm
      · exact hi.ops.current v hv w
          (List.mem_flatten.mpr ⟨c, List.mem_of_mem_take hc, hwc⟩)
  · intro rs r hr
    exact ⟨recover_finishes start r, recover_done hi.dur.durable hr⟩

/-- One operation that logs block 40, on a log at block 2, up to the write of the header. -/
def oneOperation (data : Block) : List (Event LogAct) :=
  [.client 0 .beginOp, .client 0 .go, .client 0 .go, .client 0 (.bread 40),
    .client 0 (.modify 40 data), .client 0 (.logWrite 40), .client 0 (.brelse 40),
    .client 0 .endOp] ++ List.replicate 12 (.client 0 .go)

theorem log_crash_atomic_one_operation :
    ∃ s, exec (kernStep 1 (logClient 2)) (logInit (fun _ => 0)) (oneOperation 1) = some s ∧
      s.g.commits.length = 1 ∧ s.g.durable = 1 ∧
      ∃ k, s.g.returned ≤ k ∧ k ≤ s.g.commits.length ∧
      (∀ op, (∀ w ∈ (s.g.commits.take k).flatten, w.op ≠ op) ∨
        ∀ w ∈ (s.g.commits.drop k).flatten ++ s.g.current, w.op ≠ op) ∧
      ∀ rs r, exec (recoverStep 2) (reboot s.g.disk) rs = some r →
        (∃ n r', exec (recoverStep 2) r (List.replicate n .go) = some r' ∧ r'.pt = .done) ∧
        (r.pt = .done → ∀ b, Home 2 b →
          r.disk b = applyWrites (fun _ => 0) (s.g.commits.take k).flatten b) := by
  obtain ⟨s, hs, hc, hd⟩ : ∃ s, exec (kernStep 1 (logClient 2)) (logInit (fun _ => 0))
      (oneOperation 1) = some s ∧ s.g.commits.length = 1 ∧ s.g.durable = 1 :=
    ⟨_, rfl, rfl, rfl⟩
  refine ⟨s, hs, hc, hd, log_crash_atomic (by simp [word, getField]) ?_ hs⟩
  simp [oneOperation, LogsHome, Home, LOGBLOCKS, MAXOPBLOCKS]

end Xv6
