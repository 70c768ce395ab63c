import Xv6.LogCrash
import Xv6.ProcMonitor

/-! The reservation of log space. `begin_op` admits an operation when the log has room for all that
it may log; what it has logged comes out of its own reservation. Here are what a step of log.c does
to the control data, the budget as an invariant, and who sleeps in `begin_op`. -/
namespace Xv6

/-- The distinct blocks that the operation `op` has logged. -/
def LogG.opBlocks (g : LogG) (op : ℕ) : Finset ℕ :=
  ((g.current.filter (fun w => w.op = op)).map LogWrite.blockno).toFinset

/-- Why `begin_op` waits. -/
def LogG.busy (g : LogG) : Prop :=
  g.committing = true ∨
    (g.lh.length : ℤ) + (g.outstanding + 1) * (MAXOPBLOCKS : ℕ) > (LOGBLOCKS : ℕ)

section Change

/-- The points at which `log.lock` is held. -/
def LogPt.locked : LogPt → Bool
  | .beginLoop | .endBody | .endRelease _ | .doneBody | .doneRelease => true
  | _ => false

/-- The part of `struct log` that the reservation is about is the same. -/
structure SameSpace (g g' : LogG) : Prop where
  lh : g'.lh = g.lh
  outstanding : g'.outstanding = g.outstanding
  committing : g'.committing = g.committing
  ops : g'.ops = g.ops
  current : g'.current = g.current

theorem sameSpace_setBuf (g : LogG) (b : ℕ) (x : Buf) : SameSpace g (g.setBuf b x) :=
  ⟨rfl, rfl, rfl, rfl, rfl⟩

/-- Two points in the same stage of an operation or of a commit. -/
structure LogPt.Stage (k k' : LogPt) : Prop where
  active : k'.active = k.active
  committer : k'.committer = k.committer
  op : k'.op = none ∨ k'.op = k.op
  panic : ∀ why, k' ≠ .panic why

/-- What a step of process `t` at the point `k` can do, with the place `p` it goes to. -/
inductive LogChange (s : LogKern) (t : ℕ) (k : LogPt) (a : LogAct) (s' : LogKern) : Pc Unit LogPt → Prop where
  /-- a step that does not touch the buffers' place in the log, at the same point -/
  | stay : SameSpace s.g s'.g → s'.lk = s.lk → LogChange s t k a s' (.run k)
  | move (k' : LogPt) : k.Stage k' → k.locked = false → k'.locked = false →
      SameSpace s.g s'.g → s'.lk = s.lk → LogChange s t k a s' (.run k')
  | acquire (k' : LogPt) : k.Stage k' → k.locked = false → k'.locked = true →
      SameSpace s.g s'.g → s.lk = none → s'.lk = some t → LogChange s t k a s' (.run k')
  | release (k' : LogPt) : k.Stage k' → k.locked = true → k'.locked = false →
      SameSpace s.g s'.g → s'.lk = none → LogChange s t k a s' (.run k')
  | wait : k = .beginLoop → s.g.busy → SameSpace s.g s'.g → s'.lk = s.lk →
      LogChange s t k a s' (.sleepLock () .beginLoop)
  | begin : k = .beginLoop → ¬ s.g.busy →
      s'.g = { s.g with outstanding := s.g.outstanding + 1, ops := s.g.ops + 1 } → s'.lk = none →
      LogChange s t k a s' (.run (.inOp s.g.ops []))
  | write (op b : ℕ) (dirty dirty' : List ℕ) : k = .inOp op dirty → a = .logWrite b → s.lk = none → s'.lk = none →
      s'.g = s.g.logWrite op b → LogChange s t k a s' (.run (.inOp op dirty'))
  | tooBig (op b : ℕ) (dirty : List ℕ) : k = .inOp op dirty → a = .logWrite b → LOGBLOCKS ≤ s.g.lh.length →
      SameSpace s.g s'.g → s'.lk = s.lk →
      LogChange s t k a s' (.run (.panic .tooBigTransaction))
  | outside (op : ℕ) (dirty : List ℕ) : k = .inOp op dirty → s.g.outstanding < 1 →
      SameSpace s.g s'.g → s'.lk = s.lk → LogChange s t k a s' (.run (.panic .outsideOfTrans))
  | finish : k = .endBody → s.g.outstanding - 1 ≠ 0 →
      s'.g = { s.g with outstanding := s.g.outstanding - 1 } → s'.lk = s.lk →
      LogChange s t k a s' (.wakeup () 0 (.endRelease false))
  | finishLast : k = .endBody → s.g.outstanding - 1 = 0 →
      s'.g = { s.g with
        outstanding := s.g.outstanding - 1
        committing := true
        commits := s.g.commits ++ [s.g.current]
        current := [] } → s'.lk = s.lk → LogChange s t k a s' (.run (.endRelease true))
  | finishPanic : k = .endBody → s.g.committing = true →
      LogChange s t k a s' (.run (.panic .logCommitting))
  | clear : k = .clear → s'.g = { s.g with lh := [] } → s'.lk = s.lk →
      LogChange s t k a s' (.run (.headRead false))
  | done : k = .doneBody → s'.g = { s.g with committing := false } → s'.lk = s.lk →
      LogChange s t k a s' (.wakeup () 0 .doneRelease)

variable {start t : ℕ} {s s' : LogKern} {k : LogPt} {a : LogAct}

/-- A step changes no process and no `p->lock`, and moves process `t` to `p`. -/
structure LogStepTo (s : LogKern) (t : ℕ) (k : LogPt) (a : LogAct) (s' : LogKern)
    (p : Pc Unit LogPt) : Prop where
  proc : s'.proc = s.proc
  plock : s'.plock = s.plock
  pc : s'.pc = update s.pc t p
  change : LogChange s t k a s' p

theorem logStepTo_goto {g : LogG} {k' : LogPt} (h : LogChange s t k a (s.goto g t k') (.run k')) :
    LogStepTo s t k a (s.goto g t k') (.run k') :=
  ⟨rfl, rfl, rfl, h⟩

theorem stage_of_committer {k' : LogPt} (h : k.committer = true) (h' : k'.committer = true) :
    k.Stage k' := by
  obtain ⟨ha, _, ho, _⟩ := LogPt.like_of_committer h h'
  refine ⟨ha, by rw [h, h'], .inr ho, ?_⟩
  rintro why rfl
  cases h'

theorem stage_of_plain {k' : LogPt} (h : k.plain = true) (h' : k'.plain = true) : k.Stage k' := by
  obtain ⟨ha, hc, ho, _⟩ := LogPt.like_of_plain h h'
  refine ⟨ha, hc, .inr ho, ?_⟩
  rintro why rfl
  cases h'

theorem commit_move {g : LogG} {k' : LogPt} (hk : k.committer = true) (hk' : k'.committer = true)
    (hl : k.locked = false) (hl' : k'.locked = false) (hg : SameSpace s.g g) :
    LogStepTo s t k a (s.goto g t k') (.run k') :=
  logStepTo_goto (.move k' (stage_of_committer hk hk') hl hl' hg rfl)

theorem commitStep_change (start : ℕ) (h : commitStep start s t k = some s') :
    ∃ p, LogStepTo s t k a s' p := by
  have hsame : SameSpace s.g s.g := ⟨rfl, rfl, rfl, rfl, rfl⟩
  cases k with
  | commit | wlTo | itLog =>
    simp only [commitStep] at h
    split_ifs at h <;>
      (obtain rfl := Option.some.inj h; exact ⟨_, commit_move rfl rfl rfl rfl ⟨rfl, rfl, rfl, rfl, rfl⟩⟩)
  | wlFrom | headRead | itDst =>
    simp only [commitStep, ite_some_iff] at h
    obtain ⟨_, rfl⟩ := h
    exact ⟨_, commit_move rfl rfl rfl rfl ⟨rfl, rfl, rfl, rfl, rfl⟩⟩
  | wlCopy | wlRelseFrom | wlRelseTo | headWrite | itCopy | itRelseLog | itRelseDst =>
    obtain rfl := Option.some.inj h
    exact ⟨_, commit_move rfl rfl rfl rfl ⟨rfl, rfl, rfl, rfl, rfl⟩⟩
  | headRelse full =>
    cases full <;>
      (obtain rfl := Option.some.inj h; exact ⟨_, commit_move rfl rfl rfl rfl ⟨rfl, rfl, rfl, rfl, rfl⟩⟩)
  | clear =>
    obtain rfl := Option.some.inj h
    exact ⟨_, logStepTo_goto (.clear rfl rfl rfl)⟩
  | _ => cases h

theorem logGo_change (h : logGo start s t k = some s') : ∃ p, LogStepTo s t k a s' p := by
  have hsame : SameSpace s.g s.g := ⟨rfl, rfl, rfl, rfl, rfl⟩
  cases k with
  | beginLock =>
    simp only [logGo, ite_some_iff] at h
    obtain ⟨hlk, rfl⟩ := h
    exact ⟨_, rfl, rfl, rfl, .acquire _ (stage_of_plain rfl rfl) rfl rfl hsame hlk rfl⟩
  | beginLoop =>
    simp only [logGo] at h
    split_ifs at h with hwait
    · obtain rfl := Option.some.inj h
      exact ⟨_, rfl, rfl, rfl, .wait rfl hwait hsame rfl⟩
    · obtain rfl := Option.some.inj h
      exact ⟨_, rfl, rfl, rfl, .begin rfl hwait rfl rfl⟩
  | endLock =>
    simp only [logGo, ite_some_iff] at h
    obtain ⟨hlk, rfl⟩ := h
    exact ⟨_, rfl, rfl, rfl, .acquire _ ⟨rfl, rfl, .inl rfl, by simp⟩ rfl rfl hsame hlk rfl⟩
  | endBody =>
    simp only [logGo] at h
    split_ifs at h with hb ho
    · obtain rfl := Option.some.inj h
      exact ⟨_, rfl, rfl, rfl, .finishPanic rfl hb⟩
    · obtain rfl := Option.some.inj h
      exact ⟨_, rfl, rfl, rfl, .finishLast rfl ho rfl rfl⟩
    · obtain rfl := Option.some.inj h
      exact ⟨_, rfl, rfl, rfl, .finish rfl ho rfl rfl⟩
  | endRelease doCommit =>
    obtain rfl := Option.some.inj h
    cases doCommit with
    | true =>
      exact ⟨_, rfl, rfl, rfl, .release _ (stage_of_committer rfl rfl) rfl rfl hsame rfl⟩
    | false =>
      exact ⟨_, rfl, rfl, rfl, .release _ (stage_of_plain rfl rfl) rfl rfl hsame rfl⟩
  | doneLock =>
    simp only [logGo, ite_some_iff] at h
    obtain ⟨hlk, rfl⟩ := h
    exact ⟨_, rfl, rfl, rfl, .acquire _ (stage_of_committer rfl rfl) rfl rfl hsame hlk rfl⟩
  | doneBody =>
    obtain rfl := Option.some.inj h
    exact ⟨_, rfl, rfl, rfl, .done rfl rfl rfl⟩
  | doneRelease =>
    obtain rfl := Option.some.inj h
    exact ⟨_, rfl, rfl, rfl, .release _ (stage_of_plain rfl rfl) rfl rfl hsame rfl⟩
  | _ => exact commitStep_change start h

/-- All that a step of log.c can do to the control data. -/
theorem logStep_change (h : logStep start s t k a = some s') :
    ∃ p, LogStepTo s t k a s' p := by
  have hop {op : ℕ} {d d' : List ℕ} : (LogPt.inOp op d).Stage (.inOp op d') :=
    ⟨rfl, rfl, .inr rfl, by simp⟩
  cases a with
  | recycle b =>
    have h : (if (s.g.buf b).refcnt = 0 then some (s.goto (s.g.recycle b) t k) else none) =
        some s' := by
      cases k <;> exact h
    simp only [ite_some_iff] at h
    obtain ⟨_, rfl⟩ := h
    exact ⟨_, logStepTo_goto (.stay (sameSpace_setBuf _ _ _) rfl)⟩
  | go =>
    have h : logGo start s t k = some s' := by
      cases k <;> exact h
    exact logGo_change h
  | beginOp =>
    cases k with
    | user =>
      obtain rfl := Option.some.inj h
      exact ⟨_, rfl, rfl, rfl,
        .move _ (stage_of_plain rfl rfl) rfl rfl ⟨rfl, rfl, rfl, rfl, rfl⟩ rfl⟩
    | _ => cases h
  | bread b =>
    cases k with
    | user | inOp =>
      simp only [logStep, ite_some_iff] at h
      obtain ⟨_, rfl⟩ := h
      exact ⟨_, logStepTo_goto (.stay (sameSpace_setBuf _ _ _) rfl)⟩
    | _ => cases h
  | modify b data =>
    cases k with
    | inOp op dirty =>
      simp only [logStep, ite_some_iff] at h
      obtain ⟨_, rfl⟩ := h
      exact ⟨_, logStepTo_goto (.move _ hop rfl rfl (sameSpace_setBuf _ _ _) rfl)⟩
    | _ => cases h
  | logWrite b =>
    cases k with
    | inOp op dirty =>
      simp only [logStep, Option.ite_none_right_eq_some] at h
      obtain ⟨⟨hlk, _⟩, h⟩ := h
      split_ifs at h with hlen hout
      · obtain rfl := Option.some.inj h
        exact ⟨_, logStepTo_goto (.tooBig op b dirty rfl rfl hlen ⟨rfl, rfl, rfl, rfl, rfl⟩ rfl)⟩
      · obtain rfl := Option.some.inj h
        exact ⟨_, logStepTo_goto (.outside op dirty rfl hout ⟨rfl, rfl, rfl, rfl, rfl⟩ rfl)⟩
      · obtain rfl := Option.some.inj h
        exact ⟨_, logStepTo_goto (.write op b dirty _ rfl rfl hlk hlk rfl)⟩
    | _ => cases h
  | brelse b =>
    cases k with
    | user | inOp =>
      simp only [logStep, ite_some_iff] at h
      obtain ⟨_, rfl⟩ := h
      exact ⟨_, logStepTo_goto (.stay (sameSpace_setBuf _ _ _) rfl)⟩
    | _ => cases h
  | endOp =>
    cases k with
    | inOp op dirty =>
      cases dirty with
      | nil =>
        obtain rfl := Option.some.inj h
        exact ⟨_, rfl, rfl, rfl,
          .move _ ⟨rfl, rfl, .inl rfl, by simp⟩ rfl rfl ⟨rfl, rfl, rfl, rfl, rfl⟩ rfl⟩
      | cons b bs => cases h
    | _ => cases h

end Change

section Budget

/-- What process `t` may still log, when `f t` is its operation. -/
def LogG.spare (g : LogG) (pt : ℕ → LogPt) (f : ℕ → ℕ) (t : ℕ) : ℕ :=
  if (pt t).active then MAXOPBLOCKS - (g.opBlocks (f t)).card else 0

structure SpaceInv (N : ℕ) (g : LogG) (pt : ℕ → LogPt) (f : ℕ → ℕ) : Prop where
  control : ControlInv N g pt
  opOf : ∀ t op, (pt t).op = some op → f t = op
  inj : ∀ t u, (pt t).active = true → (pt u).active = true → f t = f u → t = u
  fresh : ∀ t, (pt t).active = true → f t < g.ops
  written : ∀ w ∈ g.current, w.op < g.ops
  logged : ∀ w ∈ g.current, w.blockno ∈ g.lh
  nodup : g.lh.Nodup
  fits : ∀ t, (pt t).active = true → (g.opBlocks (f t)).card ≤ MAXOPBLOCKS
  budget : g.lh.length + ∑ t ∈ Finset.range N, g.spare pt f t ≤ LOGBLOCKS

variable {N t : ℕ} {g g' : LogG} {pt : ℕ → LogPt} {f : ℕ → ℕ} {k' : LogPt}

theorem opBlocks_congr (h : g'.current = g.current) (op : ℕ) : g'.opBlocks op = g.opBlocks op := by
  rw [LogG.opBlocks, LogG.opBlocks, h]

theorem mem_opBlocks {op b : ℕ} : b ∈ g.opBlocks op ↔ ∃ w ∈ g.current, w.op = op ∧ w.blockno = b := by
  simp only [LogG.opBlocks, List.mem_toFinset, List.mem_map, List.mem_filter, decide_eq_true_eq,
    and_assoc]

theorem SpaceInv.move (hi : SpaceInv N g pt f) (ht : t < N) (ha : k'.active = (pt t).active)
    (hc : k'.committer = (pt t).committer) (ho : k'.op = none ∨ k'.op = (pt t).op)
    (hs : SameSpace g g') : SpaceInv N g' (update pt t k') f := by
  have hact (u : ℕ) : (update pt t k' u).active = (pt u).active := by
    by_cases hu : u = t
    · rw [hu, update_self, ha]
    · rw [update_of_ne hu]
  refine ⟨hi.control.move ht ha hc hs.outstanding hs.committing (fun _ => hs.current), ?_, ?_, ?_, ?_,
    ?_, ?_, ?_, ?_⟩
  · intro u op hop
    by_cases hu : u = t
    · subst hu
      rw [update_self] at hop
      rcases ho with h | h
      · rw [h] at hop
        cases hop
      · exact hi.opOf u op (h ▸ hop)
    · rw [update_of_ne hu] at hop
      exact hi.opOf u op hop
  · simp only [hact]
    exact hi.inj
  · simp only [hact, hs.ops]
    exact hi.fresh
  · rw [hs.current, hs.ops]
    exact hi.written
  · rw [hs.current, hs.lh]
    exact hi.logged
  · rw [hs.lh]
    exact hi.nodup
  · simp only [hact, opBlocks_congr hs.current]
    exact hi.fits
  · have hspare (u : ℕ) : g'.spare (update pt t k') f u = g.spare pt f u := by
      rw [LogG.spare, LogG.spare, hact, opBlocks_congr hs.current]
    simp only [hspare, hs.lh]
    exact hi.budget

/-- All reservations together are at most `MAXOPBLOCKS` for each operation. -/
theorem sum_spare_le (hi : ControlInv N g pt) (f : ℕ → ℕ) :
    ((∑ t ∈ Finset.range N, g.spare pt f t : ℕ) : ℤ) ≤ g.outstanding * (MAXOPBLOCKS : ℕ) := by
  rw [hi.outstanding, Finset.sum_mul, Nat.cast_sum]
  refine Finset.sum_le_sum (fun t _ => ?_)
  rw [LogG.spare]
  split_ifs
  · rw [one_mul]
    exact_mod_cast Nat.sub_le _ _
  · simp

theorem SpaceInv.begin (hi : SpaceInv N g pt f) (ht : t < N) (ha : (pt t).active = false)
    (hb : ¬ g.busy)
    (hg : g' = { g with outstanding := g.outstanding + 1, ops := g.ops + 1 }) :
    SpaceInv N g' (update pt t (.inOp g.ops [])) (update f t g.ops) := by
  subst hg
  obtain ⟨hcom, hroom⟩ := not_or.mp hb
  have hcom' : g.committing = false := Bool.eq_false_of_not_eq_true hcom
  have hc : ControlInv N { g with outstanding := g.outstanding + 1, ops := g.ops + 1 }
      (update pt t (.inOp g.ops [])) :=
    hi.control.begin ht ha rfl rfl rfl hcom' hcom'
  have hnew : g.opBlocks g.ops = ∅ := by
    refine Finset.eq_empty_of_forall_notMem (fun b hb => ?_)
    obtain ⟨w, hw, hop, -⟩ := mem_opBlocks.mp hb
    exact absurd (hi.written w hw) (by omega)
  refine ⟨hc, ?_, ?_, ?_, fun w hw => Nat.lt_succ_of_lt (hi.written w hw), hi.logged, hi.nodup, ?_, ?_⟩
  · intro u op hop
    by_cases hu : u = t
    · subst hu
      rw [update_self] at hop ⊢
      exact Option.some.inj hop
    · rw [update_of_ne hu] at hop ⊢
      exact hi.opOf u op hop
  · intro u v hau hav hf
    by_cases hu : u = t
    · by_cases hv : v = t
      · rw [hu, hv]
      · rw [update_of_ne hv] at hav
        rw [hu, update_self, update_of_ne hv] at hf
        exact absurd (hi.fresh v hav) (by omega)
    · rw [update_of_ne hu] at hau hf
      by_cases hv : v = t
      · rw [hv, update_self] at hf
        exact absurd (hi.fresh u hau) (by omega)
      · rw [update_of_ne hv] at hav hf
        exact hi.inj u v hau hav hf
  · intro u hau
    by_cases hu : u = t
    · rw [hu, update_self]
      exact Nat.lt_succ_self _
    · rw [update_of_ne hu] at hau ⊢
      exact Nat.lt_succ_of_lt (hi.fresh u hau)
  · intro u hau
    by_cases hu : u = t
    · rw [hu, update_self]
      show (g.opBlocks g.ops).card ≤ MAXOPBLOCKS
      rw [hnew]
      exact zero_le
    · rw [update_of_ne hu] at hau ⊢
      exact hi.fits u hau
  · have hle := sum_spare_le hc (update f t g.ops)
    zify
    have hlh : (g.lh.length : ℤ) + (g.outstanding + 1) * (MAXOPBLOCKS : ℕ) ≤ (LOGBLOCKS : ℕ) :=
      not_lt.mp hroom
    push_cast at hle hlh ⊢
    linarith

theorem SpaceInv.leave (hi : SpaceInv N g pt f) (hc : ControlInv N g' (update pt t k'))
    (ha' : k'.active = false) (ho : k'.op = none) (hlh : g'.lh = g.lh) (hops : g'.ops = g.ops)
    (hcur : g'.current = g.current ∨ g'.current = [] ∧ g'.committing = true) :
    SpaceInv N g' (update pt t k') f := by
  have hact (u : ℕ) (hu : (update pt t k' u).active = true) :
      (pt u).active = true ∧ g'.current = g.current := by
    constructor
    · by_cases hut : u = t
      · rw [hut, update_self, ha'] at hu
        cases hu
      · rwa [update_of_ne hut] at hu
    · refine hcur.resolve_right (fun h => ?_)
      rw [hc.no_active h.2 u] at hu
      cases hu
  have hmem (w : LogWrite) (hw : w ∈ g'.current) : w ∈ g.current := by
    rcases hcur with h | ⟨h, -⟩
    · rwa [h] at hw
    · rw [h] at hw
      cases hw
  refine ⟨hc, ?_, ?_, ?_, ?_, ?_, hlh ▸ hi.nodup, ?_, ?_⟩
  · intro u op hop
    by_cases hu : u = t
    · rw [hu, update_self, ho] at hop
      cases hop
    · rw [update_of_ne hu] at hop
      exact hi.opOf u op hop
  · exact fun u v hu hv => hi.inj u v (hact u hu).1 (hact v hv).1
  · exact fun u hu => hops ▸ hi.fresh u (hact u hu).1
  · exact fun w hw => hops ▸ hi.written w (hmem w hw)
  · exact fun w hw => hlh ▸ hi.logged w (hmem w hw)
  · intro u hu
    rw [opBlocks_congr (hact u hu).2]
    exact hi.fits u (hact u hu).1
  · rw [hlh]
    refine le_trans (Nat.add_le_add_left (Finset.sum_le_sum (fun u _ => ?_)) _) hi.budget
    rw [LogG.spare]
    split_ifs with hu
    · rw [LogG.spare, if_pos (hact u hu).1, opBlocks_congr (hact u hu).2]
    · exact zero_le

theorem SpaceInv.clear (hi : SpaceInv N g pt f) (ht : t < N) (hp : (pt t).committer = true)
    (hk' : k'.committer = true) (hg : g' = { g with lh := [] }) :
    SpaceInv N g' (update pt t k') f := by
  subst hg
  have hk := LogPt.like_of_committer hp hk'
  have hcur := (hi.control.busy (hi.control.committer t hp)).2
  have hm : SpaceInv N g (update pt t k') f :=
    hi.move ht hk.active hk.committer (.inr hk.op) ⟨rfl, rfl, rfl, rfl, rfl⟩
  refine ⟨hi.control.move ht hk.active hk.committer rfl rfl (fun _ => rfl), hm.opOf, hm.inj, hm.fresh,
    hm.written, ?_, List.nodup_nil, hm.fits, ?_⟩
  · intro w hw
    have hw : w ∈ g.current := hw
    rw [hcur] at hw
    cases hw
  · refine le_trans ?_ hm.budget
    rw [List.length_nil, zero_add]
    exact Nat.le_add_left _ _

section Write

variable (g) (op b : ℕ)

theorem logWrite_current :
    (g.logWrite op b).current = g.current ++ [⟨op, b, (g.buf b).data⟩] := by
  unfold LogG.logWrite
  split <;> rfl

theorem logWrite_outstanding : (g.logWrite op b).outstanding = g.outstanding := by
  unfold LogG.logWrite
  split <;> rfl

theorem logWrite_committing : (g.logWrite op b).committing = g.committing := by
  unfold LogG.logWrite
  split <;> rfl

theorem logWrite_ops : (g.logWrite op b).ops = g.ops := by
  unfold LogG.logWrite
  split <;> rfl

theorem opBlocks_logWrite (op' : ℕ) : (g.logWrite op b).opBlocks op' =
    if op = op' then insert b (g.opBlocks op') else g.opBlocks op' := by
  rw [LogG.opBlocks, logWrite_current, List.filter_append, List.map_append, List.toFinset_append]
  split_ifs with h
  · simp [h, LogG.opBlocks, Finset.union_comm]
  · simp [h, LogG.opBlocks]

end Write

theorem SpaceInv.write {op b : ℕ} {dirty dirty' : List ℕ} (hi : SpaceInv N g pt f) (ht : t < N)
    (hp : pt t = .inOp op dirty) (hfit : (insert b (g.opBlocks op)).card ≤ MAXOPBLOCKS) :
    SpaceInv N (g.logWrite op b) (update pt t (.inOp op dirty')) f := by
  have hact (u : ℕ) : (update pt t (.inOp op dirty') u).active = (pt u).active := by
    by_cases hu : u = t
    · rw [hu, update_self, hp]
      rfl
    · rw [update_of_ne hu]
  have hft : f t = op := hi.opOf t op (by rw [hp]; rfl)
  have hat : (pt t).active = true := by rw [hp]; rfl
  -- only the operation of `t` has logged more
  have hother (u : ℕ) (hu : u ≠ t) (ha : (pt u).active = true) :
      (g.logWrite op b).opBlocks (f u) = g.opBlocks (f u) := by
    rw [opBlocks_logWrite, if_neg]
    intro h
    exact hu (hi.inj u t ha hat (by rw [hft, h]))
  have hself : (g.logWrite op b).opBlocks (f t) = insert b (g.opBlocks op) := by
    rw [opBlocks_logWrite, hft, if_pos rfl]
  have hlh := g.logWrite_lh b op
  refine ⟨?_, ?_, ?_, ?_, ?_, ?_, ?_, ?_, ?_⟩
  · refine hi.control.move ht (by rw [hp]; rfl) (by rw [hp]; rfl) (logWrite_outstanding g op b)
      (logWrite_committing g op b) (fun hb => ?_)
    rw [hi.control.no_active hb t] at hat
    cases hat
  · intro u op' hop
    by_cases hu : u = t
    · rw [hu, update_self] at hop
      rw [hu, hft]
      exact Option.some.inj hop
    · rw [update_of_ne hu] at hop
      exact hi.opOf u op' hop
  · simp only [hact]
    exact hi.inj
  · simp only [hact, logWrite_ops]
    exact hi.fresh
  · intro w hw
    rw [logWrite_current, List.mem_append, List.mem_singleton] at hw
    rw [logWrite_ops]
    rcases hw with hw | rfl
    · exact hi.written w hw
    · exact hft ▸ hi.fresh t hat
  · intro w hw
    rw [logWrite_current, List.mem_append, List.mem_singleton] at hw
    rw [hlh]
    rcases hw with hw | rfl
    · have hin := hi.logged w hw
      split_ifs
      · exact hin
      · exact List.mem_append_left _ hin
    · split_ifs with hb
      · exact hb
      · simp
  · rw [hlh]
    split_ifs with hb
    · exact hi.nodup
    · exact List.nodup_append.mpr ⟨hi.nodup, List.nodup_singleton b, by
        rintro x hx y hy rfl
        exact hb (List.mem_singleton.mp hy ▸ hx)⟩
  · intro u hu
    rw [hact] at hu
    by_cases hut : u = t
    · rw [hut, hself]
      exact hfit
    · rw [hother u hut hu]
      exact hi.fits u hu
  · -- what the log has grown by has come out of the reservation of `t`
    have hmem : t ∈ Finset.range N := Finset.mem_range.mpr ht
    have hrest : ∑ u ∈ (Finset.range N).erase t,
        (g.logWrite op b).spare (update pt t (.inOp op dirty')) f u =
        ∑ u ∈ (Finset.range N).erase t, g.spare pt f u := by
      refine Finset.sum_congr rfl (fun u hu => ?_)
      rw [LogG.spare, LogG.spare, hact]
      by_cases ha : (pt u).active = true
      · rw [if_pos ha, if_pos ha, hother u (Finset.ne_of_mem_erase hu) ha]
      · rw [if_neg ha, if_neg ha]
    have hb := hi.budget
    rw [← Finset.add_sum_erase _ _ hmem] at hb ⊢
    rw [hrest]
    rw [LogG.spare, if_pos hat, hft] at hb
    rw [LogG.spare, hact, if_pos hat, hself, hlh]
    by_cases hin : b ∈ g.lh
    · rw [if_pos hin]
      have hle := Finset.card_le_card (Finset.subset_insert b (g.opBlocks op))
      omega
    · have hnew : b ∉ g.opBlocks op := by
        intro h
        obtain ⟨w, hw, -, rfl⟩ := mem_opBlocks.mp h
        exact hin (hi.logged w hw)
      rw [if_neg hin, List.length_append, List.length_singleton]
      rw [Finset.card_insert_of_notMem hnew] at hfit ⊢
      omega

end Budget

section Machine

/-- Each process's operation, where it is not in the process's place in the code any more. -/
def LogKern.opAfter (s : LogKern) (f : ℕ → ℕ) : ℕ → ℕ := fun t => ((s.points t).op).getD (f t)

/-- The machine, with the operation that each process has begun last as ghost state. -/
def opStep (N start : ℕ) (p : LogKern × (ℕ → ℕ)) (e : Event LogAct) : Option (LogKern × (ℕ → ℕ)) :=
  (kernStep N (logClient start) p.1 e).map (fun s => (s, s.opAfter p.2))

/-- The condition on a step: an operation logs at most `MAXOPBLOCKS` distinct blocks. -/
def FitsOp (s : LogKern) : Event LogAct → Prop
  | .client t (.logWrite b) => ∀ op dirty, s.pc t = .run (.inOp op dirty) →
      (insert b (s.g.opBlocks op)).card ≤ MAXOPBLOCKS
  | _ => True

/-- A process asleep in `begin_op` still has to wait. -/
def logMonitor : Monitor Unit LogPt LogG where
  holds := fun k => k.locked = true
  holdsP := fun _ _ => False
  resumes := fun k => k = .beginLoop
  owes := fun _ _ => False
  calm := fun s _ => s.g.busy

theorem log_calmQuiet : logMonitor.CalmQuiet := by
  intro s s' c hq hc
  change s'.g.busy
  rw [hq.g]
  exact hc

theorem SameSpace.busy {g g' : LogG} (hs : SameSpace g g') : g'.busy ↔ g.busy := by
  rw [LogG.busy, LogG.busy, hs.lh, hs.outstanding, hs.committing]

variable {N start t : ℕ} {s s' : LogKern} {k : LogPt} {a : LogAct} {p : Pc Unit LogPt} {f : ℕ → ℕ}

theorem LogStepTo.moves (h : LogStepTo s t k a s' p) (hi : logMonitor.Inv N s)
    (hk : s.pc t = .run k) : logMonitor.Moves s s' t p := by
  refine .of_eq hi hk h.pc (by rw [h.proc, h.plock]) ?_ ?_
  · cases h.change <;> rfl
  · cases h.change with
    | wait => exact ⟨⟨rfl, rfl, fun _ => id⟩, rfl⟩
    | _ => exact ⟨trivial, rfl⟩

/-- Whoever sleeps in `begin_op` keeps its reason, or is being woken. -/
theorem LogStepTo.monitor (h : LogStepTo s t k a s' p) (hm : logMonitor.Inv N s)
    (hc : ControlInv N s.g s.points) (ht : t < N) (hk : s.pc t = .run k) :
    logMonitor.Inv N s' := by
  have hmoves := h.moves hm hk
  have hpt : s.points t = k := by rw [LogKern.points, hk]; rfl
  cases h.change with
  | stay hs hlk =>
    cases hl : k.locked with
    | false =>
      exact Monitor.inv_free_move hm hk hmoves (fun _ => hs.busy.mpr)
        (by simp [logMonitor, hl]) hlk (by simp [Monitor.holdsLk, logMonitor, hl]) rfl
    | true =>
      exact Monitor.inv_locked_move hm hk hmoves hl ht
        (fun q c _ h => .inl (hs.busy.mpr (h.resolve_right id))) hlk hl (by simp [Pc.bound])
  | move k' _ hl hl' hs hlk =>
    exact Monitor.inv_free_move hm hk hmoves (fun _ => hs.busy.mpr)
      (by simp [logMonitor, hl]) hlk (by simp [Monitor.holdsLk, logMonitor, hl']) rfl
  | acquire k' _ _ hl' hs hlk hlk' =>
    exact Monitor.inv_acquire hm hmoves (fun _ => hs.busy.mpr) hlk hlk' hl' rfl
  | release k' _ hl hl' hs hlk =>
    exact Monitor.inv_release hm hk hmoves (fun _ => hs.busy.mpr) hl (fun _ => id) hlk
      (by simp [Monitor.holdsLk, logMonitor, hl']) rfl
  | wait he hb hs hlk =>
    subst he
    exact Monitor.inv_locked_move hm hk hmoves rfl ht (fun _ _ _ _ => .inl (hs.busy.mpr hb)) hlk
      trivial (fun _ _ => hs.busy.mpr hb)
  | begin he hb hg hlk =>
    subst he
    exact Monitor.inv_release hm hk hmoves (fun _ h => absurd h hb) rfl (fun _ => id) hlk
      (by simp [Monitor.holdsLk, logMonitor, LogPt.locked]) rfl
  | write op b dirty dirty' he _ hlk hlk' hg =>
    subst he
    refine Monitor.inv_free_move hm hk hmoves ?_ (by simp [logMonitor, LogPt.locked])
      (hlk'.trans hlk.symm) (by simp [Monitor.holdsLk, logMonitor, LogPt.locked]) rfl
    intro c hb
    -- a longer log gives `begin_op` no room
    change s'.g.busy
    change s.g.busy at hb
    have hlen : s.g.lh.length ≤ (s.g.logWrite op b).lh.length := by
      rw [LogG.logWrite_lh]
      split_ifs
      · exact le_refl _
      · simp
    rw [hg, LogG.busy, logWrite_committing, logWrite_outstanding]
    rcases hb with hb | hb
    · exact .inl hb
    · exact .inr (by omega)
  | tooBig op b dirty he _ _ hs hlk | outside op dirty he _ hs hlk =>
    subst he
    exact Monitor.inv_free_move hm hk hmoves (fun _ => hs.busy.mpr)
      (by simp [logMonitor, LogPt.locked]) hlk
      (by simp [Monitor.holdsLk, logMonitor, LogPt.locked]) rfl
  | finish he _ hg hlk =>
    subst he
    exact Monitor.inv_locked_move hm hk hmoves rfl ht
      (fun _ _ _ _ => .inr (.inl ⟨rfl, zero_le⟩)) hlk rfl (by simp [Pc.bound])
  | finishLast he _ hg hlk =>
    subst he
    have hb : s'.g.busy := .inl (by rw [hg])
    exact Monitor.inv_locked_move hm hk hmoves rfl ht (fun _ _ _ _ => .inl hb) hlk rfl
      (by simp [Pc.bound])
  | finishPanic he hb =>
    subst he
    have ha := hc.no_active hb t
    rw [hpt] at ha
    cases ha
  | clear he hg hlk =>
    subst he
    have hb : s'.g.busy := by
      refine .inl ?_
      rw [hg]
      exact hc.committer t (by rw [hpt]; rfl)
    exact Monitor.inv_free_move hm hk hmoves (fun _ _ => hb) (by simp [logMonitor, LogPt.locked])
      hlk (by simp [Monitor.holdsLk, logMonitor, LogPt.locked]) rfl
  | done he hg hlk =>
    subst he
    exact Monitor.inv_locked_move hm hk hmoves rfl ht
      (fun _ _ _ _ => .inr (.inl ⟨rfl, zero_le⟩)) hlk rfl (by simp [Pc.bound])

theorem opAfter_eq (h : ∀ t op, (s.points t).op = some op → f t = op) : s.opAfter f = f := by
  funext t
  rw [LogKern.opAfter]
  cases hop : (s.points t).op with
  | none => rfl
  | some op => exact (h t op hop).symm

theorem LogStepTo.space (h : LogStepTo s t k a s' p) (hi : SpaceInv N s.g s.points f) (ht : t < N)
    (hk : s.pc t = .run k) (hfit : FitsOp s (.client t a)) :
    SpaceInv N s'.g s'.points (s'.opAfter f) := by
  have hpt : s.points t = k := by rw [LogKern.points, hk]; rfl
  have hpts : s'.points = update s.points t p.point := by
    funext u
    rw [LogKern.points, h.pc]
    by_cases hu : u = t
    · rw [hu, update_self, update_self]
    · rw [update_of_ne hu, update_of_ne hu]
      rfl
  have hkeep (hs : SpaceInv N s'.g (update s.points t p.point) f) :
      SpaceInv N s'.g s'.points (s'.opAfter f) := by
    rw [← hpts] at hs
    rw [opAfter_eq hs.opOf]
    exact hs
  cases h.change with
  | stay hs _ => exact hkeep (hi.move ht (by rw [hpt]; rfl) (by rw [hpt]; rfl) (by rw [hpt]; exact .inr rfl) hs)
  | move k' hst _ _ hs _ =>
    exact hkeep (hi.move ht (by rw [hpt]; exact hst.active) (by rw [hpt]; exact hst.committer)
      (by rw [hpt]; exact hst.op) hs)
  | acquire k' hst _ _ hs _ _ =>
    exact hkeep (hi.move ht (by rw [hpt]; exact hst.active) (by rw [hpt]; exact hst.committer)
      (by rw [hpt]; exact hst.op) hs)
  | release k' hst _ _ hs _ =>
    exact hkeep (hi.move ht (by rw [hpt]; exact hst.active) (by rw [hpt]; exact hst.committer)
      (by rw [hpt]; exact hst.op) hs)
  | wait he _ hs _ =>
    subst he
    exact hkeep (hi.move ht (by rw [hpt]; rfl) (by rw [hpt]; rfl) (.inl rfl) hs)
  | begin he hb hg _ =>
    subst he
    have hs := hi.begin ht (by rw [hpt]; rfl) hb hg
    have hf : s'.opAfter f = update f t s.g.ops := by
      rw [← opAfter_eq (s := s') (f := update f t s.g.ops) (by rw [hpts]; exact hs.opOf)]
      funext u
      rw [LogKern.opAfter, LogKern.opAfter, hpts]
      by_cases hu : u = t
      · rw [hu, update_self]
        rfl
      · rw [update_of_ne hu, update_of_ne hu]
    rw [hf, hpts]
    exact hs
  | write op b dirty dirty' he ha _ _ hg =>
    subst he ha
    rw [hg] at hkeep ⊢
    exact hkeep (hi.write ht hpt (hfit op dirty hk))
  | tooBig op b dirty he _ _ hs _ | outside op dirty he _ hs _ =>
    subst he
    exact hkeep (hi.move ht (by rw [hpt]; rfl) (by rw [hpt]; rfl) (.inl rfl) hs)
  | finish he ho hg _ =>
    subst he
    have ha : (s.points t).active = true := by rw [hpt]; rfl
    have hb : s.g.committing = false := by
      by_contra hb
      rw [hi.control.no_active (Bool.eq_true_of_not_eq_false hb) t] at ha
      cases ha
    rw [hg] at hkeep ⊢
    exact hkeep (hi.leave (hi.control.finish ht ha rfl rfl hb (.inl ⟨rfl, hb⟩)) rfl rfl rfl rfl
      (.inl rfl))
  | finishLast he ho hg _ =>
    subst he
    have ha : (s.points t).active = true := by rw [hpt]; rfl
    have hb : s.g.committing = false := by
      by_contra hb
      rw [hi.control.no_active (Bool.eq_true_of_not_eq_false hb) t] at ha
      cases ha
    rw [hg] at hkeep ⊢
    exact hkeep (hi.leave (hi.control.finish ht ha rfl rfl hb (.inr ⟨rfl, rfl, ho, rfl⟩)) rfl rfl
      rfl rfl (.inr ⟨rfl, rfl⟩))
  | finishPanic he hb =>
    subst he
    have ha := hi.control.no_active hb t
    rw [hpt] at ha
    cases ha
  | clear he hg _ =>
    subst he
    exact hkeep (hi.clear ht (by rw [hpt]; rfl) rfl hg)
  | done he hg _ =>
    subst he
    rw [hg] at hkeep ⊢
    exact hkeep (hi.leave (hi.control.done ht (by rw [hpt]; rfl) rfl (by rw [hpt]; rfl) rfl rfl rfl)
      rfl rfl rfl rfl (.inl rfl))

def LogSpaceInv (N : ℕ) (p : LogKern × (ℕ → ℕ)) : Prop :=
  SpaceInv N p.1.g p.1.points p.2 ∧ logMonitor.Inv N p.1

theorem log_space_step (q : LogKern × (ℕ → ℕ)) (e : Event LogAct) (q' : LogKern × (ℕ → ℕ))
    (hfit : FitsOp q.1 e) (h : opStep N start q e = some q') (hi : LogSpaceInv N q) :
    LogSpaceInv N q' := by
  obtain ⟨s, f⟩ := q
  obtain ⟨s', hs', rfl⟩ := Option.map_eq_some_iff.mp h
  obtain ⟨hsp, hm⟩ := hi
  have hpre (k : LogPt) (hk : k.preemptible = true) :
      ¬ logMonitor.holds k ∧ ∀ q, ¬ logMonitor.holdsP k q := by
    refine ⟨fun hl => ?_, fun _ => id⟩
    cases k <;> simp_all [logMonitor, LogPt.locked, LogPt.preemptible]
  refine ⟨?_, Monitor.kernStep_inv log_calmQuiet hpre ?_ hm hs'⟩
  · rcases kernStep_cases hs' with ⟨t, k, a, rfl, ht, hpc, hs⟩ | ⟨-, hg, hpc⟩
    · obtain ⟨p, hp⟩ := logStep_change hs
      exact hp.space hsp ht hpc hfit
    · have hpt : s'.points = s.points := by
        funext u
        rcases hpc u with h | h
        · rw [LogKern.points, LogKern.points, h]
        · exact h.point_eq
      have hs : SpaceInv N s'.g s'.points f := by
        rw [hg, hpt]
        exact hsp
      show SpaceInv N s'.g s'.points (s'.opAfter f)
      rw [opAfter_eq hs.opOf]
      exact hs
  · rintro t k a rfl ht hpc hs
    obtain ⟨p, hp⟩ := logStep_change hs
    exact hp.monitor hm hsp.control ht hpc

theorem logInit_space (d0 : Disk) : LogSpaceInv N (logInit d0, fun _ => 0) := by
  constructor
  · refine ⟨⟨?_, ?_, ?_, ?_, ?_⟩, ?_, ?_, ?_, ?_, ?_, ?_, ?_, ?_⟩ <;>
      simp [logInit, LogKern.points, Pc.point, LogPt.active, LogPt.committer, LogPt.op, LogG.spare]
  · refine ⟨?_, ?_, ?_, ?_, ?_⟩ <;>
      simp [logInit, Monitor.holdsLk, Monitor.holdsPl, Monitor.ContOk, Monitor.StateOk, AsleepOn,
        Pc.bound, logMonitor, LogPt.locked]

theorem LogStepTo.not_logCommitting (h : LogStepTo s t k a s' p) (hc : ControlInv N s.g s.points)
    (hk : s.pc t = .run k) (hne : k ≠ .panic .logCommitting) :
    p.point ≠ .panic .logCommitting := by
  cases h.change with
  | stay _ _ => exact hne
  | move k' hst _ _ _ _ => exact hst.panic _
  | acquire k' hst _ _ _ _ _ => exact hst.panic _
  | release k' hst _ _ _ _ => exact hst.panic _
  | finishPanic he hb =>
    subst he
    have ha := hc.no_active hb t
    rw [LogKern.points, hk] at ha
    cases ha
  | _ => simp [Pc.point]

theorem not_logCommitting_step (q : LogKern × (ℕ → ℕ)) (e : Event LogAct) (q' : LogKern × (ℕ → ℕ))
    (hfit : FitsOp q.1 e) (h : opStep N start q e = some q')
    (hi : LogSpaceInv N q ∧ ∀ t, q.1.points t ≠ .panic .logCommitting) :
    LogSpaceInv N q' ∧ ∀ t, q'.1.points t ≠ .panic .logCommitting := by
  refine ⟨log_space_step q e q' hfit h hi.1, fun u => ?_⟩
  obtain ⟨s', hs', rfl⟩ := Option.map_eq_some_iff.mp h
  rcases kernStep_cases hs' with ⟨t, k, a, rfl, ht, hpc, hs⟩ | ⟨-, -, hpc⟩
  · obtain ⟨p, hp⟩ := logStep_change hs
    have hu := hi.2 t
    rw [LogKern.points, hpc] at hu
    have hp' := hp.not_logCommitting hi.1.1.control hpc hu
    rw [LogKern.points, hp.pc]
    by_cases hut : u = t
    · rw [hut, update_self]
      exact hp'
    · rw [update_of_ne hut]
      exact hi.2 u
  · have hu := hi.2 u
    rcases hpc u with h | h
    · rw [LogKern.points, h]
      exact hu
    · rw [LogKern.points, h.point_eq]
      exact hu

/-- The reservation of log space. In every run in which each operation logs at most
`MAXOPBLOCKS` distinct blocks: the log and what the operations may still log fit in
`LOGBLOCKS`; no block is in the log twice; while a commit is going on no operation is, so
no `log_write` can change the log and `end_op` does not panic; and whoever sleeps in
`begin_op` while `log.lock` is free has to wait. -/
theorem log_space_reserved {d0 : Disk} {es : List (Event LogAct)}
    (hfit : Along (opStep N start) (fun q e => FitsOp q.1 e) (logInit d0, fun _ => 0) es)
    (h : exec (opStep N start) (logInit d0, fun _ => 0) es = some (s, f)) :
    (s.g.outstanding = ∑ t ∈ Finset.range N, if (s.points t).active then 1 else 0) ∧
    s.g.lh.length + ∑ t ∈ Finset.range N, s.g.spare s.points f t ≤ LOGBLOCKS ∧
    s.g.lh.Nodup ∧
    (s.g.committing = true → s.g.outstanding = 0 ∧
      ∀ t b, kernStep N (logClient start) s (.client t (.logWrite b)) = none) ∧
    (∀ t, s.pc t ≠ .run (.panic .logCommitting)) ∧
    (s.lk = none → ∀ q, (s.proc q).state = .SLEEPING → (s.proc q).chan = some () → s.g.busy) := by
  have hinit : LogSpaceInv N (logInit d0, fun _ => 0) ∧
      ∀ t, (logInit d0).points t ≠ .panic .logCommitting := ⟨logInit_space d0, fun _ h => LogPt.noConfusion h⟩
  obtain ⟨⟨hs, hm⟩, hpanic⟩ := exec_invariant_along not_logCommitting_step hfit h hinit
  refine ⟨hs.control.outstanding, hs.budget, hs.nodup, fun hb => ⟨(hs.control.busy hb).1, ?_⟩, ?_, ?_⟩
  · intro t b
    by_contra hne
    obtain ⟨s', hs'⟩ := Option.ne_none_iff_exists'.mp hne
    rcases kernStep_cases hs' with ⟨u, k, a, he, hu, hpc, hstep⟩ | ⟨hno, -⟩
    · -- only a process inside an operation calls `log_write`
      have ha := hs.control.no_active hb u
      cases he
      cases k with
      | inOp op dirty =>
        rw [LogKern.points, hpc] at ha
        cases ha
      | _ => cases hstep
    · exact hno t _ rfl
  · intro t ht
    refine hpanic t ?_
    rw [LogKern.points, ht]
    rfl
  · intro hlk q hq hc
    obtain ⟨-, hcalm | ⟨t, ht, -⟩⟩ := hm.sleepers q () (.inl ⟨hq, hc⟩)
    · exact hcalm
    · rw [hlk] at ht
      cases ht

def fitsOp (s : LogKern) : Event LogAct → Bool
  | .client t (.logWrite b) =>
    match s.pc t with
    | .run (.inOp op _) => decide ((insert b (s.g.opBlocks op)).card ≤ MAXOPBLOCKS)
    | _ => true
  | _ => true

theorem fitsOp_of_test (s : LogKern) (e : Event LogAct) (h : fitsOp s e = true) : FitsOp s e := by
  unfold fitsOp at h
  unfold FitsOp
  split at h
  · rename_i t b
    intro op dirty hpc
    simp only [hpc] at h
    exact of_decide_eq_true h
  · trivial

theorem log_space_reserved_one_operation :
    ∃ s f, exec (opStep 1 2) (logInit (fun _ => 0), fun _ => 0) (oneOperation 1) = some (s, f) ∧
      s.g.committing = true ∧ s.g.lh = [40] ∧
      s.g.lh.length + ∑ t ∈ Finset.range 1, s.g.spare s.points f t ≤ LOGBLOCKS := by
  obtain ⟨s, f, hs, hc, hl⟩ : ∃ s f, exec (opStep 1 2) (logInit (fun _ => 0), fun _ => 0)
      (oneOperation 1) = some (s, f) ∧ s.g.committing = true ∧ s.g.lh = [40] :=
    ⟨_, _, rfl, rfl, rfl⟩
  have hfit : checkAlong (opStep 1 2) (fun q e => fitsOp q.1 e) (logInit (fun _ => 0), fun _ => 0)
      (oneOperation 1) = true := by decide +kernel
  exact ⟨s, f, hs, hc, hl,
    (log_space_reserved (along_of_check (fun (q : LogKern × (ℕ → ℕ)) e => fitsOp_of_test q.1 e) hfit) hs).2.1⟩

/-- When `log_write` panics, if each operation logs at most `MAXOPBLOCKS` distinct blocks:
exactly when all of the log is in use and the block is in it already. The test of
`log.lh.n` comes before the search for the block, so such a write is not absorbed. -/
theorem log_write_panics_iff {d0 : Disk} {es : List (Event LogAct)} {op b : ℕ} {dirty : List ℕ}
    (hfit : Along (opStep N start) (fun q e => FitsOp q.1 e) (logInit d0, fun _ => 0) es)
    (h : exec (opStep N start) (logInit d0, fun _ => 0) es = some (s, f))
    (hpc : s.pc t = .run (.inOp op dirty)) (hw : FitsOp s (.client t (.logWrite b)))
    (hs' : kernStep N (logClient start) s (.client t (.logWrite b)) = some s') :
    (∃ why, s'.pc t = .run (.panic why)) ↔ s.g.lh.length = LOGBLOCKS ∧ b ∈ s.g.lh := by
  have hs : SpaceInv N s.g s.points f :=
    (exec_invariant_along log_space_step hfit h (logInit_space d0)).1
  have hpt : s.points t = .inOp op dirty := by rw [LogKern.points, hpc]; rfl
  have ht : t < N := by
    by_contra hn
    simp [kernStep, hn] at hs'
  simp only [kernStep, ht, if_true, hpc, logClient, logStep, Option.ite_none_right_eq_some] at hs'
  obtain ⟨-, hs'⟩ := hs'
  -- the operation is counted, and its reservation is part of the budget
  have hout : ¬ s.g.outstanding < 1 := by
    have hle := Finset.single_le_sum (f := fun u => if (s.points u).active then (1 : ℤ) else 0)
      (fun u _ => by split_ifs <;> simp) (Finset.mem_range.mpr ht)
    rw [← hs.control.outstanding, hpt] at hle
    simp only [LogPt.active, if_true] at hle
    omega
  have hspare : s.g.lh.length + (MAXOPBLOCKS - (s.g.opBlocks op).card) ≤ LOGBLOCKS := by
    have hle := Finset.single_le_sum (f := fun u => s.g.spare s.points f u)
      (fun u _ => zero_le) (Finset.mem_range.mpr ht)
    have hsp : s.g.spare s.points f t = MAXOPBLOCKS - (s.g.opBlocks op).card := by
      rw [LogG.spare, hpt, hs.opOf t op (by rw [hpt]; rfl)]
      rfl
    have hbudget := hs.budget
    simp only [hsp] at hle
    omega
  have hcard := hw op dirty hpc
  split_ifs at hs' with hlen
  · obtain rfl := Option.some.inj hs'
    refine iff_of_true ⟨.tooBigTransaction, by simp [LogKern.goto]⟩ ⟨by omega, ?_⟩
    by_contra hb
    -- a new block would have been paid for
    have hnew : b ∉ s.g.opBlocks op := by
      intro hmem
      obtain ⟨w, hw', -, rfl⟩ := mem_opBlocks.mp hmem
      exact hb (hs.logged w hw')
    rw [Finset.card_insert_of_notMem hnew] at hcard
    omega
  · obtain rfl := Option.some.inj hs'
    refine iff_of_false ?_ (fun hfull => hlen (le_of_eq hfull.1.symm))
    rintro ⟨why, hp⟩
    simp [LogKern.goto] at hp

theorem log_write_panics_iff_first_write :
    ∃ s f s', exec (opStep 1 2) (logInit (fun _ => 0), fun _ => 0)
        [.client 0 .beginOp, .client 0 .go, .client 0 .go, .client 0 (.bread 40)] = some (s, f) ∧
      kernStep 1 (logClient 2) s (.client 0 (.logWrite 40)) = some s' ∧ s'.g.lh = [40] ∧
      ((∃ why, s'.pc 0 = .run (.panic why)) ↔ s.g.lh.length = LOGBLOCKS ∧ 40 ∈ s.g.lh) := by
  obtain ⟨s, f, s', hs, hpc, hs', hl, hw⟩ : ∃ s f s', exec (opStep 1 2)
      (logInit (fun _ => 0), fun _ => 0)
        [.client 0 .beginOp, .client 0 .go, .client 0 .go, .client 0 (.bread 40)] = some (s, f) ∧
      s.pc 0 = .run (.inOp 0 []) ∧
      kernStep 1 (logClient 2) s (.client 0 (.logWrite 40)) = some s' ∧ s'.g.lh = [40] ∧
      fitsOp s (.client 0 (.logWrite 40)) = true :=
    ⟨_, _, _, rfl, rfl, rfl, rfl, rfl⟩
  have hfit : checkAlong (opStep 1 2) (fun q e => fitsOp q.1 e) (logInit (fun _ => 0), fun _ => 0)
      [.client 0 .beginOp, .client 0 .go, .client 0 .go, .client 0 (.bread 40)] = true := rfl
  exact ⟨s, f, s', hs, hs', hl, log_write_panics_iff
    (along_of_check (fun (q : LogKern × (ℕ → ℕ)) e => fitsOp_of_test q.1 e) hfit) hs hpc
    (fitsOp_of_test s _ hw) hs'⟩

/-- Operation `t` logs its ten blocks `[b, b + 10)`. -/
def tenBlocks (t b : ℕ) : List (Event LogAct) :=
  (List.range 10).flatMap (fun i =>
    [.client t (.bread (b + i)), .client t (.logWrite (b + i)), .client t (.brelse (b + i))])

/-- Three operations that fill the log, and a block that is written again. -/
def fullLog : List (Event LogAct) :=
  (List.range 3).flatMap (fun t => [.client t .beginOp, .client t .go, .client t .go]) ++
    (tenBlocks 0 40 ++ tenBlocks 1 50 ++ tenBlocks 2 60) ++ [.client 0 (.bread 40)]

def LogPt.isTooBig : LogPt → Bool
  | .panic .tooBigTransaction => true
  | _ => false

theorem LogPt.eq_of_isTooBig {k : LogPt} (h : k.isTooBig = true) :
    k = .panic .tooBigTransaction := by
  unfold LogPt.isTooBig at h
  split at h
  · rfl
  · cases h

theorem full_log_write_again_panics :
    ∃ s f s', Along (opStep 3 2) (fun q e => FitsOp q.1 e) (logInit (fun _ => 0), fun _ => 0)
        (fullLog ++ [.client 0 (.logWrite 40)]) ∧
      exec (opStep 3 2) (logInit (fun _ => 0), fun _ => 0) fullLog = some (s, f) ∧
      kernStep 3 (logClient 2) s (.client 0 (.logWrite 40)) = some s' ∧
      (s'.pc 0).point = .panic .tooBigTransaction := by
  have hfit : checkAlong (opStep 3 2) (fun q e => fitsOp q.1 e) (logInit (fun _ => 0), fun _ => 0)
      (fullLog ++ [.client 0 (.logWrite 40)]) = true := by decide +kernel
  have hrun : ((exec (opStep 3 2) (logInit (fun _ => 0), fun _ => 0) fullLog).any fun q =>
      (kernStep 3 (logClient 2) q.1 (.client 0 (.logWrite 40))).any fun s' =>
        (s'.pc 0).point.isTooBig) = true := by decide +kernel
  obtain ⟨⟨s, f⟩, hs, hrest⟩ := (Option.any_eq_true _ _).mp hrun
  obtain ⟨s', hs', hp⟩ := (Option.any_eq_true _ _).mp hrest
  exact ⟨s, f, s', along_of_check (fun (q : LogKern × (ℕ → ℕ)) e => fitsOp_of_test q.1 e) hfit, hs,
    hs', LogPt.eq_of_isTooBig hp⟩

end Machine

end Xv6
