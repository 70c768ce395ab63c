import Xv6.BioRun

/-! The buffer cache is transparent: whatever `bget` recycles, `bread` returns what the last writer
of the block left. The copies of `commit` count as writes; outside of the log they change nothing.
-/
namespace Xv6.Bio

/-- `b` is not the header block of the log or one of its blocks. -/
def Outside (start b : ℕ) : Prop := b < start ∨ start + LOGBLOCKS < b

instance (start b : ℕ) : Decidable (Outside start b) := inferInstanceAs (Decidable (_ ∨ _))

/-- The operations log blocks outside of the log only. -/
def AvoidsLog (start : ℕ) (s : St) (e : ℕ × Act) : Prop :=
  ∀ i, e.2 = .logWrite i → Outside start (s.buf i).blockno

/-- Which blocks of the log hold the contents of their home blocks, at each place of `commit`. -/
def Code.Copied (start : ℕ) (s : St) : Code → Prop
  | .wlTo tail | .wlFrom tail _ | .wlCopy tail _ _ =>
    ∀ j < tail, j < s.lh.length → s.last (start + j + 1) = s.last (s.lh.getD j 0)
  | .wlRelseFrom tail dst _ | .wlRelseTo tail dst =>
    (∀ j < tail, j < s.lh.length → s.last (start + j + 1) = s.last (s.lh.getD j 0)) ∧
      (s.buf dst).data = s.last (s.lh.getD tail 0)
  | .headRead true | .headWrite true _ | .headRelse true _ =>
    ∀ j < s.lh.length, s.last (start + j + 1) = s.last (s.lh.getD j 0)
  | .itLog tail | .itDst tail _ | .itCopy tail _ _ =>
    ∀ j, tail ≤ j → j < s.lh.length → s.last (start + j + 1) = s.last (s.lh.getD j 0)
  | .itRelseLog tail _ dbuf | .itRelseDst tail dbuf =>
    (∀ j, tail + 1 ≤ j → j < s.lh.length → s.last (start + j + 1) = s.last (s.lh.getD j 0)) ∧
      (s.buf dbuf).data = s.last (s.lh.getD tail 0)
  | _ => True

structure Copies (start : ℕ) (s : St) : Prop where
  lh : ∀ b ∈ s.lh, Outside start b
  length : s.lh.length ≤ LOGBLOCKS
  last : ∀ b, Outside start b → s.last b = s.lastOp b
  code : ∀ p, (s.pc p).code.Copied start s

theorem Code.copied_congr {start : ℕ} {s t : St} {k : Code} (h : k.Copied start s)
    (hlh : t.lh = s.lh) (hlast : t.last = s.last)
    (hdata : ∀ j ∈ k.modified, (t.buf j).data = (s.buf j).data) : k.Copied start t := by
  cases k with
  | headRead full => cases full <;> grind [Copied]
  | headWrite full i => cases full <;> grind [Copied]
  | headRelse full i => cases full <;> grind [Copied]
  | _ => grind [Copied, modified]

theorem Code.copied_of_not_inCommit {start : ℕ} (s : St) {k : Code} (h : k.inCommit = false) :
    k.Copied start s := by
  cases k with
  | run op held => trivial
  | _ => cases h

namespace Copies

variable {N start : ℕ} {s t : St} {p i : ℕ} {x : Pt}

theorem outside_getD (hc : Copies start s) {j : ℕ} (hj : j < s.lh.length) :
    Outside start (s.lh.getD j 0) := by
  rw [List.getD_eq_getElem s.lh 0 hj]
  exact hc.lh _ (List.getElem_mem hj)

theorem move (hc : Copies start s) (hpc : t.pc = update s.pc p x)
    (hlog : (t.lh, t.last, t.lastOp) = (s.lh, s.last, s.lastOp))
    (hdata : ∀ q, q ≠ p → ∀ j ∈ (s.pc q).code.modified, (t.buf j).data = (s.buf j).data)
    (hx : x.code.Copied start t) : Copies start t := by
  obtain ⟨hlh, hlast, hop⟩ : t.lh = s.lh ∧ t.last = s.last ∧ t.lastOp = s.lastOp := by simpa using hlog
  refine ⟨hlh ▸ hc.lh, hlh ▸ hc.length, ?_, fun q => ?_⟩
  · rw [hlast, hop]
    exact hc.last
  · rw [hpc]
    by_cases hq : q = p
    · rwa [hq, update_self]
    · rw [update_of_ne hq]
      exact Code.copied_congr (hc.code q) hlh hlast (hdata q hq)

theorem bget {b : ℕ} {k : Code} {k' : ℕ → Code} (hc : Copies start s) (hk : s.pc p = .ready k)
    (hat : ∀ i (u : St), k.Copied start u → (k' i).Copied start u) :
    Copies start (s.bget p ROOTDEV b k k') := by
  have hcode := hc.code p
  rw [hk] at hcode
  unfold St.bget
  split
  · rename_i i _
    have hdata : ∀ j, ((s.hit i).buf j).data = (s.buf j).data := St.setBuf_field Buf.data rfl
    refine hc.move rfl rfl (fun _ _ j _ => hdata j) ?_
    exact hat _ _ (Code.copied_congr hcode rfl rfl (fun j _ => hdata j))
  · split
    · rename_i i _
      have hdata : ∀ j, ((s.recycle i ROOTDEV b).buf j).data = (s.buf j).data :=
        St.setBuf_field Buf.data rfl
      refine hc.move rfl rfl (fun _ _ j _ => hdata j) ?_
      exact hat _ _ (Code.copied_congr hcode rfl rfl (fun j _ => hdata j))
    · exact hc.move rfl rfl (fun _ _ _ _ => rfl)
        (Code.copied_congr hcode rfl rfl (fun _ _ => rfl))

theorem brelseModified {k' : Code} (h : Inv N start s) (hc : Copies start s)
    (hin : (s.pc p).code.inCommit = true)
    (hsame : ¬ Outside start (s.buf i).blockno ∨ (s.buf i).data = s.last (s.buf i).blockno)
    (hx : k'.Copied start (s.brelseModified p i k')) : Copies start (s.brelseModified p i k') where
  lh := hc.lh
  length := hc.length
  last := by
    intro b hb
    change update s.last (s.buf i).blockno (s.buf i).data b = s.lastOp b
    rcases hsame with hlog | heq
    · rw [update_of_ne]
      · exact hc.last b hb
      · rintro rfl
        exact hlog hb
    · rw [heq, update_eq_self]
      exact hc.last b hb
  code := by
    intro q
    by_cases hq : q = p
    · subst hq
      change ((s.brelse q i k').pc q).code.Copied start _
      rw [St.brelse, St.setPc_self]
      exact hx
    · have hpc : (s.brelseModified p i k').pc q = s.pc q := St.setPc_of_ne _ _ hq
      rw [hpc]
      exact Code.copied_of_not_inCommit _ (h.alone hin hq).2

theorem data_of_commit {k : Code} (h : Inv N start s) (hk : s.pc p = .ready k)
    (hin : k.inCommit = true) (hnone : k.modified = []) (hi : i ∈ k.bufs) :
    (s.buf i).data = s.last (s.buf i).blockno := by
  have hmem : i ∈ (s.pc p).refs := by
    rw [hk]
    exact hi
  refine h.content.data i _ (h.cache.holds_of_mem_refs hmem) ((h.cache.proc p).valid i ?_)
    (h.not_modified (p := p) ?_ ?_ i)
  · rw [hk]
    exact hi
  · rw [hk]
    exact hin
  · rw [hk]
    exact hnone

theorem commitStep (h : Inv N start s) (hc : Copies start s) {k : Code} (hk : s.pc p = .ready k)
    (hs : commitStep start s p k = some t) : Copies start t := by
  have hcode := hc.code p
  have hat := h.proto.code p
  rw [hk] at hcode hat
  have hin : k.inCommit = true → (s.pc p).code.inCommit = true := fun hk' => by rw [hk]; exact hk'
  have hnot : k.inCommit = true → k.modified = [] → ∀ j, ¬ s.Modified j := fun hk' hnone =>
    h.not_modified (hin hk') (by rw [hk]; exact hnone)
  have hrelse : ∀ i k', Code.Copied start s k' → Copies start (s.brelse p i k') := by
    intro i k' hk'
    have hdata : ∀ j, ((s.setLock i none).buf j).data = (s.buf j).data :=
      St.setBuf_field Buf.data rfl
    exact hc.move rfl rfl (fun _ _ j _ => hdata j)
      (Code.copied_congr hk' rfl rfl (fun j _ => hdata j))
  cases k with
  | run op held => cases hs
  | wlTo tail =>
    simp only [Bio.commitStep] at hs
    split_ifs at hs with hlt <;> cases hs
    · exact hc.bget hk (fun _ _ => id)
    · refine hc.move rfl rfl (fun _ _ _ _ => rfl) (fun j hj => hcode j ?_ hj)
      change j < s.lh.length at hj
      omega
  | wlFrom tail dst =>
    cases hs
    exact hc.bget hk (fun _ _ => id)
  | wlCopy tail dst src =>
    cases hs
    refine hc.move rfl rfl (fun q _ j hj => absurd ⟨q, hj⟩ (hnot rfl rfl j)) ⟨hcode, ?_⟩
    have hdst : ((s.setData dst (s.buf src).data).buf dst).data = (s.buf src).data := by
      rw [St.setData, St.setBuf_self]
    refine hdst.trans ((data_of_commit h hk rfl rfl (by simp [Code.bufs])).trans ?_)
    rw [hat.2.2]
    rfl
  | wlRelseFrom tail dst src =>
    cases hs
    exact hrelse _ _ hcode
  | wlRelseTo tail dst =>
    cases hs
    obtain ⟨hlt, hblock, -⟩ := hat
    have hlen := hc.length
    refine hc.brelseModified h (hin rfl) (.inl ?_) (fun j hj hjl => ?_)
    · rw [hblock, Outside]
      omega
    · change j < s.lh.length at hjl
      have houtj := hc.outside_getD hjl
      change update s.last (s.buf dst).blockno (s.buf dst).data (start + j + 1) =
        update s.last (s.buf dst).blockno (s.buf dst).data (s.lh.getD j 0)
      rw [hblock, update_of_ne (a := s.lh.getD j 0) (by unfold Outside at houtj; omega)]
      by_cases hjt : j = tail
      · rw [hjt, update_self]
        exact hcode.2
      · rw [update_of_ne (by omega)]
        exact hcode.1 j (by omega) hjl
  | headRead full =>
    cases hs
    refine hc.bget hk (fun _ _ => ?_)
    cases full <;> exact id
  | headWrite full i =>
    cases hs
    refine hc.move rfl rfl (fun q _ j hj => absurd ⟨q, hj⟩ (hnot rfl rfl j)) ?_
    cases full <;> exact hcode
  | headRelse full i =>
    cases hs
    refine hc.brelseModified h (hin rfl) (.inl ?_) ?_
    · rw [hat.1, Outside]
      omega
    · cases full
      · trivial
      · intro j _ hjl
        change j < s.lh.length at hjl
        have houtj := hc.outside_getD hjl
        change update s.last (s.buf i).blockno (s.buf i).data (start + j + 1) =
          update s.last (s.buf i).blockno (s.buf i).data (s.lh.getD j 0)
        rw [hat.1, update_of_ne (by omega),
          update_of_ne (by unfold Outside at houtj; omega)]
        exact hcode j hjl
  | itLog tail =>
    simp only [Bio.commitStep] at hs
    split_ifs at hs with hlt <;> cases hs
    · exact hc.bget hk (fun _ _ => id)
    · exact hc.move rfl rfl (fun _ _ _ _ => rfl) trivial
  | itDst tail lbuf =>
    cases hs
    exact hc.bget hk (fun _ _ => id)
  | itCopy tail lbuf dbuf =>
    cases hs
    obtain ⟨hlt, hlog, hdst⟩ := hat
    refine hc.move rfl rfl (fun q _ j hj => absurd ⟨q, hj⟩ (hnot rfl rfl j))
      ⟨fun j hj => hcode j (by omega), ?_⟩
    have hdata : (((s.bwrite dbuf (s.buf lbuf).data).bunpin dbuf).buf dbuf).data =
        (s.buf lbuf).data := by
      simp [St.bunpin, St.bwrite, St.setData, St.setBuf]
    refine hdata.trans ((data_of_commit h hk rfl rfl (by simp [Code.bufs])).trans ?_)
    rw [hlog]
    exact hcode tail le_rfl hlt
  | itRelseLog tail lbuf dbuf =>
    cases hs
    exact hrelse _ _ hcode
  | itRelseDst tail dbuf =>
    cases hs
    have hsame : (s.buf dbuf).data = s.last (s.buf dbuf).blockno := by
      rw [hat.2.1]
      exact hcode.2
    refine hc.brelseModified h (hin rfl) (.inr hsame) (fun j hj hjl => ?_)
    change update s.last (s.buf dbuf).blockno (s.buf dbuf).data (start + j + 1) =
      update s.last (s.buf dbuf).blockno (s.buf dbuf).data (s.lh.getD j 0)
    rw [hsame, update_eq_self]
    exact hcode.1 j hj hjl
  | clear =>
    cases hs
    refine ⟨by simp [St.setPc], zero_le, hc.last, fun q => ?_⟩
    by_cases hq : q = p
    · rw [hq, St.setPc_self]
      trivial
    · rw [St.setPc_of_ne _ _ hq]
      exact Code.copied_of_not_inCommit _ (h.alone (hin rfl) hq).2
  | done =>
    cases hs
    exact hc.move rfl rfl (fun _ _ _ _ => rfl) trivial

theorem runStep {op : Option (List ℕ)} {held : List Hold} {a : Act} (h : Inv N start s)
    (hc : Copies start s) (hp : p < N) (hk : s.pc p = .ready (.run op held))
    (hlog : ∀ i, a = .logWrite i → Outside start (s.buf i).blockno)
    (hs : runStep s p op held a = some t) : Copies start t := by
  -- during an operation nobody is in `commit`
  have hfree : op ≠ none → ∀ q, (s.pc q).code.inCommit = false := by
    intro hop q
    obtain ⟨logs, rfl⟩ := Option.ne_none_iff_exists'.mp hop
    have hfree := (h.committing_of_inOp hp (by rw [hk]; rfl)).2
    by_contra hq
    have hbusy := (h.proto.commit q (by simpa using hq)).1
    rw [hfree] at hbusy
    cases hbusy
  cases a with
  | beginOp =>
    simp only [Bio.runStep] at hs
    split_ifs at hs
    cases hs
    exact hc.move rfl rfl (fun _ _ _ _ => rfl) trivial
  | bread b =>
    cases hs
    exact hc.bget hk (fun _ _ _ => trivial)
  | modify i data =>
    simp only [Bio.runStep] at hs
    split_ifs at hs with hmod
    cases hs
    refine hc.move rfl rfl (fun q hq j hj => ?_) trivial
    refine congrArg Buf.data (St.setBuf_of_ne s _ (h.ne_of_modified ?_ hq hj))
    rw [hk]
    exact hmod.2
  | logWrite i =>
    cases op with
    | none => cases hs
    | some logs =>
      simp only [Bio.runStep] at hs
      split_ifs at hs with hi hbig
      · cases hs
        exact hc.move rfl rfl (fun _ _ _ _ => rfl) trivial
      · cases hs
        unfold St.logWrite
        split_ifs with habsorb
        · exact hc.move rfl rfl (fun _ _ _ _ => rfl) trivial
        · refine ⟨?_, ?_, hc.last, fun q => ?_⟩
          · intro b hb
            rcases List.mem_append.mp hb with hb | hb
            · exact hc.lh b hb
            · rw [List.mem_singleton.mp hb]
              exact hlog i rfl
          · change (s.lh ++ [_]).length ≤ LOGBLOCKS
            rw [List.length_append, List.length_singleton]
            omega
          · by_cases hq : q = p
            · rw [hq, St.setPc_self]
              trivial
            · rw [St.setPc_of_ne _ _ hq]
              exact Code.copied_of_not_inCommit _ (hfree (by simp) q)
  | brelse i =>
    simp only [Bio.runStep] at hs
    split at hs
    · cases hs
    · rename_i x hx
      split_ifs at hs with hdirty hlogged
      · cases hs
        have hdata : ∀ j, ((s.setLock i none).buf j).data = (s.buf j).data :=
          St.setBuf_field Buf.data rfl
        exact hc.move rfl rfl (fun _ _ j _ => hdata j) trivial
      · cases hs
        have hop : op ≠ none := by
          intro hop
          have hcode := h.proto.code p
          rw [hk] at hcode
          exact hdirty (hcode.1 hop x (List.mem_of_find?_eq_some hx)).1
        refine ⟨hc.lh, hc.length, fun b hb => ?_, fun q => ?_⟩
        · change update s.last _ _ b = update s.lastOp _ _ b
          by_cases hbi : b = (s.buf i).blockno
          · rw [hbi, update_self, update_self]
          · rw [update_of_ne hbi, update_of_ne hbi]
            exact hc.last b hb
        · change (((s.setLock i none).setPc p _).pc q).code.Copied start _
          by_cases hq : q = p
          · rw [hq, St.setPc_self]
            trivial
          · rw [St.setPc_of_ne _ _ hq]
            exact Code.copied_of_not_inCommit _ (hfree hop q)
  | endOp =>
    simp only [Bio.runStep] at hs
    split_ifs at hs <;> cases hs
    · exact hc.move rfl rfl (fun _ _ _ _ => rfl) trivial
    · exact hc.move rfl rfl (fun _ _ _ _ => rfl) (fun j hj => absurd hj (Nat.not_lt_zero j))
    · exact hc.move rfl rfl (fun _ _ _ _ => rfl) trivial
  | go => cases hs

theorem step {e : ℕ × Act} (h : Inv N start s) (hc : Copies start s) (hlog : AvoidsLog start s e)
    (hs : step N start s e = some t) : Copies start t := by
  obtain ⟨p, a⟩ := e
  simp only [Bio.step] at hs
  split_ifs at hs with hp
  have hcode := hc.code p
  split at hs
  · rename_i op held hk
    exact hc.runStep h hp hk hlog hs
  · rename_i k _ hk
    exact hc.commitStep h hk hs
  · rename_i i k hk
    split_ifs at hs
    cases hs
    rw [hk] at hcode
    have hdata : ∀ j, ((s.setLock i (some p)).buf j).data = (s.buf j).data :=
      St.setBuf_field Buf.data rfl
    exact hc.move rfl rfl (fun _ _ j _ => hdata j)
      (Code.copied_congr hcode rfl rfl (fun j _ => hdata j))
  · rename_i i k hk
    cases hs
    rw [hk] at hcode
    have hdata := h.fill_modified i
    rw [St.fill_eq] at hdata ⊢
    exact hc.move (p := p) rfl rfl (fun q _ j hj => hdata q j hj)
      (Code.copied_congr hcode rfl rfl (fun j hj => hdata p j (by rwa [hk])))
  · rename_i i k hk
    cases hs
    rw [hk] at hcode
    have hdata := St.unref_field Buf.data (fun _ _ _ _ => rfl) s i
    have hpc : ((s.unref i).setPc p (.ready k)).pc = update s.pc p (.ready k) := by
      rw [St.unref_eq]
      rfl
    exact hc.move hpc (by rw [St.unref_eq]; rfl) (fun _ _ j _ => hdata j)
      (Code.copied_congr hcode (by rw [St.unref_eq]; rfl) (by rw [St.unref_eq]; rfl) (fun j _ => hdata j))
  · cases hs

theorem init (start : ℕ) (disk : Disk) : Copies start (init disk) :=
  ⟨by simp [Bio.init], zero_le, fun _ _ => rfl, fun _ => trivial⟩

end Copies

section Recycle

variable {N start : ℕ} {s t : St} {p i : ℕ}

end Recycle

end Xv6.Bio
