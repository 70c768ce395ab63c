import Xv6.BioContent

/-! The steps of operations and of `commit` on the buffer cache, and what holds in every run. -/
namespace Xv6.Bio

namespace Hold

theorem map_buf_on {i : ℕ} {f : Hold → Hold} (hf : ∀ h, (f h).buf = h.buf) (held : List Hold) :
    (on i f held).map Hold.buf = held.map Hold.buf := by
  simp only [on, List.map_map]
  refine List.map_congr_left (fun h _ => ?_)
  simp only [Function.comp_apply]
  split_ifs
  · exact hf h
  · rfl

theorem mem_on {i : ℕ} {f : Hold → Hold} {held : List Hold} {h : Hold} (hmem : h ∈ on i f held) :
    ∃ h₀ ∈ held, (h₀.buf = i ∧ h = f h₀) ∨ (h₀.buf ≠ i ∧ h = h₀) := by
  obtain ⟨h₀, hmem₀, rfl⟩ := List.mem_map.mp hmem
  refine ⟨h₀, hmem₀, ?_⟩
  by_cases hi : h₀.buf = i
  · exact .inl ⟨hi, if_pos hi⟩
  · exact .inr ⟨hi, if_neg hi⟩

end Hold

namespace Code

theorem mem_modified_run {op : Option (List ℕ)} {held : List Hold} {j : ℕ} :
    j ∈ (run op held).modified ↔ ∃ h ∈ held, h.dirty = true ∧ h.buf = j := by
  simp [modified, and_assoc]

theorem modified_markLogged (op op' : Option (List ℕ)) (i : ℕ) (held : List Hold) (j : ℕ) :
    j ∈ (run op' (Hold.on i Hold.markLogged held)).modified ↔ j ∈ (run op held).modified := by
  simp only [mem_modified_run, Hold.on, List.mem_map]
  constructor
  · rintro ⟨-, ⟨h, hmem, rfl⟩, hd, rfl⟩
    refine ⟨h, hmem, ?_⟩
    split_ifs at hd ⊢ <;> exact ⟨hd, rfl⟩
  · rintro ⟨h, hmem, hd, rfl⟩
    refine ⟨_, ⟨h, hmem, rfl⟩, ?_⟩
    split_ifs <;> exact ⟨hd, rfl⟩

theorem modified_markDirty (op : Option (List ℕ)) (i : ℕ) (held : List Hold) {j : ℕ}
    (h : j ∈ (run op held).modified) : j ∈ (run op (Hold.on i Hold.markDirty held)).modified := by
  rw [mem_modified_run] at h ⊢
  obtain ⟨h, hmem, hd, rfl⟩ := h
  refine ⟨_, List.mem_map_of_mem hmem, ?_⟩
  split_ifs
  · exact ⟨rfl, rfl⟩
  · exact ⟨hd, rfl⟩

end Code

namespace Inv

variable {N start : ℕ} {s t : St} {p i b : ℕ}

section

variable (h : Inv N start s)
include h

theorem alone (hp : (s.pc p).code.inCommit = true) {q : ℕ} (hq : q ≠ p) :
    (s.pc q).code.inOp = false ∧ (s.pc q).code.inCommit = false := by
  refine ⟨?_, ?_⟩
  · have hzero := h.proto.quiet (h.proto.commit p hp).1
    rw [h.proto.outstanding, Finset.sum_eq_zero_iff] at hzero
    by_cases hqN : q < N
    · exact Bool.toNat_eq_zero.mp (hzero q (Finset.mem_range.mpr hqN))
    · rw [h.cache.idle q (Nat.le_of_not_lt hqN)]
      rfl
  · by_contra hc
    exact hq (h.proto.single q p (by simpa using hc) hp)

theorem committing_of_inOp (hp : p < N) (hop : (s.pc p).code.inOp = true) :
    0 < s.outstanding ∧ s.committing = false := by
  have hpos : 0 < s.outstanding := by
    rw [h.proto.outstanding]
    have hle := Finset.single_le_sum (f := fun q => (s.pc q).code.inOp.toNat)
      (fun _ _ => zero_le) (Finset.mem_range.mpr hp)
    simp only [hop, Bool.toNat_true] at hle
    omega
  refine ⟨hpos, ?_⟩
  by_contra hc
  have := h.proto.quiet (by simpa using hc)
  omega

theorem ne_of_modified (hi : i ∈ (s.pc p).locks) {q j : ℕ} (hq : q ≠ p)
    (hj : j ∈ (s.pc q).code.modified) : j ≠ i := by
  rintro rfl
  exact hq (h.cache.of_lock
    (Pt.filled_subset_locks (Pt.modified_subset_filled (h.cache.proc q).fresh hj)) hi)

theorem modify {logs : List ℕ} {held : List Hold} (hp : p < N)
    (hk : s.pc p = .ready (.run (some logs) held)) (hi : i ∈ held.map Hold.buf) (data : Block) :
    Inv N start ((s.setData i data).setPc p
      (.ready (.run (some logs) (Hold.on i Hold.markDirty held)))) := by
  have hbufs : (Code.run (some logs) (Hold.on i Hold.markDirty held)).bufs =
      (Code.run (some logs) held).bufs :=
    Hold.map_buf_on (f := Hold.markDirty) (fun _ => rfl) held
  have hlock : i ∈ (s.pc p).locks := by
    rw [hk]
    exact hi
  have hdev : ∀ j, ((s.setData i data).buf j).dev = (s.buf j).dev := St.setBuf_field Buf.dev rfl
  have hno : ∀ j, ((s.setData i data).buf j).blockno = (s.buf j).blockno :=
    St.setBuf_field Buf.blockno rfl
  have hcode := h.proto.code p
  rw [hk] at hcode
  set t := (s.setData i data).setPc p (.ready (.run (some logs) (Hold.on i Hold.markDirty held)))
  have hmod : ∀ j, s.Modified j → t.Modified j := by
    intro j hj
    rw [modified_iff p, hk] at hj
    rw [modified_update (s := s) (p := p) rfl]
    exact hj.imp_left (Code.modified_markDirty _ _ _)
  have hself : t.Modified i := by
    rw [modified_update (s := s) (p := p) rfl]
    left
    obtain ⟨x, hx, rfl⟩ := List.mem_map.mp hi
    exact Code.mem_modified_run.mpr ⟨_, List.mem_map_of_mem hx, by simp [Hold.markDirty]⟩
  refine ⟨h.cache.setData hp hk hbufs rfl rfl rfl, ⟨?_, ?_⟩, ?_⟩
  · intro j c hj hv hm
    have hji : j ≠ i := by
      rintro rfl
      exact hm hself
    have hbuf : t.buf j = s.buf j := St.setBuf_of_ne s _ hji
    rw [hbuf] at hv ⊢
    refine h.content.data j c ?_ hv (fun hjm => hm (hmod j hjm))
    simpa only [St.Holds, hbuf] using hj
  · intro c hc hm
    refine h.content.disk c hc (fun j hj => ?_)
    rw [← hno j]
    exact hm j (hmod j hj)
  · refine h.proto_move (p := p) rfl rfl rfl rfl rfl (by rw [hk]; rfl) (by rw [hk]; rfl)
      (by rw [hk]; rfl) ?_ (fun _ _ j _ => hno j) (fun q hq j hj => ⟨?_, rfl⟩)
    · refine ⟨by simp, fun x hx hl => ?_⟩
      obtain ⟨x₀, hx₀, ⟨-, rfl⟩ | ⟨-, rfl⟩⟩ := Hold.mem_on hx
      · exact (hno _).symm ▸ hcode.2 x₀ hx₀ hl
      · exact (hno _).symm ▸ hcode.2 x hx₀ hl
    · exact congrArg Buf.data (St.setBuf_of_ne s _ (h.ne_of_modified hlock hq hj))

theorem not_modified (hin : (s.pc p).code.inCommit = true)
    (hnone : (s.pc p).code.modified = []) (j : ℕ) : ¬ s.Modified j := by
  intro hj
  rw [modified_iff p, hnone] at hj
  rcases hj with hj | ⟨q, hq, hj⟩
  · exact absurd hj List.not_mem_nil
  · rw [Code.modified_eq_nil (h.proto.code q) (h.alone hin hq).1 (h.alone hin hq).2] at hj
    exact absurd hj List.not_mem_nil

theorem bwrite {k k' : Code} (hp : p < N) (hk : s.pc p = .ready k)
    (hi : i ∈ k.bufs) (data : Block) (hbufs : k'.bufs = k.bufs) (hnone : k.modified = [])
    (hmod : k'.modified = [i]) (hcommit : k.inCommit = true) (hop : k'.inOp = k.inOp)
    (hcommit' : k'.inCommit = true) (hpins : k'.pinsAt s.lh = k.pinsAt s.lh)
    (hat : k'.At start (s.bwrite i data)) :
    Inv N start ((s.bwrite i data).setPc p (.ready k')) := by
  have hno : ∀ j, ((s.setData i data).buf j).blockno = (s.buf j).blockno :=
    St.setBuf_field Buf.blockno rfl
  have hin : (s.pc p).code.inCommit = true := by
    rw [hk]
    exact hcommit
  have hnot : ∀ j, ¬ s.Modified j := h.not_modified hin (by rw [hk]; exact hnone)
  set t := (s.bwrite i data).setPc p (.ready k')
  have hself : t.Modified i := by
    rw [modified_update (s := s) (p := p) rfl]
    simp [Pt.code, hmod]
  refine ⟨h.cache.setData hp hk hbufs rfl rfl rfl, ⟨?_, ?_⟩, ?_⟩
  · intro j c hj hv hm
    have hji : j ≠ i := by
      rintro rfl
      exact hm hself
    have hbuf : t.buf j = s.buf j := St.setBuf_of_ne s _ hji
    rw [hbuf] at hv ⊢
    refine h.content.data j c ?_ hv (hnot j)
    simpa only [St.Holds, hbuf] using hj
  · intro c hc hm
    have hcb : c ≠ (s.buf i).blockno := by
      rw [← hno i]
      exact Ne.symm (hm i hself)
    change update s.disk (s.buf i).blockno data c = s.last c
    rw [update_of_ne hcb]
    exact h.content.disk c hc (fun j hj => absurd hj (hnot j))
  · refine h.proto_move (p := p) rfl rfl rfl rfl rfl (by rw [hk]; exact hop)
      (by rw [hin]; exact hcommit') (by rw [hk]; exact hpins) ?_ (fun _ _ j _ => hno j)
      (fun q hq j hj => ?_)
    · exact Code.at_congr hat rfl (fun _ _ => rfl) (fun _ _ => ⟨rfl, rfl⟩)
    · exact absurd ⟨q, hj⟩ (hnot j)

theorem proto_commit {x : Pt} (hp : p < N)
    (hin : (s.pc p).code.inCommit = true) (hpc : t.pc = update s.pc p x)
    (hout : t.outstanding = s.outstanding) (hop : x.code.inOp = false) (hx : x.code.At start t)
    (hnodup : t.lh.Nodup) (hcommit : x.code.inCommit = t.committing)
    (hpins : t.pins = x.code.pinsAt t.lh) (hat : x.code.inCommit = false → t.pins = t.lh) :
    Proto N start t := by
  have hpop : (s.pc p).code.inOp = false := by
    cases hk : (s.pc p).code <;> simp_all [Code.inCommit, Code.inOp]
  have hothers : ∀ q, q ≠ p → (t.pc q).code.inCommit = false := by
    intro q hq
    rw [hpc, update_of_ne hq]
    exact (h.alone hin hq).2
  constructor
  · intro q
    rw [hpc]
    by_cases hq : q = p
    · rwa [hq, update_self]
    · rw [update_of_ne hq]
      exact Code.at_of_not_inOp t (h.proto.code q) (h.alone hin hq).1 (h.alone hin hq).2
  · have hsum := St.sum_update (fun y => y.code.inOp.toNat) hp hpc
    rw [hpop, hop] at hsum
    rw [hout, h.proto.outstanding]
    exact (Nat.add_right_cancel hsum).symm
  · intro _
    rw [hout]
    exact h.proto.quiet (h.proto.commit p hin).1
  · intro q hq
    by_cases hqp : q = p
    · subst hqp
      rw [hpc, update_self] at hq ⊢
      exact ⟨hcommit.symm.trans hq, hpins⟩
    · rw [hothers q hqp] at hq
      cases hq
  · intro q r hq hr
    have hqp : q = p := by
      by_contra hne
      rw [hothers q hne] at hq
      cases hq
    have hrp : r = p := by
      by_contra hne
      rw [hothers r hne] at hr
      cases hr
    rw [hqp, hrp]
  · intro hc
    exact hat (hcommit.trans hc)
  · exact hnodup

theorem install {tail lbuf dbuf : ℕ} (hp : p < N)
    (hk : s.pc p = .ready (.itCopy tail lbuf dbuf)) (data : Block) :
    Inv N start (((s.bwrite dbuf data).bunpin dbuf).setPc p
      (.ready (.itRelseLog tail lbuf dbuf))) := by
  have hin : (s.pc p).code.inCommit = true := by rw [hk]; rfl
  have hcode := h.proto.code p
  rw [hk] at hcode
  obtain ⟨hlt, -, hblock⟩ := hcode
  rw [List.getD_eq_getElem s.lh 0 hlt] at hblock
  have hpins : s.pins = (s.buf dbuf).blockno :: s.lh.drop (tail + 1) := by
    rw [hblock, ← List.drop_eq_getElem_cons hlt]
    have hpins := (h.proto.commit p hin).2
    rwa [hk] at hpins
  have hnodup : s.pins.Nodup := by
    rw [hpins, hblock, ← List.drop_eq_getElem_cons hlt]
    exact h.proto.nodup.sublist (List.drop_sublist tail s.lh)
  have hcache : Cache N (((s.bwrite dbuf data).bunpin dbuf).setPc p
      (.ready (.itRelseLog tail lbuf dbuf))) := h.cache.bunpin hp hk
    (List.mem_cons_self : dbuf ∈ [dbuf, lbuf]) (hpins ▸ List.mem_cons_self) hnodup
    (List.Perm.swap _ _ _)
  have hnot : ∀ j, ¬ s.Modified j := h.not_modified hin (by rw [hk]; rfl)
  have hself : ((s.bwrite dbuf data).bunpin dbuf).buf dbuf =
      { s.buf dbuf with data := data, refcnt := (s.buf dbuf).refcnt - 1 } := by
    simp [St.bunpin, St.bwrite, St.setData, St.setBuf]
  have hother : ∀ j, j ≠ dbuf → ((s.bwrite dbuf data).bunpin dbuf).buf j = s.buf j := by
    intro j hj
    simp [St.bunpin, St.bwrite, St.setData, St.setBuf, update_of_ne hj]
  have hdisk : ((s.bwrite dbuf data).bunpin dbuf).disk =
    update s.disk (s.buf dbuf).blockno data := rfl
  have hnew : ((s.bwrite dbuf data).bunpin dbuf).pins = s.lh.drop (tail + 1) := by
    have hblockno : ((s.setData dbuf data).buf dbuf).blockno = (s.buf dbuf).blockno := by
      rw [St.setData, St.setBuf_self]
    change s.pins.erase ((s.setData dbuf data).buf dbuf).blockno = _
    rw [hblockno, hpins, List.erase_cons_head]
  set t := ((s.bwrite dbuf data).bunpin dbuf).setPc p (.ready (.itRelseLog tail lbuf dbuf))
  have htself : t.buf dbuf = _ := hself
  have htpins : t.pins = _ := hnew
  have hmod : t.Modified dbuf := by
    rw [modified_update (s := s) (p := p) rfl]
    simp [Pt.code, Code.modified]
  refine ⟨hcache, ⟨?_, ?_⟩, ?_⟩
  · intro j c hj hv hm
    have hji : j ≠ dbuf := by
      rintro rfl
      exact hm hmod
    have hbuf : t.buf j = s.buf j := hother j hji
    rw [hbuf] at hv ⊢
    refine h.content.data j c ?_ hv (hnot j)
    simpa only [St.Holds, hbuf] using hj
  · intro c hc hm
    have hcb : (s.buf dbuf).blockno ≠ c := by
      have hne := hm dbuf hmod
      rwa [htself] at hne
    change update s.disk (s.buf dbuf).blockno data c = s.last c
    rw [update_of_ne (Ne.symm hcb)]
    refine h.content.disk c ?_ (fun j hj => absurd hj (hnot j))
    rw [hpins, List.mem_cons, not_or]
    exact ⟨Ne.symm hcb, htpins ▸ hc⟩
  · refine h.proto_commit hp hin (t := t) rfl rfl rfl ?_ h.proto.nodup
      ((h.proto.commit p hin).1.symm) htpins (fun hc => by cases hc)
    refine ⟨hlt, ?_, ?_⟩
    · rw [htself]
      exact hblock.trans (List.getD_eq_getElem s.lh 0 hlt).symm
    · rw [htself]
      change update s.disk (s.buf dbuf).blockno data (s.buf dbuf).blockno = data
      rw [update_self]

theorem clear (hp : p < N) (hk : s.pc p = .ready .clear) :
    Inv N start ({ s with lh := [] }.setPc p (.ready (.headRead false))) := by
  have hin : (s.pc p).code.inCommit = true := by rw [hk]; rfl
  have hpins := (h.proto.commit p hin).2
  rw [hk] at hpins
  refine ⟨?_, ?_, ?_⟩
  · refine h.cache.setPc hp rfl rfl rfl (fun j => ?_) (fun j => ?_) ⟨?_, ?_, ?_, trivial⟩
    · rw [hk]
      rfl
    · rw [hk]
      rfl
    · exact List.nodup_nil
    · exact fun j hj => absurd hj List.not_mem_nil
    · exact fun j hj => absurd hj List.not_mem_nil
  · exact h.content.congr (fun _ => rfl) (fun _ => rfl) (fun _ => rfl) (fun _ => rfl) rfl rfl
      (fun _ hb => hb) (modified_same (p := p) rfl (fun j => by rw [hk]; rfl))
  · exact h.proto_commit hp hin rfl rfl rfl trivial List.nodup_nil (h.proto.commit p hin).1.symm
      hpins (fun hc => by cases hc)

theorem done (hp : p < N) (hk : s.pc p = .ready .done) :
    Inv N start ({ s with committing := false }.setPc p (.ready (.run none []))) := by
  have hin : (s.pc p).code.inCommit = true := by rw [hk]; rfl
  have hpins := (h.proto.commit p hin).2
  rw [hk] at hpins
  refine ⟨?_, ?_, ?_⟩
  · refine h.cache.setPc hp rfl rfl rfl (fun j => ?_) (fun j => ?_) ⟨?_, ?_, ?_, trivial⟩
    · rw [hk]
      rfl
    · rw [hk]
      rfl
    · exact List.nodup_nil
    · exact fun j hj => absurd hj List.not_mem_nil
    · exact fun j hj => absurd hj List.not_mem_nil
  · exact h.content.congr (fun _ => rfl) (fun _ => rfl) (fun _ => rfl) (fun _ => rfl) rfl rfl
      (fun _ hb => hb) (modified_same (p := p) rfl (fun j => by rw [hk]; rfl))
  · exact h.proto_commit hp hin rfl rfl rfl ⟨by simp, by simp⟩ h.proto.nodup rfl hpins
      (fun _ => hpins)

theorem proto_op {k' : Code} (hp : p < N) (hfree : s.committing = false)
    (hpc : t.pc = update s.pc p (.ready k'))
    (hout : t.outstanding + (s.pc p).code.inOp.toNat = s.outstanding + k'.inOp.toNat)
    (hquiet : t.committing = true → t.outstanding = 0) (hcommit : k'.inCommit = t.committing)
    (hsub : ∀ b ∈ s.lh, b ∈ t.lh) (hno : ∀ q, q ≠ p → ∀ i ∈ (s.pc q).refs,
      (t.buf i).blockno = (s.buf i).blockno)
    (hx : k'.At start t) (hpins : t.pins = t.lh) (hat : k'.pinsAt t.lh = t.lh)
    (hnodup : t.lh.Nodup) : Proto N start t := by
  have hnone : ∀ q, (s.pc q).code.inCommit = false := by
    intro q
    by_contra hc
    have hbusy := (h.proto.commit q (by simpa using hc)).1
    rw [hfree] at hbusy
    cases hbusy
  have hothers : ∀ q, (t.pc q).code.inCommit = true → q = p := by
    intro q hq
    by_contra hne
    rw [hpc, update_of_ne hne, hnone q] at hq
    cases hq
  constructor
  · intro q
    rw [hpc]
    by_cases hq : q = p
    · rwa [hq, update_self]
    · rw [update_of_ne hq]
      have hcode := h.proto.code q
      have hrun := hnone q
      cases hk : (s.pc q).code with
      | run op held =>
        rw [hk] at hcode
        refine ⟨hcode.1, fun x hx hl => ?_⟩
        have hmem : x.buf ∈ (s.pc q).refs := by
          refine Pt.bufs_subset_refs ?_
          rw [hk]
          exact List.mem_map_of_mem hx
        rw [hno q hq x.buf hmem]
        exact hsub _ (hcode.2 x hx hl)
      | _ =>
        rw [hk] at hrun
        cases hrun
  · have hsum : ∑ q ∈ Finset.range N, (t.pc q).code.inOp.toNat + (s.pc p).code.inOp.toNat =
        ∑ q ∈ Finset.range N, (s.pc q).code.inOp.toNat + k'.inOp.toNat :=
      St.sum_update (fun y => y.code.inOp.toNat) hp hpc
    have hold := h.proto.outstanding
    omega
  · exact hquiet
  · intro q hq
    have hqp := hothers q hq
    subst hqp
    rw [hpc, update_self] at hq ⊢
    exact ⟨hcommit.symm.trans hq, hpins.trans hat.symm⟩
  · intro q r hq hr
    rw [hothers q hq, hothers r hr]
  · exact fun _ => hpins
  · exact hnodup

theorem logWrite {logs : List ℕ} {held : List Hold} (hp : p < N)
    (hk : s.pc p = .ready (.run (some logs) held)) (hi : i ∈ held.map Hold.buf)
    (logs' : List ℕ) :
    Inv N start ((s.logWrite i).setPc p
      (.ready (.run (some logs') (Hold.on i Hold.markLogged held)))) := by
  have hbufs : (Code.run (some logs') (Hold.on i Hold.markLogged held)).bufs =
      (Code.run (some logs) held).bufs :=
    Hold.map_buf_on (f := Hold.markLogged) (fun _ => rfl) held
  have hfree := (h.committing_of_inOp hp (by rw [hk]; rfl)).2
  have hpins := h.proto.pins hfree
  have hcode := h.proto.code p
  rw [hk] at hcode
  have hok : ProcOk s.buf (.ready (.run (some logs) held)) := hk ▸ h.cache.proc p
  have hmod : ∀ j, j ∈ (Pt.ready (.run (some logs') (Hold.on i Hold.markLogged held))).code.modified ↔
      j ∈ (s.pc p).code.modified := by
    intro j
    rw [hk]
    exact Code.modified_markLogged _ _ _ _ _
  unfold St.logWrite
  split_ifs with habsorb
  · -- absorbed
    refine h.setPc hp (fun j => ?_) (fun j => ?_) ⟨?_, ?_, ?_, trivial⟩ hmod (by rw [hk]; rfl)
      (by rw [hk]; rfl) (by rw [hk]; rfl) ⟨by simp, fun x hx hl => ?_⟩
    · rw [hk]
      simp only [Pt.refs, Pt.code, hbufs]
    · rw [hk]
      simp only [Pt.locks, Pt.code, hbufs]
    · simpa only [Pt.locks, Pt.code, hbufs] using hok.nodup
    · simpa only [Pt.refs, Pt.code, hbufs] using hok.bound
    · simpa only [Pt.filled, Pt.code, hbufs] using hok.valid
    · obtain ⟨x₀, hx₀, ⟨hbuf, rfl⟩ | ⟨-, rfl⟩⟩ := Hold.mem_on hx
      · change (s.buf x₀.buf).blockno ∈ s.lh
        rwa [hbuf]
      · exact hcode.2 x hx₀ hl
  · have hno : ∀ j, ((s.hit i).buf j).blockno = (s.buf j).blockno := St.setBuf_field Buf.blockno rfl
    refine ⟨?_, ?_, ?_⟩
    · exact h.cache.bpin hp hk hi (hpins ▸ habsorb) hbufs rfl rfl rfl
    · exact h.content.congr (St.setBuf_field Buf.dev rfl) hno (St.setBuf_field Buf.valid rfl)
        (St.setBuf_field Buf.data rfl) rfl rfl (fun b hb => List.mem_append_left _ hb)
        (modified_same (p := p) rfl hmod)
    · refine h.proto_op hp hfree rfl (by rw [hk]; rfl) (fun hc => ?_) hfree.symm
        (fun b hb => List.mem_append_left _ hb) (fun _ _ j _ => hno j) ⟨by simp, fun x hx hl => ?_⟩ ?_
        rfl ?_
      · exact h.proto.quiet hc
      · change ((s.hit i).buf x.buf).blockno ∈ s.lh ++ [(s.buf i).blockno]
        rw [hno]
        obtain ⟨x₀, hx₀, ⟨hbuf, rfl⟩ | ⟨-, rfl⟩⟩ := Hold.mem_on hx
        · change (s.buf x₀.buf).blockno ∈ _
          rw [hbuf]
          simp
        · exact List.mem_append_left _ (hcode.2 x hx₀ hl)
      · change s.pins ++ [(s.buf i).blockno] = s.lh ++ [(s.buf i).blockno]
        rw [hpins]
      · exact List.nodup_append.mpr ⟨h.proto.nodup, List.nodup_singleton _, by
          rintro a ha b hb rfl
          exact habsorb (List.mem_singleton.mp hb ▸ ha)⟩

theorem beginOp (hp : p < N) (hk : s.pc p = .ready (.run none []))
    (hfree : s.committing = false) :
    Inv N start ({ s with outstanding := s.outstanding + 1 }.setPc p
      (.ready (.run (some []) []))) := by
  refine ⟨?_, ?_, ?_⟩
  · refine h.cache.setPc hp rfl rfl rfl (fun j => ?_) (fun j => ?_) ⟨?_, ?_, ?_, trivial⟩
    · rw [hk]
      rfl
    · rw [hk]
      rfl
    · exact List.nodup_nil
    · exact fun j hj => absurd hj List.not_mem_nil
    · exact fun j hj => absurd hj List.not_mem_nil
  · exact h.content.congr (fun _ => rfl) (fun _ => rfl) (fun _ => rfl) (fun _ => rfl) rfl rfl
      (fun _ hb => hb) (modified_same (p := p) rfl (fun j => by rw [hk]; rfl))
  · refine h.proto_op hp hfree rfl (by rw [hk]; rfl) (fun hc => ?_) hfree.symm (fun b hb => hb)
      (fun _ _ _ _ => rfl) ⟨by simp, by simp⟩ (h.proto.pins hfree) rfl h.proto.nodup
    change s.committing = true at hc
    rw [hfree] at hc
    cases hc

theorem endOp {logs : List ℕ} {k' : Code} {c : Bool} (hp : p < N)
    (hk : s.pc p = .ready (.run (some logs) [])) (hbufs : k'.bufs = []) (hmod : k'.modified = [])
    (hop : k'.inOp = false) (hcommit : k'.inCommit = c)
    (hc : c = true → s.outstanding - 1 = 0) (hat : k'.pinsAt s.lh = s.lh)
    (hx : ∀ u, k'.At start u) :
    Inv N start ({ s with outstanding := s.outstanding - 1, committing := c }.setPc p
      (.ready k')) := by
  obtain ⟨hpos, hfree⟩ := h.committing_of_inOp hp (by rw [hk]; rfl)
  refine ⟨?_, ?_, ?_⟩
  · refine h.cache.setPc hp rfl rfl rfl (fun j => ?_) (fun j => ?_) ⟨?_, ?_, ?_, trivial⟩
    · rw [hk]
      simp only [Pt.refs, Pt.code, hbufs]
      rfl
    · rw [hk]
      simp only [Pt.locks, Pt.code, hbufs]
      rfl
    · simp [Pt.locks, Pt.code, hbufs]
    · simp [Pt.refs, Pt.code, hbufs]
    · simp [Pt.filled, Pt.code, hbufs]
  · refine h.content.congr (fun _ => rfl) (fun _ => rfl) (fun _ => rfl) (fun _ => rfl) rfl rfl
      (fun _ hb => hb) (modified_same (p := p) rfl (fun j => ?_))
    rw [hk]
    change j ∈ k'.modified ↔ j ∈ []
    rw [hmod]
  · refine h.proto_op hp hfree rfl ?_ hc hcommit (fun b hb => hb) (fun _ _ _ _ => rfl) (hx _)
      (h.proto.pins hfree) hat h.proto.nodup
    rw [hk, hop]
    simp only [Pt.code, Code.inOp, St.setPc, Bool.toNat_true, Bool.toNat_false]
    omega

theorem commitMove {k k' : Code} (hp : p < N) (hk : s.pc p = .ready k)
    (hbufs : k'.bufs = k.bufs) (hmod : k'.modified = k.modified) (hop : k'.inOp = k.inOp)
    (hcommit : k'.inCommit = k.inCommit) (hpins : k'.pinsAt s.lh = k.pinsAt s.lh)
    (hat : k'.At start s) : Inv N start (s.setPc p (.ready k')) := by
  have hok : ProcOk s.buf (.ready k) := hk ▸ h.cache.proc p
  refine h.setPc hp (fun j => ?_) (fun j => ?_) ⟨?_, ?_, ?_, trivial⟩ (fun j => ?_) ?_ ?_ ?_ hat
  · rw [hk]
    simp only [Pt.refs, Pt.code, hbufs]
  · rw [hk]
    simp only [Pt.locks, Pt.code, hbufs]
  · simpa only [Pt.locks, Pt.code, hbufs] using hok.nodup
  · simpa only [Pt.refs, Pt.code, hbufs] using hok.bound
  · simpa only [Pt.filled, Pt.code, hbufs] using hok.valid
  · rw [hk]
    simp only [Pt.code, hmod]
  · rw [hk]
    exact hop
  · rw [hk]
    exact hcommit
  · rw [hk]
    exact hpins

theorem commitStep_inv {k : Code} (hp : p < N) (hk : s.pc p = .ready k)
    (hs : commitStep start s p k = some t) : Inv N start t := by
  have hcode := h.proto.code p
  rw [hk] at hcode
  cases k with
  | run op held => cases hs
  | wlTo tail =>
    simp only [commitStep] at hs
    split_ifs at hs with hlt <;> cases hs
    · exact h.bget hp hk ⟨fun _ => rfl, fun _ => rfl, fun _ => rfl, fun _ => rfl, fun _ => rfl,
        fun i u hu hi _ => ⟨hu ▸ hlt, hi⟩⟩
    · exact h.commitMove hp hk rfl rfl rfl rfl rfl trivial
  | wlFrom tail dst =>
    cases hs
    exact h.bget hp hk ⟨fun _ => rfl, fun _ => rfl, fun _ => rfl, fun _ => rfl, fun _ => rfl,
      fun i u hu hi hat => ⟨hat.1, hat.2, hu.symm ▸ hi⟩⟩
  | wlCopy tail dst src =>
    cases hs
    refine h.bwrite hp hk (by simp [Code.bufs]) _ rfl rfl rfl rfl rfl rfl rfl ⟨hcode.1, ?_, ?_⟩
    · simpa [St.bwrite, St.setData, St.setBuf] using hcode.2.1
    · simp [St.bwrite, St.setData, St.setBuf]
  | wlRelseFrom tail dst src =>
    cases hs
    exact h.brelse hp hk (List.Perm.refl _) (fun _ => .rfl) rfl rfl rfl id
  | wlRelseTo tail dst =>
    cases hs
    exact h.brelseModified s.lastOp hp hk (List.Perm.refl _) (fun j => by simp [Code.modified])
      (.inr hcode.2.2) rfl rfl rfl (fun _ => trivial)
  | headRead full =>
    cases hs
    exact h.bget hp hk ⟨fun _ => rfl, fun _ => rfl, fun _ => rfl, fun _ => rfl, fun _ => rfl,
      fun i u hu hi _ => hi⟩
  | headWrite full i =>
    cases hs
    refine h.bwrite hp hk (by simp [Code.bufs]) _ rfl rfl rfl rfl rfl rfl rfl ⟨?_, ?_⟩
    · simpa [St.bwrite, St.setData, St.setBuf, Code.At, Pt.code] using hcode
    · simp [St.bwrite, St.setData, St.setBuf]
  | headRelse full i =>
    cases full <;> cases hs <;>
      exact h.brelseModified s.lastOp hp hk (List.Perm.refl _) (fun j => by simp [Code.modified])
        (.inr hcode.2) rfl rfl rfl (fun _ => trivial)
  | itLog tail =>
    simp only [commitStep] at hs
    split_ifs at hs with hlt <;> cases hs
    · exact h.bget hp hk ⟨fun _ => rfl, fun _ => rfl, fun _ => rfl, fun _ => rfl, fun _ => rfl,
        fun i u hu hi _ => ⟨hu ▸ hlt, hi⟩⟩
    · refine h.commitMove hp hk rfl rfl rfl rfl ?_ trivial
      exact (List.drop_eq_nil_of_le (Nat.le_of_not_lt hlt)).symm
  | itDst tail lbuf =>
    cases hs
    exact h.bget hp hk ⟨fun _ => rfl, fun _ => rfl, fun _ => rfl, fun _ => rfl, fun _ => rfl,
      fun i u hu hi hat => ⟨hat.1, hat.2, hu.symm ▸ hi⟩⟩
  | itCopy tail lbuf dbuf =>
    cases hs
    exact h.install hp hk _
  | itRelseLog tail lbuf dbuf =>
    cases hs
    exact h.brelse hp hk (List.Perm.refl _) (fun _ => .rfl) rfl rfl rfl id
  | itRelseDst tail dbuf =>
    cases hs
    exact h.brelseModified s.lastOp hp hk (List.Perm.refl _) (fun j => by simp [Code.modified])
      (.inr hcode.2.2) rfl rfl rfl (fun _ => trivial)
  | clear =>
    cases hs
    exact h.clear hp hk
  | done =>
    cases hs
    exact h.done hp hk

end

end Inv

end Xv6.Bio
