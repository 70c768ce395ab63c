import Xv6.BioCache

/-! Why dropping a buffer loses nothing: an unpinned block that nobody is writing has its current
contents on disk. The half of the invariant about contents, with the protocol of the log. -/
namespace Xv6.Bio

/-- Some process has buffer `i` locked and changed its data. -/
def St.Modified (s : St) (i : ℕ) : Prop := ∃ p, i ∈ (s.pc p).code.modified

structure Content (s : St) : Prop where
  data : ∀ i b, s.Holds i b → (s.buf i).valid = true → ¬ s.Modified i → (s.buf i).data = s.last b
  disk : ∀ b, b ∉ s.pins → (∀ i, s.Modified i → (s.buf i).blockno ≠ b) → s.disk b = s.last b

namespace Code

def inOp : Code → Bool
  | .run (some _) _ => true
  | _ => false

def inCommit : Code → Bool
  | .run _ _ => false
  | _ => true

/-- The blocks of the log that `install_trans` has not unpinned yet. -/
def pinsAt (lh : List ℕ) : Code → List ℕ
  | .itLog tail | .itDst tail _ | .itCopy tail _ _ => lh.drop tail
  | .itRelseLog tail _ _ | .itRelseDst tail _ => lh.drop (tail + 1)
  | .clear => []
  | _ => lh

/-- What holds at each place of the code: which blocks the buffers are for, that `bwrite` put
the changes of `commit` on disk, and that `log_write` entered those of operations. -/
def At (start : ℕ) (s : St) : Code → Prop
  | .run op held =>
    (op = none → ∀ h ∈ held, h.dirty = false ∧ h.logged = false) ∧
      ∀ h ∈ held, h.logged = true → (s.buf h.buf).blockno ∈ s.lh
  | .wlFrom tail dst => tail < s.lh.length ∧ (s.buf dst).blockno = start + tail + 1
  | .wlCopy tail dst src =>
    tail < s.lh.length ∧ (s.buf dst).blockno = start + tail + 1 ∧
      (s.buf src).blockno = s.lh.getD tail 0
  | .wlRelseFrom tail dst _ | .wlRelseTo tail dst =>
    tail < s.lh.length ∧ (s.buf dst).blockno = start + tail + 1 ∧
      s.disk (s.buf dst).blockno = (s.buf dst).data
  | .headWrite _ i => (s.buf i).blockno = start
  | .headRelse _ i => (s.buf i).blockno = start ∧ s.disk (s.buf i).blockno = (s.buf i).data
  | .itDst tail lbuf => tail < s.lh.length ∧ (s.buf lbuf).blockno = start + tail + 1
  | .itCopy tail lbuf dbuf =>
    tail < s.lh.length ∧ (s.buf lbuf).blockno = start + tail + 1 ∧
      (s.buf dbuf).blockno = s.lh.getD tail 0
  | .itRelseLog tail _ dbuf | .itRelseDst tail dbuf =>
    tail < s.lh.length ∧ (s.buf dbuf).blockno = s.lh.getD tail 0 ∧
      s.disk (s.buf dbuf).blockno = (s.buf dbuf).data
  | _ => True

theorem at_congr {start : ℕ} {s t : St} {k : Code} (h : k.At start s) (hlh : t.lh = s.lh)
    (hno : ∀ i ∈ k.bufs, (t.buf i).blockno = (s.buf i).blockno)
    (hmod : ∀ i ∈ k.modified, (t.buf i).data = (s.buf i).data ∧
      t.disk (s.buf i).blockno = s.disk (s.buf i).blockno) : k.At start t := by
  cases k with
  | run op held =>
    refine ⟨h.1, fun x hx hl => ?_⟩
    rw [hlh, hno x.buf (List.mem_map_of_mem hx)]
    exact h.2 x hx hl
  | _ => grind [At, bufs, modified]

theorem at_of_not_inOp {start : ℕ} {s : St} (t : St) {k : Code} (h : k.At start s)
    (hop : k.inOp = false) (hcommit : k.inCommit = false) : k.At start t := by
  cases k with
  | run op held =>
    cases op with
    | none =>
      refine ⟨h.1, fun x hx hl => ?_⟩
      rw [(h.1 rfl x hx).2] at hl
      cases hl
    | some logs => cases hop
  | _ => cases hcommit

theorem modified_eq_nil {start : ℕ} {s : St} {k : Code} (h : k.At start s)
    (hop : k.inOp = false) (hcommit : k.inCommit = false) : k.modified = [] := by
  cases k with
  | run op held =>
    cases op with
    | none =>
      simp only [modified, List.map_eq_nil_iff, List.filter_eq_nil_iff]
      intro x hx
      simp [(h.1 rfl x hx).1]
    | some logs => cases hop
  | _ => cases hcommit

end Code

/-- The protocol of `begin_op`, `end_op` and `commit`. -/
structure Proto (N start : ℕ) (s : St) : Prop where
  code : ∀ p, (s.pc p).code.At start s
  outstanding : s.outstanding = ∑ p ∈ Finset.range N, (s.pc p).code.inOp.toNat
  quiet : s.committing = true → s.outstanding = 0
  commit : ∀ p, (s.pc p).code.inCommit = true →
    s.committing = true ∧ s.pins = (s.pc p).code.pinsAt s.lh
  single : ∀ p q, (s.pc p).code.inCommit = true → (s.pc q).code.inCommit = true → p = q
  pins : s.committing = false → s.pins = s.lh
  nodup : s.lh.Nodup

structure Inv (N start : ℕ) (s : St) : Prop where
  cache : Cache N s
  content : Content s
  proto : Proto N start s

section Content

variable {s t : St} {p : ℕ} {x : Pt}

theorem modified_update (hpc : t.pc = update s.pc p x) (i : ℕ) :
    t.Modified i ↔ i ∈ x.code.modified ∨ ∃ q, q ≠ p ∧ i ∈ (s.pc q).code.modified := by
  simp only [St.Modified, hpc]
  constructor
  · rintro ⟨q, hq⟩
    by_cases hqp : q = p
    · subst hqp
      rw [update_self] at hq
      exact .inl hq
    · rw [update_of_ne hqp] at hq
      exact .inr ⟨q, hqp, hq⟩
  · rintro (hx | ⟨q, hqp, hq⟩)
    · exact ⟨p, by rwa [update_self]⟩
    · exact ⟨q, by rwa [update_of_ne hqp]⟩

theorem modified_iff (p i : ℕ) :
    s.Modified i ↔ i ∈ (s.pc p).code.modified ∨ ∃ q, q ≠ p ∧ i ∈ (s.pc q).code.modified :=
  modified_update (x := s.pc p) (update_eq_self p s.pc).symm i

theorem modified_same (hpc : t.pc = update s.pc p x)
    (hx : ∀ i, i ∈ x.code.modified ↔ i ∈ (s.pc p).code.modified) (i : ℕ) :
    t.Modified i ↔ s.Modified i := by
  rw [modified_update hpc, modified_iff p, hx]

theorem Content.congr (h : Content s) (hdev : ∀ i, (t.buf i).dev = (s.buf i).dev)
    (hno : ∀ i, (t.buf i).blockno = (s.buf i).blockno)
    (hvalid : ∀ i, (t.buf i).valid = (s.buf i).valid)
    (hdata : ∀ i, (t.buf i).data = (s.buf i).data) (hdisk : t.disk = s.disk)
    (hlast : t.last = s.last) (hpins : ∀ b ∈ s.pins, b ∈ t.pins)
    (hmod : ∀ i, t.Modified i ↔ s.Modified i) : Content t where
  data := by
    intro i b hi hv hm
    rw [hdata, hlast]
    refine h.data i b ?_ ((hvalid i).symm.trans hv) (fun h => hm ((hmod i).mpr h))
    simpa only [St.Holds, hdev, hno] using hi
  disk := by
    intro b hb hm
    rw [hdisk, hlast]
    refine h.disk b (fun h => hb (hpins b h)) (fun i hi => ?_)
    rw [← hno i]
    exact hm i ((hmod i).mpr hi)

end Content

theorem Cache.filled_of_modified {N : ℕ} {s : St} (hc : Cache N s) {i : ℕ} (h : s.Modified i) :
    ∃ p, i ∈ (s.pc p).filled := by
  obtain ⟨p, hp⟩ := h
  exact ⟨p, Pt.modified_subset_filled (hc.proc p).fresh hp⟩

theorem Cache.refs_of_modified {N : ℕ} {s : St} (hc : Cache N s) {i : ℕ} (h : s.Modified i) :
    ∃ p, i ∈ (s.pc p).refs := by
  obtain ⟨p, hp⟩ := hc.filled_of_modified h
  exact ⟨p, Pt.locks_subset_refs (Pt.filled_subset_locks hp)⟩

namespace Proto

variable {N start : ℕ} {s t : St} {p : ℕ} {x : Pt}

theorem move (h : Proto N start s) (hpc : t.pc = update s.pc p x)
    (hlh : t.lh = s.lh) (hout : t.outstanding = s.outstanding)
    (hcommitting : t.committing = s.committing) (hpins : t.pins = s.pins)
    (hop : x.code.inOp = (s.pc p).code.inOp) (hcommit : x.code.inCommit = (s.pc p).code.inCommit)
    (hat : x.code.pinsAt s.lh = (s.pc p).code.pinsAt s.lh) (hx : x.code.At start t)
    (hother : ∀ q, q ≠ p → (s.pc q).code.At start t) : Proto N start t := by
  have hinCommit : ∀ q, (t.pc q).code.inCommit = (s.pc q).code.inCommit := by
    intro q
    rw [hpc]
    by_cases hq : q = p
    · rw [hq, update_self, hcommit]
    · rw [update_of_ne hq]
  constructor
  · intro q
    rw [hpc]
    by_cases hq : q = p
    · rw [hq, update_self]
      exact hx
    · rw [update_of_ne hq]
      exact hother q hq
  · rw [hout, h.outstanding]
    refine Finset.sum_congr rfl (fun q _ => ?_)
    rw [hpc]
    by_cases hq : q = p
    · rw [hq, update_self, hop]
    · rw [update_of_ne hq]
  · rw [hout, hcommitting]
    exact h.quiet
  · intro q hq
    rw [hinCommit] at hq
    rw [hcommitting, hpins, hlh, hpc]
    refine ⟨(h.commit q hq).1, ?_⟩
    by_cases hqp : q = p
    · rw [hqp, update_self, hat, ← hqp]
      exact (h.commit q hq).2
    · rw [update_of_ne hqp]
      exact (h.commit q hq).2
  · intro q r hq hr
    rw [hinCommit] at hq hr
    exact h.single q r hq hr
  · rw [hcommitting, hpins, hlh]
    exact h.pins
  · rw [hlh]
    exact h.nodup

end Proto

theorem Pt.bufs_subset_refs {x : Pt} {i : ℕ} (h : i ∈ x.code.bufs) : i ∈ x.refs := by
  cases x with
  | unref j k => exact List.mem_cons_of_mem j h
  | ready k => exact h
  | want j k => exact h
  | fill j k => exact h
  | panic w k => exact h

/-- `bread` of block `b` is called at `k`, and `k' i` is where it returns the buffer `i`. -/
structure Gets (start : ℕ) (lh : List ℕ) (b : ℕ) (k : Code) (k' : ℕ → Code) : Prop where
  bufs : ∀ i, (k' i).bufs = i :: k.bufs
  modified : ∀ i, (k' i).modified = k.modified
  inOp : ∀ i, (k' i).inOp = k.inOp
  inCommit : ∀ i, (k' i).inCommit = k.inCommit
  pinsAt : ∀ i, (k' i).pinsAt lh = k.pinsAt lh
  atBuf : ∀ i (t : St), t.lh = lh → (t.buf i).blockno = b → k.At start t → (k' i).At start t

namespace Inv

variable {N start : ℕ} {s t : St} {p i b : ℕ}

section

variable (h : Inv N start s)
include h

theorem proto_move {x : Pt} (hpc : t.pc = update s.pc p x)
    (hlh : t.lh = s.lh) (hout : t.outstanding = s.outstanding)
    (hcommitting : t.committing = s.committing) (hpins : t.pins = s.pins)
    (hop : x.code.inOp = (s.pc p).code.inOp) (hcommit : x.code.inCommit = (s.pc p).code.inCommit)
    (hat : x.code.pinsAt s.lh = (s.pc p).code.pinsAt s.lh) (hx : x.code.At start t)
    (hno : ∀ q, q ≠ p → ∀ i ∈ (s.pc q).refs, (t.buf i).blockno = (s.buf i).blockno)
    (hmod : ∀ q, q ≠ p → ∀ i ∈ (s.pc q).code.modified, (t.buf i).data = (s.buf i).data ∧
      t.disk (s.buf i).blockno = s.disk (s.buf i).blockno) : Proto N start t :=
  h.proto.move hpc hlh hout hcommitting hpins hop hcommit hat hx (fun q hq =>
    Code.at_congr (h.proto.code q) hlh (fun i hi => hno q hq i (Pt.bufs_subset_refs hi)) (hmod q hq))

theorem hit {k : Code} {k' : ℕ → Code} (hp : p < N) (hk : s.pc p = .ready k)
    (hget : Gets start s.lh b k k') (hi : s.Holds i b) :
    Inv N start ((s.hit i).setPc p (.want i (k' i))) := by
  have hno : ∀ j, ((s.hit i).buf j).blockno = (s.buf j).blockno := St.setBuf_field Buf.blockno rfl
  have hdata : ∀ j, ((s.hit i).buf j).data = (s.buf j).data := St.setBuf_field Buf.data rfl
  have hcode : (s.pc p).code = k := by rw [hk]; rfl
  have hkAt : k.At start s := hcode ▸ h.proto.code p
  refine ⟨h.cache.hit hp hk hi (hget.bufs i) (hget.modified i), ?_, ?_⟩
  · refine h.content.congr (St.setBuf_field Buf.dev rfl) hno (St.setBuf_field Buf.valid rfl) hdata
      rfl rfl (fun _ hb => hb) (modified_same rfl (fun j => ?_))
    rw [hcode]
    simp only [Pt.code, hget.modified]
  · refine h.proto_move rfl rfl rfl rfl rfl ?_ ?_ ?_ ?_ (fun _ _ j _ => hno j)
      (fun _ _ j _ => ⟨hdata j, rfl⟩)
    · rw [hcode]
      exact hget.inOp i
    · rw [hcode]
      exact hget.inCommit i
    · rw [hcode]
      exact hget.pinsAt i
    · refine hget.atBuf i _ rfl ((hno i).trans hi.2.2) ?_
      exact Code.at_congr hkAt rfl (fun j _ => hno j) (fun j _ => ⟨hdata j, rfl⟩)

theorem recycle {k : Code} {k' : ℕ → Code} (hp : p < N)
    (hk : s.pc p = .ready k) (hget : Gets start s.lh b k k') (hmiss : ∀ j, ¬ s.Holds j b)
    (hi : i < NBUF) (hzero : (s.buf i).refcnt = 0) :
    Inv N start ((s.recycle i ROOTDEV b).setPc p (.want i (k' i))) := by
  have hother : ∀ j, j ≠ i → (s.recycle i ROOTDEV b).buf j = s.buf j :=
    fun j hj => St.setBuf_of_ne s _ hj
  have hself : (s.recycle i ROOTDEV b).buf i =
      { s.buf i with dev := ROOTDEV, blockno := b, valid := false, refcnt := 1 } :=
    St.setBuf_self ..
  have hnone := h.cache.not_mem_refs hi hzero
  have hrefs : ∀ q, ∀ j ∈ (s.pc q).refs, (s.recycle i ROOTDEV b).buf j = s.buf j :=
    fun q j hj => hother j (fun hji => hnone q (hji ▸ hj))
  have hcode : (s.pc p).code = k := by rw [hk]; rfl
  have hkAt : k.At start s := hcode ▸ h.proto.code p
  have hmod : ∀ j, ((s.recycle i ROOTDEV b).setPc p (.want i (k' i))).Modified j ↔ s.Modified j := by
    refine modified_same rfl (fun j => ?_)
    rw [hcode]
    simp only [Pt.code, hget.modified]
  refine ⟨h.cache.recycle hp hk hmiss hi hzero (hget.bufs i) (hget.modified i), ⟨?_, ?_⟩, ?_⟩
  · intro j c hj hv hm
    change ((s.recycle i ROOTDEV b).buf j).valid = true at hv
    change ((s.recycle i ROOTDEV b).buf j).data = s.last c
    by_cases hji : j = i
    · rw [hji, hself] at hv
      cases hv
    · rw [hother j hji] at hv ⊢
      refine h.content.data j c ?_ hv (fun hjm => hm ((hmod j).mpr hjm))
      simpa only [St.Holds, St.setPc, hother j hji] using hj
  · intro c hc hm
    refine h.content.disk c hc (fun j hj => ?_)
    obtain ⟨q, hq⟩ := h.cache.refs_of_modified hj
    have hne := hm j ((hmod j).mpr hj)
    change ((s.recycle i ROOTDEV b).buf j).blockno ≠ c at hne
    rwa [hrefs q j hq] at hne
  · refine h.proto_move rfl rfl rfl rfl rfl ?_ ?_ ?_ ?_
      (fun q _ j hj => congrArg Buf.blockno (hrefs q j hj))
      (fun q _ j hj => ⟨congrArg Buf.data (hrefs q j ?_), rfl⟩)
    · rw [hcode]
      exact hget.inOp i
    · rw [hcode]
      exact hget.inCommit i
    · rw [hcode]
      exact hget.pinsAt i
    · refine hget.atBuf i _ rfl (congrArg Buf.blockno hself) ?_
      have hbufs : ∀ j ∈ k.bufs, j ∈ (s.pc p).refs := fun j hj => by rwa [hk]
      exact Code.at_congr hkAt rfl
        (fun j hj => congrArg Buf.blockno (hrefs p j (hbufs j hj)))
        (fun j hj => ⟨congrArg Buf.data (hrefs p j (hbufs j (Code.bufs_of_mem_modified hj))), rfl⟩)
    · exact Pt.bufs_subset_refs (Code.bufs_of_mem_modified hj)

theorem setPc {x : Pt} (hp : p < N)
    (hrefs : ∀ j, x.refs.count j = (s.pc p).refs.count j)
    (hlocks : ∀ j, j ∈ x.locks ↔ j ∈ (s.pc p).locks) (hx : ProcOk s.buf x)
    (hmod : ∀ j, j ∈ x.code.modified ↔ j ∈ (s.pc p).code.modified)
    (hop : x.code.inOp = (s.pc p).code.inOp) (hcommit : x.code.inCommit = (s.pc p).code.inCommit)
    (hat : x.code.pinsAt s.lh = (s.pc p).code.pinsAt s.lh)
    (hcode : x.code.At start s) : Inv N start (s.setPc p x) :=
  ⟨h.cache.setPc hp rfl rfl rfl hrefs hlocks hx,
    h.content.congr (fun _ => rfl) (fun _ => rfl) (fun _ => rfl) (fun _ => rfl) rfl rfl
      (fun _ hb => hb) (modified_same rfl hmod),
    h.proto_move rfl rfl rfl rfl rfl hop hcommit hat
      (Code.at_congr hcode rfl (fun _ _ => rfl) (fun _ _ => ⟨rfl, rfl⟩)) (fun _ _ _ _ => rfl)
      (fun _ _ _ _ => ⟨rfl, rfl⟩)⟩

theorem bget {k : Code} {k' : ℕ → Code} (hp : p < N) (hk : s.pc p = .ready k)
    (hget : Gets start s.lh b k k') : Inv N start (s.bget p ROOTDEV b k k') := by
  unfold St.bget
  split
  · rename_i i hi
    exact h.hit hp hk hget (h.cache.cached_eq_some hi)
  · rename_i hmiss
    split
    · rename_i i hi
      obtain ⟨hlt, hzero⟩ := h.cache.unused_eq_some hi
      exact h.recycle hp hk hget (h.cache.cached_eq_none.mp hmiss) hlt hzero
    · have hok : ProcOk s.buf (.ready k) := hk ▸ h.cache.proc p
      refine h.setPc hp ?_ ?_ ⟨hok.nodup, hok.bound, hok.valid, trivial⟩ ?_ ?_ ?_ ?_ ?_
      · exact fun j => by rw [hk]; rfl
      · exact fun j => by rw [hk]; rfl
      · exact fun j => by rw [hk]; rfl
      · rw [hk]
        rfl
      · rw [hk]
        rfl
      · rw [hk]
        rfl
      · have hcode := h.proto.code p
        rwa [hk] at hcode

theorem acquire {k : Code} (hp : p < N) (hk : s.pc p = .want i k)
    (hfree : (s.buf i).lock = none) :
    Inv N start ((s.setLock i (some p)).setPc p (.fill i k)) := by
  have hno : ∀ j, ((s.setLock i (some p)).buf j).blockno = (s.buf j).blockno :=
    St.setBuf_field Buf.blockno rfl
  have hdata : ∀ j, ((s.setLock i (some p)).buf j).data = (s.buf j).data :=
    St.setBuf_field Buf.data rfl
  have hcode := h.proto.code p
  rw [hk] at hcode
  refine ⟨h.cache.acquire hp hk hfree, ?_, ?_⟩
  · exact h.content.congr (St.setBuf_field Buf.dev rfl) hno (St.setBuf_field Buf.valid rfl) hdata
      rfl rfl (fun _ hb => hb) (modified_same rfl (fun j => by rw [hk]; rfl))
  · refine h.proto_move rfl rfl rfl rfl rfl (by rw [hk]; rfl) (by rw [hk]; rfl) (by rw [hk]; rfl)
      ?_ (fun _ _ j _ => hno j) (fun _ _ j _ => ⟨hdata j, rfl⟩)
    exact Code.at_congr hcode rfl (fun j _ => hno j) (fun j _ => ⟨hdata j, rfl⟩)

/-- A buffer on its way from `bget` that is not valid has its block's contents on disk. -/
theorem disk_of_not_valid {k : Code} (hk : s.pc p = .fill i k)
    (hv : (s.buf i).valid = false) : s.disk (s.buf i).blockno = s.last (s.buf i).blockno := by
  have hi : s.Holds i (s.buf i).blockno := by
    refine h.cache.holds_of_mem_refs (p := p) ?_
    obtain ⟨l, hl, -⟩ : (Pt.fill i k).Fresh := hk ▸ (h.cache.proc p).fresh
    rw [hk]
    simp [Pt.refs, Pt.code, hl]
  refine h.content.disk _ (fun hpin => ?_) (fun j hj hb => ?_)
  · obtain ⟨j, hj, hjv⟩ := h.cache.pins _ hpin
    rw [h.cache.unique j i _ hj hi, hv] at hjv
    cases hjv
  · obtain ⟨q, hq⟩ := h.cache.filled_of_modified hj
    have hHolds := h.cache.holds_of_mem_refs (Pt.locks_subset_refs (Pt.filled_subset_locks hq))
    have hjv := (h.cache.proc q).valid j hq
    rw [h.cache.unique j i _ (hb ▸ hHolds) hi, hv] at hjv
    cases hjv

theorem fill_data {k : Code} (hk : s.pc p = .fill i k) :
    ((s.fill i).buf i).data = s.last (s.buf i).blockno := by
  have hok : ProcOk s.buf (.fill i k) := hk ▸ h.cache.proc p
  obtain ⟨l, hl, hmod⟩ := hok.fresh
  have hi : i ∈ (s.pc p).refs := by
    rw [hk]
    simp [Pt.refs, Pt.code, hl]
  have hnodup : (i :: l).Nodup := by simpa only [Pt.locks, Pt.code, hl] using hok.nodup
  rw [St.fill_eq, St.setBuf_self]
  dsimp only
  split_ifs with hv
  · refine h.content.data i _ (h.cache.holds_of_mem_refs hi) hv ?_
    rintro ⟨q, hq⟩
    -- the lock is ours, and we have not changed the buffer
    have hqp : q = p := by
      refine h.cache.of_lock
        (Pt.filled_subset_locks (Pt.modified_subset_filled (h.cache.proc q).fresh hq)) ?_
      rw [hk]
      simp [Pt.locks, Pt.code, hl]
    rw [hqp, hk] at hq
    exact (List.nodup_cons.mp hnodup).1 (hmod i hq)
  · exact h.disk_of_not_valid hk (by simpa using hv)

theorem fill_modified (i q j : ℕ) (hj : j ∈ (s.pc q).code.modified) :
    ((s.fill i).buf j).data = (s.buf j).data := by
  have hv := (h.cache.proc q).valid j (Pt.modified_subset_filled (h.cache.proc q).fresh hj)
  unfold St.fill
  split_ifs with hvi
  · rfl
  · rw [St.setBuf_of_ne]
    rintro rfl
    exact hvi hv

theorem fill {k : Code} (hp : p < N) (hk : s.pc p = .fill i k) :
    Inv N start ((s.fill i).setPc p (.ready k)) := by
  have hcache := h.cache.fill hp hk
  have hdata := h.fill_data hk
  have hok : ProcOk s.buf (.fill i k) := hk ▸ h.cache.proc p
  obtain ⟨l, hl, hmodl⟩ := hok.fresh
  have hcode : k.At start s := by
    have hcode := h.proto.code p
    rwa [hk] at hcode
  have hmodData := h.fill_modified i
  rw [St.fill_eq] at hcache hdata hmodData ⊢
  generalize hy : ({ s.buf i with valid := true, data := _ } : Buf) = y at *
  have hdev : ∀ j, ((s.setBuf i y).buf j).dev = (s.buf j).dev :=
    St.setBuf_field Buf.dev (by rw [← hy])
  have hno : ∀ j, ((s.setBuf i y).buf j).blockno = (s.buf j).blockno :=
    St.setBuf_field Buf.blockno (by rw [← hy])
  have hmod : ∀ j, ((s.setBuf i y).setPc p (.ready k)).Modified j ↔ s.Modified j :=
    modified_same rfl (fun j => by rw [hk]; rfl)
  refine ⟨hcache, ⟨?_, ?_⟩, ?_⟩
  · intro j c hj hv hm
    change ((s.setBuf i y).buf j).valid = true at hv
    change ((s.setBuf i y).buf j).data = s.last c
    have hjs : s.Holds j c := by
      refine ⟨hj.1, (hdev j).symm.trans hj.2.1, (hno j).symm.trans hj.2.2⟩
    by_cases hji : j = i
    · subst hji
      rw [hdata, hjs.2.2]
    · rw [St.setBuf_of_ne s y hji] at hv ⊢
      exact h.content.data j c hjs hv (fun hjm => hm ((hmod j).mpr hjm))
  · intro c hc hm
    refine h.content.disk c hc (fun j hj => ?_)
    rw [← hno j]
    exact hm j ((hmod j).mpr hj)
  · refine h.proto_move (x := .ready k) rfl rfl rfl rfl rfl (by rw [hk]; rfl) (by rw [hk]; rfl)
      (by rw [hk]; rfl) ?_ (fun _ _ j _ => hno j) (fun q _ j hj => ⟨hmodData q j hj, rfl⟩)
    exact Code.at_congr hcode rfl (fun j _ => hno j)
      (fun j hj => ⟨hmodData p j (by rwa [hk]), rfl⟩)

theorem unref {k : Code} (hp : p < N) (hk : s.pc p = .unref i k) :
    Inv N start ((s.unref i).setPc p (.ready k)) := by
  have hcache := h.cache.unref hp hk
  have hcode : k.At start s := by
    have hcode := h.proto.code p
    rwa [hk] at hcode
  have hno := St.unref_field Buf.blockno (fun _ _ _ _ => rfl) s i
  have hdata := St.unref_field Buf.data (fun _ _ _ _ => rfl) s i
  have hpc : ((s.unref i).setPc p (.ready k)).pc = update s.pc p (.ready k) := by
    rw [St.unref_eq]
    rfl
  have hdisk : (s.unref i).disk = s.disk := by rw [St.unref_eq]
  have hpins : (s.unref i).pins = s.pins := by rw [St.unref_eq]
  have hlh : (s.unref i).lh = s.lh := by rw [St.unref_eq]
  refine ⟨hcache, ?_, ?_⟩
  · exact h.content.congr (St.unref_field Buf.dev (fun _ _ _ _ => rfl) s i) hno
      (St.unref_field Buf.valid (fun _ _ _ _ => rfl) s i) hdata hdisk (by rw [St.unref_eq]; rfl)
      (fun _ hb => hpins.symm ▸ hb) (modified_same hpc (fun j => by rw [hk]; rfl))
  · refine h.proto_move hpc hlh (by rw [St.unref_eq]; rfl) (by rw [St.unref_eq]; rfl) hpins
      (by rw [hk]; rfl) (by rw [hk]; rfl) (by rw [hk]; rfl) ?_ (fun _ _ j _ => hno j)
      (fun _ _ j _ => ⟨hdata j, congrFun hdisk _⟩)
    exact Code.at_congr hcode hlh (fun j _ => hno j) (fun j _ => ⟨hdata j, congrFun hdisk _⟩)

theorem brelse {k k' : Code} (hp : p < N) (hk : s.pc p = .ready k)
    (hbufs : k.bufs.Perm (i :: k'.bufs)) (hmod : ∀ j, j ∈ k'.modified ↔ j ∈ k.modified)
    (hop : k'.inOp = k.inOp) (hcommit : k'.inCommit = k.inCommit)
    (hpins : k'.pinsAt s.lh = k.pinsAt s.lh) (hat : k.At start s → k'.At start s) :
    Inv N start (s.brelse p i k') := by
  have hno : ∀ j, ((s.setLock i none).buf j).blockno = (s.buf j).blockno :=
    St.setBuf_field Buf.blockno rfl
  have hdata : ∀ j, ((s.setLock i none).buf j).data = (s.buf j).data := St.setBuf_field Buf.data rfl
  have hcode := h.proto.code p
  rw [hk] at hcode
  refine ⟨h.cache.brelse hp hk hbufs, ?_, ?_⟩
  · refine h.content.congr (St.setBuf_field Buf.dev rfl) hno (St.setBuf_field Buf.valid rfl) hdata
      rfl rfl (fun _ hb => hb) (modified_same rfl (fun j => ?_))
    rw [hk]
    exact hmod j
  · refine h.proto_move rfl rfl rfl rfl rfl ?_ ?_ ?_ ?_ (fun _ _ j _ => hno j)
      (fun _ _ j _ => ⟨hdata j, rfl⟩)
    · rw [hk]
      exact hop
    · rw [hk]
      exact hcommit
    · rw [hk]
      exact hpins
    · exact Code.at_congr (hat hcode) rfl (fun j _ => hno j) (fun j _ => ⟨hdata j, rfl⟩)

theorem brelseModified {k k' : Code} (d : Disk) (hp : p < N)
    (hk : s.pc p = .ready k) (hbufs : k.bufs.Perm (i :: k'.bufs))
    (hmod : ∀ j, j ∈ k.modified ↔ j = i ∨ j ∈ k'.modified)
    (hsafe : (s.buf i).blockno ∈ s.pins ∨ s.disk (s.buf i).blockno = (s.buf i).data)
    (hop : k'.inOp = k.inOp) (hcommit : k'.inCommit = k.inCommit)
    (hpins : k'.pinsAt s.lh = k.pinsAt s.lh) (hat : k.At start s → k'.At start s) :
    Inv N start { s.brelseModified p i k' with lastOp := d } := by
  have hcache := h.cache.brelse hp hk hbufs
  have hi : s.Holds i (s.buf i).blockno := by
    refine h.cache.holds_of_mem_refs (p := p) ?_
    rw [hk]
    exact hbufs.mem_iff.mpr List.mem_cons_self
  have hdev : ∀ j, ((s.setLock i none).buf j).dev = (s.buf j).dev := St.setBuf_field Buf.dev rfl
  have hno : ∀ j, ((s.setLock i none).buf j).blockno = (s.buf j).blockno :=
    St.setBuf_field Buf.blockno rfl
  have hvalid : ∀ j, ((s.setLock i none).buf j).valid = (s.buf j).valid :=
    St.setBuf_field Buf.valid rfl
  have hdata : ∀ j, ((s.setLock i none).buf j).data = (s.buf j).data := St.setBuf_field Buf.data rfl
  have hcode := h.proto.code p
  rw [hk] at hcode
  have hmodified : ∀ j, s.Modified j →
      j = i ∨ ({ s.brelseModified p i k' with lastOp := d } : St).Modified j := by
    intro j hj
    rw [modified_iff p, hk] at hj
    rw [modified_update (s := s) (p := p) rfl]
    rcases hj with hj | hj
    · rcases (hmod j).mp hj with rfl | hj
      · exact .inl rfl
      · exact .inr (.inl hj)
    · exact .inr (.inr hj)
  refine ⟨⟨hcache.ring, hcache.unique, hcache.refcnt, hcache.lock, hcache.proc, hcache.idle,
    hcache.pins⟩, ⟨?_, ?_⟩, ?_⟩
  · intro j c hj hv hm
    change ((s.setLock i none).buf j).valid = true at hv
    change ((s.setLock i none).buf j).data = update s.last (s.buf i).blockno (s.buf i).data c
    have hjs : s.Holds j c := ⟨hj.1, (hdev j).symm.trans hj.2.1, (hno j).symm.trans hj.2.2⟩
    rw [hvalid] at hv
    rw [hdata]
    by_cases hji : j = i
    · subst hji
      rw [← hjs.2.2, update_self]
    · have hcb : c ≠ (s.buf i).blockno := fun hcb => hji (h.cache.unique j i c hjs (hcb ▸ hi))
      rw [update_of_ne hcb]
      exact h.content.data j c hjs hv (fun hjm => (hmodified j hjm).elim hji hm)
  · intro c hc hm
    change s.disk c = update s.last (s.buf i).blockno (s.buf i).data c
    by_cases hcb : c = (s.buf i).blockno
    · rw [hcb, update_self]
      exact hsafe.resolve_left (hcb ▸ hc)
    · rw [update_of_ne hcb]
      refine h.content.disk c hc (fun j hj => ?_)
      rcases hmodified j hj with rfl | hj
      · exact Ne.symm hcb
      · rw [← hno j]
        exact hm j hj
  · refine h.proto_move (p := p) rfl rfl rfl rfl rfl ?_ ?_ ?_ ?_ (fun _ _ j _ => hno j)
      (fun _ _ j _ => ⟨hdata j, rfl⟩)
    · rw [hk]
      exact hop
    · rw [hk]
      exact hcommit
    · rw [hk]
      exact hpins
    · exact Code.at_congr (hat hcode) rfl (fun j _ => hno j) (fun j _ => ⟨hdata j, rfl⟩)

end

end Inv

end Xv6.Bio
