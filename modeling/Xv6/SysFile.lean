import Xv6.SysMem
import Xv6.Kalloc

/-! The file table and the pages of the pipes. `c f` is the number of references to the file
`f` that somebody holds; at the end of a call these are the file descriptors. -/
namespace Xv6.UserVm

def PipeEnds.isOpen (e : PipeEnds) : Bool → Bool
  | true => e.writeopen
  | false => e.readopen

def PipeEnds.close (e : PipeEnds) : Bool → PipeEnds
  | true => { e with writeopen := false }
  | false => { e with readopen := false }

theorem PipeEnds.isOpen_close (e : PipeEnds) (w w' : Bool) :
    (e.close w).isOpen w' = true ↔ w ≠ w' ∧ e.isOpen w' = true := by
  cases w <;> cases w' <;> simp [close, isOpen]

/-- The file `f` is the given end of the pipe `pi`. -/
def IsEnd (file : ℕ → File) (f pi : ℕ) (w : Bool) : Prop :=
  f < NFILE ∧ (file f).type = .FD_PIPE ∧ (file f).pipe = pi ∧ (file f).writable = w

/-- The pipes that are open. -/
def pipeSet (file : ℕ → File) : Finset ℕ :=
  ((Finset.range NFILE).filter (fun f => (file f).type = .FD_PIPE)).image (fun f => (file f).pipe)

theorem mem_pipeSet {file : ℕ → File} {pi : ℕ} : pi ∈ pipeSet file ↔ ∃ f w, IsEnd file f pi w := by
  simp only [pipeSet, Finset.mem_image, Finset.mem_filter, Finset.mem_range, IsEnd]
  constructor
  · rintro ⟨f, ⟨hf, ht⟩, hp⟩
    exact ⟨f, _, hf, ht, hp, rfl⟩
  · rintro ⟨f, w, hf, ht, hp, -⟩
    exact ⟨f, ⟨hf, ht⟩, hp⟩

structure FileInv (file : ℕ → File) (pipe : ℕ → PipeEnds) (c : ℕ → ℕ) : Prop where
  ref : ∀ f < NFILE, (file f).ref = c f
  unused : ∀ f < NFILE, c f = 0 → (file f).type = .FD_NONE
  ends : ∀ pi w, (pipe pi).isOpen w = true ↔ ∃ f, IsEnd file f pi w
  inj : ∀ f g pi w, IsEnd file f pi w → IsEnd file g pi w → f = g

section FileInv

variable {file file' : ℕ → File} {pipe : ℕ → PipeEnds} {c : ℕ → ℕ} {f f0 f1 pi : ℕ}

theorem isEnd_congr (h : ∀ g < NFILE, (file' g).type = (file g).type ∧
    (file' g).pipe = (file g).pipe ∧ (file' g).writable = (file g).writable) {w : Bool} :
    IsEnd file' f pi w ↔ IsEnd file f pi w := by
  unfold IsEnd
  constructor
  · rintro ⟨hf, h1, h2, h3⟩
    obtain ⟨e1, e2, e3⟩ := h f hf
    exact ⟨hf, e1 ▸ h1, e2 ▸ h2, e3 ▸ h3⟩
  · rintro ⟨hf, h1, h2, h3⟩
    obtain ⟨e1, e2, e3⟩ := h f hf
    exact ⟨hf, e1.trans h1, e2.trans h2, e3.trans h3⟩

theorem setRef_same (file : ℕ → File) (f n : ℕ) (g : ℕ) (_ : g < NFILE) :
    (update file f { file f with ref := n } g).type = (file g).type ∧
    (update file f { file f with ref := n } g).pipe = (file g).pipe ∧
    (update file f { file f with ref := n } g).writable = (file g).writable := by
  by_cases h : g = f
  · subst h
    simp
  · simp [h]

theorem pipeSet_setRef (file : ℕ → File) (f n : ℕ) :
    pipeSet (update file f { file f with ref := n }) = pipeSet file := by
  ext pi
  rw [mem_pipeSet, mem_pipeSet]
  simp only [isEnd_congr (setRef_same file f n)]

theorem FileInv.setRef {n : ℕ} (hi : FileInv file pipe c)
    (hn : n = 0 → (file f).type = .FD_NONE) :
    FileInv (update file f { file f with ref := n }) pipe (update c f n) := by
  refine ⟨fun g hg => ?_, fun g hg => ?_, fun pi w => ?_, fun g h pi w => ?_⟩
  · by_cases h : g = f
    · subst h
      simp
    · simp [h, hi.ref g hg]
  · rw [(setRef_same file f n g hg).1]
    by_cases h : g = f
    · subst h
      simpa using hn
    · simpa [h] using hi.unused g hg
  · simp only [isEnd_congr (setRef_same file f n)]
    exact hi.ends pi w
  · simp only [isEnd_congr (setRef_same file f n)]
    exact hi.inj g h pi w

/-- A file that is closed for good. -/
def closedFile (file : ℕ → File) (f : ℕ) : ℕ → File :=
  update file f { file f with ref := 0, type := .FD_NONE }

theorem isEnd_closed {g : ℕ} {w : Bool} :
    IsEnd (closedFile file f) g pi w ↔ g ≠ f ∧ IsEnd file g pi w := by
  unfold IsEnd closedFile
  by_cases h : g = f
  · subst h
    simp
  · simp [h]

theorem isEnd_closed_of_not_pipe {g : ℕ} {w : Bool} (ht : (file f).type ≠ .FD_PIPE) :
    IsEnd (closedFile file f) g pi w ↔ IsEnd file g pi w := by
  rw [isEnd_closed, and_iff_right_iff_imp]
  rintro hg rfl
  exact ht hg.2.1

theorem mem_pipeSet_closed {q : ℕ} (hq : q ≠ (file f).pipe) :
    q ∈ pipeSet (closedFile file f) ↔ q ∈ pipeSet file := by
  rw [mem_pipeSet, mem_pipeSet]
  simp only [isEnd_closed]
  constructor
  · rintro ⟨g, w, -, hg⟩
    exact ⟨g, w, hg⟩
  · rintro ⟨g, w, hg⟩
    refine ⟨g, w, ?_, hg⟩
    rintro rfl
    exact hq hg.2.2.1.symm

theorem closedFile_ref (hi : FileInv file pipe c) (g : ℕ) (hg : g < NFILE) :
    (closedFile file f g).ref = update c f 0 g := by
  by_cases h : g = f
  · subst h
    simp [closedFile]
  · simp [closedFile, h, hi.ref g hg]

theorem closedFile_unused (hi : FileInv file pipe c) (g : ℕ) (hg : g < NFILE)
    (hc : update c f 0 g = 0) : (closedFile file f g).type = .FD_NONE := by
  by_cases h : g = f
  · subst h
    simp [closedFile]
  · simp only [closedFile, update_of_ne h] at hc ⊢
    exact hi.unused g hg hc

theorem FileInv.closeOther (hi : FileInv file pipe c) (ht : (file f).type ≠ .FD_PIPE) :
    FileInv (closedFile file f) pipe (update c f 0) := by
  refine ⟨closedFile_ref hi, closedFile_unused hi, fun pi w => ?_, fun g h pi w => ?_⟩
  · simp only [isEnd_closed_of_not_pipe ht]
    exact hi.ends pi w
  · simp only [isEnd_closed_of_not_pipe ht]
    exact hi.inj g h pi w

theorem FileInv.close (hi : FileInv file pipe c) (hf : f < NFILE) (ht : (file f).type = .FD_PIPE) :
    FileInv (closedFile file f)
      (update pipe (file f).pipe ((pipe (file f).pipe).close (file f).writable))
      (update c f 0) := by
  have hend : IsEnd file f (file f).pipe (file f).writable := ⟨hf, ht, rfl, rfl⟩
  refine ⟨closedFile_ref hi, closedFile_unused hi, fun pi w => ?_, fun g h pi w hg hh => ?_⟩
  · simp only [isEnd_closed]
    by_cases hpi : pi = (file f).pipe
    · subst hpi
      rw [update_self, PipeEnds.isOpen_close, hi.ends]
      constructor
      · rintro ⟨hw, g, hg⟩
        refine ⟨g, ?_, hg⟩
        rintro rfl
        exact hw hg.2.2.2
      · rintro ⟨g, hne, hg⟩
        refine ⟨?_, g, hg⟩
        rintro rfl
        exact hne (hi.inj g f _ _ hg hend)
    · rw [update_of_ne hpi, hi.ends]
      constructor
      · rintro ⟨g, hg⟩
        refine ⟨g, ?_, hg⟩
        rintro rfl
        exact hpi hg.2.2.1.symm
      · rintro ⟨g, -, hg⟩
        exact ⟨g, hg⟩
  · exact hi.inj g h pi w (isEnd_closed.mp hg).2 (isEnd_closed.mp hh).2

theorem isEnd_setType {g : ℕ} {w : Bool} {t : FileType} (ht : (file f).type ≠ .FD_PIPE) (ht' : t ≠ .FD_PIPE) :
    IsEnd (update file f { file f with type := t }) g pi w ↔ IsEnd file g pi w := by
  unfold IsEnd
  by_cases h : g = f
  · subst h
    simp [ht, ht']
  · simp [h]

theorem FileInv.setType {t : FileType} (hi : FileInv file pipe c) (ht : (file f).type ≠ .FD_PIPE)
    (ht' : t ≠ .FD_PIPE) (hc : c f ≠ 0) :
    FileInv (update file f { file f with type := t }) pipe c := by
  refine ⟨fun g hg => ?_, fun g hg h0 => ?_, fun pi w => ?_, fun g h pi w => ?_⟩
  · rw [← hi.ref g hg]
    by_cases h : g = f
    · subst h
      simp
    · simp [h]
  · have h : g ≠ f := by
      rintro rfl
      exact hc h0
    rw [update_of_ne h]
    exact hi.unused g hg h0
  · simp only [isEnd_setType ht ht']
    exact hi.ends pi w
  · simp only [isEnd_setType ht ht']
    exact hi.inj g h pi w

def pipeFiles (file : ℕ → File) (f0 f1 pi : ℕ) : ℕ → File :=
  let file := update file f0
    { file f0 with type := .FD_PIPE, pipe := pi, writable := false }
  update file f1 { file f1 with type := .FD_PIPE, pipe := pi, writable := true }

theorem isEnd_pipeFiles {g q : ℕ} {w : Bool} (h0 : f0 < NFILE) (h1 : f1 < NFILE) (hne : f0 ≠ f1)
    (ht0 : (file f0).type = .FD_NONE) (ht1 : (file f1).type = .FD_NONE) :
    IsEnd (pipeFiles file f0 f1 pi) g q w ↔
      IsEnd file g q w ∨ q = pi ∧ g = if w then f1 else f0 := by
  unfold IsEnd pipeFiles
  by_cases hg1 : g = f1
  · subst hg1
    cases w
    · simp [ht1, hne.symm]
    · simpa [h1, ht1] using eq_comm
  · by_cases hg0 : g = f0
    · subst hg0
      cases w
      · simpa [h0, ht0, hne] using eq_comm
      · simp [ht0, hne]
    · cases w <;> simp [hg0, hg1]

theorem FileInv.open (hi : FileInv file pipe c) (h0 : f0 < NFILE) (h1 : f1 < NFILE)
    (hne : f0 ≠ f1) (ht0 : (file f0).type = .FD_NONE) (ht1 : (file f1).type = .FD_NONE)
    (hc0 : c f0 ≠ 0) (hc1 : c f1 ≠ 0) (hpi : pi ∉ pipeSet file) :
    FileInv (pipeFiles file f0 f1 pi) (update pipe pi ⟨true, true⟩) c := by
  have hfresh (g : ℕ) (w : Bool) : ¬ IsEnd file g pi w := fun h => hpi (mem_pipeSet.mpr ⟨g, w, h⟩)
  refine ⟨fun g hg => ?_, fun g hg hc => ?_, fun q w => ?_, fun g h q w => ?_⟩
  · rw [← hi.ref g hg]
    unfold pipeFiles
    by_cases hg1 : g = f1
    · subst hg1
      simp [hne.symm]
    · by_cases hg0 : g = f0
      · subst hg0
        simp [hg1]
      · simp [hg0, hg1]
  · have hg0 : g ≠ f0 := fun h => hc0 (h ▸ hc)
    have hg1 : g ≠ f1 := fun h => hc1 (h ▸ hc)
    simp only [pipeFiles, update_of_ne hg1, update_of_ne hg0]
    exact hi.unused g hg hc
  · simp only [isEnd_pipeFiles h0 h1 hne ht0 ht1]
    by_cases hq : q = pi
    · subst hq
      simp only [update_self, hfresh, false_or, true_and, exists_eq, iff_true]
      cases w <;> rfl
    · rw [update_of_ne hq, hi.ends]
      simp [hq]
  · simp only [isEnd_pipeFiles h0 h1 hne ht0 ht1]
    rintro (hg | ⟨hq, hg⟩) (hh | ⟨hq', hh⟩)
    · exact hi.inj g h q w hg hh
    · exact absurd (hq' ▸ hg) (hfresh _ _)
    · exact absurd (hq ▸ hh) (hfresh _ _)
    · rw [hg, hh]

end FileInv

section Rules

variable {α : Type} {Q : α → Sys → Prop} {E : VmPanic → Sys → Prop} {s : Sys}

theorem wp_vm (m : Vm α) : wp (vm m) Q E s = wp m (fun a t => Q a { s with mem := t })
    (fun e t => E e { s with mem := t }) s.mem :=
  wp_zoom m

theorem wp_myproc {Q : UProc → Sys → Prop} (i : ℕ) : wp (myproc i) Q E s = Q (s.proc i) s := rfl

theorem wp_setProc {Q : Unit → Sys → Prop} (i : ℕ) (f : UProc → UProc) :
    wp (setProc i f) Q E s = Q () { s with proc := update s.proc i (f (s.proc i)) } := rfl

theorem wp_setFile {Q : Unit → Sys → Prop} (f : ℕ) (v : File → File) :
    wp (setFile f v) Q E s = Q () { s with file := update s.file f (v (s.file f)) } := rfl

theorem wp_setPipe {Q : Unit → Sys → Prop} (pi : ℕ) (v : PipeEnds → PipeEnds) :
    wp (setPipe pi v) Q E s = Q () { s with pipe := update s.pipe pi (v (s.pipe pi)) } := rfl

end Rules

/-- From `s` to `s'` only the file table and the pipes have changed. The references are now
`c`; the pages `B` of the others are as they were. -/
structure FileKept (lo : ℕ) (B : Multiset ℕ) (s : Sys) (c : ℕ → ℕ) (s' : Sys) : Prop where
  files : FileInv s'.file s'.pipe c
  uses : Uses lo s'.mem (B + (pipeSet s'.file).val)
  pages : ∀ q ∈ B, s'.mem.page q = s.mem.page q
  proc : s'.proc = s.proc
  initproc : s'.initproc = s.initproc
  first : s'.first = s.first
  iref : s'.iref = s.iref

section FileKept

variable {lo f : ℕ} {B : Multiset ℕ} {s₀ s : Sys} {c : ℕ → ℕ} {E : VmPanic → Sys → Prop}

section

variable (h : FileKept lo B s₀ c s)
include h

theorem FileKept.setRef {n : ℕ} (hn : n = 0 → (s.file f).type = .FD_NONE) :
    FileKept lo B s₀ (update c f n)
      { s with file := update s.file f { s.file f with ref := n } } := by
  refine ⟨h.files.setRef hn, ?_, h.pages, h.proc, h.initproc, h.first, h.iref⟩
  rw [pipeSet_setRef]
  exact h.uses

theorem filealloc_spec :
    wp filealloc (fun r s' => (r = none ∧ s' = s) ∨
      ∃ f, r = some f ∧ f < NFILE ∧ c f = 0 ∧ (s.file f).type = .FD_NONE ∧
        s'.file = update s.file f { s.file f with ref := 1 } ∧
        FileKept lo B s₀ (update c f 1) s') E s := by
  rw [filealloc, wp_bind, wp_get]
  cases hfind : (List.range NFILE).find? (fun f => decide ((s.file f).ref = 0)) with
  | none => exact .inl ⟨rfl, rfl⟩
  | some f =>
    have hf : f < NFILE := List.mem_range.mp (List.mem_of_find?_eq_some hfind)
    have hc : c f = 0 := by
      rw [← h.files.ref f hf]
      exact of_decide_eq_true (List.find?_some hfind :)
    exact .inr ⟨f, rfl, hf, hc, h.files.unused f hf hc, rfl,
      h.setRef (fun h0 => absurd h0 one_ne_zero)⟩

theorem filedup_spec (hf : f < NFILE) (hc : 0 < c f) :
    wp (filedup f) (fun _ s' => FileKept lo B s₀ (update c f (c f + 1)) s') E s := by
  rw [filedup, wp_bind, wp_get, wp_ite, if_neg (by rw [h.files.ref f hf]; omega), wp_setFile,
    ← h.files.ref f hf]
  exact h.setRef (fun h0 => absurd h0 (Nat.succ_ne_zero _))

/-- Closing an end that nobody else has, when the file is no longer in the table. -/
theorem pipeclose_spec (hf : f < NFILE)
    (ht : (s.file f).type = .FD_PIPE) :
    wp (pipeclose (s.file f).pipe (s.file f).writable)
      (fun _ s' => FileKept lo B s₀ (update c f 0) s') E
      { s with file := closedFile s.file f } := by
  have hclose : (if (s.file f).writable = true then
        setPipe (s.file f).pipe (fun v => { v with writeopen := false })
      else setPipe (s.file f).pipe (fun v => { v with readopen := false })) =
      setPipe (s.file f).pipe (fun v => v.close (s.file f).writable) := by
    cases (s.file f).writable <;> rfl
  have hi := h.files.close hf ht
  have hmem : (s.file f).pipe ∈ pipeSet s.file := mem_pipeSet.mpr ⟨f, _, hf, ht, rfl, rfl⟩
  -- the pipe stays iff one of its ends is still open
  have hopen : (s.file f).pipe ∈ pipeSet (closedFile s.file f) ↔
      ∃ w, ((s.pipe (s.file f).pipe).close (s.file f).writable).isOpen w = true := by
    have hends := hi.ends (s.file f).pipe
    rw [update_self] at hends
    simp only [mem_pipeSet, hends]
    exact exists_comm
  rw [pipeclose, hclose]
  simp only [wp_bind, wp_setPipe, wp_get, wp_ite, wp_pure, update_self]
  by_cases hgone : ((s.pipe (s.file f).pipe).close (s.file f).writable).readopen = false ∧
      ((s.pipe (s.file f).pipe).close (s.file f).writable).writeopen = false
  · rw [if_pos hgone, wp_vm]
    have hnot : (s.file f).pipe ∉ pipeSet (closedFile s.file f) := by
      rw [hopen]
      rintro ⟨w, hw⟩
      cases w
      · exact absurd (hgone.1.symm.trans hw) Bool.false_ne_true
      · exact absurd (hgone.2.symm.trans hw) Bool.false_ne_true
    have hset : pipeSet s.file = insert (s.file f).pipe (pipeSet (closedFile s.file f)) := by
      ext q
      by_cases hq : q = (s.file f).pipe
      · simp [hq, hmem]
      · simp [hq, mem_pipeSet_closed hq]
    have hu := h.uses
    rw [hset, Finset.insert_val_of_notMem hnot, Multiset.add_cons] at hu
    refine wp_imp (kfree_spec hu) ?_
    rintro _ m ⟨hs, hpage⟩
    refine ⟨hi, hs, fun q hq => ?_, h.proc, h.initproc, h.first, h.iref⟩
    refine (hpage q ?_).trans (h.pages q hq)
    rintro rfl
    exact (nodup_cons.mp hu.nodup).1 (mem_add.mpr (.inl hq))
  · rw [if_neg hgone]
    have hstays : (s.file f).pipe ∈ pipeSet (closedFile s.file f) := by
      rw [hopen]
      rcases not_and_or.mp hgone with hr | hw
      · exact ⟨false, Bool.eq_true_of_not_eq_false hr⟩
      · exact ⟨true, Bool.eq_true_of_not_eq_false hw⟩
    have hset : pipeSet (closedFile s.file f) = pipeSet s.file := by
      ext q
      by_cases hq : q = (s.file f).pipe
      · simp [hq, hmem, hstays]
      · exact mem_pipeSet_closed hq
    refine ⟨hi, ?_, h.pages, h.proc, h.initproc, h.first, h.iref⟩
    show Uses lo s.mem (B + (pipeSet (closedFile s.file f)).val)
    rw [hset]
    exact h.uses

theorem fileclose_spec (hf : f < NFILE) (hc : 0 < c f) :
    wp (fileclose f) (fun _ s' => FileKept lo B s₀ (update c f (c f - 1)) s') E s := by
  have href := h.files.ref f hf
  simp only [fileclose, wp_bind, wp_get, wp_ite, wp_pure, wp_setFile]
  rw [if_neg (by omega)]
  by_cases hlast : 0 < (s.file f).ref - 1
  · rw [if_pos hlast, ← href]
    exact h.setRef (by omega)
  · rw [if_neg hlast, show c f - 1 = 0 by omega]
    split_ifs with ht
    · exact pipeclose_spec h hf ht
    · refine ⟨h.files.closeOther ht, ?_, h.pages, h.proc, h.initproc, h.first, h.iref⟩
      have hset : pipeSet (closedFile s.file f) = pipeSet s.file := by
        ext q
        rw [mem_pipeSet, mem_pipeSet]
        simp only [isEnd_closed_of_not_pipe ht]
      show Uses lo s.mem (B + (pipeSet (closedFile s.file f)).val)
      rw [hset]
      exact h.uses

/-- `pipealloc`: two new files, or everything as before. -/
theorem pipealloc_spec :
    wp pipealloc (fun r s' =>
      (r = none ∧ FileKept lo B s₀ c s') ∨
      ∃ f0 f1, r = some (f0, f1) ∧ f0 < NFILE ∧ f1 < NFILE ∧ f0 ≠ f1 ∧ c f0 = 0 ∧ c f1 = 0 ∧
        FileKept lo B s₀ (update (update c f0 1) f1 1) s') E s := by
  rw [pipealloc]
  refine wp_seq (filealloc_spec h) ?_
  rintro _ s₁ (⟨rfl, rfl⟩ | ⟨f0, rfl, hf0, hc0, ht0, hfile0, h₁⟩)
  · exact .inl ⟨rfl, h⟩
  -- giving `f0` back
  have hback : update (update c f0 1) f0 0 = c := by
    rw [update_idem, ← hc0, update_eq_self]
  refine wp_seq (filealloc_spec h₁) ?_
  rintro _ s₂ (⟨rfl, rfl⟩ | ⟨f1, rfl, hf1, hc1, ht1, hfile1, h₂⟩)
  · refine wp_seq (fileclose_spec h₁ hf0 (by simp)) ?_
    intro _ s₃ h₃
    rw [update_self, Nat.sub_self, hback] at h₃
    exact .inl ⟨rfl, h₃⟩
  have hne : f0 ≠ f1 := by
    rintro rfl
    rw [update_self] at hc1
    exact one_ne_zero hc1
  rw [update_of_ne hne.symm] at hc1
  rw [wp_bind, wp_vm]
  refine wp_imp (kalloc_spec h₂.uses) ?_
  rintro _ m (⟨rfl, hs₃, hpage⟩ | ⟨pi, rfl, hs₃, hpi, hpage⟩)
  · have h₃ : FileKept lo B s₀ (update (update c f0 1) f1 1)
        { s₂ with mem := m } :=
      ⟨h₂.files, hs₃, fun q hq => by rw [hpage]; exact h₂.pages q hq, h₂.proc, h₂.initproc, h₂.first, h₂.iref⟩
    refine wp_seq (fileclose_spec h₃ hf0 (by simp [hne])) ?_
    intro _ s₄ h₄
    refine wp_seq (fileclose_spec h₄ hf1 (by simp [hne.symm])) ?_
    intro _ s₅ h₅
    refine .inl ⟨rfl, ?_⟩
    convert h₅ using 1
    funext g
    by_cases hg1 : g = f1
    · subst hg1
      simp [hne.symm, hc1]
    · by_cases hg0 : g = f0
      · subst hg0
        simp [hg1, hc0]
      · simp [hg0, hg1]
  · simp only [wp_bind, wp_setPipe, wp_setFile, wp_pure]
    have hpi' : pi ∉ pipeSet s₂.file := fun h => hpi (mem_add.mpr (.inr h))
    have hk0 : (s₂.file f0).type = .FD_NONE := by
      rw [hfile1, update_of_ne hne, hfile0, update_self]
      exact ht0
    have hk1 : (s₂.file f1).type = .FD_NONE := by
      rw [hfile1, update_self]
      exact ht1
    refine .inr ⟨f0, f1, rfl, hf0, hf1, hne, hc0, hc1,
      h₂.files.open hf0 hf1 hne hk0 hk1 (by simp [hne]) (by simp) hpi', ?_, fun q hq => ?_,
      h₂.proc, h₂.initproc, h₂.first, h₂.iref⟩
    · have hset : pipeSet (pipeFiles s₂.file f0 f1 pi) = insert pi (pipeSet s₂.file) := by
        ext q
        rw [Finset.mem_insert, mem_pipeSet, mem_pipeSet]
        simp only [isEnd_pipeFiles hf0 hf1 hne hk0 hk1]
        constructor
        · rintro ⟨g, w, hg | ⟨hq, -⟩⟩
          · exact .inr ⟨g, w, hg⟩
          · exact .inl hq
        · rintro (hq | ⟨g, w, hg⟩)
          · exact ⟨f0, false, .inr ⟨hq, rfl⟩⟩
          · exact ⟨g, w, .inl hg⟩
      show Uses lo m (B + (pipeSet (pipeFiles s₂.file f0 f1 pi)).val)
      rw [hset, Finset.insert_val_of_notMem hpi', Multiset.add_cons]
      exact hs₃
    · refine (hpage q ?_).trans (h₂.pages q hq)
      rintro rfl
      exact hpi (mem_add.mpr (.inl hq))

end

end FileKept

end Xv6.UserVm
