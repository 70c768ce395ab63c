import Xv6.FsPath

/-! The file system between system calls: no transaction, no lock, and every pointer that is held is
that of an open file or a current directory. -/
namespace Xv6.Fs

variable {μ : Mode} {sb : Superblock} {p : ℕ} {D V P X Y : Set ℕ} {s : St} {A A' A'' : ℕ → Node}
  {H K : Multiset (ℕ × ℕ)} {N : Finset ℕ} {w i n : ℕ}

section Reaped

/-- The orphans among `X` were freed. -/
def Reaped (H : Multiset (ℕ × ℕ)) (X : Set ℕ) (A A' : ℕ → Node) : Prop :=
  ∀ m, (m ∈ X ∧ Orphan A H m ∧ A' m = .free) ∨ (¬ (m ∈ X ∧ Orphan A H m) ∧ A' m = A m)

namespace Reaped

theorem free (h : Orphan A H n) : Reaped H {n} A (update A n .free) := by
  intro m
  by_cases hm : m = n
  · subst hm
    exact .inl ⟨rfl, h, update_self m _ A⟩
  · exact .inr ⟨fun hc => hm hc.1, update_of_ne hm _ A⟩

theorem keep (h : ¬ Orphan A H n) : Reaped H {n} A A := by
  intro m
  refine .inr ⟨?_, rfl⟩
  rintro ⟨rfl, ho⟩
  exact h ho

theorem shrunk (h : Reaped H X A A') : Shrunk H A A' :=
  fun m => (h m).elim (fun h1 => .inr h1.2) (fun h1 => .inl h1.2)

theorem tidy (h : Reaped H X A A') (hX : ∀ m, Orphan A H m → m ∈ X) : ∀ m, ¬ Orphan A' H m := by
  intro m ho
  rcases h m with ⟨-, -, h1⟩ | ⟨h1, h2⟩
  · rw [Orphan, h1] at ho
    exact ho.1 rfl
  · have hold : Orphan A H m := by
      unfold Orphan at ho ⊢
      rwa [h2] at ho
    exact h1 ⟨hX m hold, hold⟩

theorem trans {x : ℕ × ℕ} (h : Reaped (x ::ₘ H) X A A') (h' : Reaped H Y A' A'') (hx : x.2 ∉ X)
    (hXY : ∀ m ∈ X, m ∉ Y) : Reaped H (X ∪ Y) A A'' := by
  have hcons (m : ℕ) (hm : m ∈ X) : Orphan A (x ::ₘ H) m ↔ Orphan A H m := by
    refine ⟨Orphan.of_cons, fun ho => ⟨ho.1, ho.2.1, fun i hi => ?_⟩⟩
    rcases Multiset.mem_cons.mp hi with heq | hi
    · rw [← heq] at hx
      exact hx hm
    · exact ho.2.2 i hi
  have hsame (m : ℕ) (hm : m ∉ X) : A' m = A m := by
    rcases h m with h1 | h1
    · exact absurd h1.1 hm
    · exact h1.2
  intro m
  by_cases hmX : m ∈ X
  · have hmY := hXY m hmX
    have h2 : A'' m = A' m := by
      rcases h' m with h1 | h1
      · exact absurd h1.1 hmY
      · exact h1.2
    rw [h2]
    rcases h m with ⟨-, h3, h4⟩ | ⟨h3, h4⟩
    · exact .inl ⟨.inl hmX, (hcons m hmX).mp h3, h4⟩
    · exact .inr ⟨fun hc => h3 ⟨hmX, (hcons m hmX).mpr hc.2⟩, h4⟩
  · have horphan : Orphan A' H m ↔ Orphan A H m := by
      unfold Orphan
      rw [hsame m hmX]
    rcases h' m with ⟨h1, h2, h3⟩ | ⟨h1, h2⟩
    · exact .inl ⟨.inr h1, horphan.mp h2, h3⟩
    · refine .inr ⟨?_, by rw [h2, hsame m hmX]⟩
      rintro ⟨hm | hm, ho⟩
      · exact hmX hm
      · exact h1 ⟨hm, horphan.mpr ho⟩

end Reaped

theorem Now.valid_of_mem (h : Now μ sb p D V s A H K N w) (hn : n ∈ V) (hi : (i, n) ∈ H) :
    (s.itable i).valid = true := by
  obtain ⟨L, W, hok, -, -, -, hV, -⟩ := h
  obtain ⟨j, hj, hv⟩ := hV n hn
  rwa [hok.uniq i j n hi hj]

theorem iput_reap (h : Now μ sb p D V s A ((i, n) ::ₘ H) K N w) (hK : i ∈ K.map Prod.fst → (i, n) ∈ H)
    (hv : (s.itable i).valid = true) (hkeep : n ∈ D ∪ V → (i, n) ∈ H)
    (hroom : μ.Room (insert n N) w) :
    wp (iput sb p i) (fun _ s' => Env s s' ∧
      ∃ A', Reaped H {n} A A' ∧ Now μ sb p D V s' A' H K (insert n N) w) μ.E s := by
  refine wp_imp (iput_now h hK hkeep (fun _ _ => hroom)) ?_
  rintro - s1 ⟨henv, ⟨hno, h1⟩ | ⟨-, ho, h1⟩⟩
  · exact ⟨henv, A, Reaped.keep (fun ho => hno ⟨hv, ho⟩), h1.mono (Finset.subset_insert n N) (le_refl w)⟩
  · exact ⟨henv, _, Reaped.free ho, h1⟩

theorem iunlockput_reap (h : Now μ sb p D V s A ((i, n) ::ₘ H) ((i, n) ::ₘ K) N w)
    (hkeep : n ∈ D ∪ V → (i, n) ∈ H) (hroom : μ.Room (insert n N) w) :
    wp (iunlockput sb p i) (fun _ s' => Env s s' ∧
      ∃ A', Reaped H {n} A A' ∧ Now μ sb p D V s' A' H K (insert n N) w) μ.E s := by
  refine wp_imp (iunlockput_now h hkeep (fun _ => hroom)) ?_
  rintro - s1 ⟨henv, ⟨hno, h1⟩ | ⟨ho, h1⟩⟩
  · exact ⟨henv, A, Reaped.keep hno, h1.mono (Finset.subset_insert n N) (le_refl w)⟩
  · exact ⟨henv, _, Reaped.free ho, h1⟩

end Reaped

section Idle

def held (H : Multiset (ℕ × ℕ)) : Set ℕ := { n | ∃ i, (i, n) ∈ H }

/-- Between system calls. All that is held was read from the disk. -/
structure Idle (μ : Mode) (sb : Superblock) (D : Set ℕ) (s : St) (A : ℕ → Node)
    (H : Multiset (ℕ × ℕ)) : Prop where
  ok : ∃ L, (∀ p, Ok μ sb p s.disk s.itable L D H 0) ∧ nodes sb s.disk L = A
  outstanding : s.outstanding = 0
  lh : s.lh = []
  tooBig : ¬ μ.counts → μ.stops .tooBig
  single : μ.counts → sb.size ≤ BPB
  commits : μ.counts → ∀ l ∈ s.commits, l.length ≤ MAXOPBLOCKS
  valid : ∀ i n, (i, n) ∈ H → (s.itable i).valid = true
  holes : ∀ n ∈ μ.holey, n ∈ D ∧ ¬ μ.counts
  dirty : D ⊆ held H

theorem Ok.of_unlocked {disk : Disk} {T : ℕ → Inode} {L : ℕ → Dinode} (h : Ok μ sb p disk T L D H 0)
    (q : ℕ) : Ok μ sb q disk T L D H 0 := by
  refine { h with lock := fun i => ?_ }
  rw [h.lock i, Multiset.map_zero, if_neg (notMem_zero i), if_neg (notMem_zero i)]

theorem beginOp_idle (h : Idle μ sb D s A H) (p : ℕ) {E : Panic → St → Prop} :
    wp beginOp (fun _ s' => Env s s' ∧ Now μ sb p D (held H) s' A H 0 ∅ 0) E s := by
  have hcond : ¬ LOGBLOCKS < s.lh.length + (s.outstanding + 1) * MAXOPBLOCKS := by
    rw [h.lh, h.outstanding]
    decide
  simp only [beginOp, wp_bind, wp_get, if_neg hcond, wp_set]
  obtain ⟨L, hok, hA⟩ := h.ok
  refine ⟨⟨rfl, rfl⟩, L, ∅, hok p, hA, ?_, le_refl _, ?_, h.holes⟩
  · refine ⟨?_, ?_, h.tooBig, h.single, ?_, h.commits⟩
    · rw [h.outstanding]
    · rw [h.lh]
      exact List.nodup_nil
    · intro _ b hb
      rw [h.lh] at hb
      exact absurd hb List.not_mem_nil
  · rintro n ⟨i, hi⟩
    exact ⟨i, hi, h.valid i n hi⟩

theorem endOp_now (h : Now μ sb p D V s A H 0 N w) (hroom : μ.Room N w) (hV : held H ⊆ V)
    (hD : D ⊆ held H) {E : Panic → St → Prop} :
    wp endOp (fun _ s' => Env s s' ∧ Idle μ sb D s' A H) E s := by
  have hb := h.bounded hroom
  obtain ⟨L, W, hok, hA, hl, -, hv, hh⟩ := h
  have hcond : s.outstanding - 1 = 0 := by rw [hl.outstanding]
  simp only [endOp, wp_bind, wp_get, if_pos hcond, wp_set]
  refine ⟨⟨rfl, rfl⟩, ⟨L, hok.of_unlocked, hA⟩, rfl, rfl, hl.tooBig, hl.single, ?_, ?_, hh, hD⟩
  · intro hc l hmem
    rcases List.mem_append.mp hmem with h1 | h1
    · exact (hb hc).2 l h1
    · rw [List.mem_singleton.mp h1]
      exact (hb hc).1
  · intro i n hi
    obtain ⟨j, hj, hvj⟩ := hv n (hV ⟨i, hi⟩)
    rwa [hok.uniq i j n hi hj]

theorem Idle.bounded (h : Idle μ sb D s A H) : μ.counts → s.Bounded := by
  intro hc
  refine ⟨?_, h.commits hc⟩
  rw [h.lh]
  exact zero_le

end Idle

section Tables

def File.pointer (x : File) : Multiset ℕ :=
  if 0 < x.ref ∧ (x.type = .FD_INODE ∨ x.type = .FD_DEVICE) then {x.ip} else 0

def Proc.pointer (x : Proc) : Multiset ℕ :=
  match x.cwd with
  | some i => {i}
  | none => 0

/-- All pointers into the inode table. -/
def St.pointers (s : St) : Multiset ℕ :=
  ∑ f ∈ Finset.range NFILE, (s.file f).pointer + ∑ q ∈ Finset.range NPROC, (s.proc q).pointer

theorem sum_update {α β : Type} [AddCommMonoid β] (g : α → β) (F : ℕ → α) {m k : ℕ} (hk : k < m) (x : α) :
    ∑ j ∈ Finset.range m, g (update F k x j) + g (F k) =
      ∑ j ∈ Finset.range m, g (F j) + g x := by
  have hmem : k ∈ Finset.range m := Finset.mem_range.mpr hk
  have hrest : ∑ j ∈ (Finset.range m).erase k, g (update F k x j) =
      ∑ j ∈ (Finset.range m).erase k, g (F j) := by
    apply Finset.sum_congr rfl
    intro j hj
    rw [update_of_ne (Finset.ne_of_mem_erase hj)]
  rw [← Finset.add_sum_erase _ _ hmem, ← Finset.add_sum_erase _ (fun j => g (F j)) hmem, hrest,
    update_self]
  abel

theorem pointers_setFile {f : ℕ} (hf : f < NFILE) (x : File) :
    (s.setFile f x).pointers + (s.file f).pointer = s.pointers + x.pointer := by
  have h := sum_update File.pointer s.file hf x
  simp only [St.pointers, St.setFile]
  rw [add_right_comm, h, add_right_comm]

theorem pointers_setProc {q : ℕ} (hq : q < NPROC) (x : Proc) :
    (s.setProc q x).pointers + (s.proc q).pointer = s.pointers + x.pointer := by
  have h := sum_update Proc.pointer s.proc hq x
  simp only [St.pointers, St.setProc]
  rw [add_assoc, h, add_assoc]

theorem mem_pointers_of_file {f : ℕ} (hf : f < NFILE) (hi : i ∈ (s.file f).pointer) : i ∈ s.pointers := by
  refine mem_add.mpr (.inl ?_)
  exact Multiset.mem_sum.mpr ⟨f, Finset.mem_range.mpr hf, hi⟩

theorem mem_pointers_of_cwd {q : ℕ} (hq : q < NPROC) (hi : (s.proc q).cwd = some i) : i ∈ s.pointers := by
  refine mem_add.mpr (.inr ?_)
  refine Multiset.mem_sum.mpr ⟨q, Finset.mem_range.mpr hq, ?_⟩
  rw [Proc.pointer, hi]
  exact Multiset.mem_singleton_self i

theorem pointers_close {f : ℕ} (hf : f < NFILE) (href : 0 < (s.file f).ref)
    (htype : (s.file f).type = .FD_INODE ∨ (s.file f).type = .FD_DEVICE) :
    s.pointers = (s.file f).ip ::ₘ (s.setFile f { s.file f with ref := 0, type := .FD_NONE }).pointers := by
  have hold : (s.file f).pointer = {(s.file f).ip} := by rw [File.pointer, if_pos ⟨href, htype⟩]
  have hnew : ({ s.file f with ref := 0, type := .FD_NONE } : File).pointer = 0 := by
    rw [File.pointer, if_neg (fun hc => absurd hc.1 (lt_irrefl 0))]
  have hsum := pointers_setFile (s := s) hf { s.file f with ref := 0, type := .FD_NONE }
  rw [hold, hnew, add_zero] at hsum
  rw [← hsum, add_comm, Multiset.singleton_add]

theorem pointers_close_other {f : ℕ} (hf : f < NFILE)
    (htype : ¬ ((s.file f).type = .FD_INODE ∨ (s.file f).type = .FD_DEVICE)) :
    (s.setFile f { s.file f with ref := 0, type := .FD_NONE }).pointers = s.pointers := by
  have hold : (s.file f).pointer = 0 := by rw [File.pointer, if_neg (fun hc => htype hc.2)]
  have hnew : ({ s.file f with ref := 0, type := .FD_NONE } : File).pointer = 0 := by
    rw [File.pointer, if_neg (fun hc => absurd hc.1 (lt_irrefl 0))]
  have hsum := pointers_setFile (s := s) hf { s.file f with ref := 0, type := .FD_NONE }
  rwa [hold, hnew, add_zero, add_zero] at hsum

theorem pointers_set_ref {f r : ℕ} (hf : f < NFILE) (hr : 0 < r) (href : 0 < (s.file f).ref) :
    (s.setFile f { s.file f with ref := r }).pointers = s.pointers := by
  have hsame : ({ s.file f with ref := r } : File).pointer = (s.file f).pointer := by
    unfold File.pointer
    simp only [hr, href, true_and]
  have hsum := pointers_setFile (s := s) hf { s.file f with ref := r }
  rw [hsame] at hsum
  exact add_right_cancel hsum

theorem setProc_cwd {q : ℕ} {o : ℕ → Option ℕ} (r : ℕ) :
    ((s.setProc q { s.proc q with ofile := o }).proc r).cwd = (s.proc r).cwd := by
  change (update s.proc q _ r).cwd = _
  by_cases hr : r = q
  · rw [hr, update_self]
  · rw [update_of_ne hr]

theorem pointers_set_ofile {q : ℕ} {o : ℕ → Option ℕ} :
    (s.setProc q { s.proc q with ofile := o }).pointers = s.pointers := by
  have hproc (r : ℕ) : ((s.setProc q { s.proc q with ofile := o }).proc r).pointer = (s.proc r).pointer := by
    unfold Proc.pointer
    rw [setProc_cwd]
  unfold St.pointers
  simp only [hproc]
  rfl

theorem pointers_without_cwd {q c : ℕ} (hq : q < NPROC) (hc : (s.proc q).cwd = some c) :
    s.pointers = c ::ₘ (s.setProc q { s.proc q with cwd := none }).pointers := by
  have hold : (s.proc q).pointer = {c} := by rw [Proc.pointer, hc]
  have hnew : ({ s.proc q with cwd := none } : Proc).pointer = 0 := rfl
  have hsum := pointers_setProc (s := s) hq { s.proc q with cwd := none }
  rw [hold, hnew, add_zero] at hsum
  rw [← hsum, add_comm, Multiset.singleton_add]

theorem pointers_with_cwd {q : ℕ} (hq : q < NPROC) (hc : (s.proc q).cwd = none) (i : ℕ) :
    (s.setProc q { s.proc q with cwd := some i }).pointers = i ::ₘ s.pointers := by
  have hold : (s.proc q).pointer = 0 := by rw [Proc.pointer, hc]
  have hnew : ({ s.proc q with cwd := some i } : Proc).pointer = {i} := rfl
  have hsum := pointers_setProc (s := s) hq { s.proc q with cwd := some i }
  rw [hold, hnew, add_zero, add_comm, Multiset.singleton_add] at hsum
  exact hsum

theorem pointers_move {q c : ℕ} (hq : q < NPROC) (hc : (s.proc q).cwd = some c) (i : ℕ) :
    ∃ H0, s.pointers = c ::ₘ H0 ∧ (s.setProc q { s.proc q with cwd := some i }).pointers = i ::ₘ H0 := by
  refine ⟨_, pointers_without_cwd hq hc, ?_⟩
  -- the process is without a directory for a moment
  have hstep : s.setProc q { s.proc q with cwd := some i } =
      (s.setProc q { s.proc q with cwd := none }).setProc q
        { (s.setProc q { s.proc q with cwd := none }).proc q with cwd := some i } := by
    simp only [St.setProc, update_self, update_idem]
  have hnone : ((s.setProc q { s.proc q with cwd := none }).proc q).cwd = none :=
    congrArg Proc.cwd (update_self q _ s.proc)
  rw [hstep, pointers_with_cwd hq hnone]

theorem pointers_env {s' : St} (h : Env s s') : s'.pointers = s.pointers := by
  unfold St.pointers
  rw [h.1, h.2]

/-- The file table and the processes hold exactly the pointers `H`. A directory is not open for
writing. -/
structure Tables (s : St) (A : ℕ → Node) (H : Multiset (ℕ × ℕ)) : Prop where
  pointers : H.map Prod.fst = s.pointers
  closed : ∀ f, (s.file f).ref = 0 → (s.file f).type = .FD_NONE
  ofile : ∀ q fd f, (s.proc q).ofile fd = some f → f < NFILE
  writable : ∀ f < NFILE, 0 < (s.file f).ref → (s.file f).type = .FD_INODE → (s.file f).writable = true →
    ∀ n, ((s.file f).ip, n) ∈ H → (A n).type ≠ T_DIR

namespace Tables

theorem exists_of_mem (h : Tables s A H) (hi : i ∈ s.pointers) : ∃ n, (i, n) ∈ H := by
  rw [← h.pointers] at hi
  obtain ⟨⟨j, n⟩, hm, rfl⟩ := Multiset.mem_map.mp hi
  exact ⟨n, hm⟩

theorem cwd (h : Tables s A H) {q : ℕ} (hq : q < NPROC) (hi : (s.proc q).cwd = some i) :
    ∃ n, (i, n) ∈ H := h.exists_of_mem (mem_pointers_of_cwd hq hi)

theorem congr (h : Tables s A H) {s' : St} (henv : Env s s')
    (htype : ∀ n ∈ held H, (A' n).type = (A n).type) : Tables s' A' H := by
  refine ⟨by rw [pointers_env henv, h.pointers], ?_, ?_, ?_⟩
  · rw [henv.1]
    exact h.closed
  · rw [henv.2]
    exact h.ofile
  · rw [henv.1]
    intro f hf h1 h2 h3 n hn
    rw [htype n ⟨_, hn⟩]
    exact h.writable f hf h1 h2 h3 n hn

end Tables

end Tables

end Xv6.Fs
