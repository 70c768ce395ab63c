import Xv6.FsBalance
import Xv6.FsSafe

/-! The inode table over whole runs: its reference counts are exact, and when it can overflow. -/
namespace Xv6.Fs

variable {full : Prop} {sb : Superblock} {p q i n : ℕ} {s s' : St}

section Run

/-- Every call keeps the balance; `iget` finds an entry if three more inodes fit in the table. -/
theorem syscall_refs {c : Call} (h : Balanced s) (hen : enabled s p c = true) (hfit : Fits full s.pointers 3) :
    wp (syscall sb p c) (fun _ s' => Balanced s') (spare full) s := by
  have hp := (enabled_cwd hen).1
  have hr := (h.refs.anyone p).since
  have hcwd := hasCwd_pointers s hp
  cases c with
  | «open» path omode => exact sysOpen_refs path omode h hp hfit
  | mkdir path => exact wp_imp (sysCreate_refs path T_DIR 0 0 hr hfit hcwd) (fun _ _ => h.env)
  | mknod path major minor => exact wp_imp (sysCreate_refs path T_DEVICE _ _ hr hfit hcwd) (fun _ _ => h.env)
  | link old new => exact wp_imp (sysLink_refs old new hr hfit hcwd) (fun _ _ => h.env)
  | unlink path => exact wp_imp (sysUnlink_refs path hr hfit hcwd) (fun _ _ => h.env)
  | chdir path => exact sysChdir_refs path h hp hfit
  | read fd dst len =>
    rw [syscall, wp_bind]
    exact wp_imp (sysRead_refs h fd dst len) (fun _ _ h => h)
  | write fd src len => exact sysWrite_refs h fd src len
  | dup fd => exact sysDup_refs h fd
  | close fd => exact sysClose_refs h fd
  | exec path reads => exact wp_imp (kexec_refs path reads hr hfit hcwd) (fun _ _ => h.env)
  | fork q =>
    simp only [enabled, Bool.and_eq_true, decide_eq_true_eq] at hen
    exact kfork_refs h hp hen.1.2 hen.2
  | exit =>
    rw [syscall, wp_bind]
    exact wp_imp (kexit_refs h hp) (fun _ _ h => h)

theorem boot_balanced (disk : Disk) : Balanced (boot sb disk) := by
  refine ⟨?_, fun _ _ => rfl, fun q fd f hf => by cases hf⟩
  rw [boot_pointers]
  refine ⟨fun i _ => ?_, fun i hi => ?_, fun i => ?_, fun i hi => absurd hi (notMem_zero i),
    Multiset.nodup_zero⟩
  · rw [Multiset.count_singleton]
    simp only [boot]
    split_ifs <;> rfl
  · rw [Multiset.mem_singleton.mp hi]
    decide
  · simp only [boot, notMem_zero, if_false]
    split_ifs <;> rfl

theorem step_balanced {e : ℕ × Call} (h : step sb s e = some s') (hs : Balanced s) : Balanced s' := by
  obtain ⟨hen, r, hr⟩ := step_eq_some.mp h
  have hfull : Fits True s.pointers 3 := .inl trivial
  exact ok_of_wp (syscall_refs hs hen hfull) hr

/-- How many open files point to the entry `i`. -/
def St.openFiles (s : St) (i : ℕ) : ℕ :=
  ((Finset.range NFILE).filter (fun f => 0 < (s.file f).ref ∧
    ((s.file f).type = .FD_INODE ∨ (s.file f).type = .FD_DEVICE) ∧ (s.file f).ip = i)).card

/-- How many processes are in the directory `i`. -/
def St.cwds (s : St) (i : ℕ) : ℕ := ((Finset.range NPROC).filter (fun q => (s.proc q).cwd = some i)).card

theorem count_pointers (s : St) (i : ℕ) : s.pointers.count i = s.openFiles i + s.cwds i := by
  have hfile (x : File) : x.pointer.count i = if 0 < x.ref ∧
      (x.type = .FD_INODE ∨ x.type = .FD_DEVICE) ∧ x.ip = i then 1 else 0 := by
    unfold File.pointer
    by_cases h1 : 0 < x.ref ∧ (x.type = .FD_INODE ∨ x.type = .FD_DEVICE)
    · rw [if_pos h1, Multiset.count_singleton]
      simp only [h1.1, h1.2, true_and, eq_comm (a := i)]
    · rw [if_neg h1, Multiset.count_zero, if_neg (fun hc => h1 ⟨hc.1, hc.2.1⟩)]
  have hproc (x : Proc) : x.pointer.count i = if x.cwd = some i then 1 else 0 := by
    unfold Proc.pointer
    cases x.cwd with
    | none => rfl
    | some c =>
      simp only [Multiset.count_singleton, Option.some.injEq, eq_comm (a := i)]
  rw [St.pointers, Multiset.count_add, Multiset.count_sum', Multiset.count_sum', St.openFiles, St.cwds,
    Finset.card_filter, Finset.card_filter]
  simp only [hfile, hproc]

/-- After every sequence of system calls, on any disk, the reference count of every entry of the
inode table is the number of open files and current directories that point to it, and no entry is
locked. -/
theorem inode_refs_balanced (disk : Disk) {es : List (ℕ × Call)}
    (hrun : exec (step sb) (boot sb disk) es = some s) :
    (∀ i < NINODE, (s.itable i).ref = s.openFiles i + s.cwds i) ∧ ∀ i, (s.itable i).lock = none := by
  have h : Balanced s := exec_invariant (fun s e t ht hs => step_balanced ht hs) hrun (boot_balanced disk)
  constructor
  · intro i hi
    rw [h.refs.ref i hi, count_pointers]
  · intro i
    rw [h.refs.lock i, if_neg (notMem_zero i)]

theorem inode_refs_balanced_small : ∃ s, exec (step smallSb) (boot smallSb smallDisk) smallCalls = some s ∧
    (∀ i < NINODE, (s.itable i).ref = s.openFiles i + s.cwds i) ∧ ∀ i, (s.itable i).lock = none := by
  obtain ⟨s, hs⟩ := Option.isSome_iff_exists.mp small_run
  exact ⟨s, hs, inode_refs_balanced smallDisk hs⟩

end Run

section Overflow

/-- A disk with a chain of 51 directories: each but the last has the next one as `d`. -/
def chainSb : Superblock := ⟨67, 60, 64, 2, 6⟩

def chainInode (n : ℕ) : Dinode :=
  if 1 ≤ n ∧ n < 51 then setAddr { Dinode.zero with type := T_DIR, nlink := 2, size := 48 } 0 (6 + n)
  else if n = 51 then setAddr { Dinode.zero with type := T_DIR, nlink := 1, size := 32 } 0 (6 + n)
  else Dinode.zero

/-- The contents of the directory `n`. -/
def chainBlock (n : ℕ) : Block :=
  let block := putDirent (putDirent 0 0 ⟨BitVec.ofNat 16 n, dot⟩) 1 ⟨BitVec.ofNat 16 (max 1 (n - 1)), dotdot⟩
  if n < 51 then putDirent block 2 ⟨BitVec.ofNat 16 (n + 1), [100]⟩ else block

def chainDisk : Disk := fun b =>
  if 2 ≤ b ∧ b < 6 then
    (List.range IPB).foldl (fun x j => setField x (512 * j) (toBits (chainInode (IPB * (b - 2) + j)))) 0
  else if b = 6 then BitVec.ofNat _ (2 ^ 58 - 1)
  else if 7 ≤ b ∧ b < 58 then chainBlock (b - 6)
  else 0

/-- The process `k` makes a child, and the child goes one directory down. -/
def descend (k : ℕ) : List (ℕ × Call) := [(k, .fork (k + 1)), (k + 1, .chdir (shortPath [100]))]

/-- Fifty processes in fifty directories, and one more child. -/
def chainCalls : List (ℕ × Call) := (List.range 49).flatMap descend ++ [(49, .fork 50)]

/-- The panic that a call ends in. -/
def panicOf (sb : Superblock) (s : St) (e : ℕ × Call) : Option Panic :=
  if enabled s e.1 e.2 then
    match syscall sb e.1 e.2 s with
    | .ok _ _ => none
    | .error x _ => some x
  else none

set_option maxRecDepth 100000 in
/-- With a process in each of fifty directories the next lookup finds no entry in the inode table. -/
theorem inode_table_overflows : ∃ s, exec (step chainSb) (boot chainSb chainDisk) chainCalls = some s ∧
    ∃ s', enabled s 50 (.chdir (shortPath [100])) = true ∧
      syscall chainSb 50 (.chdir (shortPath [100])) s = .error .noInodes s' := by
  have hrun : (exec (step chainSb) (boot chainSb chainDisk) chainCalls).any
      (fun s => panicOf chainSb s (50, .chdir (shortPath [100])) = some .noInodes) = true := by
    decide +kernel
  obtain ⟨s, hs, hp⟩ := (Option.any_eq_true _ _).mp hrun
  refine ⟨s, hs, ?_⟩
  simp only [panicOf, decide_eq_true_eq] at hp
  by_cases hen : enabled s 50 (.chdir (shortPath [100])) = true
  · rw [if_pos hen] at hp
    cases hcall : syscall chainSb 50 (.chdir (shortPath [100])) s with
    | ok r t =>
      rw [hcall] at hp
      cases hp
    | error x t =>
      rw [hcall] at hp
      cases hp
      exact ⟨t, hen, rfl⟩
  · rw [if_neg hen] at hp
    cases hp

/-- The number of unused entries of the inode table. -/
def St.freeEntries (s : St) : ℕ := ((Finset.range NINODE).filter (fun i => (s.itable i).ref = 0)).card

theorem Balanced.card (h : Balanced s) : s.pointers.toFinset.card + s.freeEntries = NINODE := by
  have hheld : s.pointers.toFinset = (Finset.range NINODE).filter (fun i => ¬ (s.itable i).ref = 0) := by
    ext i
    rw [Multiset.mem_toFinset, Finset.mem_filter, Finset.mem_range]
    constructor
    · intro hi
      have hlt := h.refs.lt i hi
      refine ⟨hlt, ?_⟩
      rw [h.refs.ref i hlt]
      exact (Multiset.count_pos.mpr hi).ne'
    · rintro ⟨hlt, hne⟩
      rw [h.refs.ref i hlt] at hne
      exact Multiset.count_pos.mp (Nat.pos_of_ne_zero hne)
  have hsum := Finset.card_filter_add_card_filter_not (s := Finset.range NINODE)
    (fun i => (s.itable i).ref = 0)
  rw [Finset.card_range] at hsum
  rw [hheld, St.freeEntries, add_comm]
  exact hsum

/-- Where three entries of the inode table are unused, no call runs out of entries. -/
theorem iget_finds_entry (disk : Disk) {es : List (ℕ × Call)}
    (hrun : exec (step sb) (boot sb disk) es = some s) (hfree : 3 ≤ s.freeEntries) (p : ℕ) (c : Call) (e : Panic)
    (s' : St) (hen : enabled s p c = true) (hcall : syscall sb p c s = .error e s') : e ≠ .noInodes := by
  have h : Balanced s := exec_invariant (fun s e t ht hs => step_balanced ht hs) hrun (boot_balanced disk)
  have hfit : Fits False s.pointers 3 := by
    have := h.card
    exact .inr (by omega)
  exact fun he => error_of_wp (syscall_refs h hen hfit) hcall he

set_option maxRecDepth 10000 in
theorem iget_finds_entry_small : ∃ s, exec (step smallSb) (boot smallSb smallDisk) smallCalls = some s ∧
    3 ≤ s.freeEntries ∧ ∀ e s', syscall smallSb 0 (.unlink (shortPath [100])) s = .error e s' →
      e ≠ .noInodes := by
  have hrun : (exec (step smallSb) (boot smallSb smallDisk) smallCalls).any
      (fun s => 3 ≤ s.freeEntries && enabled s 0 (.unlink (shortPath [100]))) = true := by decide +kernel
  obtain ⟨s, hs, hcheck⟩ := (Option.any_eq_true _ _).mp hrun
  rw [Bool.and_eq_true, decide_eq_true_eq] at hcheck
  exact ⟨s, hs, hcheck.1, fun e s' he => iget_finds_entry smallDisk hs hcheck.1 0 _ e s' hcheck.2 he⟩

end Overflow

end Xv6.Fs
