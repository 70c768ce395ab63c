import Xv6.FsRun

/-! What holds after every sequence of system calls from a consistent image: the bitmap says which
blocks are in use, and no file has a hole. -/
namespace Xv6.Fs

variable {μ : Mode} {sb : Superblock} {p : ℕ} {s s' : St} {A A' : ℕ → Node} {H H' : Multiset (ℕ × ℕ)}
  {disk : Disk} {i n : ℕ} {c : Call} {r : ℤ}

section Image

/-- A file system without holes whose bitmap is consistent. The entries of its directories name
inode numbers that exist. -/
structure Image (sb : Superblock) (disk : Disk) : Prop where
  wf : sb.WellFormed
  blocks : Blocks sb ∅ disk (dinode sb disk)
  entries : Entries sb (nodes sb disk (dinode sb disk))
  root_lt : ROOTINO < sb.ninodes
  root : (dinode sb disk ROOTINO).type ≠ 0

/-- Every directory consists of whole entries. -/
def WholeDirs (sb : Superblock) (disk : Disk) : Prop :=
  ∀ n < sb.ninodes, (dinode sb disk n).type = T_DIR → DESIZE ∣ (dinode sb disk n).size.toNat

theorem boot_pointers : (boot sb disk).pointers = {0} := by
  have hfile : ∑ f ∈ Finset.range NFILE, ((boot sb disk).file f).pointer = 0 := by
    apply Finset.sum_eq_zero
    intro f _
    exact if_neg (fun hc => absurd hc.1 (lt_irrefl 0))
  have hproc : ∑ q ∈ Finset.range NPROC, ((boot sb disk).proc q).pointer = {0} := by
    rw [Finset.sum_eq_single 0]
    · rfl
    · intro q _ hq
      simp only [boot, if_neg hq, Proc.pointer]
    · exact fun hc => absurd (Finset.mem_range.mpr (by decide)) hc
  rw [St.pointers, hfile, hproc, zero_add]

theorem boot_ok (h : Image sb disk) (hholey : μ.holey = ∅) (p : ℕ) :
    Ok μ sb p disk (boot sb disk).itable (dinode sb disk) ∅ {(0, ROOTINO)} 0 := by
  have hmem (i n : ℕ) (hi : (i, n) ∈ ({(0, ROOTINO)} : Multiset (ℕ × ℕ))) : i = 0 ∧ n = ROOTINO :=
    Prod.mk.inj (Multiset.mem_singleton.mp hi)
  refine ⟨h.wf, by rw [hholey]; exact h.blocks, fun n _ => .inl rfl, fun i _ => ?_, fun i n hi => ?_,
    fun i j n hi hj => ?_, fun i => ?_, by simp, fun i n hi => absurd hi (notMem_zero _),
    fun i n hi hv => ?_⟩
  · rw [Multiset.map_singleton, Multiset.count_singleton]
    simp only [boot]
    split_ifs <;> rfl
  · obtain ⟨rfl, rfl⟩ := hmem i n hi
    exact ⟨by decide, h.root_lt, rfl, rfl⟩
  · rw [(hmem i n hi).1, (hmem j n hj).1]
  · simp only [boot, Multiset.map_zero, notMem_zero, if_false]
    split_ifs <;> rfl
  · obtain ⟨rfl, rfl⟩ := hmem i n hi
    exact ⟨rfl, h.root⟩

theorem boot_boundary (h : Image sb disk) (hholey : μ.holey = ∅) (hexc : ∀ e ∈ excused, μ.stops e)
    (htype : μ.stops .noType) (hbig : ¬ μ.counts → μ.stops .tooBig) (hsingle : μ.counts → sb.size ≤ BPB)
    (hwhole : WholeDirs sb disk ∨ μ.ShortReads)
    (hheld : (∀ n, ¬ Orphan (nodes sb disk (dinode sb disk)) {(0, ROOTINO)} n) ∨ ¬ μ.counts) :
    Boundary μ sb ∅ Set.univ (boot sb disk) (nodes sb disk (dinode sb disk)) {(0, ROOTINO)} where
  idle := by
    refine ⟨⟨dinode sb disk, boot_ok h hholey, rfl⟩, rfl, rfl, hbig, hsingle,
      fun _ l hl => absurd hl List.not_mem_nil, fun i n hi => ?_, fun n hn => ?_, Set.empty_subset _⟩
    · obtain ⟨rfl, rfl⟩ := Prod.mk.inj (Multiset.mem_singleton.mp hi)
      rfl
    · rw [hholey] at hn
      exact absurd hn (Set.notMem_empty n)
  tables := by
    refine ⟨?_, fun _ _ => rfl, fun q fd f hf => (by cases hf), fun f _ h1 => absurd h1 (lt_irrefl 0)⟩
    rw [boot_pointers]
    rfl
  walk := by
    refine ⟨h.entries, fun _ _ _ _ _ _ => Set.mem_univ _, .inr htype, hwhole.imp_left (fun hw => ?_),
      hheld.imp_right (fun hc => ⟨htype, hc⟩)⟩
    refine ⟨hholey, fun n _ hn => ?_⟩
    have hused : Used sb (dinode sb disk) n := used_of_type (by rw [hn]; decide)
    rw [nodes_of_used hused] at hn ⊢
    exact hw n hused.1 hn
  root_lt := h.root_lt
  root := Set.mem_univ _
  cwd _ _ _ _ _ _ := Set.mem_univ _
  excused := hexc

end Image

section Small

/-- The entry `k` of a directory block. -/
def putDirent (b : Block) (k : ℕ) (de : Dirent) : Block :=
  (List.range DESIZE).foldl (fun b j => setByte b (DESIZE * k + j) (de.toByte j)) b

/-- A small disk: 20 blocks, 16 of them for data, and 10 inodes. -/
def smallSb : Superblock := ⟨20, 16, 10, 2, 3⟩

def smallRoot : Dinode := setAddr { Dinode.zero with type := T_DIR, nlink := 1, size := 32 } 0 4

/-- The root directory only, with its two entries. -/
def smallDisk : Disk := fun b =>
  if b = 2 then setField (0 : Block) 512 (toBits smallRoot)
  else if b = 3 then 31
  else if b = 4 then putDirent (putDirent 0 0 ⟨1, dot⟩) 1 ⟨1, dotdot⟩
  else 0

theorem small_dinode_root : dinode smallSb smallDisk 1 = smallRoot := by
  change ofBits (getField (setField (0 : Block) 512 (toBits smallRoot)) 512 512) = smallRoot
  rw [getField_setField _ _ _ (by decide), ofBits_toBits]

theorem small_used {n : ℕ} : Used smallSb (dinode smallSb smallDisk) n ↔ n = 1 := by
  have hother : ∀ n < 10, n ≠ 1 → (dinode smallSb smallDisk n).type = 0 := by decide +kernel
  constructor
  · intro h
    by_contra hn
    exact h.2 (hother n h.1 hn)
  · rintro rfl
    refine ⟨by decide, ?_⟩
    rw [small_dinode_root]
    decide

theorem small_addr (k : ℕ) : addr smallRoot k = if k = 0 then 4 else 0 := by
  rw [smallRoot, addr_setAddr _ _ (by decide) (by decide)]
  split_ifs
  · rfl
  · exact addr_of_zeros k T_DIR

theorem small_slot (k : ℕ) : slot smallDisk smallRoot k = if k = 0 then 4 else 0 := by
  unfold slot
  by_cases hk : k ≤ NDIRECT
  · rw [if_pos hk, small_addr]
  · have h0 : k ≠ 0 := by
      rintro rfl
      exact hk zero_le
    have hind : addr smallRoot NDIRECT = 0 := by rw [small_addr, if_neg (by decide)]
    rw [if_neg hk, if_neg (fun hc => hc.2 hind), if_neg h0]

theorem small_slots (x : ℕ × ℕ) :
    slots smallSb smallDisk (dinode smallSb smallDisk) x = if x = (1, 0) then 4 else 0 := by
  unfold slots
  by_cases hx : x.1 = 1
  · rw [if_pos (small_used.mpr hx), hx, small_dinode_root, small_slot]
    by_cases hk : x.2 = 0
    · rw [if_pos hk, if_pos (Prod.ext hx hk)]
    · rw [if_neg hk, if_neg (fun hc => hk (congrArg Prod.snd hc))]
  · rw [if_neg (fun hc => hx (small_used.mp hc)), if_neg (fun hc => hx (congrArg Prod.fst hc))]

theorem small_image : Image smallSb smallDisk where
  wf := ⟨by decide, by decide, by decide, by decide⟩
  blocks := by
    have hbits : ∀ b < 20, bit smallSb smallDisk b = decide (b < 5) := by decide +kernel
    refine ⟨⟨fun x y hxy hx => ?_, fun x hx => ?_, fun b hb => ?_⟩, fun b hb => ?_, fun n hn _ => ?_,
      fun n hn => ?_⟩
    · have h1 : x = (1, 0) := by
        by_contra hc
        rw [small_slots, if_neg hc] at hx
        exact hx rfl
      have h2 : y = (1, 0) := by
        by_contra hc
        rw [hxy, small_slots, if_neg hc] at hx
        exact hx rfl
      rw [h1, h2]
    · rw [small_slots] at hx ⊢
      split_ifs at hx ⊢ with h1
      · exact ⟨by decide, by decide⟩
      · exact absurd rfl hx
    · have h1 : 4 ≤ b := hb.1
      rw [hbits b hb.2]
      simp only [small_slots, decide_eq_true_eq]
      constructor
      · intro h2
        refine ⟨(1, 0), ?_⟩
        rw [if_pos rfl]
        omega
      · rintro ⟨x, hx⟩
        split_ifs at hx <;> omega
    · have h1 : b < 4 := hb
      rw [hbits b (by omega)]
      simp only [decide_eq_true_eq]
      omega
    · rw [small_used.mp hn, small_dinode_root]
      refine ⟨by decide, fun bn hbn => ?_⟩
      have h0 : bn = 0 := by
        change bn * 1024 < 32 at hbn
        omega
      rw [h0, small_slot]
      decide
    · rw [small_used.mp hn, small_dinode_root]
      decide
  entries := by
    intro n k hn hk
    have hused : Used smallSb (dinode smallSb smallDisk) n := used_of_type (by rw [hn]; decide)
    have hn1 := small_used.mp hused
    subst hn1
    rw [nodes_of_used hused] at hk ⊢
    rw [small_dinode_root] at hk ⊢
    have hk2 : k < 2 := hk
    have hall : ∀ k < 2, ((node smallDisk smallRoot).entry k).inum.toNat < 10 := by decide +kernel
    exact hall k hk2
  root_lt := by decide
  root := by
    change (dinode smallSb smallDisk 1).type ≠ 0
    rw [small_dinode_root]
    decide

theorem small_whole : WholeDirs smallSb smallDisk := by
  intro n hn ht
  have h1 := small_used.mp ⟨hn, by rw [ht]; decide⟩
  rw [h1, small_dinode_root]
  decide

/-- A path, if it fits. -/
def shortPath (l : List Byte) : Option Path :=
  if h : l.contains 0 = false ∧ l.length < MAXPATH then some ⟨l, by simpa using h.1, h.2⟩ else none

/-- Whether a call returns, with a result and a state that pass the test. -/
def returns (sb : Superblock) (p : ℕ) (c : Call) (test : ℤ → St → Bool) (s : St) : Bool :=
  match syscall sb p c s with
  | .ok r s' => test r s'
  | .error _ _ => false

theorem of_returns {test : ℤ → St → Bool} (h : returns sb p c test s = true) :
    ∃ r s', syscall sb p c s = .ok r s' ∧ test r s' = true := by
  unfold returns at h
  cases hcall : syscall sb p c s with
  | error e t =>
    rw [hcall] at h
    cases h
  | ok r s' =>
    rw [hcall] at h
    exact ⟨r, s', rfl, h⟩

/-- A directory, a file in it with some bytes, which is unlinked while it is open. -/
def smallCalls : List (ℕ × Call) :=
  [(0, .mkdir (shortPath [100])), (0, .open (shortPath [100, 47, 102]) (O_CREATE ||| O_RDWR)),
    (0, .write 0 (fun k => if k < 5 then some 7 else none) 10), (0, .unlink (shortPath [100, 47, 102])),
    (0, .read 0 (fun _ => true) 3), (0, .close 0)]

set_option maxRecDepth 10000 in
theorem small_run : (exec (step smallSb) (boot smallSb smallDisk) smallCalls).isSome = true := by
  decide +kernel

end Small

section Run

/-- Every call keeps the invariant, and ends in a panic only if it is not excluded. -/
theorem syscall_boundary (h : Boundary μ sb ∅ Set.univ s A H) (hholey : μ.holey = ∅)
    (htype : μ.stops .noType) (hfree : μ.Free H 3) (hen : enabled s p c = true) :
    wp (syscall sb p c) (fun r s' => ∃ A' H', Boundary μ sb ∅ Set.univ s' A' H' ∧
      Effect sb p Set.univ s A H c r s' A' H') μ.E s := by
  refine wp_imp (syscall_spec h hen hfree (fun n hn => absurd hn (Set.notMem_empty n))
    (.inl ⟨rfl, hholey⟩)) ?_
  rintro r s1 ⟨A', H', h1, ht1, he⟩
  exact ⟨A', H', ⟨h1, ht1, he.walk h.walk htype h.idle, h.root_lt, h.root, fun _ _ _ _ _ _ => Set.mem_univ _,
    h.excused⟩, he⟩

theorem step_eq_some {e : ℕ × Call} : step sb s e = some s' ↔
    enabled s e.1 e.2 = true ∧ ∃ r, syscall sb e.1 e.2 s = .ok r s' := by
  unfold step
  by_cases hen : enabled s e.1 e.2 = true
  · rw [if_pos hen]
    cases syscall sb e.1 e.2 s with
    | ok r t => simp [hen]
    | error e t => simp
  · rw [if_neg hen]
    simp [hen]

theorem run_boundary (hholey : μ.holey = ∅) (htype : μ.stops .noType) (hfull : μ.stops .noInodes)
    {es : List (ℕ × Call)} (hrun : exec (step sb) s es = some s')
    (h : ∃ A H, Boundary μ sb ∅ Set.univ s A H) : ∃ A H, Boundary μ sb ∅ Set.univ s' A H := by
  refine exec_invariant (P := fun s => ∃ A H, Boundary μ sb ∅ Set.univ s A H) (fun s e t ht h => ?_) hrun h
  obtain ⟨hen, r, hr⟩ := step_eq_some.mp ht
  obtain ⟨A, H, h⟩ := h
  obtain ⟨A', H', h', -⟩ := ok_of_wp (syscall_boundary h hholey htype (.inr hfull) hen) hr
  exact ⟨A', H', h'⟩

theorem Idle.onDisk (h : Idle μ sb ∅ s A H) : ∃ L, (∀ n < sb.ninodes, dinode sb s.disk n = L n) ∧
    Blocks sb μ.holey s.disk L ∧ nodes sb s.disk L = A := by
  obtain ⟨L, hok, hA⟩ := h.ok
  refine ⟨L, fun n hn => ?_, (hok 0).blocks, hA⟩
  rcases (hok 0).coherent n hn with h1 | h1
  · exact h1
  · exact absurd h1.1 (Set.notMem_empty n)

theorem Idle.blocks (h : Idle μ sb ∅ s A H) : Blocks sb μ.holey s.disk (dinode sb s.disk) := by
  obtain ⟨L, hL, hb, -⟩ := h.onDisk
  exact hb.congr hL

theorem Idle.entry (h : Idle μ sb ∅ s A H) (hi : (i, n) ∈ H) : s.itable i =
    ⟨ROOTDEV, n, (H.map Prod.fst).count i, none, true, dinode sb s.disk n⟩ := by
  obtain ⟨L, hok, -⟩ := h.ok
  have hheld := (hok 0).held i n hi
  have hv := h.valid i n hi
  have hcopy : (s.itable i).copy = dinode sb s.disk n := by
    rw [((hok 0).copy i n hi hv).1]
    rcases (hok 0).coherent n hheld.2.1 with h1 | h1
    · exact h1.symm
    · exact absurd h1.1 (Set.notMem_empty n)
  have hlock : (s.itable i).lock = none := by
    rw [(hok 0).lock i, Multiset.map_zero, if_neg (notMem_zero i)]
  calc s.itable i = ⟨(s.itable i).dev, (s.itable i).inum, (s.itable i).ref, (s.itable i).lock,
        (s.itable i).valid, (s.itable i).copy⟩ := rfl
    _ = _ := by rw [hheld.2.2.2, hheld.2.2.1, (hok 0).ref i hheld.1, hlock, hv, hcopy]

theorem Idle.mem_of_ref (h : Idle μ sb ∅ s A H) (hi : i < NINODE) (href : 0 < (s.itable i).ref) :
    ∃ n, (i, n) ∈ H := by
  obtain ⟨L, hok, -⟩ := h.ok
  rw [(hok 0).ref i hi, Multiset.count_pos] at href
  obtain ⟨⟨j, n⟩, hm, rfl⟩ := Multiset.mem_map.mp href
  exact ⟨n, hm⟩

end Run

section Ownership

/-- How often the block `b` occurs in the inodes in use: among `addrs[]` and the entries of their
indirect blocks. -/
def occurrences (sb : Superblock) (disk : Disk) (b : ℕ) : ℕ :=
  ((Finset.range sb.ninodes ×ˢ Finset.range NSLOTS).filter (fun x =>
    (dinode sb disk x.1).type ≠ 0 ∧ slot disk (dinode sb disk x.1) x.2 = b)).card

theorem occurrences_eq (h : Blocks sb ∅ disk (dinode sb disk)) (hwf : sb.WellFormed) {b : ℕ}
    (hb : sb.IsData b) : occurrences sb disk b = if bit sb disk b then 1 else 0 := by
  have hb0 : b ≠ 0 := by
    have h1 := hwf.bmapstart_lt
    have h2 := hb.1
    omega
  have hmem (x : ℕ × ℕ) : x ∈ (Finset.range sb.ninodes ×ˢ Finset.range NSLOTS).filter (fun x =>
      (dinode sb disk x.1).type ≠ 0 ∧ slot disk (dinode sb disk x.1) x.2 = b) ↔
      slots sb disk (dinode sb disk) x = b := by
    rw [Finset.mem_filter, Finset.mem_product, Finset.mem_range, Finset.mem_range, slots]
    constructor
    · rintro ⟨⟨h1, -⟩, h2, h3⟩
      rw [if_pos ⟨h1, h2⟩, h3]
    · intro hx
      by_cases hused : Used sb (dinode sb disk) x.1
      · rw [if_pos hused] at hx
        refine ⟨⟨hused.1, ?_⟩, hused.2, hx⟩
        by_contra hge
        rw [slot_of_ge (by omega)] at hx
        exact hb0 hx.symm
      · rw [if_neg hused] at hx
        exact absurd hx.symm hb0
  by_cases hbit : bit sb disk b = true
  · rw [if_pos hbit, occurrences, Finset.card_eq_one]
    obtain ⟨x, hx⟩ := (h.owns.marked b hb).mp hbit
    refine ⟨x, Finset.ext fun y => ?_⟩
    rw [hmem, Finset.mem_singleton]
    constructor
    · intro hy
      exact h.owns.inj y x (hy.trans hx.symm) (by rw [hy]; exact hb0)
    · rintro rfl
      exact hx
  · rw [if_neg hbit, occurrences, Finset.card_eq_zero, Finset.eq_empty_iff_forall_notMem]
    intro x hx
    exact hbit ((h.owns.marked b hb).mpr ⟨x, (hmem x).mp hx⟩)

/-- Every panic but that of `bfree`. -/
def freeMode : Mode := ⟨False, ∅, fun e => e ≠ .freeingFree⟩

theorem boot_free (h : Image sb disk) : ∃ A H, Boundary freeMode sb ∅ Set.univ (boot sb disk) A H := by
  refine ⟨_, _, boot_boundary h rfl ?_ ?_ ?_ False.elim (.inr ?_) (.inr id)⟩
  · exact (by decide : ∀ e ∈ excused, e ≠ .freeingFree)
  · exact (by decide : Panic.noType ≠ .freeingFree)
  · exact fun _ => (by decide : Panic.tooBig ≠ .freeingFree)
  · exact ⟨(by decide : Panic.dirlookupRead ≠ .freeingFree), (by decide : Panic.dirlinkRead ≠ .freeingFree),
      (by decide : Panic.isdiremptyRead ≠ .freeingFree)⟩

/-- After every sequence of system calls the bitmap is right: a block is marked exactly if it occurs
in an inode, and then it occurs once. No call frees a block that is free. -/
theorem blocks_owned_once (h : Image sb disk) {es : List (ℕ × Call)}
    (hrun : exec (step sb) (boot sb disk) es = some s) :
    (∀ b < sb.nmeta, bit sb s.disk b = true) ∧
    (∀ b, sb.IsData b → occurrences sb s.disk b = if bit sb s.disk b then 1 else 0) ∧
    ∀ p c e s', enabled s p c = true → syscall sb p c s = .error e s' → e ≠ .freeingFree := by
  have hstops (e : Panic) (he : e ≠ .freeingFree) : freeMode.stops e := he
  obtain ⟨A, H, hb⟩ := run_boundary rfl (hstops _ (by decide)) (hstops _ (by decide)) hrun (boot_free h)
  have hblocks := hb.idle.blocks
  refine ⟨hblocks.metadata, fun b hd => occurrences_eq hblocks h.wf hd, fun p c e s' hen he => ?_⟩
  exact (error_of_wp (syscall_boundary hb rfl (hstops _ (by decide)) (.inr (hstops _ (by decide))) hen) he).1

theorem blocks_owned_once_small : ∃ s, exec (step smallSb) (boot smallSb smallDisk) smallCalls = some s ∧
    (∀ b < smallSb.nmeta, bit smallSb s.disk b = true) ∧
    (∀ b, smallSb.IsData b → occurrences smallSb s.disk b = if bit smallSb s.disk b then 1 else 0) ∧
    ∀ p c e s', enabled s p c = true → syscall smallSb p c s = .error e s' → e ≠ .freeingFree := by
  obtain ⟨s, hs⟩ := Option.isSome_iff_exists.mp small_run
  exact ⟨s, hs, blocks_owned_once small_image hs⟩

end Ownership

section Holes

def shortReads : List Panic := [.dirlookupRead, .dirlinkRead, .isdiremptyRead]

def readMode : Mode := ⟨False, ∅, fun e => e ∉ shortReads⟩

theorem boot_read (h : Image sb disk) (hw : WholeDirs sb disk) :
    ∃ A H, Boundary readMode sb ∅ Set.univ (boot sb disk) A H := by
  refine ⟨_, _, boot_boundary h rfl ?_ ?_ ?_ False.elim (.inl hw) (.inr id)⟩
  · exact (by decide : ∀ e ∈ excused, e ∉ shortReads)
  · exact (by decide : Panic.noType ∉ shortReads)
  · exact fun _ => (by decide : Panic.tooBig ∉ shortReads)

/-- Files have no holes, after every sequence of system calls: every block of an inode in use is
there, and directories consist of whole entries. So `readi` changes nothing, a `read` leaves the
disk, the log and the copies of the inodes alone, and no directory is cut short. -/
theorem reads_never_allocate (h : Image sb disk) (hw : WholeDirs sb disk) {es : List (ℕ × Call)}
    (hrun : exec (step sb) (boot sb disk) es = some s) :
    (∀ n < sb.ninodes, (dinode sb s.disk n).type ≠ 0 →
      ∀ bn < ((dinode sb s.disk n).size.toNat + BSIZE - 1) / BSIZE,
        slot s.disk (dinode sb s.disk n) (blockSlot bn) ≠ 0) ∧
    WholeDirs sb s.disk ∧
    (∀ i, ∀ n < sb.ninodes, (dinode sb s.disk n).type ≠ 0 → (s.itable i).copy = dinode sb s.disk n →
      ∀ dst off len, ∃ r, readi sb i dst off len s = .ok r s) ∧
    (∀ p fd dst len r s', enabled s p (.read fd dst len) = true →
      syscall sb p (.read fd dst len) s = .ok r s' → s'.disk = s.disk ∧ s'.lh = s.lh ∧
        ∀ i < NINODE, 0 < (s.itable i).ref → s'.itable i = s.itable i) ∧
    ∀ p c e s', enabled s p c = true → syscall sb p c s = .error e s' → e ∉ shortReads := by
  have hstops (e : Panic) (he : e ∉ shortReads) : readMode.stops e := he
  obtain ⟨A, H, hb⟩ := run_boundary rfl (hstops _ (by decide)) (hstops _ (by decide)) hrun (boot_read h hw)
  have hblocks := hb.idle.blocks
  have hfull (n : ℕ) (hn : n < sb.ninodes) (ht : (dinode sb s.disk n).type ≠ 0) :
      HoleFree s.disk (dinode sb s.disk n) := hblocks.full n ⟨hn, ht⟩ (Set.notMem_empty n)
  refine ⟨fun n hn ht bn hbn => (hfull n hn ht).2 bn ?_, fun n hn ht => ?_, ?_, ?_, ?_⟩
  · have hbs : 0 < BSIZE := by decide
    have := Nat.div_mul_le_self ((dinode sb s.disk n).size.toNat + BSIZE - 1) BSIZE
    have hmul : (bn + 1) * BSIZE ≤ ((dinode sb s.disk n).size.toNat + BSIZE - 1) / BSIZE * BSIZE :=
      Nat.mul_le_mul_right BSIZE hbn
    rw [Nat.add_mul, Nat.one_mul] at hmul
    omega
  · -- a directory that is cut short would be excused
    have hwhole := (hb.walk.whole.resolve_right (fun hs => hs.1 (by decide))).2 n (Set.mem_univ n)
    obtain ⟨L, hL, -, rfl⟩ := hb.idle.onDisk
    have hused : Used sb L n := ⟨hn, by rw [← hL n hn, ht]; decide⟩
    rw [nodes_of_used hused, ← hL n hn] at hwhole
    exact hwhole ht
  · intro i n hn ht hcopy dst off len
    have hwp : wp (readi sb i dst off len) (fun r s' => s' = s ∧ _) (fun _ _ => False) s :=
      readi_present hcopy (hfull n hn ht)
    cases hr : readi sb i dst off len s with
    | ok r t =>
      obtain ⟨rfl, -⟩ := ok_of_wp hwp hr
      exact ⟨r, rfl⟩
    | error e t => exact absurd (error_of_wp hwp hr) id
  · intro p fd dst len r s' hen hr
    obtain ⟨A', H', hb', he⟩ :=
      ok_of_wp (syscall_boundary hb rfl (hstops _ (by decide)) (.inr (hstops _ (by decide))) hen) hr
    cases he with
    | fail hc henv hs => cases hc
    | read hproc hdisk =>
      refine ⟨hdisk, by rw [hb'.idle.lh, hb.idle.lh], fun i hi href => ?_⟩
      obtain ⟨n, hn⟩ := hb.idle.mem_of_ref hi href
      rw [hb'.idle.entry hn, hb.idle.entry hn, hdisk]
  · intro p c e s' hen he
    exact (error_of_wp (syscall_boundary hb rfl (hstops _ (by decide)) (.inr (hstops _ (by decide))) hen) he).1

theorem reads_never_allocate_small : ∃ s, exec (step smallSb) (boot smallSb smallDisk) smallCalls = some s ∧
    WholeDirs smallSb s.disk := by
  obtain ⟨s, hs⟩ := Option.isSome_iff_exists.mp small_run
  exact ⟨s, hs, (reads_never_allocate small_image small_whole hs).2.1⟩

end Holes

section Failure

/-- The inode `n` on disk, without its block numbers. -/
def tree (sb : Superblock) (disk : Disk) (n : ℕ) : Node := nodes sb disk (dinode sb disk) n

theorem Idle.tree_eq (h : Idle μ sb ∅ s A H) : tree sb s.disk = A := by
  obtain ⟨L, hL, -, rfl⟩ := h.onDisk
  funext n
  unfold tree nodes
  by_cases hn : n < sb.ninodes
  · rw [hL n hn]
  · rw [if_neg (fun hc => hn hc.1), if_neg (fun hc => hn hc.1)]

/-- No open file and no process has the inode `n`. -/
def St.Unheld (s : St) (n : ℕ) : Prop := ∀ i ∈ s.pointers, (s.itable i).inum ≠ n

theorem Boundary.unheld (h : Boundary μ sb ∅ Set.univ s A H) (ho : Orphan A H n) : s.Unheld n := by
  intro i hi hn
  obtain ⟨m, hm⟩ := h.tables.exists_of_mem hi
  rw [h.idle.entry hm] at hn
  exact ho.2.2 i (by rwa [← hn])

/-- There is a file and a descriptor for an `open` that creates a file. -/
def Call.Openable (c : Call) (p : ℕ) (s : St) : Prop :=
  match c with
  | .open _ omode => omode &&& O_CREATE ≠ 0 →
      (∃ f < NFILE, (s.file f).ref = 0) ∧ ∃ fd < NOFILE, (s.proc p).ofile fd = none
  | _ => True

/-- After a call on paths that fails every inode is as before, except that an inode which has no
link and which nobody holds may have been freed; the files and the processes are as before. -/
theorem failed_call_changes_nothing (h : Image sb disk) {es : List (ℕ × Call)}
    (hrun : exec (step sb) (boot sb disk) es = some s) (hen : enabled s p c = true) (hpath : c.onPath = true)
    (hroom : c.Openable p s) (hcall : syscall sb p c s = .ok (-1) s') :
    (∀ n, tree sb s'.disk n = tree sb s.disk n ∨
      (tree sb s.disk n).nlink = 0 ∧ s.Unheld n ∧ tree sb s'.disk n = .free) ∧
    s'.file = s.file ∧ s'.proc = s.proc := by
  have hstops (e : Panic) (he : e ≠ .freeingFree) : freeMode.stops e := he
  obtain ⟨A, H, hb⟩ := run_boundary rfl (hstops _ (by decide)) (hstops _ (by decide)) hrun (boot_free h)
  obtain ⟨A', H', hb', he⟩ :=
    ok_of_wp (syscall_boundary hb rfl (hstops _ (by decide)) (.inr (hstops _ (by decide))) hen) hcall
  rw [hb.idle.tree_eq, hb'.idle.tree_eq]
  have hshrunk (henv : Env s s') (hs : Shrunk H A A') : (∀ n, A' n = A n ∨
      (A n).nlink = 0 ∧ s.Unheld n ∧ A' n = .free) ∧ s'.file = s.file ∧ s'.proc = s.proc :=
    ⟨fun n => (hs n).imp_right (fun h1 => ⟨h1.1.2.1, hb.unheld h1.1, h1.2⟩), henv⟩
  have hfd (fd : ℕ) (hx : ((fd : ℕ) : ℤ) = -1) : False := by omega
  generalize hx : (-1 : ℤ) = x at he
  cases he with
  | fail hc henv hs => exact hshrunk henv hs
  | leftBehind henv hc hfull hm =>
    obtain ⟨⟨f, hf, hfree⟩, fd, hfd', hnone⟩ := hroom hc
    rcases hfull with h1 | h1
    · exact absurd hfree (h1 f hf)
    · exact absurd hnone (h1 fd hfd')
  | openOld ho hs hn hdir => exact (hfd _ hx.symm).elim
  | openNew ho hc hs hdp hcr hlast hr => exact (hfd _ hx.symm).elim
  | exec => cases hpath
  | link => cases hx
  | unlink => cases hx
  | mkdir => cases hx
  | mknod => cases hx
  | chdir => cases hx
  | read => cases hpath
  | write => cases hpath
  | dup => cases hpath
  | close => cases hpath
  | fork => cases hpath
  | exit => cases hpath

/-- All descriptors of the process are in use. -/
def fullCalls : List (ℕ × Call) := List.replicate NOFILE (0, .open (shortPath [47]) O_RDONLY)

set_option maxRecDepth 10000 in
/-- Without a free descriptor `open` fails and still leaves the new file behind. -/
theorem failed_open_creates_file : ∃ s s', exec (step smallSb) (boot smallSb smallDisk) fullCalls = some s ∧
    syscall smallSb 0 (.open (shortPath [102]) (O_CREATE ||| O_RDWR)) s = .ok (-1) s' ∧
    (tree smallSb s.disk ROOTINO).find [102] = none ∧
    (tree smallSb s'.disk ROOTINO).find [102] = some 2 := by
  have hrun : (exec (step smallSb) (boot smallSb smallDisk) fullCalls).any (fun s =>
      ((tree smallSb s.disk ROOTINO).find [102] = none) &&
      returns smallSb 0 (.open (shortPath [102]) (O_CREATE ||| O_RDWR))
        (fun r s' => r = -1 && ((tree smallSb s'.disk ROOTINO).find [102] = some 2)) s) = true := by decide +kernel
  obtain ⟨s, hs, hcheck⟩ := (Option.any_eq_true _ _).mp hrun
  rw [Bool.and_eq_true, decide_eq_true_eq] at hcheck
  obtain ⟨h1, hret⟩ := hcheck
  obtain ⟨r, s', hcall, h⟩ := of_returns hret
  simp only [Bool.and_eq_true, decide_eq_true_eq] at h
  obtain ⟨rfl, h2⟩ := h
  exact ⟨s, s', hs, hcall, h1, h2⟩

set_option maxRecDepth 10000 in
theorem failed_call_changes_nothing_small : ∃ s s',
    exec (step smallSb) (boot smallSb smallDisk) smallCalls = some s ∧
    syscall smallSb 0 (.mkdir (shortPath [100])) s = .ok (-1) s' ∧ s'.file = s.file ∧ s'.proc = s.proc := by
  have hrun : (exec (step smallSb) (boot smallSb smallDisk) smallCalls).any (fun s =>
      enabled s 0 (.mkdir (shortPath [100])) &&
      returns smallSb 0 (.mkdir (shortPath [100])) (fun r _ => r = -1) s) = true := by decide +kernel
  obtain ⟨s, hs, hcheck⟩ := (Option.any_eq_true _ _).mp hrun
  rw [Bool.and_eq_true] at hcheck
  obtain ⟨hen, hret⟩ := hcheck
  obtain ⟨r, s', hcall, h⟩ := of_returns hret
  obtain rfl := of_decide_eq_true h
  exact ⟨s, s', hs, hcall, (failed_call_changes_nothing small_image hs hen rfl trivial hcall).2⟩

end Failure

end Xv6.Fs
