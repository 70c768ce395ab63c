import Xv6.BitField
import Xv6.Prog

/-! Physical memory and its allocator (kernel/kalloc.c). Memory comes in whole pages, so a physical
address is a page number here, and 0 is the null pointer. The pages that the allocator manages are
`[first, PHYSPAGES)`, where `first` is `PGROUNDUP(end)`. -/
namespace Xv6

def PGSIZE : ℕ := 4096

/-- `PHYSTOP`, in pages. -/
def PHYSPAGES : ℕ := 0x88000

abbrev Page := BitVec 32768

/-- `memset(p, c, PGSIZE)` -/
def fill (c : BitVec 8) : Page := BitVec.replicate 4096 c

/-- The panics of the code modelled here. -/
inductive VmPanic where
  | kfree
  | walk
  | mappagesVa
  | mappagesSize
  | mappagesZero
  | remap
  | uvmunmap
  | freewalkLeaf
  | freewalkDepth
  | uvmclear
  | loadseg
  | nullPte
  | filedup
  | fileclose
  | initExiting
  | exec
  | nullProc
  /-- the process has no current directory -/
  | nullCwd
  deriving DecidableEq

/-- Physical memory and `kmem`. `first` and `trampoline` (the page of trampoline.S) are fixed by the
linker; `deny` says which of the next calls of `kalloc` fail. Ghost state: whether some page was
freed while it was on the free list. -/
structure Mem where
  page : ℕ → Page
  freelist : List ℕ
  first : ℕ
  trampoline : ℕ
  deny : List Bool
  freedTwice : Bool

abbrev Vm (α : Type) := Prog VmPanic Mem α

def Mem.setPage (m : Mem) (p : ℕ) (x : Page) : Mem := { m with page := update m.page p x }

def readPage (p : ℕ) : Vm Page := do
  let m ← get
  pure (m.page p)

def writePage (p : ℕ) (x : Page) : Vm Unit := modify (fun m => m.setPage p x)

def kalloc : Vm (Option ℕ) := do
  let m ← get
  let m' := { m with deny := m.deny.tail }
  match m.freelist, m.deny.headD false with
  | p :: freelist, false =>
    set (({ m' with freelist := freelist }).setPage p (fill 5))
    pure (some p)
  | _, _ =>
    set m'
    pure none

def kfree (p : ℕ) : Vm Unit := do
  let m ← get
  if p < m.first ∨ PHYSPAGES ≤ p then throw .kfree
  else set { m.setPage p (fill 1) with
    freelist := p :: m.freelist
    freedTwice := m.freedTwice || decide (p ∈ m.freelist) }

/-- The pages of the allocator. -/
def pagesFrom (lo : ℕ) : Multiset ℕ := (List.range' lo (PHYSPAGES - lo) : List ℕ)

theorem pagesFrom_nodup (lo : ℕ) : (pagesFrom lo).Nodup :=
  Multiset.coe_nodup.mpr List.nodup_range'

theorem mem_pagesFrom {lo p : ℕ} : p ∈ pagesFrom lo ↔ lo ≤ p ∧ p < PHYSPAGES := by
  simp only [pagesFrom, Multiset.mem_coe, List.mem_range'_1]
  omega

/-- The pages in use are `P`, each of them once; all others are free. -/
structure Uses (lo : ℕ) (m : Mem) (P : Multiset ℕ) : Prop where
  first : m.first = lo
  split : (m.freelist : Multiset ℕ) + P = pagesFrom lo
  once : m.freedTwice = false

section Uses

variable {lo p : ℕ} {m m' : Mem} {P P' R : Multiset ℕ} {E : VmPanic → Mem → Prop}

theorem Uses.nodup (h : Uses lo m P) : P.Nodup :=
  (nodup_add.mp (h.split ▸ pagesFrom_nodup lo)).2.1

theorem Uses.bounds (h : Uses lo m P) (hp : p ∈ P) : lo ≤ p ∧ p < PHYSPAGES := by
  rw [← mem_pagesFrom, ← h.split]
  exact mem_add.mpr (.inr hp)

theorem Uses.card_le (h : Uses lo m P) : P.card ≤ PHYSPAGES - lo := by
  have hc : (m.freelist : Multiset ℕ).card + P.card = PHYSPAGES - lo := by
    rw [← Multiset.card_add, h.split, pagesFrom, Multiset.coe_card, List.length_range']
  omega

theorem Uses.congr (h : Uses lo m P) (h1 : m'.first = m.first) (h2 : m'.freelist = m.freelist)
    (h3 : m'.freedTwice = m.freedTwice) (hP : P' = P) : Uses lo m' P' :=
  ⟨h1.trans h.first, by rw [h2, hP, h.split], h3.trans h.once⟩

theorem Uses.perm (h : Uses lo m P) (hP : P' = P) : Uses lo m P' := hP ▸ h

theorem wp_readPage {Q : Page → Mem → Prop} :
    wp (readPage p) Q E m = Q (m.page p) m := rfl

theorem wp_writePage {x : Page} {Q : Unit → Mem → Prop} :
    wp (writePage p x) Q E m = Q () (m.setPage p x) := rfl

theorem setPage_page (m : Mem) (p q : ℕ) (x : Page) :
    (m.setPage p x).page q = if q = p then x else m.page q :=
  update_apply _ _ _ _

theorem Uses.setPage {x : Page} (h : Uses lo m P) : Uses lo (m.setPage p x) P :=
  h.congr rfl rfl rfl rfl

theorem kalloc_spec (h : Uses lo m P) :
    wp kalloc (fun r m' =>
      (r = none ∧ Uses lo m' P ∧ m'.page = m.page) ∨
      ∃ p, r = some p ∧ Uses lo m' (p ::ₘ P) ∧ p ∉ P ∧ ∀ q, q ≠ p → m'.page q = m.page q) E m := by
  simp only [kalloc, wp_bind, wp_get]
  have hfail : wp (do set { m with deny := m.deny.tail }; pure none : Vm (Option ℕ)) (fun r m' =>
      (r = none ∧ Uses lo m' P ∧ m'.page = m.page) ∨
      ∃ p, r = some p ∧ Uses lo m' (p ::ₘ P) ∧ p ∉ P ∧ ∀ q, q ≠ p → m'.page q = m.page q) E m :=
    .inl ⟨rfl, h.congr rfl rfl rfl rfl, rfl⟩
  split
  · rename_i p freelist hfl _
    simp only [wp_bind, wp_set, wp_pure]
    have hsplit : (freelist : Multiset ℕ) + p ::ₘ P = pagesFrom lo := by
      rw [← h.split, hfl, ← Multiset.cons_coe, Multiset.cons_add, Multiset.add_cons]
    refine .inr ⟨p, rfl, ⟨h.first, hsplit, h.once⟩, ?_, ?_⟩
    · have hn := pagesFrom_nodup lo
      rw [← hsplit] at hn
      exact (nodup_cons.mp (nodup_add.mp hn).2.1).1
    · intro q hq
      rw [setPage_page, if_neg hq]
  · exact hfail

theorem kfree_spec (h : Uses lo m (p ::ₘ P)) :
    wp (kfree p) (fun _ m' => Uses lo m' P ∧ ∀ q, q ≠ p → m'.page q = m.page q) E m := by
  have hb := h.bounds (mem_cons_self p P)
  have hnot : p ∉ m.freelist := by
    intro hp
    have hn := pagesFrom_nodup lo
    rw [← h.split] at hn
    exact Multiset.disjoint_left.mp (nodup_add.mp hn).2.2 (Multiset.mem_coe.mpr hp)
      (mem_cons_self p P)
  simp only [kfree, wp_bind, wp_get, wp_ite]
  rw [if_neg (by rw [h.first]; omega), wp_set]
  refine ⟨⟨h.first, ?_, ?_⟩, ?_⟩
  · rw [← h.split, ← Multiset.cons_coe, Multiset.cons_add, Multiset.add_cons]
  · simp [h.once, hnot]
  · intro q hq
    exact (setPage_page _ _ _ _).trans (if_neg hq)

end Uses

end Xv6
