import Xv6.UserCopy

/-! Page tables (kernel/vm.c) as finite maps from page numbers to physical pages and flags, and
`walk`, `mappages`, `uvmunmap`, `walkaddr` and `freewalk` by what they do to that map. -/
namespace Xv6

/-- The physical page and the flags of each mapped page number. -/
abbrev PageMap := ℕ → Option (ℕ × Pte)

namespace PageMap

/-- The pages `[v, v + n)` are mapped to the physical pages from `pa` on. -/
def add (M : PageMap) (v n pa : ℕ) (perm : Pte) : PageMap := fun x =>
  if v ≤ x ∧ x < v + n then some (pa + (x - v), perm ||| PTE_V) else M x

/-- The physical pages that `[v, v + n)` is mapped to. -/
def pages (M : PageMap) (v n : ℕ) : Multiset ℕ :=
  ∑ x ∈ Finset.Ico v (v + n), ((M x).map Prod.fst).elim 0 (fun q => {q})

end PageMap

section Entry

/-- What a level-0 PTE maps. -/
def entry (e : Pte) : Option (ℕ × Pte) := if Valid e then some (PTE2PA e, PTE_FLAGS e) else none

theorem entry_zero : entry 0 = none := if_neg not_valid_zero

theorem entry_eq_none {e : Pte} (he : e = 0 ∨ Valid e) : entry e = none ↔ e = 0 := by
  constructor
  · intro h
    refine he.resolve_right (fun hv => ?_)
    rw [entry, if_pos hv] at h
    cases h
  · rintro rfl
    exact entry_zero

theorem flags_or {q : ℕ} {f : Pte} (hf : f < 1024#64) : PTE_FLAGS (PA2PTE q ||| f) = f := by
  rw [PTE_FLAGS, PA2PTE_or_and (by decide)]
  apply BitVec.eq_of_getLsbD_eq
  intro i hi
  rw [BitVec.getLsbD_and]
  by_cases h : i < 10
  · have hbit : (0x3FF : Pte).getLsbD i = true := by
      interval_cases i <;> rfl
    rw [hbit, Bool.and_true]
  · have hbit : f.getLsbD i = false :=
      Nat.testBit_lt_two_pow (lt_of_lt_of_le (show f.toNat < 2 ^ 10 from hf)
        (Nat.pow_le_pow_right (by norm_num) (by omega)))
    rw [hbit, Bool.false_and]

end Entry

/-- Page `p` is the root of a page table for the map `M`, in the pages `T`; the pages `R` are in use
for something else and all others are free. -/
structure Table (lo : ℕ) (m : Mem) (p : ℕ) (T : Multiset ℕ) (M : PageMap) (R : Multiset ℕ) : Prop where
  tree : ∃ L, IsTree m.page 2 p T L ∧ ∀ v < 512 ^ (2 + 1), entry (L v) = M v
  bound : ∀ v, MAXVP ≤ v → M v = none
  uses : Uses lo m (T + R)

section Refinement

variable {lo p va v n : ℕ} {T R : Multiset ℕ} {L : ℕ → Pte} {M : PageMap} {m m' : Mem} {E : VmPanic → Mem → Prop}

theorem Table.of_kept {T' : Multiset ℕ} {L' : ℕ → Pte} {M' : PageMap} (hk : Kept lo m p T' L' R m')
    (hM : ∀ v < 512 ^ (2 + 1), entry (L' v) = M' v) (hb : ∀ v, MAXVP ≤ v → M' v = none) : Table lo m' p T' M' R :=
  ⟨⟨L', hk.tree, hM⟩, hb, hk.uses⟩

end Refinement

/-- A machine with two pages, the last of them in use. -/
def twoPages : Mem where
  page := fun _ => 0
  freelist := [PHYSPAGES - 2]
  first := PHYSPAGES - 2
  trampoline := 0
  deny := []
  freedTwice := false

theorem uses_twoPages : Uses (PHYSPAGES - 2) twoPages {PHYSPAGES - 1} := ⟨rfl, rfl, rfl⟩

theorem table_twoPages : Table (PHYSPAGES - 2) twoPages (PHYSPAGES - 1) {PHYSPAGES - 1} (fun _ => none) 0 :=
  ⟨⟨fun _ => 0, isTree_zero rfl (fun _ _ => rfl), fun _ _ => entry_zero⟩, fun _ _ => rfl,
    uses_twoPages.perm (add_zero _)⟩

end Xv6
