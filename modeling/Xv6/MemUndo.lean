import Xv6.PageMap
import Xv6.SysMem

/-! When memory runs out, `uvmalloc` and `uvmcopy` (kernel/vm.c) take back what they have mapped, so
a failing `sbrk` leaves the process as it was. -/
namespace Xv6

/-- The table has the same mappings as before, the other pages in use are as they were, and every
page that was taken for data is free again; `walk` may have added tables. -/
def Undone (lo : ℕ) (m : Mem) (p : ℕ) (M : PageMap) (R : Multiset ℕ) (m' : Mem) : Prop :=
  (∀ q ∈ R, m'.page q = m.page q) ∧ ∃ T', Table lo m' p T' M R

section Undo

variable {lo p : ℕ} {T R : Multiset ℕ} {L : ℕ → Pte} {M : PageMap} {m m' : Mem}

theorem Undone.of_kept {T' : Multiset ℕ} (hM : ∀ v < 512 ^ (2 + 1), entry (L v) = M v)
    (hb : ∀ v, MAXVP ≤ v → M v = none) (hk : Kept lo m p T' L R m') : Undone lo m p M R m' :=
  ⟨hk.rest, T', .of_kept hk hM hb⟩

theorem pte_of_none (ht : IsTree m.page 2 p T L) (hM : ∀ v < 512 ^ (2 + 1), entry (L v) = M v) {v : ℕ}
    (hv : v < MAXVP) (hnone : M v = none) : L v = 0 := by
  have hr := lt_range_of_maxvp hv
  rw [← entry_eq_none (ht.zero_or_valid hr), hM v hr, hnone]

theorem uvmalloc_undone {oldsz newsz : ℕ} {xperm : Pte} (h : Table lo m p T M R) (hle : oldsz ≤ newsz)
    (hx : xperm < 1024#64) (hfree : ∀ v, PGROUNDUP oldsz ≤ v * PGSIZE → v * PGSIZE < newsz → M v = none) :
    wp (uvmalloc p oldsz newsz xperm) (fun r m' => r = newsz ∨ r = 0 ∧ Undone lo m p M R m')
      (fun e _ => e = .walk ∧ MAXVA < newsz) m := by
  obtain ⟨⟨L, ht, hM⟩, hb, hs⟩ := h
  -- the pages of the loop are those of the range
  have hrange {v : ℕ} (h1 : PGROUNDUP oldsz / PGSIZE ≤ v) (h2 : v < PGROUNDUP oldsz / PGSIZE + newPages oldsz newsz) :
      PGROUNDUP oldsz ≤ v * PGSIZE ∧ v * PGSIZE < newsz := by
    have hdiv := PGROUNDUP_div oldsz
    rw [newPages] at h2
    rw [PGSIZE] at hdiv h1 h2 ⊢
    omega
  refine wp_mono (uvmalloc_built hx hle ⟨ht, hs, fun _ _ => rfl⟩) ?_ ?_
  · rintro r m' (⟨hr, -⟩ | ⟨hr, T', hk⟩)
    · exact .inl hr
    · exact .inr ⟨hr, .of_kept hM hb hk⟩
  · rintro e m' ⟨v, ⟨h1, h2, -, ⟨-, hv, hval⟩ | ⟨he, hv⟩⟩, -⟩
    · have hzero := pte_of_none ht hM hv (hfree v (hrange h1 h2).1 (hrange h1 h2).2)
      rw [hzero] at hval
      exact absurd hval not_valid_zero
    · exact ⟨he, lt_of_le_of_lt (maxva_le_page hv) (hrange h1 h2).2⟩

theorem uvmcopy_undone {old new sz : ℕ} {S : Multiset ℕ} {N : PageMap} (hold : Table lo m old S N (T + R))
    (hnew : Table lo m new T M (S + R)) (hfree : ∀ v, v * PGSIZE < sz → M v = none) :
    wp (uvmcopy old new sz) (fun ok m' => ok = true ∨ ok = false ∧ Undone lo m new M (S + R) m')
      (fun e _ => e = .walk ∧ MAXVA < sz) m := by
  obtain ⟨⟨L, ht, hM⟩, hb, hs⟩ := hnew
  obtain ⟨⟨L', ht', -⟩, -, -⟩ := hold
  have hzero : ∀ v < 0 + pagesOf sz, v < MAXVP → L v = 0 := by
    intro v hv hmax
    apply pte_of_none ht hM hmax
    apply hfree
    rw [pagesOf, PGSIZE] at hv
    rw [PGSIZE]
    omega
  have hspec := copyLoop_built (pagesOf sz) zero_le hzero ht' (Built.empty 0 _ ⟨ht, hs, fun _ _ => rfl⟩)
  rw [Nat.zero_mul, zero_add] at hspec
  refine wp_mono hspec ?_ ?_
  · rintro ok m' (⟨hok, -⟩ | ⟨hok, T', hk⟩)
    · exact .inl hok
    · exact .inr ⟨hok, .of_kept hM hb hk⟩
  · rintro e m' ⟨he, hmax⟩
    refine ⟨he, ?_⟩
    rw [MAXVP_eq, pagesOf, PGSIZE] at hmax
    rw [MAXVA]
    omega

end Undo

section Sbrk

open UserVm

variable {lo i : ℕ} {T R : Multiset ℕ} {M : PageMap} {s : Sys} {n : BitVec 32}

theorem addInt_ne_zero (hn : 0 < n.toInt) : addInt 0 n ≠ 0 := by
  intro h0
  rw [addInt, BitVec.zero_add] at h0
  have hzero : n.signExtend 64 = 0 := BitVec.eq_of_toNat_eq h0
  have hint : (n.signExtend 64).toInt = n.toInt := BitVec.toInt_signExtend_of_le (by norm_num)
  rw [hzero] at hint
  exact absurd hint (ne_of_lt hn)

/-- A failing eager `sbrk` changes nothing but the free pages and the tables. -/
theorem sysSbrk_undone (h : Table lo s.mem (s.proc i).pagetable T M R) (hn : 0 < n.toInt)
    (hfree : ∀ v, PGROUNDUP (s.proc i).sz ≤ v * PGSIZE → v * PGSIZE < addInt (s.proc i).sz n → M v = none) :
    wp (sysSbrk i n true)
      (fun ok s' => ok = false → s' = { s with mem := s'.mem } ∧ Undone lo s.mem (s.proc i).pagetable M R s'.mem)
      (fun e _ => e = .walk ∧ MAXVA < addInt (s.proc i).sz n) s := by
  rw [sysSbrk, wp_bind, myproc, wp_bind, wp_get, wp_pure, if_pos (.inl rfl), growproc, wp_bind, myproc, wp_bind,
    wp_get, wp_pure, if_pos hn, wp_bind, vm, wp_zoom]
  by_cases hlt : addInt (s.proc i).sz n < (s.proc i).sz
  · -- the sum wraps around and nothing is done
    rw [uvmalloc, if_pos hlt, wp_pure, if_neg (by omega), wp_bind]
    intro hok
    cases hok
  · refine wp_imp (uvmalloc_undone h (not_lt.mp hlt) (by decide) hfree) ?_
    rintro r m' hr
    split_ifs with h0
    · refine fun _ => ⟨rfl, ?_⟩
      rcases hr with hr | ⟨-, hundone⟩
      · have hsz : (s.proc i).sz = 0 := by omega
        rw [hr, hsz] at h0
        exact absurd h0 (addInt_ne_zero hn)
      · exact hundone
    · rw [wp_bind]
      intro hok
      cases hok

/-- Operations on address spaces that fail for lack of memory undo their mappings; they panic only
for sizes beyond the last address. -/
theorem failed_growth_undone :
    (∀ lo m p T M R oldsz newsz xperm, Table lo m p T M R → oldsz < newsz → xperm < 1024#64 →
      (∀ v, PGROUNDUP oldsz ≤ v * PGSIZE → v * PGSIZE < newsz → M v = none) →
      wp (uvmalloc p oldsz newsz xperm) (fun r m' => r = 0 → Undone lo m p M R m')
        (fun e _ => e = .walk ∧ MAXVA < newsz) m) ∧
    (∀ lo m old new S T N M R sz, Table lo m old S N (T + R) → Table lo m new T M (S + R) →
      (∀ v, v * PGSIZE < sz → M v = none) →
      wp (uvmcopy old new sz) (fun ok m' => ok = false → Undone lo m new M (S + R) m')
        (fun e _ => e = .walk ∧ MAXVA < sz) m) ∧
    (∀ lo (s : Sys) i n T M R, Table lo s.mem (s.proc i).pagetable T M R → 0 < n.toInt →
      (∀ v, PGROUNDUP (s.proc i).sz ≤ v * PGSIZE → v * PGSIZE < addInt (s.proc i).sz n → M v = none) →
      wp (sysSbrk i n true)
        (fun ok s' => ok = false → s' = { s with mem := s'.mem } ∧ Undone lo s.mem (s.proc i).pagetable M R s'.mem)
        (fun e _ => e = .walk ∧ MAXVA < addInt (s.proc i).sz n) s) := by
  refine ⟨?_, ?_, ?_⟩
  · intro lo m p T M R oldsz newsz xperm h hlt hx hfree
    refine wp_imp (uvmalloc_undone h hlt.le hx hfree) ?_
    rintro r m' (hr | ⟨-, hundone⟩) h0
    · omega
    · exact hundone
  · intro lo m old new S T N M R sz hold hnew hfree
    refine wp_imp (uvmcopy_undone hold hnew hfree) ?_
    rintro ok m' (hok | ⟨-, hundone⟩) h0
    · rw [hok] at h0
      cases h0
    · exact hundone
  · intro lo s i n T M R h hn hfree
    exact sysSbrk_undone h hn hfree

/-- One page on a machine that has a page for it but none for the table. -/
theorem failed_growth_undone_two :
    wp (uvmalloc (PHYSPAGES - 1) 0 PGSIZE PTE_W)
      (fun r m' => r = 0 → Undone (PHYSPAGES - 2) twoPages (PHYSPAGES - 1) (fun _ => none) 0 m')
      (fun e _ => e = .walk ∧ MAXVA < PGSIZE) twoPages := by
  have h := table_twoPages
  generalize twoPages = m at h ⊢
  exact failed_growth_undone.1 _ _ _ _ _ _ _ _ _ h (by decide) (by decide) (fun _ _ _ => rfl)

end Sbrk

end Xv6
