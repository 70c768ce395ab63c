import Xv6.FsAlloc

/-! Which blocks have changed and which the transaction has: a function of fs.c passes every block
that it changes to `log_write`, on any disk whatsoever. -/
namespace Xv6.Fs

/-- Every block that changed is in the transaction, which loses none. -/
def Recorded (s s' : St) : Prop := s.lh ⊆ s'.lh ∧ ∀ b, s'.disk b ≠ s.disk b → b ∈ s'.lh

instance : IsPreorder St Recorded where
  refl s := ⟨List.Subset.refl _, fun _ h => absurd rfl h⟩
  trans s s1 s2 h h' := by
    refine ⟨fun b hb => h'.1 (h.1 hb), fun b hb => ?_⟩
    by_cases h2 : s2.disk b = s1.disk b
    · exact h'.1 (h.2 b (fun h1 => hb (h2.trans h1)))
    · exact h'.2 b h2

abbrev Records {α : Type} (m : Op α) : Prop := Keeps Recorded (fun _ => True) m

variable {sb : Superblock} {s : St} {b : ℕ}

theorem logWrite_mem (b : ℕ) (s : St) :
    wp (logWrite b) (fun _ s' => s.lh.length < LOGBLOCKS ∧ b ∈ s'.lh ∧ s.lh ⊆ s'.lh ∧ s'.disk = s.disk)
      (fun _ _ => True) s := by
  simp only [logWrite, wp_bind, wp_get, wp_ite, wp_throw, wp_pure, wp_set]
  split_ifs with hbig hout hmem
  · exact ⟨not_le.mp hbig, hmem, List.Subset.refl _, trivial⟩
  · exact ⟨not_le.mp hbig, List.mem_append_right _ (List.mem_singleton_self b),
      List.subset_append_left _ _, trivial⟩

theorem records_write {α : Type} {f : St → Disk} (hf : ∀ s, ∀ c ≠ b, f s c = s.disk c) {m : Op α} (hm : Records m) :
    Records (do
      modify (fun s => { s with disk := f s })
      logWrite b
      m) := by
  intro s
  rw [wp_bind, wp_modify]
  refine wp_seq (logWrite_mem b _) ?_
  rintro - s1 ⟨-, hmem, hsub, hdisk⟩
  refine wp_imp (hm s1) (fun _ s2 h2 => trans_of Recorded ?_ h2)
  refine ⟨hsub, fun c hc => ?_⟩
  by_cases hcb : c = b
  · exact hcb ▸ hmem
  · rw [hdisk] at hc
    exact absurd (hf s c hcb) hc

theorem records_setCopy (i : ℕ) (f : St → Dinode) : Records (modify (fun s => s.setCopy i (f s))) :=
  Keeps.modify (fun _ => ⟨List.Subset.refl _, fun _ h => absurd rfl h⟩)

theorem records_balloc : Records (balloc sb) := by
  refine Keeps.bind Keeps.get (fun s => ?_)
  split
  · exact Keeps.pure 0
  · next b _ =>
    apply records_write (fun s c hc => update_of_ne hc _ _)
    simp only [bzero, bind_assoc]
    exact records_write (fun s c hc => update_of_ne hc _ _) (Keeps.pure b)

theorem records_bmapDirect (i k : ℕ) : Records (bmapDirect sb i k) := by
  refine Keeps.bind (Keeps.bind Keeps.get (fun _ => Keeps.pure _)) (fun d => Keeps.ite (Keeps.pure _) ?_)
  refine Keeps.bind records_balloc (fun b => Keeps.ite (Keeps.pure 0) ?_)
  exact Keeps.bind (records_setCopy i _) (fun _ => Keeps.pure b)

theorem records_bmapIndirect (ind bn : ℕ) : Records (bmapIndirect sb ind bn) := by
  refine Keeps.bind Keeps.get (fun s => Keeps.ite (Keeps.pure _) (Keeps.bind records_balloc (fun b => ?_)))
  exact Keeps.ite (Keeps.pure 0) (records_write (fun s c hc => update_of_ne hc _ _) (Keeps.pure b))

theorem records_bmap (i bn : ℕ) : Records (bmap sb i bn) := by
  refine Keeps.ite (records_bmapDirect i bn) (Keeps.ite ?_ (Keeps.throw trivial))
  exact Keeps.bind (records_bmapDirect i NDIRECT) (fun ind => Keeps.ite (Keeps.pure 0) (records_bmapIndirect ind _))

theorem records_iupdate (i : ℕ) (s : St) :
    wp (iupdate sb i) (fun _ s' => s.lh.length < LOGBLOCKS ∧ Recorded s s') (fun _ _ => True) s := by
  simp only [iupdate, wp_bind, wp_modify, wp_get]
  refine wp_imp (logWrite_mem _ _) ?_
  rintro - s1 ⟨hroom, hmem, hsub, hdisk⟩
  refine ⟨hroom, hsub, fun c hc => ?_⟩
  by_cases hcb : c = sb.iblock (s.itable i).inum
  · exact hcb ▸ hmem
  · rw [hdisk] at hc
    exact absurd (update_of_ne hcb _ _) hc

end Xv6.Fs
