import Xv6.FsTrunc

/-! The specifications of the functions on the inode table (kernel/fs.c, `iget` to `iput`). -/
namespace Xv6.Fs

variable {μ : Mode} {sb : Superblock} {p : ℕ} {s : St} {L : ℕ → Dinode} {D : Set ℕ}
  {H K : Multiset (ℕ × ℕ)} {N W : Finset ℕ} {i n : ℕ}

section Entries

namespace Ok

variable {disk : Disk} {T : ℕ → Inode}

section

variable (h : Ok μ sb p disk T L D H K)
include h

theorem mem_of_index (hi : i ∈ H.map Prod.fst) :
    (i, (T i).inum) ∈ H := by
  obtain ⟨⟨j, m⟩, hm, rfl⟩ := Multiset.mem_map.mp hi
  rwa [h.inum_eq hm]

theorem ref_pos (hi : (i, n) ∈ H) : 0 < (T i).ref := by
  rw [h.ref i (h.held i n hi).1]
  exact Multiset.count_pos.mpr (Multiset.mem_map_of_mem Prod.fst hi)

theorem mem_of_ref_pos (hi : i < NINODE) (hr : 0 < (T i).ref) :
    (i, (T i).inum) ∈ H := by
  rw [h.ref i hi] at hr
  exact h.mem_of_index (Multiset.count_pos.mp hr)

theorem set_entry {H' : Multiset (ℕ × ℕ)} {x : Inode}
    (hi : i < NINODE) (hn : n < sb.ninodes) (hinum : x.inum = n) (hdev : x.dev = ROOTDEV)
    (hlock : x.lock = (T i).lock) (href : ∀ j < NINODE, (H'.map Prod.fst).count j =
      if j = i then x.ref else (H.map Prod.fst).count j)
    (hother : ∀ j m, j ≠ i → ((j, m) ∈ H' ↔ (j, m) ∈ H)) (hself : ∀ m, (i, m) ∈ H' → m = n)
    (huniq : ∀ j, (j, n) ∈ H → j ≠ i → ∀ m, (i, m) ∉ H')
    (hlocked : ∀ m, (i, m) ∈ K → (i, m) ∈ H' ∧ x.valid = true)
    (hcopy : x.valid = true → ∀ m, (i, m) ∈ H' → x.copy = L n ∧ (L n).type ≠ 0)
    (hdirty : ∀ m ∈ D, (i, m) ∈ H → (T i).valid = true → (i, m) ∈ H' ∧ x.valid = true) :
    Ok μ sb p disk (update T i x) L D H' K := by
  have hne (j : ℕ) (hj : j ≠ i) : update T i x j = T j := update_of_ne hj x T
  have hxi : update T i x i = x := update_self i x T
  refine ⟨h.wf, h.blocks, ?_, ?_, ?_, ?_, ?_, h.nodup, ?_, ?_⟩
  · intro m hm
    rcases h.coherent m hm with h1 | ⟨h1, h2, j, h3, h4⟩
    · exact .inl h1
    · refine .inr ⟨h1, h2, j, ?_⟩
      by_cases hj : j = i
      · subst hj
        rw [hxi]
        exact hdirty m h1 h3 h4
      · rw [hne j hj, hother j m hj]
        exact ⟨h3, h4⟩
  · intro j hj
    rw [href j hj]
    by_cases hji : j = i
    · rw [if_pos hji, hji, hxi]
    · rw [if_neg hji, hne j hji]
      exact h.ref j hj
  · intro j m hj
    by_cases hji : j = i
    · subst hji
      rw [hxi, hself m hj]
      exact ⟨hi, hn, hinum, hdev⟩
    · rw [hne j hji]
      exact h.held j m ((hother j m hji).mp hj)
  · intro j k m hj hk
    by_cases hji : j = i
    · by_cases hki : k = i
      · rw [hji, hki]
      · subst hji
        have hm := hself m hj
        subst hm
        exact absurd hj (huniq k ((hother k m hki).mp hk) hki m)
    · by_cases hki : k = i
      · subst hki
        have hm := hself m hk
        subst hm
        exact absurd hk (huniq j ((hother j m hji).mp hj) hji m)
      · exact h.uniq j k m ((hother j m hji).mp hj) ((hother k m hki).mp hk)
  · intro j
    by_cases hji : j = i
    · rw [hji, hxi, hlock]
      exact h.lock i
    · rw [hne j hji]
      exact h.lock j
  · intro j m hj
    by_cases hji : j = i
    · subst hji
      rw [hxi]
      exact hlocked m hj
    · rw [hne j hji, hother j m hji]
      exact h.locked j m hj
  · intro j m hj hv
    by_cases hji : j = i
    · subst hji
      rw [hxi] at hv ⊢
      rw [hself m hj]
      exact hcopy hv m hj
    · rw [hne j hji] at hv ⊢
      exact h.copy j m ((hother j m hji).mp hj) hv

theorem add_ref (hi : (i, n) ∈ H) :
    Ok μ sb p disk (update T i { T i with ref := (T i).ref + 1 }) L D ((i, n) ::ₘ H) K := by
  have hh := h.held i n hi
  have hsame (m : ℕ) (hm : (i, m) ∈ (i, n) ::ₘ H) : m = n := by
    rcases Multiset.mem_cons.mp hm with h1 | h1
    · exact (Prod.mk.inj h1).2
    · exact h.inum_unique h1 hi
  refine h.set_entry hh.1 hh.2.1 hh.2.2.1 hh.2.2.2 rfl ?_ ?_ hsame ?_ ?_ ?_ ?_
  · intro j hj
    rw [Multiset.map_cons, Multiset.count_cons]
    by_cases hji : j = i
    · rw [if_pos hji, if_pos hji, hji, h.ref i hh.1]
    · rw [if_neg hji, if_neg hji, add_zero]
  · intro j m hj
    rw [Multiset.mem_cons]
    exact ⟨fun h1 => h1.resolve_left (fun h2 => hj (Prod.mk.inj h2).1), .inr⟩
  · exact fun j hj hne => absurd (h.uniq j i n hj hi) hne
  · exact fun m hm => ⟨mem_cons_of_mem (h.locked i m hm).1, (h.locked i m hm).2⟩
  · exact fun hv m _ => h.copy i n hi hv
  · exact fun m _ hm hv => ⟨mem_cons_of_mem hm, hv⟩

theorem new_entry (hi : i < NINODE) (hn : n < sb.ninodes)
    (href : (T i).ref = 0) (hnone : ∀ j, (j, n) ∉ H) :
    Ok μ sb p disk (update T i { T i with dev := ROOTDEV, inum := n, ref := 1, valid := false })
      L D ((i, n) ::ₘ H) K := by
  have hcount : (H.map Prod.fst).count i = 0 := by rw [← h.ref i hi, href]
  have hnot (m : ℕ) : (i, m) ∉ H := fun hm =>
    Multiset.count_eq_zero.mp hcount (Multiset.mem_map_of_mem Prod.fst hm)
  refine h.set_entry hi hn rfl rfl rfl ?_ ?_ ?_ ?_ ?_ ?_ ?_
  · intro j hj
    rw [Multiset.map_cons, Multiset.count_cons]
    by_cases hji : j = i
    · rw [if_pos hji, if_pos hji, hji, hcount]
    · rw [if_neg hji, if_neg hji, add_zero]
  · intro j m hj
    rw [Multiset.mem_cons]
    exact ⟨fun h1 => h1.resolve_left (fun h2 => hj (Prod.mk.inj h2).1), .inr⟩
  · intro m hm
    rcases Multiset.mem_cons.mp hm with h1 | h1
    · exact (Prod.mk.inj h1).2
    · exact absurd h1 (hnot m)
  · exact fun j hj _ => absurd hj (hnone j)
  · exact fun m hm => absurd (h.locked i m hm).1 (hnot m)
  · exact fun hv => absurd hv (by simp)
  · exact fun m _ hm => absurd hm (hnot m)

end

theorem drop_ref (h : Ok μ sb p disk T L D ((i, n) ::ₘ H) K)
    (hK : i ∈ K.map Prod.fst → (i, n) ∈ H) (hD : n ∈ D → (i, n) ∈ H) :
    Ok μ sb p disk (update T i { T i with ref := (T i).ref - 1 }) L D H K := by
  have hmem : (i, n) ∈ (i, n) ::ₘ H := mem_cons_self _ _
  have hh := h.held i n hmem
  have hsame (m : ℕ) (hm : (i, m) ∈ H) : m = n := h.inum_unique (mem_cons_of_mem hm) hmem
  refine h.set_entry hh.1 hh.2.1 hh.2.2.1 hh.2.2.2 rfl ?_ ?_ hsame ?_ ?_ ?_ ?_
  · intro j hj
    have hr := h.ref j hj
    rw [Multiset.map_cons, Multiset.count_cons] at hr ⊢
    by_cases hji : j = i
    · subst hji
      rw [if_pos rfl] at hr
      rw [if_pos rfl]
      change _ = (T j).ref - 1
      omega
    · rw [if_neg hji, if_neg hji, add_zero]
  · intro j m hj
    rw [Multiset.mem_cons]
    exact ⟨.inr, fun h1 => h1.resolve_left (fun h2 => hj (Prod.mk.inj h2).1)⟩
  · exact fun j hj hne => absurd (h.uniq j i n hj hmem) hne
  · intro m hm
    have hl := h.locked i m hm
    rw [h.inum_unique hl.1 hmem]
    exact ⟨hK (Multiset.mem_map_of_mem Prod.fst hm), hl.2⟩
  · exact fun hv m hm => h.copy i n hmem hv
  · intro m hm hmH hv
    have hmn : m = n := h.inum_unique hmH hmem
    subst hmn
    exact ⟨hD hm, hv⟩

theorem set_lock (h : Ok μ sb p disk T L D H K) (hi : (i, n) ∈ H) (hK : i ∉ K.map Prod.fst)
    {x : Inode} (hx : x = { T i with lock := some p, valid := true, copy := L n })
    (htype : (L n).type ≠ 0) :
    Ok μ sb p disk (update T i x) L D H ((i, n) ::ₘ K) := by
  subst hx
  have hne (j : ℕ) (hj : j ≠ i) : update T i
      { T i with lock := some p, valid := true, copy := L n } j = T j := update_of_ne hj _ T
  have hxi : update T i { T i with lock := some p, valid := true, copy := L n } i =
      { T i with lock := some p, valid := true, copy := L n } := update_self i _ T
  have hh := h.held i n hi
  refine ⟨h.wf, h.blocks, ?_, ?_, ?_, h.uniq, ?_, ?_, ?_, ?_⟩
  · intro m hm
    rcases h.coherent m hm with h1 | ⟨h1, h2, j, h3, h4⟩
    · exact .inl h1
    · refine .inr ⟨h1, h2, j, h3, ?_⟩
      by_cases hj : j = i
      · rw [hj, hxi]
      · rw [hne j hj, h4]
  · intro j hj
    by_cases hji : j = i
    · rw [hji, hxi]
      exact h.ref i hh.1
    · rw [hne j hji]
      exact h.ref j hj
  · intro j m hj
    by_cases hji : j = i
    · subst hji
      rw [hxi]
      exact h.held j m hj
    · rw [hne j hji]
      exact h.held j m hj
  · intro j
    rw [Multiset.map_cons]
    by_cases hji : j = i
    · rw [hji, hxi, if_pos (mem_cons_self _ _)]
    · rw [hne j hji, h.lock j]
      refine if_congr ?_ rfl rfl
      rw [Multiset.mem_cons]
      exact ⟨.inr, fun h1 => h1.resolve_left hji⟩
  · rw [Multiset.map_cons, nodup_cons]
    exact ⟨hK, h.nodup⟩
  · intro j m hj
    rcases Multiset.mem_cons.mp hj with h1 | h1
    · obtain ⟨rfl, rfl⟩ := Prod.mk.inj h1
      rw [hxi]
      exact ⟨hi, rfl⟩
    · have hji : j ≠ i := by
        rintro rfl
        exact hK (Multiset.mem_map_of_mem Prod.fst h1)
      rw [hne j hji]
      exact h.locked j m h1
  · intro j m hj hv
    by_cases hji : j = i
    · subst hji
      have hmn : m = n := h.inum_unique hj hi
      subst hmn
      rw [hxi]
      exact ⟨rfl, htype⟩
    · rw [hne j hji] at hv ⊢
      exact h.copy j m hj hv

theorem unset_lock (h : Ok μ sb p disk T L D H ((i, n) ::ₘ K)) :
    Ok μ sb p disk (update T i { T i with lock := none }) L D H K := by
  have hne (j : ℕ) (hj : j ≠ i) : update T i { T i with lock := none } j = T j :=
    update_of_ne hj _ T
  have hxi : update T i { T i with lock := none } i = { T i with lock := none } :=
    update_self i _ T
  -- the other fields are as before
  have hsame (j : ℕ) : (update T i { T i with lock := none } j).ref = (T j).ref ∧
      (update T i { T i with lock := none } j).inum = (T j).inum ∧
      (update T i { T i with lock := none } j).dev = (T j).dev ∧
      (update T i { T i with lock := none } j).copy = (T j).copy ∧
      (update T i { T i with lock := none } j).valid = (T j).valid := by
    by_cases hj : j = i
    · rw [hj, hxi]
      exact ⟨rfl, rfl, rfl, rfl, rfl⟩
    · rw [hne j hj]
      exact ⟨rfl, rfl, rfl, rfl, rfl⟩
  have hnd := h.nodup
  rw [Multiset.map_cons, nodup_cons] at hnd
  refine ⟨h.wf, h.blocks, ?_, ?_, ?_, h.uniq, ?_, hnd.2, ?_, ?_⟩
  · intro m hm
    rcases h.coherent m hm with h1 | ⟨h1, h2, j, h3, h4⟩
    · exact .inl h1
    · exact .inr ⟨h1, h2, j, h3, by rw [(hsame j).2.2.2.2, h4]⟩
  · intro j hj
    rw [(hsame j).1]
    exact h.ref j hj
  · intro j m hj
    rw [(hsame j).2.1, (hsame j).2.2.1]
    exact h.held j m hj
  · intro j
    by_cases hji : j = i
    · rw [hji, hxi, if_neg hnd.1]
    · rw [hne j hji, h.lock j, Multiset.map_cons]
      refine if_congr ?_ rfl rfl
      rw [Multiset.mem_cons]
      exact ⟨fun h1 => h1.resolve_left hji, .inr⟩
  · intro j m hj
    rw [(hsame j).2.2.2.2]
    exact h.locked j m (mem_cons_of_mem hj)
  · intro j m hj hv
    rw [(hsame j).2.2.2.2] at hv
    rw [(hsame j).2.2.2.1]
    exact h.copy j m hj hv

/-- The inode `n`, which has no blocks, is marked free on disk, and its entry is unlocked and no longer
valid. -/
theorem free_inode (h : Ok μ sb p disk T L D H ((i, n) ::ₘ K)) (haddr : ∀ k, addr (L n) k = 0)
    {d : Dinode} {x : Inode} (hd : d = { L n with type := 0 })
    (hx : x = { T i with copy := d, valid := false, lock := none }) :
    Ok μ sb p (setDinode sb disk n d) (update T i x) (update L n d) D H K ∧
      nodes sb (setDinode sb disk n d) (update L n d) =
        update (nodes sb disk L) n .free := by
  have hiK : (i, n) ∈ (i, n) ::ₘ K := mem_cons_self _ _
  have hi : (i, n) ∈ H := (h.locked i n hiK).1
  have hn : n < sb.ninodes := (h.held i n hi).2.1
  have hne (j : ℕ) (hj : j ≠ i) : update T i x j = T j := update_of_ne hj _ T
  have hxi : update T i x i = x := update_self i _ T
  have htype : d.type = 0 := by rw [hd]
  have hnot : ¬ Used sb (update L n d) n := by
    unfold Used
    rw [update_self, htype]
    exact fun hu => hu.2 rfl
  have hdata (b : ℕ) (hb : sb.IsData b) : setDinode sb disk n d b = disk b :=
    setDinode_data h.wf hb hn d
  have hblocks : Blocks sb μ.holey disk (update L n d) := by
    refine h.blocks.set_inode ?_ (fun hu => absurd hu hnot) (fun hu => absurd hu hnot)
    intro k
    have hz : slot disk (L n) k = 0 := by
      unfold slot
      simp only [haddr, ne_eq, not_true_eq_false, and_false, if_false, ite_self]
    rw [if_neg hnot, hz, ite_self]
  have hnodes : nodes sb (setDinode sb disk n d) (update L n d) =
      update (nodes sb disk L) n .free := by
    rw [hblocks.nodes_data_congr hdata, nodes_update, if_neg (fun hc => hc.2 htype)]
  have hnd := h.nodup
  rw [Multiset.map_cons, nodup_cons] at hnd
  refine ⟨⟨h.wf, ?_, ?_, ?_, ?_, h.uniq, ?_, hnd.2, ?_, ?_⟩, hnodes⟩
  · exact hblocks.data_congr hdata (fun b _ => bit_setDinode h.wf hn d b)
  · intro m hm
    rw [dinode_setDinode]
    by_cases hmn : m = n
    · rw [if_pos hmn, hmn, update_self]
      exact .inl rfl
    · rw [if_neg hmn, update_of_ne hmn]
      rcases h.coherent m hm with h1 | ⟨h1, h2, j, h3, h4⟩
      · exact .inl h1
      · have hji : j ≠ i := by
          rintro rfl
          exact hmn (h.inum_unique h3 hi)
        exact .inr ⟨h1, h2, j, h3, by rw [hne j hji, h4]⟩
  · intro j hj
    by_cases hji : j = i
    · rw [hji, hxi, hx]
      exact h.ref i (h.held i n hi).1
    · rw [hne j hji]
      exact h.ref j hj
  · intro j m hj
    by_cases hji : j = i
    · rw [hji] at hj
      rw [hji, hxi, hx]
      exact h.held i m hj
    · rw [hne j hji]
      exact h.held j m hj
  · intro j
    by_cases hji : j = i
    · rw [hji, hxi, hx, if_neg hnd.1]
    · rw [hne j hji, h.lock j, Multiset.map_cons]
      refine if_congr ?_ rfl rfl
      rw [Multiset.mem_cons]
      exact ⟨fun h1 => h1.resolve_left hji, .inr⟩
  · intro j m hj
    have hjK : j ∈ K.map Prod.fst := Multiset.mem_map_of_mem Prod.fst hj
    have hji : j ≠ i := by
      rintro rfl
      exact hnd.1 hjK
    rw [hne j hji]
    exact h.locked j m (mem_cons_of_mem hj)
  · intro j m hj hv
    by_cases hji : j = i
    · rw [hji, hxi, hx] at hv
      exact absurd hv (by simp)
    · have hmn : m ≠ n := by
        rintro rfl
        exact hji (h.uniq j i m hj hi)
      rw [hne j hji] at hv ⊢
      rw [update_of_ne hmn]
      exact h.copy j m hj hv

theorem alloc_inode (h : Ok μ sb p disk T L D H K) (hn : n < sb.ninodes)
    (hfree : (dinode sb disk n).type = 0) {d : Dinode} (htype : d.type ≠ 0) (hsize : d.size = 0)
    (haddr : ∀ k, addr d k = 0) :
    Ok μ sb p (setDinode sb disk n d) T (update L n d) D H K ∧
      nodes sb (setDinode sb disk n d) (update L n d) =
        update (nodes sb disk L) n
          ⟨d.type, d.major, d.minor, d.nlink, 0, fun _ => 0⟩ := by
  have hL : (L n).type = 0 := by
    rcases h.coherent n hn with h1 | ⟨-, h1, -⟩
    · rw [← h1, hfree]
    · rw [← h1, hfree]
  have hslot (k : ℕ) : slot disk d k = 0 := by
    unfold slot
    simp only [haddr, ne_eq, not_true_eq_false, and_false, if_false, ite_self]
  have hdata (b : ℕ) (hb : sb.IsData b) : setDinode sb disk n d b = disk b :=
    setDinode_data h.wf hb hn d
  have hblocks : Blocks sb μ.holey disk (update L n d) := by
    refine h.blocks.set_inode ?_ (fun _ _ => ?_) (fun _ => ?_)
    · intro k
      rw [hslot, ite_self, if_neg (fun hu => hu.2 hL)]
    · refine ⟨by rw [hsize]; exact zero_le, fun bn hbn => ?_⟩
      rw [hsize] at hbn
      exact absurd hbn (Nat.not_lt_zero _)
    · rw [hsize]
      exact zero_le
  have hnodes : nodes sb (setDinode sb disk n d) (update L n d) =
      update (nodes sb disk L) n ⟨d.type, d.major, d.minor, d.nlink, 0, fun _ => 0⟩ := by
    rw [hblocks.nodes_data_congr hdata, nodes_update, if_pos ⟨hn, htype⟩]
    simp [node, hsize]
  -- nobody has a valid copy of a free inode
  have hcopy (j m : ℕ) (hj : (j, m) ∈ H) (hv : (T j).valid = true) : m ≠ n := by
    rintro rfl
    exact (h.copy j m hj hv).2 hL
  refine ⟨{ h with
    blocks := hblocks.data_congr hdata (fun b _ => bit_setDinode h.wf hn d b)
    coherent := ?_
    copy := ?_ }, hnodes⟩
  · intro m hm
    rw [dinode_setDinode]
    by_cases hmn : m = n
    · rw [if_pos hmn, hmn, update_self]
      exact .inl rfl
    · rw [if_neg hmn, update_of_ne hmn]
      exact h.coherent m hm
  · intro j m hj hv
    rw [update_of_ne (hcopy j m hj hv)]
    exact h.copy j m hj hv

end Ok

end Entries

section Specs

/-- The pointers `H` leave an entry of the table free, or running out of entries is not excluded. -/
def Mode.Free (μ : Mode) (H : Multiset (ℕ × ℕ)) (k : ℕ) : Prop :=
  (H.map Prod.fst).toFinset.card + k ≤ NINODE ∨ μ.stops .noInodes

theorem Mode.Free.mono {H' : Multiset (ℕ × ℕ)} {k k' : ℕ} (h : μ.Free H k)
    (hle : (H'.map Prod.fst).toFinset.card + k' ≤ (H.map Prod.fst).toFinset.card + k) :
    μ.Free H' k' := h.imp_left (fun h1 => le_trans hle h1)

theorem Mode.Free.cons {k : ℕ} (h : μ.Free H (k + 1)) (x : ℕ × ℕ) : μ.Free (x ::ₘ H) k := by
  refine h.mono ?_
  rw [Multiset.map_cons, Multiset.toFinset_cons]
  have := Finset.card_insert_le x.1 (H.map Prod.fst).toFinset
  omega

/-- The copies in the table that are valid stay so. -/
def KeepsValid (H : Multiset (ℕ × ℕ)) (T T' : ℕ → Inode) : Prop :=
  ∀ j m, (j, m) ∈ H → (T j).valid = true → (T' j).valid = true

theorem iget_spec (hok : Ok μ sb p s.disk s.itable L D H K) (hn : n < sb.ninodes)
    (hfree : μ.Free H 1) (hb : μ.counts → s.Bounded) :
    wp (iget ROOTDEV n) (fun i s' => ∃ T, s' = { s with itable := T } ∧
      Ok μ sb p s.disk T L D ((i, n) ::ₘ H) K ∧ KeepsValid H s.itable T ∧
      ((T i).valid = true → (i, n) ∈ H)) μ.E s := by
  have hspec := scan_spec s.itable ROOTDEV n (List.range NINODE) none (fun _ hc => by cases hc)
  simp only [iget, wp_bind, wp_get]
  cases hscan : scan s.itable ROOTDEV n (List.range NINODE) none with
  | hit i =>
    rw [hscan] at hspec
    obtain ⟨hmem, hpos, -, hinum⟩ := hspec
    have hi : (i, n) ∈ H := by
      have := hok.mem_of_ref_pos (List.mem_range.mp hmem) hpos
      rwa [hinum] at this
    simp only [wp_bind, wp_set, wp_pure]
    refine ⟨_, rfl, hok.add_ref hi, ?_, fun _ => hi⟩
    intro j m hj hv
    by_cases hji : j = i
    · rw [hji, update_self]
      rwa [hji] at hv
    · rwa [update_of_ne hji]
  | empty i =>
    rw [hscan] at hspec
    obtain ⟨hmem, href, hnone⟩ := hspec
    have hi : i < NINODE := List.mem_range.mp (hmem.resolve_right (by simp))
    have hnot (j : ℕ) : (j, n) ∉ H := by
      intro hj
      have hh := hok.held j n hj
      exact hnone j (List.mem_range.mpr hh.1) (hok.ref_pos hj) ⟨hh.2.2.2, hh.2.2.1⟩
    simp only [wp_bind, wp_set, wp_pure]
    refine ⟨_, rfl, hok.new_entry hi hn href hnot, ?_, ?_⟩
    · intro j m hj hv
      have hji : j ≠ i := by
        rintro rfl
        have := hok.ref_pos hj
        omega
      rwa [update_of_ne hji]
    · rw [update_self]
      exact fun hv => absurd hv (by simp)
  | full =>
    rw [hscan] at hspec
    obtain ⟨-, hpos⟩ := hspec
    have hall : Finset.range NINODE ⊆ (H.map Prod.fst).toFinset := by
      intro j hj
      have hlt := Finset.mem_range.mp hj
      have hm := hok.mem_of_ref_pos hlt (hpos j (List.mem_range.mpr hlt))
      exact Multiset.mem_toFinset.mpr (Multiset.mem_map_of_mem Prod.fst hm)
    have hcard := Finset.card_le_card hall
    rw [Finset.card_range] at hcard
    exact ⟨hfree.resolve_left (by omega), hb⟩

theorem idup_spec {E : Panic → St → Prop} (hok : Ok μ sb p s.disk s.itable L D H K) (hi : (i, n) ∈ H) :
    wp (idup i) (fun r s' => r = i ∧ ∃ T, s' = { s with itable := T } ∧
      Ok μ sb p s.disk T L D ((i, n) ::ₘ H) K ∧ KeepsValid H s.itable T) E s := by
  simp only [idup, wp_bind, wp_modify, wp_pure]
  refine ⟨trivial, _, rfl, hok.add_ref hi, ?_⟩
  intro j m hj hv
  by_cases hji : j = i
  · rw [hji, update_self]
    rwa [hji] at hv
  · rwa [update_of_ne hji]

theorem ilock_spec (hok : Ok μ sb p s.disk s.itable L D H K) (hi : (i, n) ∈ H)
    (hb : μ.counts → s.Bounded) (hblocked : i ∈ K.map Prod.fst → μ.stops .blocked)
    (hnotype : (L n).type = 0 → μ.stops .noType) :
    wp (ilock sb p i) (fun _ s' => ∃ T, s' = { s with itable := T } ∧
      Ok μ sb p s.disk T L D H ((i, n) ::ₘ K) ∧ KeepsValid H s.itable T) μ.E s := by
  have hinum := hok.inum_eq hi
  have href : ¬ (s.itable i).ref < 1 := by
    have := hok.ref_pos hi
    omega
  have hlock := hok.lock i
  simp only [ilock, acquiresleep, wp_bind, wp_get, if_neg href, wp_ite, wp_set, wp_throw]
  by_cases hK : i ∈ K.map Prod.fst
  · rw [if_pos hK] at hlock
    rw [if_neg (by rw [hlock]; simp)]
    exact ⟨hblocked hK, hb⟩
  · rw [if_neg hK] at hlock
    rw [if_pos hlock]
    simp only [St.setInode, update_self, wp_pure, update_idem]
    have hkeep (x : Inode) (hx : x.valid = true) : KeepsValid H s.itable (update s.itable i x) := by
      intro j m hj hv
      by_cases hji : j = i
      · rw [hji, update_self, hx]
      · rwa [update_of_ne hji]
    split_ifs with hv ht
    · obtain ⟨hcopy, htype⟩ := hok.copy i n hi hv
      refine ⟨_, rfl, hok.set_lock hi hK ?_ htype, hkeep _ hv⟩
      rw [← hcopy, ← hv]
    · -- the inode is free on disk
      rw [hinum] at ht
      refine ⟨hnotype ?_, hb⟩
      rcases hok.coherent n (hok.held i n hi).2.1 with h1 | ⟨-, h1, -⟩
      · rw [← h1, ht]
      · rw [← h1, ht]
    · have hL : dinode sb s.disk n = L n := by
        rcases hok.coherent n (hok.held i n hi).2.1 with h1 | ⟨-, -, j, hj, hjv⟩
        · exact h1
        · rw [hok.uniq j i n hj hi] at hjv
          exact absurd hjv hv
      rw [hinum, hL] at ht ⊢
      exact ⟨_, rfl, hok.set_lock hi hK (by simp only [hinum]) ht, hkeep _ rfl⟩

theorem iunlock_spec {E : Panic → St → Prop} (hok : Ok μ sb p s.disk s.itable L D H ((i, n) ::ₘ K)) :
    wp (iunlock p i) (fun _ s' => ∃ T, s' = { s with itable := T } ∧
      Ok μ sb p s.disk T L D H K ∧ KeepsValid H s.itable T ∧ (T i).valid = true) E s := by
  have hmem : (i, n) ∈ (i, n) ::ₘ K := mem_cons_self _ _
  have hH := hok.locked i n hmem
  have hlock := hok.lock i
  rw [if_pos (Multiset.mem_map_of_mem Prod.fst hmem)] at hlock
  have hcond : ¬ ((s.itable i).lock ≠ some p ∨ (s.itable i).ref < 1) := by
    have := hok.ref_pos hH.1
    rintro (h1 | h1)
    · exact h1 hlock
    · omega
  simp only [iunlock, wp_bind, wp_get, if_neg hcond, releasesleep, wp_modify]
  refine ⟨_, rfl, hok.unset_lock, ?_, ?_⟩
  · intro j m hj hv
    by_cases hji : j = i
    · rw [hji, update_self]
      rwa [hji] at hv
    · rwa [update_of_ne hji]
  · rw [update_self]
    exact hH.2

/-- The last pointer to an inode without links: `iput` frees it. -/
def Gone (T : ℕ → Inode) (L : ℕ → Dinode) (H : Multiset (ℕ × ℕ)) (i n : ℕ) : Prop :=
  (T i).valid = true ∧ (L n).nlink = 0 ∧ (i, n) ∉ H

theorem gone_iff (hok : Ok μ sb p s.disk s.itable L D ((i, n) ::ₘ H) K) :
    ((s.itable i).ref = 1 ∧ (s.itable i).valid = true ∧ (s.itable i).copy.nlink = 0) ↔
      Gone s.itable L H i n := by
  have hmem : (i, n) ∈ (i, n) ::ₘ H := mem_cons_self _ _
  have href := hok.ref i (hok.held i n hmem).1
  rw [Multiset.map_cons, Multiset.count_cons_self] at href
  have hone : (s.itable i).ref = 1 ↔ (i, n) ∉ H := by
    rw [href]
    constructor
    · intro h1 hi
      have hpos := Multiset.count_pos.mpr (Multiset.mem_map_of_mem Prod.fst hi)
      simp only at hpos
      omega
    · intro hi
      have hz : (H.map Prod.fst).count i = 0 := by
        rw [Multiset.count_eq_zero]
        intro hj
        obtain ⟨⟨j, m⟩, hm, rfl⟩ := Multiset.mem_map.mp hj
        have hmn := hok.inum_unique (mem_cons_of_mem hm) hmem
        subst hmn
        exact hi hm
      omega
  unfold Gone
  constructor
  · rintro ⟨h1, h2, h3⟩
    refine ⟨h2, ?_, hone.mp h1⟩
    rwa [(hok.copy i n hmem h2).1] at h3
  · rintro ⟨h1, h2, h3⟩
    refine ⟨hone.mpr h3, h1, ?_⟩
    rwa [(hok.copy i n hmem h1).1]

theorem ifree_spec (hok : Ok μ sb p s.disk s.itable L D ((i, n) ::ₘ H) K)
    (hK : i ∈ K.map Prod.fst → (i, n) ∈ H) (hl : Logged μ sb s N W)
    (hroom : Gone s.itable L H i n → μ.Room (insert n N) W.card) :
    wp (ifree sb p i) (fun _ s' => (¬ Gone s.itable L H i n ∧ s' = s) ∨
      (Gone s.itable L H i n ∧ ∃ L', Ok μ sb p s'.disk s'.itable L' D ((i, n) ::ₘ H) K ∧
        nodes sb s'.disk L' = update (nodes sb s.disk L) n .free ∧ Env s s' ∧
        (∀ j ≠ i, s'.itable j = s.itable j) ∧ dinode sb s'.disk n = L' n ∧
        Logged μ sb s' (insert n N) W)) μ.E s := by
  have hmem : (i, n) ∈ (i, n) ::ₘ H := mem_cons_self _ _
  simp only [ifree, wp_bind, wp_get, wp_ite]
  split_ifs with hcond
  · have hgone := (gone_iff hok).mp hcond
    have hK : i ∉ K.map Prod.fst := fun hm => hgone.2.2 (hK hm)
    have hlock := hok.lock i
    rw [if_neg hK] at hlock
    simp only [acquiresleep, wp_bind, wp_get, if_pos hlock, wp_set, St.setInode]
    obtain ⟨hcopy, htype⟩ := hok.copy i n hmem hgone.1
    have hok1 : Ok μ sb p s.disk (update s.itable i { s.itable i with lock := some p }) L D
        ((i, n) ::ₘ H) ((i, n) ::ₘ K) :=
      hok.set_lock hmem hK (by rw [← hcopy, ← hgone.1]) htype
    have hl1 : Logged μ sb { s with
      itable := update s.itable i { s.itable i with lock := some p } } N W := hl.congr rfl rfl rfl
    refine wp_imp (itrunc_spec hok1 (mem_cons_self _ _) hl1 (hroom hgone)) ?_
    rintro - s2 ⟨d, hok2, ⟨-, -, -, -, -, haddr⟩, hnodes2, htable2, henv2, hl2⟩
    have hd : update L n d n = d := update_self n d L
    have hinum2 := hok2.inum_eq hmem
    have hcopy2 := hok2.copy_eq (mem_cons_self (i, n) K)
    rw [hd] at hcopy2
    obtain ⟨hok3, hnodes3⟩ := hok2.free_inode (by rwa [hd]) rfl rfl
    rw [hd, update_idem] at hok3 hnodes3
    simp only [iupdate, wp_bind, wp_modify, wp_get, St.setCopy, St.setInode, update_self,
      hinum2, hcopy2]
    have hl3 : Logged μ sb { s2 with
      disk := setDinode sb s2.disk n { d with type := 0 }
      itable := update s2.itable i { s2.itable i with inum := n, copy := { d with type := 0 } } }
        (insert n N) W := hl2.congr rfl rfl rfl
    refine wp_imp (logWrite_spec hl3 subset_rfl (Finset.Subset.refl W)
      (fun _ => .inr (.inl ⟨n, Finset.mem_insert_self n N, rfl⟩)) (hroom hgone)) ?_
    rintro - s4 ⟨lh, rfl, hl4⟩
    simp only [wp_modify, releasesleep, St.setInode, update_self, update_idem, wp_bind]
    refine .inr ⟨hgone, _, ?_, hnodes3.trans ?_, henv2, ?_, ?_, hl4.congr rfl rfl rfl⟩
    · convert hok3 using 3
      exact hinum2.symm
    · rw [hnodes2, update_idem]
    · intro j hj
      rw [update_of_ne hj, htable2, update_of_ne hj]
      exact update_of_ne hj _ _
    · rw [update_self]
      exact (dinode_setDinode n n _).trans (if_pos rfl)
  · exact .inl ⟨fun hgone => hcond ((gone_iff hok).mpr hgone), rfl⟩

theorem iput_spec (hok : Ok μ sb p s.disk s.itable L D ((i, n) ::ₘ H) K)
    (hK : i ∈ K.map Prod.fst → (i, n) ∈ H) (hD : n ∈ D → (i, n) ∈ H) (hl : Logged μ sb s N W)
    (hroom : Gone s.itable L H i n → μ.Room (insert n N) W.card) :
    wp (iput sb p i) (fun _ s' =>
      (¬ Gone s.itable L H i n ∧ ∃ T, s' = { s with itable := T } ∧ Ok μ sb p s.disk T L D H K ∧
        KeepsValid H s.itable T) ∨
      (Gone s.itable L H i n ∧ ∃ L', Ok μ sb p s'.disk s'.itable L' D H K ∧
        nodes sb s'.disk L' = update (nodes sb s.disk L) n .free ∧ Env s s' ∧
        KeepsValid H s.itable s'.itable ∧ Logged μ sb s' (insert n N) W)) μ.E s := by
  simp only [iput, wp_bind]
  refine wp_imp (ifree_spec hok hK hl hroom) ?_
  rintro - s1 (⟨hgone, rfl⟩ | ⟨hgone, L', hok1, hnodes, henv, hother, -, hl1⟩)
  · rw [wp_modify]
    refine .inl ⟨hgone, _, rfl, hok.drop_ref hK hD, ?_⟩
    intro j m hj hv
    by_cases hji : j = i
    · rw [hji, update_self]
      rwa [hji] at hv
    · rwa [update_of_ne hji]
  · rw [wp_modify]
    refine .inr ⟨hgone, L', hok1.drop_ref hK hD, hnodes, henv, ?_, hl1.congr rfl rfl rfl⟩
    intro j m hj hv
    have hji : j ≠ i := by
      rintro rfl
      have hmn := hok.inum_unique (mem_cons_of_mem hj) (mem_cons_self (j, n) H)
      subst hmn
      exact hgone.2.2 hj
    change (update s1.itable i _ j).valid = true
    rw [update_of_ne hji, hother j hji, hv]

theorem ialloc_spec {type : BitVec 16} (hok : Ok μ sb p s.disk s.itable L D H K) (htype : type ≠ 0)
    (hfree : μ.Free H 1) (hl : Logged μ sb s N W)
    (hroom : ∀ n, μ.Room (insert n N) W.card) :
    wp (ialloc sb ROOTDEV type) (fun r s' => (r = none ∧ s' = s) ∨
      ∃ i n L', r = some i ∧ n ≠ 0 ∧ n < sb.ninodes ∧ (nodes sb s.disk L n).type = 0 ∧
        Ok μ sb p s'.disk s'.itable L' D ((i, n) ::ₘ H) K ∧
        nodes sb s'.disk L' = update (nodes sb s.disk L) n ⟨type, 0, 0, 0, 0, fun _ => 0⟩ ∧
        Env s s' ∧ KeepsValid H s.itable s'.itable ∧ Logged μ sb s' (insert n N) W) μ.E s := by
  simp only [ialloc, wp_bind, wp_get]
  cases hf : (List.range' 1 (sb.ninodes - 1)).find? (fun n => (dinode sb s.disk n).type = 0) with
  | none => exact .inl ⟨rfl, rfl⟩
  | some n =>
    have hzero : (dinode sb s.disk n).type = 0 := by
      have h1 := List.find?_some hf
      simpa using h1
    have hmem := List.mem_range'_1.mp (List.mem_of_find?_eq_some hf)
    have hn : n < sb.ninodes := by omega
    have hold : (nodes sb s.disk L n).type = 0 := by
      rw [nodes_type n hn]
      rcases hok.coherent n hn with h1 | ⟨-, h1, -⟩
      · rw [← h1, hzero]
      · rw [← h1, hzero]
    obtain ⟨hok1, hnodes1⟩ := hok.alloc_inode (d := { Dinode.zero with type := type }) hn hzero htype rfl
      (fun k => addr_of_zeros k type)
    simp only [wp_bind, wp_modify]
    refine wp_imp (logWrite_spec (M := insert n N) (V := W) (hl.congr rfl rfl rfl)
      (Finset.subset_insert n N) (Finset.Subset.refl W)
      (fun _ => .inr (.inl ⟨n, Finset.mem_insert_self n N, rfl⟩)) (hroom n)) ?_
    rintro - s1 ⟨lh, rfl, hl1⟩
    refine wp_seq (iget_spec hok1 hn hfree (hl1.bounded (hroom n))) ?_
    rintro i s2 ⟨T, rfl, hok2, hkeep, -⟩
    rw [wp_pure]
    exact .inr ⟨i, n, _, rfl, by omega, hn, hold, hok2, hnodes1, ⟨rfl, rfl⟩, hkeep,
      hl1.congr rfl rfl rfl⟩

end Specs

end Xv6.Fs
