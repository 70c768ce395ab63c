import Xv6.Log

/-! What is on disk, and what `recover_from_log` makes of it. A disk is *durable* for a state of the
home blocks when installing the log in its header gives that state; every write of the recovery
keeps it so, however often the recovery is cut off. -/
namespace Xv6

/-- Not in the log area `[start, start + LOGBLOCKS]`; a block number is a `uint`. -/
def Home (start b : ℕ) : Prop := b < 2 ^ 32 ∧ (b < start ∨ start + LOGBLOCKS < b)

theorem home_ne_start {start b : ℕ} (h : Home start b) : b ≠ start := by
  have := h.2
  omega

theorem home_ne_log {start b i : ℕ} (h : Home start b) (hi : i < LOGBLOCKS) :
    b ≠ start + i + 1 := by
  have := h.2
  omega

section Header

theorem word_writeBlocks_of_lt (b : Block) (i : ℕ) (xs : List ℕ) {j : ℕ} (hj : j ≤ i) :
    word (writeBlocks b i xs) j = word b j := by
  induction xs generalizing b i with
  | nil => rfl
  | cons x xs ih =>
    rw [writeBlocks, ih _ _ (by omega), word_setWord_of_ne _ _ (by omega)]

theorem word_writeBlocks (b : Block) (i : ℕ) (xs : List ℕ) {j : ℕ} (hj : j < xs.length)
    (hn : i + xs.length < 256) :
    word (writeBlocks b i xs) (i + j + 1) = BitVec.ofNat 32 (xs.getD j 0) := by
  induction xs generalizing b i j with
  | nil => cases hj
  | cons x xs ih =>
    rw [List.length_cons] at hn
    rw [writeBlocks]
    cases j with
    | zero => rw [word_writeBlocks_of_lt _ _ _ (by omega), word_setWord _ _ (by omega)]; rfl
    | succ j =>
      have h := ih (setWord b (i + 1) (BitVec.ofNat 32 x)) (i + 1) (j := j)
        (by simpa using hj) (by omega)
      rw [show i + 1 + j + 1 = i + (j + 1) + 1 by omega] at h
      rw [h]
      rfl

/-- The header that `write_head` stores is the one that `read_head` finds. -/
theorem readHead_writeHead (b : Block) {lh : List ℕ} (hn : lh.length ≤ LOGBLOCKS)
    (hb : ∀ x ∈ lh, x < 2 ^ 32) : readHead (writeHead b lh) = lh := by
  have hlen : lh.length ≤ 30 := hn
  have hcount : word (writeHead b lh) 0 = BitVec.ofNat 32 lh.length := by
    rw [writeHead, word_writeBlocks_of_lt _ _ _ (le_refl 0), word_setWord _ _ (by omega)]
  have hint : (word (writeHead b lh) 0).toInt.toNat = lh.length := by
    rw [hcount, BitVec.toInt_eq_toNat_of_lt (by rw [BitVec.toNat_ofNat]; omega), BitVec.toNat_ofNat,
      Nat.mod_eq_of_lt (by omega)]
    omega
  rw [readHead, hint]
  apply List.ext_getElem
  · simp
  intro j h1 h2
  rw [List.getElem_map, List.getElem_range, writeHead]
  have hw := word_writeBlocks (setWord b 0 (BitVec.ofNat 32 lh.length)) 0 lh h2 (by omega)
  rw [zero_add] at hw
  have hx : lh[j] < 2 ^ 32 := hb _ (List.getElem_mem h2)
  rw [hw, BitVec.toNat_ofNat, List.getD_eq_getElem lh 0 h2, Nat.mod_eq_of_lt hx]

end Header

/-- The home blocks after the writes `ws`. -/
def applyWrites (d : Disk) (ws : List LogWrite) : Disk :=
  ws.foldl (fun d w => update d w.blockno w.data) d

theorem applyWrites_append (d : Disk) (ws vs : List LogWrite) :
    applyWrites d (ws ++ vs) = applyWrites (applyWrites d ws) vs :=
  List.foldl_append

/-- Installing the log that the header of `d` describes gives `view` on the home blocks. -/
structure Durable (start : ℕ) (d : Disk) (view : Disk) : Prop where
  length : (readHead (d start)).length ≤ LOGBLOCKS
  home : ∀ b ∈ readHead (d start), Home start b
  log : ∀ i < (readHead (d start)).length,
    d (start + i + 1) = view ((readHead (d start)).getD i 0)
  rest : ∀ b, Home start b → b ∉ readHead (d start) → d b = view b

theorem getD_mem {l : List ℕ} {i : ℕ} (h : i < l.length) : l.getD i 0 ∈ l := by
  rw [List.getD_eq_getElem l 0 h]
  exact List.getElem_mem h

theorem durable_of_empty {start : ℕ} {d view : Disk} (hh : readHead (d start) = [])
    (h : ∀ b, Home start b → d b = view b) : Durable start d view := by
  refine ⟨?_, ?_, ?_, fun b hb _ => h b hb⟩ <;> simp [hh]

theorem Durable.install {start : ℕ} {d view : Disk} (h : Durable start d view) {i : ℕ}
    (hi : i < (readHead (d start)).length) :
    Durable start (update d ((readHead (d start)).getD i 0) (d (start + i + 1))) view := by
  have hmem := getD_mem hi
  have hhome := h.home _ hmem
  have hstart : update d ((readHead (d start)).getD i 0) (d (start + i + 1)) start =
      d start := update_of_ne (home_ne_start hhome).symm _ _
  refine ⟨?_, ?_, ?_, ?_⟩ <;> rw [hstart]
  · exact h.length
  · exact h.home
  · intro j hj
    rw [update_of_ne (home_ne_log hhome (by have := h.length; omega)).symm]
    exact h.log j hj
  · intro b hb hnot
    have hne : b ≠ (readHead (d start)).getD i 0 := by
      rintro rfl
      exact hnot hmem
    rw [update_of_ne hne]
    exact h.rest b hb hnot

theorem Durable.clear {start : ℕ} {d view : Disk} (h : Durable start d view) (b : Block)
    (hall : ∀ i < (readHead (d start)).length,
      d ((readHead (d start)).getD i 0) = view ((readHead (d start)).getD i 0)) :
    Durable start (update d start (writeHead b [])) view ∧
      ∀ b', Home start b' → update d start (writeHead b []) b' = view b' := by
  have hhome (x : ℕ) (hx : Home start x) : update d start (writeHead b []) x = view x := by
    rw [update_of_ne (home_ne_start hx)]
    by_cases hm : x ∈ readHead (d start)
    · obtain ⟨i, hi, rfl⟩ := List.getElem_of_mem hm
      have := hall i hi
      rwa [List.getD_eq_getElem _ 0 hi] at this
    · exact h.rest x hx hm
  refine ⟨durable_of_empty ?_ hhome, hhome⟩
  rw [update_self]
  exact readHead_writeHead b zero_le (by simp)

/-- The invariant of the recovery. -/
structure RecoverInv (start : ℕ) (view : Disk) (r : Recover) : Prop where
  durable : Durable start r.disk view
  cache : ∀ b data, r.cache b = some data → data = r.disk b
  head : (∃ i, r.pt = .install i) ∨ r.pt = .clear → r.lh = readHead (r.disk start)
  installed : ∀ i, r.pt = .install i → i ≤ r.lh.length ∧
    ∀ j < i, r.disk (r.lh.getD j 0) = view (r.lh.getD j 0)
  clear : r.pt = .clear → ∀ j < r.lh.length, r.disk (r.lh.getD j 0) = view (r.lh.getD j 0)
  done : r.pt = .done → ∀ b, Home start b → r.disk b = view b

section RecoverSteps

variable {start : ℕ} {view : Disk} {r r' : Recover}

theorem bread_eq_disk (h : RecoverInv start view r) (b : ℕ) : r.bread b = r.disk b := by
  unfold Recover.bread
  cases hc : r.cache b with
  | none => rfl
  | some data => exact h.cache b data hc

theorem reboot_inv {d : Disk} (h : Durable start d view) : RecoverInv start view (reboot d) := by
  refine ⟨h, ?_, ?_, ?_, ?_, ?_⟩ <;> simp [reboot]

theorem recover_install_inv (h : RecoverInv start view r) {i : ℕ} (hp : r.pt = .install i)
    (hi : i < r.lh.length) :
    RecoverInv start view
      { (r.setCache (start + i + 1) (some (r.bread (start + i + 1)))).bwrite (r.lh.getD i 0)
          (r.bread (start + i + 1)) with pt := .install (i + 1) } := by
  have hlh := h.head (.inl ⟨i, hp⟩)
  have hb := bread_eq_disk h (start + i + 1)
  have hi' : i < (readHead (r.disk start)).length := by rwa [← hlh]
  have hhome : Home start (r.lh.getD i 0) := by
    rw [hlh]
    exact h.durable.home _ (getD_mem hi')
  have hlog : r.disk (start + i + 1) = view (r.lh.getD i 0) := by
    rw [hlh]
    exact h.durable.log i hi'
  have hlen := h.durable.length
  rw [hb]
  refine ⟨?_, ?_, ?_, ?_, ?_, ?_⟩
  · have hd := h.durable.install hi'
    rw [← hlh] at hd
    exact hd
  · intro b data hc
    by_cases he : b = r.lh.getD i 0
    · subst he
      simp only [Recover.bwrite, Recover.setCache, update_self, Option.some.injEq] at hc ⊢
      exact hc.symm
    · simp only [Recover.bwrite, Recover.setCache, update_of_ne he] at hc ⊢
      by_cases hl : b = start + i + 1
      · subst hl
        rw [update_self, Option.some.injEq] at hc
        exact hc.symm
      · rw [update_of_ne hl] at hc
        exact h.cache b data hc
  · intro _
    have hs := update_of_ne (home_ne_start hhome).symm (r.disk (start + i + 1)) r.disk
    simp only [Recover.bwrite, Recover.setCache]
    rw [hs, hlh]
  · intro k hk
    cases hk
    obtain ⟨_, hdone⟩ := h.installed i hp
    refine ⟨hi, fun j hj => ?_⟩
    simp only [Recover.bwrite, Recover.setCache]
    by_cases he : r.lh.getD j 0 = r.lh.getD i 0
    · rw [he, update_self, hlog]
    · rw [update_of_ne he]
      refine hdone j ?_
      rcases Nat.lt_succ_iff_lt_or_eq.mp hj with hj | rfl
      · exact hj
      · exact absurd rfl he
  · intro hk
    cases hk
  · intro hk
    cases hk

theorem recover_step_inv (r : Recover) (a : RecoverAct) (r' : Recover)
    (hs : recoverStep start r a = some r') (h : RecoverInv start view r) :
    RecoverInv start view r' := by
  cases a with
  | crash =>
    obtain rfl := Option.some.inj hs
    exact reboot_inv h.durable
  | recycle b =>
    obtain rfl := Option.some.inj hs
    refine ⟨h.durable, ?_, h.head, h.installed, h.clear, h.done⟩
    intro x data hx
    by_cases hxb : x = b
    · subst hxb
      simp [Recover.setCache] at hx
    · simp only [Recover.setCache, update_of_ne hxb] at hx
      exact h.cache x data hx
  | go =>
    simp only [recoverStep] at hs
    split at hs
    · obtain rfl := Option.some.inj hs
      rw [bread_eq_disk h]
      refine ⟨h.durable, ?_, fun _ => rfl, ?_, ?_, ?_⟩
      · intro x data hx
        by_cases hxb : x = start
        · subst hxb
          simp only [Recover.setCache, update_self, Option.some.injEq] at hx
          exact hx.symm
        · simp only [Recover.setCache, update_of_ne hxb] at hx
          exact h.cache x data hx
      · intro i hi
        cases hi
        exact ⟨zero_le, by simp⟩
      · intro hp
        cases hp
      · intro hp
        cases hp
    · rename_i i hp
      split_ifs at hs with hi
      · obtain rfl := Option.some.inj hs
        exact recover_install_inv h hp hi
      · obtain rfl := Option.some.inj hs
        obtain ⟨hle, hdone⟩ := h.installed i hp
        refine ⟨h.durable, h.cache, fun _ => h.head (.inl ⟨i, hp⟩), ?_, ?_, ?_⟩
        · intro k hk
          cases hk
        · exact fun _ j hj => hdone j (Nat.lt_of_lt_of_le hj (Nat.le_of_not_lt hi))
        · intro hk
          cases hk
    · rename_i hp
      obtain rfl := Option.some.inj hs
      have hall := h.clear hp
      rw [h.head (.inr hp)] at hall
      obtain ⟨hd, hview⟩ := h.durable.clear (r.bread start) hall
      refine ⟨hd, ?_, ?_, ?_, ?_, fun _ => hview⟩
      · intro x data hx
        by_cases hxb : x = start
        · subst hxb
          simp only [Recover.bwrite, Recover.setCache, update_self,
            Option.some.injEq] at hx ⊢
          exact hx.symm
        · simp only [Recover.bwrite, Recover.setCache, update_of_ne hxb] at hx ⊢
          exact h.cache x data hx
      · intro hk
        rcases hk with ⟨i, hk⟩ | hk <;> cases hk
      · intro i hk
        cases hk
      · intro hk
        cases hk
    · cases hs

/-- However often the recovery is cut off: when it has finished, the home blocks are those
that the disk was durable for. -/
theorem recover_done {d : Disk} {rs : List RecoverAct} (hd : Durable start d view)
    (h : exec (recoverStep start) (reboot d) rs = some r) (hdone : r.pt = .done) :
    ∀ b, Home start b → r.disk b = view b :=
  (exec_invariant recover_step_inv h (reboot_inv hd)).done hdone

theorem recover_finishes (start : ℕ) (r : Recover) :
    ∃ n r', exec (recoverStep start) r (List.replicate n .go) = some r' ∧ r'.pt = .done := by
  have hclear (r : Recover) (hp : r.pt = .clear) :
      ∃ n r', exec (recoverStep start) r (List.replicate n .go) = some r' ∧ r'.pt = .done := by
    refine ⟨1, { r.bwrite start (writeHead (r.bread start) []) with lh := [], pt := .done }, ?_, rfl⟩
    simp [exec, recoverStep, hp]
  -- the loop of `install_trans`, by the number of blocks that are left
  have hinstall (m : ℕ) : ∀ (r : Recover) (i : ℕ), r.pt = .install i → r.lh.length - i = m →
      ∃ n r', exec (recoverStep start) r (List.replicate n .go) = some r' ∧ r'.pt = .done := by
    induction m with
    | zero =>
      intro r i hp hm
      have hi : ¬ i < r.lh.length := by omega
      obtain ⟨n, r', h, hd⟩ := hclear { r with pt := .clear } rfl
      refine ⟨n + 1, r', ?_, hd⟩
      rw [List.replicate_succ, exec_cons_eq_some]
      exact ⟨_, by simp only [recoverStep, hp]; rw [if_neg hi], h⟩
    | succ m ih =>
      intro r i hp hm
      have hi : i < r.lh.length := by omega
      obtain ⟨n, r', h, hd⟩ := ih { (r.setCache (start + i + 1)
        (some (r.bread (start + i + 1)))).bwrite (r.lh.getD i 0) (r.bread (start + i + 1)) with
          pt := .install (i + 1) } (i + 1) rfl (show r.lh.length - (i + 1) = m by omega)
      refine ⟨n + 1, r', ?_, hd⟩
      rw [List.replicate_succ, exec_cons_eq_some]
      exact ⟨_, by simp only [recoverStep, hp]; rw [if_pos hi], h⟩
  cases hp : r.pt with
  | done => exact ⟨0, r, rfl, hp⟩
  | clear => exact hclear r hp
  | install i => exact hinstall _ r i hp rfl
  | readHead =>
    obtain ⟨n, r', h, hd⟩ := hinstall _ { r.setCache start (some (r.bread start)) with
      lh := readHead (r.bread start)
      pt := .install 0 } 0 rfl rfl
    refine ⟨n + 1, r', ?_, hd⟩
    rw [List.replicate_succ, exec_cons_eq_some]
    exact ⟨_, by simp only [recoverStep, hp], h⟩

end RecoverSteps

end Xv6
