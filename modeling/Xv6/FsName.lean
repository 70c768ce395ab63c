import Xv6.FsSys

/-! Names of files as C strings in arrays of `DIRSIZ` characters. -/
namespace Xv6.Fs

/-- The string in the first `n` characters. -/
def cstr (n : ℕ) (s : Name) : Name := (s.take n).takeWhile (fun c => c ≠ 0)

theorem cstr_succ (n : ℕ) (s : Name) :
    cstr (n + 1) s = if s.headD 0 = 0 then [] else s.headD 0 :: cstr n s.tail := by
  cases s with
  | nil => rfl
  | cons c s =>
    rw [cstr, List.take_succ_cons, List.takeWhile_cons]
    by_cases hc : c = 0
    · rw [if_neg (by simpa using hc), List.headD_cons, if_pos hc]
    · rw [if_pos (by simpa using hc), List.headD_cons, if_neg hc]
      rfl

theorem strncmp_eq_zero_iff (n : ℕ) (s t : Name) : strncmp n s t = 0 ↔ cstr n s = cstr n t := by
  induction n generalizing s t with
  | zero => exact ⟨fun _ => rfl, fun _ => rfl⟩
  | succ n ih =>
    rw [strncmp, cstr_succ, cstr_succ]
    by_cases hs : s.headD 0 = 0
    · rw [if_neg (fun hc => hc.1 hs), if_pos hs, hs]
      by_cases ht : t.headD 0 = 0
      · rw [if_pos ht, ht]
        exact ⟨fun _ => rfl, fun _ => rfl⟩
      · rw [if_neg ht]
        constructor
        · intro h
          exact absurd (BitVec.eq_of_toNat_eq (by omega)) ht
        · exact fun h => absurd h.symm (List.cons_ne_nil _ _)
    · rw [if_neg hs]
      by_cases heq : s.headD 0 = t.headD 0
      · rw [if_pos ⟨hs, heq⟩, ← heq, if_neg hs, ih, List.cons_inj_right]
      · rw [if_neg (fun hc => heq hc.2)]
        constructor
        · intro h
          exact absurd (BitVec.eq_of_toNat_eq (by omega)) heq
        · intro h
          by_cases ht : t.headD 0 = 0
          · rw [if_pos ht] at h
            exact absurd h (List.cons_ne_nil _ _)
          · rw [if_neg ht] at h
            exact absurd (List.cons.inj h).1 heq

theorem cstr_of_length_le {n : ℕ} {s : Name} (hlen : s.length ≤ n) (h0 : 0 ∉ s) : cstr n s = s := by
  rw [cstr, List.take_of_length_le hlen, List.takeWhile_eq_self_iff]
  intro c hc
  exact decide_eq_true (fun h => h0 (h ▸ hc))

theorem cstr_strncpy {n : ℕ} {s : Name} (hlen : s.length ≤ n) (h0 : 0 ∉ s) : cstr n (strncpy n s) = s := by
  have hself : s.takeWhile (fun c => c ≠ 0) = s := by
    rw [List.takeWhile_eq_self_iff]
    intro c hc
    exact decide_eq_true (fun h => h0 (h ▸ hc))
  have hpad : strncpy n s = s ++ List.replicate (n - s.length) 0 := by
    rw [strncpy, hself]
    apply List.ext_getElem
    · rw [List.length_map, List.length_range, List.length_append, List.length_replicate]
      omega
    · intro i h1 h2
      rw [List.getElem_map, List.getElem_range, List.getElem_append]
      split
      · rw [List.getD_eq_getElem _ _ (by assumption)]
      · rw [List.getElem_replicate, List.getD_eq_default _ _ (by omega)]
  rw [cstr, hpad, List.take_of_length_le, List.takeWhile_append_of_pos]
  · have hzeros (k : ℕ) : (List.replicate k (0 : Byte)).takeWhile (fun c => c ≠ 0) = [] := by
      cases k <;> rfl
    rw [hzeros, List.append_nil]
  · intro c hc
    exact decide_eq_true (fun h => h0 (h ▸ hc))
  · rw [List.length_append, List.length_replicate]
    omega

/-- `dirlookup` finds a name exactly where `strncpy` stored it. -/
theorem namecmp_strncpy_iff {s t : Name} (hs : s.length ≤ DIRSIZ ∧ 0 ∉ s) (ht : t.length ≤ DIRSIZ ∧ 0 ∉ t) :
    namecmp s (strncpy DIRSIZ t) = 0 ↔ s = t := by
  rw [namecmp, strncmp_eq_zero_iff, cstr_of_length_le hs.1 hs.2, cstr_strncpy ht.1 ht.2]

theorem elems_slash {name : Name} (h0 : name ≠ []) (hslash : slash ∉ name) (hlen : name.length ≤ DIRSIZ) :
    elems (slash :: name) = [name] := by
  have hnil (n : ℕ) : elemsUpTo n [] = [] := by cases n <;> rfl
  have hdrop : (slash :: name).dropWhile (fun c => c = slash) = name := by
    rw [List.dropWhile_cons, if_pos (by decide)]
    cases name with
    | nil => rfl
    | cons c name =>
      have hc : c ≠ slash := fun h => hslash (h ▸ List.mem_cons_self)
      rw [List.dropWhile_cons, if_neg (by simpa using hc)]
  have hall : ∀ c ∈ name, (fun c => decide (c ≠ slash)) c = true := by
    intro c hc
    exact decide_eq_true (fun h => hslash (h ▸ hc))
  have hskip : skipelem (slash :: name) = some (name, []) := by
    simp only [skipelem, hdrop, if_neg h0, List.takeWhile_eq_self_iff.mpr hall, List.take_of_length_le hlen,
      List.dropWhile_eq_nil_iff.mpr hall, List.dropWhile_nil]
  rw [elems, List.length_cons, elemsUpTo, hskip]
  change name :: elemsUpTo name.length [] = [name]
  rw [hnil]

end Xv6.Fs
