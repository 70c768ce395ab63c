import Xv6.Sh

/-! grep (user/grep.c): the matcher of patterns and the loop over the lines of a file. A string is
the list of its characters; its NUL is the end of the list, and the input has no others. -/
namespace Xv6.Grep

open Sh (Byte)

def newline : Byte := 0x0a
def caret : Byte := 0x5e
def dollar : Byte := 0x24
def dot : Byte := 0x2e
def asterisk : Byte := 0x2a

section Match

/-- `matchstar(c, re, text)`, where `here` is `matchhere(re, ·)`. -/
def matchstar (here : List Byte → Bool) (c : Byte) : List Byte → Bool
  | [] => here []
  | t :: text => here (t :: text) || ((t == c || c == dot) && matchstar here c text)

/-- `*text!='\0' && (c=='.' || c==*text)`, and what the rest of the text has to satisfy. -/
def matchone (c : Byte) (next : List Byte → Bool) : List Byte → Bool
  | [] => false
  | t :: text => (c == dot || c == t) && next text

def matchhere : List Byte → List Byte → Bool
  | [], _ => true
  | [c], text => if c = dollar then text.isEmpty else matchone c (fun _ => true) text
  | c :: d :: re, text =>
    if d = asterisk then matchstar (fun text => matchhere re text) c text
    else matchone c (fun text => matchhere (d :: re) text) text

/-- The loop of `match`, which looks at the empty string too. -/
def matchany (re : List Byte) : List Byte → Bool
  | [] => matchhere re []
  | t :: text => matchhere re (t :: text) || matchany re text

/-- `match(re, text)` -/
def matchre (re text : List Byte) : Bool :=
  if re.head? = some caret then matchhere re.tail text else matchany re text

/-- What a pattern is made of. -/
inductive Item where
  | one (c : Byte)
  | star (c : Byte)
  | eol

def items : List Byte → List Item
  | [] => []
  | [c] => if c = dollar then [.eol] else [.one c]
  | c :: d :: re => if d = asterisk then .star c :: items re else .one c :: items (d :: re)

/-- The character `c` of a pattern matches the character `t`. -/
def Accepts (c t : Byte) : Prop := c = dot ∨ c = t

/-- The items match the text `w`, when `post` is the text behind it. -/
inductive Reads (post : List Byte) : List Item → List Byte → Prop
  | nil : Reads post [] []
  | one {c t : Byte} {is : List Item} {w : List Byte} (h : Accepts c t) (hw : Reads post is w) :
      Reads post (.one c :: is) (t :: w)
  | star {c : Byte} {is : List Item} {v w : List Byte} (h : ∀ t ∈ v, Accepts c t) (hw : Reads post is w) :
      Reads post (.star c :: is) (v ++ w)
  | eol (h : post = []) : Reads post [.eol] []

/-- The items match the beginning of the text. -/
def Begins (is : List Item) (text : List Byte) : Prop := ∃ w post, text = w ++ post ∧ Reads post is w

theorem begins_nil (text : List Byte) : Begins [] text := ⟨[], text, rfl, .nil⟩

theorem begins_eol (text : List Byte) : Begins [.eol] text ↔ text = [] := by
  constructor
  · rintro ⟨w, post, rfl, h⟩
    cases h with
    | eol hpost => rw [hpost, List.append_nil]
  · rintro rfl
    exact ⟨[], [], rfl, .eol rfl⟩

theorem not_begins_one_nil (c : Byte) (is : List Item) : ¬ Begins (.one c :: is) [] := by
  rintro ⟨w, post, htext, h⟩
  cases h with
  | one => cases htext

theorem begins_one_cons (c t : Byte) (is : List Item) (text : List Byte) :
    Begins (.one c :: is) (t :: text) ↔ Accepts c t ∧ Begins is text := by
  constructor
  · rintro ⟨w, post, htext, h⟩
    cases h with
    | one hc hw =>
      rw [List.cons_append, List.cons.injEq] at htext
      exact ⟨htext.1 ▸ hc, _, post, htext.2, hw⟩
  · rintro ⟨hc, w, post, rfl, hw⟩
    exact ⟨t :: w, post, rfl, .one hc hw⟩

theorem begins_star (c : Byte) (is : List Item) (text : List Byte) :
    Begins (.star c :: is) text ↔ ∃ v rest, text = v ++ rest ∧ (∀ t ∈ v, Accepts c t) ∧ Begins is rest := by
  constructor
  · rintro ⟨w, post, rfl, h⟩
    cases h with
    | star hv hw => exact ⟨_, _, List.append_assoc _ _ _, hv, _, post, rfl, hw⟩
  · rintro ⟨v, rest, rfl, hv, w, post, rfl, hw⟩
    exact ⟨v ++ w, post, (List.append_assoc _ _ _).symm, .star hv hw⟩

theorem accepts_iff (c t : Byte) : (c == dot || c == t) = true ↔ Accepts c t := by
  rw [Bool.or_eq_true, beq_iff_eq, beq_iff_eq]
  rfl

theorem matchstar_iff {here : List Byte → Bool} {is : List Item} (hhere : ∀ text, here text = true ↔ Begins is text)
    (c : Byte) (text : List Byte) : matchstar here c text = true ↔ Begins (.star c :: is) text := by
  rw [begins_star]
  induction text with
  | nil =>
    rw [matchstar, hhere]
    constructor
    · intro h
      exact ⟨[], [], rfl, by simp, h⟩
    · rintro ⟨v, rest, htext, -, h⟩
      rw [(List.append_eq_nil_iff.mp htext.symm).2] at h
      exact h
  | cons t text ih =>
    have hc : (t == c || c == dot) = (c == dot || c == t) := by rw [Bool.or_comm, Bool.beq_comm (a := t)]
    rw [matchstar, Bool.or_eq_true, Bool.and_eq_true, hhere, hc, accepts_iff, ih]
    constructor
    · rintro (h | ⟨ht, v, rest, rfl, hv, h⟩)
      · exact ⟨[], t :: text, rfl, by simp, h⟩
      · exact ⟨t :: v, rest, rfl, List.forall_mem_cons.mpr ⟨ht, hv⟩, h⟩
    · rintro ⟨v, rest, htext, hv, h⟩
      cases v with
      | nil => exact .inl (htext ▸ h)
      | cons u v =>
        rw [List.cons_append, List.cons.injEq] at htext
        obtain ⟨rfl, rfl⟩ := htext
        exact .inr ⟨hv t List.mem_cons_self, v, rest, rfl, fun s hs => hv s (List.mem_cons_of_mem _ hs), h⟩

theorem matchone_iff {next : List Byte → Bool} {is : List Item} (hnext : ∀ text, next text = true ↔ Begins is text)
    (c : Byte) (text : List Byte) : matchone c next text = true ↔ Begins (.one c :: is) text := by
  cases text with
  | nil => exact iff_of_false Bool.false_ne_true (not_begins_one_nil c is)
  | cons t text => rw [matchone, Bool.and_eq_true, accepts_iff, hnext, begins_one_cons]

theorem matchhere_iff (re text : List Byte) : matchhere re text = true ↔ Begins (items re) text := by
  -- on the pattern, as `items` reads it
  induction re using items.induct generalizing text with
  | case1 => exact iff_of_true rfl (begins_nil text)
  | case2 => rw [matchhere, items, if_pos rfl, if_pos rfl, List.isEmpty_iff, begins_eol]
  | case3 c hc =>
    rw [matchhere, items, if_neg hc, if_neg hc]
    exact matchone_iff (fun text => iff_of_true rfl (begins_nil text)) c text
  | case4 c re ih =>
    rw [matchhere, items, if_pos rfl, if_pos rfl]
    exact matchstar_iff ih c text
  | case5 c d re hd ih =>
    rw [matchhere, items, if_neg hd, if_neg hd]
    exact matchone_iff ih c text

theorem matchany_iff (re text : List Byte) :
    matchany re text = true ↔ ∃ pre rest, text = pre ++ rest ∧ Begins (items re) rest := by
  induction text with
  | nil =>
    rw [matchany, matchhere_iff]
    constructor
    · intro h
      exact ⟨[], [], rfl, h⟩
    · rintro ⟨pre, rest, htext, h⟩
      rw [(List.append_eq_nil_iff.mp htext.symm).2] at h
      exact h
  | cons t text ih =>
    rw [matchany, Bool.or_eq_true, matchhere_iff, ih]
    constructor
    · rintro (h | ⟨pre, rest, rfl, h⟩)
      · exact ⟨[], t :: text, rfl, h⟩
      · exact ⟨t :: pre, rest, rfl, h⟩
    · rintro ⟨pre, rest, htext, h⟩
      cases pre with
      | nil => exact .inl (htext ▸ h)
      | cons u pre => exact .inr ⟨pre, rest, (List.cons.inj htext).2, h⟩

/-- `match` finds the pattern iff a part of the text is matched by its items, the beginning of
the text if the pattern begins with '^'. -/
theorem matchre_iff (re text : List Byte) :
    matchre re text = true ↔ ∃ pre w post, text = pre ++ w ++ post ∧
      if re.head? = some caret then pre = [] ∧ Reads post (items re.tail) w else Reads post (items re) w := by
  rw [matchre]
  by_cases hre : re.head? = some caret
  · simp only [if_pos hre]
    rw [matchhere_iff]
    constructor
    · rintro ⟨w, post, htext, h⟩
      exact ⟨[], w, post, htext, rfl, h⟩
    · rintro ⟨pre, w, post, htext, rfl, h⟩
      exact ⟨w, post, htext, h⟩
  · simp only [if_neg hre]
    rw [matchany_iff]
    constructor
    · rintro ⟨pre, rest, rfl, w, post, rfl, h⟩
      exact ⟨pre, w, post, (List.append_assoc _ _ _).symm, h⟩
    · rintro ⟨pre, w, post, rfl, h⟩
      exact ⟨pre, w ++ post, List.append_assoc _ _ _, w, post, rfl, h⟩

end Match

section Lines

variable (pattern : List Byte)

/-- `read(fd, buf+m, k)` with the bytes `input` still to come: some of them, and at least one if
there is one and `k` is not 0. The choice of how many is `size`. -/
def read (size k : ℕ) (input : List Byte) : List Byte × List Byte := input.splitAt (min (max 1 size) k)

/-- The loop over the lines of the buffer: `line` is the text from `p` to where `strchr` looks.
It returns the lines that it writes and the text behind the last newline. -/
def printLines (pattern : List Byte) (line : List Byte) : List Byte → List (List Byte) × List Byte
  | [] => ([], line)
  | c :: buf =>
    if c = newline then
      let (out, rest) := printLines pattern [] buf
      (if matchre pattern line then (line ++ [newline]) :: out else out, rest)
    else printLines pattern (line ++ [c]) buf

/-- `sizeof(buf)` -/
def BUFSIZE : ℕ := 1024

/-- The loop of `grep` with `buf` the `m` bytes in the buffer; the result is what it writes, or
`none` when it is not done after `fuel` rounds. -/
def grepLoop (pattern : List Byte) : ℕ → (ℕ → ℕ) → List Byte → List Byte → Option (List (List Byte))
  | 0, _, _, _ => none
  | fuel + 1, size, buf, input =>
    let (got, input) := read (size 0) (BUFSIZE - buf.length - 1) input
    if got = [] then some []
    else
      let (out, buf) := printLines pattern [] (buf ++ got)
      (grepLoop pattern fuel (fun i => size (i + 1)) buf input).map (out ++ ·)

/-- `grep(pattern, fd)`: each round but the last reads a byte. -/
def grep (pattern : List Byte) (size : ℕ → ℕ) (input : List Byte) : Option (List (List Byte)) :=
  grepLoop pattern (input.length + 1) size [] input

/-- The file with the given lines. -/
def unlines (ls : List (List Byte)) : List Byte := ls.flatMap (· ++ [newline])

/-- The writes of the lines that match. -/
def matching (pattern : List Byte) (ls : List (List Byte)) : List (List Byte) :=
  (ls.filter (matchre pattern)).map (· ++ [newline])

/-- A line that can be in the buffer together with its newline and the NUL. -/
def FitsBuf (l : List Byte) : Prop := l.length + 1 < BUFSIZE

instance (l : List Byte) : Decidable (FitsBuf l) := inferInstanceAs (Decidable (_ < _))

theorem unlines_cons (l : List Byte) (ls : List (List Byte)) : unlines (l :: ls) = l ++ newline :: unlines ls := by
  rw [unlines, List.flatMap_cons, List.append_assoc]
  rfl

theorem matching_append (ls ls' : List (List Byte)) :
    matching pattern (ls ++ ls') = matching pattern ls ++ matching pattern ls' := by
  rw [matching, List.filter_append, List.map_append]
  rfl

theorem printLines_append {w : List Byte} (hw : newline ∉ w) (line buf : List Byte) :
    printLines pattern line (w ++ buf) = printLines pattern (line ++ w) buf := by
  induction w generalizing line with
  | nil => rw [List.nil_append, List.append_nil]
  | cons c w ih =>
    obtain ⟨hc, hw⟩ := not_or.mp (mt List.mem_cons.mpr hw)
    rw [List.cons_append, printLines, if_neg (Ne.symm hc), ih hw, List.append_assoc]
    rfl

/-- The lines `done` end in the buffer; `rest` is the beginning of the next one. -/
theorem printLines_spec {buf input : List Byte} {ls : List (List Byte)} (hls : ∀ l ∈ ls, newline ∉ l)
    (h : buf ++ input = unlines ls) :
    ∃ done todo rest, ls = done ++ todo ∧ printLines pattern [] buf = (matching pattern done, rest) ∧
      rest ++ input = unlines todo ∧ newline ∉ rest ∧ rest.length ≤ buf.length ∧ ∀ l ∈ done, l.length < buf.length := by
  induction ls generalizing buf with
  | nil =>
    obtain ⟨rfl, rfl⟩ := List.append_eq_nil_iff.mp h
    exact ⟨[], [], [], rfl, rfl, rfl, List.not_mem_nil, Nat.le_refl _, by simp⟩
  | cons l ls ih =>
    obtain ⟨hl, hls⟩ := List.forall_mem_cons.mp hls
    rw [unlines_cons] at h
    rcases List.append_eq_append_iff.mp h with ⟨v, rfl, hv⟩ | ⟨v, rfl, hv⟩
    · -- the newline of this line is not in the buffer
      have hbuf : newline ∉ buf := fun hmem => hl (List.mem_append_left _ hmem)
      have hprint := printLines_append pattern hbuf [] []
      rw [List.append_nil] at hprint
      refine ⟨[], (buf ++ v) :: ls, buf, rfl, hprint, ?_, hbuf, Nat.le_refl _, by simp⟩
      rw [unlines_cons, List.append_assoc, hv]
    · cases v with
      | nil =>
        rw [List.append_nil]
        refine ⟨[], l :: ls, l, rfl, ?_, ?_, hl, Nat.le_refl _, by simp⟩
        · have hprint := printLines_append pattern hl [] []
          rwa [List.append_nil] at hprint
        · rw [unlines_cons, hv]
          rfl
      | cons c buf' =>
        rw [List.cons_append, List.cons.injEq] at hv
        obtain ⟨rfl, hv⟩ := hv
        obtain ⟨done, todo, rest, rfl, hprint, hrest, hnl, hlen, hdone⟩ := ih hls hv.symm
        have hsize : buf'.length + l.length < (l ++ newline :: buf').length := by
          rw [List.length_append, List.length_cons]
          omega
        refine ⟨l :: done, todo, rest, rfl, ?_, hrest, hnl, by omega, ?_⟩
        · rw [printLines_append pattern hl, printLines, if_pos rfl, hprint]
          dsimp only
          rw [List.nil_append, matching, matching, List.filter_cons]
          split_ifs <;> rfl
        · intro l' hl'
          rcases List.mem_cons.mp hl' with rfl | hl'
          · omega
          · have := hdone l' hl'
            omega

/-- The loop writes the matching lines up to the first one that does not fit into the buffer:
`read` is then asked for 0 bytes, which looks like the end of the file. -/
theorem grepLoop_eq {fuel : ℕ} (size : ℕ → ℕ) {buf input : List Byte} {ls : List (List Byte)}
    (hls : ∀ l ∈ ls, newline ∉ l) (h : buf ++ input = unlines ls) (hnl : newline ∉ buf) (hbuf : buf.length < BUFSIZE)
    (hfuel : input.length < fuel) :
    grepLoop pattern fuel size buf input = some (matching pattern (ls.takeWhile (FitsBuf ·))) := by
  -- on the rounds: each one takes a byte of the input away
  induction fuel generalizing size buf input ls with
  | zero => exact absurd hfuel (Nat.not_lt_zero _)
  | succ fuel ih =>
    rw [grepLoop, read, List.splitAt_eq]
    dsimp only
    set n := min (max 1 (size 0)) (BUFSIZE - buf.length - 1) with hn
    by_cases hgot : input.take n = []
    · rw [if_pos hgot]
      have hstop : ls.takeWhile (FitsBuf ·) = [] := by
        cases ls with
        | nil => rfl
        | cons l ls =>
          rw [unlines_cons] at h
          have hin : newline ∈ input := by
            have hmem : newline ∈ buf ++ input := by
              rw [h]
              exact List.mem_append_right _ List.mem_cons_self
            exact (List.mem_append.mp hmem).resolve_left hnl
          have hn0 : n = 0 := (List.take_eq_nil_iff.mp hgot).resolve_right (List.ne_nil_of_mem hin)
          have hle : buf.length ≤ l.length := by
            rcases List.append_eq_append_iff.mp h with ⟨v, rfl, -⟩ | ⟨v, rfl, hv⟩
            · rw [List.length_append]
              exact Nat.le_add_right _ _
            · cases v with
              | nil => rw [List.append_nil]
              | cons c v =>
                rw [List.cons_append, List.cons.injEq] at hv
                exact absurd (List.mem_append_right l (hv.1 ▸ List.mem_cons_self)) hnl
          apply List.takeWhile_cons_of_neg
          rw [decide_eq_true_iff, FitsBuf]
          omega
      rw [hstop]
      rfl
    · rw [if_neg hgot]
      have hn0 : 0 < n := Nat.pos_of_ne_zero (fun h0 => hgot (by rw [h0, List.take_zero]))
      have hin : 0 < input.length := List.length_pos_of_ne_nil (fun h0 => hgot (by rw [h0, List.take_nil]))
      have hsplit : buf ++ input.take n ++ input.drop n = unlines ls := by
        rw [List.append_assoc, List.take_append_drop, h]
      have hlen : (buf ++ input.take n).length < BUFSIZE := by
        rw [List.length_append, List.length_take]
        omega
      obtain ⟨done, todo, rest, rfl, hprint, hrest, hnl', hrlen, hdone⟩ := printLines_spec pattern hls hsplit
      have hfits : ∀ l ∈ done, (decide (FitsBuf l)) = true := by
        intro l hl
        have := hdone l hl
        rw [decide_eq_true_iff, FitsBuf]
        omega
      rw [hprint]
      dsimp only
      rw [ih _ (fun l hl => hls l (List.mem_append_right _ hl)) hrest hnl' (by omega) (by rw [List.length_drop]; omega),
        Option.map_some, List.takeWhile_append_of_pos hfits, matching_append]

theorem grep_eq (size : ℕ → ℕ) {ls : List (List Byte)} (hls : ∀ l ∈ ls, newline ∉ l) :
    grep pattern size (unlines ls) = some (matching pattern (ls.takeWhile (FitsBuf ·))) :=
  grepLoop_eq pattern size hls (List.nil_append _) List.not_mem_nil (by decide) (Nat.lt_succ_self _)

/-- In what `grep` writes no line is missing iff no matching line is longer than the buffer allows
or comes after a line that is. -/
theorem grep_complete_iff (size : ℕ → ℕ) {ls : List (List Byte)} (hls : ∀ l ∈ ls, newline ∉ l) :
    grep pattern size (unlines ls) = some (matching pattern (ls.takeWhile (FitsBuf ·))) ∧
    (grep pattern size (unlines ls) = some (matching pattern ls) ↔
      ∀ l ∈ ls.dropWhile (FitsBuf ·), matchre pattern l = false) := by
  refine ⟨grep_eq pattern size hls, ?_⟩
  have hall : matching pattern ls =
      matching pattern (ls.takeWhile (FitsBuf ·)) ++ matching pattern (ls.dropWhile (FitsBuf ·)) := by
    rw [← matching_append, List.takeWhile_append_dropWhile]
  rw [grep_eq pattern size hls, hall, Option.some.injEq, List.self_eq_append_right, matching, List.map_eq_nil_iff, List.filter_eq_nil_iff]
  simp only [Bool.not_eq_true]

/-- The line "b" is lost behind a line of 1023 characters. -/
theorem grep_loses_line :
    (∀ l ∈ [List.replicate 1023 0x61, [0x62]], newline ∉ l) ∧
    grep [0x62] (fun _ => 512) (unlines [List.replicate 1023 0x61, [0x62]]) ≠
      some (matching [0x62] [List.replicate 1023 0x61, [0x62]]) := by
  have hls : ∀ l ∈ [List.replicate 1023 (0x61 : Byte), [0x62]], newline ∉ l := by decide +kernel
  have hgrep := grep_eq [0x62] (fun _ => 512) hls
  have hstop : [List.replicate 1023 (0x61 : Byte), [0x62]].takeWhile (FitsBuf ·) = [] :=
    List.takeWhile_cons_of_neg (by rw [decide_eq_true_iff, FitsBuf, List.length_replicate]; decide)
  rw [hstop] at hgrep
  refine ⟨hls, fun h => ?_⟩
  have hnil : matching [0x62] [List.replicate 1023 0x61, [0x62]] = [] := Option.some.inj (h.symm.trans hgrep)
  rw [matching, List.map_eq_nil_iff, List.filter_eq_nil_iff] at hnil
  exact hnil [0x62] (List.mem_cons_of_mem _ List.mem_cons_self) rfl

/-- Two short lines, read byte by byte. -/
theorem grep_complete_iff_short :
    grep [0x62] (fun _ => 1) (unlines [[0x61], [0x62]]) = some (matching [0x62] [[0x61], [0x62]]) :=
  (grep_complete_iff [0x62] (fun _ => 1) (by decide)).2.mpr (by decide)

end Lines

end Xv6.Grep
