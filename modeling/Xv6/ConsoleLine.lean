import Xv6.Console
import Xv6.Ring

/-! The line discipline: what typing means, as a stream of committed bytes and a line that can still
be edited, and that the ring with its three indices (kernel/console.c) holds the part not yet read.
-/
namespace Xv6

section Specification

/-- All bytes that have been committed, the line that is being edited, and how many of the
committed bytes have been read. -/
structure Line where
  committed : List (BitVec 8)
  pending : List (BitVec 8)
  consumed : ℕ

def Line.unread (l : Line) : ℕ := l.committed.length - l.consumed + l.pending.length

/-- What a character does. -/
def Line.key (l : Line) (ch : BitVec 8) : Line :=
  if ch = 0 ∨ ch = ctrlP then l
  else if ch = ctrlU then { l with pending := [] }
  else if ch = ctrlH ∨ ch = delete then { l with pending := l.pending.dropLast }
  else if l.unread < INPUT_BUF_SIZE then
    let line := l.pending ++ [crToLf ch]
    if crToLf ch = newline ∨ crToLf ch = ctrlD ∨ l.unread + 1 = INPUT_BUF_SIZE then
      { l with committed := l.committed ++ line, pending := [] }
    else { l with pending := line }
  else l

/-- The next committed byte is read. -/
def Line.read (l : Line) : Line := { l with consumed := l.consumed + 1 }

end Specification

/-- The ring holds the bytes of the stream that have not been read, and behind them the line that
is being edited. -/
structure Cons.Holds (c : Cons) (l : Line) : Prop where
  consumed : l.consumed ≤ l.committed.length
  contents : ringContents INPUT_BUF_SIZE c.buf c.r c.e = l.committed.drop l.consumed ++ l.pending
  written : ringCount c.r c.w = l.committed.length - l.consumed
  le : ringCount c.r c.e ≤ INPUT_BUF_SIZE
  noNewline : newline ∉ l.pending

namespace Cons.Holds

variable {c : Cons} {l : Line}

private theorem inputBuf_dvd : INPUT_BUF_SIZE ∣ 2 ^ 32 := by decide

private theorem inputBuf_lt : INPUT_BUF_SIZE < 2 ^ 32 := by decide

theorem unread_eq (h : c.Holds l) : ringCount c.r c.e = l.unread := by
  have hlen := congrArg List.length h.contents
  rw [ringContents_length, List.length_append, List.length_drop] at hlen
  exact hlen

theorem written_le (h : c.Holds l) : ringCount c.r c.w ≤ ringCount c.r c.e := by
  rw [h.written, h.unread_eq, Line.unread]
  exact Nat.le_add_right _ _

theorem contents_written (h : c.Holds l) :
    ringContents INPUT_BUF_SIZE c.buf c.r c.w = l.committed.drop l.consumed := by
  rw [ringContents_take c.buf h.written_le, h.contents, h.written, ← List.length_drop, List.take_left]

theorem pending_length (h : c.Holds l) : ringCount c.w c.e = l.pending.length := by
  rw [ringCount_split h.written_le, h.unread_eq, h.written, Line.unread]
  omega

theorem edited_iff (h : c.Holds l) : c.e = c.w ↔ l.pending = [] := by
  rw [← List.length_eq_zero_iff, ← h.pending_length, ringCount_eq_zero]
  exact eq_comm

theorem erase (h : c.Holds l) (hne : c.e ≠ c.w) :
    Cons.Holds { c with e := c.e - 1 } { l with pending := l.pending.dropLast } ∧
      ∃ x, l.pending = l.pending.dropLast ++ [x] ∧ c.at (c.e - 1) = x := by
  have hp : l.pending ≠ [] := fun h0 => hne (h.edited_iff.mpr h0)
  have hre : c.r ≠ c.e := by
    intro heq
    have hcount := h.unread_eq
    rw [ringCount_eq_zero.mpr heq, Line.unread] at hcount
    exact hp (List.length_eq_zero_iff.mp (by omega))
  have hlast := List.dropLast_append_getLast hp
  have hcontents := h.contents
  rw [ringContents_last inputBuf_dvd c.buf hre, ← hlast, ← List.append_assoc] at hcontents
  obtain ⟨hinit, hend⟩ := List.append_inj' hcontents rfl
  refine ⟨⟨h.consumed, hinit, h.written, ?_, ?_⟩, l.pending.getLast hp, hlast.symm, (List.cons.inj hend).1⟩
  · have hpred := ringCount_pred hre
    have hle := h.le
    change ringCount c.r (c.e - 1) ≤ _
    omega
  · exact fun hmem => h.noNewline (List.mem_of_mem_dropLast hmem)

theorem killLine (fuel : ℕ) (h : c.Holds l) (hfuel : l.pending.length ≤ fuel) :
    (c.killLine fuel).Holds { l with pending := [] } := by
  induction fuel generalizing c l with
  | zero =>
    have hp : l.pending = [] := List.length_eq_zero_iff.mp (by omega)
    rw [← hp]
    exact h
  | succ fuel ih =>
    rw [Cons.killLine]
    by_cases hne : c.e = c.w
    · rw [if_neg (fun hc => hc.1 hne), ← h.edited_iff.mp hne]
      exact h
    · obtain ⟨herase, x, hx, hat⟩ := h.erase hne
      have hnl : c.at (c.e - 1) ≠ newline := by
        intro heq
        apply h.noNewline
        rw [hx, ← heq, hat]
        exact List.mem_append_right _ (List.mem_singleton_self x)
      rw [if_pos ⟨hne, hnl⟩]
      refine ih (l := { l with pending := l.pending.dropLast }) herase ?_
      change l.pending.dropLast.length ≤ fuel
      rw [List.length_dropLast]
      omega

theorem store (h : c.Holds l) (hroom : l.unread < INPUT_BUF_SIZE) (ch : BitVec 8) :
    ringContents INPUT_BUF_SIZE (c.store ch).buf c.r (c.store ch).e =
        l.committed.drop l.consumed ++ (l.pending ++ [ch]) ∧
      ringCount c.r (c.store ch).e = l.unread + 1 := by
  have hcount := h.unread_eq
  have hbuf := inputBuf_lt
  refine ⟨?_, ?_⟩
  · rw [← List.append_assoc, ← h.contents]
    exact ringContents_push inputBuf_dvd inputBuf_lt c.buf ch (by omega)
  · rw [← hcount]
    exact ringCount_push (by omega)

theorem intr (h : c.Holds l) (ch : BitVec 8) : (c.intr ch).1.Holds (l.key ch) := by
  have hcount : (c.e - c.r).toNat = l.unread := h.unread_eq
  unfold Cons.intr Line.key
  by_cases hP : ch = ctrlP
  · rw [if_pos hP, if_pos (.inr hP)]
    exact h
  by_cases h0 : ch = 0
  · subst h0
    rw [if_neg (by decide), if_neg (by decide), if_neg (by decide), if_neg (fun hc => hc.1 rfl), if_pos (.inl rfl)]
    exact h
  rw [if_neg hP, if_neg (not_or.mpr ⟨h0, hP⟩)]
  by_cases hU : ch = ctrlU
  · rw [if_pos hU, if_pos hU]
    exact h.killLine _ (le_of_eq h.pending_length.symm)
  rw [if_neg hU, if_neg hU]
  by_cases hH : ch = ctrlH ∨ ch = delete
  · rw [if_pos hH, if_pos hH]
    by_cases hne : c.e = c.w
    · have hp := h.edited_iff.mp hne
      rw [if_neg (not_not.mpr hne), hp, List.dropLast_nil, ← hp]
      exact h
    · rw [if_pos hne]
      exact (h.erase hne).1
  rw [if_neg hH, if_neg hH]
  by_cases hroom : l.unread < INPUT_BUF_SIZE
  · obtain ⟨hcontents, hnew⟩ := h.store hroom (crToLf ch)
    have hnew' : ((c.store (crToLf ch)).e - (c.store (crToLf ch)).r).toNat = l.unread + 1 := hnew
    have hcons := h.consumed
    rw [hcount, if_pos ⟨h0, hroom⟩, if_pos hroom]
    simp only [hnew']
    by_cases hcommit : crToLf ch = newline ∨ crToLf ch = ctrlD ∨ l.unread + 1 = INPUT_BUF_SIZE
    · rw [if_pos hcommit, if_pos hcommit]
      refine ⟨?_, ?_, ?_, ?_, List.not_mem_nil⟩
      · change l.consumed ≤ (l.committed ++ _).length
        rw [List.length_append]
        omega
      · rw [List.append_nil, List.drop_append_of_le_length hcons]
        exact hcontents
      · refine hnew.trans ?_
        simp only [List.length_append, List.length_singleton, Line.unread]
        omega
      · exact le_of_eq_of_le hnew hroom
    · rw [if_neg hcommit, if_neg hcommit]
      refine ⟨hcons, hcontents, h.written, le_of_eq_of_le hnew hroom, fun hmem => ?_⟩
      rcases List.mem_append.mp hmem with hmem | hmem
      · exact h.noNewline hmem
      · exact hcommit (.inl (List.mem_singleton.mp hmem).symm)
  · rw [hcount, if_neg (fun hc => hroom hc.2), if_neg hroom]
    exact h

theorem read (h : c.Holds l) (hne : c.r ≠ c.w) :
    l.committed[l.consumed]? = some (c.at c.r) ∧ Cons.Holds { c with r := c.r + 1 } l.read := by
  have hw := ringContents_pop inputBuf_dvd c.buf hne
  rw [h.contents_written] at hw
  have hre : c.r ≠ c.e := by
    intro heq
    have hle := h.written_le
    rw [ringCount_eq_zero.mpr heq] at hle
    exact hne (ringCount_eq_zero.mp (Nat.le_zero.mp hle))
  have hlt : l.consumed < l.committed.length := by
    have hpop := ringCount_pop hne
    have := h.written
    omega
  have hdrop := List.drop_eq_getElem_cons hlt
  have hat : l.committed[l.consumed] = c.at c.r := (List.cons.inj (hdrop.symm.trans hw)).1
  refine ⟨by rw [List.getElem?_eq_getElem hlt, hat], hlt, ?_, ?_, ?_, h.noNewline⟩
  · have he := ringContents_pop inputBuf_dvd c.buf hre
    rw [h.contents, hdrop, hat, List.cons_append] at he
    exact (List.cons.inj he).2.symm
  · have hpop := ringCount_pop hne
    have hwr := h.written
    change ringCount (c.r + 1) c.w = l.committed.length - (l.consumed + 1)
    omega
  · have hpop := ringCount_pop hre
    have hle := h.le
    change ringCount (c.r + 1) c.e ≤ _
    omega

end Cons.Holds

end Xv6
