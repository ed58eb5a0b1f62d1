import Mathlib
import Whisker.Text

/-!
# Pieces of text

Cutting a text at a separator is the splitting of lists: pieces without separators are found again in the text that they
are joined to, and a separator between two texts is where the pieces of the one end and those of the other begin.
-/

namespace Whisker.Text

theorem trimStart_eq_self {cs : List Char} (h : cs.head?.any isBlank = false) : trimStart cs = cs := by
  cases cs with
  | nil => rfl
  | cons c cs =>
    have hc : isBlank c = false := h
    rw [trimStart, List.dropWhile_cons_of_neg (by simp [hc])]

/-- A text without a blank at either end is not changed by trimming. -/
theorem trim_eq_self {cs : List Char} (hfirst : cs.head?.any isBlank = false) (hlast : cs.getLast?.any isBlank = false) :
    trim cs = cs := by
  rw [trim, trimStart_eq_self hfirst, trimStart_eq_self (by rwa [List.head?_reverse]), List.reverse_reverse]

/-- Cutting a text is the splitting of lists. -/
theorem split_eq_splitOn (separator : Char) (cs : List Char) : split separator cs = cs.splitOn separator := by
  induction cs with
  | nil => rfl
  | cons c cs ih =>
    rw [List.splitOn_eq_splitOnP] at ih
    rw [split, ih, List.splitOn_eq_splitOnP, List.splitOnP_cons_eq_if_modifyHead]
    by_cases hc : c = separator
    · rw [if_pos hc, if_pos (beq_iff_eq.2 hc)]
    · rw [if_neg hc, if_neg (mt beq_iff_eq.1 hc)]
      cases h : cs.splitOnP (· == separator) with
      | nil => exact absurd h (List.splitOnP_ne_nil _ _)
      | cons piece pieces => rfl

variable {separator : Char}

theorem exists_split (separator : Char) (cs : List Char) : ∃ piece pieces, split separator cs = piece :: pieces := by
  rw [split_eq_splitOn]
  exact List.exists_cons_of_ne_nil (List.splitOn_ne_nil separator cs)

/-- A word without separators goes before the first piece. -/
theorem split_word {word cs piece : List Char} {pieces : List (List Char)} (h : separator ∉ word)
    (hcs : split separator cs = piece :: pieces) : split separator (word ++ cs) = (word ++ piece) :: pieces := by
  induction word with
  | nil => exact hcs
  | cons c word ih =>
    rw [List.mem_cons, not_or] at h
    rw [List.cons_append, split, if_neg (Ne.symm h.1), ih h.2]
    rfl

theorem split_piece {piece : List Char} (h : separator ∉ piece) : split separator piece = [piece] := by
  have hsplit : split separator (piece ++ []) = [piece ++ []] := split_word h rfl
  rwa [List.append_nil] at hsplit

/-- A separator between two texts ends the pieces of the first. -/
theorem split_separated (cs ds : List Char) :
    split separator (cs ++ separator :: ds) = split separator cs ++ split separator ds := by
  simp only [split_eq_splitOn, List.splitOn_eq_splitOnP]
  exact List.splitOnP_append_cons cs ds (beq_self_eq_true separator)

/-- The first piece ends at the first separator. -/
theorem split_append {piece : List Char} (h : separator ∉ piece) (rest : List Char) :
    split separator (piece ++ separator :: rest) = piece :: split separator rest := by
  rw [split_separated, split_piece h, List.singleton_append]

/-- Pieces joined by separators are found again. -/
theorem split_intercalate {pieces : List (List Char)} (h : ∀ piece ∈ pieces, separator ∉ piece) (hne : pieces ≠ []) :
    split separator ([separator].intercalate pieces) = pieces := by
  rw [split_eq_splitOn]
  exact List.splitOn_intercalate separator h hne

theorem mem_intercalate {c : Char} {pieces : List (List Char)} (h : c ∈ [separator].intercalate pieces) :
    c = separator ∨ ∃ piece ∈ pieces, c ∈ piece := by
  induction pieces with
  | nil => cases h
  | cons piece pieces ih =>
    cases pieces with
    | nil => exact .inr ⟨piece, List.mem_cons_self, by simpa using h⟩
    | cons next pieces =>
      rw [List.intercalate_cons_cons, List.append_assoc, List.mem_append, List.mem_append, List.mem_singleton] at h
      obtain h | rfl | h := h
      · exact .inr ⟨piece, List.mem_cons_self, h⟩
      · exact .inl rfl
      · exact (ih h).imp_right fun ⟨other, hother, hc⟩ => ⟨other, List.mem_cons_of_mem _ hother, hc⟩

/-- The first piece goes up to the first separator. -/
theorem headD_split (cs : List Char) : (split separator cs).headD [] = cs.takeWhile (· ≠ separator) := by
  induction cs with
  | nil => rfl
  | cons c cs ih =>
    by_cases hc : c = separator
    · rw [split, if_pos hc, List.takeWhile_cons_of_neg (by simp [hc]), List.headD_cons]
    · obtain ⟨piece, pieces, hsplit⟩ := exists_split separator cs
      rw [hsplit, List.headD_cons] at ih
      rw [split, if_neg hc, hsplit, List.takeWhile_cons_of_pos (by simp [hc]), List.headD_cons, ih]

end Whisker.Text
