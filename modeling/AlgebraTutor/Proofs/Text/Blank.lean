import AlgebraTutor.Text.Blank
import Mathlib.Data.List.DropRight

/-!
# Trimming

Trimming leaves a text alone that neither begins nor ends with a blank, and a trimmed text is one. Of two texts with a mark
between them it cuts the one at its beginning and the other at its end.
-/

namespace AlgebraTutor.Text

theorem trimChars_eq_self {cs : List Char} (hhead : ∀ c ∈ cs.head?, isBlank c = false)
    (hlast : ∀ c ∈ cs.getLast?, isBlank c = false) : trimChars cs = cs := by
  have hdrop {ds : List Char} (hds : ∀ c ∈ ds.head?, isBlank c = false) : ds.dropWhile isBlank = ds := by
    cases ds with
    | nil => rfl
    | cons d ds => simp [hds d rfl]
  rw [trimChars, hdrop hhead, hdrop (by simpa using hlast), List.reverse_reverse]

theorem head?_dropWhile {cs : List Char} {c : Char} (hc : (cs.dropWhile isBlank).head? = some c) : isBlank c = false := by
  have hhead := List.head?_dropWhile_not isBlank cs
  rw [hc] at hhead
  simpa using hhead

theorem not_isBlank_head_trimChars {cs : List Char} {c : Char} (hc : c ∈ (trimChars cs).head?) : isBlank c = false := by
  -- what is cut off at the end leaves the first character where it was
  have hsplit : trimChars cs ++ ((cs.dropWhile isBlank).reverse.takeWhile isBlank).reverse = cs.dropWhile isBlank := by
    rw [trimChars, ← List.reverse_append, List.takeWhile_append_dropWhile, List.reverse_reverse]
  refine @head?_dropWhile cs c ?_
  rw [← hsplit, List.head?_append, Option.mem_def.mp hc, Option.some_or]

theorem not_isBlank_last_trimChars {cs : List Char} {c : Char} (hc : c ∈ (trimChars cs).getLast?) : isBlank c = false := by
  rw [trimChars, List.getLast?_reverse] at hc
  exact head?_dropWhile hc

theorem trimChars_trimChars (cs : List Char) : trimChars (trimChars cs) = trimChars cs :=
  trimChars_eq_self (fun _ => not_isBlank_head_trimChars) fun _ => not_isBlank_last_trimChars

/-! ### Texts around a mark -/

theorem dropWhile_append_cons {c : Char} (hc : isBlank c = false) (cs ds : List Char) :
    (cs ++ c :: ds).dropWhile isBlank = cs.dropWhile isBlank ++ c :: ds := by
  rw [List.dropWhile_append]
  split <;> simp_all

theorem trimChars_append_cons {c : Char} (hc : isBlank c = false) (cs ds : List Char) :
    trimChars (cs ++ c :: ds) = cs.dropWhile isBlank ++ c :: ds.rdropWhile isBlank := by
  have hend := dropWhile_append_cons hc ds.reverse (cs.dropWhile isBlank).reverse
  rw [trimChars, dropWhile_append_cons hc, List.reverse_append, List.reverse_cons, List.append_assoc, List.singleton_append, hend]
  simp [List.rdropWhile]

theorem trimChars_dropWhile (cs : List Char) : trimChars (cs.dropWhile isBlank) = trimChars cs := by
  rw [trimChars, List.dropWhile_idempotent, ← trimChars]

theorem dropWhile_rdropWhile (cs : List Char) :
    (cs.rdropWhile isBlank).dropWhile isBlank = (cs.dropWhile isBlank).rdropWhile isBlank := by
  induction cs using List.reverseRecOn with
  | nil => rfl
  | append_singleton cs c ih =>
    by_cases hc : isBlank c = true
    · rw [List.rdropWhile_concat_pos _ _ _ hc, ih, List.dropWhile_append]
      split
      · rename_i hempty
        rw [List.isEmpty_iff.mp hempty, List.dropWhile_cons_of_pos hc]
        rfl
      · rw [List.rdropWhile_concat_pos _ _ _ hc]
    · rw [List.rdropWhile_concat_neg _ _ _ hc, dropWhile_append_cons (by simpa using hc), List.rdropWhile_concat_neg _ _ _ hc]

theorem trimChars_rdropWhile (cs : List Char) : trimChars (cs.rdropWhile isBlank) = trimChars cs := by
  have hunfold (ds : List Char) : trimChars ds = (ds.dropWhile isBlank).rdropWhile isBlank := rfl
  rw [hunfold, hunfold, dropWhile_rdropWhile, List.rdropWhile_idempotent]

end AlgebraTutor.Text
