import Mathlib.Data.List.TakeWhile
import Mathlib.Tactic.Tauto
import AlgebraTutor.Text.Letters

/-!
# Runs of letters

A text is nothing, or begins with a character that is no letter, or with a whole run of letters; `letters_induction` is
the induction along these three. By it, what stands between other characters is spelled on its own, and further
variables change nothing in the spelling.
-/

namespace AlgebraTutor.Text

/-- The text does not begin with a letter. -/
def BeginsOutside (cs : List Char) : Prop :=
  ∀ c ∈ cs.head?, c.isAlpha = false

/-- Induction along the runs of letters of a text. -/
theorem letters_induction {motive : List Char → Prop} (nil : motive [])
    (other : ∀ (c : Char) (cs : List Char), c.isAlpha = false → motive cs → motive (c :: cs))
    (run : ∀ w rest : List Char, w ≠ [] → (∀ c ∈ w, c.isAlpha = true) → BeginsOutside rest → motive rest →
      motive (w ++ rest)) (cs : List Char) : motive cs := by
  induction hn : cs.length using Nat.strongRecOn generalizing cs with
  | _ n ih =>
    subst hn
    cases cs with
    | nil => exact nil
    | cons c cs =>
      by_cases hc : c.isAlpha = true
      · rw [← List.takeWhile_append_dropWhile (p := Char.isAlpha) (l := c :: cs)]
        have hne : (c :: cs).takeWhile Char.isAlpha ≠ [] := by simp [hc]
        refine run _ _ hne (fun d hd => List.mem_takeWhile_imp hd) (fun d hd => ?_) (ih _ ?_ _ rfl)
        · have hdrop := List.head?_dropWhile_not Char.isAlpha (c :: cs)
          rw [Option.mem_def] at hd
          rw [hd] at hdrop
          simpa using hdrop
        · have hsplit := congrArg List.length (List.takeWhile_append_dropWhile (p := Char.isAlpha) (l := c :: cs))
          have := List.length_pos_iff.mpr hne
          rw [List.length_append] at hsplit
          omega
      · exact other c cs (by simpa using hc) (ih cs.length (by simp) cs rfl)

/-! ### The runs -/

theorem head?_letterRuns (c : Char) (cs : List Char) : (letterRuns (c :: cs)).head?.map (·.1) = some c.isAlpha := by
  unfold letterRuns
  split
  · split
    · rename_i hsame
      simpa using hsame
    · rfl
  · rfl

theorem letterRuns_run {w rest : List Char} (hne : w ≠ []) (hw : ∀ c ∈ w, c.isAlpha = true) (hrest : BeginsOutside rest) :
    letterRuns (w ++ rest) = (true, w) :: letterRuns rest := by
  induction w with
  | nil => exact absurd rfl hne
  | cons c w ih =>
    have hc : c.isAlpha = true := hw c List.mem_cons_self
    cases w with
    | nil =>
      cases rest with
      | nil => simp [letterRuns, hc]
      | cons d rest =>
        have hd : d.isAlpha = false := hrest d rfl
        have hfirst := head?_letterRuns d rest
        rw [List.singleton_append, letterRuns]
        split
        · rename_i isRun run runs hruns
          rw [hruns] at hfirst ⊢
          obtain rfl : isRun = false := by simpa [hd] using hfirst
          simp [hc]
        · rename_i hruns
          simp [hruns] at hfirst
    | cons d w =>
      have hruns := ih (by simp) fun e he => hw e (List.mem_cons_of_mem c he)
      rw [List.cons_append, letterRuns, hruns]
      simp [hc]

section Variables

/-- The character is a letter of a run that is no reserved name. -/
def IsVariableOf (c : Char) (cs : List Char) : Prop :=
  ∃ run ∈ letterRuns cs, run.1 = true ∧ isReserved run.2 = false ∧ c ∈ run.2

theorem mem_insertLetter {c d : Char} {ds : List Char} : d ∈ insertLetter c ds ↔ d = c ∨ d ∈ ds := by
  induction ds with
  | nil => simp [insertLetter]
  | cons e ds ih =>
    unfold insertLetter
    split
    · simp
    · split
      · rename_i heq
        simp [heq]
      · simp only [List.mem_cons, ih]
        tauto

theorem mem_foldl_insertLetter {d : Char} (w found : List Char) :
    d ∈ w.foldl (fun acc c => insertLetter c acc) found ↔ d ∈ w ∨ d ∈ found := by
  induction w generalizing found with
  | nil => simp
  | cons c w ih =>
    rw [List.foldl_cons, ih, mem_insertLetter, List.mem_cons]
    tauto

theorem mem_variableLetters {c : Char} {cs : List Char} : c ∈ variableLetters cs ↔ IsVariableOf c cs := by
  have hfold (runs : List (Bool × List Char)) (found : List Char) :
      c ∈ runs.foldl (fun found run =>
          if run.1 && !isReserved run.2 then run.2.foldl (fun acc c => insertLetter c acc) found else found) found ↔
        c ∈ found ∨ ∃ run ∈ runs, run.1 = true ∧ isReserved run.2 = false ∧ c ∈ run.2 := by
    induction runs generalizing found with
    | nil => simp
    | cons run runs ih =>
      rw [List.foldl_cons, ih]
      by_cases hrun : (run.1 && !isReserved run.2) = true
      · have hkind : run.1 = true ∧ isReserved run.2 = false := by simpa using hrun
        rw [if_pos hrun, mem_foldl_insertLetter]
        simp only [List.mem_cons, exists_eq_or_imp, hkind, true_and]
        tauto
      · have hkind : ¬(run.1 = true ∧ isReserved run.2 = false ∧ c ∈ run.2) := by
          rintro ⟨hletters, hreserved, -⟩
          simp [hletters, hreserved] at hrun
        rw [if_neg hrun]
        simp only [List.mem_cons, exists_eq_or_imp, hkind, false_or]
  rw [variableLetters, hfold]
  simp [IsVariableOf]

theorem isVariableOf_other {c d : Char} (hd : d.isAlpha = false) (cs : List Char) :
    IsVariableOf c (d :: cs) ↔ IsVariableOf c cs := by
  unfold IsVariableOf
  rw [letterRuns]
  split
  · rename_i isRun run runs hruns
    rw [hruns, hd]
    cases isRun <;> simp
  · rename_i hruns
    simp [hruns, hd]

theorem isVariableOf_run {c : Char} {w rest : List Char} (hne : w ≠ []) (hw : ∀ c ∈ w, c.isAlpha = true)
    (hrest : BeginsOutside rest) :
    IsVariableOf c (w ++ rest) ↔ (isReserved w = false ∧ c ∈ w) ∨ IsVariableOf c rest := by
  rw [IsVariableOf, letterRuns_run hne hw hrest]
  simp [IsVariableOf]

theorem IsVariableOf.isAlpha {c : Char} {cs : List Char} (h : IsVariableOf c cs) : c.isAlpha = true := by
  induction cs using letters_induction with
  | nil => simp [IsVariableOf, letterRuns] at h
  | other d cs hd ih => exact ih ((isVariableOf_other hd cs).mp h)
  | run w rest hne hw hrest ih =>
    rcases (isVariableOf_run hne hw hrest).mp h with ⟨-, hc⟩ | h
    · exact hw c hc
    · exact ih h

theorem BeginsOutside.append {cs ds : List Char} (hcs : BeginsOutside cs) (hds : BeginsOutside ds) : BeginsOutside (cs ++ ds) := by
  cases cs with
  | nil => exact hds
  | cons c cs => exact hcs

theorem beginsOutside_append {cs : List Char} (hcs : BeginsOutside cs) {c : Char} (hc : c.isAlpha = false)
    (more : List Char) : BeginsOutside (cs ++ c :: more) :=
  hcs.append (by simpa [BeginsOutside] using hc)

theorem isVariableOf_append {c d : Char} (hd : d.isAlpha = false) (cs more : List Char) :
    IsVariableOf c (cs ++ d :: more) ↔ IsVariableOf c cs ∨ IsVariableOf c more := by
  induction cs using letters_induction with
  | nil =>
    have hnil : ¬IsVariableOf c [] := by simp [IsVariableOf, letterRuns]
    rw [List.nil_append, isVariableOf_other hd]
    simp [hnil]
  | other e cs he ih => rw [List.cons_append, isVariableOf_other he, ih, isVariableOf_other he]
  | run w rest hne hw hrest ih =>
    rw [List.append_assoc, isVariableOf_run hne hw (beginsOutside_append hrest hd more), ih,
      isVariableOf_run hne hw hrest, or_assoc]

end Variables

/-! ### Spelling out products -/

section Products

variable {vars : List Char}

theorem spellProducts_other {c : Char} (hc : c.isAlpha = false) (cs : List Char) :
    spellProducts vars (c :: cs) = c :: spellProducts vars cs := by
  unfold spellProducts
  rw [letterRuns]
  split
  · rename_i isRun run runs hruns
    rw [hruns, hc]
    cases isRun <;> simp
  · rename_i hruns
    simp [hruns, hc]

/-- A run of letters as a product, if it is no reserved name and its letters are variables. -/
def spelledRun (vars w : List Char) : List Char :=
  if !isReserved w && w.all (vars.contains ·) then spellRun w else w

theorem spellProducts_run {w rest : List Char} (hne : w ≠ []) (hw : ∀ c ∈ w, c.isAlpha = true)
    (hrest : BeginsOutside rest) : spellProducts vars (w ++ rest) = spelledRun vars w ++ spellProducts vars rest := by
  rw [spellProducts, letterRuns_run hne hw hrest, List.flatMap_cons, spelledRun, Bool.true_and]
  rfl

theorem mem_spelledRun {w : List Char} {c : Char} (hc : c ∈ spelledRun vars w) : c ∈ w ∨ c = '*' := by
  have hspell {w : List Char} (hc : c ∈ spellRun w) : c ∈ w ∨ c = '*' := by
    fun_induction spellRun w with
    | case1 => simp at hc
    | case2 d => exact .inl hc
    | case3 d e w ih =>
      simp only [List.mem_cons] at hc ih ⊢
      rcases hc with rfl | rfl | hlater
      · exact .inl (.inl rfl)
      · exact .inr rfl
      · exact (ih hlater).imp_left .inr
  unfold spelledRun at hc
  split at hc
  · exact hspell hc
  · exact .inl hc

/-- Spelling out products brings in nothing but stars. -/
theorem mem_spellProducts {cs : List Char} {c : Char} (hc : c ∈ spellProducts vars cs) : c ∈ cs ∨ c = '*' := by
  induction cs using letters_induction with
  | nil => exact .inl hc
  | other d cs hd ih =>
    rw [spellProducts_other hd, List.mem_cons] at hc
    rcases hc with rfl | hlater
    · exact .inl List.mem_cons_self
    · exact (ih hlater).imp_left (List.mem_cons_of_mem d)
  | run w rest hne hw hrest ih =>
    rw [spellProducts_run hne hw hrest, List.mem_append] at hc
    rcases hc with hrun | hlater
    · exact (mem_spelledRun hrun).imp_left (List.mem_append_left rest)
    · exact (ih hlater).imp_left (List.mem_append_right w)

theorem spellProducts_append {c : Char} (hc : c.isAlpha = false) (cs more : List Char) :
    spellProducts vars (cs ++ c :: more) = spellProducts vars cs ++ c :: spellProducts vars more := by
  induction cs using letters_induction with
  | nil => exact spellProducts_other hc more
  | other d cs hd ih => rw [List.cons_append, spellProducts_other hd, ih, spellProducts_other hd, List.cons_append]
  | run w rest hne hw hrest ih =>
    rw [List.append_assoc, spellProducts_run hne hw (beginsOutside_append hrest hc more), ih,
      spellProducts_run hne hw hrest, List.append_assoc]

/-- Where every letter of the text counts as a variable already, further variables change nothing. -/
theorem spellProducts_eq {cs more : List Char} (hvars : ∀ c, IsVariableOf c cs → c ∈ vars)
    (hmore : ∀ c, IsVariableOf c cs → c ∈ more) : spellProducts more cs = spellProducts vars cs := by
  induction cs using letters_induction with
  | nil => rfl
  | other c cs hc ih =>
    rw [spellProducts_other hc, spellProducts_other hc,
      ih (fun d hd => hvars d ((isVariableOf_other hc cs).mpr hd)) fun d hd => hmore d ((isVariableOf_other hc cs).mpr hd)]
  | run w rest hne hw hrest ih =>
    have hrun (c : Char) : (isReserved w = false ∧ c ∈ w) ∨ IsVariableOf c rest → IsVariableOf c (w ++ rest) :=
      (isVariableOf_run hne hw hrest).mpr
    rw [spellProducts_run hne hw hrest, spellProducts_run hne hw hrest,
      ih (fun d hd => hvars d (hrun d (.inr hd))) fun d hd => hmore d (hrun d (.inr hd))]
    cases hreserved : isReserved w with
    | true => simp [spelledRun, hreserved]
    | false =>
      have hall : (w.all (more.contains ·)) = true ∧ (w.all (vars.contains ·)) = true := by
        simp only [List.all_eq_true, List.contains_iff_mem]
        exact ⟨fun c hc => hmore c (hrun c (.inl ⟨hreserved, hc⟩)), fun c hc => hvars c (hrun c (.inl ⟨hreserved, hc⟩))⟩
      rw [spelledRun, spelledRun, hall.1, hall.2]

theorem spellProducts_outside {cs : List Char} (hcs : ∀ c ∈ cs, c.isAlpha = false) (more : List Char) :
    spellProducts vars (cs ++ more) = cs ++ spellProducts vars more := by
  induction cs with
  | nil => rfl
  | cons c cs ih =>
    rw [List.cons_append, spellProducts_other (hcs c List.mem_cons_self), ih fun d hd => hcs d (List.mem_cons_of_mem c hd)]
    rfl

theorem spellProducts_eq_self {w : List Char} (hw : ∀ c ∈ w, c.isAlpha = true) (hname : isReserved w = true ∨ w.length = 1) :
    spellProducts vars w = w := by
  have hne : w ≠ [] := by
    rintro rfl
    exact absurd hname (by decide)
  have hspell : spelledRun vars w = w := by
    rcases hname with hreserved | hlength
    · simp [spelledRun, hreserved]
    · obtain ⟨c, rfl⟩ := List.length_eq_one_iff.mp hlength
      simp [spelledRun, spellRun]
  have hrun := @spellProducts_run vars w [] hne hw (by simp [BeginsOutside])
  rw [List.append_nil, hspell] at hrun
  exact hrun.trans (List.append_nil w)

end Products

end AlgebraTutor.Text
