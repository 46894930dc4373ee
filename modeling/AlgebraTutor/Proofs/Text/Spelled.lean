import AlgebraTutor.Proofs.Text.Stars
import Mathlib.Data.List.Sort
import Mathlib.Data.Char

/-!
# The runs of a spelled text

Spelling out the products of a text with its own variables leaves no run of letters but reserved names and single variables. It
changes nothing but these runs, so a text that has been spelled out is left alone, and its variables are those of the text it was
made of, without the one that is a reserved name by itself.

The runs of a text are `letterWords`, cut off one by one; `mem_letterWords` says that they are its whole runs. `SpellsOut` says
what is written between their letters, and what becomes of the runs and of the variables follows from that alone.
-/

namespace AlgebraTutor.Text

/-! ### Whole runs of letters -/

/-- The text does not end with a letter. -/
def EndsOutside (cs : List Char) : Prop :=
  ∀ c ∈ cs.getLast?, c.isAlpha = false

/-- The letters are a whole run of the text: they stand side by side, and no letter stands beside them. -/
def IsLetterRun (w cs : List Char) : Prop :=
  ∃ before after, cs = before ++ (w ++ after) ∧ w ≠ [] ∧ (∀ c ∈ w, c.isAlpha = true) ∧ EndsOutside before ∧ BeginsOutside after

/-- The runs of letters of a text, from left to right. -/
def letterWords (cs : List Char) : List (List Char) :=
  (letterRuns cs).filterMap fun run => if run.1 then some run.2 else none

theorem letterWords_other {c : Char} (hc : c.isAlpha = false) (cs : List Char) : letterWords (c :: cs) = letterWords cs := by
  unfold letterWords
  rw [letterRuns]
  split
  · rename_i isRun run runs hruns
    rw [hruns, hc]
    cases isRun <;> simp
  · rename_i hruns
    simp [hruns, hc]

theorem letterWords_run {w rest : List Char} (hne : w ≠ []) (hw : ∀ c ∈ w, c.isAlpha = true) (hrest : BeginsOutside rest) :
    letterWords (w ++ rest) = w :: letterWords rest := by
  rw [letterWords, letterRuns_run hne hw hrest]
  rfl

theorem letterWords_append {cs ds : List Char} (hds : BeginsOutside ds) :
    letterWords (cs ++ ds) = letterWords cs ++ letterWords ds := by
  induction cs using letters_induction with
  | nil => rfl
  | other c cs hc ih => rw [List.cons_append, letterWords_other hc, letterWords_other hc, ih]
  | run w rest hne hw hrest ih =>
    rw [List.append_assoc, letterWords_run hne hw (hrest.append hds), ih, letterWords_run hne hw hrest, List.cons_append]

theorem letterWords_append_of_endsOutside {cs ds : List Char} (hcs : EndsOutside cs) :
    letterWords (cs ++ ds) = letterWords cs ++ letterWords ds := by
  cases cs using List.reverseRecOn with
  | nil => rfl
  | append_singleton cs c =>
    have hc : c.isAlpha = false := hcs c (by simp)
    have hbegins (more : List Char) : BeginsOutside (c :: more) := by simpa [BeginsOutside] using hc
    rw [List.append_assoc, List.singleton_append, letterWords_append (hbegins ds), letterWords_append (hbegins []),
      letterWords_other hc, letterWords_other hc]
    simp [letterWords, letterRuns]

/-- The runs that a text is cut into are its whole runs. -/
theorem mem_letterWords {w cs : List Char} : w ∈ letterWords cs ↔ IsLetterRun w cs := by
  constructor
  · intro h
    induction cs using letters_induction with
    | nil => simp [letterWords, letterRuns] at h
    | other c cs hc ih =>
      rw [letterWords_other hc] at h
      obtain ⟨before, after, rfl, hne, hw, hbefore, hafter⟩ := ih h
      refine ⟨c :: before, after, rfl, hne, hw, fun d hd => ?_, hafter⟩
      cases before with
      | nil =>
        obtain rfl : c = d := by simpa using hd
        exact hc
      | cons e before => exact hbefore d (by simpa using hd)
    | run v rest hne hv hrest ih =>
      rw [letterWords_run hne hv hrest, List.mem_cons] at h
      rcases h with rfl | h
      · exact ⟨[], rest, rfl, hne, hv, by simp [EndsOutside], hrest⟩
      · obtain ⟨before, after, rfl, hne, hw, hbefore, hafter⟩ := ih h
        refine ⟨v ++ before, after, by rw [List.append_assoc], hne, hw, fun d hd => ?_, hafter⟩
        cases before with
        | nil =>
          -- otherwise the first run went on
          obtain ⟨e, w, rfl⟩ := List.exists_cons_of_ne_nil hne
          exact absurd (hw e List.mem_cons_self) (by simp [hrest e rfl])
        | cons e before => exact hbefore d (by simpa [List.getLast?_append] using hd)
  · rintro ⟨before, after, rfl, hne, hw, hbefore, hafter⟩
    rw [letterWords_append_of_endsOutside hbefore, letterWords_run hne hw hafter]
    simp

/-! ### The runs of a spelled text -/

theorem spellRun_eq_intersperse (w : List Char) : spellRun w = w.intersperse '*' := by
  fun_induction spellRun w with
  | case1 => rfl
  | case2 c => rfl
  | case3 c d cs ih => rw [ih]; rfl

theorem letterWords_spellRun {w rest : List Char} (hw : ∀ c ∈ w, c.isAlpha = true) (hrest : BeginsOutside rest) :
    letterWords (spellRun w ++ rest) = w.map ([·]) ++ letterWords rest := by
  have hsingle {c : Char} (hc : c.isAlpha = true) {ds : List Char} (hds : BeginsOutside ds) :
      letterWords (c :: ds) = [c] :: letterWords ds :=
    @letterWords_run [c] ds (by simp) (by simpa using hc) hds
  fun_induction spellRun w with
  | case1 => rfl
  | case2 c => exact hsingle (hw c List.mem_cons_self) hrest
  | case3 c d cs ih =>
    obtain ⟨hc, hcs⟩ := List.forall_mem_cons.mp hw
    have hstar : BeginsOutside ('*' :: (spellRun (d :: cs) ++ rest)) := by simp [BeginsOutside]
    rw [List.cons_append, List.cons_append, hsingle hc hstar, letterWords_other (by decide), ih hcs]
    rfl

variable {vars cs ds : List Char}

theorem isVariableOf_iff_mem_letterWords {c : Char} : IsVariableOf c cs ↔ ∃ w ∈ letterWords cs, isReserved w = false ∧ c ∈ w := by
  simp only [IsVariableOf, letterWords, List.mem_filterMap, Option.ite_none_right_eq_some, Option.some.injEq]
  constructor
  · rintro ⟨⟨isRun, w⟩, hmem, hrun, hreserved, hc⟩
    exact ⟨w, ⟨_, hmem, hrun, rfl⟩, hreserved, hc⟩
  · rintro ⟨w, ⟨run, hmem, hrun, rfl⟩, hreserved, hc⟩
    exact ⟨run, hmem, hrun, hreserved, hc⟩

theorem spelledRun_eq_self {w : List Char} (hname : isReserved w = true ∨ w.length = 1) : spelledRun vars w = w := by
  rcases hname with hreserved | hlength
  · simp [spelledRun, hreserved]
  · obtain ⟨c, rfl⟩ := List.length_eq_one_iff.mp hlength
    simp [spelledRun, spellRun]

/-- Where every run is a single letter or a reserved name, there is nothing to spell out. -/
theorem spellProducts_eq_self_of_words (h : ∀ w ∈ letterWords cs, isReserved w = true ∨ w.length = 1) :
    spellProducts vars cs = cs := by
  induction cs using letters_induction with
  | nil => rfl
  | other c cs hc ih => rw [spellProducts_other hc, ih (by rwa [letterWords_other hc] at h)]
  | run w rest hne hw hrest ih =>
    rw [letterWords_run hne hw hrest, List.forall_mem_cons] at h
    rw [spellProducts_run hne hw hrest, spelledRun_eq_self h.1, ih h.2]

/-! ### What is spelled out -/

/-- The second text is the first one with a star between any two neighbouring letters of each whole run that is no reserved
name, and with nothing else changed. -/
inductive SpellsOut : List Char → List Char → Prop
  | nil : SpellsOut [] []
  | other {c : Char} {cs ds : List Char} (hc : c.isAlpha = false) (h : SpellsOut cs ds) : SpellsOut (c :: cs) (c :: ds)
  | name {w cs ds : List Char} (hne : w ≠ []) (hw : ∀ c ∈ w, c.isAlpha = true) (hreserved : isReserved w = true)
    (hcs : BeginsOutside cs) (h : SpellsOut cs ds) : SpellsOut (w ++ cs) (w ++ ds)
  | product {w cs ds : List Char} (hne : w ≠ []) (hw : ∀ c ∈ w, c.isAlpha = true) (hreserved : isReserved w = false)
    (hcs : BeginsOutside cs) (h : SpellsOut cs ds) : SpellsOut (w ++ cs) (w.intersperse '*' ++ ds)

theorem spellsOut_spellProducts (hvars : ∀ c, IsVariableOf c cs → c ∈ vars) : SpellsOut cs (spellProducts vars cs) := by
  induction cs using letters_induction with
  | nil => exact .nil
  | other c cs hc ih =>
    rw [spellProducts_other hc]
    exact .other hc (ih fun d hd => hvars d ((isVariableOf_other hc cs).mpr hd))
  | run w rest hne hw hrest ih =>
    have hrun (c : Char) : (isReserved w = false ∧ c ∈ w) ∨ IsVariableOf c rest → c ∈ vars :=
      fun h => hvars c ((isVariableOf_run hne hw hrest).mpr h)
    have hspelled := ih fun c hc => hrun c (.inr hc)
    rw [spellProducts_run hne hw hrest]
    cases hreserved : isReserved w with
    | true =>
      rw [spelledRun_eq_self (.inl hreserved)]
      exact .name hne hw hreserved hrest hspelled
    | false =>
      have hall : ∀ c ∈ w, c ∈ vars := fun c hc => hrun c (.inl ⟨hreserved, hc⟩)
      rw [spelledRun, hreserved, if_pos (by simpa using hall), spellRun_eq_intersperse]
      exact .product hne hw hreserved hrest hspelled

theorem SpellsOut.beginsOutside (h : SpellsOut cs ds) (hcs : BeginsOutside cs) : BeginsOutside ds := by
  have hletter {w cs : List Char} (hne : w ≠ []) (hw : ∀ c ∈ w, c.isAlpha = true) : ¬BeginsOutside (w ++ cs) := fun hcs => by
    obtain ⟨c, w, rfl⟩ := List.exists_cons_of_ne_nil hne
    exact Bool.false_ne_true ((hcs c rfl).symm.trans (hw c List.mem_cons_self))
  cases h with
  | nil => exact hcs
  | other => exact hcs
  | name hne hw => exact absurd hcs (hletter hne hw)
  | product hne hw => exact absurd hcs (hletter hne hw)

/-- The runs of a spelled text are the reserved names of the text and the single letters of its other runs. -/
theorem SpellsOut.letterWords_eq (h : SpellsOut cs ds) :
    letterWords ds = (letterWords cs).flatMap fun w => if isReserved w then [w] else w.map ([·]) := by
  induction h with
  | nil => rfl
  | other hc _ ih => rw [letterWords_other hc, letterWords_other hc, ih]
  | name hne hw hreserved hcs h ih =>
    rw [letterWords_run hne hw (h.beginsOutside hcs), letterWords_run hne hw hcs, List.flatMap_cons, if_pos hreserved, ih]
    rfl
  | product hne hw hreserved hcs h ih =>
    rw [← spellRun_eq_intersperse, letterWords_spellRun hw (h.beginsOutside hcs), letterWords_run hne hw hcs, List.flatMap_cons,
      if_neg (by simp [hreserved]), ih]

/-! ### The variables of a spelled text -/

theorem pairwise_insertLetter (c : Char) {ds : List Char} (h : ds.Pairwise (· < ·)) : (insertLetter c ds).Pairwise (· < ·) := by
  induction ds with
  | nil => exact List.pairwise_singleton _ c
  | cons d ds ih =>
    obtain ⟨hd, hds⟩ := List.pairwise_cons.mp h
    unfold insertLetter
    split_ifs with hlt heq
    · exact List.pairwise_cons.mpr ⟨List.forall_mem_cons.mpr ⟨hlt, fun e he => hlt.trans (hd e he)⟩, h⟩
    · exact h
    · refine List.pairwise_cons.mpr ⟨fun e he => ?_, ih hds⟩
      rcases mem_insertLetter.mp he with rfl | he
      · exact lt_of_le_of_ne (not_lt.mp hlt) (Ne.symm heq)
      · exact hd e he

theorem pairwise_variableLetters (cs : List Char) : (variableLetters cs).Pairwise (· < ·) := by
  have hletters (w found : List Char) (h : found.Pairwise (· < ·)) :
      (w.foldl (fun acc c => insertLetter c acc) found).Pairwise (· < ·) := by
    induction w generalizing found with
    | nil => exact h
    | cons c w ih => exact ih _ (pairwise_insertLetter c h)
  have hruns (runs : List (Bool × List Char)) (found : List Char) (h : found.Pairwise (· < ·)) :
      (runs.foldl (fun found run =>
        if run.1 && !isReserved run.2 then run.2.foldl (fun acc c => insertLetter c acc) found else found) found).Pairwise (· < ·) := by
    induction runs generalizing found with
    | nil => exact h
    | cons run runs ih =>
      rw [List.foldl_cons]
      split
      · exact ih _ (hletters _ _ h)
      · exact ih _ h
  exact hruns _ _ List.Pairwise.nil

/-- Of all single letters only `E` is a reserved name. -/
theorem isReserved_singleton {c : Char} : isReserved [c] = true ↔ c = 'E' := by
  constructor
  · intro h
    have hnames : ∀ name ∈ reservedNames, name = "E" ∨ name.toList.length ≠ 1 := by decide
    obtain ⟨name, hname, heq⟩ := List.any_eq_true.mp h
    rw [beq_iff_eq] at heq
    rcases hnames name hname with rfl | hlength
    · simpa [eq_comm] using heq
    · simp [heq] at hlength
  · rintro rfl
    decide

/-- The letter that is a reserved name by itself is no variable once it stands alone. -/
theorem SpellsOut.isVariableOf_iff (h : SpellsOut cs ds) {c : Char} : IsVariableOf c ds ↔ IsVariableOf c cs ∧ c ≠ 'E' := by
  simp only [isVariableOf_iff_mem_letterWords, h.letterWords_eq, List.mem_flatMap]
  constructor
  · rintro ⟨v, ⟨w, hw, hv⟩, hreserved, hc⟩
    split_ifs at hv with hname
    · obtain rfl := List.mem_singleton.mp hv
      simp [hname] at hreserved
    · obtain ⟨d, hd, rfl⟩ := List.mem_map.mp hv
      obtain rfl := List.mem_singleton.mp hc
      refine ⟨⟨w, hw, by simpa using hname, hd⟩, fun heq => ?_⟩
      simp [isReserved_singleton.mpr heq] at hreserved
  · rintro ⟨⟨w, hw, hreserved, hc⟩, hne⟩
    refine ⟨[c], ⟨w, hw, ?_⟩, ?_, List.mem_singleton_self c⟩
    · rw [hreserved, if_neg Bool.false_ne_true]
      exact List.mem_map_of_mem hc
    · rw [Bool.eq_false_iff, Ne, isReserved_singleton]
      exact hne

theorem SpellsOut.variableLetters_eq (h : SpellsOut cs ds) : variableLetters ds = (variableLetters cs).filter (· ≠ 'E') := by
  refine (pairwise_variableLetters _).eq_of_mem_iff ((pairwise_variableLetters cs).filter _) fun c => ?_
  rw [mem_variableLetters, h.isVariableOf_iff, List.mem_filter, mem_variableLetters, decide_eq_true_iff]

/-- A text that is spelled out with its own variables has no run of letters but single variables and reserved names, differs from
the text by the stars in the other runs only, is not changed when it is spelled out again, and keeps its variables but for `E`. -/
theorem spellProducts_variableLetters (cs : List Char) :
    (∀ w, IsLetterRun w (spellProducts (variableLetters cs) cs) → (∃ c ∈ variableLetters cs, w = [c]) ∨ isReserved w = true) ∧
      SpellsOut cs (spellProducts (variableLetters cs) cs) ∧
      spellProducts (variableLetters cs) (spellProducts (variableLetters cs) cs) = spellProducts (variableLetters cs) cs ∧
      variableLetters (spellProducts (variableLetters cs) cs) = (variableLetters cs).filter (· ≠ 'E') := by
  have hvars : ∀ c, IsVariableOf c cs → c ∈ variableLetters cs := fun c => mem_variableLetters.mpr
  have hspells := spellsOut_spellProducts hvars
  have hwords : ∀ w ∈ letterWords (spellProducts (variableLetters cs) cs),
      (∃ c ∈ variableLetters cs, w = [c]) ∨ isReserved w = true := by
    intro w hw
    rw [hspells.letterWords_eq, List.mem_flatMap] at hw
    obtain ⟨v, hv, hw⟩ := hw
    split_ifs at hw with hreserved
    · exact .inr (List.mem_singleton.mp hw ▸ hreserved)
    · obtain ⟨c, hc, rfl⟩ := List.mem_map.mp hw
      exact .inl ⟨c, hvars c (isVariableOf_iff_mem_letterWords.mpr ⟨v, hv, by simpa using hreserved, hc⟩), rfl⟩
  refine ⟨fun w hw => hwords w (mem_letterWords.mpr hw), hspells, spellProducts_eq_self_of_words fun w hw => ?_,
    hspells.variableLetters_eq⟩
  rcases hwords w hw with ⟨c, -, rfl⟩ | hreserved
  · exact .inr rfl
  · exact .inl hreserved

/-- In `2as + sin(iE x)` the name `sin` is kept, and `E` is a variable only where it stands beside another letter. -/
theorem spellProducts_variableLetters_sine :
    variableLetters "2as + sin(iE x)".toList = ['E', 'a', 'i', 's', 'x'] ∧
      spellProducts ['E', 'a', 'i', 's', 'x'] "2as + sin(iE x)".toList = "2a*s + sin(i*E x)".toList ∧
      IsLetterRun "sin".toList "2a*s + sin(i*E x)".toList ∧
      ((∃ c ∈ ['E', 'a', 'i', 's', 'x'], "sin".toList = [c]) ∨ isReserved "sin".toList = true) ∧
      SpellsOut "2as + sin(iE x)".toList "2a*s + sin(i*E x)".toList ∧
      spellProducts ['E', 'a', 'i', 's', 'x'] "2a*s + sin(i*E x)".toList = "2a*s + sin(i*E x)".toList ∧
      variableLetters "2a*s + sin(i*E x)".toList = ['a', 'i', 's', 'x'] := by
  have hvars : variableLetters "2as + sin(iE x)".toList = ['E', 'a', 'i', 's', 'x'] := by decide
  have hspelled : spellProducts ['E', 'a', 'i', 's', 'x'] "2as + sin(iE x)".toList = "2a*s + sin(i*E x)".toList := by decide
  have hrun : IsLetterRun "sin".toList "2a*s + sin(i*E x)".toList := mem_letterWords.mp (by decide)
  have hlaws := spellProducts_variableLetters "2as + sin(iE x)".toList
  rw [hvars, hspelled] at hlaws
  exact ⟨hvars, hspelled, hrun, hlaws.1 _ hrun, hlaws.2⟩

end AlgebraTutor.Text
