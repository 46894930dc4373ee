import AlgebraTutor.Input
import AlgebraTutor.Proofs.Answer
import AlgebraTutor.Proofs.Text.Blank

/-!
# Texts that are expressions or equations

A trimmed text without an equals sign and without doubled operators is taken as an expression. Two texts without an equals
sign and with one between them are taken, if at all, as the equation of the trimmed texts.
-/

namespace AlgebraTutor

theorem Text.containsChars_eq_false {c : Char} (w : List Char) {cs : List Char} (hc : c ∉ cs) :
    containsChars (c :: w) cs = false := by
  induction cs with
  | nil => rfl
  | cons d cs ih =>
    rw [List.mem_cons, not_or] at hc
    rw [containsChars, ih hc.2, Bool.or_false, List.isPrefixOf, beq_eq_false_iff_ne.mpr hc.1, Bool.false_and]

namespace Input

theorem splitAtEquals_eq_singleton {cs : List Char} (hcs : '=' ∉ cs) : splitAtEquals cs = [cs] := by
  induction cs with
  | nil => rfl
  | cons c cs ih =>
    rw [List.mem_cons, not_or] at hcs
    rw [splitAtEquals, ih hcs.2]
    exact fun heq => hcs.1 heq.symm

theorem ofText_expression {cs : List Char} (hne : cs ≠ []) (htrim : Text.trimChars cs = cs)
    (hdoubled : hasDoubledOperator cs = false) (hequals : '=' ∉ cs) :
    ofText (String.ofList cs) = .ok ⟨String.ofList cs, none⟩ := by
  simp [ofText, String.toList_ofList, htrim, hne, hdoubled, splitAtEquals_eq_singleton hequals]

theorem splitAtEquals_append {cs : List Char} (hcs : '=' ∉ cs) (ds : List Char) :
    splitAtEquals (cs ++ '=' :: ds) = cs :: splitAtEquals ds := by
  induction cs with
  | nil => rfl
  | cons c cs ih =>
    rw [List.mem_cons, not_or] at hcs
    rw [List.cons_append, splitAtEquals, ih hcs.2]
    exact fun heq => hcs.1 heq.symm

/-- The equation between two texts, as a text. -/
def equationText (left right : String) : String :=
  left ++ " = " ++ right

section Equation

variable {left right : String} (hleft : '=' ∉ left.toList) (hright : '=' ∉ right.toList)

include hleft hright

/-- Texts without an equals sign are the sides of their equation, unless it holds a doubled operator or one of them is blank. -/
theorem ofText_equationText : ofText (equationText left right) =
    if hasDoubledOperator (Text.trimChars (equationText left right).toList) then .error (.doubledOperator (equationText left right))
    else if (Text.trimChars left.toList).isEmpty || (Text.trimChars right.toList).isEmpty then
      .error (.emptySide (equationText left right))
    else .ok ⟨Text.trim (equationText left right), some (Text.trim left, Text.trim right)⟩ := by
  have hblank : Text.isBlank ' ' = true := by decide
  have htext : (equationText left right).toList = (left.toList ++ [' ']) ++ '=' :: ' ' :: right.toList := by
    simp [equationText]
  have htrim := Text.trimChars_append_cons (show Text.isBlank '=' = false by decide) (left.toList ++ [' ']) (' ' :: right.toList)
  have hbefore : '=' ∉ (left.toList ++ [' ']).dropWhile Text.isBlank :=
    fun hmem => hleft (by simpa using (List.dropWhile_sublist _).subset hmem)
  have hbehind : '=' ∉ (' ' :: right.toList).rdropWhile Text.isBlank :=
    fun hmem => hright (by simpa using (List.rdropWhile_prefix _ _).subset hmem)
  -- the blank beside the equals sign goes with those of the side
  have htrimLeft : Text.trimChars (left.toList ++ [' ']) = Text.trimChars left.toList := by
    rw [← Text.trimChars_rdropWhile, List.rdropWhile_concat_pos _ _ _ hblank, Text.trimChars_rdropWhile]
  have htrimRight : Text.trimChars (' ' :: right.toList) = Text.trimChars right.toList := by
    rw [← Text.trimChars_dropWhile, List.dropWhile_cons_of_pos hblank, Text.trimChars_dropWhile]
  have hfilled : (Text.trimChars (equationText left right).toList).isEmpty = false := by
    rw [htext, htrim]
    simp
  simp only [ofText, hfilled, Bool.false_eq_true, if_false]
  simp only [htext, htrim, splitAtEquals_append hbefore, splitAtEquals_eq_singleton hbehind, Text.trimChars_dropWhile,
    Text.trimChars_rdropWhile, htrimLeft, htrimRight, Text.trim]

theorem equation_of_equationText {p : Input} (h : ofText (equationText left right) = .ok p) :
    p.equation = some (Text.trim left, Text.trim right) := by
  rw [ofText_equationText hleft hright] at h
  split_ifs at h
  obtain rfl := Except.ok.inj h
  rfl

end Equation

theorem prefix_splitAtEquals {cs part : List Char} (hpart : part ∈ (splitAtEquals cs).head?) : part <+: cs := by
  fun_induction splitAtEquals cs generalizing part with
  | case1 | case2 =>
    obtain rfl := Option.some.inj hpart
    exact List.nil_prefix
  | case3 c cs hc first parts hsplit ih =>
    obtain rfl := Option.some.inj hpart
    exact List.cons_prefix_cons.mpr ⟨rfl, ih (by rw [hsplit]; rfl)⟩
  | case4 c cs =>
    obtain rfl := Option.some.inj hpart
    exact List.prefix_append [c] cs

/-- A part of a text stands in it in one piece. -/
theorem infix_splitAtEquals {cs part : List Char} (hpart : part ∈ splitAtEquals cs) : part <:+: cs := by
  fun_induction splitAtEquals cs generalizing part with
  | case1 =>
    obtain rfl := List.mem_singleton.mp hpart
    exact List.nil_infix
  | case2 cs ih =>
    rcases List.mem_cons.mp hpart with rfl | hpart
    · exact List.nil_infix
    · exact List.infix_cons (ih hpart)
  | case3 c cs hc first parts hsplit ih =>
    rcases List.mem_cons.mp hpart with rfl | hpart
    · exact (List.cons_prefix_cons.mpr ⟨rfl, prefix_splitAtEquals (by rw [hsplit]; rfl)⟩).isInfix
    · exact List.infix_cons (ih (hsplit ▸ List.mem_cons_of_mem _ hpart))
  | case4 c cs =>
    obtain rfl := List.mem_singleton.mp hpart
    exact (List.prefix_append [c] cs).isInfix

/-! ### Inputs that pass the check -/

theorem forall_of_readAll {texts : List String} (h : readAll texts = .ok ()) : ∀ text ∈ texts, ∃ t, Tree.ofText text = .ok t := by
  induction texts with
  | nil => simp
  | cons text texts ih =>
    obtain ⟨t, ht, hrest⟩ := Answer.bind_eq_ok_iff.mp h
    exact List.forall_mem_cons.mpr ⟨⟨t, ht⟩, ih hrest⟩

theorem of_check {text : String} {p : Input} (h : check text = .ok p) :
    ofText text = .ok p ∧ ∀ side ∈ p.sides, ∃ t, Tree.ofText side = .ok t := by
  obtain ⟨q, hq, hread⟩ := Answer.bind_eq_ok_iff.mp h
  obtain ⟨_, hsides, heq⟩ := Answer.bind_eq_ok_iff.mp hread
  obtain rfl := Answer.pure_eq_ok_iff.mp heq
  exact ⟨hq, forall_of_readAll hsides⟩

end Input

end AlgebraTutor
