import AlgebraTutor.Proofs.Input
import AlgebraTutor.Proofs.Reader.Slashes

/-!
# Doubled operators

Doubled operators are looked for in a text as it was typed, where a sign may also be one that is displayed for a plain sign.
In the plain spelling of what passes the check three minuses or two stars can stand side by side, but only where one of
them was typed as such a display sign; two plus signs or two slashes never do.
-/

namespace AlgebraTutor.Input

/-- The doubled operator is written in the text, but not in plain signs. -/
def IsDisguised (op cs : List Char) : Prop :=
  ∃ run, run <:+: cs ∧ run ≠ op ∧ run.map Text.plainSign = op

theorem withoutBlanks_infix_of_mem_sides {text side : String} {p : Input} (hp : ofText text = .ok p) (hside : side ∈ p.sides) :
    Text.withoutBlanks side.toList <:+: Text.withoutBlanks (Text.trimChars text.toList) := by
  have hpart {part : List Char} (hpart : part ∈ splitAtEquals (Text.trimChars text.toList)) :
      Text.withoutBlanks (String.ofList (Text.trimChars part)).toList <:+: Text.withoutBlanks (Text.trimChars text.toList) := by
    rw [String.toList_ofList, Text.withoutBlanks_trimChars]
    exact (infix_splitAtEquals hpart).filter _
  simp only [ofText] at hp
  split_ifs at hp
  split at hp
  · obtain rfl := Except.ok.inj hp
    obtain rfl := List.mem_singleton.mp hside
    rw [String.toList_ofList]
  · rename_i left right hsplit
    split_ifs at hp
    obtain rfl := Except.ok.inj hp
    rcases List.mem_cons.mp hside with rfl | hside
    · exact hpart (by simp [hsplit])
    · obtain rfl := List.mem_singleton.mp hside
      exact hpart (by simp [hsplit])
  · simp at hp

/-- No side of what is taken as an expression or an equation holds a doubled operator in plain signs. -/
theorem not_infix_of_ofText {text side op : String} {p : Input} (hp : ofText text = .ok p) (hside : side ∈ p.sides)
    (hop : op ∈ doubledOperators) : ¬op.toList <:+: Text.withoutBlanks side.toList := by
  intro hinfix
  have hwhole := hinfix.trans (withoutBlanks_infix_of_mem_sides hp hside)
  have hdoubled : hasDoubledOperator (Text.trimChars text.toList) = true :=
    List.any_eq_true.mpr ⟨op, hop, Text.containsChars_iff_infix.mpr hwhole⟩
  simp only [ofText, hdoubled, if_true] at hp
  split_ifs at hp

/-- Where a row of signs is written in plain signs only if it is displayed so, it stands in the plain spelling of a side
exactly if it is disguised there. -/
theorem infix_plain_iff_isDisguised {text side op : String} {p : Input} (hp : ofText text = .ok p) (hside : side ∈ p.sides)
    (hop : op ∈ doubledOperators) :
    op.toList <:+: Text.withoutBlanks (Text.plain side.toList) ↔ IsDisguised op.toList (Text.withoutBlanks side.toList) := by
  have hrow : ∃ o ∈ Text.operationSigns, ∃ n, op.toList = List.replicate (n + 2) o := by
    simp only [doubledOperators, List.mem_cons, List.not_mem_nil, or_false] at hop
    rcases hop with rfl | rfl | rfl | rfl
    · exact ⟨'+', by decide, 0, rfl⟩
    · exact ⟨'-', by decide, 1, rfl⟩
    · exact ⟨'/', by decide, 0, rfl⟩
    · exact ⟨'*', by decide, 0, rfl⟩
  obtain ⟨o, ho, n, hrow⟩ := hrow
  rw [hrow, Text.infix_plain_iff ho]
  constructor
  · intro hinfix
    obtain ⟨run, hrun, heq⟩ := List.infix_map_iff.mp hinfix
    refine ⟨run, hrun, ?_, heq.symm⟩
    rintro rfl
    exact not_infix_of_ofText hp hside hop (hrow ▸ hrun)
  · rintro ⟨run, hrun, -, heq⟩
    rw [← heq]
    exact hrun.map Text.plainSign

/-- Something that is displayed for a sign of the operator disguises it. -/
theorem IsDisguised.exists_ne {op cs : List Char} (h : IsDisguised op cs) :
    ∃ c ∈ cs, Text.plainSign c ∈ op ∧ Text.plainSign c ≠ c := by
  obtain ⟨run, hrun, hne, heq⟩ := h
  by_contra! hall
  have hself : run.map Text.plainSign = run := by
    conv_rhs => rw [← List.map_id run]
    exact List.map_congr_left fun c hc => hall c (hrun.subset hc) (heq ▸ List.mem_map_of_mem hc)
  exact hne (hself.symm.trans heq)

/-- What passes the check holds no two plus signs and no two slashes in its plain spelling, and three minuses or two stars
exactly where they are disguised; so it holds no doubled operator if every sign in it is a plain one. -/
theorem doubledOperators_of_check {text side : String} {p : Input} (h : check text = .ok p) (hside : side ∈ p.sides) :
    let plain := Text.withoutBlanks (Text.plain side.toList)
    Text.containsChars "++".toList plain = false ∧ Text.containsChars "//".toList plain = false ∧
      (∀ op ∈ ["---", "**"],
        Text.containsChars op.toList plain = true ↔ IsDisguised op.toList (Text.withoutBlanks side.toList)) ∧
      ((∀ c ∈ side.toList, Text.plainSign c = c) → hasDoubledOperator (Text.plain side.toList) = false) := by
  intro plain
  obtain ⟨hp, hsides⟩ := of_check h
  have hdisguised {op : String} (hop : op ∈ doubledOperators) :
      Text.containsChars op.toList plain = true ↔ IsDisguised op.toList (Text.withoutBlanks side.toList) :=
    Text.containsChars_iff_infix.trans (infix_plain_iff_isDisguised hp hside hop)
  refine ⟨?_, ?_, fun op hop => hdisguised ?_, fun hplain => ?_⟩
  · -- no sign is displayed for a plus
    rw [← Bool.not_eq_true, hdisguised (by decide)]
    intro hplus
    obtain ⟨c, -, hsign, hne⟩ := hplus.exists_ne
    unfold Text.plainSign at hsign hne
    grind
  · obtain ⟨t, ht⟩ := hsides side hside
    rw [← Bool.not_eq_true, Text.containsChars_iff_infix]
    exact Reader.not_infix_slashes_of_ofText ht
  · have hall : ∀ op ∈ ["---", "**"], op ∈ doubledOperators := by decide
    exact hall op hop
  · rw [hasDoubledOperator, List.any_eq_false]
    intro op hop hcontains
    obtain ⟨c, hc, -, hne⟩ := ((hdisguised hop).mp hcontains).exists_ne
    exact hne (hplain c (List.mem_of_mem_filter hc))

/-- On the right of `y − −2 = x·×2 ÷ 3` two stars stand side by side, one of them typed as a dot, the other as a cross. -/
theorem doubledOperators_of_check_equation :
    let side := "x·×2 ÷ 3"
    check "y − −2 = x·×2 ÷ 3" = .ok ⟨"y − −2 = x·×2 ÷ 3", some ("y − −2", side)⟩ ∧
      Text.containsChars "//".toList (Text.withoutBlanks (Text.plain side.toList)) = false ∧
      Text.containsChars "**".toList (Text.withoutBlanks (Text.plain side.toList)) = true ∧
      IsDisguised "**".toList (Text.withoutBlanks side.toList) := by
  intro side
  have hcheck : check "y − −2 = x·×2 ÷ 3" = .ok ⟨"y − −2 = x·×2 ÷ 3", some ("y − −2", side)⟩ := by decide +kernel
  obtain ⟨-, hslashes, hdisguised, -⟩ := @doubledOperators_of_check _ side _ hcheck (by decide)
  have hstars : Text.containsChars "**".toList (Text.withoutBlanks (Text.plain side.toList)) = true := by decide +kernel
  exact ⟨hcheck, hslashes, hstars, (hdisguised "**" (by decide)).mp hstars⟩

/-- `x××2` and `x−−−y` pass the check, though they are read as `x**2` and `x---y`. -/
theorem check_displayed_operators :
    (check "x××2" = .ok ⟨"x××2", none⟩ ∧
      Text.containsChars "**".toList (Text.withoutBlanks (Text.plain "x××2".toList)) = true) ∧
    check "x−−−y" = .ok ⟨"x−−−y", none⟩ ∧
      Text.containsChars "---".toList (Text.withoutBlanks (Text.plain "x−−−y".toList)) = true := by
  refine ⟨⟨?_, ?_⟩, ?_, ?_⟩ <;> decide +kernel

end AlgebraTutor.Input
