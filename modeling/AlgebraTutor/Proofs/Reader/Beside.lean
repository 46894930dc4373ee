import AlgebraTutor.Proofs.Reader.Level

/-!
# Functions in one text and powers in another

Two texts in parentheses with a minus between them are written as they would be by themselves, also where one of them applies
functions and the other one writes powers with double stars: in neither of them a function stands before a power, so in their
difference none does, and what is written in one pair of parentheses is settled for the whole.
-/

namespace AlgebraTutor.Reader

/-- In parentheses of their own, the tokens are applied as the others say, and no function in them stands before a power. -/
structure AppliesAlone (ts ts' : List Token) : Prop where
  level : ∃ level, Nested.ofTokens? [] [] ts = some level ∧ applyFunctions level = ts'
  chain : ∀ rest : List Token, rest.IsChain Settled → (.mark .openParen :: (ts' ++ .mark .closeParen :: rest)).IsChain Settled
  noFinish : Token.finish ∉ ts'

theorem appliesAlone_of_no_power {ts ts' : List Token} (hpower : Token.mark .doubleStar ∉ ts) (hfinish : Token.finish ∉ ts)
    (happly : applications? ts = some ts') : AppliesAlone ts ts' := by
  have hnone := finish_not_mem_applications? happly
  rw [applications?_of_no_power hpower hfinish] at happly
  obtain ⟨level, hlevel, rfl⟩ := Option.map_eq_some_iff.mp happly
  refine ⟨⟨level, hlevel, rfl⟩, fun rest hrest => ?_, hnone⟩
  have hchain := (settled_groupTokens (settled_units (by simp) (Nested.flatAll_eq_of_ofTokens? hlevel ▸ hpower)) hrest).2
  simpa [groupTokens] using hchain

theorem Applied.settled {t u : Token} (h : Applied t u) : Settled t u := by
  intro hfunction
  rw [h hfunction]
  exact ⟨rfl, rfl⟩

theorem appliesAlone_of_applied {ts : List Token} (hclosed : closes 0 ts = true) (hfinish : Token.finish ∉ ts)
    (h : (ts ++ [Token.finish]).IsChain Applied) : AppliesAlone ts ts := by
  obtain ⟨level, hlevel⟩ := Option.isSome_iff_exists.mp ((Nested.isSome_ofTokens? [] [] ts).trans hclosed)
  have hflat := Nested.flatAll_eq_of_ofTokens? hlevel
  obtain ⟨htokens, hidle⟩ := @units_applied none level .finish (by simp) (by simpa [hflat] using h)
  refine ⟨⟨level, hlevel, ?_⟩, fun rest hrest => ?_, hfinish⟩
  · rw [applyFunctions, settleAll_idle hidle, htokens, hflat]
    rfl
  · obtain ⟨hts, -, hlast⟩ := List.isChain_append.mp h
    refine isChain_settled_cons rfl (List.isChain_append.mpr
      ⟨hts.imp fun _ _ => Applied.settled, isChain_settled_cons rfl hrest, fun t ht u _ => settled_of_not_function ?_ u⟩)
    -- the end of the text is no parenthesis, so the last token is no function
    rw [← Bool.not_eq_true]
    exact fun hfunction => Token.noConfusion (hlast t ht .finish rfl hfunction)

/-- Two groups of tokens with a minus between them are applied as they are by themselves. -/
theorem AppliesAlone.applications?_difference {ts us ts' us' : List Token} (hts : AppliesAlone ts ts') (hus : AppliesAlone us us') :
    applications? (differenceTokens ts us) = some (differenceTokens ts' us') := by
  obtain ⟨level, hlevel, rfl⟩ := hts.level
  obtain ⟨level', hlevel', rfl⟩ := hus.level
  have hends : Nested.ofTokens? [] [] (differenceTokens ts us ++ [.finish, .finish]) =
      some [.group level, .token (.mark .minus), .group level', .token .finish, .token .finish] := by
    rw [Nested.ofTokens?_append (ofTokens?_difference hlevel hlevel')]
    rfl
  have hunits : units none [.group level, .token (.mark .minus), .group level', .token .finish, .token .finish] =
      (differenceTokens (applyFunctions level) (applyFunctions level') ++ [Token.finish, .finish]).map .token := by
    simp [units, unitsOf, Unit.isFunction, applyFunctions, differenceTokens]
  have hchain : (differenceTokens (applyFunctions level) (applyFunctions level') ++ [Token.finish, .finish]).IsChain Settled := by
    have hright := hus.chain [.finish, .finish] (isChain_settled_cons rfl (.singleton _))
    have hleft := hts.chain _ (isChain_settled_cons (t := .mark .minus) rfl hright)
    simpa [differenceTokens] using hleft
  have hkeep : (differenceTokens (applyFunctions level) (applyFunctions level')).filter (· != .finish) =
      differenceTokens (applyFunctions level) (applyFunctions level') := by
    refine List.filter_eq_self.mpr fun t ht => bne_iff_ne.mpr ?_
    rintro rfl
    simp [differenceTokens, hts.noFinish, hus.noFinish] at ht
  rw [applications?, hends, Option.map_some, applyFunctions, hunits, settleAll_idle ((List.isChain_map _).mpr hchain)]
  simp only [List.flatMap_map, Unit.tokens, List.flatMap_singleton']
  rw [movePowers_outside ((List.isChain_map _).mpr hchain), List.filter_append, hkeep]
  simp

end AlgebraTutor.Reader
