import AlgebraTutor.Proofs.Pattern.LikeTerms

/-!
# The groups of like terms

A group holds the terms with its likeness, in the order in which they stand, and every term is in one group. The detector
reports the groups of two or more terms, but not the one of the numbers.
-/

namespace AlgebraTutor.Tree

/-- The groups hold the terms, each group those with its likeness. -/
structure IsGrouping (terms : List Term) (groups : List TermGroup) : Prop where
  distinct : AreDistinct groups
  members : ∀ g ∈ groups, g.members = terms.filter fun term => likeness term.1 = .ok g.likeness
  grouped : ∀ term ∈ terms, ∃ g ∈ groups, likeness term.1 = .ok g.likeness
  perm : (groups.flatMap (·.members)).Perm terms

theorem isGrouping_nil : IsGrouping [] [] :=
  ⟨areDistinct_nil, by simp, by simp, .nil⟩

theorem mem_insertTerm {key : String} {term : Term} {g : TermGroup} {groups : List TermGroup} (hdistinct : AreDistinct groups)
    (hg : g ∈ insertTerm key term groups) :
    g.likeness ≠ key ∧ g ∈ groups ∨ g = ⟨key, [term]⟩ ∧ key ∉ groups.map (·.likeness) ∨
      ∃ members, g = ⟨key, members ++ [term]⟩ ∧ ⟨key, members⟩ ∈ groups := by
  induction groups with
  | nil => exact .inr (.inl ⟨List.mem_singleton.mp hg, by simp⟩)
  | cons h groups ih =>
    obtain ⟨hnew, hgroups⟩ := List.nodup_cons.mp hdistinct
    unfold insertTerm at hg
    split_ifs at hg with hsame
    · subst hsame
      rcases List.mem_cons.mp hg with rfl | hmem
      · exact .inr (.inr ⟨h.members, rfl, List.mem_cons_self⟩)
      · exact .inl ⟨fun heq => hnew (List.mem_map.mpr ⟨g, hmem, heq⟩), List.mem_cons_of_mem _ hmem⟩
    · rcases List.mem_cons.mp hg with rfl | hmem
      · exact .inl ⟨hsame, List.mem_cons_self⟩
      · rcases ih hgroups hmem with ⟨hne, hold⟩ | ⟨rfl, hkey⟩ | ⟨members, rfl, hold⟩
        · exact .inl ⟨hne, List.mem_cons_of_mem _ hold⟩
        · exact .inr (.inl ⟨rfl, by simp [Ne.symm hsame, hkey]⟩)
        · exact .inr (.inr ⟨members, rfl, List.mem_cons_of_mem _ hold⟩)

theorem perm_insertTerm (key : String) (term : Term) (groups : List TermGroup) :
    ((insertTerm key term groups).flatMap (·.members)).Perm (groups.flatMap (·.members) ++ [term]) := by
  induction groups with
  | nil => exact .refl _
  | cons g groups ih =>
    unfold insertTerm
    split_ifs
    · rw [List.flatMap_cons, List.flatMap_cons, List.append_assoc, List.append_assoc]
      exact List.perm_append_comm.append_left g.members
    · rw [List.flatMap_cons, List.flatMap_cons, List.append_assoc]
      exact ih.append_left g.members

/-- Inserting the next term keeps the grouping. -/
theorem IsGrouping.insertTerm {terms : List Term} {groups : List TermGroup} (h : IsGrouping terms groups) {term : Term}
    {key : String} (hkey : likeness term.1 = .ok key) : IsGrouping (terms ++ [term]) (insertTerm key term groups) where
  distinct := areDistinct_insertTerm h.distinct
  members := by
    intro g hg
    rw [List.filter_append]
    rcases mem_insertTerm h.distinct hg with ⟨hne, hmem⟩ | ⟨rfl, hnew⟩ | ⟨members, rfl, hmem⟩
    · simp [h.members g hmem, hkey, Ne.symm hne]
    · have hnone : (terms.filter fun term => likeness term.1 = .ok key) = [] := by
        rw [List.filter_eq_nil_iff]
        intro other hother hlike
        obtain ⟨g, hmem, hlikeness⟩ := h.grouped other hother
        obtain rfl : key = g.likeness := Except.ok.inj ((of_decide_eq_true hlike).symm.trans hlikeness)
        exact hnew (List.mem_map_of_mem hmem)
      simp [hnone, hkey]
    · have hold : members = terms.filter fun term => likeness term.1 = .ok key := h.members _ hmem
      simp [hold, hkey]
  grouped := by
    have hgroup (k : String) : (∃ g ∈ Tree.insertTerm key term groups, k = g.likeness) ↔ k = key ∨ ∃ g ∈ groups, k = g.likeness := by
      simpa [eq_comm] using @mem_likeness_insertTerm key k term groups
    intro other hother
    rcases List.mem_append.mp hother with hold | hnew
    · obtain ⟨g, hg, hlikeness⟩ := h.grouped other hold
      obtain ⟨g', hg', heq⟩ := (hgroup g.likeness).mpr (.inr ⟨g, hg, rfl⟩)
      exact ⟨g', hg', heq ▸ hlikeness⟩
    · obtain rfl := List.mem_singleton.mp hnew
      obtain ⟨g', hg', heq⟩ := (hgroup key).mpr (.inl rfl)
      exact ⟨g', hg', heq ▸ hkey⟩
  perm := (perm_insertTerm key term groups).trans (h.perm.append_right [term])

theorem isGrouping_of_groupTerms {before terms : List Term} {groups result : List TermGroup} (hgroups : IsGrouping before groups)
    (h : groupTerms groups terms = .ok result) : IsGrouping (before ++ terms) result := by
  induction terms generalizing before groups with
  | nil =>
    obtain rfl := Except.ok.inj h
    rwa [List.append_nil]
  | cons term terms ih =>
    obtain ⟨key, hkey, h⟩ := Answer.bind_eq_ok_iff.mp h
    have hlater := ih (hgroups.insertTerm hkey) h
    rwa [List.append_assoc] at hlater

theorem exists_isGrouping {terms : List Term} (h : ∀ term ∈ terms, ∃ key, likeness term.1 = .ok key) :
    ∃ groups, groupTerms [] terms = .ok groups ∧ IsGrouping terms groups := by
  have hgroups (groups : List TermGroup) : ∃ result, groupTerms groups terms = .ok result := by
    induction terms generalizing groups with
    | nil => exact ⟨groups, rfl⟩
    | cons term terms ih =>
      obtain ⟨⟨key, hkey⟩, hterms⟩ := List.forall_mem_cons.mp h
      obtain ⟨result, hresult⟩ := ih hterms (insertTerm key term groups)
      exact ⟨result, by rw [groupTerms, hkey, Answer.ok_bind, hresult]⟩
  obtain ⟨groups, hresult⟩ := hgroups []
  exact ⟨groups, hresult, isGrouping_of_groupTerms isGrouping_nil hresult⟩

/-! ### The groups that are reported -/

/-- Is the group reported, as one of two terms or more that are no numbers? -/
def TermGroup.isReported (g : TermGroup) : Bool :=
  !(g.likeness == constantLikeness) && 2 ≤ g.members.length

/-- The pattern of a group whose terms are written together. -/
def TermGroup.pattern (g : TermGroup) (joined : List Char) : Pattern :=
  ⟨.likeTerms, "The terms in " ++ g.likeness ++ " can be combined", g.members.map (·.1), String.ofList joined⟩

/-- The pattern is the one of the group, and its suggestion writes the terms together. -/
def TermGroup.Reports (g : TermGroup) (p : Pattern) : Prop :=
  ∃ joined, writeTerms g.members = .ok joined ∧ p = g.pattern joined

theorem likeTermPatterns_eq_ok_iff {groups : List TermGroup} {patterns : List Pattern} :
    likeTermPatterns groups = .ok patterns ↔ List.Forall₂ TermGroup.Reports (groups.filter (·.isReported)) patterns := by
  induction groups generalizing patterns with
  | nil => simp [likeTermPatterns, eq_comm]
  | cons g groups ih =>
    rw [likeTermPatterns]
    split_ifs with hfew
    · have hreported : g.isReported = false := by
        simp only [TermGroup.isReported, Bool.and_eq_false_imp, Bool.not_eq_true', beq_eq_false_iff_ne, decide_eq_false_iff_not]
        exact fun hne hlength => absurd (hfew.resolve_left hne) (by omega)
      rw [ih, List.filter_cons_of_neg (by simp [hreported])]
    · have hreported : g.isReported = true := by
        simp only [TermGroup.isReported, Bool.and_eq_true, Bool.not_eq_true', beq_eq_false_iff_ne, decide_eq_true_eq]
        exact ⟨fun heq => hfew (.inl heq), by omega⟩
      rw [List.filter_cons_of_pos hreported, List.forall₂_cons_left_iff, Answer.bind_eq_ok_iff]
      constructor
      · rintro ⟨joined, hjoined, h⟩
        obtain ⟨rest, hrest, h⟩ := Answer.bind_eq_ok_iff.mp h
        exact ⟨_, rest, ⟨joined, hjoined, rfl⟩, ih.mp hrest, (Answer.pure_eq_ok_iff.mp h).symm⟩
      · rintro ⟨_, rest, ⟨joined, hjoined, rfl⟩, hrest, rfl⟩
        exact ⟨joined, hjoined, Answer.bind_eq_ok_iff.mpr ⟨rest, ih.mpr hrest, rfl⟩⟩

/-- The like terms of a tree are its groups of two terms or more. -/
theorem likeTerms_eq_ok_iff {t : Tree} {patterns : List Pattern} : t.likeTerms = .ok patterns ↔
    ∃ groups, groupTerms [] t.terms = .ok groups ∧ List.Forall₂ TermGroup.Reports (groups.filter (·.isReported)) patterns := by
  rw [likeTerms, Answer.bind_eq_ok_iff]
  simp only [likeTermPatterns_eq_ok_iff]

theorem kind_of_mem_likeTerms {t : Tree} {patterns : List Pattern} (h : t.likeTerms = .ok patterns) {p : Pattern} (hp : p ∈ patterns) :
    p.kind = .likeTerms := by
  obtain ⟨groups, -, hreports⟩ := likeTerms_eq_ok_iff.mp h
  obtain ⟨g, -, joined, -, rfl⟩ := exists_of_forall₂ hreports.flip hp
  rfl

theorem affected_of_reports {groups : List TermGroup} {patterns : List Pattern} (h : List.Forall₂ TermGroup.Reports groups patterns) :
    patterns.map (·.affected) = groups.map fun g => g.members.map (·.1) := by
  induction h with
  | nil => rfl
  | cons hfirst _ ih =>
    obtain ⟨joined, -, rfl⟩ := hfirst
    rw [List.map_cons, List.map_cons, ih]
    rfl

/-- Two terms are reported together exactly if they have one likeness, and this is not the one of the numbers. -/
theorem exists_reported_iff {t : Tree} {patterns : List Pattern} (h : t.likeTerms = .ok patterns) {a b : Term}
    (hab : [a, b].Sublist t.terms) : (∃ p ∈ patterns, [a.1, b.1].Sublist p.affected) ↔
      ∃ key, key ≠ constantLikeness ∧ likeness a.1 = .ok key ∧ likeness b.1 = .ok key := by
  obtain ⟨groups, hgroups, hreports⟩ := likeTerms_eq_ok_iff.mp h
  have hgrouping : IsGrouping t.terms groups := isGrouping_of_groupTerms isGrouping_nil hgroups
  constructor
  · rintro ⟨p, hp, hsublist⟩
    obtain ⟨g, hg, joined, -, rfl⟩ := exists_of_forall₂ hreports.flip hp
    obtain ⟨hmem, hreported⟩ := List.mem_filter.mp hg
    have hlike {u : Tree} (hu : u ∈ [a.1, b.1]) : likeness u = .ok g.likeness := by
      obtain ⟨term, hterm, rfl⟩ := List.mem_map.mp (hsublist.subset hu)
      rw [hgrouping.members g hmem, List.mem_filter] at hterm
      exact of_decide_eq_true hterm.2
    refine ⟨g.likeness, fun hconstant => ?_, hlike (by simp), hlike (by simp)⟩
    simp [TermGroup.isReported, hconstant] at hreported
  · rintro ⟨key, hkey, ha, hb⟩
    obtain ⟨g, hg, hlikeness⟩ := hgrouping.grouped a (hab.subset (by simp))
    obtain rfl : key = g.likeness := Except.ok.inj (ha.symm.trans hlikeness)
    have hmembers : [a, b].Sublist g.members := by
      have hfiltered := hab.filter fun term => decide (likeness term.1 = .ok g.likeness)
      rwa [List.filter_eq_self.mpr (by simp [ha, hb]), ← hgrouping.members g hg] at hfiltered
    have hreported : g.isReported = true := by
      simpa [TermGroup.isReported, hkey] using hmembers.length_le
    obtain ⟨p, hp, joined, -, rfl⟩ := exists_of_forall₂ hreports (List.mem_filter.mpr ⟨hg, hreported⟩)
    exact ⟨_, hp, hmembers.map _⟩

end AlgebraTutor.Tree
