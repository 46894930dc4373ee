import Mathlib.Data.List.Count
import AlgebraTutor.Pattern.Basic
import AlgebraTutor.Proofs.Answer

/-!
# Like terms

Grouping counts the terms of each likeness, so no like terms are found exactly if each likeness but that of the numbers occurs
once at most.
-/

namespace AlgebraTutor.Tree

/-- The terms have the likenesses. -/
def HaveLikenesses (terms : List Term) (keys : List String) : Prop :=
  List.Forall₂ (fun term key => likeness term.1 = .ok key) terms keys

theorem rightUnique_likeness : Relator.RightUnique fun (term : Term) key => likeness term.1 = .ok key :=
  fun _ _ _ h h' => Except.ok.inj (h.symm.trans h')

/-! ### Groups -/

/-- The number of terms in groups of a likeness. -/
def countLike (key : String) (groups : List TermGroup) : Nat :=
  (groups.flatMap fun g => if g.likeness = key then g.members else []).length

theorem countLike_cons (key : String) (g : TermGroup) (groups : List TermGroup) :
    countLike key (g :: groups) = (if g.likeness = key then g.members.length else 0) + countLike key groups := by
  rw [countLike, List.flatMap_cons, List.length_append, apply_ite List.length, List.length_nil]
  rfl

/-- No two groups have one likeness. -/
def AreDistinct (groups : List TermGroup) : Prop :=
  (groups.map (·.likeness)).Nodup

theorem areDistinct_nil : AreDistinct [] :=
  List.nodup_nil

theorem countLike_insertTerm (key key' : String) (term : Term) (groups : List TermGroup) :
    countLike key (insertTerm key' term groups) = countLike key groups + if key' = key then 1 else 0 := by
  induction groups with
  | nil => rw [insertTerm, countLike_cons, List.length_singleton, Nat.add_comm]
  | cons g groups ih =>
    unfold insertTerm
    split_ifs with hsame hkey hkey
    · subst hsame hkey
      rw [countLike_cons, countLike_cons, if_pos rfl, if_pos rfl, List.length_append, List.length_singleton]
      omega
    · subst hsame
      rw [countLike_cons, countLike_cons, if_neg hkey, if_neg hkey, Nat.add_zero]
    · rw [countLike_cons, countLike_cons, ih, if_pos hkey, Nat.add_assoc]
    · rw [countLike_cons, countLike_cons, ih, if_neg hkey, Nat.add_zero, Nat.add_zero]

theorem mem_likeness_insertTerm {key k : String} {term : Term} {groups : List TermGroup} :
    k ∈ (insertTerm key term groups).map (·.likeness) ↔ k = key ∨ k ∈ groups.map (·.likeness) := by
  induction groups with
  | nil => simp [insertTerm]
  | cons g groups ih =>
    unfold insertTerm
    split_ifs with hsame
    · simp [hsame]
    · rw [List.map_cons, List.mem_cons, ih, List.map_cons, List.mem_cons, or_left_comm]

theorem areDistinct_insertTerm {key : String} {term : Term} {groups : List TermGroup} (h : AreDistinct groups) :
    AreDistinct (insertTerm key term groups) := by
  induction groups with
  | nil => simp [insertTerm, AreDistinct]
  | cons g groups ih =>
    obtain ⟨hnew, hgroups⟩ := List.nodup_cons.mp h
    unfold insertTerm
    split_ifs with hsame
    · exact hsame ▸ h
    · refine List.nodup_cons.mpr ⟨fun hmem => ?_, ih hgroups⟩
      exact (mem_likeness_insertTerm.mp hmem).elim hsame hnew

/-- Grouping counts the terms of each likeness. -/
theorem exists_groupTerms {terms : List Term} {keys : List String} (h : HaveLikenesses terms keys) {groups : List TermGroup}
    (hdistinct : AreDistinct groups) : ∃ result, groupTerms groups terms = .ok result ∧ AreDistinct result ∧
      ∀ key, countLike key result = countLike key groups + keys.count key := by
  induction h generalizing groups with
  | nil => exact ⟨groups, rfl, hdistinct, fun _ => rfl⟩
  | @cons term key terms keys hkey _ ih =>
    have hinserted : AreDistinct (insertTerm key term groups) := areDistinct_insertTerm hdistinct
    obtain ⟨result, hresult, hresultDistinct, hcount⟩ := ih hinserted
    refine ⟨result, by rw [groupTerms, hkey, Answer.ok_bind, hresult], hresultDistinct, fun k => ?_⟩
    rw [hcount, countLike_insertTerm, List.count_cons]
    simp only [beq_iff_eq]
    omega

theorem exists_haveLikenesses {groups result : List TermGroup} {terms : List Term} (h : groupTerms groups terms = .ok result) :
    ∃ keys, HaveLikenesses terms keys := by
  induction terms generalizing groups with
  | nil => exact ⟨[], .nil⟩
  | cons term terms ih =>
    obtain ⟨key, hkey, h⟩ := Answer.bind_eq_ok_iff.mp h
    obtain ⟨keys, hkeys⟩ := ih h
    exact ⟨key :: keys, .cons hkey hkeys⟩

theorem likeTermPatterns_eq_nil_iff {groups : List TermGroup} :
    likeTermPatterns groups = .ok [] ↔ ∀ g ∈ groups, g.likeness = constantLikeness ∨ g.members.length < 2 := by
  induction groups with
  | nil => simp [likeTermPatterns]
  | cons g groups ih =>
    rw [likeTermPatterns, List.forall_mem_cons]
    split_ifs with hfew
    · rw [ih, and_iff_right hfew]
    · refine iff_of_false (fun h => ?_) fun h => hfew h.1
      simp [Answer.bind_eq_ok_iff] at h

theorem countLike_eq_zero {key : String} {groups : List TermGroup} (hkey : key ∉ groups.map (·.likeness)) :
    countLike key groups = 0 := by
  induction groups with
  | nil => rfl
  | cons g groups ih =>
    rw [List.map_cons, List.mem_cons, not_or] at hkey
    rw [countLike_cons, if_neg (Ne.symm hkey.1), ih hkey.2]

theorem countLike_eq_length {groups : List TermGroup} (hdistinct : AreDistinct groups) {g : TermGroup} (hg : g ∈ groups) :
    countLike g.likeness groups = g.members.length := by
  induction groups with
  | nil => simp at hg
  | cons h groups ih =>
    obtain ⟨hnew, hgroups⟩ := List.nodup_cons.mp hdistinct
    rcases List.mem_cons.mp hg with rfl | hg
    · rw [countLike_cons, if_pos rfl, countLike_eq_zero hnew, Nat.add_zero]
    · have hne : h.likeness ≠ g.likeness := fun heq => hnew (List.mem_map.mpr ⟨g, hg, heq.symm⟩)
      rw [countLike_cons, if_neg hne, Nat.zero_add, ih hgroups hg]

/-! ### The detector -/

/-- No like terms are found exactly if each likeness but that of the numbers occurs once at most. -/
theorem likeTerms_eq_nil_iff {t : Tree} :
    t.likeTerms = .ok [] ↔ ∃ keys, HaveLikenesses t.terms keys ∧ ∀ key, key ≠ constantLikeness → keys.count key ≤ 1 := by
  have hempty (key : String) : countLike key [] = 0 := rfl
  constructor
  · intro h
    obtain ⟨groups, hgroups, hpatterns⟩ := Answer.bind_eq_ok_iff.mp h
    obtain ⟨keys, hkeys⟩ := exists_haveLikenesses hgroups
    obtain ⟨result, hresult, hdistinct, hcount⟩ := exists_groupTerms hkeys areDistinct_nil
    obtain rfl := Except.ok.inj (hgroups.symm.trans hresult)
    refine ⟨keys, hkeys, fun key hne => ?_⟩
    rw [← Nat.zero_add (keys.count key), ← hempty key, ← hcount]
    by_cases hkey : key ∈ groups.map (·.likeness)
    · obtain ⟨g, hg, rfl⟩ := List.mem_map.mp hkey
      rw [countLike_eq_length hdistinct hg]
      exact Nat.le_of_lt_succ ((likeTermPatterns_eq_nil_iff.mp hpatterns g hg).resolve_left hne)
    · rw [countLike_eq_zero hkey]
      exact Nat.zero_le 1
  · rintro ⟨keys, hkeys, hcounts⟩
    obtain ⟨groups, hgroups, hdistinct, hcount⟩ := exists_groupTerms hkeys areDistinct_nil
    rw [likeTerms, hgroups, Answer.ok_bind, likeTermPatterns_eq_nil_iff]
    intro g hg
    refine or_iff_not_imp_left.mpr fun hne => Nat.lt_succ_of_le ?_
    rw [← countLike_eq_length hdistinct hg, hcount, hempty, Nat.zero_add]
    exact hcounts g.likeness hne

end AlgebraTutor.Tree
