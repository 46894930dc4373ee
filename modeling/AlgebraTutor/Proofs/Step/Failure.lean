import AlgebraTutor.Proofs.Reader.Sixteen
import AlgebraTutor.Proofs.Step.Accepted

/-!
# When a step is not judged

A submission that cannot be read is judged as such, with one exception. A number in another base than ten may be of any
length for the grammar, but it has no value beyond the limit of digits, and that failure is no report about the input. It
passes through the judgement, and it is the only one that does.
-/

namespace AlgebraTutor

/-! ### Reports about an input -/

/-- What would be said of a step whose judgement broke off. -/
def unexpectedMessage : String :=
  "An unexpected error occurred during validation"

theorem head?_append {a : String} {c : Char} (h : a.toList.head? = some c) (b : String) :
    (a ++ b).toList.head? = some c := by
  rw [String.toList_append, List.head?_append, h, Option.some_or]

theorem ne_unexpected_of_head? {s : String} {c : Char} (hs : s.toList.head? = some c) (hc : c ≠ 'A') :
    s ≠ unexpectedMessage := by
  have hunexpected : unexpectedMessage.toList.head? = some 'A' := rfl
  intro heq
  rw [heq, hunexpected] at hs
  exact hc (Option.some.inj hs).symm

theorem ReadError.message_ne_unexpected (cause : ReadError) (text : String) : cause.message text ≠ unexpectedMessage := by
  cases cause with
  | emptyText =>
    exact ne_unexpected_of_head? (s := "Could not parse an empty expression") (c := 'C') rfl (by decide)
  | invalidCharacters found => exact ne_unexpected_of_head? (head?_append (c := 'I') rfl _) (by decide)
  | ungrammatical | noExpression =>
    exact ne_unexpected_of_head? (head?_append (head?_append (c := 'C') rfl _) _) (by decide)
  | unsupportedOperator =>
    exact ne_unexpected_of_head? (head?_append (head?_append (c := 'U') rfl _) _) (by decide)
  | unexpectedName name =>
    refine ne_unexpected_of_head? (head?_append (head?_append (head?_append (head?_append (c := 'U') ?_ _) _) _) _) (by decide)
    rfl
  | missingArgument function =>
    -- the report begins with the name of the function, so its end has to tell it apart
    have hend : "() needs an argument".toList.getLast? = some 't' := rfl
    have hunexpected : unexpectedMessage.toList.getLast? = some 'n' := rfl
    have hreport : (function ++ "() needs an argument").toList.getLast? = some 't' := by
      rw [String.toList_append, List.getLast?_append, hend, Option.some_or]
    intro heq
    have hsame := hreport.symm.trans (congrArg (fun s : String => s.toList.getLast?) heq)
    exact absurd (hsame.trans hunexpected) (by decide)

theorem Failure.message?_ne_unexpected {failure : Failure} (h : failure.isInputError = true) :
    failure.message? ≠ some unexpectedMessage := by
  cases failure with
  | unreadable cause input => exact fun heq => cause.message_ne_unexpected input (Option.some.inj heq)
  | unknownFunction name text =>
    intro heq
    exact ne_unexpected_of_head? (head?_append (head?_append (c := 'U') rfl _) _) (by decide)
      (Option.some.inj heq)
  | emptyInput | doubledOperator | equalsSigns | emptySide | unrepresentable =>
    exact fun heq => absurd (Option.some.inj heq) (by decide +kernel)
  | _ => simp [isInputError] at h

namespace StepContext

/-! ### The judgement -/

theorem verdict_assess_ne_parsingError (c : StepContext) : c.assess.verdict ≠ .parsingError := by
  simp only [assess, Outcome.ofAnalysis]
  split_ifs <;> simp

/-- A failure of the check, which is a report about the input or the limit of digits, decides the judgement. -/
theorem judge_of_check_error {c : StepContext} {failure : Failure} (hcheck : Input.check c.submission = .error failure) :
    (failure.isInputError = true ∧ c.judge = .ok (.unreadable failure.message?)) ∨
      failure = .digitLimit ∧ c.judge = .error .digitLimit := by
  rw [judge, hcheck]
  rcases Input.failure_of_check hcheck with hinput | ⟨rfl, -⟩
  · exact .inl ⟨hinput, if_pos hinput⟩
  · exact .inr ⟨rfl, rfl⟩

/-- All that a judgement can be where there is one. -/
theorem judge_cases {c : StepContext} {o : Outcome} (hjudge : c.judge = .ok o) :
    (o = c.assess ∧ ∃ input, Input.check c.submission = .ok input) ∨
      ∃ failure, Input.check c.submission = .error failure ∧ failure.isInputError = true ∧
        o = .unreadable failure.message? := by
  cases hcheck : Input.check c.submission with
  | ok input => exact .inl ⟨(Except.ok.inj ((judge_of_check hcheck).symm.trans hjudge)).symm, input, rfl⟩
  | error failure =>
    rcases judge_of_check_error hcheck with ⟨hinput, hunreadable⟩ | ⟨-, hlimit⟩
    · exact .inr ⟨failure, rfl, hinput, (Except.ok.inj (hunreadable.symm.trans hjudge)).symm⟩
    · simp [hlimit] at hjudge

theorem verdict_eq_parsingError_iff {c : StepContext} {o : Outcome} (hjudge : c.judge = .ok o) :
    o.verdict = .parsingError ↔ ∃ failure, Input.check c.submission = .error failure := by
  rcases judge_cases hjudge with ⟨rfl, input, hcheck⟩ | ⟨failure, hcheck, -, rfl⟩
  · exact iff_of_false c.verdict_assess_ne_parsingError (by simp [hcheck])
  · exact iff_of_true rfl ⟨failure, hcheck⟩

theorem errorMessage_ne_unexpected {c : StepContext} {o : Outcome} (hjudge : c.judge = .ok o) :
    o.errorMessage ≠ some unexpectedMessage := by
  rcases judge_cases hjudge with ⟨rfl, -⟩ | ⟨failure, -, hinput, rfl⟩
  · exact (Option.some_ne_none unexpectedMessage).symm
  · exact Failure.message?_ne_unexpected hinput

theorem judge_eq_error_iff {c : StepContext} {failure : Failure} :
    c.judge = .error failure ↔ failure = .digitLimit ∧ Input.check c.submission = .error .digitLimit := by
  constructor
  · intro hjudge
    cases hcheck : Input.check c.submission with
    | ok input => simp [judge_of_check hcheck] at hjudge
    | error cause =>
      rcases judge_of_check_error hcheck with ⟨-, hunreadable⟩ | ⟨rfl, hlimit⟩
      · simp [hunreadable] at hjudge
      · exact ⟨(Except.error.inj (hlimit.symm.trans hjudge)).symm, rfl⟩
  · rintro ⟨rfl, hcheck⟩
    rcases judge_of_check_error hcheck with ⟨hinput, -⟩ | ⟨-, hjudge⟩
    · simp [Failure.isInputError] at hinput
    · exact hjudge

/-- A judgement is exact where there is one: the verdict is that of an unreadable submission if and only if the check of it
fails, and no judgement breaks off halfway. There is none only if a number in the submission is beyond the limit of digits,
for which the submission has to be long; no other failure to read a text passes through. -/
theorem judge_exact (c : StepContext) (text : String) :
    (∀ o, c.judge = .ok o →
      (o.verdict = .parsingError ↔ ∃ failure, Input.check c.submission = .error failure) ∧
        o.errorMessage ≠ some unexpectedMessage) ∧
    (∀ failure, c.judge = .error failure ↔ failure = .digitLimit ∧ Input.check c.submission = .error .digitLimit) ∧
    (c.submission.length < Reader.Literal.shortestOverlong → ∃ o, c.judge = .ok o) ∧
    ∀ failure, Tree.ofText text = .error failure →
      (∃ cause input, failure = .unreadable cause input) ∨
        failure = .digitLimit ∧ Reader.Literal.shortestOverlong ≤ text.length := by
  refine ⟨fun o hjudge => ?_, fun _ => judge_eq_error_iff, fun hshort => ?_, fun _ => Tree.failure_of_ofText⟩
  · exact ⟨verdict_eq_parsingError_iff hjudge, errorMessage_ne_unexpected hjudge⟩
  · cases hjudge : c.judge with
    | ok o => exact ⟨o, rfl⟩
    | error failure =>
      obtain ⟨-, hcheck⟩ := judge_eq_error_iff.mp hjudge
      rcases Input.failure_of_check hcheck with hinput | ⟨-, hlong⟩
      · simp [Failure.isInputError] at hinput
      · exact absurd hlong (Nat.not_le.mpr hshort)

/-- A sum without its second operand is judged, and as unreadable. -/
theorem judge_unfinished_sum : ∃ o, (first Library.twoStep "2x + = 6").judge = .ok o ∧ o.verdict = .parsingError ∧
    o.errorMessage ≠ some unexpectedMessage := by
  obtain ⟨hexact, -, htotal, -⟩ := judge_exact (first Library.twoStep "2x + = 6") "2x +"
  obtain ⟨o, hjudge⟩ := htotal (by decide)
  obtain ⟨hverdict, hmessage⟩ := hexact o hjudge
  have hcheck : Input.check "2x + = 6" = .error (.unreadable .ungrammatical "2x +") := by decide +kernel
  exact ⟨o, hjudge, hverdict.mpr ⟨_, hcheck⟩, hmessage⟩

/-- The shortest number beyond the limit of digits, submitted to a library problem: the check of it fails, but no report of
that comes of it. -/
theorem judge_overlong : ∃ overlong : String, overlong = String.ofList ('0' :: 'x' :: List.replicate 3572 '9') ∧
    overlong.length = Reader.Literal.shortestOverlong ∧ Input.check overlong = .error .digitLimit ∧
    (first Library.twoStep overlong).judge = .error .digitLimit ∧
    ¬∃ o, (first Library.twoStep overlong).judge = .ok o := by
  -- the number of nines stays a variable, so that nothing spells them out
  obtain ⟨n, hn⟩ : ∃ n, n = 3572 := ⟨_, rfl⟩
  have hcheck := @Input.check_nines n (Nat.le_of_eq hn.symm)
  have hlength := Reader.length_sixteenChars (List.replicate n '9')
  rw [List.length_replicate] at hlength
  have hjudge := (@judge_eq_error_iff (first Library.twoStep _) .digitLimit).mpr ⟨rfl, hcheck⟩
  rw [← hn]
  refine ⟨_, rfl, hlength.trans (by rw [hn]; rfl), hcheck, hjudge, ?_⟩
  rintro ⟨o, ho⟩
  exact absurd (hjudge.symm.trans ho) (by simp)

end StepContext

end AlgebraTutor
