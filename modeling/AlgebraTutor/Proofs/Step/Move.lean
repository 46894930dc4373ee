import AlgebraTutor.Proofs.Comparable
import AlgebraTutor.Proofs.Step.Failure
import AlgebraTutor.Service.Reply

/-!
# The move to a step that cannot be read

The verdict on a step and the move that led to it are found independently of each other. A submission that cannot be read
has no patterns, so every pattern of the step before it counts as removed, and the move as valid, although the verdict is
that nothing was read. Only behind a step without patterns does the move follow the verdict.
-/

namespace AlgebraTutor

/-! ### Patterns of an unreadable text -/

theorem Input.readAll_of_forall {texts : List String} (h : ∀ text ∈ texts, ∃ t, Tree.ofText text = .ok t) :
    readAll texts = .ok () := by
  induction texts with
  | nil => rfl
  | cons text texts ih =>
    obtain ⟨⟨t, ht⟩, hrest⟩ := List.forall_mem_cons.mp h
    rw [readAll, ht, Answer.ok_bind, ih hrest]

namespace Analysis

theorem forall_of_findingsOf {flag : Bool} {sides : List String} {result : List Pattern × Bool}
    (h : findingsOf flag sides = .ok result) : ∀ side ∈ sides, ∃ t, Tree.ofText side = .ok t := by
  induction sides generalizing flag result with
  | nil => simp
  | cons side sides ih =>
    obtain ⟨t, ht, h⟩ := Answer.bind_eq_ok_iff.mp h
    obtain ⟨found, -, h⟩ := Answer.bind_eq_ok_iff.mp h
    obtain ⟨next, later, hlater⟩ : ∃ next later, findingsOf next sides = .ok later := by
      cases flag
      all_goals
        obtain ⟨next, -, h⟩ := Answer.bind_eq_ok_iff.mp h
        obtain ⟨later, hlater, -⟩ := Answer.bind_eq_ok_iff.mp h
        exact ⟨next, later, hlater⟩
    exact List.forall_mem_cons.mpr ⟨⟨t, ht⟩, ih hlater⟩

/-- What is analysed passes the check. -/
theorem exists_check_of_ofText? {text : String} {a : Analysis} (h : ofText? text = .ok a) :
    ∃ input, Input.check text = .ok input := by
  obtain ⟨input, hinput, h⟩ := Answer.bind_eq_ok_iff.mp h
  obtain ⟨found, hfound, -⟩ := Answer.bind_eq_ok_iff.mp h
  refine ⟨input, ?_⟩
  rw [Input.check, hinput, Answer.ok_bind, Input.readAll_of_forall (forall_of_findingsOf hfound)]
  rfl

theorem kinds_of_check_error {text : String} {failure : Failure} (hcheck : Input.check text = .error failure) :
    (ofText text).kinds = [] := by
  cases hanalysis : ofText? text with
  | error cause => rw [ofText, hanalysis]; rfl
  | ok a =>
    obtain ⟨input, hinput⟩ := exists_check_of_ofText? hanalysis
    simp [hcheck] at hinput

end Analysis

/-! ### Moves -/

namespace Move

variable {previous current : String}

theorem isValid_iff {move : Move} : move.isValid = true ↔ move ≠ .unknown := by
  cases move <;> simp [isValid]

theorem disappeared_nil (kind : Pattern.Kind) (before : List Pattern.Kind) :
    disappeared kind before [] = true ↔ kind ∈ before := by
  simp [disappeared]

/-- From a step to one that has no patterns, a move counts as valid exactly if there was something to do but for the
coefficients, or if the two are equivalent. -/
theorem isValid_between_iff (hkinds : (Analysis.ofText current).kinds = []) :
    (between previous current).isValid = true ↔
      (∃ kind ∈ (Analysis.ofText previous).kinds, kind ≠ .coefficientNormalization) ∨
        equivalent .standard previous current = true := by
  have htelling {before : List Pattern.Kind} : (∃ kind ∈ before, kind ≠ .coefficientNormalization) ↔
      .constantArithmetic ∈ before ∨ .likeTerms ∈ before ∨ .distributive ∈ before := by
    constructor
    · intro ⟨kind, hkind, htelling⟩
      cases kind with
      | constantArithmetic => exact .inl hkind
      | likeTerms => exact .inr (.inl hkind)
      | distributive => exact .inr (.inr hkind)
      | coefficientNormalization => exact absurd rfl htelling
    · intro h
      rcases h with h | h | h
      all_goals exact ⟨_, h, nofun⟩
  rw [isValid_iff, htelling]
  simp only [between, hkinds, disappeared_nil]
  split_ifs <;> simp_all

end Move

/-- An expression that does not pass the check is equivalent to nothing. An equation may be, but only if its sides can be
read as a difference. -/
theorem exists_difference_of_equivalent {previous current : String} {failure : Failure}
    (hcheck : Input.check current = .error failure) (h : equivalent .standard previous current = true) :
    ∃ input left right, Input.ofText current = .ok input ∧ input.equation = some (left, right) ∧
      ∃ t, Tree.ofText (Canonical.differenceText left right) = .ok t := by
  obtain ⟨-, input, hinput, hreadable, -⟩ := areComparable_of_equivalent h
  cases hequation : input.equation with
  | none => simp [Input.check_of_isReadable hinput hequation hreadable] at hcheck
  | some sides =>
    obtain ⟨t, ht⟩ := hreadable
    rw [Canonical.source, hequation] at ht
    exact ⟨input, sides.1, sides.2, hinput, hequation, t, ht⟩

namespace Service

/-! ### Replies to a step -/

/-- The request submits the step. -/
def Request.Submits (r : Request) (c : StepContext) : Prop :=
  ∃ fields q, r.body.bind Datum.fields? = some fields ∧ StepQuery.ofFields? fields = some q ∧ q.context = .ok c

theorem Request.Submits.eq {r : Request} {c d : StepContext} (hc : r.Submits c) (hd : r.Submits d) : c = d := by
  obtain ⟨fields, q, hfields, hq, hcontext⟩ := hc
  obtain ⟨fields', q', hfields', hq', hcontext'⟩ := hd
  obtain rfl := Option.some.inj (hfields.symm.trans hfields')
  obtain rfl := Option.some.inj (hq.symm.trans hq')
  exact Except.ok.inj (hcontext.symm.trans hcontext')

/-- What is said of a step, given its outcome. -/
def StepReply.ofOutcome (c : StepContext) (outcome : Outcome) : StepReply :=
  let a := Analysis.ofText c.submission
  ⟨outcome, a.hints, if c.accepted.isEmpty then none else some (.between c.previous c.submission), !a.isSimplified⟩

theorem Reply.status_ofFailure (failure : Failure) : (ofFailure failure).status ≠ 200 := by
  rw [ofFailure]
  split <;> simp [bad, failed]

theorem StepQuery.status_of_problem_error {q : StepQuery} {reply : Reply} (h : q.problem = .error reply) :
    reply.status ≠ 200 := by
  simp only [problem] at h
  split_ifs at h
  · split at h <;> cases h
    simp [Reply.unknownProblem, Reply.notFound]
  · cases h
    simp [Reply.bad]
  · split at h <;> cases h
    exact Reply.status_ofFailure _

theorem StepQuery.status_of_context_error {q : StepQuery} {reply : Reply} (h : q.context = .error reply) :
    reply.status ≠ 200 := by
  cases hproblem : q.problem with
  | error reply' =>
    rw [context, hproblem] at h
    cases h
    exact status_of_problem_error hproblem
  | ok p =>
    cases hcontext : StepContext.ofHistory p q.history q.submission with
    | ok c => simp [context, hproblem, hcontext, bind, Except.bind, pure, Except.pure] at h
    | error failure =>
      obtain rfl : Reply.ofFailure failure = reply := by simpa [context, hproblem, hcontext, bind, Except.bind] using h
      exact Reply.status_ofFailure _

theorem StepQuery.judge_of_context {q : StepQuery} {c : StepContext} {o : Outcome} (hcontext : q.context = .ok c)
    (hjudge : c.judge = .ok o) : q.judge = .ok (.step (.ofOutcome c o)) := by
  rw [judge, hcontext]
  simp only [hjudge]
  rfl

theorem StepQuery.judge_eq_step_iff {q : StepQuery} {answer : StepReply} :
    q.judge = .ok (.step answer) ↔ ∃ c o, q.context = .ok c ∧ c.judge = .ok o ∧ answer = .ofOutcome c o := by
  constructor
  · intro h
    cases hcontext : q.context with
    | error reply =>
      rw [judge, hcontext] at h
      exact absurd (congrArg Reply.status h) (status_of_context_error hcontext)
    | ok c =>
      cases hjudge : c.judge with
      | error failure => simp [judge, hcontext, hjudge, Reply.failed, Reply.ok] at h
      | ok o =>
        rw [judge_of_context hcontext hjudge] at h
        cases h
        exact ⟨c, o, rfl, hjudge, rfl⟩
  · intro ⟨c, o, hcontext, hjudge, hanswer⟩
    rw [hanswer, judge_of_context hcontext hjudge]

theorem nextSteps_ne_step {q : StepQuery} {answer : StepReply} : q.nextSteps ≠ .ok (.step answer) := by
  intro h
  rw [StepQuery.nextSteps] at h
  cases hcontext : q.context with
  | error reply =>
    simp only [hcontext] at h
    exact StepQuery.status_of_context_error hcontext (congrArg Reply.status h)
  | ok c => simp [hcontext, Reply.ok] at h

/-- Only one route answers with a step. -/
theorem replyToPost_eq_step_iff {route : Route} {fields : Fields} {answer : StepReply} :
    replyToPost route fields = .ok (.step answer) ↔
      route = .validateStep ∧ ∃ q, StepQuery.ofFields? fields = some q ∧ q.judge = .ok (.step answer) := by
  cases route with
  | validateStep =>
    cases hq : StepQuery.ofFields? fields <;> simp [replyToPost, hq, Reply.unprocessable, Reply.ok]
  | nextSteps =>
    cases hq : StepQuery.ofFields? fields <;> simp [replyToPost, hq, Reply.unprocessable, Reply.ok]
    exact nextSteps_ne_step
  | analyze =>
    cases hexpression : fields.requiredText? "expression" with
    | none => simp [replyToPost, hexpression, Reply.unprocessable, Reply.ok]
    | some expression =>
      simp only [replyToPost, hexpression, Option.map_some, Option.getD_some, analysisReply]
      split_ifs <;> simp [Reply.bad, Reply.ok]
  | equivalent =>
    cases hfirst : fields.requiredText? "first" <;> cases hsecond : fields.requiredText? "second" <;>
      simp [replyToPost, hfirst, hsecond, Reply.unprocessable, Reply.ok]
  | problems => simp [replyToPost, Reply.methodNotAllowed, Reply.ok]
  | problem id => simp [replyToPost, Reply.methodNotAllowed, Reply.ok]

theorem problemsFor_ne_step {query : List (String × String)} {answer : StepReply} :
    problemsFor query ≠ .ok (.step answer) := by
  rw [problemsFor]
  split
  · simp [Reply.ok]
  · split <;> simp [Reply.ok, Reply.unprocessable]

theorem isPosted_of_reply {r : Request} {answer : StepReply} (h : reply r = .ok (.step answer)) :
    ∃ route, Route.find? r.path.toList = some route ∧ route.isPosted = true ∧ r.method = "POST" := by
  rw [reply] at h
  cases hroute : Route.find? r.path.toList with
  | none => simp [hroute, Reply.notFound, Reply.ok] at h
  | some route =>
    simp only [hroute] at h
    split_ifs at h with hposted hmethod hmethod
    · simp [Reply.methodNotAllowed, Reply.ok] at h
    · exact ⟨route, rfl, hposted, not_not.mp hmethod⟩
    · simp [Reply.methodNotAllowed, Reply.ok] at h
    · split at h
      · split at h <;> simp [Reply.ok, Reply.unknownProblem, Reply.notFound] at h
      · exact absurd h problemsFor_ne_step

/-- A step is answered exactly if it is posted to its route and can be judged. -/
theorem reply_eq_step_iff {r : Request} {answer : StepReply} :
    reply r = .ok (.step answer) ↔ Route.find? r.path.toList = some .validateStep ∧ r.method = "POST" ∧
      ∃ c o, r.Submits c ∧ c.judge = .ok o ∧ answer = .ofOutcome c o := by
  have hposted {route : Route} (hroute : Route.find? r.path.toList = some route) (hisPosted : route.isPosted = true)
      (hmethod : r.method = "POST") : reply r = .ok (.step answer) ↔
        ∃ fields, r.body.bind Datum.fields? = some fields ∧ replyToPost route fields = .ok (.step answer) := by
    rw [reply, hroute]
    cases r.body.bind Datum.fields? <;> simp [hisPosted, hmethod, Reply.unprocessable, Reply.ok]
  constructor
  · intro h
    obtain ⟨route, hroute, hisPosted, hmethod⟩ := isPosted_of_reply h
    obtain ⟨fields, hfields, hanswer⟩ := (hposted hroute hisPosted hmethod).mp h
    obtain ⟨rfl, q, hq, hanswer⟩ := replyToPost_eq_step_iff.mp hanswer
    obtain ⟨c, o, hcontext, hjudge, hanswer⟩ := StepQuery.judge_eq_step_iff.mp hanswer
    exact ⟨hroute, hmethod, c, o, ⟨fields, q, hfields, hq, hcontext⟩, hjudge, hanswer⟩
  · intro ⟨hroute, hmethod, c, o, ⟨fields, q, hfields, hq, hcontext⟩, hjudge, hanswer⟩
    refine (hposted hroute rfl hmethod).mpr ⟨fields, hfields, replyToPost_eq_step_iff.mpr ⟨rfl, q, hq, ?_⟩⟩
    exact StepQuery.judge_eq_step_iff.mpr ⟨c, o, hcontext, hjudge, hanswer⟩

/-- Where the submission cannot be read, a move is named exactly if a step has been accepted before it, and follows the
verdict, in that it is not valid, exactly if the step before it has at most coefficients to tidy and is not equivalent to
it. An expression that cannot be read is equivalent to nothing, so only the patterns of the step before it can make the move
valid. -/
theorem move_of_unreadable {r : Request} {answer : StepReply} (hreply : reply r = .ok (.step answer))
    (hverdict : answer.outcome.verdict = .parsingError) :
    ∃ c failure, r.Submits c ∧ Input.check c.submission = .error failure ∧ (answer.move = none ↔ c.accepted = []) ∧
      ∀ move, answer.move = some move →
        (move.isValid = true ↔ (∃ kind ∈ (Analysis.ofText c.previous).kinds, kind ≠ .coefficientNormalization) ∨
          equivalent .standard c.previous c.submission = true) ∧
        (equivalent .standard c.previous c.submission = true →
          ∃ input left right, Input.ofText c.submission = .ok input ∧ input.equation = some (left, right) ∧
            ∃ t, Tree.ofText (Canonical.differenceText left right) = .ok t) := by
  obtain ⟨-, -, c, o, hsubmits, hjudge, hanswer⟩ := reply_eq_step_iff.mp hreply
  rw [hanswer] at hverdict
  obtain ⟨failure, hcheck⟩ := (StepContext.verdict_eq_parsingError_iff hjudge).mp hverdict
  have hmove : answer.move = if c.accepted.isEmpty then none else some (.between c.previous c.submission) := by
    rw [hanswer, StepReply.ofOutcome]
  refine ⟨c, failure, hsubmits, hcheck, ?_, ?_⟩
  · simp [hmove]
  · intro move hsome
    obtain ⟨-, rfl⟩ : ¬c.accepted.isEmpty = true ∧ Move.between c.previous c.submission = move := by simpa [hmove] using hsome
    exact ⟨Move.isValid_between_iff (Analysis.kinds_of_check_error hcheck), exists_difference_of_equivalent hcheck⟩

/-! ### Submissions behind one accepted step -/

/-- The request that submits a text behind an accepted step to a library problem. -/
def Request.behind (accepted submission : String) : Request :=
  ⟨"POST", "/api/validate-step", [], some (.record [("problem_id", .text "solve-004"),
    ("user_history", .list [.text "Solve for x: 2x + 5 = 11", .text accepted]), ("student_input", .text submission)])⟩

theorem Request.submits_behind (accepted submission : String) :
    (behind accepted submission).Submits ⟨Library.twoStep, "Solve for x: 2x + 5 = 11", [accepted], submission⟩ := by
  let q : StepQuery := ⟨some "solve-004", none, [], ["Solve for x: 2x + 5 = 11", accepted], submission⟩
  have hfind : Library.find? "solve-004" = some Library.twoStep := (Option.some_get _).symm
  have hproblem : q.problem = .ok Library.twoStep := by simp [q, StepQuery.problem, hfind]
  have hstatement : Text.trim "Solve for x: 2x + 5 = 11" = Text.trim Library.twoStep.statement := rfl
  refine ⟨_, q, rfl, rfl, ?_⟩
  rw [StepQuery.context, hproblem]
  simp [q, StepContext.ofHistory, hstatement]
  rfl

/-- The answer to a submission behind an accepted step: that the submission cannot be read, and the move to it. -/
structure IsUnreadableBehind (accepted submission : String) (answer : StepReply) : Prop where
  reply_eq : reply (.behind accepted submission) = .ok (.step answer)
  verdict_eq : answer.outcome.verdict = .parsingError
  move_eq : answer.move = some (.between accepted submission)

theorem exists_isUnreadableBehind (accepted : String) {submission : String} {failure : Failure}
    (hcheck : Input.check submission = .error failure) (hinput : failure.isInputError = true) :
    ∃ answer, IsUnreadableBehind accepted submission answer := by
  have hroute : Route.find? "/api/validate-step".toList = some .validateStep := rfl
  have hjudge : StepContext.judge ⟨Library.twoStep, "Solve for x: 2x + 5 = 11", [accepted], submission⟩ =
      .ok (.unreadable failure.message?) := by
    rw [StepContext.judge, hcheck]
    exact if_pos hinput
  exact ⟨_, reply_eq_step_iff.mpr ⟨hroute, rfl, _, _, Request.submits_behind accepted submission, hjudge, rfl⟩, rfl, rfl⟩

/-- A doubled plus cannot be read; still the move to it counts as valid, because the difference in the step before it is gone.
Nor can sides with unbalanced parentheses be read, and the move to them counts as valid, because they are equivalent to the
step before. -/
theorem move_valid_though_unreadable :
    (∃ answer move, reply (.behind "2x = 11 - 5" "2x ++ 5") = .ok (.step answer) ∧
      answer.outcome.verdict = .parsingError ∧ answer.move = some move ∧ move.isValid = true) ∧
    ∃ answer move, reply (.behind "2x = y" "x) + (x = y") = .ok (.step answer) ∧
      answer.outcome.verdict = .parsingError ∧ answer.move = some move ∧ move.isValid = true := by
  have hdoubled : Input.check "2x ++ 5" = .error (.doubledOperator "2x ++ 5") := rfl
  have hunbalanced : Input.check "x) + (x = y" = .error (.unreadable .ungrammatical "x) + (x") := rfl
  obtain ⟨answer, h⟩ := exists_isUnreadableBehind "2x = 11 - 5" hdoubled rfl
  obtain ⟨answer', h'⟩ := exists_isUnreadableBehind "2x = y" hunbalanced rfl
  exact ⟨⟨answer, _, h.reply_eq, h.verdict_eq, h.move_eq, by decide +kernel⟩,
    answer', _, h'.reply_eq, h'.verdict_eq, h'.move_eq, by decide +kernel⟩

/-- Behind a step without patterns, a move to what cannot be read is not valid. -/
theorem move_of_unfinished_equation : ∃ answer move, reply (.behind "2x = 6" "x = ") = .ok (.step answer) ∧
    answer.outcome.verdict = .parsingError ∧ answer.move = some move ∧ ¬move.isValid = true := by
  have hcheck : Input.check "x = " = .error (.emptySide "x = ") := rfl
  obtain ⟨answer, hreply, hverdict, hmove⟩ := exists_isUnreadableBehind "2x = 6" hcheck rfl
  obtain ⟨c, -, hsubmits, -, -, hmoves⟩ := move_of_unreadable hreply hverdict
  obtain rfl := hsubmits.eq (Request.submits_behind _ _)
  obtain ⟨hvalid, -⟩ := hmoves _ hmove
  have hprevious : (Analysis.ofText "2x = 6").kinds = [] ∧ equivalent .standard "2x = 6" "x = " = false := by decide +kernel
  refine ⟨answer, _, hreply, hverdict, hmove, ?_⟩
  rw [hvalid]
  simp [StepContext.previous, StepContext.history, hprevious]

end Service

end AlgebraTutor
