import AlgebraTutor.Proofs.Reader.Derivation

/-!
# The literals of a phrase

A phrase holds no literal that was not among its tokens, also if it is none that an expression comes of, and every literal
in it is well formed. The parsing functions call each other with less and less fuel, so the proof goes by induction on the
fuel, for all of them at once.
-/

namespace AlgebraTutor.Reader.Phrase

/-- Every literal among the tokens satisfies `P`. -/
def AllLiterals (P : Literal → Prop) (ts : List Token) : Prop :=
  ∀ l, .literal l ∈ ts → P l

section

variable {P : Literal → Prop} {ts us : List Token}

theorem AllLiterals.tail {t : Token} (h : AllLiterals P (t :: ts)) : AllLiterals P ts :=
  fun l hl => h l (List.mem_cons_of_mem t hl)

theorem allLiterals_nil : AllLiterals P [] :=
  fun _ hl => absurd hl List.not_mem_nil

theorem allLiterals_append : AllLiterals P (ts ++ us) ↔ AllLiterals P ts ∧ AllLiterals P us := by
  simp only [AllLiterals, List.mem_append, or_imp, forall_and]

theorem allLiterals_reverse_leaves {ps : List Phrase} (h : AllLiterals P (leavesAll ps)) :
    AllLiterals P (leavesAll ps.reverse) := by
  intro l hl
  obtain ⟨p, hp, hmem⟩ := mem_leavesAll.mp hl
  exact h l (mem_leavesAll.mpr ⟨p, List.mem_reverse.mp hp, hmem⟩)

end

/-- The literal satisfies `P` and is well formed. -/
def Admitted (P : Literal → Prop) (l : Literal) : Prop :=
  P l ∧ l.isWellFormed = true

/-- The literals of the phrase are admitted, and those of the rest satisfy `P`. -/
def Passes (P : Literal → Prop) (p : Phrase) (rest : List Token) : Prop :=
  AllLiterals (Admitted P) p.leaves ∧ AllLiterals P rest

/-- What the parsing functions find with some fuel has no literal that was not there. -/
structure Traced (P : Literal → Prop) (n : Nat) : Prop where
  sum : ∀ {ts p rest}, sum? n ts = some (p, rest) → AllLiterals P ts → Passes P p rest
  sumTail : ∀ {left ts p rest}, sumTail? n left ts = some (p, rest) → Passes P left ts → Passes P p rest
  product : ∀ {ts p rest}, product? n ts = some (p, rest) → AllLiterals P ts → Passes P p rest
  productTail : ∀ {left ts p rest}, productTail? n left ts = some (p, rest) → Passes P left ts → Passes P p rest
  factor : ∀ {ts p rest}, factor? n ts = some (p, rest) → AllLiterals P ts → Passes P p rest
  atom : ∀ {ts p rest}, atom? n ts = some (p, rest) → AllLiterals P ts → Passes P p rest
  element : ∀ {ts p isStarred rest}, element? n ts = some (p, isStarred, rest) → AllLiterals P ts → Passes P p rest
  listTail : ∀ {ts rest}, listTail? n ts = some rest → AllLiterals P ts → AllLiterals P rest
  callTail : ∀ {callee ts p rest}, callTail? n callee ts = some (p, rest) → Passes P callee ts → Passes P p rest
  args : ∀ {found hasSpread ts args isSpread rest}, args? n found hasSpread ts = some (args, isSpread, rest) →
    AllLiterals (Admitted P) (leavesAll found) → AllLiterals P ts →
    AllLiterals (Admitted P) (leavesAll args) ∧ AllLiterals P rest

section Step

variable {P : Literal → Prop} {n : Nat} (ih : Traced P n) {ts rest : List Token} {p : Phrase}

theorem passes_other (hrest : AllLiterals P rest) : Passes P .other rest :=
  ⟨allLiterals_nil, hrest⟩

theorem passes_binary {op : Operation} {left : Phrase} (hleft : AllLiterals (Admitted P) left.leaves)
    (hright : Passes P p rest) : Passes P (.binary op left p) rest :=
  ⟨allLiterals_append.mpr ⟨hleft, hright.1⟩, hright.2⟩

theorem allLiterals_applied {callee : Phrase} {args : List Phrase} {hasSpread : Bool}
    (hargs : AllLiterals (Admitted P) (leavesAll args)) : AllLiterals (Admitted P) (applied callee args hasSpread).leaves := by
  unfold applied
  split
  · split
    · exact allLiterals_nil
    · intro l hl
      exact hargs l (by simpa [leaves] using hl)
  · exact allLiterals_nil

include ih

theorem traced_sumTail {left : Phrase} (hread : sumTail? (n + 1) left ts = some (p, rest)) (hleft : Passes P left ts) :
    Passes P p rest := by
  cases ts with
  | nil =>
    obtain ⟨rfl, rfl⟩ := Prod.mk.inj (Option.some.inj hread)
    exact hleft
  | cons t ts =>
    simp only [sumTail?] at hread
    split at hread
    · obtain ⟨⟨right, mid⟩, hright, hrest⟩ := Option.bind_eq_some_iff.mp hread
      exact ih.sumTail hrest (passes_binary hleft.1 (ih.product hright hleft.2.tail))
    · obtain ⟨rfl, rfl⟩ := Prod.mk.inj (Option.some.inj hread)
      exact hleft

theorem traced_productTail {left : Phrase} (hread : productTail? (n + 1) left ts = some (p, rest))
    (hleft : Passes P left ts) : Passes P p rest := by
  cases ts with
  | nil =>
    obtain ⟨rfl, rfl⟩ := Prod.mk.inj (Option.some.inj hread)
    exact hleft
  | cons t ts =>
    simp only [productTail?] at hread
    split at hread
    · obtain ⟨⟨right, mid⟩, hright, hrest⟩ := Option.bind_eq_some_iff.mp hread
      exact ih.productTail hrest (passes_binary hleft.1 (ih.factor hright hleft.2.tail))
    · obtain ⟨rfl, rfl⟩ := Prod.mk.inj (Option.some.inj hread)
      exact hleft

theorem traced_factor (hread : factor? (n + 1) ts = some (p, rest)) (hts : AllLiterals P ts) : Passes P p rest := by
  unfold factor? at hread
  split at hread
  case h_1 => simp at hread
  case h_2 k ts hk =>
    obtain rfl := Nat.succ.inj hk
    obtain ⟨⟨q, more⟩, hfactor, heq⟩ := Option.map_eq_some_iff.mp hread
    obtain ⟨rfl, rfl⟩ := Prod.mk.inj heq
    have hoperand := ih.factor hfactor hts.tail
    exact ⟨hoperand.1, hoperand.2⟩
  case h_3 k ts hk =>
    obtain rfl := Nat.succ.inj hk
    obtain ⟨⟨q, more⟩, hfactor, heq⟩ := Option.map_eq_some_iff.mp hread
    obtain ⟨rfl, rfl⟩ := Prod.mk.inj heq
    have hoperand := ih.factor hfactor hts.tail
    exact ⟨hoperand.1, hoperand.2⟩
  case h_4 ts _ _ k hk _ _ =>
    obtain rfl := Nat.succ.inj hk
    obtain ⟨⟨b, mid⟩, hatom, hread⟩ := Option.bind_eq_some_iff.mp hread
    obtain ⟨⟨b', mid'⟩, hcalls, hread⟩ := Option.bind_eq_some_iff.mp hread
    have hbase := ih.callTail hcalls (ih.atom hatom hts)
    simp only at hread
    split at hread
    · obtain ⟨⟨e, more⟩, hexponent, heq⟩ := Option.map_eq_some_iff.mp hread
      obtain ⟨rfl, rfl⟩ := Prod.mk.inj heq
      exact passes_binary hbase.1 (ih.factor hexponent hbase.2.tail)
    · obtain ⟨rfl, rfl⟩ := Prod.mk.inj (Option.some.inj hread)
      exact hbase

theorem traced_atom (hread : atom? (n + 1) ts = some (p, rest)) (hts : AllLiterals P ts) : Passes P p rest := by
  unfold atom? at hread
  split at hread
  case h_1 => simp at hread
  case h_2 =>
    obtain ⟨rfl, rfl⟩ := Prod.mk.inj (Option.some.inj hread)
    exact ⟨by simp [AllLiterals, leaves], hts.tail⟩
  case h_3 l ts _ =>
    split at hread
    · rename_i hform
      obtain ⟨rfl, rfl⟩ := Prod.mk.inj (Option.some.inj hread)
      refine ⟨fun l' hl' => ?_, hts.tail⟩
      obtain rfl : l' = l := by simpa [leaves] using hl'
      exact ⟨hts l' List.mem_cons_self, hform⟩
    · simp at hread
  case h_4 =>
    obtain ⟨rfl, rfl⟩ := Prod.mk.inj (Option.some.inj hread)
    exact ⟨by simp [AllLiterals, leaves], hts.tail⟩
  case h_5 =>
    obtain ⟨rfl, rfl⟩ := Prod.mk.inj (Option.some.inj hread)
    exact passes_other hts.tail
  case h_6 =>
    obtain ⟨rfl, rfl⟩ := Prod.mk.inj (Option.some.inj hread)
    exact passes_other hts.tail.tail
  case h_7 k ts hk =>
    obtain rfl := Nat.succ.inj hk
    obtain ⟨⟨q, isStarred, more⟩, helement, hclosing⟩ := Option.bind_eq_some_iff.mp hread
    have hfirst := ih.element helement hts.tail
    simp only at hclosing
    split at hclosing
    · split at hclosing
      · simp at hclosing
      · obtain ⟨rfl, rfl⟩ := Prod.mk.inj (Option.some.inj hclosing)
        exact ⟨hfirst.1, hfirst.2.tail⟩
    · obtain ⟨mid, hlist, heq⟩ := Option.map_eq_some_iff.mp hclosing
      obtain ⟨rfl, rfl⟩ := Prod.mk.inj heq
      exact passes_other (ih.listTail hlist hfirst.2.tail)
    · simp at hclosing
  case h_8 => simp at hread

theorem traced_element {isStarred : Bool} (hread : element? (n + 1) ts = some (p, isStarred, rest))
    (hts : AllLiterals P ts) : Passes P p rest := by
  unfold element? at hread
  split at hread
  case h_1 => simp at hread
  case h_2 k ts hk =>
    obtain rfl := Nat.succ.inj hk
    obtain ⟨⟨q, more⟩, hsum, heq⟩ := Option.map_eq_some_iff.mp hread
    obtain ⟨rfl, -, rfl⟩ : Phrase.other = p ∧ true = isStarred ∧ more = rest := by simpa using heq
    exact passes_other (ih.sum hsum hts.tail).2
  case h_3 k hk _ =>
    obtain rfl := Nat.succ.inj hk
    obtain ⟨⟨q, more⟩, hsum, heq⟩ := Option.map_eq_some_iff.mp hread
    obtain ⟨rfl, -, rfl⟩ : q = p ∧ false = isStarred ∧ more = rest := by simpa using heq
    exact ih.sum hsum hts

theorem traced_listTail (hread : listTail? (n + 1) ts = some rest) (hts : AllLiterals P ts) : AllLiterals P rest := by
  unfold listTail? at hread
  split at hread
  case h_1 => simp at hread
  case h_2 =>
    obtain rfl := Option.some.inj hread
    exact hts.tail
  case h_3 k hk _ =>
    obtain rfl := Nat.succ.inj hk
    obtain ⟨⟨q, isStarred, more⟩, helement, hclosing⟩ := Option.bind_eq_some_iff.mp hread
    have hfirst := (ih.element helement hts).2
    simp only at hclosing
    split at hclosing
    · obtain rfl := Option.some.inj hclosing
      exact hfirst.tail
    · exact ih.listTail hclosing hfirst.tail
    · simp at hclosing

theorem traced_callTail {callee : Phrase} (hread : callTail? (n + 1) callee ts = some (p, rest))
    (hcallee : Passes P callee ts) : Passes P p rest := by
  unfold callTail? at hread
  split at hread
  case h_1 => simp at hread
  case h_2 k _ _ _ hk =>
    obtain rfl := Nat.succ.inj hk
    exact ih.callTail hread (passes_other hcallee.2.tail.tail)
  case h_3 => simp at hread
  case h_4 k _ hk =>
    obtain rfl := Nat.succ.inj hk
    exact ih.callTail hread ⟨allLiterals_applied allLiterals_nil, hcallee.2.tail.tail⟩
  case h_5 k _ _ hk =>
    obtain rfl := Nat.succ.inj hk
    obtain ⟨⟨args, hasSpread, more⟩, hargs, hcalls⟩ := Option.bind_eq_some_iff.mp hread
    have hfound := ih.args hargs allLiterals_nil hcallee.2.tail
    exact ih.callTail hcalls ⟨allLiterals_applied hfound.1, hfound.2⟩
  case h_6 =>
    obtain ⟨rfl, rfl⟩ := Prod.mk.inj (Option.some.inj hread)
    exact hcallee

theorem traced_afterArg {found args : List Phrase} {hasSpread isSpread : Bool}
    (hread : afterArg n found hasSpread ts = some (args, isSpread, rest))
    (hfound : AllLiterals (Admitted P) (leavesAll found)) (hts : AllLiterals P ts) :
    AllLiterals (Admitted P) (leavesAll args) ∧ AllLiterals P rest := by
  unfold afterArg at hread
  split at hread
  · obtain ⟨rfl, -, rfl⟩ : found.reverse = args ∧ hasSpread = isSpread ∧ _ = rest := by simpa using hread
    exact ⟨allLiterals_reverse_leaves hfound, hts.tail⟩
  · obtain ⟨rfl, -, rfl⟩ : found.reverse = args ∧ hasSpread = isSpread ∧ _ = rest := by simpa using hread
    exact ⟨allLiterals_reverse_leaves hfound, hts.tail.tail⟩
  · exact ih.args hread hfound hts.tail
  · simp at hread

theorem traced_args {found args : List Phrase} {hasSpread isSpread : Bool}
    (hread : args? (n + 1) found hasSpread ts = some (args, isSpread, rest))
    (hfound : AllLiterals (Admitted P) (leavesAll found)) (hts : AllLiterals P ts) :
    AllLiterals (Admitted P) (leavesAll args) ∧ AllLiterals P rest := by
  rw [args?.eq_def] at hread
  simp only at hread
  split at hread
  · obtain ⟨⟨q, more⟩, hsum, hnext⟩ := Option.bind_eq_some_iff.mp hread
    exact traced_afterArg ih hnext hfound (ih.sum hsum hts.tail).2
  · split at hread
    · simp at hread
    · obtain ⟨⟨q, more⟩, hsum, hnext⟩ := Option.bind_eq_some_iff.mp hread
      exact traced_afterArg ih hnext hfound (ih.sum hsum hts.tail).2
  · split at hread
    · simp at hread
    · obtain ⟨⟨q, more⟩, hsum, hnext⟩ := Option.bind_eq_some_iff.mp hread
      have hfirst := ih.sum hsum hts
      exact traced_afterArg ih hnext (allLiterals_append.mpr ⟨hfirst.1, hfound⟩) hfirst.2

end Step

theorem traced (P : Literal → Prop) (n : Nat) : Traced P n := by
  induction n with
  | zero =>
    constructor <;> intros <;>
      simp_all [sum?, sumTail?, product?, productTail?, factor?, atom?, element?, listTail?, callTail?, args?]
  | succ n ih =>
    constructor
    case sum =>
      intro ts p rest hread hts
      obtain ⟨⟨left, mid⟩, hfirst, hrest⟩ := Option.bind_eq_some_iff.mp hread
      exact ih.sumTail hrest (ih.product hfirst hts)
    case sumTail => exact traced_sumTail ih
    case product =>
      intro ts p rest hread hts
      obtain ⟨⟨left, mid⟩, hfirst, hrest⟩ := Option.bind_eq_some_iff.mp hread
      exact ih.productTail hrest (ih.factor hfirst hts)
    case productTail => exact traced_productTail ih
    case factor => exact traced_factor ih
    case atom => exact traced_atom ih
    case element => exact traced_element ih
    case listTail => exact traced_listTail ih
    case callTail => exact traced_callTail ih
    case args => exact traced_args ih

/-- The literals of a phrase are among the tokens that it is read from, and well formed. -/
theorem literal_of_mem_leaves {ts : List Token} {p : Phrase} (hread : ofTokens? ts = some p) {l : Literal}
    (hl : .literal l ∈ p.leaves) : .literal l ∈ grammarTokens ts ∧ l.isWellFormed = true := by
  obtain ⟨⟨q, rest⟩, hsum, hend⟩ := Option.bind_eq_some_iff.mp hread
  have hpasses := (traced (fun l => .literal l ∈ grammarTokens ts) _).sum hsum fun _ h => h
  simp only at hend
  split at hend
  · obtain rfl := Option.some.inj hend
    exact hpasses.1 l hl
  · split at hend
    · obtain rfl := Option.some.inj hend
      simp [leaves] at hl
    · simp at hend
  · simp at hend

end AlgebraTutor.Reader.Phrase
