import AlgebraTutor.Proofs.Canonical.TermOrder
import AlgebraTutor.Proofs.Reader.Printed

/-!
# Trees with one text are one tree

What `Tree.build` makes of integers, letters and `pi`, by operators and calls of known functions, is told apart by its text. A
tree whose calls all have arguments is read back from its text, so there are no two with the same one. A call without arguments
is not read at all. Such calls are filled before the trees are compared: with arguments that stand in the text between two
parentheses with nothing in between, and that are more than any other call of the trees has, so no two trees become one.
-/

namespace AlgebraTutor

namespace Tree

/-- The tree is built of integers, single letters and named constants, by operators and calls of known functions, which may have
any number of arguments. -/
inductive Constructed : Tree → Prop
  | integer (n : Int) : Constructed (.const n)
  | symbol {v : String} (hv : IsReadableName v) : Constructed (.symbol v)
  | build {op : Op} {args : List Tree} {t : Tree} (hop : ∀ f, op = .call f → f ∈ Text.functionNames)
    (hargs : ∀ a ∈ args, Constructed a) (ht : build op args = .ok t) : Constructed t

theorem Composed.constructed {t : Tree} (h : t.Composed) : t.Constructed := by
  induction h with
  | integer n => exact .integer n
  | letter c hc => exact .symbol (.inl ⟨c, hc, rfl⟩)
  | pi => exact .symbol (.inr rfl)
  | build hop _ ht ih =>
    refine .build (fun f hf => ?_) ih ht
    rcases hop with harithmetic | ⟨⟨g, hg, hcall⟩, -⟩
    · simp [hf, Op.isArithmetic] at harithmetic
    · exact Op.call.inj (hcall.symm.trans hf) ▸ hg

theorem Constructed.binary {op : Op} (hop : op.isArithmetic = true) {t u : Tree} (h : t.Constructed) (h' : u.Constructed) :
    (Tree.binary op t u).Constructed := by
  refine .build (fun f hf => ?_) (by simp [h, h']) (build_binary hop t u)
  simp [hf, Op.isArithmetic] at hop

theorem Constructed.stripParens {t : Tree} (h : t.Constructed) : t.stripParens = t := by
  cases h with
  | integer | symbol => rfl
  | build _ _ ht => exact stripParens_of_build ht

/-- Induction along the building of a constructed tree, one case for each shape; the negative of a number is a number. -/
theorem Constructed.shapes {motive : Tree → Prop} {t : Tree} (h : t.Constructed) (integer : ∀ n : Int, motive (.const n))
    (symbol : ∀ v, IsReadableName v → motive (.symbol v))
    (sign : ∀ t, t.Constructed → motive t → motive (.apply .sub [parenIf (t.precedence ≤ signPrecedence) t]))
    (binary : ∀ op l r, op.isArithmetic = true → l.Constructed → r.Constructed → motive l → motive r →
      motive (.apply op [parenIf (leftNeedsParen op l) l, parenIf (rightNeedsParen op r) r]))
    (call : ∀ f args, f ∈ Text.functionNames → (∀ a ∈ args, a.Constructed ∧ motive a) → motive (.apply (.call f) args)) :
    motive t := by
  have hinteger {t : Tree} (h : t.Constructed) : ∀ value, t = .const value → ∃ n : Int, value = n := by
    induction h with
    | integer n => exact fun value heq => ⟨n, (const.inj heq).symm⟩
    | symbol => nofun
    | build _ hargs ht ih =>
      intro value heq
      rcases build_eq_ok ht with ⟨f, -, rfl⟩ | ⟨u, -, rfl, rfl⟩ | ⟨l, r, -, -, rfl⟩
      · exact nomatch heq
      · rcases negate_cases u with ⟨v, hv, hnegate⟩ | hnegate
        · obtain ⟨n, rfl⟩ := ih u (by simp) v ((hargs u (by simp)).stripParens.symm.trans hv)
          exact ⟨-n, by simpa [hnegate, eq_comm] using heq⟩
        · simp [hnegate] at heq
      · exact nomatch heq
  induction h with
  | integer n => exact integer n
  | symbol hv => exact symbol _ hv
  | @build op args t hop hargs ht ih =>
    have hplain {a : Tree} (ha : a ∈ args) : a.stripParens = a := (hargs a ha).stripParens
    rcases build_eq_ok ht with ⟨f, rfl, rfl⟩ | ⟨u, rfl, rfl, rfl⟩ | ⟨l, r, harithmetic, rfl, rfl⟩
    · rw [Tree.call, List.map_congr_left fun a ha => hplain ha, List.map_id']
      exact call f args (hop f rfl) fun a ha => ⟨hargs a ha, ih a ha⟩
    · have hu := List.mem_singleton_self u
      rcases negate_cases u with ⟨v, hv, hnegate⟩ | hnegate
      · obtain ⟨n, rfl⟩ := hinteger (hargs u hu) v ((hplain hu).symm.trans hv)
        rw [hnegate, ← Int.cast_neg]
        exact integer (-n)
      · rw [hnegate, hplain hu]
        exact sign u (hargs u hu) (ih u hu)
    · rw [Tree.binary, hplain (List.mem_cons_self : l ∈ _), hplain (by simp : r ∈ _)]
      exact binary op l r harithmetic (hargs l (by simp)) (hargs r (by simp)) (ih l (by simp)) (ih r (by simp))

/-- The operands of a constructed tree are constructed, within their parentheses. -/
theorem Constructed.operands {op : Op} {args : List Tree} (h : (apply op args).Constructed) : ∀ a ∈ args, a.stripParens.Constructed := by
  have hparen {needed : Bool} {t : Tree} (ht : t.Constructed) : (parenIf needed t).stripParens.Constructed := by
    rwa [stripParens_parenIf ht.stripParens]
  refine h.shapes (motive := fun t => ∀ op args, t = apply op args → ∀ a ∈ args, a.stripParens.Constructed) ?integer ?symbol ?sign
    ?binary ?call op args rfl
  case integer | symbol => nofun
  case sign =>
    rintro t ht - _ _ ⟨⟩
    simpa using hparen ht
  case binary =>
    rintro op l r - hl hr - - _ _ ⟨⟩
    simpa using ⟨hparen hl, hparen hr⟩
  case call =>
    rintro f args - hargs _ _ ⟨⟩ a ha
    rw [(hargs a ha).1.stripParens]
    exact (hargs a ha).1

theorem isAlphanum_of_isReadableName {v : String} (hv : IsReadableName v) : ∀ c ∈ v.toList, c.isAlphanum = true := by
  rcases hv with ⟨c, hc, rfl⟩ | hconstant
  · simp [Char.isAlphanum, hc]
  · simp only [isNamedConstant, Bool.or_eq_true, beq_iff_eq] at hconstant
    rcases hconstant with rfl | rfl <;> decide

theorem not_mem_of_isReadableName {v : String} (hv : IsReadableName v) {c : Char} (hc : c.isAlphanum = false) : c ∉ v.toList :=
  fun hmem => Bool.false_ne_true (hc.symm.trans (isAlphanum_of_isReadableName hv c hmem))

theorem isWritten_of_mem_functionNames {f : String} (hf : f ∈ Text.functionNames) : Reader.IsWritten f.toList := by
  have hnames : ∀ f ∈ Text.functionNames, f.toList ≠ [] := by decide
  exact isWritten_letters (hnames f hf) (Reader.Piece.isAlpha_function hf).1

theorem Constructed.isWorded {t : Tree} (h : t.Constructed) : t.IsWorded := by
  induction h with
  | integer n => exact isWorded_const.mpr (Rat.den_intCast n)
  | symbol hv => exact isWorded_symbol (isWritten_of_isReadableName hv)
  | build hop _ ht ih => exact (isWorded_build ht).mpr ⟨fun f hf => isWritten_of_mem_functionNames (hop f hf), ih⟩

/-! ### Filling calls -/

/-- Many zeros. -/
def zeros (k : Nat) : List Tree :=
  List.replicate (k + 2) (const 0)

mutual

/-- The tree with zeros as the arguments of what has none. -/
def fill (k : Nat) : Tree → Tree
  | .const value => .const value
  | .symbol name => .symbol name
  | .apply op args => .apply op (if args.isEmpty then zeros k else fillAll k args)
  | .paren content => .paren (fill k content)

/-- Several trees with zeros as the arguments of what has none. -/
def fillAll (k : Nat) : List Tree → List Tree
  | [] => []
  | t :: ts => fill k t :: fillAll k ts

end

variable {k : Nat} {t u : Tree} {op : Op} {args : List Tree} {cs : List Char}

theorem fillAll_eq_map (k : Nat) (ts : List Tree) : fillAll k ts = ts.map (fill k) := by
  induction ts with
  | nil => rfl
  | cons t ts ih => rw [fillAll, ih, List.map_cons]

theorem fill_apply_nil (k : Nat) (op : Op) : fill k (apply op []) = apply op (zeros k) :=
  rfl

theorem fill_apply (k : Nat) (op : Op) (h : args ≠ []) : fill k (apply op args) = apply op (args.map (fill k)) := by
  rw [fill, if_neg (by simpa using h), fillAll_eq_map]

theorem stripParens_fill (k : Nat) (t : Tree) : (fill k t).stripParens = fill k t.stripParens := by
  induction t using stripParens.induct with
  | case1 content ih => rw [fill, stripParens, stripParens, ih]
  | case2 t hplain =>
    have hfill : (fill k t).stripParens = fill k t := by
      cases t with
      | paren content => exact absurd rfl (hplain content)
      | const | symbol | apply => rfl
    rw [hfill, stripParens]
    exact hplain

/-- Filling changes no precedence, since two zeros at least are filled in. -/
theorem precedence_fill (k : Nat) (t : Tree) : (fill k t).precedence = t.precedence := by
  cases t with
  | const | symbol | paren => rfl
  | apply op args =>
    match args with
    | [] => cases op <;> rfl
    | [a] => cases op <;> rfl
    | a :: b :: args => cases op <;> rfl

theorem fill_parenIf (k : Nat) (needed : Bool) (t : Tree) : fill k (parenIf needed t) = parenIf needed (fill k t) := by
  cases needed <;> rfl

theorem fill_negate (k : Nat) (t : Tree) : fill k t.negate = (fill k t).negate := by
  rcases negate_cases t with ⟨value, hvalue, hnegate⟩ | hnegate
  · have hfilled : (fill k t).stripParens = const value := by rw [stripParens_fill, hvalue, fill]
    rw [hnegate, negate, hfilled]
    rfl
  · rw [hnegate, fill_apply k .sub (by simp), List.map_singleton, fill_parenIf]
    rcases negate_cases (fill k t) with ⟨value, hvalue, -⟩ | hfilled
    · rw [stripParens_fill] at hvalue
      obtain ⟨value, hconst⟩ : ∃ value, t.stripParens = const value := by
        cases hplain : t.stripParens with
        | const value => exact ⟨value, rfl⟩
        | symbol | apply | paren => simp [hplain, fill] at hvalue
      simp [negate, hconst] at hnegate
    · rw [hfilled, stripParens_fill, precedence_fill]

theorem fill_binary (k : Nat) (op : Op) (t u : Tree) : fill k (binary op t u) = binary op (fill k t) (fill k u) := by
  simp [binary, fill_apply, fill_parenIf, stripParens_fill, leftNeedsParen, rightNeedsParen, precedence_fill]

theorem stripParens_zeros (k : Nat) : (zeros k).map stripParens = zeros k :=
  List.map_replicate

/-- What is filled is built. -/
theorem Constructed.built_fill (h : t.Constructed) (k : Nat) : (fill k t).Built := by
  induction h with
  | integer n => exact .integer n
  | symbol hv => exact (composed_symbol hv).built
  | @build op args t hop hargs hbuild ih =>
    rcases build_eq_ok hbuild with ⟨f, rfl, rfl⟩ | ⟨u, rfl, rfl, rfl⟩ | ⟨l, r, harithmetic, rfl, rfl⟩
    · have hf := hop f rfl
      cases args with
      | nil =>
        have hzeros : ∀ a ∈ zeros k, a.Built := fun a ha => by
          obtain rfl := List.eq_of_mem_replicate ha
          exact .integer 0
        refine .build (.inr ⟨⟨f, hf, rfl⟩, by simp [zeros]⟩) hzeros ?_
        rw [Tree.build, call, stripParens_zeros]
        rfl
      | cons a args =>
        refine .build (.inr ⟨⟨f, hf, rfl⟩, by simp⟩) (List.forall_mem_map.mpr ih) ?_
        rw [Tree.build, call, call, fill_apply k _ (by simp), List.map_map, List.map_map]
        simp only [Function.comp_def, stripParens_fill]
    · exact fill_negate k u ▸ (ih u (by simp)).negate
    · exact fill_binary k op l r ▸ .binary harithmetic (ih l (by simp)) (ih r (by simp))

/-! ### The text of what is filled -/

end Tree

namespace Text

/-- The text of the zeros. -/
def zerosText (k : Nat) : List Char :=
  Tree.joinChars [',', ' '] (List.replicate (k + 2) ['0'])

/-- The text with zeros between parentheses that have nothing between them. -/
def fillText (k : Nat) : List Char → List Char
  | '(' :: ')' :: cs => '(' :: (zerosText k ++ ')' :: fillText k cs)
  | c :: cs => c :: fillText k cs
  | [] => []

variable {k : Nat} {cs ds : List Char}

theorem fillText_cons {c : Char} (h : ¬(c = '(' ∧ ')' ∈ cs.head?)) : fillText k (c :: cs) = c :: fillText k cs := by
  rw [fillText]
  rintro ds rfl rfl
  exact h ⟨rfl, rfl⟩

/-- A text is filled part by part, unless it is cut between two parentheses. -/
theorem fillText_append (h : ¬('(' ∈ cs.getLast? ∧ ')' ∈ ds.head?)) : fillText k (cs ++ ds) = fillText k cs ++ fillText k ds := by
  fun_induction fillText k cs with
  | case1 cs ih =>
    rw [List.cons_append, List.cons_append, fillText, ih fun hmeet => h ⟨?_, hmeet.2⟩]
    · simp
    · simp [List.getLast?_cons, Option.mem_def.mp hmeet.1]
  | case2 c cs hopen ih =>
    have hrest : ¬(c = '(' ∧ ')' ∈ (cs ++ ds).head?) := by
      rintro ⟨rfl, hclose⟩
      cases cs with
      | nil => exact h ⟨by simp, hclose⟩
      | cons d cs => exact hopen cs rfl (by simpa using hclose)
    rw [List.cons_append, fillText_cons hrest, ih fun hmeet => h ⟨?_, hmeet.2⟩, List.cons_append]
    simp [List.getLast?_cons, Option.mem_def.mp hmeet.1]
  | case3 => rfl

theorem fillText_eq_self (h : '(' ∉ cs) : fillText k cs = cs := by
  induction cs with
  | nil => rfl
  | cons c cs ih =>
    obtain ⟨hc, hcs⟩ := not_or.mp (List.mem_cons.not.mp h)
    rw [fillText_cons (fun hmeet => hc hmeet.1.symm), ih hcs]

end Text

namespace Reader

theorem closes_concat_openParen (depth : Nat) (ts : List Token) : closes depth (ts ++ [.mark .openParen]) = false := by
  induction ts generalizing depth with
  | nil => rfl
  | cons t ts ih =>
    by_cases hopen : t = .mark .openParen
    · subst hopen
      exact ih (depth + 1)
    · by_cases hclose : t = .mark .closeParen
      · subst hclose
        cases depth with
        | zero => rfl
        | succ depth => exact ih depth
      · rw [List.cons_append, closes_cons hopen hclose, ih]

/-- A written text begins with no closing parenthesis and ends with no opening one. -/
theorem IsWritten.not_paren {cs : List Char} (h : IsWritten cs) : ')' ∉ cs.head? ∧ '(' ∉ cs.getLast? := by
  refine ⟨fun hclose => ?_, fun hopen => ?_⟩
  · obtain ⟨rest, rfl⟩ := List.head?_eq_some_iff.mp hclose
    exact Bool.noConfusion h.closed
  · obtain ⟨rest, rfl⟩ := List.getLast?_eq_some_iff.mp hopen
    have hclosed := h.closed
    rw [parens_append, show parens ['('] = [.mark .openParen] from rfl, closes_concat_openParen] at hclosed
    exact Bool.noConfusion hclosed

end Reader

namespace Tree

open Text (fillText fillText_append fillText_cons fillText_eq_self zerosText)
open Reader (IsWritten)

variable {k : Nat} {t u : Tree} {op : Op} {args : List Tree} {cs : List Char}

theorem charsAll_zeros (k : Nat) : charsAll (zeros k) = .ok (List.replicate (k + 2) ['0']) := by
  have hzeros (n : Nat) : charsAll (List.replicate n (const 0)) = .ok (List.replicate n ['0']) := by
    induction n with
    | zero => rfl
    | succ n ih =>
      rw [List.replicate_succ, charsAll, ih]
      rfl
  exact hzeros (k + 2)

theorem isImplicitProduct_fill {l r : Tree} {implicit : Bool} (h : isImplicitProduct l r = .ok implicit) :
    isImplicitProduct (fill k l) (fill k r) = .ok implicit := by
  have hfollows (t : Tree) : (fill k t).followsNumber = t.followsNumber := by cases t <;> rfl
  cases l with
  | const value =>
    cases r with
    | apply op args =>
      cases args with
      | nil =>
        cases op with
        | pow => exact nomatch h
        | _ => exact h
      | cons base args =>
        rw [fill_apply k op (by simp), List.map_cons]
        cases op with
        | pow => exact (congrArg Except.ok (hfollows base)).trans h
        | _ => exact h
    | _ => exact h
  | _ => exact h

theorem fillText_joinChars {css : List (List Char)} (h : ∀ cs ∈ css, IsWritten cs) :
    fillText k (joinChars [',', ' '] css) = joinChars [',', ' '] (css.map (fillText k)) := by
  fun_induction joinChars [',', ' '] css with
  | case1 | case2 => rfl
  | case3 cs ds css ih =>
    obtain ⟨hcs, hcss⟩ := List.forall_mem_cons.mp h
    have hcomma : '(' ∉ [',', ' '] := by decide
    rw [List.append_assoc, fillText_append fun hmeet => hcs.not_paren.2 hmeet.1,
      fillText_append fun hmeet => hcomma (List.mem_of_getLast? hmeet.1), ih hcss, fillText_eq_self hcomma, ← List.append_assoc]
    rfl

theorem fillText_separator {ds es : List Char} {implicit : Bool} (hds : IsWritten ds) :
    fillText k (ds ++ (separator implicit op ++ es)) = fillText k ds ++ (separator implicit op ++ fillText k es) := by
  have hseparator : '(' ∉ separator implicit op := by cases op <;> cases implicit <;> simp [separator]
  rw [fillText_append (fun hmeet => hds.not_paren.2 hmeet.1), fillText_append fun hmeet => hseparator (List.mem_of_getLast? hmeet.1),
    fillText_eq_self hseparator]

/-- What stands in parentheses that are not empty is filled between them. -/
theorem fillText_group {ds : List Char} (h : IsWritten ds) : fillText k ('(' :: ds ++ [')']) = '(' :: fillText k ds ++ [')'] := by
  have hopen : ¬('(' = '(' ∧ ')' ∈ (ds ++ [')']).head?) := by
    rintro ⟨-, hclose⟩
    obtain ⟨c, hc, -⟩ := h.begins
    rw [List.head?_append, Option.mem_def.mp hc] at hclose
    exact h.not_paren.1 (hc.trans (by simpa using hclose))
  rw [List.cons_append, fillText_cons hopen, fillText_append fun hmeet => h.not_paren.2 hmeet.1]
  rfl

theorem chars_fill_parenIf {needed : Bool} (h : t.IsWorded)
    (hfill : ∀ cs, t.chars = .ok cs → (fill k t).chars = .ok (fillText k cs)) (hcs : (parenIf needed t).chars = .ok cs) :
    (fill k (parenIf needed t)).chars = .ok (fillText k cs) := by
  cases needed with
  | false => exact hfill cs hcs
  | true =>
    obtain ⟨ds, hds, rfl⟩ := chars_paren_eq_ok_iff.mp hcs
    rw [fillText_group (h.isWritten hds)]
    exact chars_paren_eq_ok_iff.mpr ⟨_, hfill ds hds, rfl⟩

theorem charsAll_fill (h : ∀ a ∈ args, ∀ cs, a.chars = .ok cs → (fill k a).chars = .ok (fillText k cs)) {css : List (List Char)}
    (hcss : charsAll args = .ok css) : charsAll (args.map (fill k)) = .ok (css.map (fillText k)) := by
  induction args generalizing css with
  | nil =>
    obtain rfl := Except.ok.inj hcss
    rfl
  | cons a args ih =>
    obtain ⟨ha, hargs⟩ := List.forall_mem_cons.mp h
    obtain ⟨cs, hcs, hlater⟩ := Answer.bind_eq_ok_iff.mp hcss
    obtain ⟨rest, hrest, heq⟩ := Answer.bind_eq_ok_iff.mp hlater
    obtain rfl := Answer.pure_eq_ok_iff.mp heq
    rw [List.map_cons, charsAll, ha cs hcs, ih hargs hrest]
    rfl

/-- What is filled has the filled text. -/
theorem Constructed.chars_fill (h : t.Constructed) (k : Nat) :
    ∀ cs, t.chars = .ok cs → (fill k t).chars = .ok (fillText k cs) := by
  refine h.shapes (motive := fun t => ∀ cs, t.chars = .ok cs → (fill k t).chars = .ok (fillText k cs)) ?integer ?symbol ?sign
    ?binary ?call
  case integer =>
    intro n cs hcs
    rw [fillText_eq_self (not_mem_chars_integer hcs (by decide) (by decide))]
    exact hcs
  case symbol =>
    intro v hv cs hcs
    obtain rfl := Except.ok.inj hcs
    rw [fillText_eq_self (not_mem_of_isReadableName hv (by decide))]
    exact hcs
  case sign =>
    intro t ht ih cs hcs
    obtain ⟨ds, hds, rfl⟩ := chars_sign_eq_ok_iff.mp hcs
    rw [fillText_cons (by simp), fill_apply k .sub (by simp)]
    exact chars_sign_eq_ok_iff.mpr ⟨_, chars_fill_parenIf ht.isWorded ih hds, rfl⟩
  case binary =>
    intro op l r hop hl hr ihl ihr cs hcs
    obtain ⟨implicit, himplicit, ds, hds, es, hes, rfl⟩ := (chars_operator_eq_ok_iff hop).mp hcs
    have hwritten := (isWorded_parenIf.mpr hl.isWorded).isWritten hds
    rw [fillText_separator hwritten, fill_apply k op (by simp)]
    refine (chars_operator_eq_ok_iff hop).mpr ⟨implicit, ?_, _, chars_fill_parenIf hl.isWorded ihl hds, _,
      chars_fill_parenIf hr.isWorded ihr hes, rfl⟩
    split_ifs at himplicit ⊢ with hmul
    · exact isImplicitProduct_fill himplicit
    · exact himplicit
  case call =>
    intro f args hf hargs cs hcs
    obtain ⟨css, hcss, heq⟩ := Answer.bind_eq_ok_iff.mp hcs
    obtain rfl := Answer.pure_eq_ok_iff.mp heq
    have hname : '(' ∉ f.toList := fun hmem => absurd ((Reader.Piece.isAlpha_function hf).1 _ hmem) (by decide)
    rw [List.append_assoc, fillText_append fun hmeet => hname (List.mem_of_getLast? hmeet.1), fillText_eq_self hname]
    cases args with
    | nil =>
      obtain rfl := Except.ok.inj hcss
      rw [fill_apply_nil, chars, charsAll_zeros]
      simp [joinChars, fillText, zerosText]
    | cons a args =>
      have hwritten := isWritten_charsAll (fun a ha => (hargs a ha).1.isWorded) hcss
      have hne : css ≠ [] := by
        rintro rfl
        obtain ⟨cs, -, h⟩ := Answer.bind_eq_ok_iff.mp hcss
        obtain ⟨rest, -, h⟩ := Answer.bind_eq_ok_iff.mp h
        exact List.cons_ne_nil _ _ (Answer.pure_eq_ok_iff.mp h)
      rw [fill_apply k _ (by simp), chars, charsAll_fill (fun a ha => (hargs a ha).2) hcss, Answer.ok_bind, List.append_assoc,
        fillText_group (Reader.isWritten_joinChars hne hwritten), fillText_joinChars hwritten]
      rfl

/-! ### Trees that are filled alike -/

/-- No operator of the tree has so many operands. -/
def IsNarrow (k : Nat) (t : Tree) : Prop :=
  ∀ op args, apply op args ∈ t.nodes → args.length < k

theorem exists_isNarrow (t : Tree) : ∃ n, ∀ k, n ≤ k → t.IsNarrow k := by
  have hnodes (ts : List Tree) : ∃ n, ∀ op args, apply op args ∈ ts → args.length < n := by
    induction ts with
    | nil => exact ⟨0, by simp⟩
    | cons t ts ih =>
      obtain ⟨n, hn⟩ := ih
      cases t with
      | apply op args =>
        refine ⟨max n (args.length + 1), fun op' args' hmem => ?_⟩
        rcases List.mem_cons.mp hmem with heq | hmem
        · cases heq
          omega
        · have := hn op' args' hmem
          omega
      | const | symbol | paren => exact ⟨n, fun op args hmem => hn op args (by simpa using hmem)⟩
  obtain ⟨n, hn⟩ := hnodes t.nodes
  exact ⟨n, fun k hk op args hmem => (hn op args hmem).trans_le hk⟩

theorem isNarrow_paren : (paren t).IsNarrow k ↔ t.IsNarrow k := by
  simp [IsNarrow, nodes]

theorem IsNarrow.operands (h : (apply op args).IsNarrow k) : args.length < k ∧ ∀ a ∈ args, a.IsNarrow k :=
  ⟨h op args (by simp [nodes]), fun a ha op' args' hmem => h op' args' (by simpa [nodes, mem_nodesAll] using .inr ⟨a, ha, hmem⟩)⟩

mutual

/-- Trees with fewer operands everywhere than are filled in are told apart when they are filled. -/
theorem fill_injective {t u : Tree} (ht : t.IsNarrow (k + 2)) (hu : u.IsNarrow (k + 2)) (h : fill k t = fill k u) : t = u := by
  match t, u with
  | .const _, .const _ | .symbol _, .symbol _ => simpa [fill] using h
  | .paren t, .paren u =>
    rw [isNarrow_paren] at ht hu
    rw [fill, fill, paren.injEq] at h
    rw [fill_injective ht hu h]
  | .apply op args, .apply op' args' =>
    obtain ⟨hfew, hargs⟩ := ht.operands
    obtain ⟨hfew', hargs'⟩ := hu.operands
    have hlength (ts : List Tree) : (fillAll k ts).length = ts.length := by rw [fillAll_eq_map, List.length_map]
    have hzeros : (zeros k).length = k + 2 := List.length_replicate
    rw [fill, fill, apply.injEq] at h
    obtain ⟨rfl, h⟩ := h
    split_ifs at h with hnil hnil' hnil'
    · rw [List.isEmpty_iff.mp hnil, List.isEmpty_iff.mp hnil']
    · have := congrArg List.length h
      rw [hlength] at this
      omega
    · have := congrArg List.length h
      rw [hlength] at this
      omega
    · rw [fillAll_injective hargs hargs' h]
  | .const _, .symbol _ | .const _, .apply _ _ | .const _, .paren _ | .symbol _, .const _ | .symbol _, .apply _ _
  | .symbol _, .paren _ | .apply _ _, .const _ | .apply _ _, .symbol _ | .apply _ _, .paren _ | .paren _, .const _
  | .paren _, .symbol _ | .paren _, .apply _ _ => simp [fill] at h

theorem fillAll_injective {ts us : List Tree} (hts : ∀ t ∈ ts, t.IsNarrow (k + 2)) (hus : ∀ u ∈ us, u.IsNarrow (k + 2))
    (h : fillAll k ts = fillAll k us) : ts = us := by
  match ts, us with
  | [], [] => rfl
  | t :: ts, u :: us =>
    rw [List.forall_mem_cons] at hts hus
    rw [fillAll, fillAll, List.cons.injEq] at h
    rw [fill_injective hts.1 hus.1 h.1, fillAll_injective hts.2 hus.2 h.2]
  | [], _ :: _ | _ :: _, [] => simp [fillAll] at h

end

/-! ### Trees with one text -/

theorem exists_chars_stripParens (hcs : t.chars = .ok cs) : ∃ ds, t.stripParens.chars = .ok ds ∧ ds.length ≤ cs.length := by
  induction t using stripParens.induct generalizing cs with
  | case1 content ih =>
    obtain ⟨inner, hinner, rfl⟩ := chars_paren_eq_ok_iff.mp hcs
    obtain ⟨ds, hds, hlength⟩ := ih hinner
    exact ⟨ds, hds, hlength.trans (by simp; omega)⟩
  | case2 t hplain =>
    rw [stripParens]
    · exact ⟨cs, hcs, le_rfl⟩
    · exact hplain

/-- What stands in parentheses has another text than what stands in more or in fewer of them. -/
theorem eq_of_stripParens_eq (hplain : t.stripParens = u.stripParens) (ht : t.chars = .ok cs) (hu : u.chars = .ok cs) : t = u := by
  have hlonger {content : Tree} {cs : List Char} (hcs : (paren content).chars = .ok cs) {ds : List Char}
      (hds : content.stripParens.chars = .ok ds) : ds.length < cs.length := by
    obtain ⟨inner, hinner, rfl⟩ := chars_paren_eq_ok_iff.mp hcs
    obtain ⟨es, hes, hlength⟩ := exists_chars_stripParens hinner
    obtain rfl := Except.ok.inj (hds.symm.trans hes)
    simp only [List.cons_append, List.length_cons, List.length_append]
    omega
  induction t using stripParens.induct generalizing u cs with
  | case1 content ih =>
    by_cases hparen : ∃ inner, u = paren inner
    · obtain ⟨inner, rfl⟩ := hparen
      obtain ⟨ds, hds, rfl⟩ := chars_paren_eq_ok_iff.mp ht
      obtain ⟨es, hes, heq⟩ := chars_paren_eq_ok_iff.mp hu
      obtain rfl : es = ds := by simpa using heq
      rw [stripParens, stripParens] at hplain
      rw [ih hplain hds hes]
    · rw [stripParens.eq_2 u fun inner heq => hparen ⟨inner, heq⟩, stripParens] at hplain
      exact absurd (hlonger ht (hplain ▸ hu)) (lt_irrefl _)
  | case2 t hnone =>
    rw [stripParens.eq_2 t hnone] at hplain
    cases u with
    | paren inner => exact absurd (hlonger hu (by rw [← stripParens, ← hplain]; exact ht)) (lt_irrefl _)
    | const | symbol | apply => exact hplain

theorem Constructed.chars_fill_of_parens (h : t.stripParens.Constructed) (k : Nat) (hcs : t.chars = .ok cs) :
    (fill k t).chars = .ok (fillText k cs) := by
  induction t using stripParens.induct generalizing cs with
  | case1 content ih =>
    obtain ⟨ds, hds, rfl⟩ := chars_paren_eq_ok_iff.mp hcs
    rw [Tree.stripParens] at h
    rw [fillText_group ((isWorded_stripParens.mp h.isWorded).isWritten hds)]
    exact chars_paren_eq_ok_iff.mpr ⟨_, ih h hds, rfl⟩
  | case2 t hplain =>
    rw [Tree.stripParens.eq_2 t hplain] at h
    exact h.chars_fill k cs hcs

/-- Constructed trees, in parentheses or not, with one text are one tree. -/
theorem eq_of_chars (ht : t.stripParens.Constructed) (hu : u.stripParens.Constructed) (h : t.chars = .ok cs)
    (h' : u.chars = .ok cs) : t = u := by
  obtain ⟨n, hn⟩ := exists_isNarrow t
  obtain ⟨n', hn'⟩ := exists_isNarrow u
  let k := max n n'
  have hread {v : Tree} (hv : v.stripParens.Constructed) (hcs : v.chars = .ok cs) :
      ofText (String.ofList (fillText k cs)) = .ok (fill k v).stripParens := by
    refine ofText_of_text (stripParens_fill k v ▸ hv.built_fill k) ?_
    rw [text, hv.chars_fill_of_parens k hcs]
    rfl
  have hplain : (fill k t).stripParens = (fill k u).stripParens := Except.ok.inj ((hread ht h).symm.trans (hread hu h'))
  have hfilled := eq_of_stripParens_eq hplain (ht.chars_fill_of_parens k h) (hu.chars_fill_of_parens k h')
  exact fill_injective (hn (k + 2) (by omega)) (hn' (k + 2) (by omega)) hfilled

end Tree

end AlgebraTutor
