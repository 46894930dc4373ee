import AlgebraTutor.Proofs.Answer
import AlgebraTutor.Proofs.Text.Digit
import AlgebraTutor.Tree.Printer

/-!
# The text of a tree

What it takes for a tree to be written as a text, shape by shape: an integer is within the digit limit, and an operator
stands between the texts of its operands.
-/

namespace AlgebraTutor.Tree

variable {t l r : Tree} {cs : List Char}

theorem text_eq_ok_iff {s : String} : t.text = .ok s ↔ ∃ cs, t.chars = .ok cs ∧ String.ofList cs = s := by
  rw [text, Answer.bind_eq_ok_iff]
  simp only [Answer.pure_eq_ok_iff]

theorem chars_integer_eq_ok_iff {n : Int} :
    (const n).chars = .ok cs ↔ (Nat.toDigits 10 n.natAbs).length ≤ digitLimit ∧
      (if n < 0 then '-' :: Nat.toDigits 10 n.natAbs else Nat.toDigits 10 n.natAbs) = cs := by
  rw [chars, numberChars, if_pos (Rat.den_intCast n), Rat.num_intCast]
  simp only [integerChars]
  split
  · rename_i hlimit
    simp [Nat.not_le.mpr hlimit]
  · rename_i hlimit
    rw [and_iff_right (Nat.not_lt.mp hlimit)]
    exact ⟨Except.ok.inj, congrArg _⟩

theorem mem_digits_of_mem_chars {n : Int} (hcs : (const n).chars = .ok cs) {c : Char} (hc : c ∈ cs) :
    c = '-' ∨ c.isDigit = true := by
  obtain ⟨-, rfl⟩ := chars_integer_eq_ok_iff.mp hcs
  split at hc
  · exact (List.mem_cons.mp hc).imp_right Text.isDigit_of_mem_digits
  · exact .inr (Text.isDigit_of_mem_digits hc)

theorem not_mem_chars_integer {n : Int} (hcs : (const n).chars = .ok cs) {c : Char} (hminus : c ≠ '-') (hdigit : c.isDigit = false) :
    c ∉ cs :=
  fun hc => (mem_digits_of_mem_chars hcs hc).elim hminus (Bool.eq_false_iff.mp hdigit)

theorem chars_paren_eq_ok_iff : (paren t).chars = .ok cs ↔ ∃ ds, t.chars = .ok ds ∧ '(' :: ds ++ [')'] = cs := by
  refine Answer.bind_eq_ok_iff.trans ?_
  simp only [Answer.pure_eq_ok_iff]

theorem chars_sign_eq_ok_iff : (apply .sub [t]).chars = .ok cs ↔ ∃ ds, t.chars = .ok ds ∧ '-' :: ds = cs := by
  refine Answer.bind_eq_ok_iff.trans ?_
  simp only [Answer.pure_eq_ok_iff]

/-- What is written between the operands of an operator. -/
def separator (implicit : Bool) : Op → List Char
  | .add => [' ', '+', ' ']
  | .sub => [' ', '-', ' ']
  | .mul => if implicit then [] else [' ', '*', ' ']
  | .div => ['/']
  | .pow => ['^']
  | .call _ => []

theorem chars_operator_eq_ok_iff {op : Op} (hop : op.isArithmetic = true) :
    (apply op [l, r]).chars = .ok cs ↔
      ∃ implicit, (if op = .mul then isImplicitProduct l r else .ok false) = .ok implicit ∧ ∃ ds, l.chars = .ok ds ∧
        ∃ es, r.chars = .ok es ∧ ds ++ (separator implicit op ++ es) = cs := by
  have hchars : (apply op [l, r]).chars =
      (if op = .mul then isImplicitProduct l r else .ok false) >>= fun implicit =>
        l.chars >>= fun ds => r.chars >>= fun es => pure (ds ++ (separator implicit op ++ es)) := by
    cases op with
    | call f => simp [Op.isArithmetic] at hop
    | mul =>
      rw [chars]
      · cases isImplicitProduct l r with
        | error => rfl
        | ok implicit => cases implicit <;> simp [separator]
      all_goals simp
    | _ => simp [chars, separator]
  rw [hchars, Answer.bind_eq_ok_iff]
  simp only [Answer.bind_eq_ok_iff, Answer.pure_eq_ok_iff]

end AlgebraTutor.Tree
