import AlgebraTutor.Proofs.Reader.Application
import AlgebraTutor.Proofs.Reader.Letters
import AlgebraTutor.Reader.Product

/-!
# Writing out implicit products

A product sign is written between operands that stand side by side, and nowhere else. What is written depends on two
neighbours only, so it can be followed token by token: parentheses still match, and functions still stand before their
parentheses.
-/

namespace AlgebraTutor.Reader

/-- The product sign between a token and what follows it, if one is written. -/
def productSign (afterDot : Bool) (t : Token) (ts : List Token) : List Token :=
  if endsOperand afterDot t && ts.head?.any beginsOperand then [.mark .star] else []

theorem insertProducts_cons (afterDot : Bool) (t : Token) (ts : List Token) :
    insertProducts afterDot (t :: ts) = t :: (productSign afterDot t ts ++ insertProducts (t == .mark .dot) ts) := by
  cases ts with
  | nil => simp [insertProducts, productSign]
  | cons u ts =>
    by_cases hadjacent : (endsOperand afterDot t && beginsOperand u) = true <;>
      simp [insertProducts, productSign, hadjacent]

theorem eq_star_of_mem_productSign {afterDot : Bool} {t u : Token} {ts : List Token} (h : u ∈ productSign afterDot t ts) :
    u = .mark .star := by
  unfold productSign at h
  split at h
  · simpa using h
  · simp at h

theorem head?_insertProducts (afterDot : Bool) (ts : List Token) : (insertProducts afterDot ts).head? = ts.head? := by
  cases ts with
  | nil => rfl
  | cons t ts => rw [insertProducts_cons, List.head?_cons, List.head?_cons]

theorem insertProducts_mark (afterDot : Bool) (m : Mark) (ts : List Token) :
    insertProducts afterDot (.mark m :: ts) = insertProducts false (.mark m :: ts) := by
  have hsign : productSign afterDot (.mark m) ts = productSign false (.mark m) ts := by cases m <;> rfl
  rw [insertProducts_cons, insertProducts_cons, hsign]

/-- Before a mark that begins no operand, products are written as if the tokens ended there. -/
theorem insertProducts_append {afterDot : Bool} {m : Mark} (hm : m ≠ .openParen) (ts us : List Token) :
    insertProducts afterDot (ts ++ .mark m :: us) = insertProducts afterDot ts ++ insertProducts false (.mark m :: us) := by
  have hbegins : beginsOperand (.mark m) = false := by cases m <;> simp_all [beginsOperand]
  induction ts generalizing afterDot with
  | nil => exact insertProducts_mark afterDot m us
  | cons t ts ih =>
    have hsign : productSign afterDot t (ts ++ .mark m :: us) = productSign afterDot t ts := by
      cases ts with
      | nil => simp [productSign, hbegins]
      | cons u ts => rfl
    rw [List.cons_append, insertProducts_cons, hsign, ih, insertProducts_cons afterDot t ts, List.cons_append,
      List.append_assoc]

/-- Behind a mark that ends no operand, products are written as if the tokens began there. -/
theorem insertProducts_mark_cons {afterDot : Bool} {m : Mark} (hclose : m ≠ .closeParen) (hdot : m ≠ .dot)
    (ts : List Token) : insertProducts afterDot (.mark m :: ts) = .mark m :: insertProducts false ts := by
  have hsign : productSign afterDot (.mark m) ts = [] := by cases m <;> simp_all [productSign, endsOperand]
  have hafter : (Token.mark m == .mark .dot) = false := by simpa using hdot
  rw [insertProducts_cons, hsign, hafter, List.nil_append]

/-- Nothing is written within the call that an operand is. -/
theorem insertProducts_callOn {name : String} {t : Token} (hname : isCallable name = true)
    (hdot : t ≠ .mark .dot) (ts : List Token) :
    insertProducts false (callOn name t ++ ts) =
      callOn name t ++ (productSign false (.mark .closeParen) ts ++ insertProducts false ts) := by
  have hafter : (t == .mark .dot) = false := by simpa using hdot
  have hopen : (Token.mark .openParen == .mark .dot) = false := rfl
  have hclose : (Token.mark .closeParen == .mark .dot) = false := rfl
  have hword : (Token.word name == .mark .dot) = false := rfl
  have hbegins : beginsOperand (.mark .closeParen) = false := rfl
  simp [callOn, insertProducts_cons, productSign, endsOperand, hname, hafter, hopen, hclose, hword, hbegins]

theorem mem_insertProducts {afterDot : Bool} {ts : List Token} {t : Token} (ht : t ≠ .mark .star) :
    t ∈ insertProducts afterDot ts ↔ t ∈ ts := by
  induction ts generalizing afterDot with
  | nil => simp [insertProducts]
  | cons u ts ih =>
    have hsign : t ∉ productSign afterDot u ts := fun h => ht (eq_star_of_mem_productSign h)
    rw [insertProducts_cons, List.mem_cons, List.mem_append, ih, List.mem_cons]
    simp [hsign]

theorem closes_productSign (depth : Nat) (afterDot : Bool) (t : Token) (ts us : List Token) :
    closes depth (productSign afterDot t ts ++ us) = closes depth us := by
  unfold productSign
  split
  · exact closes_cons (by simp) (by simp) us
  · rfl

theorem closes_insertProducts (depth : Nat) (afterDot : Bool) (ts : List Token) :
    closes depth (insertProducts afterDot ts) = closes depth ts := by
  induction ts generalizing depth afterDot with
  | nil => rfl
  | cons t ts ih =>
    rw [insertProducts_cons]
    by_cases hopen : t = .mark .openParen
    · subst hopen
      exact (closes_productSign (depth + 1) _ _ _ _).trans (ih _ _)
    · by_cases hclose : t = .mark .closeParen
      · subst hclose
        cases depth with
        | zero => rfl
        | succ depth => exact (closes_productSign depth _ _ _ _).trans (ih _ _)
      · rw [closes_cons hopen hclose, closes_cons hopen hclose, closes_productSign, ih]

theorem applied_insertProducts {afterDot : Bool} {ts : List Token} (h : (ts ++ [Token.finish]).IsChain Applied) :
    (insertProducts afterDot ts ++ [Token.finish]).IsChain Applied := by
  induction ts generalizing afterDot with
  | nil => exact h
  | cons t ts ih =>
    rw [List.cons_append, List.isChain_cons] at h
    obtain ⟨hfirst, hrest⟩ := h
    rw [insertProducts_cons, List.cons_append, List.append_assoc, productSign]
    split
    · -- a function ends no operand
      rename_i hadjacent
      refine List.isChain_cons.mpr ⟨fun u hu hfunction => ?_, List.isChain_cons.mpr ⟨fun u _ hfunction => ?_, ih hrest⟩⟩
      · cases t with
        | word w => simp_all [Unit.isFunction, endsOperand]
        | _ => simp [Unit.isFunction] at hfunction
      · simp [Unit.isFunction] at hfunction
    · refine List.isChain_cons.mpr ⟨fun u hu => hfirst u ?_, ih hrest⟩
      rw [List.nil_append, List.head?_append, head?_insertProducts] at hu
      rwa [List.head?_append]

end AlgebraTutor.Reader
