import AlgebraTutor.Proofs.Reader.Product

/-!
# Marks as the grammar takes them

Marks are taken apart into single characters, with a caret as a power sign, and joined again into the longest marks that
they spell. Only stars, slashes and dots are joined, so a text can be followed piece by piece between other tokens.
-/

namespace AlgebraTutor.Reader

/-- The token is not joined with what stands beside it. -/
def standsAlone (t : Token) : Bool :=
  t != .mark .star && t != .mark .slash && t != .mark .dot

theorem fuseMarks_cons {t : Token} (ht : standsAlone t = true) (ts : List Token) :
    fuseMarks (t :: ts) = t :: fuseMarks ts := by
  simp only [standsAlone, Bool.and_eq_true, bne_iff_ne, ne_eq] at ht
  obtain ⟨⟨hstar, hslash⟩, hdot⟩ := ht
  rw [fuseMarks]
  · exact fun _ h _ => hstar h
  · exact fun _ h _ => hslash h
  · exact fun _ h _ => hdot h

theorem fuseMarks_append {t : Token} (ht : standsAlone t = true) (ts us : List Token) :
    fuseMarks (ts ++ t :: us) = fuseMarks ts ++ t :: fuseMarks us := by
  fun_induction fuseMarks ts with
  | case1 ts ih => exact congrArg _ ih
  | case2 ts ih => exact congrArg _ ih
  | case3 ts ih => exact congrArg _ ih
  | case4 u ts hstars hslashes hdots ih =>
    have hne : t ≠ .mark .star ∧ t ≠ .mark .slash ∧ t ≠ .mark .dot := by simpa [standsAlone, and_assoc] using ht
    rw [List.cons_append, fuseMarks, ih, List.cons_append]
    · intro rest hu hrest
      cases ts with
      | nil => exact hne.1 (List.cons.inj hrest).1
      | cons v ts => exact hstars ts hu (by rw [(List.cons.inj hrest).1])
    · intro rest hu hrest
      cases ts with
      | nil => exact hne.2.1 (List.cons.inj hrest).1
      | cons v ts => exact hslashes ts hu (by rw [(List.cons.inj hrest).1])
    · intro rest hu hrest
      match ts with
      | [] => exact hne.2.2 (List.cons.inj hrest).1
      | [v] => exact hne.2.2 (List.cons.inj (List.cons.inj hrest).2).1
      | v :: w :: ts =>
        exact hdots ts hu (by rw [(List.cons.inj hrest).1, (List.cons.inj (List.cons.inj hrest).2).1])
  | case5 => exact fuseMarks_cons ht us

/-- The token is neither a mark nor joined into one. -/
def isLeaf : Token → Bool
  | .mark _ => false
  | _ => true

theorem mem_fuseMarks {ts : List Token} {t : Token} (ht : isLeaf t = true) : t ∈ fuseMarks ts ↔ t ∈ ts := by
  have hmark (m : Mark) : t ≠ .mark m := fun heq => by simp [heq, isLeaf] at ht
  fun_induction fuseMarks ts with
  | case1 ts ih => simp [ih, hmark]
  | case2 ts ih => simp [ih, hmark]
  | case3 ts ih => simp [ih, hmark]
  | case4 u ts _ _ _ ih => simp [ih]
  | case5 => rfl

theorem dot_mem_fuseMarks {ts : List Token} (h : .mark .dot ∈ ts) :
    Token.mark .dot ∈ fuseMarks ts ∨ Token.mark .ellipsis ∈ fuseMarks ts := by
  fun_induction fuseMarks ts with
  | case1 ts ih => simpa using ih (by simpa using h)
  | case2 ts ih => simpa using ih (by simpa using h)
  | case3 ts ih => simp
  | case4 u ts _ _ _ ih =>
    rcases List.mem_cons.mp h with rfl | h
    · simp
    · exact (ih h).imp (List.mem_cons_of_mem _) (List.mem_cons_of_mem _)
  | case5 => simp at h

/-! ### Taking marks apart and joining them -/

theorem grammarTokens_append {t : Token} (hsplit : splitMark t = [t]) (ht : standsAlone t = true) (ts us : List Token) :
    grammarTokens (ts ++ t :: us) = grammarTokens ts ++ t :: grammarTokens us := by
  rw [grammarTokens, List.flatMap_append, List.flatMap_cons, hsplit, List.singleton_append, fuseMarks_append ht]
  rfl

theorem mem_grammarTokens {ts : List Token} {t : Token} (ht : isLeaf t = true) : t ∈ grammarTokens ts ↔ t ∈ ts := by
  have hmark (m : Mark) : t ≠ .mark m := fun heq => by simp [heq, isLeaf] at ht
  have hsplit (u : Token) : t ∈ splitMark u ↔ t = u := by
    unfold splitMark
    split <;> simp [hmark]
  rw [grammarTokens, mem_fuseMarks ht, List.mem_flatMap]
  simp [hsplit]

theorem dot_mem_grammarTokens {ts : List Token} (h : .mark .dot ∈ ts) :
    Token.mark .dot ∈ grammarTokens ts ∨ Token.mark .ellipsis ∈ grammarTokens ts :=
  dot_mem_fuseMarks (List.mem_flatMap.mpr ⟨_, h, by simp [splitMark]⟩)

/-! ### Letters spelled anew -/

section Respelled

variable {vars : List Char} {ts us : List Token}

theorem Respelled.splitMarks (h : Respelled vars ts us) :
    Respelled vars (ts.flatMap splitMark) (us.flatMap splitMark) := by
  induction h with
  | nil => exact .nil
  | keep t _ ih => exact (Respelled.refl _).append ih
  | letter hc _ ih => exact .letter hc ih

theorem Respelled.fuseMarks (h : Respelled vars ts us) : Respelled vars (fuseMarks ts) (fuseMarks us) := by
  fun_induction Reader.fuseMarks ts generalizing us with
  | case1 ts ih | case2 ts ih =>
    obtain ⟨us₁, rfl, h₁⟩ := h.of_mark
    obtain ⟨us₂, rfl, h₂⟩ := h₁.of_mark
    exact .keep _ (ih h₂)
  | case3 ts ih =>
    obtain ⟨us₁, rfl, h₁⟩ := h.of_mark
    obtain ⟨us₂, rfl, h₂⟩ := h₁.of_mark
    obtain ⟨us₃, rfl, h₃⟩ := h₂.of_mark
    exact .keep _ (ih h₃)
  | case4 t ts hstars hslashes hdots ih =>
    cases h with
    | @keep _ us _ hrest =>
      rw [Reader.fuseMarks]
      · exact .keep t (ih hrest)
      · rintro more rfl rfl
        obtain ⟨ts', rfl⟩ := List.head?_eq_some_iff.mp (hrest.head?_mark rfl)
        exact hstars _ rfl rfl
      · rintro more rfl rfl
        obtain ⟨ts', rfl⟩ := List.head?_eq_some_iff.mp (hrest.head?_mark rfl)
        exact hslashes _ rfl rfl
      · rintro more rfl rfl
        obtain ⟨ts', rfl⟩ := List.head?_eq_some_iff.mp (hrest.head?_mark rfl)
        obtain ⟨us₁, hus₁, h₁⟩ := hrest.of_mark
        obtain rfl := (List.cons.inj hus₁).2
        obtain ⟨ts'', rfl⟩ := List.head?_eq_some_iff.mp (h₁.head?_mark rfl)
        exact hdots _ rfl rfl
    | @letter rest us c hc hrest =>
      change Respelled vars
        (.word "letter" :: Reader.fuseMarks (.mark .openParen :: .quoted c.toString :: .mark .closeParen :: rest)) _
      rw [fuseMarks_cons rfl, fuseMarks_cons rfl, fuseMarks_cons rfl]
      -- the four tokens stand alone, so what is joined behind them is joined alone
      have hcall : Respelled vars
          (Reader.fuseMarks (.mark .openParen :: .quoted c.toString :: .mark .closeParen :: rest))
          (Reader.fuseMarks (.mark .openParen :: .quoted c.toString :: .mark .closeParen :: us)) :=
        ih (.keep _ (.keep _ (.keep _ hrest)))
      rw [fuseMarks_cons rfl, fuseMarks_cons rfl, fuseMarks_cons rfl, fuseMarks_cons rfl, fuseMarks_cons rfl,
        fuseMarks_cons rfl] at hcall
      obtain ⟨us₁, hus₁, h₁⟩ := hcall.of_mark
      obtain rfl := (List.cons.inj hus₁).2
      cases h₁ with
      | keep _ h₂ =>
        obtain ⟨us₂, hus₂, h₃⟩ := h₂.of_mark
        obtain rfl := (List.cons.inj hus₂).2
        rw [fuseMarks_cons rfl]
        exact .letter hc h₃
  | case5 =>
    cases h
    exact .nil

theorem Respelled.grammarTokens (h : Respelled vars ts us) : Respelled vars (grammarTokens ts) (grammarTokens us) :=
  h.splitMarks.fuseMarks

end Respelled

end AlgebraTutor.Reader
