import FlakeInputs.Proofs.Token.Lawful

/-!
# Laws of decimal numbers

A decimal number is a mantissa with a point in it, and an exponent can stand behind it.
An `e` without digits is no part of the number.
-/

namespace FlakeInputs
namespace Word

/-- The forms of a decimal number in front of its exponent. -/
inductive IsMantissa : Text → Prop
  | point {digits : Text} (hdigits : ∀ d ∈ digits, isDigit d = true) (hne : digits ≠ []) :
      IsMantissa ('.' :: digits)
  | zero {digits : Text} (hdigits : ∀ d ∈ digits, isDigit d = true) (hne : digits ≠ []) :
      IsMantissa ('0' :: '.' :: digits)
  | full {c : Char} {digits fraction : Text} (hc : isDigit c = true) (hzero : c ≠ '0')
      (hdigits : ∀ d ∈ digits, isDigit d = true) (hfraction : ∀ d ∈ fraction, isDigit d = true) :
      IsMantissa (c :: (digits ++ '.' :: fraction))

theorem mantissa_cases (t : Text) :
    mantissa t = [] ∨ IsMantissa (mantissa t) ∧ mantissa t <+: t := by
  unfold mantissa
  split
  · next t =>
    dsimp only
    split
    · exact .inl rfl
    · next hne =>
      rw [List.isEmpty_iff] at hne
      exact .inr ⟨.point (fun _ hd => List.mem_takeWhile_imp hd) hne,
        by simpa using List.takeWhile_prefix _⟩
  · next t =>
    dsimp only
    split
    · exact .inl rfl
    · next hne =>
      rw [List.isEmpty_iff] at hne
      exact .inr ⟨.zero (fun _ hd => List.mem_takeWhile_imp hd) hne,
        by simpa using List.takeWhile_prefix _⟩
  · next c t _ _ =>
    split
    · next hc =>
      rw [Bool.and_eq_true, bne_iff_ne] at hc
      split
      · next r hr =>
        refine .inr ⟨.full hc.1 hc.2 (fun _ hd => List.mem_takeWhile_imp hd)
          (fun _ hd => List.mem_takeWhile_imp hd), ?_⟩
        have ht : t.takeWhile isDigit ++ '.' :: r = t := by
          rw [← hr, List.takeWhile_append_dropWhile]
        refine ⟨r.dropWhile isDigit, ?_⟩
        conv => rhs; rw [← ht]
        simp [List.takeWhile_append_dropWhile]
      · exact .inl rfl
    · exact .inl rfl
  · exact .inl rfl

theorem takeWhile_ne_nil {p : Char → Bool} {w r : Text} (hw : ∀ d ∈ w, p d = true)
    (hne : w ≠ []) : ((w ++ r).takeWhile p).isEmpty = false := by
  rw [List.isEmpty_eq_false_iff]
  intro hnil
  have hle := le_takeWhile hw (List.prefix_append w r)
  rw [hnil] at hle
  exact hne (List.prefix_nil.1 hle)

theorem dropWhile_digits {digits r : Text} (h : ∀ d ∈ digits, isDigit d = true) :
    (digits ++ '.' :: r).dropWhile isDigit = '.' :: r := by
  rw [List.dropWhile_append_of_pos h]
  rfl

theorem takeWhile_digits {digits r : Text} (h : ∀ d ∈ digits, isDigit d = true) :
    (digits ++ '.' :: r).takeWhile isDigit = digits := by
  rw [List.takeWhile_append_of_pos h]
  simp [isDigit, Char.isDigit]

theorem IsMantissa.le_mantissa {w t : Text} (hw : IsMantissa w) (h : w <+: t) :
    w <+: mantissa t := by
  obtain ⟨r, rfl⟩ := h
  cases hw with
  | @point digits hdigits hne =>
    simp only [List.cons_append, mantissa, takeWhile_ne_nil hdigits hne, Bool.false_eq_true,
      if_false, List.cons_prefix_cons, true_and]
    exact le_takeWhile hdigits (List.prefix_append _ _)
  | @zero digits hdigits hne =>
    simp only [List.cons_append, mantissa, takeWhile_ne_nil hdigits hne, Bool.false_eq_true,
      if_false, List.cons_prefix_cons, true_and]
    exact le_takeWhile hdigits (List.prefix_append _ _)
  | @full c digits fraction hc hzero hdigits hfraction =>
    have hpoint : c ≠ '.' := by
      rintro rfl
      exact absurd hc (by decide)
    have htext :
        c :: (digits ++ '.' :: fraction) ++ r = c :: (digits ++ '.' :: (fraction ++ r)) := by
      simp
    have hstart : (isDigit c && c != '0') = true := by
      rw [Bool.and_eq_true, bne_iff_ne]
      exact ⟨hc, hzero⟩
    rw [htext, mantissa.eq_3 _ _ hpoint (fun _ heq _ => hzero heq), if_pos hstart,
      dropWhile_digits hdigits, takeWhile_digits hdigits]
    simp only [List.cons_append, List.cons_prefix_cons, true_and, List.prefix_append_right_inj]
    exact le_takeWhile hfraction (List.prefix_append _ _)

theorem IsMantissa.spelled {w : Text} (hw : IsMantissa w) :
    ∀ d ∈ w, isDigit d = true ∨ d = '.' := by
  intro d hd
  cases hw with
  | point hdigits _ =>
    rcases List.mem_cons.1 hd with rfl | hd
    · exact .inr rfl
    · exact .inl (hdigits d hd)
  | zero hdigits _ =>
    rw [List.mem_cons, List.mem_cons] at hd
    rcases hd with rfl | rfl | hd
    · exact .inl rfl
    · exact .inr rfl
    · exact .inl (hdigits d hd)
  | full hc _ hdigits hfraction =>
    rw [List.mem_cons, List.mem_append, List.mem_cons] at hd
    rcases hd with rfl | hd | rfl | hd
    · exact .inl hc
    · exact .inl (hdigits d hd)
    · exact .inr rfl
    · exact .inl (hfraction d hd)

/-- The form of an exponent. -/
inductive IsExponent : Text → Prop
  | intro {e : Char} {s digits : Text} (he : e = 'e' ∨ e = 'E') (hs : s ∈ [[], ['+'], ['-']])
      (hdigits : ∀ d ∈ digits, isDigit d = true) (hne : digits ≠ []) :
      IsExponent (e :: (s ++ digits))

theorem sign_cases (t : Text) : sign t ∈ [[], ['+'], ['-']] ∧ sign t <+: t := by
  unfold sign
  split
  · exact ⟨by simp, _, rfl⟩
  · exact ⟨by simp, _, rfl⟩
  · exact ⟨by simp, List.nil_prefix⟩

theorem exponent_cases (t : Text) :
    exponent t = [] ∨ IsExponent (exponent t) ∧ exponent t <+: t := by
  cases t with
  | nil => exact .inl rfl
  | cons e t =>
    rw [exponent]
    split
    · next he =>
      rw [Bool.or_eq_true, beq_iff_eq, beq_iff_eq] at he
      dsimp only
      split
      · exact .inl rfl
      · next hne =>
        rw [List.isEmpty_iff] at hne
        obtain ⟨hs, hle⟩ := sign_cases t
        refine .inr ⟨.intro he hs (fun _ hd => List.mem_takeWhile_imp hd) hne, ?_⟩
        rw [List.cons_append, List.cons_prefix_cons]
        obtain ⟨r, hr⟩ := hle
        refine ⟨rfl, ?_⟩
        rw [drop_of_append_eq hr]
        exact ((List.prefix_append_right_inj _).2 (List.takeWhile_prefix _)).trans
          ⟨[], by rw [List.append_nil, hr]⟩
    · exact .inl rfl

theorem sign_append {s digits r : Text} (hs : s ∈ [[], ['+'], ['-']])
    (hdigits : ∀ d ∈ digits, isDigit d = true) (hne : digits ≠ []) :
    sign (s ++ digits ++ r) = s := by
  simp only [List.mem_cons, List.not_mem_nil, or_false] at hs
  rcases hs with rfl | rfl | rfl
  · obtain ⟨d, digits, rfl⟩ := List.exists_cons_of_ne_nil hne
    have hd := hdigits d (by simp)
    have hplus : d ≠ '+' := by rintro rfl; exact absurd hd (by decide)
    have hminus : d ≠ '-' := by rintro rfl; exact absurd hd (by decide)
    simp [sign, hplus, hminus]
  · rfl
  · rfl

theorem IsExponent.le_exponent {w t : Text} (hw : IsExponent w) (h : w <+: t) :
    w <+: exponent t := by
  obtain ⟨r, rfl⟩ := h
  obtain ⟨he, hs, hdigits, hne⟩ := hw
  next e s digits =>
  have hstart : (e == 'e' || e == 'E') = true := by
    rw [Bool.or_eq_true, beq_iff_eq, beq_iff_eq]
    exact he
  rw [List.cons_append, exponent, if_pos hstart, sign_append hs hdigits hne, List.append_assoc]
  dsimp only
  rw [List.drop_left]
  simp only [takeWhile_ne_nil hdigits hne, Bool.false_eq_true, if_false, List.cons_append,
    List.cons_prefix_cons, true_and, List.prefix_append_right_inj]
  exact le_takeWhile hdigits (List.prefix_append _ _)

theorem IsExponent.spelled {w : Text} (hw : IsExponent w) : ∀ d ∈ w, isPathlike d = true := by
  obtain ⟨he, hs, hdigits, -⟩ := hw
  intro d hd
  rw [List.mem_cons, List.mem_append] at hd
  rcases hd with rfl | hd | hd
  · rcases he with rfl | rfl <;> decide
  · simp only [List.mem_cons, List.not_mem_nil, or_false] at hs
    rcases hs with rfl | rfl | rfl
    · exact absurd hd List.not_mem_nil
    · rw [List.mem_singleton.1 hd]
      decide
    · rw [List.mem_singleton.1 hd]
      decide
  · exact isPathlike_of_isDigit (hdigits d hd)

theorem float_eq (t : Text) :
    float t = if mantissa t = [] then [] else
      mantissa t ++ exponent (t.drop (mantissa t).length) := by
  unfold float
  cases mantissa t <;> rfl

theorem mantissa_within (t : Text) : mantissa t <+: t := by
  rcases mantissa_cases t with h | ⟨-, h⟩
  · rw [h]
    exact List.nil_prefix
  · exact h

theorem mantissa_stable (t t' : Text) (h : mantissa t <+: t') : mantissa t <+: mantissa t' := by
  rcases mantissa_cases t with hnil | ⟨hm, -⟩
  · rw [hnil]
    exact List.nil_prefix
  · exact hm.le_mantissa h

theorem exponent_within (t : Text) : exponent t <+: t := by
  rcases exponent_cases t with h | ⟨-, h⟩
  · rw [h]
    exact List.nil_prefix
  · exact h

theorem exponent_stable (t t' : Text) (h : exponent t <+: t') : exponent t <+: exponent t' := by
  rcases exponent_cases t with hnil | ⟨he, -⟩
  · rw [hnil]
    exact List.nil_prefix
  · exact he.le_exponent h

/-- A mantissa does not go on into an exponent. -/
theorem mantissa_stops {t a r : Text} {e : Char} (he : e = 'e' ∨ e = 'E')
    (ht : t = a ++ e :: r) : (mantissa t).length ≤ a.length := by
  refine Nat.le_of_not_lt fun hlt => ?_
  have hmore : a ++ [e] <+: mantissa t := by
    refine List.prefix_of_prefix_length_le ⟨r, by simp [ht]⟩ (mantissa_within t) ?_
    simpa using Nat.succ_le_of_lt hlt
  have hmem : e ∈ mantissa t := hmore.subset (by simp)
  rcases mantissa_cases t with hnil | ⟨hm, -⟩
  · rw [hnil] at hmem
    exact absurd hmem List.not_mem_nil
  · rcases hm.spelled e hmem with h | h
    · rcases he with rfl | rfl <;> exact absurd h (by decide)
    · rcases he with rfl | rfl <;> exact absurd h (by decide)

theorem lawful_float : Lawful isPathlike float where
  within t := by
    rw [float_eq]
    split
    · exact List.nil_prefix
    · exact append_within mantissa_within exponent_within t
  stable t t' h := by
    rw [float_eq] at h ⊢
    split at h
    · next hnil =>
      rw [if_pos hnil]
      exact List.nil_prefix
    · next hne =>
      have hle := mantissa_stable t t' ((List.prefix_append _ _).trans h)
      have hne' : mantissa t' ≠ [] := fun hnil => hne (List.prefix_nil.1 (hnil ▸ hle))
      rw [if_neg hne, float_eq, if_neg hne']
      refine append_stable exponent_stable h fun hmore => ?_
      rcases exponent_cases (t.drop (mantissa t).length) with hnil | ⟨hexponent, -⟩
      · rw [hnil, List.append_nil]
        exact hle
      · -- The longer mantissa would take the mark of the exponent along.
        obtain ⟨r, hr⟩ := h
        generalize exponent (t.drop (mantissa t).length) = w at hexponent hr
        obtain ⟨he, -, -, -⟩ := hexponent
        rw [List.append_assoc, List.cons_append] at hr
        have hlength := mantissa_stops he hr.symm
        exact absurd (hle.eq_of_length_le hlength) hmore
  spelled t c hc := by
    rw [float_eq] at hc
    split at hc
    · exact absurd hc List.not_mem_nil
    · rcases List.mem_append.1 hc with hc | hc
      · rcases mantissa_cases t with hnil | ⟨hm, -⟩
        · rw [hnil] at hc
          exact absurd hc List.not_mem_nil
        · rcases hm.spelled c hc with hd | rfl
          · exact isPathlike_of_isDigit hd
          · decide
      · rcases exponent_cases (t.drop (mantissa t).length) with hnil | ⟨he, -⟩
        · rw [hnil] at hc
          exact absurd hc List.not_mem_nil
        · exact he.spelled c hc

end Word
end FlakeInputs
