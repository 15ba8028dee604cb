import FlakeInputs.Token.Word
import Mathlib.Data.List.TakeWhile

/-!
# Laws of words

A class of words takes the longest member with which a text begins.  Two laws are
enough to say so: what it takes is the beginning of the text, and it takes at least as
much of any other text with that beginning.  Hence what a class takes of two texts can
differ only if it goes beyond what the texts have in common.
-/

namespace FlakeInputs

theorem le_takeWhile {p : Char → Bool} {w t : Text} (hw : ∀ c ∈ w, p c = true) (h : w <+: t) :
    w <+: t.takeWhile p := by
  obtain ⟨r, rfl⟩ := h
  rw [List.takeWhile_append_of_pos hw]
  exact List.prefix_append _ _

namespace Word

/-- The characters of words other than urls. -/
def isPlain (c : Char) : Bool :=
  isLetter c || isDigit c || "_'-.+/~<>".toList.contains c

/-- The characters of numbers and paths. -/
def isPathlike (c : Char) : Bool :=
  isLetter c || isDigit c || "_-.+/~<>".toList.contains c

/-- What it takes for a function to be a class of words over an alphabet. -/
structure Lawful (alphabet : Char → Bool) (f : Text → Text) : Prop where
  within : ∀ t, f t <+: t
  stable : ∀ t t', f t <+: t' → f t <+: f t'
  spelled : ∀ t, ∀ c ∈ f t, alphabet c = true

namespace Lawful

variable {alphabet : Char → Bool} {f : Text → Text}

/-- Two texts that agree on `v` agree on what is taken of them, if nothing beyond `v` is. -/
theorem eq_of_length_le (hf : Lawful alphabet f) {v r r' : Text}
    (h : (f (v ++ r)).length ≤ v.length) (h' : (f (v ++ r')).length ≤ v.length) :
    f (v ++ r) = f (v ++ r') := by
  have grow : ∀ r r' : Text, (f (v ++ r)).length ≤ v.length → f (v ++ r) <+: f (v ++ r') := by
    intro r r' hle
    have hv : f (v ++ r) <+: v :=
      List.prefix_of_prefix_length_le (hf.within _) (List.prefix_append _ _) hle
    exact hf.stable _ _ (hv.trans (List.prefix_append _ _))
  exact (grow r r' h).eq_of_length_le (grow r' r h').length_le

/-- What is taken stops before a character that is not in the alphabet. -/
theorem length_le_of_not_alphabet (hf : Lawful alphabet f) {a b : Text} {c : Char}
    (hc : alphabet c = false) : (f (a ++ c :: b)).length ≤ a.length := by
  refine Nat.le_of_not_lt fun hlt => ?_
  have hac : a ++ [c] <+: f (a ++ c :: b) := by
    refine List.prefix_of_prefix_length_le ?_ (hf.within _) (by simpa using Nat.succ_le_of_lt hlt)
    exact ⟨b, by simp⟩
  have hmem : c ∈ f (a ++ c :: b) := hac.subset (by simp)
  rw [hf.spelled _ c hmem] at hc
  exact Bool.noConfusion hc

end Lawful

/-- A class of words is one over a larger alphabet, too. -/
theorem Lawful.mono {alphabet alphabet' : Char → Bool} {f : Text → Text} (hf : Lawful alphabet f)
    (h : ∀ c, alphabet c = true → alphabet' c = true) : Lawful alphabet' f where
  within := hf.within
  stable := hf.stable
  spelled t c hc := h c (hf.spelled t c hc)

theorem isPlain_of_isPathlike (c : Char) (h : isPathlike c = true) : isPlain c = true := by
  simp only [isPathlike, Bool.or_eq_true] at h
  rcases h with (h | h) | h
  · simp [isPlain, h]
  · simp [isPlain, h]
  · simp only [List.contains_eq_mem, decide_eq_true_eq] at h
    have hall : "_-.+/~<>".toList.all isPlain = true := by decide
    exact List.all_eq_true.1 hall c h

theorem isPathlike_of_isDigit {c : Char} (h : isDigit c = true) : isPathlike c = true := by
  simp [isPathlike, h]

theorem isPathlike_of_isPathChar {c : Char} (h : isPathChar c = true) : isPathlike c = true := by
  simp only [isPathChar, Bool.or_eq_true, beq_iff_eq] at h
  rcases h with ((((h | h) | rfl) | rfl) | rfl) | rfl
  · simp [isPathlike, h]
  · simp [isPathlike, h]
  all_goals decide

theorem isPlain_of_isPathChar {c : Char} (h : isPathChar c = true) : isPlain c = true :=
  isPlain_of_isPathlike c (isPathlike_of_isPathChar h)

theorem isPlain_of_isIdentChar {c : Char} (h : isIdentChar c = true) : isPlain c = true := by
  simp only [isIdentChar, Bool.or_eq_true, beq_iff_eq] at h
  rcases h with (((h | h) | rfl) | rfl) | rfl
  · simp [isPlain, h]
  · simp [isPlain, h]
  all_goals decide

theorem isIdentChar_of_isIdentStart {c : Char} (h : isIdentStart c = true) :
    isIdentChar c = true := by
  simp only [isIdentStart, Bool.or_eq_true, beq_iff_eq] at h
  rcases h with h | rfl
  · simp [isIdentChar, h]
  · decide

theorem isUriChar_of_isSchemeChar {c : Char} (h : isSchemeChar c = true) :
    isUriChar c = true := by
  simp only [isSchemeChar, Bool.or_eq_true, beq_iff_eq] at h
  rcases h with (((h | h) | rfl) | rfl) | rfl
  · simp [isUriChar, h]
  · simp [isUriChar, h]
  all_goals decide

theorem drop_of_append_eq {a b t : Text} (h : a ++ b = t) : t.drop a.length = b := by
  rw [← h]
  exact List.drop_left

/-- What two functions take one after the other is the beginning of the text. -/
theorem append_within {f g : Text → Text} (hf : ∀ t, f t <+: t) (hg : ∀ t, g t <+: t)
    (t : Text) : f t ++ g (t.drop (f t).length) <+: t := by
  obtain ⟨r, hr⟩ := hf t
  rw [drop_of_append_eq hr]
  exact ((List.prefix_append_right_inj _).2 (hg r)).trans ⟨[], by rw [List.append_nil, hr]⟩

/-- Two functions take at least as much of another text one after the other, unless the
first of them goes on into what the second one took. -/
theorem append_stable {f g : Text → Text} {t t' : Text}
    (hg : ∀ t t', g t <+: t' → g t <+: g t')
    (h : f t ++ g (t.drop (f t).length) <+: t')
    (hmore : f t ≠ f t' → f t ++ g (t.drop (f t).length) <+: f t') :
    f t ++ g (t.drop (f t).length) <+: f t' ++ g (t'.drop (f t').length) := by
  by_cases heq : f t = f t'
  · obtain ⟨r, hr⟩ := h
    rw [List.append_assoc] at hr
    rw [← heq, drop_of_append_eq hr]
    exact (List.prefix_append_right_inj _).2 (hg _ _ (List.prefix_append _ _))
  · exact (hmore heq).trans (List.prefix_append _ _)

/-! ## Identifiers and integers -/

theorem lawful_integer : Lawful isPathlike integer where
  within _ := List.takeWhile_prefix _
  stable _ _ h := le_takeWhile (fun _ hc => List.mem_takeWhile_imp hc) h
  spelled _ _ hc := isPathlike_of_isDigit (List.mem_takeWhile_imp hc)

theorem lawful_identifier : Lawful isPlain identifier where
  within t := by
    cases t with
    | nil => exact List.prefix_rfl
    | cons c t =>
      rw [identifier]
      split
      · rw [List.cons_prefix_cons]
        exact ⟨rfl, List.takeWhile_prefix _⟩
      · exact List.nil_prefix
  stable t t' h := by
    cases t with
    | nil => exact List.nil_prefix
    | cons c t =>
      rw [identifier] at h ⊢
      split at h
      · next hc =>
        rw [if_pos hc]
        obtain ⟨r, rfl⟩ := h
        rw [List.cons_append, identifier, if_pos hc, List.cons_prefix_cons]
        exact ⟨rfl, le_takeWhile (fun _ hc => List.mem_takeWhile_imp hc) (List.prefix_append _ _)⟩
      · next hc =>
        rw [if_neg hc]
        exact List.nil_prefix
  spelled t c hc := by
    cases t with
    | nil => simp [identifier] at hc
    | cons d t =>
      rw [identifier] at hc
      split at hc
      · next hd =>
        rcases List.mem_cons.1 hc with rfl | hc
        · exact isPlain_of_isIdentChar (isIdentChar_of_isIdentStart hd)
        · exact isPlain_of_isIdentChar (List.mem_takeWhile_imp hc)
      · simp at hc

end Word
end FlakeInputs
