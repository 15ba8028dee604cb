import FlakeInputs.Proofs.Token.Numbers
import FlakeInputs.Proofs.Token.Paths

/-!
# The longest word

A text begins with words of several classes, and the longest of them is taken.  What is
taken of two texts can differ only if it goes beyond what the texts have in common.
-/

namespace FlakeInputs
namespace Word

/-! ## Urls -/

/-- A url is a scheme, a colon and more. -/
inductive IsUri : Text → Prop
  | intro {c : Char} {scheme rest : Text} (hc : isLetter c = true)
      (hscheme : ∀ d ∈ scheme, isSchemeChar d = true) (hrest : ∀ d ∈ rest, isUriChar d = true)
      (hne : rest ≠ []) : IsUri (c :: (scheme ++ ':' :: rest))

theorem takeWhile_scheme {scheme r : Text} (h : ∀ d ∈ scheme, isSchemeChar d = true) :
    (scheme ++ ':' :: r).takeWhile isSchemeChar = scheme := by
  rw [List.takeWhile_append_of_pos h, List.takeWhile_cons_of_neg (by decide), List.append_nil]

theorem dropWhile_scheme {scheme r : Text} (h : ∀ d ∈ scheme, isSchemeChar d = true) :
    (scheme ++ ':' :: r).dropWhile isSchemeChar = ':' :: r := by
  rw [List.dropWhile_append_of_pos h, List.dropWhile_cons_of_neg (by decide)]

theorem uri_cases (t : Text) : uri t = [] ∨ IsUri (uri t) ∧ uri t <+: t := by
  cases t with
  | nil => exact .inl rfl
  | cons c t =>
    rw [uri]
    split
    · next hc =>
      split
      · next r hr =>
        dsimp only
        split
        · exact .inl rfl
        · next hne =>
          right
          rw [List.isEmpty_iff] at hne
          refine ⟨.intro hc (fun _ hd => List.mem_takeWhile_imp hd)
            (fun _ hd => List.mem_takeWhile_imp hd) hne, ?_⟩
          have ht : t.takeWhile isSchemeChar ++ ':' :: r = t := by
            rw [← hr, List.takeWhile_append_dropWhile]
          refine ⟨r.dropWhile isUriChar, ?_⟩
          conv => rhs; rw [← ht]
          simp [List.takeWhile_append_dropWhile]
      · exact .inl rfl
    · exact .inl rfl

/-- Any url with which a text begins is no longer than what is taken. -/
theorem IsUri.le_uri {w t : Text} (hw : IsUri w) (h : w <+: t) : w <+: uri t := by
  obtain ⟨r, rfl⟩ := h
  obtain ⟨hc, hscheme, hrest, hne⟩ := hw
  next c scheme rest =>
  have hle : rest <+: (rest ++ r).takeWhile isUriChar :=
    le_takeWhile hrest (List.prefix_append _ _)
  have hempty : ((rest ++ r).takeWhile isUriChar).isEmpty = false := by
    rw [List.isEmpty_eq_false_iff]
    rintro hnil
    rw [hnil] at hle
    exact hne (List.prefix_nil.1 hle)
  have htext : c :: (scheme ++ ':' :: rest) ++ r = c :: (scheme ++ ':' :: (rest ++ r)) := by simp
  rw [htext, uri, if_pos hc, dropWhile_scheme hscheme]
  simp only [hempty, takeWhile_scheme hscheme, Bool.false_eq_true, if_false]
  rw [List.cons_append, List.cons_prefix_cons, List.prefix_append_right_inj,
    List.cons_prefix_cons]
  exact ⟨rfl, rfl, hle⟩

theorem IsUri.spelled {w : Text} (hw : IsUri w) : ∀ d ∈ w, isUriChar d = true := by
  obtain ⟨hc, hscheme, hrest, -⟩ := hw
  intro d hd
  rw [List.mem_cons, List.mem_append, List.mem_cons] at hd
  rcases hd with rfl | hd | rfl | hd
  · simp [isUriChar, hc]
  · exact isUriChar_of_isSchemeChar (hscheme d hd)
  · decide
  · exact hrest d hd

theorem lawful_uri : Lawful isUriChar uri where
  within t := by
    rcases uri_cases t with h | ⟨-, h⟩
    · rw [h]
      exact List.nil_prefix
    · exact h
  stable t t' h := by
    rcases uri_cases t with hnil | ⟨huri, -⟩
    · rw [hnil]
      exact List.nil_prefix
    · exact huri.le_uri h
  spelled t c hc := by
    rcases uri_cases t with hnil | ⟨huri, -⟩
    · rw [hnil] at hc
      exact absurd hc List.not_mem_nil
    · exact huri.spelled c hc

/-! ## The longest word -/

/-- The alphabet of a class of words. -/
def alphabet (kind : TokenKind) : Char → Bool :=
  if kind = .uri then isUriChar else isPlain

theorem lawful_of_mem {entry : TokenKind × (Text → Text)} (h : entry ∈ classes) :
    Lawful (alphabet entry.1) entry.2 := by
  simp only [classes, List.mem_cons, List.not_mem_nil, or_false] at h
  rcases h with rfl | rfl | rfl | rfl | rfl | rfl
  · exact lawful_identifier
  · exact lawful_integer.mono isPlain_of_isPathlike
  · exact lawful_float.mono isPlain_of_isPathlike
  · exact lawful_path.mono isPlain_of_isPathlike
  · exact lawful_searchPath.mono isPlain_of_isPathlike
  · exact lawful_uri

/-- The length of the best word so far. -/
def record (best : Option (TokenKind × Text)) : Nat :=
  best.elim 0 fun word => word.2.length

theorem longer_eq (t : Text) (best : Option (TokenKind × Text))
    (entry : TokenKind × (Text → Text)) :
    longer t best entry =
      if record best < (entry.2 t).length then some (entry.1, entry.2 t) else best := rfl

theorem record_longer (t : Text) (best : Option (TokenKind × Text))
    (entry : TokenKind × (Text → Text)) :
    record best ≤ record (longer t best entry) ∧
      (entry.2 t).length ≤ record (longer t best entry) := by
  rw [longer_eq]
  split
  · next hlt => exact ⟨Nat.le_of_lt hlt, Nat.le_refl _⟩
  · next hlt => exact ⟨Nat.le_refl _, Nat.le_of_not_lt hlt⟩

theorem record_foldl_longer (t : Text) (entries : List (TokenKind × (Text → Text)))
    (best : Option (TokenKind × Text)) :
    record best ≤ record (entries.foldl (longer t) best) ∧
      ∀ entry ∈ entries, (entry.2 t).length ≤ record (entries.foldl (longer t) best) := by
  induction entries generalizing best with
  | nil => exact ⟨Nat.le_refl _, fun _ h => absurd h List.not_mem_nil⟩
  | cons first entries ih =>
    obtain ⟨hbest, hall⟩ := ih (longer t best first)
    obtain ⟨hold, hfirst⟩ := record_longer t best first
    refine ⟨Nat.le_trans hold hbest, ?_⟩
    intro entry hentry
    rcases List.mem_cons.1 hentry with rfl | hentry
    · exact Nat.le_trans hfirst hbest
    · exact hall entry hentry

theorem foldl_longer_mem (t : Text) (entries : List (TokenKind × (Text → Text)))
    (best : Option (TokenKind × Text)) :
    entries.foldl (longer t) best = best ∨
      ∃ entry ∈ entries, entries.foldl (longer t) best = some (entry.1, entry.2 t) := by
  induction entries generalizing best with
  | nil => exact .inl rfl
  | cons first entries ih =>
    rw [List.foldl_cons]
    rcases ih (longer t best first) with h | ⟨entry, hentry, h⟩
    · rw [h, longer_eq]
      split
      · exact .inr ⟨first, List.mem_cons_self, rfl⟩
      · exact .inl rfl
    · exact .inr ⟨entry, List.mem_cons_of_mem _ hentry, h⟩

/-- The longest word belongs to a class. -/
theorem exists_class_of_longest? {t lexeme : Text} {kind : TokenKind}
    (h : longest? t = some (kind, lexeme)) :
    ∃ entry ∈ classes, kind = entry.1 ∧ lexeme = entry.2 t := by
  rcases foldl_longer_mem t classes none with hnone | ⟨entry, hentry, hsome⟩
  · exact absurd (h.symm.trans hnone) (by simp)
  · have heq := Option.some.inj (h.symm.trans hsome)
    exact ⟨entry, hentry, congrArg Prod.fst heq, congrArg Prod.snd heq⟩

/-- No class takes more than the longest word. -/
theorem length_le_record {t : Text} {entry : TokenKind × (Text → Text)} (h : entry ∈ classes) :
    (entry.2 t).length ≤ record (longest? t) :=
  (record_foldl_longer t classes none).2 entry h

theorem longest?_congr {t t' : Text} (h : ∀ entry ∈ classes, entry.2 t = entry.2 t') :
    longest? t = longest? t' := by
  unfold longest?
  generalize (none : Option (TokenKind × Text)) = best
  generalize classes = entries at h
  induction entries generalizing best with
  | nil => rfl
  | cons first entries ih =>
    rw [List.foldl_cons, List.foldl_cons, longer_eq, longer_eq, h first List.mem_cons_self]
    exact ih _ fun entry hentry => h entry (List.mem_cons_of_mem _ hentry)

/-- The longest words of two texts that begin with `v` are the same if neither goes
beyond `v`. -/
theorem longest?_eq_of_le {v r r' : Text} (h : record (longest? (v ++ r)) ≤ v.length)
    (h' : ∀ entry ∈ classes, (entry.2 (v ++ r')).length ≤ v.length) :
    longest? (v ++ r') = longest? (v ++ r) := by
  refine longest?_congr fun entry hentry => ?_
  exact ((lawful_of_mem hentry).eq_of_length_le
    (Nat.le_trans (length_le_record hentry) h) (h' entry hentry)).symm

theorem longest?_within {t lexeme : Text} {kind : TokenKind}
    (h : longest? t = some (kind, lexeme)) : lexeme <+: t := by
  obtain ⟨entry, hentry, -, rfl⟩ := exists_class_of_longest? h
  exact (lawful_of_mem hentry).within t

/-- A url that is no shorter than the longest word is the longest word. -/
theorem longest?_of_isUri {v r : Text} (hv : IsUri v)
    (h : record (longest? (v ++ r)) ≤ v.length) : longest? (v ++ r) = some (.uri, v) := by
  have hle : v.length ≤ record (longest? (v ++ r)) := by
    have huri : (TokenKind.uri, uri) ∈ classes := by simp [classes]
    exact Nat.le_trans (hv.le_uri (List.prefix_append v r)).length_le (length_le_record huri)
  have hpos : 0 < v.length := by
    obtain ⟨_, _, _, _⟩ := hv
    exact Nat.succ_pos _
  cases hlongest : longest? (v ++ r) with
  | none =>
    rw [hlongest] at hle
    exact absurd hle (Nat.not_le_of_lt hpos)
  | some word =>
    obtain ⟨kind, lexeme⟩ := word
    rw [hlongest] at h hle
    obtain rfl : lexeme = v :=
      (List.prefix_of_prefix_length_le (longest?_within hlongest)
        (List.prefix_append v r) h).eq_of_length (Nat.le_antisymm h hle)
    obtain ⟨entry, hentry, rfl, hlexeme⟩ := exists_class_of_longest? hlongest
    have hcolon : ':' ∈ lexeme := by
      obtain ⟨_, _, _, _⟩ := hv
      simp
    have hspelled := (lawful_of_mem hentry).spelled _ ':' (hlexeme ▸ hcolon)
    unfold alphabet at hspelled
    split at hspelled
    · next hkind => rw [hkind]
    · exact absurd hspelled (by decide)

end Word
end FlakeInputs
