import FlakeInputs.Proofs.Token.Runs

/-!
# Barriers

Nothing goes on over a brace, a bracket, a semicolon, a quote or a blank, because no word
and no symbol has such a character in it.  Over an equals sign only a url could go on, and
over a comma only a url, too; so these are barriers as well wherever they are tokens of
their own.
-/

namespace FlakeInputs

namespace Word

/-- A beginning of a url is a url if its last character shows that the scheme is over. -/
theorem IsUri.of_le {w a : Text} {d : Char} (hw : IsUri w) (h : a ++ [d] <+: w)
    (hscheme : isSchemeChar d = false) (hcolon : d ≠ ':') : IsUri (a ++ [d]) := by
  obtain ⟨hc, hall, hrest, -⟩ := hw
  next c scheme rest =>
  have hnotScheme : d ∉ c :: scheme := by
    intro hd
    rcases List.mem_cons.1 hd with rfl | hd
    · simp [isSchemeChar, hc] at hscheme
    · rw [hall d hd] at hscheme
      exact Bool.noConfusion hscheme
  obtain ⟨z, hz⟩ := h
  rw [← List.cons_append, List.append_eq_append_iff] at hz
  rcases hz with ⟨as, heq, -⟩ | ⟨bs, heq, hbs⟩
  · exact absurd (by rw [heq]; simp) hnotScheme
  · cases bs with
    | nil => exact absurd (by rw [List.append_nil] at heq; rw [← heq]; simp) hnotScheme
    | cons b bs =>
      obtain ⟨rfl, rfl⟩ := List.cons.inj hbs
      have hne : bs ≠ [] := by
        rintro rfl
        exact hcolon (List.append_inj_right' heq rfl |> List.cons.inj).1
      rw [heq]
      exact .intro hc hall (fun d hd => hrest d (List.mem_append_left _ hd)) hne

theorem isUri_of_le_uri {v t : Text} (hv : v ≠ []) (h : v <+: uri t) : IsUri (uri t) := by
  rcases uri_cases t with hnil | ⟨huri, -⟩
  · rw [hnil] at h
    exact absurd (List.prefix_nil.1 h) hv
  · exact huri

/-- Without a last character behind the scheme a url is still a url, unless it ends with
the colon then. -/
theorem IsUri.of_concat {v : Text} {d : Char} (h : IsUri (v ++ [d]))
    (hcolon : v.getLast? ≠ some ':') : IsUri v := by
  generalize hw : v ++ [d] = w at h
  obtain ⟨hc, hall, hrest, hne⟩ := h
  next c scheme rest =>
  have htext : c :: (scheme ++ ':' :: rest) =
      c :: (scheme ++ ':' :: rest.dropLast) ++ [rest.getLast hne] := by
    simp [List.dropLast_concat_getLast hne]
  obtain rfl := List.append_inj_left' (hw.trans htext) rfl
  refine .intro hc hall (fun d hd => hrest d (List.dropLast_subset _ hd)) fun hnil => ?_
  rw [hnil, ← List.cons_append, List.getLast?_append] at hcolon
  exact hcolon rfl

/-- A url with more url characters behind it is a url. -/
theorem IsUri.append {x y : Text} (h : IsUri x) (hy : ∀ c ∈ y, isUriChar c = true) :
    IsUri (x ++ y) := by
  obtain ⟨hc, hscheme, hrest, hne⟩ := h
  next c scheme rest =>
  have htext : c :: (scheme ++ ':' :: rest) ++ y = c :: (scheme ++ ':' :: (rest ++ y)) := by simp
  rw [htext]
  refine .intro hc hscheme (fun d hd => ?_) (List.append_ne_nil_of_left_ne_nil hne y)
  exact (List.mem_append.1 hd).elim (hrest d) (hy d)

/-- A text that ends with a url is a url itself if it is one with one more character. -/
theorem IsUri.of_concat_suffix {x v : Text} {d : Char} (h : IsUri (v ++ [d])) (hx : IsUri x)
    (hsuffix : x <:+ v) : IsUri v := by
  generalize hw : v ++ [d] = w at h
  obtain ⟨hc, hscheme, hrest, hne⟩ := h
  next c scheme rest =>
  have htext : c :: (scheme ++ ':' :: rest) =
      c :: (scheme ++ ':' :: rest.dropLast) ++ [rest.getLast hne] := by
    simp [List.dropLast_concat_getLast hne]
  obtain rfl := List.append_inj_left' (hw.trans htext) rfl
  refine .intro hc hscheme (fun d hd => hrest d (List.dropLast_subset _ hd)) fun hnil => ?_
  -- The colon of the url `x` is not its last character, so it would stand in the scheme.
  rw [hnil] at hsuffix
  obtain ⟨a, ha⟩ := hsuffix
  obtain ⟨hc', -, -, hne'⟩ := hx
  next c' scheme' rest' =>
  have hfront : a ++ c' :: (scheme' ++ ':' :: rest'.dropLast) = c :: scheme := by
    have hback : (a ++ c' :: (scheme' ++ ':' :: rest'.dropLast)) ++ [rest'.getLast hne'] =
        (c :: scheme) ++ [':'] := by
      simpa [List.dropLast_concat_getLast hne'] using ha
    exact List.append_inj_left' hback rfl
  have hmem : ':' ∈ c :: scheme := by
    rw [← hfront]
    simp
  rcases List.mem_cons.1 hmem with rfl | hmem
  · exact absurd hc (by decide)
  · exact absurd (hscheme _ hmem) (by decide)

end Word

namespace Scan

/-- Characters over which no word and no symbol goes on. -/
def isHard (c : Char) : Bool :=
  !Word.isPlain c && !Word.isUriChar c && symbols.all fun s => !s.dropLast.contains c

theorem mem_dropLast_of_le {s a b : Text} {c : Char} (h : s <+: a ++ c :: b)
    (hlt : (a ++ [c]).length < s.length) : c ∈ s.dropLast := by
  have hle : a ++ [c] <+: s :=
    List.prefix_of_prefix_length_le ⟨b, by simp⟩ h (Nat.le_of_lt hlt)
  obtain ⟨z, rfl⟩ := hle
  have hz : z ≠ [] := by
    rintro rfl
    simp at hlt
  rw [List.dropLast_append_of_ne_nil hz]
  simp

theorem alphabet_of_isHard {c : Char} (hc : isHard c = true) (kind : TokenKind) :
    Word.alphabet kind c = false := by
  simp only [isHard, Bool.and_eq_true, Bool.not_eq_true'] at hc
  unfold Word.alphabet
  split
  · exact hc.1.2
  · exact hc.1.1

theorem sealed_of_hard {a r : Text} {c : Char} (hc : isHard c = true) : Sealed (a ++ [c]) r where
  word entry hentry := by
    have hle := (Word.lawful_of_mem hentry).length_le_of_not_alphabet (a := a) (b := r)
      (alphabet_of_isHard hc entry.1)
    rw [List.append_assoc, List.singleton_append, List.length_append]
    omega
  symbol symbol hsymbol hle := by
    refine Nat.le_of_not_lt fun hlt => ?_
    rw [List.append_assoc, List.singleton_append] at hle
    have hmem := mem_dropLast_of_le hle hlt
    simp only [isHard, Bool.and_eq_true, List.all_eq_true] at hc
    simpa [hmem] using hc.2 symbol hsymbol

/-- At the end of a text nothing can go on. -/
theorem sealed_nil (v : Text) : Sealed v [] where
  word entry hentry := by
    rw [List.append_nil]
    exact ((Word.lawful_of_mem hentry).within v).length_le
  symbol symbol _ hle := by
    rw [List.append_nil] at hle
    exact hle.length_le

/-- What a url class takes goes on over a seam only if all of the text before it is a url or
could still be the beginning of one. -/
theorem uri_length_le {v r r' : Text}
    (hrecord : Word.record (Word.longest? (v ++ r)) ≤ v.length)
    (huri : Word.longest? (v ++ r) ≠ some (.uri, v))
    (hv : v ++ r'.take 1 <+: Word.uri (v ++ r') → Word.IsUri v) :
    (Word.uri (v ++ r')).length ≤ v.length := by
  refine Nat.le_of_not_lt fun hlt => ?_
  have hle : v ++ r'.take 1 <+: Word.uri (v ++ r') := by
    refine List.prefix_of_prefix_length_le ?_ (Word.lawful_uri.within _) ?_
    · exact (List.prefix_append_right_inj v).2 (List.take_prefix 1 r')
    · rw [List.length_append, List.length_take]
      omega
  exact huri (Word.longest?_of_isUri (hv hle) hrecord)

/-- The classes of words: urls, and those that have no other characters than plain ones. -/
theorem uri_or_plain {entry : TokenKind × (Text → Text)} (h : entry ∈ Word.classes) :
    entry.2 = Word.uri ∨ Word.Lawful Word.isPlain entry.2 := by
  simp only [Word.classes, List.mem_cons, List.not_mem_nil, or_false] at h
  rcases h with rfl | rfl | rfl | rfl | rfl | rfl
  · exact .inr Word.lawful_identifier
  · exact .inr (Word.lawful_integer.mono Word.isPlain_of_isPathlike)
  · exact .inr (Word.lawful_float.mono Word.isPlain_of_isPathlike)
  · exact .inr (Word.lawful_path.mono Word.isPlain_of_isPathlike)
  · exact .inr (Word.lawful_searchPath.mono Word.isPlain_of_isPathlike)
  · exact .inl rfl

theorem sealed_of_assign {a r r' : Text}
    (hrecord : Word.record (Word.longest? (a ++ ['='] ++ r)) ≤ (a ++ ['=']).length)
    (huri : Word.longest? (a ++ ['='] ++ r) ≠ some (.uri, a ++ ['=']))
    (hr : r'.head? ≠ some '=') : Sealed (a ++ ['=']) r' where
  word entry hentry := by
    rcases uri_or_plain hentry with hentry | hentry
    · rw [hentry]
      refine uri_length_le hrecord huri fun hle => ?_
      have hle' : a ++ ['='] <+: Word.uri (a ++ ['='] ++ r') := (List.prefix_append _ _).trans hle
      exact (Word.isUri_of_le_uri (by simp) hle').of_le hle' (by decide) (by decide)
    · have hle := hentry.length_le_of_not_alphabet (a := a) (b := r') (c := '=') (by decide)
      rw [List.append_assoc, List.singleton_append, List.length_append]
      omega
  symbol symbol hsymbol hle := by
    refine Nat.le_of_not_lt fun hlt => ?_
    have hall : ∀ s ∈ symbols, '=' ∈ s.dropLast → s = ['=', '='] := by decide
    rw [List.append_assoc, List.singleton_append] at hle
    obtain rfl := hall symbol hsymbol (mem_dropLast_of_le hle hlt)
    obtain rfl : a = [] := by
      refine List.eq_nil_of_length_eq_zero ?_
      simp only [List.length_append, List.length_cons, List.length_nil] at hlt
      omega
    obtain ⟨z, hz⟩ := hle
    obtain ⟨-, hz⟩ := List.cons.inj hz
    exact hr (by rw [← hz]; rfl)

theorem sealed_of_comma {v r z : Text} (hv : v ≠ [])
    (hcomma : Word.IsUri (v ++ [',']) → Word.IsUri v)
    (hrecord : Word.record (Word.longest? (v ++ r)) ≤ v.length)
    (huri : Word.longest? (v ++ r) ≠ some (.uri, v)) : Sealed v (',' :: z) where
  word entry hentry := by
    rcases uri_or_plain hentry with hentry | hentry
    · rw [hentry]
      refine uri_length_le hrecord huri fun hle => ?_
      have hle' : v ++ [','] <+: Word.uri (v ++ ',' :: z) := hle
      exact hcomma ((Word.isUri_of_le_uri (by simp) hle').of_le hle' (by decide) (by decide))
    · exact hentry.length_le_of_not_alphabet (by decide)
  symbol symbol hsymbol hle := by
    refine Nat.le_of_not_lt fun hlt => ?_
    have hall : ∀ s ∈ symbols, ',' ∉ s.tail := by decide
    have hle' : v ++ [','] <+: symbol := by
      refine List.prefix_of_prefix_length_le ⟨z, by simp⟩ hle ?_
      simpa using Nat.succ_le_of_lt hlt
    obtain ⟨c, w, rfl⟩ := List.exists_cons_of_ne_nil hv
    obtain ⟨z', rfl⟩ := hle'
    exact hall _ hsymbol (by simp)

/-! ## Runs up to a barrier -/

theorem exists_concat_of_suffix {v u : Text} {c : Char} (h : v <:+ u ++ [c]) (hv : v ≠ []) :
    ∃ a, v = a ++ [c] := by
  refine ⟨v.dropLast, ?_⟩
  have hlast : v.getLast hv = c := by
    have hmem := h.getLast hv
    simpa using hmem
  rw [← hlast, List.dropLast_concat_getLast]

/-- The tokens of one character behind which a run may be cut. -/
def barriers : List (TokenKind × Char) :=
  [(.semicolon, ';'), (.braceOpen, '{'), (.parenOpen, '('), (.assign, '=')]

/-- What is behind a barrier does not matter to a run that ends with it. -/
theorem Run.swap_barrier {r r' : Text} {m m' : List Mode} {u : Text} {ps : List Piece}
    {kind : TokenKind} {c : Char} (h : Run r m u (ps ++ [Piece.token kind [c]]) m')
    (hbarrier : (kind, c) ∈ barriers) (hr : r'.head? ≠ some '=') :
    Run r' m u (ps ++ [Piece.token kind [c]]) m' := by
  have hlast : (ps ++ [Piece.token kind [c]]).getLast? = some (.token kind [c]) := by simp
  have hu : ps.flatMap Piece.text ++ [c] = u := by
    have htext := h.text
    rwa [List.flatMap_append] at htext
  have hcases : c = '=' ∨ isHard c = true := by
    have hall : ∀ b ∈ barriers, b.2 = '=' ∨ isHard b.2 = true := by decide
    exact hall _ hbarrier
  have huri : ∀ x, (ps ++ [Piece.token kind [c]]).getLast? ≠ some (.token .uri x) := by
    intro x hx
    rw [hlast, Option.some.injEq, Piece.token.injEq] at hx
    obtain ⟨rfl, -⟩ := hx
    exact absurd hbarrier (by simp [barriers])
  refine h.swap ?_ ?_
  · rintro p hp
    rw [hlast, Option.mem_some] at hp
    subst hp
    simp only [barriers, List.mem_cons, List.not_mem_nil, or_false, Prod.mk.injEq] at hbarrier
    rcases hbarrier with ⟨rfl, rfl⟩ | ⟨rfl, rfl⟩ | ⟨rfl, rfl⟩ | ⟨rfl, rfl⟩
    all_goals trivial
  · intro v hv hword
    rw [← hu] at hv
    obtain ⟨a, rfl⟩ := exists_concat_of_suffix hv hword.ne_nil
    rcases hcases with rfl | hhard
    · exact sealed_of_assign hword.record_le (hword.longest_ne huri) hr
    · exact sealed_of_hard hhard

/-- A comma behind a run does not matter to it, unless the run ends with a url or a colon. -/
theorem Run.swap_comma {r z : Text} {m m' : List Mode} {u : Text} {ps : List Piece}
    {kind : TokenKind} {lexeme : Text} (h : Run r m u (ps ++ [Piece.token kind lexeme]) m')
    (huri : kind ≠ .uri) (hcolon : u.getLast? ≠ some ':') :
    Run (',' :: z) m u (ps ++ [Piece.token kind lexeme]) m' := by
  have hlast : (ps ++ [Piece.token kind lexeme]).getLast? = some (.token kind lexeme) := by simp
  have hlast' : ∀ x, (ps ++ [Piece.token kind lexeme]).getLast? ≠ some (.token .uri x) := by
    intro x hx
    rw [hlast, Option.some.injEq, Piece.token.injEq] at hx
    exact huri hx.1
  refine h.swap ?_ ?_
  · rintro p hp
    rw [hlast, Option.mem_some] at hp
    subst hp
    cases kind
    all_goals trivial
  · intro v hv hword
    refine sealed_of_comma hword.ne_nil (fun huri' => huri'.of_concat fun hv' => hcolon ?_)
      hword.record_le (hword.longest_ne hlast')
    obtain ⟨a, rfl⟩ := hv
    rw [List.getLast?_append, hv']
    rfl

end Scan
end FlakeInputs
