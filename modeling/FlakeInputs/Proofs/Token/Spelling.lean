import FlakeInputs.Proofs.Token.Located

/-!
# How pieces are spelled

The tokens that are no words have a fixed spelling, no token but a url or a colon ends with
a colon, and a gap begins with a blank or a comment.
-/

namespace FlakeInputs
namespace Scan

/-- The kinds of tokens that have no fixed spelling. -/
def isOpen (kind : TokenKind) : Bool :=
  kind ∈ [.identifier, .integer, .float, .path, .searchPath, .uri, .text]

/-- The characters with which no gap begins. -/
def isInk (c : Char) : Bool :=
  !isGap c && c != '#'

theorem isInk_of_alphabet {kind : TokenKind} {c : Char} (h : Word.alphabet kind c = true) :
    isInk c = true := by
  have hblanks : ∀ d ∈ [' ', '\t', '\r', '\n', '#'],
      Word.isUriChar d = false ∧ Word.isPlain d = false := by
    simp only [List.forall_mem_cons, List.not_mem_nil, false_implies, implies_true]
    decide
  rw [isInk, Bool.and_eq_true, Bool.not_eq_true', bne_iff_ne, isGap]
  have hne : ∀ d ∈ [' ', '\t', '\r', '\n', '#'], c ≠ d := by
    rintro d hd rfl
    rw [Word.alphabet] at h
    split at h
    · rw [(hblanks c hd).1] at h
      exact Bool.noConfusion h
    · rw [(hblanks c hd).2] at h
      exact Bool.noConfusion h
  simpa [and_assoc] using hne

/-- What is known about the text of a piece from its kind. -/
def Piece.Spelled : Piece → Prop
  | .gap t => ∀ r, endsParameter (t ++ r) = true
  | .token kind t =>
    (kind ≠ .text → t ≠ [] ∧ ∀ c ∈ t, isInk c = true) ∧
      (isOpen kind = false → t = kind.name.toList) ∧
      (isOpen kind = true → kind ≠ .uri → kind ≠ .text → t.getLast? ≠ some ':')

theorem word_of_ofText? {t : Text} {k : Keyword} (h : Keyword.ofText? t = some k) :
    t = k.word.toList := by
  have hk := List.find?_some h
  exact (beq_iff_eq.1 hk).symm

theorem spelled_of_longest? {t lexeme : Text} {kind : TokenKind}
    (h : Word.longest? t = some (kind, lexeme)) :
    (Piece.token (wordKind kind lexeme) lexeme).Spelled := by
  obtain ⟨entry, hentry, rfl, heq⟩ := Word.exists_class_of_longest? h
  have hopen : isOpen entry.1 = true ∧ entry.1 ≠ .text := by
    have hall : ∀ kind ∈ Word.classes.map Prod.fst, isOpen kind = true ∧ kind ≠ .text := by decide
    exact hall _ (List.mem_map_of_mem hentry)
  refine ⟨fun _ => ⟨Word.longest?_ne_nil h, ?_⟩, ?_, ?_⟩
  · intro c hc
    rw [heq] at hc
    exact isInk_of_alphabet ((Word.lawful_of_mem hentry).spelled _ _ hc)
  · intro hclosed
    unfold wordKind at hclosed ⊢
    split at hclosed
    · next k hk => exact word_of_ofText? hk
    · rw [hopen.1] at hclosed
      exact Bool.noConfusion hclosed
  · intro hopen' huri _ hcolon
    have hkind : entry.1 ≠ .uri := by
      intro hentry
      rw [hentry] at huri
      exact huri rfl
    have hmem := List.mem_of_getLast? hcolon
    rw [heq] at hmem
    have hspelled := (Word.lawful_of_mem hentry).spelled _ _ hmem
    simp only [Word.alphabet, hkind, if_false] at hspelled
    exact absurd hspelled (by decide)

theorem spelled_of_punctuation? {t lexeme : Text} {kind : TokenKind}
    (h : punctuation? t = some (kind, lexeme)) : (Piece.token kind lexeme).Spelled := by
  obtain ⟨⟨symbol, k⟩, hmem, heq⟩ := List.exists_of_findSome?_eq_some h
  have hall : ∀ entry ∈ punctuation,
      isOpen entry.2 = false ∧ entry.1 = entry.2.name ∧ entry.1.toList ≠ [] ∧
        entry.1.toList.all isInk = true := by decide
  obtain ⟨hopen, hname, hne, hink⟩ := hall _ hmem
  dsimp only at heq
  split at heq
  · obtain ⟨rfl, rfl⟩ := Prod.mk.inj (Option.some.inj heq)
    refine ⟨fun _ => ⟨hne, List.all_eq_true.1 hink⟩, fun _ => congrArg _ hname, fun h => ?_⟩
    rw [hopen] at h
    exact Bool.noConfusion h
  · simp at heq

theorem spelled_of_word {c : Char} {t lexeme : Text} {kind : TokenKind}
    (h : word c t = .ok (kind, lexeme)) : (Piece.token kind lexeme).Spelled := by
  unfold word at h
  split at h
  · next k l hl =>
    split at h
    · simp at h
    · obtain ⟨rfl, rfl⟩ := Prod.mk.inj (Except.ok.inj h)
      exact spelled_of_longest? hl
  · split at h
    · next found hp =>
      obtain rfl := Except.ok.inj h
      exact spelled_of_punctuation? hp
    · simp at h

theorem spelled_of_fixed {kind : TokenKind} {t : Text} (hopen : isOpen kind = false)
    (ht : t = kind.name.toList) (hne : t ≠ [] ∧ ∀ c ∈ t, isInk c = true) :
    (Piece.token kind t).Spelled := by
  refine ⟨fun _ => hne, fun _ => ht, fun h => ?_⟩
  rw [hopen] at h
  exact Bool.noConfusion h

theorem Steps.spelled {m : List Mode} {t : Text} {s : Step} (h : Steps m t s) :
    ∀ p ∈ s.pieces, p.Spelled := by
  have hfixed : ∀ kind ∈ delimiterKinds, (Piece.token kind kind.name.toList).Spelled := by
    intro kind hkind
    have hall : ∀ kind ∈ delimiterKinds, isOpen kind = false ∧ kind.name.toList ≠ [] ∧
        kind.name.toList.all isInk = true := by decide
    obtain ⟨hopen, hne, hink⟩ := hall kind hkind
    exact spelled_of_fixed hopen rfl ⟨hne, List.all_eq_true.1 hink⟩
  cases hm : inString m with
  | true =>
    obtain ⟨x, kind, hpieces, hkind, -⟩ := h.string hm
    have hdelimiter : kind ∈ delimiterKinds := by
      simp only [List.mem_cons, List.not_mem_nil, or_false] at hkind
      rcases hkind with rfl | rfl | rfl
      all_goals decide
    rw [hpieces]
    rintro p hp
    rcases List.mem_cons.1 hp with rfl | hp
    · exact ⟨fun h => absurd rfl h, fun h => absurd h (by decide), fun _ _ h => absurd rfl h⟩
    · obtain rfl := List.mem_singleton.1 hp
      exact hfixed kind hdelimiter
  | false =>
    rcases h.bare_cases hm with ⟨c, x, hgap, -, rfl⟩ | ⟨x, -, rfl⟩ | ⟨x, body, rest, -, -, rfl⟩ |
      hd | ⟨c, x, kind, lexeme, -, hword, rfl⟩
    · rintro p hp
      obtain rfl := List.mem_singleton.1 hp
      intro r
      have hslash : c ≠ '/' := by
        rintro rfl
        exact absurd hgap (by decide)
      rw [List.singleton_append, endsParameter.eq_2 _ _ (fun _ heq => absurd heq hslash), hgap]
      rfl
    · rintro p hp
      obtain rfl := List.mem_singleton.1 hp
      exact fun r => rfl
    · rintro p hp
      obtain rfl := List.mem_singleton.1 hp
      exact fun r => rfl
    · obtain ⟨kind, hkind, hpieces, -⟩ := delimiter?_cases hd hm
      rintro p hp
      rw [hpieces] at hp
      obtain rfl := List.mem_singleton.1 hp
      exact hfixed kind hkind
    · rintro p hp
      obtain rfl := List.mem_singleton.1 hp
      exact spelled_of_word hword

/-- Every piece of a text is spelled as its kind says. -/
theorem spelled_of_pieces {m : List Mode} {t : Text} {ps : List Piece} (h : pieces m t = .ok ps) :
    ∀ p ∈ ps, p.Spelled := by
  induction hn : t.length using Nat.strongRecOn generalizing m t ps with
  | _ n ih =>
    subst hn
    rcases pieces_eq_ok h with ⟨-, rfl, -⟩ | ⟨s, qs, hstep, hqs, rfl⟩
    · simp
    · have hlength : s.rest.length < t.length := by
        have hpos := List.length_pos_iff.2 hstep.text_ne_nil
        rw [hstep.text, List.length_append]
        omega
      intro p hp
      rcases List.mem_append.1 hp with hp | hp
      · exact hstep.spelled p hp
      · exact ih _ hlength hqs rfl p hp

theorem lexeme_eq {m : List Mode} {t x : Text} {ps : List Piece} {kind : TokenKind}
    (h : pieces m t = .ok ps) (hmem : .token kind x ∈ ps) (hkind : isOpen kind = false) :
    x = kind.name.toList :=
  (spelled_of_pieces h _ hmem).2.1 hkind

/-- A token that is no string text is not empty and has no blanks in it. -/
theorem isInk_of_token {m : List Mode} {t x : Text} {ps : List Piece} {kind : TokenKind}
    (h : pieces m t = .ok ps) (hmem : .token kind x ∈ ps) (hkind : kind ≠ .text) :
    x ≠ [] ∧ ∀ c ∈ x, isInk c = true :=
  (spelled_of_pieces h _ hmem).1 hkind

/-- A token is not empty and does not begin with the end of a line. -/
theorem exists_head? {m : List Mode} {t x : Text} {ps : List Piece} {kind : TokenKind}
    (h : pieces m t = .ok ps) (hmem : .token kind x ∈ ps) (hkind : kind ≠ .text) :
    ∃ d, d ≠ '\n' ∧ ∀ r, (x ++ r).head? = some d := by
  obtain ⟨hne, hink⟩ := isInk_of_token h hmem hkind
  obtain ⟨d, y, rfl⟩ := List.exists_cons_of_ne_nil hne
  refine ⟨d, ?_, fun _ => rfl⟩
  rintro rfl
  exact absurd (hink _ List.mem_cons_self) (by decide)

/-- No token but a url, a colon or string text ends with a colon. -/
theorem getLast?_ne_colon {m : List Mode} {t x : Text} {ps : List Piece} {kind : TokenKind}
    (h : pieces m t = .ok ps) (hmem : .token kind x ∈ ps)
    (hkind : kind ∉ [.uri, .colon, .text]) : x.getLast? ≠ some ':' := by
  obtain ⟨-, hclosed, hopen⟩ := spelled_of_pieces h _ hmem
  simp only [List.mem_cons, List.not_mem_nil, or_false, not_or] at hkind
  cases hk : isOpen kind with
  | true => exact hopen hk hkind.1 hkind.2.2
  | false =>
    rw [hclosed hk]
    cases kind with
    | colon => exact absurd rfl hkind.2.1
    | operator op => cases op <;> decide
    | keyword word => cases word <;> decide
    | _ => decide

theorem head?_ne_of_endsParameter {t : Text} (h : endsParameter t = true) :
    t.head? ≠ some '=' := by
  intro heq
  obtain ⟨r, rfl⟩ := List.head?_eq_some_iff.1 heq
  exact absurd h (by rw [endsParameter.eq_2 _ _ (by simp)]; decide)

/-- An equals sign does not begin a gap. -/
theorem head?_gaps_ne {m : List Mode} {t r : Text} {ps gs : List Piece} (h : pieces m t = .ok ps)
    (hgs : IsGaps gs) (hmem : ∀ g ∈ gs, g ∈ ps) (hr : r.head? ≠ some '=') :
    (textOf gs ++ r).head? ≠ some '=' := by
  cases gs with
  | nil => exact hr
  | cons g gs =>
    obtain ⟨x, rfl⟩ := hgs g List.mem_cons_self
    have hspelled := spelled_of_pieces h _ (hmem _ List.mem_cons_self)
    have hends := head?_ne_of_endsParameter (hspelled (textOf gs ++ r))
    rwa [textOf_cons, List.append_assoc]

/-! ## String text -/

/-- The quotes that end an indented string are not part of an escape. -/
theorem Steps.escapesQuotes_eq_false {m : List Mode} {t x : Text} {s : Step} (h : Steps m t s)
    (hm : inString m = true) (hlast : s.pieces.getLast? = some (.token .indentQuote x)) :
    Literal.escapesQuotes s.rest.head? = false := by
  obtain ⟨c, r, rfl, h⟩ := h
  unfold step at h
  split at h
  · unfold stringStep at h
    split at h
    · simp at h
    all_goals
      obtain rfl := Except.ok.inj h
      simp at hlast
  · unfold stringStep at h
    split at h
    · simp at h
    · next text rest hbody =>
      obtain rfl := Except.ok.inj h
      exact (Literal.indented?_swap hbody).2.1 rfl
    · obtain rfl := Except.ok.inj h
      simp at hlast
  · next hquoted hindented =>
    rcases m with _ | ⟨_ | _ | _ | _, m⟩
    all_goals
      first
      | exact Bool.noConfusion hm
      | exact absurd rfl (hquoted _)
      | exact absurd rfl (hindented _)

/-- String text comes together with what ends it. -/
theorem exists_closer {m : List Mode} {t x : Text} {ps qs : List Piece}
    (h : pieces m t = .ok (ps ++ Piece.token .text x :: qs)) :
    ∃ kind rest, qs = .token kind kind.name.toList :: rest ∧
      kind ∈ [.quote, .indentQuote, .interpolation] ∧
      (kind = .indentQuote → Literal.escapesQuotes (textOf rest).head? = false) := by
  induction hn : ps.length using Nat.strongRecOn generalizing m t ps with
  | _ n ih =>
    subst hn
    rcases pieces_eq_ok h with ⟨-, hnil, -⟩ | ⟨s, rest, hstep, hrest, heq⟩
    · simp at hnil
    cases hm : inString m with
    | false =>
      obtain ⟨p, hp, hne, -⟩ := hstep.bare hm
      rw [hp, List.singleton_append] at heq
      cases ps with
      | nil => exact absurd (List.cons.inj heq).1.symm (hne x)
      | cons q ps =>
        obtain ⟨-, rfl⟩ := List.cons.inj heq
        exact ih _ (by simp) hrest rfl
    | true =>
      obtain ⟨y, kind, hp, hkind, -⟩ := hstep.string hm
      rw [hp] at heq
      rcases ps with _ | ⟨q, _ | ⟨q', ps⟩⟩
      · obtain ⟨-, rfl⟩ := List.cons.inj heq
        refine ⟨kind, rest, rfl, hkind, ?_⟩
        rintro rfl
        rw [textOf_pieces hrest]
        exact hstep.escapesQuotes_eq_false hm (by rw [hp]; rfl)
      · obtain ⟨-, heq⟩ := List.cons.inj heq
        obtain ⟨rfl, -⟩ := Piece.token.inj (List.cons.inj heq).1
        exact absurd hkind (by decide)
      · obtain ⟨-, heq⟩ := List.cons.inj heq
        obtain ⟨-, rfl⟩ := List.cons.inj heq
        exact ih _ (by simp only [List.length_cons]; omega) hrest rfl

/-- In a string, its text comes first, and then what ends it. -/
theorem exists_text_first {m : List Mode} {t : Text} {ps : List Piece} (h : pieces m t = .ok ps)
    (hm : inString m = true) :
    ∃ x kind qs rest, ps = .token .text x :: .token kind kind.name.toList :: qs ∧
      kind ∈ [.quote, .indentQuote, .interpolation] ∧ t = x ++ (kind.name.toList ++ rest) := by
  rcases pieces_eq_ok h with ⟨-, -, hm'⟩ | ⟨s, qs, hstep, -, rfl⟩
  · rw [hm] at hm'
    exact Bool.noConfusion hm'
  · obtain ⟨x, kind, hpieces, hkind, -⟩ := hstep.string hm
    refine ⟨x, kind, qs, s.rest, by rw [hpieces]; rfl, hkind, ?_⟩
    rw [hstep.text, Step.text, hpieces]
    simp

/-- No gap stands in front of string text. -/
theorem gap_ne_before_text {m : List Mode} {t g x : Text} {ps qs : List Piece} :
    pieces m t ≠ .ok (ps ++ Piece.gap g :: .token .text x :: qs) := by
  intro h
  have hsplit : pieces m t =
      .ok ((ps ++ [Piece.gap g]) ++ Piece.token .text x :: qs) := by simpa using h
  obtain ⟨u, r, m', -, hrun, hrest⟩ := exists_run hsplit (by simp)
  have hm := hrun.inString_eq_false (p := .gap g) (by simp) (by simp)
  rcases pieces_eq_ok hrest with ⟨-, hnil, -⟩ | ⟨s, rest, hstep, -, heq⟩
  · simp at hnil
  · obtain ⟨p, hp, hne, -⟩ := hstep.bare hm
    rw [hp] at heq
    exact hne x (List.cons.inj heq).1.symm

/-- Where the modes show that no string is open, the pieces before do not end in string text. -/
theorem getLast?_ne_text {m : List Mode} {t : Text} {us qs : List Piece}
    (h : pieces m t = .ok (us ++ qs)) (hm : inString (modesAfter m us) = false) (x : Text) :
    us.getLast? ≠ some (.token .text x) := by
  intro hlast
  obtain ⟨front, rfl⟩ := List.getLast?_eq_some_iff.1 hlast
  rw [List.append_assoc] at h
  have hfront : ∀ y, front.getLast? ≠ some (.token .text y) := by
    intro y hy
    obtain ⟨front, rfl⟩ := List.getLast?_eq_some_iff.1 hy
    rw [List.append_assoc] at h
    obtain ⟨kind, rest, heq, hkind, -⟩ := exists_closer h
    obtain ⟨hpiece, -⟩ := List.cons.inj heq
    obtain ⟨rfl, -⟩ := Piece.token.inj hpiece
    exact absurd hkind (by decide)
  obtain ⟨u, r, m', -, hrun, hrest⟩ := exists_run h hfront
  have hsame : modesAfter m (front ++ [Piece.token .text x]) = m' := by
    rw [hrun.modes_eq, modesAfter, List.foldl_append]
    rfl
  rw [hsame] at hm
  rcases pieces_eq_ok hrest with ⟨-, hnil, -⟩ | ⟨s, rest, hstep, -, heq⟩
  · simp at hnil
  · obtain ⟨p, hp, htext, -⟩ := hstep.bare hm
    rw [hp] at heq
    exact htext x (List.cons.inj heq).1.symm

end Scan
end FlakeInputs
