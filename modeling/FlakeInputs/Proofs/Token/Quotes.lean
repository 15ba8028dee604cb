import FlakeInputs.Proofs.Token.Exchange
import FlakeInputs.Proofs.Token.Spelling

/-!
# Between two quotes

An identifier and a url can have quotes in them.  So what stands in front of an indented string
goes on to its first quote if it can, and a token ends there only if it cannot.  Hence the text
between the quotes does not matter to what is in front of them.
-/

namespace FlakeInputs

namespace Word

/-- A beginning of an identifier is one in every text that begins with it. -/
theorem le_identifier {v t t' : Text} (hv : v ≠ []) (h : v <+: identifier t) (ht : v <+: t') :
    v <+: identifier t' := by
  obtain ⟨c, w, rfl⟩ := List.exists_cons_of_ne_nil hv
  obtain ⟨r, rfl⟩ := ht
  cases t with
  | nil => simp [identifier] at h
  | cons d t =>
    rw [identifier] at h
    split at h
    · next hd =>
      obtain ⟨rfl, hw⟩ := List.cons_prefix_cons.1 h
      rw [List.cons_append, identifier, if_pos hd]
      exact List.cons_prefix_cons.2
        ⟨rfl, le_takeWhile (fun x hx => List.mem_takeWhile_imp (hw.subset hx))
          (List.prefix_append _ _)⟩
    · simp at h

/-- The classes of words that may have a quote in them are the identifiers and the urls. -/
theorem quoteless {entry : TokenKind × (Text → Text)} (h : entry ∈ classes) :
    entry.2 = identifier ∨ entry.2 = uri ∨ Lawful isPathlike entry.2 := by
  simp only [classes, List.mem_cons, List.not_mem_nil, or_false] at h
  rcases h with rfl | rfl | rfl | rfl | rfl | rfl
  · exact .inl rfl
  · exact .inr (.inr lawful_integer)
  · exact .inr (.inr lawful_float)
  · exact .inr (.inr lawful_path)
  · exact .inr (.inr lawful_searchPath)
  · exact .inr (.inl rfl)

/-- A word that goes on over a quote goes on over it whatever follows the quote. -/
theorem quote_le {entry : TokenKind × (Text → Text)} (hentry : entry ∈ classes) {v r r' : Text}
    (h : v ++ ['\x27'] <+: entry.2 (v ++ '\x27' :: r')) :
    v ++ ['\x27'] <+: entry.2 (v ++ '\x27' :: r) := by
  have hle : v ++ ['\x27'] <+: v ++ '\x27' :: r := ⟨r, by simp⟩
  rcases quoteless hentry with hidentifier | huri | hlawful
  · rw [hidentifier] at h ⊢
    exact le_identifier (by simp) h hle
  · rw [huri] at h ⊢
    exact ((isUri_of_le_uri (by simp) h).of_le h (by decide) (by decide)).le_uri hle
  · have hlength := hlawful.length_le_of_not_alphabet (a := v) (b := r') (c := '\x27') (by decide)
    have hlonger := h.length_le
    rw [List.length_append, List.length_singleton] at hlonger
    exact absurd (Nat.le_trans hlonger hlength) (by omega)

end Word

namespace Scan

/-- No word and no symbol of its own begins with a quote. -/
theorem word_quote_ne (t : Text) (found : TokenKind × Text) : word '\x27' t ≠ .ok found := by
  have hlongest : Word.longest? ('\x27' :: t) = none := by
    cases t <;> rfl
  have hsymbol : punctuation? ('\x27' :: t) = none := by
    simp [punctuation?, punctuation]
  rw [word, hlongest]
  simp [hsymbol]

/-- What ends in front of a quote ends there whatever follows the quote. -/
theorem sealed_of_quote {ps : List Piece} {v r r' : Text} (h : ReadsWord ps v ('\x27' :: r)) :
    Sealed v ('\x27' :: r') where
  word entry hentry := by
    refine Nat.le_of_not_lt fun hlt => ?_
    have hle : v ++ ['\x27'] <+: entry.2 (v ++ '\x27' :: r') := by
      refine List.prefix_of_prefix_length_le ⟨r', by simp⟩ ((Word.lawful_of_mem hentry).within _) ?_
      simpa using Nat.succ_le_of_lt hlt
    have hold := (Word.quote_le hentry (r := r) hle).length_le
    have hrecord := Nat.le_trans (Word.length_le_record hentry) h.record_le
    rw [List.length_append, List.length_singleton] at hold
    omega
  symbol symbol hsymbol hle := by
    refine Nat.le_of_not_lt fun hlt => ?_
    have hlonger : v ++ ['\x27'] <+: symbol := by
      refine List.prefix_of_prefix_length_le ⟨r', by simp⟩ hle ?_
      simpa using Nat.succ_le_of_lt hlt
    -- Only the symbol of two quotes has a quote in it, and no word begins with one.
    have hall : ∀ s ∈ symbols, '\x27' ∈ s → s = ['\x27', '\x27'] := by decide
    obtain rfl := hall symbol hsymbol (hlonger.subset (by simp))
    obtain ⟨c, t, found, rfl, hword⟩ := h.word
    obtain ⟨z, hz⟩ := hlonger
    obtain ⟨rfl, -⟩ := List.cons.inj hz
    exact word_quote_ne _ _ hword

theorem Steps.endsBefore {m : List Mode} {t : Text} {s : Step} {p : Piece} (h : Steps m t s)
    (hmodes : inString s.modes = false) (hp : s.pieces.getLast? = some p) :
    p.EndsBefore s.rest := by
  cases p with
  | gap g => exact h.gap_endsBefore hp
  | token kind x =>
    by_cases hkind : kind = .indentQuote
    · subst hkind
      cases hm : inString m with
      | true => exact h.escapesQuotes_eq_false hm hp
      | false =>
        -- Outside of strings the quotes begin one.
        obtain ⟨p, hpieces, -, hbehind⟩ := h.bare hm
        rw [hpieces, List.getLast?_singleton, Option.some.injEq] at hp
        rw [hbehind, hp, Piece.modes_indentQuote hm] at hmodes
        cases hmodes
    · unfold Piece.EndsBefore
      split
      · next heq => cases heq
      · next heq => exact absurd (Piece.token.inj heq).1 hkind
      · trivial

/-- Where no string is open, the last piece of a run has ended. -/
theorem Run.endsBefore {r : Text} {m m' : List Mode} {u : Text} {ps : List Piece} {p : Piece}
    (h : Run r m u ps m') (hm' : inString m' = false) (hp : ps.getLast? = some p) :
    p.EndsBefore r := by
  induction h with
  | nil => simp at hp
  | @step m m' s u ps hstep hrest hrun ih =>
    rw [List.getLast?_append] at hp
    cases hps : ps.getLast? with
    | some q =>
      rw [hps] at hp
      exact ih hm' (hps.trans hp)
    | none =>
      obtain rfl := List.getLast?_eq_none_iff.1 hps
      rw [hps, Option.none_or] at hp
      have hu : u = [] := hrun.text.symm
      subst hu
      rw [hrun.eq_nil_of_text_nil.2] at hm'
      have hends := hstep.endsBefore hm' hp
      rwa [hrest] at hends

/-- Whether a piece has ended can be told from the next character. -/
theorem Piece.EndsBefore.of_cons {p : Piece} {c : Char} {r : Text} (h : p.EndsBefore (c :: r))
    (r' : Text) : p.EndsBefore (c :: r') := by
  unfold Piece.EndsBefore at h ⊢
  split at h
  · simpa using h
  · exact h
  · trivial

/-- What is behind a quote does not matter to a run that ends in front of it. -/
theorem Run.swap_quote {r : Text} {m m' : List Mode} {u : Text} {ps : List Piece}
    (h : Run ('\x27' :: r) m u ps m') (hm' : inString m' = false) (r' : Text) :
    Run ('\x27' :: r') m u ps m' :=
  h.swap (fun _ hp => (h.endsBefore hm' hp).of_cons r') fun _ _ hword => sealed_of_quote hword

/-- The text of an indented string can be exchanged for any other that is read as it is
written. -/
theorem pieces_exchange_indented {t x url : Text} {ps qs : List Piece}
    (h : pieces [] t = .ok (ps ++ (indentedPieces x ++ qs)))
    (hps : inString (modesAfter [] ps) = false) (hurl : Literal.quotesApart url = true) :
    pieces [] (textOf (ps ++ (indentedPieces (Edit.escapeIndented url) ++ qs))) =
      .ok (ps ++ (indentedPieces (Edit.escapeIndented url) ++ qs)) := by
  have hsplit : pieces [] t = .ok ((ps ++ [Piece.token .indentQuote ['\x27', '\x27']]) ++
      .token .text x :: .token .indentQuote ['\x27', '\x27'] :: qs) := by
    simpa [indentedPieces] using h
  obtain ⟨kind, rest, hclosing, -, hescape⟩ := exists_closer hsplit
  obtain ⟨hkind, rfl⟩ := List.cons.inj hclosing
  have hr := hescape (Piece.token.inj hkind).1.symm
  obtain ⟨u, r, m, -, hfront, hbehind⟩ := exists_run h (getLast?_ne_text h hps)
  rw [← hfront.modes_eq] at hps
  obtain ⟨-, hqs⟩ := exists_run_neutral hbehind hps (neutral_indented x) (by simp [indentedPieces])
  have hu : textOf ps = u := hfront.text
  rw [← textOf_pieces hbehind] at hfront
  have hnew := (hfront.swap_quote hps _).pieces ((fits_indented hurl hr m hps).pieces hqs)
  rw [← hu] at hnew
  simpa [indentedPieces] using hnew

/-- Where an indented string is the escaped form of a text, the quotes of the text stay apart. -/
theorem quotesApart_of_pieces {t url : Text} {ps qs : List Piece}
    (h : pieces [] t = .ok (ps ++ (indentedPieces (Edit.escapeIndented url) ++ qs)))
    (hps : inString (modesAfter [] ps) = false) : Literal.quotesApart url = true := by
  have hsplit : pieces [] t = .ok ((ps ++ [Piece.token .indentQuote ['\x27', '\x27']]) ++
      .token .text (Edit.escapeIndented url) :: .token .indentQuote ['\x27', '\x27'] :: qs) := by
    simpa [indentedPieces] using h
  obtain ⟨u, r, m, -, hrun, hbehind⟩ := exists_run hsplit (by simp)
  have hmodes : m = .indented :: modesAfter [] ps := by
    rw [hrun.modes_eq, modesAfter, List.foldl_append]
    exact Piece.modes_indentQuote hps _
  subst hmodes
  rcases pieces_eq_ok hbehind with ⟨-, hnil, -⟩ | ⟨s, rest, hstep, hrest, heq⟩
  · simp at hnil
  have htext := textOf_pieces hbehind
  obtain ⟨c, z, rfl, hstep⟩ := hstep
  change stringStep _ _ _ (Literal.indented? (c :: z)) (c :: z) = .ok s at hstep
  unfold stringStep at hstep
  split at hstep
  · simp at hstep
  · next x r hbody =>
    obtain rfl := Except.ok.inj hstep
    obtain rfl := (Piece.token.inj (List.cons.inj heq).1).2
    obtain rfl : qs = rest := (List.cons.inj (List.cons.inj heq).2).2
    obtain rfl := textOf_pieces hrest
    refine (Literal.indented?_escape ((Literal.indented?_swap hbody).2.1 rfl)).1 ?_
    rw [← hbody, ← htext]
    simp
  · obtain rfl := Except.ok.inj hstep
    obtain ⟨-, heq⟩ := List.cons.inj heq
    simp at heq

end Scan
end FlakeInputs
