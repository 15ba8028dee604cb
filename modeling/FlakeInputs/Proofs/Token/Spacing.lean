import FlakeInputs.Proofs.Outcome
import FlakeInputs.Proofs.Token.Spelling

/-!
# Blanks between tokens

The tokens of a text can be written again with a single blank between every two of them.  What is
written so has the same tokens, whatever stood between them before.

Next to string text there can be no blank: it would become part of the string.
-/

namespace FlakeInputs
namespace Scan

/-- What is written between a token and those behind it: a blank, but nothing next to string
text. -/
def separator (kind : TokenKind) : List (TokenKind × Text) → Text
  | [] => []
  | (next, _) :: _ => if kind = .text ∨ next = .text then [] else [' ']

/-- The lexemes of some tokens in a row, with what separates them. -/
def spaced : List (TokenKind × Text) → Text
  | [] => []
  | (kind, lexeme) :: bs => lexeme ++ (separator kind bs ++ spaced bs)

/-! ## Seams at a blank -/

theorem mem_of_isGap {c : Char} (h : isGap c = true) : c ∈ [' ', '\t', '\r', '\n'] := by
  simpa [isGap, or_assoc] using h

/-- No word and no symbol goes on into a blank. -/
theorem sealed_of_gap {v r : Text} (hr : ∀ c ∈ r.head?, isGap c = true) : Sealed v r := by
  cases r with
  | nil => exact sealed_nil v
  | cons c r =>
    have hc := mem_of_isGap (hr c rfl)
    refine ⟨fun entry hentry => ?_, fun symbol hsymbol hle => Nat.le_of_not_lt fun hlt => ?_⟩
    · have hhard : ∀ c ∈ [' ', '\t', '\r', '\n'], isHard c = true :=
        List.all_eq_true.1 (by decide)
      exact (Word.lawful_of_mem hentry).length_le_of_not_alphabet
        (alphabet_of_isHard (hhard c hc) entry.1)
    · have hblank : ∀ s ∈ symbols, s.all (fun c => !isGap c) = true := by decide
      have hover : v ++ [c] <+: symbol := by
        refine List.prefix_of_prefix_length_le ⟨r, ?_⟩ hle ?_
        · rw [List.append_assoc, List.singleton_append]
        · rw [List.length_append]
          exact hlt
      have hnot := List.all_eq_true.1 (hblank symbol hsymbol) c (hover.subset (by simp))
      rw [hr c rfl] at hnot
      exact Bool.noConfusion hnot

/-- Only the quotes that end an indented string depend on what follows them. -/
theorem Piece.endsBefore_token {kind : TokenKind} {x r : Text}
    (h : kind = .indentQuote → Literal.escapesQuotes r.head? = false) :
    (Piece.token kind x).EndsBefore r := by
  cases kind with
  | indentQuote => exact h rfl
  | _ => trivial

/-- A blank makes no escape of the quotes in front of it. -/
theorem escapesQuotes_of_gap {r : Text} (hr : ∀ c ∈ r.head?, isGap c = true) :
    Literal.escapesQuotes r.head? = false := by
  cases r with
  | nil => rfl
  | cons c r =>
    have hall : ∀ c ∈ [' ', '\t', '\r', '\n'], (!Literal.escapesQuotes (some c)) = true :=
      List.all_eq_true.1 (by decide)
    exact Bool.not_eq_true' _ ▸ hall c (mem_of_isGap (hr c rfl))

/-- A delimiter is read whatever follows it. -/
theorem steps_delimiter {m : List Mode} {t : Text} {s : Step} (h : delimiter? m t = some s)
    (hm : inString m = false) (r : Text) : Steps m (s.text ++ r) { s with rest := r } := by
  unfold delimiter? at h
  split at h
  case h_6 => simp at h
  all_goals
    obtain rfl := Option.some.inj h
    exact steps_bare hm rfl

/-- How a text continues at a seam, as the scanner sees it with the modes `m` open: in a string it
starts as before, and elsewhere with a blank. -/
structure Continues (m : List Mode) (t r : Text) : Prop where
  string : inString m = true → r.head? = t.head?
  bare : inString m = false → ∀ c ∈ r.head?, isGap c = true

/-- A step through a token is the same in front of a blank, or of string text. -/
theorem Steps.continues {m : List Mode} {t r : Text} {s : Step} (h : Steps m t s)
    (hr : Continues s.modes s.rest r) (hgap : ∀ g, s.pieces ≠ [.gap g]) :
    Steps m (s.text ++ r) { s with rest := r } := by
  have htext := h.text
  have hswap (hend : ∀ p ∈ s.pieces.getLast?, p.EndsBefore r)
      (hseal : s.TakesWord s.text s.rest → Sealed s.text r) :
      Steps m (s.text ++ r) { s with rest := r } := by
    rw [htext] at h
    exact h.swap (y := []) rfl (fun _ => hend) hseal
  cases hm : inString m with
  | true =>
    obtain ⟨x, kind, hpieces, -⟩ := h.string hm
    have hlast : s.pieces.getLast? = some (.token kind kind.name.toList) := by rw [hpieces]; rfl
    refine hswap ?_ ?_
    · intro p hp
      rw [hlast, Option.mem_some] at hp
      subst hp
      refine Piece.endsBefore_token fun hkind => ?_
      cases hmodes : inString s.modes with
      | false => exact escapesQuotes_of_gap (hr.bare hmodes)
      | true =>
        rw [hr.string hmodes]
        exact h.escapesQuotes_eq_false hm (hkind ▸ hlast)
    · rintro ⟨⟨kind', lexeme, htoken⟩, -⟩
      rw [hpieces] at htoken
      simp at htoken
  | false =>
    rcases h.bare_cases hm with ⟨c, x, -, -, rfl⟩ | ⟨x, -, rfl⟩ | ⟨x, body, rest, -, -, rfl⟩ | hd |
      ⟨c, x, kind, lexeme, -, hword, rfl⟩
    · exact absurd rfl (hgap _)
    · exact absurd rfl (hgap _)
    · exact absurd rfl (hgap _)
    · exact steps_delimiter hd hm r
    · have hkind := isWordKind_of_word hword
      refine hswap ?_ fun _ => sealed_of_gap (hr.bare hm)
      intro p hp
      obtain rfl := Option.some.inj hp
      refine Piece.endsBefore_token ?_
      rintro rfl
      exact absurd hkind (by decide)

/-! ## What is read first -/

/-- Outside of strings, no string text comes first. -/
theorem head?_bares_ne {m : List Mode} {t : Text} {ps : List Piece} (h : pieces m t = .ok ps)
    (hm : inString m = false) (x : Text) : (bares ps).head? ≠ some (.text, x) := by
  induction ps generalizing m t with
  | nil => simp
  | cons p ps ih =>
    rcases pieces_eq_ok h with ⟨-, hnil, -⟩ | ⟨s, qs, hstep, hqs, heq⟩
    · simp at hnil
    · obtain ⟨p', hpieces, hne, hmodes⟩ := hstep.bare hm
      rw [hpieces] at heq
      obtain ⟨rfl, rfl⟩ := List.cons.inj heq
      cases p with
      | gap g => exact ih hqs (by rw [hmodes]; exact hm)
      | token kind lexeme =>
        rw [bares_token, List.head?_cons, ne_eq, Option.some.injEq, Prod.mk.injEq]
        rintro ⟨rfl, -⟩
        exact hne lexeme rfl

/-! ## Separated tokens -/

section
variable {m : List Mode} {t trail : Text} {ps : List Piece} {kind : TokenKind}

theorem continues_separator (h : pieces m t = .ok ps) (hkind : kind ≠ .text)
    (htrail : ∀ c ∈ trail, isGap c = true) :
    Continues m t (separator kind (bares ps) ++ (spaced (bares ps) ++ trail)) where
  string hm := by
    obtain ⟨x, closer, qs, rest, rfl, hcloser, rfl⟩ := exists_text_first h hm
    have hne : ∀ kind ∈ [TokenKind.quote, .indentQuote, .interpolation],
        kind.name.toList ≠ [] := by decide
    have htext : separator kind (bares (.token .text x :: .token closer closer.name.toList :: qs)) =
        [] := if_pos (.inr rfl)
    rw [htext, List.nil_append, bares_token, bares_token, spaced, spaced, separator,
      if_pos (.inl rfl), List.nil_append, List.append_assoc, List.append_assoc]
    exact Literal.head?_append_append (hne closer hcloser) _ _
  bare hm := by
    have hfirst := head?_bares_ne h hm
    cases hbares : bares ps with
    | nil => exact fun c hc => htrail c (List.mem_of_mem_head? hc)
    | cons b bs =>
      obtain ⟨next, x⟩ := b
      rw [hbares] at hfirst
      have hnext : next ≠ .text := by
        rintro rfl
        exact hfirst x rfl
      rw [separator, if_neg (not_or.2 ⟨hkind, hnext⟩)]
      intro c hc
      obtain rfl := Option.some.inj hc
      rfl

/-- What separates some tokens from one in front of them is skipped. -/
theorem exists_pieces_separator (h : pieces m t = .ok ps)
    (hread : ∃ qs, pieces m (spaced (bares ps) ++ trail) = .ok qs ∧ bares qs = bares ps)
    (hkind : kind ≠ .text) :
    ∃ qs, pieces m (separator kind (bares ps) ++ (spaced (bares ps) ++ trail)) = .ok qs ∧
      bares qs = bares ps := by
  cases hm : inString m with
  | true =>
    obtain ⟨x, closer, qs, rest, rfl, -, -⟩ := exists_text_first h hm
    rwa [bares_token, separator, if_pos (.inr rfl), List.nil_append]
  | false =>
    have hfirst := head?_bares_ne h hm
    cases hbares : bares ps with
    | nil => rwa [hbares] at hread
    | cons b bs =>
      obtain ⟨next, x⟩ := b
      rw [hbares] at hfirst hread
      have hnext : next ≠ .text := by
        rintro rfl
        exact hfirst x rfl
      obtain ⟨qs, hqs, hbs⟩ := hread
      rw [separator, if_neg (not_or.2 ⟨hkind, hnext⟩)]
      have hblank : Steps m (' ' :: (spaced ((next, x) :: bs) ++ trail))
          ⟨[.gap [' ']], m, spaced ((next, x) :: bs) ++ trail⟩ := steps_bare hm rfl
      exact ⟨.gap [' '] :: qs, pieces_of_steps hblank hqs, hbs⟩

/-- Separated by blanks, the tokens among some pieces are read again. -/
theorem exists_pieces_spaced (h : pieces m t = .ok ps) (htrail : ∀ c ∈ trail, isGap c = true) :
    ∃ qs, pieces m (spaced (bares ps) ++ trail) = .ok qs ∧ bares qs = bares ps := by
  induction hn : t.length using Nat.strongRecOn generalizing m t ps with
  | _ n ih =>
    subst hn
    rcases pieces_eq_ok h with ⟨rfl, rfl, hm⟩ | ⟨s, qs, hstep, hqs, rfl⟩
    · have hblanks := (fits_blanks htrail [] m hm).pieces h
      rw [List.append_nil, List.append_nil, textOf_blanks] at hblanks
      exact ⟨blanks trail, hblanks, bares_blanks trail⟩
    have hlength : s.rest.length < t.length := by
      have hpos := List.length_pos_iff.2 hstep.text_ne_nil
      rw [hstep.text, List.length_append]
      omega
    have hrest := ih _ hlength hqs rfl
    -- A token is read as before in front of what separates it from the rest.
    have hafter : ∀ kind ≠ .text, (∀ g, s.pieces ≠ [.gap g]) →
        ∃ rs, pieces m (s.text ++ (separator kind (bares qs) ++ (spaced (bares qs) ++ trail))) =
          .ok (s.pieces ++ rs) ∧ bares rs = bares qs := by
      intro kind hkind hgap
      obtain ⟨rs, hrs, hbares⟩ := exists_pieces_separator hqs hrest hkind
      have hnew := hstep.continues (continues_separator hqs hkind htrail) hgap
      have hread := pieces_of_steps hnew hrs
      exact ⟨rs, hread, hbares⟩
    cases hm : inString m with
    | true =>
      obtain ⟨x, kind, hpieces, hkind, -⟩ := hstep.string hm
      have hne : kind ≠ .text := by
        rintro rfl
        exact absurd hkind (by decide)
      obtain ⟨rs, hrs, hbares⟩ := hafter kind hne (by simp [hpieces])
      refine ⟨s.pieces ++ rs, ?_, by rw [bares_append, bares_append, hbares]⟩
      rw [Step.text, hpieces] at hrs
      rw [hpieces]
      simpa [spaced, separator] using hrs
    | false =>
      obtain ⟨p, hpieces, hne, hmodes⟩ := hstep.bare hm
      cases p with
      | gap g =>
        obtain ⟨rs, hrs, hbares⟩ := hrest
        rw [hmodes] at hrs
        rw [hpieces]
        exact ⟨rs, hrs, hbares⟩
      | token kind lexeme =>
        have hkind : kind ≠ .text := by
          rintro rfl
          exact hne lexeme rfl
        obtain ⟨rs, hrs, hbares⟩ := hafter kind hkind (by simp [hpieces])
        refine ⟨s.pieces ++ rs, ?_, by rw [bares_append, bares_append, hbares]⟩
        rw [Step.text, hpieces] at hrs
        rw [hpieces]
        simpa [spaced] using hrs

end

end Scan

namespace Token

open Scan (spaced isGap)

/-- Written with single blanks between them, but none next to string text, the tokens of a text
are read again, with any blanks behind the last one. -/
theorem tokenize_spaced {text trail : Text} {ts : List Token} (h : tokenize text = .ok ts)
    (htrail : ∀ c ∈ trail, isGap c = true) :
    ∃ ts', tokenize (spaced (ts.map Token.bare) ++ trail) = .ok ts' ∧
      ts'.map Token.bare = ts.map Token.bare := by
  obtain ⟨ps, hps, rfl⟩ := tokenize_eq_ok.1 h
  obtain ⟨qs, hqs, hbares⟩ := Scan.exists_pieces_spaced hps htrail
  rw [map_bare_locate]
  exact ⟨_, tokenize_eq_ok.2 ⟨qs, hqs, rfl⟩, by rw [map_bare_locate, hbares]⟩

theorem tokenize_spaced_interpolation :
    ∃ (text trail : Text) (ts : List Token),
      text = "[a\"$\x7bb+''c''\x7dd\"]//e".toList ∧ trail = [' '] ∧
      tokenize text = .ok ts ∧ (∀ c ∈ trail, isGap c = true) ∧
      spaced (ts.map Token.bare) = "[ a \"$\x7b b + ''c'' \x7dd\" ] // e".toList ∧
      ∃ ts', tokenize (spaced (ts.map Token.bare) ++ trail) = .ok ts' ∧
        ts'.map Token.bare = ts.map Token.bare := by
  have hread : (tokenize "[a\"$\x7bb+''c''\x7dd\"]//e".toList).toOption.any (fun ts =>
      spaced (ts.map Token.bare) == "[ a \"$\x7b b + ''c'' \x7dd\" ] // e".toList) = true := by
    decide +kernel
  obtain ⟨ts, hts, hspaced⟩ := Outcome.exists_of_any hread
  have htrail : ∀ c ∈ [' '], isGap c = true := List.all_eq_true.1 (by decide)
  exact ⟨_, [' '], ts, rfl, rfl, hts, htrail, beq_iff_eq.1 hspaced, tokenize_spaced hts htrail⟩

end Token
end FlakeInputs
