import FlakeInputs.Proofs.Token.Located
import Mathlib.Logic.Function.Basic

/-!
# Escaped text

What is written between quotes is read back.  Between double quotes that holds for every text.
In an indented string it holds for the texts whose quotes stay apart, and for no others.
-/

namespace FlakeInputs
namespace Literal

open Edit (escape escapeIndented stringLiteral)

/-- The text that escaped text stands for: a backslash stands for the character behind it. -/
def unescape : Text → Text
  | [] => []
  | '\\' :: c :: t => c :: unescape t
  | c :: t => c :: unescape t

/-- The text that escaped text of an indented string stands for: three quotes stand for two,
and two quotes take the meaning from a dollar behind them. -/
def unescapeIndented : Text → Text
  | [] => []
  | '\x27' :: '\x27' :: '\x27' :: t => '\x27' :: '\x27' :: unescapeIndented t
  | '\x27' :: '\x27' :: '$' :: t => '$' :: unescapeIndented t
  | c :: t => c :: unescapeIndented t

/-! ## Between double quotes -/

theorem unescape_cons {c : Char} (hc : c ≠ '\\') (t : Text) :
    unescape (c :: t) = c :: unescape t := by
  refine unescape.eq_3 c t ?_
  rintro _ _ rfl
  exact absurd rfl hc

theorem unescape_escape (t : Text) : unescape (escape t) = t := by
  fun_induction escape t with
  | case1 => rfl
  | case2 t ih | case3 t ih => rw [unescape.eq_2, ih]
  | case4 t ih => rw [unescape.eq_2, unescape_cons (by decide), ih]
  | case5 c t hescape _ _ ih => rw [unescape_cons hescape, ih]

theorem escape_injective : Function.Injective escape :=
  Function.LeftInverse.injective unescape_escape

/-! ## In indented strings -/

theorem unescapeIndented_cons {c : Char} {t : Text} (h : c = '\x27' → t.head? ≠ some '\x27') :
    unescapeIndented (c :: t) = c :: unescapeIndented t := by
  refine unescapeIndented.eq_4 c t ?_ ?_ <;>
  · rintro _ hc rfl
    exact absurd rfl (h hc)

theorem unescapeIndented_escape {t : Text} (h : quotesApart t = true) :
    unescapeIndented (escapeIndented t) = t := by
  fun_induction escapeIndented t with
  | case1 => rfl
  | case2 t ih => rw [unescapeIndented.eq_2, ih h]
  | case3 t ih =>
    rw [unescapeIndented.eq_3, unescapeIndented_cons fun hc => absurd hc (by decide), ih h]
  | case4 c t htwo hopen ih =>
    by_cases hquote : c = '\x27'
    · subst hquote
      have hpair : t.head? ≠ some '\x27' := by
        intro hhead
        obtain ⟨t, rfl⟩ := List.head?_eq_some_iff.1 hhead
        exact htwo t rfl rfl
      obtain ⟨hapart, d, u, hd, heq⟩ := (quotesApart_single hpair).1 h
      rw [unescapeIndented_cons (fun _ => by simpa [heq] using hd), ih hapart]
    · rw [unescapeIndented_cons fun hc => absurd hc hquote]
      rw [ih (by rwa [quotesApart_cons hquote] at h)]

end Literal

namespace Token

open Edit (escape stringLiteral)
open Scan (pieces textOf bares quotedPieces fits_quoted)

theorem textOf_quotedPieces (v : Text) : textOf (quotedPieces (escape v)) = stringLiteral v := by
  simp [textOf, quotedPieces, stringLiteral, Scan.Piece.text]

/-- The pieces of a string literal come before those of what follows it. -/
theorem pieces_stringLiteral {v r : Text} {ps : List Scan.Piece} (h : pieces [] r = .ok ps) :
    pieces [] (stringLiteral v ++ r) = .ok (quotedPieces (escape v) ++ ps) := by
  have hrun := fits_quoted v r [] rfl
  rw [textOf_quotedPieces] at hrun
  exact hrun.pieces h

/-- What follows a string literal is cut into pieces on its own. -/
theorem exists_pieces_of_stringLiteral {v r : Text} {qs : List Scan.Piece}
    (h : pieces [] (stringLiteral v ++ r) = .ok qs) : ∃ ps, pieces [] r = .ok ps := by
  have hrun := fits_quoted v r [] rfl
  rw [textOf_quotedPieces] at hrun
  obtain ⟨ps, -, hps⟩ := hrun.pieces_eq_ok h
  exact ⟨ps, hps⟩

/-- A text between double quotes stands in front of any text, and makes no difference to it: the
whole has tokens exactly if the rest has, and then those of the literal come first, with the
escaped text between the quotes.  The escapes can be undone. -/
theorem tokenize_stringLiteral (v r : Text) :
    (tokenize (stringLiteral v ++ r)).toOption.map (·.map Token.bare) =
        (tokenize r).toOption.map (fun ts => (.quote, ['"']) :: (.text, escape v) ::
          (.quote, ['"']) :: ts.map Token.bare) ∧
      Literal.unescape (escape v) = v ∧ Function.Injective escape := by
  refine ⟨?_, Literal.unescape_escape v, Literal.escape_injective⟩
  cases hr : pieces [] r with
  | ok ps =>
    simp only [tokenize, hr, pieces_stringLiteral hr, Except.toOption, Option.map_some,
      map_bare_locate, Scan.bares_append]
    rfl
  | error fault =>
    cases hwhole : pieces [] (stringLiteral v ++ r) with
    | ok qs =>
      obtain ⟨ps, hps⟩ := exists_pieces_of_stringLiteral hwhole
      exact absurd (hr.symm.trans hps) (by simp)
    | error fault' => simp only [tokenize, hr, hwhole, Except.toOption, Option.map_none]

end Token
end FlakeInputs
