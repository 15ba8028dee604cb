import FlakeInputs.Proofs.Outcome
import FlakeInputs.Proofs.Token.Located

/-!
# Nothing is lost between tokens

The tokens of a text stand in it one behind the other, each where its span says.  Between them
there is nothing but blanks and comments, and nothing at all next to string text.
-/

namespace FlakeInputs
namespace Scan

/-- A text in front of `rest` that holds only blanks, line comments and closed block comments.
A line comment goes on to the end of its line. -/
inductive Skipped (rest : Text) : Text → Prop
  | nil : Skipped rest []
  | blank {c : Char} {t : Text} (hc : isGap c = true) (h : Skipped rest t) : Skipped rest (c :: t)
  | line {body t : Text} (hbody : '\n' ∉ body)
      (hend : t ++ rest = [] ∨ (t ++ rest).head? = some '\n') (h : Skipped rest t) :
      Skipped rest ('#' :: (body ++ t))
  | block {body t : Text} (hbody : Text.occurs ['*', '/'] body = false) (h : Skipped rest t) :
      Skipped rest ('/' :: '*' :: (body ++ '*' :: '/' :: t))

theorem Skipped.append {rest s t : Text} (hs : Skipped (t ++ rest) s) (ht : Skipped rest t) :
    Skipped rest (s ++ t) := by
  induction hs with
  | nil => exact ht
  | blank hc _ ih => exact .blank hc ih
  | line hbody hend _ ih =>
    rw [List.cons_append, List.append_assoc]
    exact .line hbody (by rwa [List.append_assoc]) ih
  | @block body s hbody _ ih =>
    have hcomment := Skipped.block hbody ih
    simpa using hcomment

theorem occurs_cons_eq_false {a : Char} {pattern t : Text}
    (hhere : pattern.isPrefixOf (a :: t) = false) (h : Text.occurs pattern t = false) :
    Text.occurs pattern (a :: t) = false := by
  simp [Text.occurs, hhere, h]

/-- A block comment ends with the first end mark in it. -/
theorem exists_comment_body {t body rest : Text} (h : Literal.comment? t = some (body, rest)) :
    ∃ inner, body = inner ++ ['*', '/'] ∧ Text.occurs ['*', '/'] inner = false := by
  fun_induction Literal.comment? t generalizing body rest with
  | case1 => simp at h
  | case2 t =>
    obtain ⟨rfl, -⟩ := Prod.mk.inj (Option.some.inj h)
    exact ⟨[], rfl, rfl⟩
  | case3 c t hne ih =>
    obtain ⟨⟨body', rest'⟩, hcomment, heq⟩ := Option.map_eq_some_iff.1 h
    obtain ⟨rfl, rfl⟩ := Prod.mk.inj heq
    obtain ⟨inner, rfl, hinner⟩ := ih hcomment
    refine ⟨c :: inner, rfl, occurs_cons_eq_false ?_ hinner⟩
    -- If the end mark began here, the comment would end here.
    rw [Bool.eq_false_iff]
    intro hhere
    obtain ⟨r, hr⟩ := List.isPrefixOf_iff_prefix.1 hhere
    obtain ⟨rfl, rfl⟩ := List.cons.inj hr
    have htext := Literal.comment?_text hcomment
    exact hne (r ++ ['*', '/'] ++ rest') rfl (by rw [htext]; simp)

/-! ## One step -/

theorem skipped_line (x : Text) :
    Skipped (x.dropWhile (· != '\n')) ('#' :: x.takeWhile (· != '\n')) := by
  have hline : Skipped (x.dropWhile (· != '\n')) ('#' :: (x.takeWhile (· != '\n') ++ [])) := by
    refine .line ?_ ?_ .nil
    · intro hmem
      have hne := List.mem_takeWhile_imp hmem
      simp at hne
    · cases hdrop : x.dropWhile (· != '\n') with
      | nil => exact .inl rfl
      | cons d z =>
        have hd := List.head?_dropWhile_not (· != '\n') x
        rw [hdrop] at hd
        simp at hd
        exact .inr (by simp [hd])
  rwa [List.append_nil] at hline

theorem skipped_block {x body rest : Text} (h : Literal.comment? x = some (body, rest))
    (r : Text) : Skipped r ('/' :: '*' :: body) := by
  obtain ⟨inner, rfl, hinner⟩ := exists_comment_body h
  exact .block hinner .nil

/-- A step outside of string literals skips a blank or a comment, or takes a token that is no
string text. -/
theorem Steps.skips_or_takes {m : List Mode} {t : Text} {s : Step} (h : Steps m t s)
    (hm : inString m = false) :
    (∃ g, s.pieces = [.gap g] ∧ s.modes = m ∧ Skipped s.rest g) ∨
      ∃ kind lexeme, s.pieces = [.token kind lexeme] ∧ kind ≠ .text := by
  rcases h.bare_cases hm with ⟨c, x, hgap, -, rfl⟩ | ⟨x, -, rfl⟩ |
    ⟨x, body, rest, hcomment, -, rfl⟩ | hd | ⟨c, x, kind, lexeme, -, hword, rfl⟩
  · exact .inl ⟨_, rfl, rfl, .blank hgap .nil⟩
  · exact .inl ⟨_, rfl, rfl, skipped_line x⟩
  · exact .inl ⟨_, rfl, rfl, skipped_block hcomment _⟩
  · obtain ⟨kind, hkind, hpieces, -⟩ := delimiter?_cases hd hm
    refine .inr ⟨kind, _, hpieces, ?_⟩
    rintro rfl
    exact absurd hkind (by decide)
  · refine .inr ⟨kind, lexeme, rfl, ?_⟩
    rintro rfl
    exact absurd (isWordKind_of_word hword) (by decide)

end Scan

/-! ## All tokens -/

open Scan (Piece Skipped Mode Step Steps pieces inString)

/-- The tokens make up a text from an offset on: every token stands where its span says, behind
the end of the one before it, and what is between them is skipped.  Nothing stands on either
side of string text; `glued` tells that string text ends at the offset. -/
inductive Token.Tile (text : Text) : Nat → Bool → List Token → Prop
  | finish {offset : Nat} {glued : Bool} (hgap : Skipped [] (text.drop offset))
      (hglued : glued = true → text.drop offset = []) : Tile text offset glued []
  | token {offset start stop : Nat} {glued : Bool} {t : Token} {ts : List Token}
      (hspan : Edit.offsetsOf text t.span = .ok (start, stop))
      (horder : offset ≤ start ∧ start ≤ stop ∧ stop ≤ text.length)
      (hlexeme : text.slice start stop = t.lexeme)
      (hgap : Skipped (text.drop start) (text.slice offset start))
      (hglued : glued = true ∨ t.kind = .text → offset = start)
      (hrest : Tile text stop (t.kind == .text) ts) : Tile text offset glued (t :: ts)

namespace Token

/-- A token behind a stretch that is skipped. -/
theorem Tile.cons {a w r : Text} {kind : TokenKind} {lexeme : Text} {glued : Bool}
    {ts : List Token} (hw : Skipped (lexeme ++ r) w)
    (hglued : glued = true ∨ kind = .text → w = [])
    (hrest : Tile (a ++ (w ++ (lexeme ++ r))) (a ++ (w ++ lexeme)).length (kind == .text) ts) :
    Tile (a ++ (w ++ (lexeme ++ r))) a.length glued
      (⟨kind, lexeme, ⟨Position.start.after (a ++ w),
        (Position.start.after (a ++ w)).after lexeme⟩⟩ :: ts) := by
  have hspan := Edit.offsetsOf_after (a ++ w) lexeme r
  rw [List.append_assoc, List.length_append] at hspan
  have hdrop : (a ++ (w ++ (lexeme ++ r))).drop (a.length + w.length) = lexeme ++ r := by
    rw [← List.append_assoc, ← List.length_append, List.drop_left]
  have hslice : (a ++ (w ++ (lexeme ++ r))).slice a.length (a.length + w.length) = w := by
    rw [Text.slice, ← List.append_assoc, ← List.length_append, List.take_left, List.drop_left]
  refine .token hspan ⟨by omega, by omega, ?_⟩ ?_ ?_ ?_ ?_
  · simp
    omega
  · rw [Text.slice, List.drop_take, hdrop]
    simp
  · rw [hdrop, hslice]
    exact hw
  · intro h
    simp [hglued h]
  · rwa [List.length_append, List.length_append, ← Nat.add_assoc] at hrest

/-- The tokens among the pieces of a text make up the text from where the pieces begin. -/
theorem tile_of_pieces {m : List Mode} {a w t : Text} {ps : List Piece}
    (h : pieces m t = .ok ps) (hw : Skipped t w) (hm : inString m = true → w = []) :
    Tile (a ++ (w ++ t)) a.length false (locate (Position.start.after (a ++ w)) ps) := by
  induction hn : t.length using Nat.strongRecOn generalizing m a w t ps with
  | _ n ih =>
    subst hn
    rcases Scan.pieces_eq_ok h with ⟨rfl, rfl, -⟩ | ⟨s, qs, hstep, hqs, rfl⟩
    · refine .finish ?_ (by simp)
      simpa using hw
    have htext := hstep.text
    have hlength : s.rest.length < t.length := by
      have hpos := List.length_pos_iff.2 hstep.text_ne_nil
      rw [htext, List.length_append]
      omega
    cases hstring : inString m with
    | false =>
      rcases hstep.skips_or_takes hstring with ⟨g, hpieces, hmodes, hg⟩ |
        ⟨kind, lexeme, hpieces, hkind⟩
      · have hsplit : t = g ++ s.rest := by
          rw [htext, Step.text, hpieces]
          simp
        have hnext := ih _ hlength (a := a) (w := w ++ g) hqs ((hsplit ▸ hw).append hg)
          (by simp [hmodes, hstring]) rfl
        rw [hpieces, List.singleton_append, locate, ← Position.after_append, hsplit]
        simpa using hnext
      · have hsplit : t = lexeme ++ s.rest := by
          rw [htext, Step.text, hpieces]
          simp
        have hnext := ih _ hlength (a := a ++ (w ++ lexeme)) (w := []) hqs .nil (by simp) rfl
        rw [hpieces, List.singleton_append, locate, hsplit]
        refine .cons (hsplit ▸ hw) ?_ ?_
        · simp [hkind]
        · rw [beq_eq_false_iff_ne.2 hkind]
          simpa using hnext
    | true =>
      obtain rfl := hm hstring
      obtain ⟨x, kind, hpieces, hkind, -⟩ := hstep.string hstring
      have hsplit : t = x ++ (kind.name.toList ++ s.rest) := by
        rw [htext, Step.text, hpieces]
        simp
      have hclosing : kind ≠ .text := by
        rintro rfl
        exact absurd hkind (by decide)
      have hnext := ih _ hlength (a := a ++ x ++ kind.name.toList) (w := []) hqs .nil (by simp) rfl
      have hcloser : Tile (a ++ x ++ ([] ++ (kind.name.toList ++ s.rest))) (a ++ x).length true
          (⟨kind, kind.name.toList, ⟨Position.start.after (a ++ x ++ []),
            (Position.start.after (a ++ x ++ [])).after kind.name.toList⟩⟩ ::
              locate (Position.start.after (a ++ x ++ kind.name.toList ++ [])) qs) := by
        refine .cons .nil (fun _ => rfl) ?_
        rw [beq_eq_false_iff_ne.2 hclosing]
        simpa using hnext
      rw [hpieces, List.cons_append, List.singleton_append, locate, locate, hsplit]
      refine .cons .nil (fun _ => rfl) ?_
      simpa using hcloser

/-- Text behind an offset, from two offsets further on. -/
theorem drop_eq_slices {text : Text} {offset start stop : Nat} (hstart : offset ≤ start)
    (hstop : start ≤ stop) :
    text.drop offset = text.slice offset start ++ (text.slice start stop ++ text.drop stop) := by
  have hsplit : ∀ i j, i ≤ j → text.slice i j ++ text.drop j = text.drop i := by
    intro i j hij
    have htake := List.take_append_drop (j - i) (text.drop i)
    rwa [List.drop_drop, Nat.add_sub_cancel' hij, ← List.drop_take] at htake
  rw [hsplit start stop hstop, hsplit offset start hstart]

/-- The lexemes and what stands between them go together to the text. -/
theorem Tile.exists_gaps {text : Text} {offset : Nat} {glued : Bool} {ts : List Token}
    (h : Tile text offset glued ts) :
    ∃ gaps last, gaps.length = ts.length ∧ text.drop offset =
      (List.zipWith (fun gap t => gap ++ t.lexeme) gaps ts).flatten ++ last := by
  induction h with
  | @finish offset glued _ _ => exact ⟨[], text.drop offset, rfl, rfl⟩
  | @token offset start stop glued t ts _ horder hlexeme _ _ _ ih =>
    obtain ⟨gaps, last, hlength, hdrop⟩ := ih
    refine ⟨text.slice offset start :: gaps, last, by simp [hlength], ?_⟩
    rw [drop_eq_slices horder.1 horder.2.1, hlexeme, hdrop]
    simp

/-- The tokens of a text are exactly where their spans say, in order and without overlaps, with
blanks and comments between them, up to the end of the text: nothing of the text is lost. -/
theorem tokenize_lossless {text : Text} {ts : List Token} (h : tokenize text = .ok ts) :
    Tile text 0 false ts ∧
      Edit.offsetsOf text (Span.endOf text) = .ok (text.length, text.length) ∧
      ∃ gaps last, gaps.length = ts.length ∧
        text = (List.zipWith (fun gap t => gap ++ t.lexeme) gaps ts).flatten ++ last := by
  obtain ⟨ps, hps, rfl⟩ := tokenize_eq_ok.1 h
  have htile : Tile text 0 false (locate .start ps) :=
    tile_of_pieces (a := []) (w := []) hps .nil (by simp)
  refine ⟨htile, ?_, htile.exists_gaps⟩
  have hend := Edit.offsetsOf_after text [] []
  simpa [Span.endOf, Span.point] using hend

theorem tokenize_lossless_string :
    ∃ text ts, text = "a ''x$\x7bb\x7d y'' # c\n /* d */ -1".toList ∧ tokenize text = .ok ts ∧
      Tile text 0 false ts ∧
      Edit.offsetsOf text (Span.endOf text) = .ok (text.length, text.length) ∧
      ∃ gaps last, gaps.length = ts.length ∧
        text = (List.zipWith (fun gap t => gap ++ t.lexeme) gaps ts).flatten ++ last := by
  have hok : (tokenize "a ''x$\x7bb\x7d y'' # c\n /* d */ -1".toList).isOk = true := by
    decide +kernel
  obtain ⟨ts, hts⟩ := Outcome.exists_of_isOk hok
  exact ⟨_, ts, rfl, hts, tokenize_lossless hts⟩

end Token
end FlakeInputs
