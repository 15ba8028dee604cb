import FlakeInputs.Proofs.Token.Lossless

/-!
# Closing parentheses between tokens

The text from the end of a token to the end of a later one is made of what is skipped between them
and of their lexemes.  Here the tokens in it are closing parentheses.
-/

namespace FlakeInputs

namespace Text

theorem slice_append_slice (t : Text) {i j k : Nat} (hij : i ≤ j) (hjk : j ≤ k) :
    t.slice i j ++ t.slice j k = t.slice i k := by
  have hsplit := List.take_append_drop (j - i) ((t.take k).drop i)
  rwa [List.drop_drop, Nat.add_sub_cancel' hij, ← List.drop_take, List.take_take,
    Nat.min_eq_left hjk] at hsplit

end Text

namespace Scan

/-- A text in front of `rest` that holds only blanks, comments and closing parentheses. -/
inductive Closing (rest : Text) : Text → Prop
  | skipped {t : Text} (h : Skipped rest t) : Closing rest t
  | paren {gap t : Text} (hgap : Skipped (')' :: (t ++ rest)) gap) (h : Closing rest t) :
      Closing rest (gap ++ ')' :: t)

end Scan

namespace Token

open Scan (Skipped Closing)

section
variable {text : Text} {offset : Nat} {glued : Bool} {p q : List Token} {t : Token}

/-- Behind a token the others make up the rest of the text. -/
theorem Tile.exists_behind (h : Tile text offset glued (p ++ t :: q)) :
    ∃ start stop glued', Edit.offsetsOf text t.span = .ok (start, stop) ∧
      Tile text stop glued' q := by
  induction p generalizing offset glued with
  | nil =>
    cases h with
    | token hspan _ _ _ _ hrest => exact ⟨_, _, _, hspan, hrest⟩
  | cons t' p ih =>
    cases h with
    | token _ _ _ _ _ hrest => exact ih hrest

/-- What is skipped in front of a token. -/
theorem Tile.exists_gap (h : Tile text offset glued (t :: q)) :
    ∃ gap rest, text.drop offset = gap ++ (t.lexeme ++ rest) ∧ Skipped (t.lexeme ++ rest) gap := by
  cases h with
  | @token _ start stop _ _ _ _ horder hlexeme hgap _ _ =>
    have hdrop : text.drop start = t.lexeme ++ text.drop stop := by
      rw [drop_eq_slices horder.2.1 (Nat.le_refl stop), hlexeme, Text.slice, List.drop_take]
      simp
    refine ⟨text.slice offset start, text.drop stop, ?_, ?_⟩
    · rw [drop_eq_slices horder.1 horder.2.1, hlexeme]
    · rwa [← hdrop]

/-- The text of closing parentheses, from an offset on that they stand behind. -/
theorem Tile.closing (h : Tile text offset glued (p ++ q)) (hp : ∀ t ∈ p, t.lexeme = [')']) :
    ∃ stop glued', Tile text stop glued' q ∧ offset ≤ stop ∧
      Closing (text.drop stop) (text.slice offset stop) ∧
      ∀ pos, Edit.offsetOf text pos = .ok offset →
        Edit.offsetOf text (Span.lastStop pos (p.map Token.span)) = .ok stop := by
  induction p generalizing offset glued with
  | nil =>
    refine ⟨offset, glued, h, Nat.le_refl offset, .skipped ?_, fun _ hpos => hpos⟩
    rw [Text.slice, List.drop_take]
    simp [Skipped.nil]
  | cons t p ih =>
    cases h with
    | @token _ start stop _ _ _ hspan horder hlexeme hgap _ hrest =>
      obtain ⟨stop', glued', htile, hle, hclosing, hlast⟩ :=
        ih hrest fun t' ht' => hp t' (List.mem_cons_of_mem t ht')
      have hparen : text.slice start stop = [')'] := hlexeme.trans (hp t List.mem_cons_self)
      have hdrop : text.drop start = ')' :: (text.slice stop stop' ++ text.drop stop') := by
        rw [drop_eq_slices horder.2.1 hle, hparen]
        rfl
      have hslice : text.slice offset stop' =
          text.slice offset start ++ ')' :: text.slice stop stop' := by
        rw [← text.slice_append_slice horder.1 (Nat.le_trans horder.2.1 hle),
          ← text.slice_append_slice horder.2.1 hle, hparen]
        rfl
      refine ⟨stop', glued', htile, Nat.le_trans horder.1 (Nat.le_trans horder.2.1 hle), ?_, ?_⟩
      · rw [hdrop] at hgap
        rw [hslice]
        exact .paren hgap hclosing
      · intro pos _
        exact hlast t.span.stop (Edit.offsetsOf_eq_ok.1 hspan).2

end

end Token
end FlakeInputs
