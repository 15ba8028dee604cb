import FlakeInputs.Grammar.Parse
import FlakeInputs.Proofs.Grammar.Completeness
import FlakeInputs.Proofs.Grammar.Shapes
import FlakeInputs.Proofs.Source.Offsets
import FlakeInputs.Proofs.Token.Written

/-!
# Pieces and located tokens

The pieces of a text determine its tokens, and a cut between two tokens is a cut between
two pieces.  What a text spells depends on its pieces only.
-/

namespace FlakeInputs

namespace Scan

theorem textOf_append (ps qs : List Piece) : textOf (ps ++ qs) = textOf ps ++ textOf qs :=
  List.flatMap_append

theorem textOf_cons (p : Piece) (ps : List Piece) : textOf (p :: ps) = p.text ++ textOf ps :=
  List.flatMap_cons

/-- The pieces of a text make up the text. -/
theorem textOf_pieces {m : List Mode} {t : Text} {ps : List Piece} (h : pieces m t = .ok ps) :
    textOf ps = t := by
  induction hn : t.length using Nat.strongRecOn generalizing m t ps with
  | _ n ih =>
    subst hn
    rcases pieces_eq_ok h with ⟨rfl, rfl, -⟩ | ⟨s, qs, hstep, hqs, rfl⟩
    · rfl
    · have htext := hstep.text
      have hlength : s.rest.length < t.length := by
        have hpos := List.length_pos_iff.2 hstep.text_ne_nil
        rw [htext, List.length_append]
        omega
      rw [textOf_append, ih _ hlength hqs rfl, htext]
      rfl

/-- What the grammar sees of a piece. -/
def Piece.bare? : Piece → Option (TokenKind × Text)
  | .gap _ => none
  | .token kind lexeme => some (kind, lexeme)

/-- What the grammar sees of some pieces. -/
def bares (ps : List Piece) : List (TokenKind × Text) :=
  ps.filterMap Piece.bare?

@[simp]
theorem bares_nil : bares [] = [] := rfl

@[simp]
theorem bares_append (ps qs : List Piece) : bares (ps ++ qs) = bares ps ++ bares qs :=
  List.filterMap_append

@[simp]
theorem bares_gap (t : Text) (ps : List Piece) : bares (.gap t :: ps) = bares ps := rfl

@[simp]
theorem bares_token (kind : TokenKind) (t : Text) (ps : List Piece) :
    bares (.token kind t :: ps) = (kind, t) :: bares ps := rfl

/-- Pieces without a token among them. -/
def IsGaps (ps : List Piece) : Prop :=
  ∀ p ∈ ps, ∃ t, p = .gap t

theorem IsGaps.append {ps qs : List Piece} (hps : IsGaps ps) (hqs : IsGaps qs) :
    IsGaps (ps ++ qs) := by
  intro p hp
  rcases List.mem_append.1 hp with hp | hp
  · exact hps p hp
  · exact hqs p hp

theorem isGaps_iff {ps : List Piece} : IsGaps ps ↔ bares ps = [] := by
  induction ps with
  | nil => simp [IsGaps]
  | cons p ps ih =>
    cases p with
    | gap t => simpa [IsGaps] using ih
    | token kind t => simp [IsGaps]

theorem isGaps_blanks (t : Text) : IsGaps (blanks t) := by
  intro p hp
  obtain ⟨c, -, rfl⟩ := List.mem_map.1 hp
  exact ⟨_, rfl⟩

@[simp]
theorem bares_blanks (t : Text) : bares (blanks t) = [] :=
  isGaps_iff.1 (isGaps_blanks t)

end Scan

namespace Token

open Scan (Piece pieces textOf textOf_append textOf_cons bares IsGaps)

theorem locate_append (p : Position) (ps qs : List Piece) :
    locate p (ps ++ qs) = locate p ps ++ locate (p.after (textOf ps)) qs := by
  induction ps generalizing p with
  | nil => rfl
  | cons x ps ih =>
    cases x with
    | gap t =>
      rw [List.cons_append, locate, locate, ih, textOf_cons, Position.after_append]
      rfl
    | token kind t =>
      rw [List.cons_append, locate, locate, ih, textOf_cons, Position.after_append,
        List.cons_append]
      rfl

theorem map_bare_locate (p : Position) (ps : List Piece) :
    (locate p ps).map Token.bare = bares ps := by
  induction ps generalizing p with
  | nil => rfl
  | cons x ps ih =>
    cases x with
    | gap t => exact ih _
    | token kind t => exact congrArg ((kind, t) :: ·) (ih _)

theorem isGaps_of_locate {p : Position} {ps : List Piece} (h : locate p ps = []) : IsGaps ps := by
  rw [Scan.isGaps_iff, ← map_bare_locate p, h]
  rfl

theorem locate_gaps {ps : List Piece} (h : IsGaps ps) (p : Position) : locate p ps = [] := by
  have hbare := map_bare_locate p ps
  rw [Scan.isGaps_iff.1 h] at hbare
  exact List.map_eq_nil_iff.1 hbare

/-- A token among located ones is a piece, and stands where the pieces before it end. -/
theorem locate_eq_append {p : Position} {ps : List Piece} {a b : List Token} {t : Token}
    (h : locate p ps = a ++ t :: b) :
    ∃ qs rs, ps = qs ++ Piece.token t.kind t.lexeme :: rs ∧ locate p qs = a ∧
      t.span = ⟨p.after (textOf qs), (p.after (textOf qs)).after t.lexeme⟩ ∧
      locate t.span.stop rs = b := by
  induction ps generalizing p a with
  | nil => simp [locate] at h
  | cons x ps ih =>
    cases x with
    | gap x =>
      obtain ⟨qs, rs, rfl, hqs, hspan, hrs⟩ := ih h
      refine ⟨.gap x :: qs, rs, rfl, hqs, ?_, hrs⟩
      rw [hspan, textOf_cons, Position.after_append]
      rfl
    | token kind x =>
      cases a with
      | nil =>
        obtain ⟨rfl, rfl⟩ := List.cons.inj h
        exact ⟨[], ps, rfl, rfl, rfl, rfl⟩
      | cons y a =>
        obtain ⟨rfl, hrest⟩ := List.cons.inj h
        obtain ⟨qs, rs, rfl, hqs, hspan, hrs⟩ := ih hrest
        refine ⟨.token kind x :: qs, rs, rfl, congrArg _ hqs, ?_, hrs⟩
        rw [hspan, textOf_cons, Position.after_append]
        rfl

theorem tokenize_eq_ok {text : Text} {ts : List Token} :
    tokenize text = .ok ts ↔ ∃ ps, pieces [] text = .ok ps ∧ locate .start ps = ts := by
  unfold tokenize
  split
  · next ps hps => simp [hps]
  · next fault hfault => simp [hfault]

end Token

/-- The expression that a text spells is the one that its tokens derive. -/
theorem Expr.parse_eq_ok {text : Text} {e : Expr} :
    Expr.parse text = .ok e ↔ ∃ ps, Scan.pieces [] text = .ok ps ∧
      Grammar.Derives .expr (Token.locate .start ps) e := by
  unfold Expr.parse Token.tokenize
  cases hps : Scan.pieces [] text with
  | error fault =>
    change Except.error _ = Except.ok _ ↔ _
    simp
  | ok ps =>
    simp only [Except.ok.injEq, exists_eq_left', ← Grammar.whole_iff]
    cases hwhole : Grammar.whole (Token.locate .start ps) with
    | error fault =>
      change (Grammar.whole _).mapError _ = _ ↔ _
      rw [hwhole]
      change Except.error _ = Except.ok _ ↔ _
      simp
    | ok e' =>
      change (Grammar.whole _).mapError _ = _ ↔ _
      rw [hwhole]
      change Except.ok _ = Except.ok _ ↔ _
      simp

end FlakeInputs
