import FlakeInputs.Proofs.Edit.NewInputs

/-!
# Filling an empty set

A declaration that is put into an empty set is the only binding of that set, whatever comments
stand around its braces, and no comment is lost.  The brace is looked for in the text and not
among the tokens, so a comment between `rec` and the brace must not have one in it.
-/

namespace FlakeInputs

namespace Scan

/-- The text of a comment. -/
def Piece.comment? : Piece → Option Text
  | .gap ('#' :: t) => some ('#' :: t)
  | .gap ('/' :: t) => some ('/' :: t)
  | _ => none

/-- The comments among some pieces. -/
def comments (ps : List Piece) : List Text :=
  ps.filterMap Piece.comment?

/-- The comments of a text, in their order. -/
def commentsOf (text : Text) : List Text :=
  match pieces [] text with
  | .ok ps => comments ps
  | .error _ => []

theorem commentsOf_eq {text : Text} {ps : List Piece} (h : pieces [] text = .ok ps) :
    commentsOf text = comments ps := by
  rw [commentsOf, h]

theorem comments_append (ps qs : List Piece) : comments (ps ++ qs) = comments ps ++ comments qs :=
  List.filterMap_append

theorem comments_token (kind : TokenKind) (t : Text) (ps : List Piece) :
    comments (.token kind t :: ps) = comments ps := rfl

/-- Blanks hold no comment. -/
theorem comments_eq_nil {ps : List Piece} (h : (textOf ps).isBlank = true) : comments ps = [] := by
  refine List.filterMap_eq_nil_iff.2 fun p hp => ?_
  have hblank : ∀ c t, p = .gap (c :: t) → isBlank c = true := by
    rintro c t rfl
    exact List.all_eq_true.1 h c (List.mem_flatMap.2 ⟨_, hp, List.mem_cons_self⟩)
  unfold Piece.comment?
  split
  · exact absurd (hblank _ _ rfl) (by decide)
  · exact absurd (hblank _ _ rfl) (by decide)
  · rfl

theorem comments_blanks {t : Text} (h : ∀ c ∈ t, isGap c = true) : comments (blanks t) = [] := by
  refine comments_eq_nil (List.all_eq_true.2 fun c hc => ?_)
  rw [textOf_blanks] at hc
  have hgap := h c hc
  simp only [isGap, Bool.or_eq_true, beq_iff_eq] at hgap
  rcases hgap with ((rfl | rfl) | rfl) | rfl <;> decide

/-- A declaration is written without comments. -/
theorem comments_declarationPieces (name url : Text) (qualified : Bool) :
    comments (declarationPieces name url qualified) = [] := by
  have hkey : comments (keyPieces name) = [] := by
    unfold keyPieces
    split <;> rfl
  have hqualifier : comments (if qualified then
      [.token .identifier Manifest.inputsName, .token .dot ['.']] else []) = [] := by
    cases qualified <;> rfl
  rw [declarationPieces, comments_append, comments_append, hkey, hqualifier]
  rfl

end Scan

namespace Edit

open Grammar Scan
open Token (locate)
open Manifest (inputsName)

/-! ## Putting the declaration in -/

section
variable {text : Text} {T : Expr} {b : KeyValue} {left right : List Binding}
  {recursive recursive' : Bool}

/-- A declaration is put into the empty set of a binding: the room that there is for it, and
where the text is cut. -/
theorem exists_room_inside (hparse : Expr.parse text = .ok T)
    (hnode : T.node = .map (left ++ Binding.keyValue b :: right) recursive)
    (hvalue : b.value.node = .map [] recursive')
    (hbrace : recursive' = true → braceIsToken text b.value.span = true) :
    ∃ all f bar g ps c qs gs xs rs lead trail,
      Gap text all ⟨.within b [] [] recursive', left, right, recursive⟩ f bar g ∧
      Barrier all f bar g ps c qs ∧ Room qs gs xs rs lead trail ∧
      Adds text (fillEmptySet text b) (textOf (ps ++ Piece.token bar.kind [c] :: gs)) (textOf xs)
        (textOf rs) lead trail := by
  obtain ⟨all, lt, opening, q, closing, rt, hall, hts, hq, hbraces⟩ := exists_tokens hparse hnode
  obtain ⟨a, q, rfl, ha, hq⟩ := hq.bindings_split
  obtain ⟨x, c, rfl, hx, hc⟩ := (show Derives _ q ([.keyValue b] ++ right) from hq).bindings_split
  have hmeets : Meets b (.inside b) (.within b [] [] recursive') left right := .empty
  obtain ⟨x₁, x₂, f, bar, rfl, hf, hsite⟩ :=
    hmeets.exists_site hvalue (.inl hbraces.opening_kind) ha hx hc lt (closing :: rt)
  have hgap : Gap text all ⟨.within b [] [] recursive', left, right, recursive⟩ f bar
      (x₂ ++ (c ++ closing :: rt)) :=
    gap_of_tokens hall (hts.trans (by simp)) hf hsite.barrier ha hc
      (fun hx₂' hk => hsite.fills (.refl x₁) hx₂' hk) fun hz hq => hbraces.derives (.refl _) hz hq
  obtain ⟨ps, c₀, qs, hbarrier⟩ := exists_barrier hall hgap.tokens hsite.barrier
  have hready := hbarrier.ready hall hsite.stands hsite.opens <| by
    intro c hc hrec
    obtain rfl := Placing.inside.inj hc
    exact hbrace (Node.map.inj (hvalue.symm.trans hrec)).2
  have hclear := hbarrier.clear hall hsite.stands hsite.opens hready
  obtain ⟨gs, xs, rs, lead, trail, hroom, hadds⟩ := hbarrier.room_inside hall hsite.stands hclear
  exact ⟨all, f, bar, _, ps, c₀, qs, gs, xs, rs, lead, trail, hgap, hbarrier, hroom, hadds⟩

/-- A declaration that is put into an empty set becomes the only binding of that set.  The rest
of the manifest is the same as before, apart from spans, and so are the comments.  If the set is
recursive, the first brace behind `rec` must be a token and not part of a comment. -/
theorem fillEmptySet_declares (hparse : Expr.parse text = .ok T)
    (hnode : T.node = .map (left ++ .keyValue b :: right) recursive)
    (hvalue : b.value.node = .map [] recursive')
    (hbrace : recursive' = true → braceIsToken text b.value.span = true) (name url : Text) :
    ∃ out T', fillEmptySet text b (declaration name url false) = .ok out ∧
      Expr.parse out = .ok T' ∧
      T'.shape = (⟨T.span, .map (left ++ .keyValue { b with value := ⟨b.value.span,
        .map [.keyValue (declared name url false)] recursive'⟩ } :: right) recursive⟩ :
          Expr).shape ∧
      commentsOf out = commentsOf text := by
  obtain ⟨all, f, bar, g, ps, c, qs, gs, xs, rs, lead, trail, hgap, hbarrier, hroom, hadds⟩ :=
    exists_room_inside hparse hnode hvalue hbrace
  obtain ⟨T', d, hreads⟩ := hgap.exists_reads hbarrier hroom name url false
  refine ⟨_, T', hadds.result _, by simpa [Writing.text] using hreads.parses, ?_, ?_⟩
  · obtain ⟨left', bs, right', hnode', hfilled, hleft, hright⟩ := hreads.node_eq
    have hbs := shapes_of_filled hfilled (hreads.shape.trans (shape_declared name url false).symm)
    have hleft := Binding.shapes_eq_of_forall₂ hleft fun _ _ h => h.shape
    have hright := Binding.shapes_eq_of_forall₂ hright fun _ _ h => h.shape
    rw [Expr.eta T', hnode']
    simp [Expr.shape, Node.shape, hleft, hright, hbs, Hole.fill]
  · have hall := hgap.pieces_eq
    rw [hbarrier.pieces_eq] at hall
    rw [commentsOf_eq hall, commentsOf_eq (hroom.pieces hall hbarrier.barrier name url false)]
    simp only [hroom.split, comments_append, comments_token, comments_blanks hroom.lead_gap,
      comments_blanks hroom.trail_gap, comments_declarationPieces,
      comments_eq_nil hadds.removed_blank, List.nil_append]

theorem fillEmptySet_declares_recursive : ∃ text T b left right recursive out T',
    text = "\x7b inputs = rec /* a */ \x7b # \x7b\n \x7d; outputs = x: 1; \x7d".toList ∧
    Expr.parse text = .ok T ∧ T.node = .map (left ++ .keyValue b :: right) recursive ∧
    b.names = [some inputsName] ∧ b.value.node = .map [] true ∧
    braceIsToken text b.value.span = true ∧
    fillEmptySet text b (declaration "b".toList "y".toList false) = .ok out ∧
    Expr.parse out = .ok T' ∧
    T'.shape = (⟨T.span, .map (left ++ .keyValue { b with value := ⟨b.value.span,
      .map [.keyValue (declared "b".toList "y".toList false)] true⟩ } :: right) recursive⟩ :
        Expr).shape ∧
    commentsOf out = commentsOf text := by
  have hcheck : (Expr.parse
      "\x7b inputs = rec /* a */ \x7b # \x7b\n \x7d; outputs = x: 1; \x7d".toList).toOption.any
        (fun T => (T.findFirst (some [inputsName])).toOption.any fun b? => b?.any fun b =>
          bindsEmptyRec b && braceIsToken
            "\x7b inputs = rec /* a */ \x7b # \x7b\n \x7d; outputs = x: 1; \x7d".toList
              b.value.span) = true := by
    decide +kernel
  obtain ⟨T, hparse, hcheck⟩ := Outcome.exists_of_any hcheck
  obtain ⟨b?, hfind, hcheck⟩ := Outcome.exists_of_any hcheck
  obtain ⟨b, rfl, hb⟩ := (Option.any_eq_true _ _).1 hcheck
  rw [Bool.and_eq_true, bindsEmptyRec_eq_true] at hb
  obtain ⟨⟨hnames, hvalue⟩, hbrace⟩ := hb
  obtain ⟨left, right, recursive, hnode, -⟩ := Lookup.exists_split hfind
  obtain ⟨out, T', hout, hparse', hshape, hcomments⟩ :=
    fillEmptySet_declares hparse hnode hvalue (fun _ => hbrace) "b".toList "y".toList
  exact ⟨_, T, b, left, right, recursive, out, T', rfl, hparse, hnode, hnames, hvalue, hbrace, hout,
    hparse', hshape, hcomments⟩

/-- A brace in a comment behind `rec` is taken for that of the set: the declaration becomes part
of the comment, and the set stays empty. -/
theorem fillEmptySet_in_comment :
    (Expr.parse "\x7b inputs = rec /* \x7b */ \x7b \x7d; outputs = x: 1; \x7d".toList).toOption.any
      (fun T => (T.findFirst (some [inputsName])).toOption.any fun b? => b?.any fun b =>
        bindsEmptyRec b &&
          (fillEmptySet "\x7b inputs = rec /* \x7b */ \x7b \x7d; outputs = x: 1; \x7d".toList b
              (declaration "a".toList "u".toList false)).toOption.any fun out =>
            out == "\x7b inputs = rec /* \x7b a.url = \"u\"; */ \x7b \x7d; ".toList ++
                "outputs = x: 1; \x7d".toList &&
              (Expr.parse out).toOption.any fun T' =>
                (T'.findFirst (some [inputsName])).toOption.any fun b? =>
                  b?.any bindsEmptyRec) = true := by
  decide +kernel

end

end Edit
end FlakeInputs
