import FlakeInputs.Proofs.Edit.Formals
import FlakeInputs.Proofs.Grammar.Arguments
import FlakeInputs.Proofs.Manifest.Cuts
import FlakeInputs.Proofs.Token.Exchange

/-!
# Adding a parameter

A new name is written right behind the last token of the last parameter, or in front of the
ellipsis if there is no parameter.  The text that results spells the same manifest with one
more parameter, unless the last one ends with a url: a comma right behind a url is read as a
part of it, and the name as its argument.
-/

namespace FlakeInputs
namespace Edit

open Grammar Scan
open Token (locate)
open Lookup (Exchanges)

/-! ## Lists that end with a url -/

/-- The kinds of the tokens in front of the token that ends at a position. -/
def kindsBefore (ts : List Token) (stop : Position) : List TokenKind :=
  (ts.takeWhile fun t => t.span.stop != stop).map Token.kind

/-- Whether a url is the last of some tokens, given in reverse, when the comma and the ellipsis
at the end of a parameter list are set aside. -/
def uriFirst : List TokenKind → Bool
  | .uri :: _ | .comma :: .uri :: _ | .ellipsis :: .comma :: .uri :: _ => true
  | _ => false

/-- Whether the last parameter of a list ends with a url. -/
def endsInUri (text : Text) (list : ParameterList) : Bool :=
  match Token.tokenize text with
  | .ok ts => uriFirst (kindsBefore ts list.span.stop).reverse
  | .error _ => false

theorem uriFirst_append (ks rest : List TokenKind) :
    uriFirst (ks ++ .braceOpen :: rest) = uriFirst ks := by
  unfold uriFirst
  rcases ks with _ | ⟨k, _ | ⟨k', _ | ⟨k'', ks⟩⟩⟩
  · rfl
  · cases k <;> rfl
  · cases k <;> first | rfl | (cases k' <;> rfl)
  · cases k <;> first | rfl | (cases k' <;> first | rfl | (cases k'' <;> rfl))

theorem uriFirst_tail {tail : List Token} {es : List (Option Parameter)} (h : Tail tail es)
    (k : TokenKind) (ks : List TokenKind) (hk : k ∉ [.comma, .ellipsis]) :
    uriFirst ((tail.map Token.kind).reverse ++ k :: ks) = (k == .uri) := by
  cases h with
  | nil => cases k <;> first | rfl | exact absurd hk (by decide)
  | comma ht =>
    simp only [List.map_cons, List.map_nil, ht]
    cases k <;> rfl
  | ellipsis ht hz =>
    simp only [List.map_cons, List.map_nil, ht, hz]
    cases k <;> rfl

/-- A list ends with a url if that is the last token of its last parameter. -/
theorem uriFirst_last {first p tail : List Token} {z : Token} {x : Parameter}
    {es before behind : List (Option Parameter)}
    (h : LastParameter ((first ++ p) ++ z :: tail) es x first (p ++ [z]) tail before behind) :
    uriFirst (((first ++ p) ++ z :: tail).map Token.kind).reverse = (z.kind == .uri) := by
  have hz : z.kind ∉ [.comma, .ellipsis] := fun hz =>
    h.last_kind (List.mem_cons_of_mem _ (List.mem_cons_of_mem _ hz))
  simpa using uriFirst_tail h.tail z.kind ((first ++ p).map Token.kind).reverse hz

/-- A token that is not empty ends behind all tokens before it. -/
theorem kindsBefore_locate {ps : List Piece} {a b : List Token} {c : Token}
    (h : locate .start ps = a ++ c :: b) (hc : c.lexeme ≠ []) :
    kindsBefore (a ++ c :: b) c.span.stop = a.map Token.kind := by
  obtain ⟨qs, rs, rfl, hqs, hspan, -⟩ := Token.locate_eq_append h
  have hbefore : ∀ t ∈ a, (t.span.stop != c.span.stop) = true := by
    intro t ht
    obtain ⟨a₁, a₂, rfl⟩ := List.append_of_mem ht
    obtain ⟨qs₁, qs₂, rfl, -, htspan, -⟩ := Token.locate_eq_append hqs
    have hstop : c.span.stop = t.span.stop.after (textOf qs₂ ++ c.lexeme) := by
      rw [hspan, htspan]
      simp
    rw [bne_iff_ne, hstop]
    exact Position.after_ne (by simp [hc])
  rw [kindsBefore, List.takeWhile_append_of_pos hbefore, List.takeWhile_cons_of_neg (by simp),
    List.append_nil]

/-- Whether a list ends with a url can be told from the kinds of its tokens. -/
theorem endsInUri_eq {text : Text} {ps : List Piece} {a q b : List Token} {opening closing : Token}
    {list : ParameterList} (h : pieces [] text = .ok ps)
    (hps : locate .start ps = a ++ opening :: (q ++ closing :: b))
    (hopening : opening.kind = .braceOpen) (hclosing : closing.kind = .braceClose)
    (hlist : list.span.stop = closing.span.stop) :
    endsInUri text list = uriFirst (q.map Token.kind).reverse := by
  have hts : Token.tokenize text = .ok (locate .start ps) := Token.tokenize_eq_ok.2 ⟨ps, h, rfl⟩
  have hsplit : locate .start ps = (a ++ opening :: q) ++ closing :: b := by
    rw [hps]
    simp
  have hlexeme : closing.lexeme ≠ [] := by
    obtain ⟨qs, rs, rfl, -⟩ := Token.locate_eq_append hsplit
    rw [lexeme_eq h (List.mem_append_right _ List.mem_cons_self) (by rw [hclosing]; rfl), hclosing]
    decide
  have hkinds : (kindsBefore (locate .start ps) list.span.stop).reverse =
      (q.map Token.kind).reverse ++ .braceOpen :: (a.map Token.kind).reverse := by
    rw [hsplit, hlist, kindsBefore_locate hsplit hlexeme]
    simp [hopening]
  simp only [endsInUri, hts, hkinds]
  exact uriFirst_append _ _

/-! ## The text that results -/

theorem slice_append (u x r : Text) : (u ++ (x ++ r)).slice u.length (u.length + x.length) = x := by
  rw [Text.slice, ← List.append_assoc, ← List.length_append, List.take_left, List.drop_left]

theorem result_insertParameter {u x r name : Text} {list : ParameterList}
    (hspan : list.span = ⟨Position.start.after u, (Position.start.after u).after x⟩) :
    (insertParameter list name (u ++ (x ++ r))).result = (scanFormals x >>= fun formals =>
      match list.parameters.getLast? with
      | some last => (appendParameter list last.name name u.length formals (u ++ (x ++ r))).result
      | none =>
        if list.ellipsis then (prependParameter list name u.length formals (u ++ (x ++ r))).result
        else .error (.emptyParameterList list.span)) := by
  have hoffsets := offsetsOf_after u x r
  rw [← hspan] at hoffsets
  have hslice := slice_append u x r
  rw [insertParameter, Logged.result_bind]
  change (offsetsOf (u ++ (x ++ r)) list.span >>= _) = _
  rw [hoffsets]
  change (Logged.lift (scanFormals ((u ++ (x ++ r)).slice _ _)) >>= _ : Logged Text).result = _
  rw [Logged.result_bind, Logged.result_lift, hslice]
  congr 1
  funext formals
  cases list.parameters.getLast? with
  | some last => rfl
  | none =>
    by_cases hellipsis : list.ellipsis = true
    · simp only [hellipsis, if_true]
    · simp only [hellipsis]
      rfl

/-- The pieces of a text with a parameter list in it, and with a token of that list in view. -/
def listPieces (ps qs : List Piece) (z : Token) (rs zs : List Piece) : List Piece :=
  ps ++ Piece.token .braceOpen ['{'] ::
    (qs ++ Piece.token z.kind z.lexeme :: (rs ++ Piece.token .braceClose ['}'] :: zs))

/-- The tokens of a parameter list among the pieces of a text. -/
structure ListSite (text : Text) (a : List Token) (opening : Token) (q : List Token) (z : Token)
    (q' : List Token) (closing : Token) (b : List Token) (ps qs rs zs : List Piece) : Prop where
  pieces_eq : pieces [] text = .ok (listPieces ps qs z rs zs)
  opening_eq : opening =
    ⟨.braceOpen, ['{'], ⟨.after .start (textOf ps), .after .start (textOf ps ++ ['{'])⟩⟩
  locate_ps : locate .start ps = a
  locate_qs : locate opening.span.stop qs = q
  z_span : z.span =
    ⟨opening.span.stop.after (textOf qs), opening.span.stop.after (textOf qs ++ z.lexeme)⟩
  bares_rs : bares rs = q'.map Token.bare
  locate_zs : locate closing.span.stop zs = b
  closing_stop : closing.span.stop =
    (Position.start.after (textOf ps)).after
      (textOf (bracedPieces (qs ++ Piece.token z.kind z.lexeme :: rs)))

theorem exists_listSite {text : Text} {all : List Piece} {a q q' b : List Token}
    {opening z closing : Token} (hall : pieces [] text = .ok all)
    (hts : locate .start all = a ++ opening :: ((q ++ z :: q') ++ closing :: b))
    (hopening : opening.kind = .braceOpen) (hclosing : closing.kind = .braceClose) :
    ∃ ps qs rs zs, ListSite text a opening q z q' closing b ps qs rs zs := by
  rw [List.append_assoc, List.cons_append] at hts
  obtain ⟨ps, _, rfl, hps, hopen, hrest⟩ := Token.locate_eq_append hts
  obtain ⟨qs, _, rfl, hqs, hz, hrest'⟩ := Token.locate_eq_append hrest
  obtain ⟨rs, zs, rfl, hrs, hclose, hzs⟩ := Token.locate_eq_append hrest'
  have hlexeme : opening.lexeme = ['{'] := by
    rw [hopening] at hall
    exact lexeme_eq hall (List.mem_append_right _ List.mem_cons_self) rfl
  have hlexeme' : closing.lexeme = ['}'] := by
    rw [hclosing] at hall
    have hmem : .token .braceClose closing.lexeme ∈ ps ++ Piece.token opening.kind opening.lexeme ::
        (qs ++ Piece.token z.kind z.lexeme ::
          (rs ++ Piece.token .braceClose closing.lexeme :: zs)) := by
      simp
    exact lexeme_eq hall hmem rfl
  refine ⟨ps, qs, rs, zs, ?_, ?_, hps, hqs, ?_, ?_, hzs, ?_⟩
  · rw [hall, hopening, hclosing, hlexeme, hlexeme']
    rfl
  · rw [← hlexeme, ← hopening, Position.after_append, ← hopen]
  · rw [hz, Position.after_append]
  · rw [← hrs, Token.map_bare_locate]
  · rw [hclose, hz, hopen, hlexeme, hlexeme']
    simp [bracedPieces]

/-- The last token of the last parameter of a list. -/
theorem exists_lastSite {text : Text} {all : List Piece} {a q b : List Token}
    {opening closing : Token} {es : List (Option Parameter)} {x : Parameter}
    (hall : pieces [] text = .ok all)
    (hts : locate .start all = a ++ opening :: (q ++ closing :: b)) (hq : Derives .entries q es)
    (hopening : opening.kind = .braceOpen) (hclosing : closing.kind = .braceClose)
    (hx : (es.filterMap id).getLast? = some x) :
    ∃ first p z tail before behind ps qs rs zs, q = (first ++ p) ++ z :: tail ∧
      LastParameter q es x first (p ++ [z]) tail before behind ∧
      ListSite text a opening (first ++ p) z tail closing b ps qs rs zs := by
  obtain ⟨first, p, tail, before, behind, hlast⟩ := hq.last_parameter hx
  obtain ⟨p, z, rfl⟩ : ∃ p' z, p = p' ++ [z] := by
    rcases List.eq_nil_or_concat p with rfl | ⟨p', z, rfl⟩
    · exact absurd rfl hlast.derives.parameter_ne_nil
    · exact ⟨p', z, by simp⟩
  obtain rfl : q = (first ++ p) ++ z :: tail := by
    rw [hlast.tokens]
    simp
  obtain ⟨ps, qs, rs, zs, hsite⟩ := exists_listSite hall hts hopening hclosing
  exact ⟨first, p, z, tail, before, behind, ps, qs, rs, zs, rfl, hlast, hsite⟩

theorem listPieces_eq (ps qs : List Piece) (z : Token) (rs zs : List Piece) :
    listPieces ps qs z rs zs =
      ps ++ (bracedPieces (qs ++ Piece.token z.kind z.lexeme :: rs) ++ zs) := by
  simp [listPieces, bracedPieces]

namespace ListSite

variable {text : Text} {a q q' b : List Token} {opening z closing : Token}
  {ps qs rs zs : List Piece} (h : ListSite text a opening q z q' closing b ps qs rs zs)
include h

theorem text_eq : text = textOf ps ++
    (textOf (bracedPieces (qs ++ Piece.token z.kind z.lexeme :: rs)) ++ textOf zs) := by
  rw [← textOf_pieces h.pieces_eq, listPieces_eq, textOf_append, textOf_append]

theorem bares_zs : bares zs = b.map Token.bare := by
  rw [← h.locate_zs, Token.map_bare_locate]

/-- The text of the list is cut into its own pieces. -/
theorem pieces_list {es : List (Option Parameter)} (hes : Derives .entries (q ++ z :: q') es)
    (hb : headKind b = some .colon ∨ headKind b = some .atSign) :
    pieces [] (textOf (bracedPieces (qs ++ Piece.token z.kind z.lexeme :: rs))) =
      .ok (bracedPieces (qs ++ Piece.token z.kind z.lexeme :: rs)) := by
  have hall : pieces [] text = .ok (ps ++ Piece.token .braceOpen ['{'] ::
      ((qs ++ Piece.token z.kind z.lexeme :: rs) ++ Piece.token .braceClose ['}'] :: zs)) := by
    rw [h.pieces_eq, listPieces]
    simp
  refine pieces_braces hall ?_ ?_
  · have hbalanced := hes.balanced trivial
    have hkinds : kinds (qs ++ Piece.token z.kind z.lexeme :: rs) =
        (q ++ z :: q').map Token.kind := by
      rw [kinds_append, kinds_token, ← map_kind_locate opening.span.stop qs, h.locate_qs, kinds,
        h.bares_rs]
      simp [Token.bare, Function.comp_def]
    rwa [hkinds]
  · intro x hx
    obtain ⟨zs', hzs'⟩ := List.head?_eq_some_iff.1 hx
    have hbares := h.bares_zs
    rw [hzs', bares_token] at hbares
    cases b with
    | nil => simp at hb
    | cons t b =>
      obtain ⟨ht, -⟩ := List.cons.inj hbares
      have hkind : t.kind = .text := (congrArg Prod.fst ht).symm
      simp [hkind] at hb

theorem list_span {list : ParameterList} (hlist : list.span = opening.span.join closing.span) :
    list.span = ⟨.after .start (textOf ps),
      (Position.start.after (textOf ps)).after
        (textOf (bracedPieces (qs ++ Piece.token z.kind z.lexeme :: rs)))⟩ := by
  rw [hlist, Span.join, h.closing_stop, h.opening_eq]

/-- A new name goes behind the last parameter, whatever stands behind the list. -/
theorem result_append_before {first p : List Token} {es before behind : List (Option Parameter)}
    {x : Parameter} {list : ParameterList} (name : Text) (hq : q = first ++ p)
    (hlast : LastParameter (q ++ z :: q') es x first (p ++ [z]) q' before behind)
    (hes : Derives .entries (q ++ z :: q') es)
    (hb : headKind b = some .colon ∨ headKind b = some .atSign)
    (hlist : list.span = opening.span.join closing.span)
    (hx : list.parameters.getLast? = some x) (r : Text) :
    (insertParameter list name
        (textOf ps ++
          (textOf (bracedPieces (qs ++ Piece.token z.kind z.lexeme :: rs)) ++ r))).result =
      .ok (textOf ps ++ (textOf (bracedPieces (qs ++ Piece.token z.kind z.lexeme ::
        ([Piece.token .comma [','], .gap [' '], .token .identifier name] ++ rs))) ++ r)) := by
  have hqs : bares qs = (first ++ p).map Token.bare := by
    rw [← hq, ← h.locate_qs, Token.map_bare_locate]
  obtain ⟨fs, entry, hscan, hentry, hstop⟩ :=
    scanFormals_last hlast hqs h.bares_rs (h.pieces_list hes hb)
  have hresult := @result_insertParameter _ _ r name _ (h.list_span hlist)
  rw [hscan, hx] at hresult
  rw [hresult]
  change (appendParameter list x.name name (textOf ps).length fs _).result = _
  rw [appendParameter, hentry]
  change insertAt _ ((textOf ps).length + entry.stop) (", ".toList ++ name) = _
  have hsplit :
      textOf ps ++ (textOf (bracedPieces (qs ++ Piece.token z.kind z.lexeme :: rs)) ++ r) =
      textOf (ps ++ Piece.token .braceOpen ['{'] :: (qs ++ [Piece.token z.kind z.lexeme])) ++
        (textOf (rs ++ [Piece.token .braceClose ['}']]) ++ r) := by
    simp [bracedPieces]
  have hoffset : (textOf ps).length + entry.stop =
      (textOf (ps ++
        Piece.token .braceOpen ['{'] :: (qs ++ [Piece.token z.kind z.lexeme]))).length := by
    rw [hstop]
    simp
    omega
  rw [hoffset, hsplit, insertAt_append]
  simp [bracedPieces]

/-- The text with a new name behind the last parameter. -/
theorem result_append {first p : List Token} {es before behind : List (Option Parameter)}
    {x : Parameter} {list : ParameterList} (name : Text) (hq : q = first ++ p)
    (hlast : LastParameter (q ++ z :: q') es x first (p ++ [z]) q' before behind)
    (hes : Derives .entries (q ++ z :: q') es)
    (hb : headKind b = some .colon ∨ headKind b = some .atSign)
    (hlist : list.span = opening.span.join closing.span)
    (hx : list.parameters.getLast? = some x) :
    (insertParameter list name text).result =
      .ok (textOf (ps ++ Piece.token .braceOpen ['{'] :: (qs ++ [Piece.token z.kind z.lexeme])) ++
        (", ".toList ++ name ++ textOf (rs ++ Piece.token .braceClose ['}'] :: zs))) := by
  rw [h.text_eq, h.result_append_before name hq hlast hes hb hlist hx]
  simp [bracedPieces]

/-- A new name goes in front of the ellipsis, whatever stands behind the list. -/
theorem result_prepend_before {list : ParameterList} (name : Text) (hz : z.kind = .ellipsis)
    (hq : q = []) (hq' : q' = []) (hes : Derives .entries (q ++ z :: q') [none])
    (hb : headKind b = some .colon ∨ headKind b = some .atSign)
    (hlist : list.span = opening.span.join closing.span)
    (hparameters : list.parameters = []) (hellipsis : list.ellipsis = true) (r : Text) :
    (insertParameter list name
        (textOf ps ++
          (textOf (bracedPieces (qs ++ Piece.token z.kind z.lexeme :: rs)) ++ r))).result =
      .ok (textOf ps ++ (textOf (bracedPieces (qs ++
        ([Piece.token .identifier name, .token .comma [','], .gap [' ']] ++
          Piece.token z.kind z.lexeme :: rs))) ++ r)) := by
  have hqs : IsGaps qs := Token.isGaps_of_locate (h.locate_qs.trans hq)
  have hrs : IsGaps rs := isGaps_iff.2 (by rw [h.bares_rs, hq']; rfl)
  obtain ⟨fs, entry, hscan, hentry, hstart⟩ :=
    scanFormals_ellipsis hz hqs hrs (h.pieces_list hes hb)
  have hresult := @result_insertParameter _ _ r name _ (h.list_span hlist)
  rw [hscan, hparameters, hellipsis] at hresult
  rw [hresult]
  change (prependParameter list name (textOf ps).length fs _).result = _
  rw [prependParameter, hentry]
  change insertAt _ ((textOf ps).length + entry.start) (name ++ ", ".toList) = _
  have hsplit :
      textOf ps ++ (textOf (bracedPieces (qs ++ Piece.token z.kind z.lexeme :: rs)) ++ r) =
      textOf (ps ++ Piece.token .braceOpen ['{'] :: qs) ++
        (textOf (Piece.token z.kind z.lexeme :: (rs ++ [Piece.token .braceClose ['}']])) ++ r) := by
    simp [bracedPieces]
  have hoffset : (textOf ps).length + entry.start =
      (textOf (ps ++ Piece.token .braceOpen ['{'] :: qs)).length := by
    rw [hstart]
    simp
    omega
  rw [hoffset, hsplit, insertAt_append]
  simp [bracedPieces]

/-- The text with a new name in front of the ellipsis. -/
theorem result_prepend {list : ParameterList} (name : Text) (hz : z.kind = .ellipsis)
    (hq : q = []) (hq' : q' = []) (hes : Derives .entries (q ++ z :: q') [none])
    (hb : headKind b = some .colon ∨ headKind b = some .atSign)
    (hlist : list.span = opening.span.join closing.span)
    (hparameters : list.parameters = []) (hellipsis : list.ellipsis = true) :
    (insertParameter list name text).result =
      .ok (textOf (ps ++ Piece.token .braceOpen ['{'] :: qs) ++ (name ++ ", ".toList ++
        textOf (Piece.token z.kind z.lexeme :: (rs ++ Piece.token .braceClose ['}'] :: zs)))) := by
  rw [h.text_eq, h.result_prepend_before name hz hq hq' hes hb hlist hparameters hellipsis]
  simp [bracedPieces]

/-- What stands behind the last parameter of a list ends a name. -/
theorem endsParameter_tail {behind : List (Option Parameter)} (htail : Tail q' behind) :
    endsParameter (textOf (rs ++ Piece.token .braceClose ['}'] :: zs)) = true ∧
      ∀ x, (rs ++ Piece.token .braceClose ['}'] :: zs).head? ≠ some (.token .text x) := by
  cases hrs : rs with
  | nil => exact ⟨rfl, by simp⟩
  | cons p rs' =>
    have hmem : p ∈ listPieces ps qs z rs zs := by
      rw [listPieces, hrs]
      simp
    cases p with
    | gap g => exact ⟨spelled_of_pieces h.pieces_eq _ hmem _, by simp⟩
    | token kind x =>
      have hbares := h.bares_rs
      rw [hrs, bares_token] at hbares
      have hkind : kind = .comma := by
        cases htail with
        | nil => simp at hbares
        | comma ht =>
          obtain ⟨hkind, -⟩ := List.cons.inj hbares
          exact (congrArg Prod.fst hkind).trans ht
        | ellipsis ht =>
          obtain ⟨hkind, -⟩ := List.cons.inj hbares
          exact (congrArg Prod.fst hkind).trans ht
      subst hkind
      have hx : x = [','] := lexeme_eq h.pieces_eq hmem rfl
      subst hx
      exact ⟨rfl, by simp⟩

theorem pieces_append {behind : List (Option Parameter)} {name : Text} (htail : Tail q' behind)
    (hz : z.kind ∉ [.uri, .colon, .text]) (hname : isIdentifier name = true) :
    pieces [] (textOf (ps ++ Piece.token .braceOpen ['{'] :: (qs ++ Piece.token z.kind z.lexeme ::
        ([Piece.token .comma [','], .gap [' '], .token .identifier name] ++
          (rs ++ Piece.token .braceClose ['}'] :: zs))))) =
      .ok (ps ++ Piece.token .braceOpen ['{'] :: (qs ++ Piece.token z.kind z.lexeme ::
        ([Piece.token .comma [','], .gap [' '], .token .identifier name] ++
          (rs ++ Piece.token .braceClose ['}'] :: zs)))) := by
  obtain ⟨hends, hhead⟩ := h.endsParameter_tail htail
  have hall : pieces [] text = .ok ((ps ++ Piece.token .braceOpen ['{'] :: qs) ++
      Piece.token z.kind z.lexeme :: (rs ++ Piece.token .braceClose ['}'] :: zs)) := by
    rw [h.pieces_eq, listPieces]
    simp
  have hmem : Piece.token z.kind z.lexeme ∈ (ps ++ Piece.token .braceOpen ['{'] :: qs) ++
      Piece.token z.kind z.lexeme :: (rs ++ Piece.token .braceClose ['}'] :: zs) := by
    simp
  have hcolon := getLast?_ne_colon hall hmem hz
  simp only [List.mem_cons, List.not_mem_nil, or_false, not_or] at hz
  obtain ⟨d, -, hd⟩ := exists_head? hall hmem hz.2.2
  have hne : z.lexeme ≠ [] := by
    intro hnil
    have hd' := hd []
    rw [hnil] at hd'
    simp at hd'
  have hnew := pieces_insert hall hz.2.2 hz.1 hne hcolon hhead (fits_appended hname hends)
  simpa using hnew

/-- Behind a url the comma is read as a part of the url. -/
theorem pieces_append_uri {behind : List (Option Parameter)} {name : Text}
    (htail : Tail q' behind) (hz : z.kind = .uri) (hname : isIdentifier name = true) :
    pieces [] (textOf (ps ++ Piece.token .braceOpen ['{'] :: (qs ++
        Piece.token .uri (z.lexeme ++ [',']) :: ([Piece.gap [' '], .token .identifier name] ++
          (rs ++ Piece.token .braceClose ['}'] :: zs))))) =
      .ok (ps ++ Piece.token .braceOpen ['{'] :: (qs ++
        Piece.token .uri (z.lexeme ++ [',']) :: ([Piece.gap [' '], .token .identifier name] ++
          (rs ++ Piece.token .braceClose ['}'] :: zs)))) := by
  have hall : pieces [] text = .ok ((ps ++ Piece.token .braceOpen ['{'] :: qs) ++
      .token .uri z.lexeme :: (rs ++ Piece.token .braceClose ['}'] :: zs)) := by
    rw [h.pieces_eq, listPieces, hz]
    simp
  have hnew := pieces_uri_comma hall (fits_spaced hname (h.endsParameter_tail htail).1)
  simpa using hnew

theorem pieces_prepend {name : Text} (hz : z.kind = .ellipsis) (hq : q = [])
    (hname : isIdentifier name = true) :
    pieces [] (textOf (ps ++ Piece.token .braceOpen ['{'] :: (qs ++
        ([Piece.token .identifier name, .token .comma [','], .gap [' ']] ++
          Piece.token z.kind z.lexeme :: (rs ++ Piece.token .braceClose ['}'] :: zs))))) =
      .ok (ps ++ Piece.token .braceOpen ['{'] :: (qs ++
        ([Piece.token .identifier name, .token .comma [','], .gap [' ']] ++
          Piece.token z.kind z.lexeme :: (rs ++ Piece.token .braceClose ['}'] :: zs)))) := by
  have hqs : IsGaps qs := Token.isGaps_of_locate (h.locate_qs.trans hq)
  have hall : pieces [] text = .ok (ps ++ Piece.token .braceOpen ['{'] :: (qs ++ ([] ++
      Piece.token z.kind z.lexeme :: (rs ++ Piece.token .braceClose ['}'] :: zs)))) := h.pieces_eq
  have hmem : Piece.token z.kind z.lexeme ∈ ps ++ Piece.token .braceOpen ['{'] :: (qs ++ ([] ++
      Piece.token z.kind z.lexeme :: (rs ++ Piece.token .braceClose ['}'] :: zs))) := by
    simp
  obtain ⟨d, hd, hhead⟩ := exists_head? hall hmem (by rw [hz]; decide)
  refine pieces_exchange hall (by decide) hqs (fun _ _ => rfl) (by simp) (fits_prepended hname _)
    (fun g _ hold => hold.anywhere (hhead _) hd _) ?_
  refine head?_gaps_ne hall hqs (fun g hg => by simp [hg]) ?_
  obtain ⟨c, t, hstart, hc⟩ := (isName_of_isIdentifier hname).1.exists_start
  rw [hstart]
  rintro heq
  obtain rfl : c = '=' := by simpa using heq
  exact absurd hc (by decide)

end ListSite

/-! ## The manifest that results -/

/-- A text in which the entries `es'` stand in a parameter list; the last of them does not end
with a url. -/
structure Relists (out : Text) (a : List Token) (opening : Token) (b : List Token) (N : List Piece)
    (q : List Token) (es' : List (Option Parameter)) (closing : Token)
    (b' : List Token) : Prop where
  pieces_eq : pieces [] out = .ok N
  tokens : locate .start N = a ++ opening :: (q ++ closing :: b')
  entries : Derives .entries q es'
  alike : Alike b b'
  closing_kind : closing.kind = .braceClose
  ends : uriFirst (q.map Token.kind).reverse = false

/-- A text in which one more name stands among the entries `es` of a parameter list. -/
structure Extends (out : Text) (a : List Token) (opening : Token) (b : List Token)
    (es : List (Option Parameter)) (name : Text) (N : List Piece) (q : List Token)
    (es' : List (Option Parameter)) (closing : Token) (b' : List Token) : Prop
    extends Relists out a opening b N q es' closing b' where
  parameters : (es'.filterMap id).map Parameter.shape =
    (es.filterMap id).map Parameter.shape ++ [⟨.blank, name, none⟩]
  ellipsis : es'.any Option.isNone = es.any Option.isNone

namespace ListSite

variable {text : Text} {a q q' b : List Token} {opening z closing : Token}
  {ps qs rs zs : List Piece} (h : ListSite text a opening q z q' closing b ps qs rs zs)
include h

theorem locate_front (X : List Piece) :
    locate .start (ps ++ Piece.token .braceOpen ['{'] :: (qs ++ X)) =
      a ++ opening :: (q ++ locate (opening.span.stop.after (textOf qs)) X) := by
  have hopening : (⟨.braceOpen, ['{'], ⟨.after .start (textOf ps),
      .after (.after .start (textOf ps)) ['{']⟩⟩ : Token) = opening := by
    rw [h.opening_eq, Position.after_append]
  have hstop : opening.span.stop = .after (.after .start (textOf ps)) ['{'] := by
    rw [← hopening]
  rw [Token.locate_append, h.locate_ps, locate, Token.locate_append, hopening, ← hstop,
    h.locate_qs]

theorem locate_z (X : List Piece) :
    locate (opening.span.stop.after (textOf qs)) (Piece.token z.kind z.lexeme :: X) =
      z :: locate z.span.stop X := by
  have hz : (⟨z.kind, z.lexeme, ⟨opening.span.stop.after (textOf qs),
      .after (opening.span.stop.after (textOf qs)) z.lexeme⟩⟩ : Token) = z := by
    rw [← Position.after_append, ← h.z_span]
  rw [locate, hz, h.z_span, Position.after_append]

/-- What stands behind a token of the list has only moved. -/
theorem locate_back (p : Position) :
    ∃ tail c b', locate p (rs ++ Piece.token .braceClose ['}'] :: zs) = tail ++ c :: b' ∧
      Alike q' tail ∧ c.kind = .braceClose ∧ Alike b b' := by
  refine ⟨_, _, _, Token.locate_append _ _ _, ?_, rfl, ?_⟩
  · rw [Alike, Token.map_bare_locate, h.bares_rs]
  · rw [Alike, Token.map_bare_locate, h.bares_zs]

theorem extends_append {first p : List Token} {es before behind : List (Option Parameter)}
    {x : Parameter} {name : Text} (hq : q = first ++ p)
    (hlast : LastParameter (q ++ z :: q') es x first (p ++ [z]) q' before behind)
    (hz : z.kind ≠ .uri) (hname : isIdentifier name = true) :
    ∃ q₁ es' c b', Extends (textOf (ps ++ Piece.token .braceOpen ['{'] ::
        (qs ++ [Piece.token z.kind z.lexeme])) ++
          (", ".toList ++ name ++ textOf (rs ++ Piece.token .braceClose ['}'] :: zs)))
        a opening b es name
        (ps ++ (bracedPieces (qs ++ Piece.token z.kind z.lexeme ::
          ([Piece.token .comma [','], .gap [' '], .token .identifier name] ++ rs)) ++ zs))
        q₁ es' c b' := by
  have hends : z.kind ∉ [.uri, .colon, .text] := by
    have hlastKind := hlast.last_kind
    simp only [List.mem_cons, List.not_mem_nil, or_false, not_or] at hlastKind ⊢
    exact ⟨hz, hlastKind.1, hlastKind.2.1⟩
  have hnew := h.pieces_append hlast.tail hends hname
  have htokens := h.locate_front (Piece.token z.kind z.lexeme ::
    ([Piece.token .comma [','], .gap [' '], .token .identifier name] ++
      (rs ++ Piece.token .braceClose ['}'] :: zs)))
  rw [h.locate_z, List.cons_append, locate, List.cons_append, locate, List.cons_append, locate,
    List.nil_append] at htokens
  obtain ⟨tail, c, b', hback, htail, hc, hb'⟩ := h.locate_back
    (((z.span.stop.after [',']).after [' ']).after name)
  rw [hback] at htokens
  generalize hcommaEq : (⟨.comma, [','], _⟩ : Token) = comma at htokens
  generalize hn : (⟨.identifier, name, _⟩ : Token) = n at htokens
  obtain ⟨hcomma, hkind, rfl⟩ : comma.kind = .comma ∧ n.kind = .identifier ∧ n.lexeme = name := by
    rw [← hcommaEq, ← hn]
    exact ⟨rfl, rfl, rfl⟩
  have htail' := hlast.tail.of_alike htail
  refine ⟨q ++ z :: comma :: n :: tail,
    before ++ some x :: some ⟨n.span.join n.span, n.lexeme, none⟩ :: behind, c, b',
    ⟨?_, by simpa [bracedPieces] using htokens, ?_, hb', hc, ?_⟩, ?_, ?_⟩
  · simpa [bracedPieces] using hnew
  · have hentries := hlast.append hcomma hkind htail
    subst hq
    simpa using hentries
  · have hends : uriFirst _ = false := uriFirst_tail htail' .identifier
      (.comma :: z.kind :: (q.map Token.kind).reverse) (by decide)
    simpa [hkind, hcomma] using hends
  · have hnone := hlast.tail.filterMap_eq_nil
    have hsome : ∀ (y : Parameter) ys, (some y :: ys).filterMap id = y :: ys.filterMap id :=
      fun _ _ => rfl
    rw [hlast.entries, List.filterMap_append, List.filterMap_append, hsome, hsome, hsome, hnone]
    simp [Parameter.shape]
  · rw [hlast.entries]
    simp

/-- Behind a url the name is read as an argument of the url, so the list has no more parameters
than before. -/
theorem relists_append {first p : List Token} {es before behind : List (Option Parameter)}
    {x : Parameter} {name : Text} (hq : q = first ++ p)
    (hlast : LastParameter (q ++ z :: q') es x first (p ++ [z]) q' before behind)
    (hz : z.kind = .uri) (hname : isIdentifier name = true) :
    ∃ q₁ es' c b', Relists (textOf (ps ++ Piece.token .braceOpen ['{'] ::
        (qs ++ [Piece.token z.kind z.lexeme])) ++
          (", ".toList ++ name ++ textOf (rs ++ Piece.token .braceClose ['}'] :: zs)))
        a opening b (ps ++ (bracedPieces (qs ++ Piece.token .uri (z.lexeme ++ [',']) ::
          ([Piece.gap [' '], .token .identifier name] ++ rs)) ++ zs))
        q₁ es' c b' ∧
      (es'.filterMap id).map Parameter.name = (es.filterMap id).map Parameter.name := by
  have hnew := h.pieces_append_uri hlast.tail hz hname
  have htokens := h.locate_front (Piece.token .uri (z.lexeme ++ [',']) ::
    ([Piece.gap [' '], .token .identifier name] ++ (rs ++ Piece.token .braceClose ['}'] :: zs)))
  rw [locate, List.cons_append, locate, List.cons_append, locate, List.nil_append] at htokens
  obtain ⟨tail, c, b', hback, htail, hc, hb'⟩ := h.locate_back
    (((opening.span.stop.after (textOf qs)).after (z.lexeme ++ [','])).after [' '] |>.after name)
  rw [hback] at htokens
  generalize hurlEq : (⟨.uri, z.lexeme ++ [','], _⟩ : Token) = url at htokens
  generalize hn : (⟨.identifier, name, _⟩ : Token) = n at htokens
  obtain ⟨hurl, hkind⟩ : url.kind = .uri ∧ n.kind = .identifier := by
    rw [← hurlEq, ← hn]
    exact ⟨rfl, rfl⟩
  obtain ⟨x', hx', hname'⟩ := hlast.derives.parameter_goesOn hz hurl hkind
  have htail' := hlast.tail.of_alike htail
  refine ⟨q ++ url :: n :: tail, before ++ some x' :: behind, c, b',
    ⟨?_, by simpa [bracedPieces] using htokens, ?_, hb', hc, ?_⟩, ?_⟩
  · simpa [bracedPieces] using hnew
  · have hentries := hlast.exchange hx' htail
    subst hq
    simpa using hentries
  · have hends : uriFirst _ = false := uriFirst_tail htail' .identifier
      (.uri :: (q.map Token.kind).reverse) (by decide)
    simpa [hkind, hurl] using hends
  · rw [hlast.entries]
    simp [hname']

theorem extends_prepend {name : Text} (hz : z.kind = .ellipsis) (hq : q = []) (hq' : q' = [])
    (hname : isIdentifier name = true) :
    ∃ q₁ es' c b', Extends (textOf (ps ++ Piece.token .braceOpen ['{'] :: qs) ++
        (name ++ ", ".toList ++
          textOf (Piece.token z.kind z.lexeme :: (rs ++ Piece.token .braceClose ['}'] :: zs))))
        a opening b [none] name
        (ps ++ (bracedPieces
          (qs ++ ([Piece.token .identifier name, .token .comma [','], .gap [' ']] ++
            Piece.token z.kind z.lexeme :: rs)) ++ zs))
        q₁ es' c b' := by
  have hnew := h.pieces_prepend hz hq hname
  have htokens := h.locate_front ([Piece.token .identifier name, .token .comma [','], .gap [' ']] ++
    Piece.token z.kind z.lexeme :: (rs ++ Piece.token .braceClose ['}'] :: zs))
  rw [hq, List.cons_append, locate, List.cons_append, locate, List.cons_append, locate,
    List.nil_append, locate] at htokens
  obtain ⟨tail, c, b', hback, htail, hc, hb'⟩ := h.locate_back
    ((((opening.span.stop.after (textOf qs)).after name).after [',']).after [' '] |>.after z.lexeme)
  rw [hq'] at htail
  obtain rfl := htail.eq_nil
  rw [hback] at htokens
  generalize hn : (⟨.identifier, name, _⟩ : Token) = n at htokens
  generalize hcommaEq : (⟨.comma, [','], _⟩ : Token) = comma at htokens
  generalize hell : (⟨z.kind, z.lexeme, _⟩ : Token) = ell at htokens
  obtain ⟨hcomma, hkind, rfl⟩ : comma.kind = .comma ∧ n.kind = .identifier ∧ n.lexeme = name := by
    rw [← hcommaEq, ← hn]
    exact ⟨rfl, rfl, rfl⟩
  have hell : ell.kind = .ellipsis := by rw [← hell, hz]
  refine ⟨[n, comma, ell], [some ⟨n.span.join n.span, n.lexeme, none⟩, none], c, b',
    ⟨?_, by simpa [bracedPieces] using htokens, (Tail.ellipsis hcomma hell).derives hkind, hb', hc,
      ?_⟩, ?_, rfl⟩
  · simpa [bracedPieces] using hnew
  · simp [hkind, hcomma, hell, uriFirst]
  · simp [Parameter.shape]

end ListSite

theorem ellipsis_of_insertParameter {list : ParameterList} {name text out : Text}
    (hparameters : list.parameters = []) (h : (insertParameter list name text).result = .ok out) :
    list.ellipsis = true := by
  cases hellipsis : list.ellipsis with
  | true => rfl
  | false =>
    rw [insertParameter, Logged.result_bind] at h
    change (offsetsOf text list.span >>= _) = _ at h
    cases hoffsets : offsetsOf text list.span with
    | error error => simp [hoffsets, bind, Except.bind] at h
    | ok offsets =>
      rw [hoffsets] at h
      change (Logged.lift (scanFormals (text.slice offsets.1 offsets.2)) >>= _ : Logged Text).result
        = _ at h
      rw [Logged.result_bind, Logged.result_lift, hparameters, hellipsis] at h
      cases hscan : scanFormals (text.slice offsets.1 offsets.2) with
      | error error => simp [hscan, bind, Except.bind] at h
      | ok formals =>
        simp [hscan, bind, Except.bind] at h

/-- A parameter list with one more name in it. -/
def ParameterList.with (list : ParameterList) (name : Text) : ParameterList :=
  { list with parameters := list.parameters ++ [⟨.blank, name, none⟩] }

/-- The parameter list of a text that extends another has one more name in it. -/
theorem Extends.shape_list {out name : Text} {a b q b' : List Token} {opening closing c : Token}
    {es es' : List (Option Parameter)} {N : List Piece} {list : ParameterList}
    (h : Extends out a opening b es name N q es' c b')
    (hlist : list = listBetween opening closing es list.whole?) :
    (listBetween opening c es' list.whole?).shape = (ParameterList.with list name).shape := by
  rw [hlist]
  simp only [listBetween, ParameterList.with, ParameterList.shape, Parameter.shapes_eq_map,
    List.map_append, h.parameters, h.ellipsis]
  rfl

/-- What comes of a parameter list that takes a name: it has one more parameter, unless it ends
with a url. -/
theorem exists_relists {text out name : Text} {all : List Piece} {a q b : List Token}
    {opening closing : Token} {es : List (Option Parameter)} {list : ParameterList}
    (hall : pieces [] text = .ok all)
    (hts : locate .start all = a ++ opening :: (q ++ closing :: b)) (hq : Derives .entries q es)
    (hlist : list = listBetween opening closing es list.whole?)
    (hopening : opening.kind = .braceOpen) (hclosing : closing.kind = .braceClose)
    (hb : headKind b = some .colon ∨ headKind b = some .atSign) (hname : isIdentifier name = true)
    (hout : (insertParameter list name text).result = .ok out) :
    ∃ N q' es' c b', Relists out a opening b N q' es' c b' ∧
      (endsInUri text list = false → Extends out a opening b es name N q' es' c b') ∧
      (endsInUri text list = true →
        (es'.filterMap id).map Parameter.name = (es.filterMap id).map Parameter.name) := by
  have hspan : list.span = opening.span.join closing.span := by
    rw [hlist]
    rfl
  have hparameters : list.parameters = es.filterMap id := by
    rw [hlist]
    rfl
  rw [endsInUri_eq hall hts hopening hclosing (by rw [hspan, Span.join])]
  cases hx : list.parameters.getLast? with
  | some x =>
    obtain ⟨first, p, z, tail, before, behind, ps, qs, rs, zs, rfl, hlast, hsite⟩ :=
      exists_lastSite hall hts hq hopening hclosing (hparameters ▸ hx)
    have hresult := hsite.result_append name rfl hlast hq hb hspan hx
    rw [hout, Except.ok.injEq] at hresult
    rw [hresult, uriFirst_last hlast]
    by_cases hz : z.kind = .uri
    · obtain ⟨q', es', c, b', hrelists, hnames⟩ := hsite.relists_append rfl hlast hz hname
      exact ⟨_, q', es', c, b', hrelists, by simp [hz], fun _ => hnames⟩
    · obtain ⟨q', es', c, b', hextends⟩ := hsite.extends_append rfl hlast hz hname
      exact ⟨_, q', es', c, b', hextends.toRelists, fun _ => hextends, by simp [hz]⟩
  | none =>
    have hnil := List.getLast?_eq_none_iff.1 hx
    have hellipsis := ellipsis_of_insertParameter hnil hout
    have hany : es.any Option.isNone = true := by
      rw [hlist] at hellipsis
      exact hellipsis
    obtain ⟨z, rfl, hz, rfl⟩ := hq.sole_ellipsis (hparameters ▸ hnil) hany
    have hts' : locate .start all = a ++ opening :: (([] ++ z :: []) ++ closing :: b) := hts
    obtain ⟨ps, qs, rs, zs, hsite⟩ := exists_listSite hall hts' hopening hclosing
    have hresult := hsite.result_prepend name hz rfl rfl hq hb hspan hnil hellipsis
    rw [hout, Except.ok.injEq] at hresult
    rw [hresult]
    obtain ⟨q', es', c, b', hextends⟩ := hsite.extends_prepend hz rfl rfl hname
    exact ⟨_, q', es', c, b', hextends.toRelists, fun _ => hextends, by simp [hz, uriFirst]⟩

/-- Adding a parameter to a function that a manifest binds changes nothing else, apart from
spans.  Behind a url no parameter is added, but the default that ends with the url changes. -/
theorem insertParameter_threads {text out name : Text} {T : Expr} {before behind : List Binding}
    {recursive : Bool} {o : KeyValue} {list : ParameterList} {body : Expr}
    (hparse : Expr.parse text = .ok T)
    (hnode : T.node = .map (before ++ Binding.keyValue o :: behind) recursive)
    (ho : o.value.node = .function (.destructured list) body) (hname : isIdentifier name = true)
    (hout : (insertParameter list name text).result = .ok out) :
    ∃ T' o' behind' list' body', Expr.parse out = .ok T' ∧
      T'.node = .map (before ++ Binding.keyValue o' :: behind') recursive ∧
      o'.path.map Key.shape = o.path.map Key.shape ∧
      o'.value.node = .function (.destructured list') body' ∧ body'.shape = body.shape ∧
      behind'.map Binding.shape = behind.map Binding.shape ∧
      (endsInUri text list = false → list'.shape = (ParameterList.with list name).shape) ∧
      (endsInUri text list = true → list'.whole? = list.whole? ∧
        list'.parameters.map Parameter.name = list.parameters.map Parameter.name) := by
  obtain ⟨all, hall, hT⟩ := Expr.parse_eq_ok.1 hparse
  obtain ⟨a, opening, q, closing, b, es, hts, hq, hlist, hopening, hclosing, hb, hframe⟩ :=
    hT.function_site hnode ho
  obtain ⟨N, q', es', c, b', hrelists, hextends, hnames⟩ :=
    exists_relists hall hts hq hlist hopening hclosing hb hname hout
  obtain ⟨T', o', behind', body', hT', hnode', hpath, ho', hbody, hbehind⟩ :=
    hframe hrelists.closing_kind hrelists.alike hrelists.entries
  refine ⟨T', o', behind', _, body', ?_, hnode', hpath, ho', hbody, hbehind,
    fun hclean => (hextends hclean).shape_list hlist, fun huri => ⟨rfl, ?_⟩⟩
  · rw [← hrelists.tokens] at hT'
    exact Expr.parse_eq_ok.2 ⟨N, hrelists.pieces_eq, hT'⟩
  · rw [hlist]
    exact hnames huri

end Edit
end FlakeInputs
