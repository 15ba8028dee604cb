import FlakeInputs.Edit.Insertion
import FlakeInputs.Proofs.Edit.Parameters
import FlakeInputs.Proofs.Manifest.Holes

/-!
# The outputs function in a text that changes

A name is threaded into the outputs function by an edit of its parameter list alone.  So the
edit is the same whatever stands behind the list, and it leaves the pieces in front of the list
and those behind it as they are.
-/

namespace FlakeInputs
namespace Edit

open Grammar Scan
open Token (locate)

/-- Whether an error says that a manifest has a form that is not edited. -/
def refuses : Error → Bool
  | .inheritUnsupported _ | .unsupportedExpression _ _ _ | .unsupportedValue _ _
  | .interpolatedValue _ | .missingOutputs | .missingInputsAndOutputs
  | .emptyParameterList _ => true
  | _ => false

/-- The outputs function of a manifest with a name threaded into it, if it takes the name. -/
def threaded (name : Text) (o : KeyValue) : KeyValue :=
  match o.value.node with
  | .function (.destructured list) body =>
    if accepts list name then withParameter o list name body else o
  | _ => o

/-- The last parameter of a function does not end with a url. -/
def IsClean (text : Text) (o : KeyValue) : Prop :=
  ∀ list, (Binding.keyValue o).head? = some list → endsInUri text list = false

theorem endsInUri_of_headAt {text : Text} {ps : List Piece} {l p r : List Token}
    {list : ParameterList} {ks : List TokenKind} (hps : pieces [] text = .ok ps)
    (htokens : locate .start ps = l ++ (p ++ r)) (h : HeadAt p list ks) :
    endsInUri text list = uriFirst ks.reverse := by
  obtain ⟨l', opening, q, closing, r', rfl, hopening, hclosing, hstop, rfl⟩ := h
  refine endsInUri_eq (a := l ++ l') (b := r' ++ r) hps ?_ hopening hclosing hstop
  rw [htokens]
  simp

/-- The pieces of a text around a stretch of the tokens `y`: the stretch begins behind the first
token and ends behind `l`. -/
structure Stretch (all : List Piece) (before y behind : List Token) (ps xs zs : List Piece)
    (l r : List Token) : Prop where
  split : all = ps ++ (xs ++ zs)
  tokens : y = l ++ r
  opens : ∃ (t : Token) (l₀ : List Token), locate .start ps = before ++ t :: l₀
  closes : ∃ (r₀ : List Token) (semicolon : Token), r = r₀ ++ [semicolon] ∧
    semicolon.kind = .semicolon
  front : locate .start (ps ++ xs) = before ++ l
  back : locate (Position.start.after (textOf (ps ++ xs))) zs = r ++ behind

theorem Stretch.of_back {all ps xs zs : List Piece} {before y behind l r : List Token}
    {o : KeyValue} (hsplit : all = ps ++ (xs ++ zs)) (hy : y = l ++ r) (hr : r ≠ [])
    (hderives : Derives (.bindings .braceClose) y [.keyValue o])
    (hopens : ∃ t l₀, locate .start ps = before ++ t :: l₀)
    (htokens : locate .start all = before ++ (y ++ behind))
    (hback : locate (Position.start.after (textOf (ps ++ xs))) zs = r ++ behind) :
    Stretch all before y behind ps xs zs l r := by
  refine ⟨hsplit, hy, hopens, ?_, ?_, hback⟩
  · obtain ⟨r₀, last, rfl⟩ := (List.eq_nil_or_concat r).resolve_left hr
    obtain ⟨k, semicolon, hk, hsemicolon⟩ :=
      hderives.bindings_semicolon.resolve_left (by simp [hy])
    rw [hy, List.concat_eq_append, ← List.append_assoc] at hk
    obtain ⟨-, hlast⟩ := List.append_inj' hk rfl
    exact ⟨r₀, last, by simp, by rw [List.singleton_inj.1 hlast, hsemicolon]⟩
  · rw [hsplit, ← List.append_assoc, Token.locate_append, hback, hy] at htokens
    refine List.append_cancel_right (htokens.trans ?_)
    simp

/-- What comes of a function when a name is threaded into it: its keys stay as they are, and the
name becomes a parameter, unless the comma in front of it is read as a part of a url. -/
structure TurnsInto (text name : Text) (o o₁ : KeyValue) : Prop where
  path : o₁.path = o.path
  threaded : IsClean text o → o₁ = threaded name o

/-- The function `o` has become `o₁`, apart from spans, when the pieces of a stretch have become
`xs'`. -/
structure Threaded (text : Text) (o o₁ : KeyValue) (before : List Token) (ps xs' zs : List Piece)
    (l' r : List Token) : Prop where
  pieces_eq : pieces [] (textOf (ps ++ (xs' ++ zs))) = .ok (ps ++ (xs' ++ zs))
  front : locate .start (ps ++ xs') = before ++ l'
  derives : ∀ {r' : List Token}, Alike r r' →
    ∃ o', Derives (.bindings .braceClose) (l' ++ r') [.keyValue o'] ∧ o'.shape = o₁.shape ∧
      (IsClean text o → ∀ list', (Binding.keyValue o').head? = some list' →
        ∃ ks, HeadAt (l' ++ r') list' ks ∧ uriFirst ks.reverse = false)

/-- The second text is the first one with something put into it that ends no line and does not
part the two characters that may end one. -/
def Grafted (x x' : Text) : Prop :=
  ∃ u y v, x = u ++ v ∧ x' = u ++ (y ++ v) ∧ '\r' ∉ y ∧ '\n' ∉ y ∧
    (y = [] ∨ (∃ d, d ≠ '\r' ∧ u.getLast? = some d) ∨ ∃ d, d ≠ '\n' ∧ v.head? = some d)

/-- How the outcome of threading a name depends on the text behind a stretch: not at all.
Either the edit is refused, or something is put into the stretch. -/
def Grows (text name : Text) (o : KeyValue) (before : List Token) (ps xs zs : List Piece)
    (r : List Token) : Prop :=
  (∃ e, refuses e = true ∧
      ∀ t, (threadOutputs o name (textOf (ps ++ xs) ++ t)).result = .error e) ∨
    ∃ xs', (∀ t, (threadOutputs o name (textOf (ps ++ xs) ++ t)).result =
        .ok (textOf (ps ++ xs') ++ t)) ∧
      (∃ o₁ l', TurnsInto text name o o₁ ∧ Threaded text o o₁ before ps xs' zs l' r) ∧
      Grafted (textOf xs) (textOf xs')

section
variable {text name : Text} {all : List Piece} {before y behind : List Token} {o : KeyValue}

/-- The stretch behind the first token of a binding. -/
theorem exists_stretch (hall : pieces [] text = .ok all)
    (htokens : locate .start all = before ++ (y ++ behind))
    (hy : Derives (.bindings .braceClose) y [.keyValue o]) :
    ∃ ps zs t r, Stretch all before y behind ps [] zs [t] r ∧ pieces [] text = .ok (ps ++ zs) := by
  obtain ⟨t, r, rfl, hr⟩ : ∃ t r, y = t :: r ∧ r ≠ [] := by
    cases hy with
    | bindings hk hnil =>
      obtain ⟨t, k', semicolon, rfl, -⟩ := hk.binding_keyValue.keyValue_ends
      exact ⟨t, _, rfl, by simp⟩
  have hsplit := htokens
  rw [List.cons_append] at hsplit
  obtain ⟨ps, zs, rfl, hps, hspan, hzs⟩ := Token.locate_eq_append hsplit
  have hstop : Position.start.after (textOf (ps ++ [Piece.token t.kind t.lexeme] ++ [])) =
      t.span.stop := by
    rw [hspan]
    simp
  have hopens : locate .start (ps ++ [Piece.token t.kind t.lexeme]) = before ++ t :: [] := by
    have ht : (⟨t.kind, t.lexeme, t.span⟩ : Token) = t := rfl
    rw [hspan] at ht
    rw [Token.locate_append, hps, locate, ht]
    rfl
  exact ⟨ps ++ [Piece.token t.kind t.lexeme], zs, t, r,
    .of_back (by simp) rfl hr hy ⟨t, [], hopens⟩ htokens (by rw [hstop, hzs]), by simpa using hall⟩

/-- A function that is left as it is. -/
theorem exists_grows_same (hall : pieces [] text = .ok all)
    (htokens : locate .start all = before ++ (y ++ behind))
    (hy : Derives (.bindings .braceClose) y [.keyValue o]) (hthreaded : threaded name o = o)
    (hresult : ∀ t, (threadOutputs o name t).result = .ok t) :
    ∃ ps xs zs l r, Stretch all before y behind ps xs zs l r ∧
      Grows text name o before ps xs zs r := by
  obtain ⟨ps, zs, t, r, hstretch, hpieces⟩ := exists_stretch hall htokens hy
  obtain rfl := hstretch.tokens
  refine ⟨ps, [], zs, [t], r, hstretch, .inr ⟨[], fun t => hresult _,
    ⟨o, [t], ⟨rfl, fun _ => hthreaded.symm⟩, ?_⟩,
    ⟨[], [], [], rfl, rfl, by simp, by simp, .inl rfl⟩⟩⟩
  refine ⟨?_, hstretch.front, ?_⟩
  · rw [List.nil_append, textOf_pieces hpieces, hpieces]
  · intro r' hr'
    obtain ⟨bs, hbs, hkin⟩ := hy.bindings_kin (Alike.append (.refl [t]) hr')
    obtain ⟨x, _, hx, hnil, rfl⟩ := List.forall₂_cons_left_iff.1 hkin
    obtain rfl := List.forall₂_nil_left_iff.1 hnil
    obtain ⟨o', rfl⟩ : ∃ o', x = .keyValue o' := by
      cases x with
      | keyValue o' => exact ⟨o', rfl⟩
      | inherited span names source? => exact absurd hx.shape (by simp [Binding.shape])
    refine ⟨o', hbs, Binding.keyValue.inj hx.shape, fun hclean list' hlist' => ?_⟩
    obtain ⟨list, ks, hlist, hat, hat'⟩ := hx.head list' hlist'
    refine ⟨ks, hat', ?_⟩
    rw [← endsInUri_of_headAt hall htokens hat]
    exact hclean list hlist

/-! ## A function that takes the name -/

/-- A binding does not begin with a brace. -/
theorem exists_first {l₀ w : List Token} {opening : Token}
    (hy : Derives (.bindings .braceClose) (l₀ ++ opening :: w) [.keyValue o])
    (hopening : opening.kind = .braceOpen) : ∃ t l₁, l₀ = t :: l₁ := by
  cases l₀ with
  | nil =>
    have hbegins := hy.begins
    rw [List.nil_append, headKind_cons, hopening] at hbegins
    exact absurd hbegins (by decide)
  | cons t l₁ => exact ⟨t, l₁, rfl⟩

theorem ListSite.stretch {l₀ q q' r₀ : List Token} {opening z closing : Token}
    {ps qs rs zs : List Piece} (hl₀ : ∃ t l₁, l₀ = t :: l₁) (hr₀ : r₀ ≠ [])
    (hy : Derives (.bindings .braceClose) (l₀ ++ opening :: (q ++ z :: q' ++ closing :: r₀))
      [.keyValue o])
    (h : ListSite text (before ++ l₀) opening q z q' closing (r₀ ++ behind) ps qs rs zs)
    (hall : pieces [] text = .ok all)
    (htokens : locate .start all =
      before ++ ((l₀ ++ opening :: (q ++ z :: q' ++ closing :: r₀)) ++ behind)) :
    Stretch all before (l₀ ++ opening :: (q ++ z :: q' ++ closing :: r₀)) behind ps
      (bracedPieces (qs ++ Piece.token z.kind z.lexeme :: rs)) zs
      (l₀ ++ opening :: (q ++ z :: q' ++ [closing])) r₀ := by
  have hsplit : all = ps ++ (bracedPieces (qs ++ Piece.token z.kind z.lexeme :: rs) ++ zs) := by
    have heq := Except.ok.inj (hall.symm.trans h.pieces_eq)
    rw [heq, listPieces_eq]
  have hstop : Position.start.after
      (textOf (ps ++ bracedPieces (qs ++ Piece.token z.kind z.lexeme :: rs))) =
        closing.span.stop := by
    rw [h.closing_stop, textOf_append, Position.after_append]
  have hback : locate (Position.start.after
      (textOf (ps ++ bracedPieces (qs ++ Piece.token z.kind z.lexeme :: rs)))) zs =
        r₀ ++ behind := by
    rw [hstop, h.locate_zs]
  obtain ⟨t, l₁, rfl⟩ := hl₀
  exact .of_back hsplit (by simp) hr₀ hy ⟨t, l₁, h.locate_ps⟩ htokens hback

theorem Relists.front {out : Text} {a b q b' : List Token} {opening c : Token}
    {es' : List (Option Parameter)} {ps xs' zs : List Piece}
    (h : Relists out a opening b (ps ++ (xs' ++ zs)) q es' c b')
    (hzs : bares zs = b.map Token.bare) :
    pieces [] (textOf (ps ++ (xs' ++ zs))) = .ok (ps ++ (xs' ++ zs)) ∧
      locate .start (ps ++ xs') = a ++ opening :: (q ++ [c]) := by
  refine ⟨by rw [textOf_pieces h.pieces_eq, h.pieces_eq], ?_⟩
  have htokens := h.tokens
  rw [← List.append_assoc, Token.locate_append] at htokens
  have hlength : (locate (Position.start.after (textOf (ps ++ xs'))) zs).length = b'.length := by
    have halike := congrArg List.length h.alike
    have hbares := congrArg List.length hzs
    rw [← Token.map_bare_locate (Position.start.after (textOf (ps ++ xs')))] at hbares
    simp only [List.length_map] at halike hbares
    omega
  have hsplit : a ++ opening :: (q ++ c :: b') = (a ++ opening :: (q ++ [c])) ++ b' := by simp
  rw [hsplit] at htokens
  exact (List.append_inj' htokens hlength).1

theorem threaded_of_accepts {list : ParameterList} {body : Expr}
    (hnode : o.value.node = .function (.destructured list) body)
    (haccepts : accepts list name = true) :
    threaded name o = withParameter o list name body ∧
      ∀ t, threadOutputs o name t = insertParameter list name t := by
  constructor
  · simp only [threaded, hnode, haccepts, if_true]
  · intro t
    simp only [threadOutputs, hnode, result_addParameter haccepts]

/-- A function with another parameter list. -/
def withList (o : KeyValue) (list : ParameterList) (body : Expr) : KeyValue :=
  { o with value := ⟨o.value.span, .function (.destructured list) body⟩ }

/-- Other entries of its parameter list make another function. -/
theorem Relists.threaded {l₀ r₀ q₀ q b' : List Token} {opening closing c : Token}
    {es es' : List (Option Parameter)} {ps xs' zs : List Piece} {list list₁ : ParameterList}
    {out : Text} {body : Expr}
    (h : Relists out (before ++ l₀) opening (r₀ ++ behind) (ps ++ (xs' ++ zs)) q es' c b')
    (hhole : FunctionHole o list body l₀ opening q₀ closing r₀ es)
    (hzs : bares zs = (r₀ ++ behind).map Token.bare)
    (hlist₁ : (listBetween opening c es' list.whole?).shape = list₁.shape) :
    Threaded text o (withList o list₁ body) before ps xs' zs (l₀ ++ opening :: (q ++ [c])) r₀ := by
  obtain ⟨hpieces, hfront⟩ := h.front hzs
  refine ⟨hpieces, by rw [hfront, List.append_assoc], ?_⟩
  intro r' hr'
  obtain ⟨o', body', ho', hpath, hnode', hbody⟩ := hhole.derives h.closing_kind hr' h.entries
  refine ⟨o', by simpa using ho', ?_, fun _ list' hlist' => ?_⟩
  · exact shape_keyValue (b := withList o list₁ body) hpath
      (shape_function hnode' rfl hlist₁ hbody)
  · obtain rfl : listBetween opening c es' list.whole? = list' := by
      simpa [Binding.head?, hnode'] using hlist'
    exact ⟨_, ⟨l₀, opening, q, c, r', by simp, hhole.opening_kind, h.closing_kind, rfl, rfl⟩,
      h.ends⟩

/-- A name has no end of a line in it. -/
theorem not_mem_of_isIdentifier (hname : isIdentifier name = true) : '\r' ∉ name ∧ '\n' ∉ name := by
  obtain ⟨hname, -⟩ := isName_of_isIdentifier hname
  exact ⟨hname.not_mem (by decide), hname.not_mem (by decide)⟩

/-- A name behind the last parameter of a list. -/
theorem ListSite.grafted_append {a q q' b : List Token} {opening z closing : Token}
    {ps qs rs zs : List Piece} (h : ListSite text a opening q z q' closing b ps qs rs zs)
    (hz : z.kind ≠ .text) (hname : isIdentifier name = true) :
    Grafted (textOf (bracedPieces (qs ++ Piece.token z.kind z.lexeme :: rs)))
      (textOf (bracedPieces (qs ++ Piece.token z.kind z.lexeme ::
        ([Piece.token .comma [','], .gap [' '], .token .identifier name] ++ rs)))) := by
  have hmem : Piece.token z.kind z.lexeme ∈ listPieces ps qs z rs zs := by simp [listPieces]
  obtain ⟨hne, hink⟩ := isInk_of_token h.pieces_eq hmem hz
  obtain ⟨hr, hn⟩ := not_mem_of_isIdentifier hname
  refine ⟨'{' :: (textOf qs ++ z.lexeme), ',' :: ' ' :: name, textOf rs ++ ['}'], ?_, ?_, ?_, ?_,
    .inr (.inl ⟨z.lexeme.getLast hne, ?_, ?_⟩)⟩
  · simp [bracedPieces]
  · simp [bracedPieces]
  · simpa using hr
  · simpa using hn
  · intro hlast
    exact absurd (hink _ (List.getLast_mem hne)) (by rw [hlast]; decide)
  · rw [← List.cons_append, List.getLast?_append, List.getLast?_eq_some_getLast hne, Option.some_or]

/-- A name in front of the ellipsis of a list. -/
theorem ListSite.grafted_prepend {a q q' b : List Token} {opening z closing : Token}
    {ps qs rs zs : List Piece} (h : ListSite text a opening q z q' closing b ps qs rs zs)
    (hz : z.kind ≠ .text) (hname : isIdentifier name = true) :
    Grafted (textOf (bracedPieces (qs ++ Piece.token z.kind z.lexeme :: rs)))
      (textOf (bracedPieces (qs ++
        ([Piece.token .identifier name, .token .comma [','], .gap [' ']] ++
          Piece.token z.kind z.lexeme :: rs)))) := by
  have hmem : Piece.token z.kind z.lexeme ∈ listPieces ps qs z rs zs := by simp [listPieces]
  obtain ⟨d, hd, hhead⟩ := exists_head? h.pieces_eq hmem hz
  obtain ⟨hr, hn⟩ := not_mem_of_isIdentifier hname
  refine ⟨'{' :: textOf qs, name ++ [',', ' '], z.lexeme ++ (textOf rs ++ ['}']), ?_, ?_, ?_, ?_,
    .inr (.inr ⟨d, hd, hhead _⟩)⟩
  · simp [bracedPieces]
  · simp [bracedPieces]
  · simpa using hr
  · simpa using hn

/-- The list of a function that takes the name may have no entry; then the edit is refused. -/
theorem refuses_empty {l₀ r₀ : List Token} {opening closing : Token} {list : ParameterList}
    (hl₀ : ∃ t l₁, l₀ = t :: l₁) (hne : r₀ ≠ [])
    (hy : Derives (.bindings .braceClose) (l₀ ++ opening :: ([] ++ closing :: r₀)) [.keyValue o])
    (hall : pieces [] text = .ok all)
    (htokens : locate .start all = before ++ ((l₀ ++ opening :: ([] ++ closing :: r₀)) ++ behind))
    (hopening : opening.kind = .braceOpen) (hclosing : closing.kind = .braceClose)
    (hr₀ : headKind (r₀ ++ behind) = some .colon ∨ headKind (r₀ ++ behind) = some .atSign)
    (hlist : list = listBetween opening closing [] list.whole?) :
    ∃ ps xs zs, Stretch all before (l₀ ++ opening :: ([] ++ closing :: r₀)) behind ps xs zs
        (l₀ ++ [opening, closing]) r₀ ∧
      ∀ t, (insertParameter list name (textOf (ps ++ xs) ++ t)).result =
        .error (.emptyParameterList list.span) := by
  have hts : locate .start all = (before ++ l₀) ++ opening :: closing :: (r₀ ++ behind) := by
    rw [htokens]
    simp
  obtain ⟨ps, _, rfl, hps, hopen, hrest⟩ := Token.locate_eq_append hts
  obtain ⟨qs, zs, rfl, hqs, hclose, hzs⟩ := exists_gaps hrest
  have hlexeme : opening.lexeme = ['{'] := by
    rw [hopening] at hall
    exact lexeme_eq hall (List.mem_append_right _ List.mem_cons_self) rfl
  have hlexeme' : closing.lexeme = ['}'] := by
    have hmem :
        .token closing.kind closing.lexeme ∈ ps ++ Piece.token opening.kind opening.lexeme ::
        (qs ++ Piece.token closing.kind closing.lexeme :: zs) := by
      simp
    rw [hclosing] at hall hmem
    exact lexeme_eq hall hmem rfl
  rw [hopening, hclosing, hlexeme, hlexeme'] at hall
  have hkinds : kinds qs = [] := by
    rw [kinds, isGaps_iff.1 hqs]
    rfl
  have hhead : ∀ x, zs.head? ≠ some (.token .text x) := by
    intro x hx
    obtain ⟨zs', rfl⟩ := List.head?_eq_some_iff.1 hx
    rw [← hzs, locate] at hr₀
    simp at hr₀
  have hlistPieces := pieces_braces hall (by rw [hkinds]; exact .nil) hhead
  obtain ⟨c, -, hscan⟩ := scanFormals_braced hlistPieces
  have hspan : list.span = ⟨Position.start.after (textOf ps),
      (Position.start.after (textOf ps)).after (textOf (bracedPieces qs))⟩ := by
    rw [hlist]
    simp [listBetween, Span.join, hclose, hopen, hlexeme, hlexeme', bracedPieces]
  have hstop : Position.start.after (textOf (ps ++ bracedPieces qs)) = closing.span.stop := by
    simp [hclose, hopen, hlexeme, hlexeme', bracedPieces]
  obtain ⟨t, l₁, rfl⟩ := hl₀
  refine ⟨ps, bracedPieces qs, zs,
    .of_back ?_ (by simp) hne hy ⟨t, l₁, hps⟩ htokens (by rw [hstop, hzs]), fun t => ?_⟩
  · rw [hopening, hclosing, hlexeme, hlexeme']
    simp [bracedPieces]
  · have hresult := @result_insertParameter (textOf ps) (textOf (bracedPieces qs)) t name _ hspan
    rw [textOf_append, List.append_assoc, hresult, hscan, hlist]
    rfl

/-! ### A name in a parameter list -/

section
variable {list : ParameterList} {body : Expr} {l₀ q q' r₀ : List Token} {opening z closing : Token}
  {es : List (Option Parameter)} {ps qs rs zs : List Piece}

/-- A function with a name behind its last parameter. -/
theorem ListSite.grows_append {first p : List Token} {es₁ es₂ : List (Option Parameter)}
    {x : Parameter}
    (hsite : ListSite text (before ++ l₀) opening q z q' closing (r₀ ++ behind) ps qs rs zs)
    (hhole : FunctionHole o list body l₀ opening (q ++ z :: q') closing r₀ es)
    (hnode : o.value.node = .function (.destructured list) body)
    (haccepts : accepts list name = true) (hx : list.parameters.getLast? = some x)
    (hq : q = first ++ p) (hlast : LastParameter (q ++ z :: q') es x first (p ++ [z]) q' es₁ es₂)
    (hclean : IsClean text o → z.kind ≠ .uri) :
    Grows text name o before ps (bracedPieces (qs ++ Piece.token z.kind z.lexeme :: rs)) zs r₀ := by
  obtain ⟨hthreaded, hresult⟩ := threaded_of_accepts hnode haccepts
  have hname := isIdentifier_of_accepts haccepts
  have hresult' : ∀ t, (threadOutputs o name
      (textOf (ps ++ bracedPieces (qs ++ Piece.token z.kind z.lexeme :: rs)) ++ t)).result =
        .ok (textOf (ps ++ bracedPieces (qs ++ .token z.kind z.lexeme ::
          ([Piece.token .comma [','], .gap [' '], .token .identifier name] ++ rs))) ++ t) := by
    intro t
    rw [hresult, textOf_append, List.append_assoc,
      hsite.result_append_before name hq hlast hhole.entries (hhole.behind behind) hhole.span_eq hx
        t, textOf_append, List.append_assoc]
  have hgrafted := hsite.grafted_append (fun hz => hlast.last_kind (by simp [hz])) hname
  by_cases hz : z.kind = .uri
  · -- The comma becomes a part of the url, and the name an argument of it.
    obtain ⟨q₁, es', c, b', hrelists, -⟩ := hsite.relists_append hq hlast hz hname
    refine .inr ⟨bracedPieces (qs ++ Piece.token .uri (z.lexeme ++ [',']) ::
      ([Piece.gap [' '], .token .identifier name] ++ rs)), fun t => ?_,
      ⟨withList o _ body, _, ⟨rfl, fun h => absurd hz (hclean h)⟩,
        hrelists.threaded hhole hsite.bares_zs rfl⟩, ?_⟩
    · rw [hresult']
      simp [bracedPieces]
    · simpa [bracedPieces] using hgrafted
  · obtain ⟨q₁, es', c, b', hextends⟩ := hsite.extends_append hq hlast hz hname
    exact .inr ⟨_, hresult', ⟨withList o _ body, _, ⟨rfl, fun _ => hthreaded.symm⟩,
      hextends.threaded hhole hsite.bares_zs (hextends.shape_list hhole.list_eq)⟩, hgrafted⟩

/-- A function with a name in front of its ellipsis. -/
theorem ListSite.grows_prepend
    (hsite : ListSite text (before ++ l₀) opening [] z [] closing (r₀ ++ behind) ps qs rs zs)
    (hhole : FunctionHole o list body l₀ opening [z] closing r₀ [none])
    (hnode : o.value.node = .function (.destructured list) body)
    (haccepts : accepts list name = true) (hz : z.kind = .ellipsis) :
    Grows text name o before ps (bracedPieces (qs ++ Piece.token z.kind z.lexeme :: rs)) zs r₀ := by
  obtain ⟨hthreaded, hresult⟩ := threaded_of_accepts hnode haccepts
  have hname := isIdentifier_of_accepts haccepts
  obtain ⟨q₁, es', c, b', hextends⟩ := hsite.extends_prepend hz rfl rfl hname
  refine .inr ⟨_, fun t => ?_, ⟨withList o _ body, _, ⟨rfl, fun _ => hthreaded.symm⟩,
    hextends.threaded hhole hsite.bares_zs (hextends.shape_list hhole.list_eq)⟩,
    hsite.grafted_prepend (by simp [hz]) hname⟩
  rw [hresult, textOf_append, List.append_assoc,
    hsite.result_prepend_before name hz rfl rfl hhole.entries (hhole.behind behind) hhole.span_eq
      hhole.parameters_eq hhole.ellipsis_eq t, textOf_append, List.append_assoc]

end

theorem exists_grows_accepts {list : ParameterList} {body : Expr}
    (hall : pieces [] text = .ok all)
    (htokens : locate .start all = before ++ (y ++ behind))
    (hy : Derives (.bindings .braceClose) y [.keyValue o])
    (hnode : o.value.node = .function (.destructured list) body)
    (haccepts : accepts list name = true) :
    ∃ ps xs zs l r, Stretch all before y behind ps xs zs l r ∧
      Grows text name o before ps xs zs r := by
  obtain ⟨l₀, opening, q, closing, r₀, es, rfl, hhole⟩ := hy.function_hole hnode
  have hl₀ := exists_first hy hhole.opening_kind
  have hr₀ : r₀ ≠ [] := by
    rintro rfl
    simpa using hhole.behind []
  have hts : locate .start all =
      (before ++ l₀) ++ opening :: (q ++ closing :: (r₀ ++ behind)) := by
    rw [htokens]
    simp
  cases hx : list.parameters.getLast? with
  | some x =>
    obtain ⟨first, p, z, tail, es₁, es₂, ps, qs, rs, zs, rfl, hlast, hsite⟩ :=
      exists_lastSite hall hts hhole.entries hhole.opening_kind hhole.closing_kind
        (hhole.parameters_eq ▸ hx)
    refine ⟨ps, _, zs, _, r₀, hsite.stretch hl₀ hr₀ hy hall htokens,
      hsite.grows_append hhole hnode haccepts hx rfl hlast fun hclean hz => ?_⟩
    have hends := hclean list (by simp only [Binding.head?, hnode])
    rw [endsInUri_eq hall hts hhole.opening_kind hhole.closing_kind
      (by rw [hhole.span_eq, Span.join]), uriFirst_last hlast, hz] at hends
    exact Bool.noConfusion hends
  | none =>
    have hnil := List.getLast?_eq_none_iff.1 hx
    cases hellipsis : list.ellipsis with
    | true =>
      obtain ⟨z, rfl, hz, rfl⟩ := hhole.entries.sole_ellipsis (hhole.parameters_eq ▸ hnil)
        (hhole.ellipsis_eq ▸ hellipsis)
      have hts' : locate .start all =
          (before ++ l₀) ++ opening :: (([] ++ z :: []) ++ closing :: (r₀ ++ behind)) := hts
      obtain ⟨ps, qs, rs, zs, hsite⟩ :=
        exists_listSite hall hts' hhole.opening_kind hhole.closing_kind
      exact ⟨ps, _, zs, _, r₀, hsite.stretch hl₀ hr₀ hy hall htokens,
        hsite.grows_prepend hhole hnode haccepts hz⟩
    | false =>
      obtain ⟨rfl, rfl⟩ := hhole.eq_nil hnil hellipsis
      obtain ⟨ps, xs, zs, hstretch, herror⟩ :=
        refuses_empty hl₀ hr₀ hy hall htokens hhole.opening_kind hhole.closing_kind
          (hhole.behind behind) hhole.list_eq
      exact ⟨ps, xs, zs, _, r₀, hstretch,
        .inl ⟨_, rfl, fun t => by rw [(threaded_of_accepts hnode haccepts).2, herror]⟩⟩

/-- Threading a name into a binding is refused, or changes a stretch of the binding's pieces. -/
theorem exists_grows (name : Text) (hall : pieces [] text = .ok all)
    (htokens : locate .start all = before ++ (y ++ behind))
    (hy : Derives (.bindings .braceClose) y [.keyValue o]) :
    ∃ ps xs zs l r, Stretch all before y behind ps xs zs l r ∧
      Grows text name o before ps xs zs r := by
  by_cases hfunction : ∃ head body, o.value.node = .function head body
  · obtain ⟨head, body, hnode⟩ := hfunction
    cases head with
    | simple span x =>
      exact exists_grows_same hall htokens hy (by simp only [threaded, hnode])
        fun t => by simp only [threadOutputs, hnode]; rfl
    | destructured list =>
      cases haccepts : accepts list name with
      | true => exact exists_grows_accepts hall htokens hy hnode haccepts
      | false =>
        refine exists_grows_same hall htokens hy ?_ fun t => ?_
        · simp only [threaded, hnode, haccepts]
          rfl
        · simp only [threadOutputs, hnode, result_addParameter_of_not haccepts]
  · obtain ⟨ps, zs, t, r, hstretch, -⟩ := exists_stretch hall htokens hy
    refine ⟨ps, [], zs, [t], r, hstretch, .inl
      ⟨.unsupportedExpression (some .outputs) o.value.node.kind o.value.span, rfl, fun t => ?_⟩⟩
    unfold threadOutputs
    split
    · next list body hnode => exact absurd ⟨_, body, hnode⟩ hfunction
    · next span x body hnode => exact absurd ⟨_, body, hnode⟩ hfunction
    · rfl

end

end Edit
end FlakeInputs
