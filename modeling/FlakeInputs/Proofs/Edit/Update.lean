import FlakeInputs.Edit.Upsert
import FlakeInputs.Proofs.Manifest.Cuts
import FlakeInputs.Proofs.Token.Exchange
import FlakeInputs.Proofs.Token.Spelling

/-!
# Replacing the value of a binding

A literal that is the value of a binding is replaced in the text, between a barrier and
what follows the literal.  The text that results spells the same manifest with the new
literal.
-/

namespace FlakeInputs
namespace Edit

open Grammar Scan
open Token (locate)
open Lookup (Exchanges found)

/-! ## The tokens of a value -/

/-- A manifest `T'` that is the manifest `T` with `b'` in the place of `b`, the first binding
that a path leads to, apart from spans.  Both bindings have the same key. -/
structure Becomes (path : List Text) (T : Expr) (b : KeyValue) (T' : Expr) (b' : KeyValue) :
    Prop where
  finds : T'.findFirst (some path) = .ok (some b')
  keys : b'.path.map Key.shape = b.path.map Key.shape
  exchanges : ∃ T₁, Exchanges b b' path T T₁ ∧ T'.shape = T₁.shape

/-- Whatever a search finds that sets out along another path than the given one, it finds among
bindings of `T` that have only moved in `T'`. -/
def Keeps (path : List Text) (T T' : Expr) (ts ts' : List Token) : Prop :=
  ∃ bs bs', List.Forall₂ (Kin ts ts') bs bs' ∧ ∀ segment rest, path.head? ≠ some segment →
    T.findFirst (some (segment :: rest)) = bs.findSomeM? (found (some (segment :: rest))) ∧
    T'.findFirst (some (segment :: rest)) = bs'.findSomeM? (found (some (segment :: rest)))

/-- The same of two manifests by the texts that spell them. -/
def Spares (path : List Text) (text out : Text) (T T' : Expr) : Prop :=
  ∃ ps ps', Scan.pieces [] text = .ok ps ∧ Scan.pieces [] out = .ok ps' ∧
    Keeps path T T' (locate .start ps) (locate .start ps')

/-- A search along another path does not see an exchange in one of the bindings. -/
theorem found_exchanged_apart {path rest : List Text} {segment : Text} {b b' c : KeyValue}
    {span : Span} {recursive : Bool} {bs₁ bs' : List Binding}
    (hc : found (some path) (.keyValue c) = .ok (some b)) (hpath : path.head? ≠ some segment)
    (h : Exchanges b b' path ⟨span, .map [.keyValue c] recursive⟩ ⟨span, .map bs₁ recursive⟩)
    (hnames : b'.names = b.names) (hshapes : bs'.map Binding.shape = bs₁.map Binding.shape) :
    found (some (segment :: rest)) (.keyValue c) = .ok none ∧
      ∀ x ∈ bs', found (some (segment :: rest)) x = .ok none := by
  cases path with
  | nil =>
    rw [Lookup.found_of_apart (by cases c.names <;> rfl)] at hc
    simp at hc
  | cons first path =>
    have hne : first ≠ segment := fun heq => hpath (by rw [heq]; rfl)
    have hapart : found (some (segment :: rest)) (.keyValue c) = .ok none := by
      refine Lookup.found_of_apart (Lookup.compare_apart_of_ne (s := path) hne ?_ rest)
      intro hapart
      rw [Lookup.found_of_apart hapart] at hc
      simp at hc
    refine ⟨hapart, Lookup.found_eq_none_of_shape hshapes (Lookup.findSomeM?_eq_none.1 ?_)⟩
    have hparts : Lookup.Parts (first :: path) (segment :: rest) := .here hne
    have hsame := h.findFirst_of_parts hnames hparts
    rw [Lookup.findFirst_map rfl, Lookup.findFirst_map rfl, Lookup.findSomeM?_cons_of_none hapart]
      at hsame
    exact hsame

theorem value_site {ts : List Token} {T : Expr} {path : List Text} {b : KeyValue}
    (hT : Derives .expr ts T) (hfind : T.findFirst (some path) = .ok (some b))
    (hsimple : isSimple b.value.node = true) :
    ∃ a bar x rest, ts = a ++ bar :: (x ++ rest) ∧ (bar.kind = .assign ∨ bar.kind = .parenOpen) ∧
      Derives .simple x b.value ∧ headKind x ≠ some .parenOpen ∧
      ∀ {x' rest' : List Token} {value : Expr}, Alike rest rest' → Derives .simple x' value →
        ∃ T' b', Derives .expr (a ++ bar :: (x' ++ rest')) T' ∧ Becomes path T b T' b' ∧
          b'.value = value ∧ Keeps path T T' ts (a ++ bar :: (x' ++ rest')) := by
  obtain ⟨bs, recursive, hnode⟩ := Lookup.exists_map_of_findFirst hfind
  rw [Lookup.findFirst_map hnode] at hfind
  obtain ⟨before, y, behind, rfl, hbefore, hy⟩ := Lookup.findSomeM?_eq_some.1 hfind
  obtain ⟨c, rfl⟩ : ∃ c, y = .keyValue c := by
    cases y with
    | inherited span names source? => simp [found] at hy
    | keyValue c => exact ⟨c, rfl⟩
  -- The binding at the top level in which the search ends is cut out.
  have hsplit : T.node = .map (before ++ ([Binding.keyValue c] ++ behind)) recursive := hnode
  obtain ⟨a, m, z, rfl, hm, hcut⟩ := hT.cut hsplit
  obtain ⟨l, k, r, rfl, hk, hholds⟩ := hm.bindings_first (Lookup.findSomeM?_cons_of_some hy)
  obtain ⟨lk, assign, v, semicolon, rfl, hv, hassigns⟩ := hk.assigns
  obtain ⟨lp, x, rp, rfl, hencloses, hx, hhead⟩ := hv.enclosed_simple hsimple
  obtain ⟨init, bar, hbar, hkind⟩ : ∃ init bar, assign :: lp = init ++ [bar] ∧
      (bar.kind = .assign ∨ bar.kind = .parenOpen) := by
    rcases List.eq_nil_or_concat lp with rfl | ⟨init, bar, rfl⟩
    · exact ⟨[], assign, rfl, .inl hassigns.assign_kind⟩
    · exact ⟨assign :: init, bar, by simp, .inr (hencloses.opening bar (by simp))⟩
  have hcons : ∀ z, assign :: (lp ++ z) = init ++ bar :: z := by
    intro z
    rw [← List.cons_append, hbar, List.append_assoc, List.singleton_append]
  refine ⟨a ++ (l ++ (lk ++ init)), bar, x, rp ++ ([semicolon] ++ (r ++ z)), ?_, hkind, hx,
    hhead, ?_⟩
  · simp [hcons]
  · intro x' rest' value hrest hx'
    obtain ⟨rp', _, rfl, hrp', hrest⟩ := hrest.exists_append
    obtain ⟨s', _, rfl, hs', hrest⟩ := hrest.exists_append
    obtain ⟨r', z', rfl, hr', hz'⟩ := hrest.exists_append
    have hv' := hencloses.derives (.refl lp) hrp' hx'.expr_of_simple
    obtain ⟨b', hb', hpath, hvalue⟩ := hassigns.derives (.refl _) hs' hv'
    have hnames := KeyValue.names_eq_of_shape hpath
    obtain ⟨mid, bs₁, hmid, hfirst, hshapes, hexchanges⟩ := hholds (.refl l) hr' hb' hnames
    obtain ⟨span, behind', hT', hkin⟩ := hcut.derives hz' hmid
    refine ⟨⟨span, .map (before ++ (mid ++ behind')) recursive⟩, b', ?_,
      ⟨?_, hpath, ⟨T.span, .map (before ++ (bs₁ ++ behind)) recursive⟩, ?_, ?_⟩, hvalue,
      before ++ behind, before ++ behind', ?_, ?_⟩
    · simpa [hcons] using hT'
    · rw [Lookup.findFirst_map rfl, Lookup.findSomeM?_append_of_none hbefore,
        Lookup.findSomeM?_append_of_some hfirst]
    · have hinner := (hexchanges T.span recursive).among hbefore behind
      rwa [← hsplit, ← Expr.eta] at hinner
    · simp [Expr.shape, Node.shape, hshapes, shapes_of_kin hkin]
    · simpa [hcons] using hcut.kin hkin
        (l ++ (lk ++ assign :: (lp ++ (x ++ rp)) ++ [semicolon] ++ r))
        (l ++ (lk ++ assign :: (lp ++ (x' ++ rp')) ++ s' ++ r'))
    · intro segment rest hsegment
      obtain ⟨hold, hnew⟩ :=
        @found_exchanged_apart path rest segment b b' c T.span recursive bs₁ mid
        hy hsegment (hexchanges T.span recursive) hnames hshapes
      rw [Lookup.findFirst_map hnode, Lookup.findFirst_map rfl]
      exact ⟨Lookup.findSomeM?_append_congr (Lookup.findSomeM?_cons_of_none hold),
        Lookup.findSomeM?_append_congr (Lookup.findSomeM?_append_of_none hnew)⟩

/-! ## The pieces of a value -/

theorem derives_sole_literal {delimiter : TokenKind} {expected : Expected}
    {opening t closing : Token} (hopening : opening.kind = delimiter) (ht : t.kind = .text)
    (hclosing : closing.kind = delimiter) :
    Derives (.literal delimiter expected) [opening, t, closing]
      (opening.span.join closing.span, [.text t.span t.lexeme]) := by
  have hliteral : Derives (.literal delimiter expected) (opening :: ([t] ++ [closing]))
      (opening.span.join closing.span, Part.compact [.text t.span t.lexeme]) :=
    .literal hopening (.textPart ht .noPart) hclosing
  rwa [Part.compact_singleton] at hliteral

/-- The two ways to write a string. -/
inductive Style
  | quoted
  | indented

namespace Style

/-- The kind of the token at either end of a string. -/
def delimiter : Style → TokenKind
  | quoted => .quote
  | indented => .indentQuote

/-- How the ends of a string are written. -/
def mark (style : Style) : Text :=
  style.delimiter.name.toList

/-- The node of a string of the given parts. -/
def node : Style → List Part → Node
  | quoted => .string
  | indented => .indentedString

/-- A text as it is written in a string. -/
def escape : Style → Text → Text
  | quoted => Edit.escape
  | indented => escapeIndented

/-- The pieces of a string without interpolations. -/
def pieces (style : Style) (x : Text) : List Piece :=
  [.token style.delimiter style.mark, .token .text x, .token style.delimiter style.mark]

theorem neutral_pieces (style : Style) (x : Text) : Neutral (style.pieces x) := by
  cases style with
  | quoted => exact neutral_quoted x
  | indented => exact neutral_indented x

/-- Any url can be written between double quotes, and one without quotes of its own between
two single quotes. -/
theorem fits_pieces (style : Style) {url r : Text} (hurl : style = .indented → '\x27' ∉ url)
    (hr : style = .indented → Literal.escapesQuotes r.head? = false) :
    Fits (style.pieces (style.escape url)) r := by
  cases style with
  | quoted => exact fits_quoted url r
  | indented => exact fits_indented (Literal.quotesApart_of_not_mem (hurl rfl)) (hr rfl)

theorem getLast?_pieces_ne (style : Style) (x y : Text) :
    (style.pieces x).getLast? ≠ some (.token .text y) := by
  cases style <;> simp [pieces, delimiter]

theorem exists_head?_pieces (style : Style) : ∃ d, d ≠ '\n' ∧ d ≠ '=' ∧
    ∀ x r, (textOf (style.pieces x) ++ r).head? = some d := by
  cases style with
  | quoted => exact ⟨'"', by decide, by decide, fun _ _ => rfl⟩
  | indented => exact ⟨'\x27', by decide, by decide, fun _ _ => rfl⟩

theorem derives_pieces (style : Style) (p : Position) (x : Text) :
    Derives .simple (locate p (style.pieces x))
      ⟨⟨p, ((p.after style.mark).after x).after style.mark⟩,
        style.node [.text ⟨p.after style.mark, (p.after style.mark).after x⟩ x]⟩ := by
  cases style with
  | quoted => exact .string (derives_sole_literal rfl rfl rfl)
  | indented => exact .indentedString (derives_sole_literal rfl rfl rfl)

end Style

theorem exists_gaps {p : Position} {ps : List Piece} {t : Token} {rest : List Token}
    (h : locate p ps = t :: rest) :
    ∃ gs qs, ps = gs ++ Piece.token t.kind t.lexeme :: qs ∧ IsGaps gs ∧
      t.span = ⟨p.after (textOf gs), (p.after (textOf gs)).after t.lexeme⟩ ∧
      locate t.span.stop qs = rest := by
  obtain ⟨gs, qs, rfl, hgs, hspan, hqs⟩ := Token.locate_eq_append (a := []) h
  exact ⟨gs, qs, rfl, Token.isGaps_of_locate hgs, hspan, hqs⟩

/-- The pieces of string text and of what ends it. -/
theorem exists_text {text : Text} {ps qs : List Piece} {p : Position} {t : Token}
    {rest : List Token} (h : Scan.pieces [] text = .ok (ps ++ qs)) (hqs : locate p qs = t :: rest)
    (ht : t.kind = .text) :
    ∃ kind qs', qs = .token .text t.lexeme :: .token kind kind.name.toList :: qs' ∧
      kind ∈ [.quote, .indentQuote, .interpolation] ∧
      (kind = .indentQuote → Literal.escapesQuotes (textOf qs').head? = false) ∧
      t.span = ⟨p, p.after t.lexeme⟩ ∧
      rest = ⟨kind, kind.name.toList, t.span.stop, t.span.stop.after kind.name.toList⟩ ::
        locate (t.span.stop.after kind.name.toList) qs' := by
  obtain ⟨gs, qs', rfl, hgs, hspan, rfl⟩ := exists_gaps hqs
  rw [ht] at h
  -- A gap in front of string text would have been read as text.
  rcases List.eq_nil_or_concat gs with rfl | ⟨gs', g, rfl⟩
  · obtain ⟨kind, rest, rfl, hkind, hescape⟩ := exists_closer h
    exact ⟨kind, rest, by simp [ht], hkind, hescape, hspan, rfl⟩
  · obtain ⟨x, rfl⟩ := hgs g (by simp)
    have hgap : Scan.pieces [] text =
        .ok ((ps ++ gs') ++ Piece.gap x :: .token .text t.lexeme :: qs') := by simpa using h
    exact absurd hgap gap_ne_before_text

/-- The pieces around the value of a binding. -/
theorem exists_value_site {text : Text} {T : Expr} {path : List Text} {b : KeyValue}
    (hparse : Expr.parse text = .ok T) (hfind : T.findFirst (some path) = .ok (some b))
    (hsimple : isSimple b.value.node = true) :
    ∃ ps kind c gs t qs ts rest,
      Scan.pieces [] text =
        .ok (ps ++ Piece.token kind [c] :: (gs ++ Piece.token t.kind t.lexeme :: qs)) ∧
      (kind, c) ∈ barriers ∧ IsGaps gs ∧ Derives .simple (t :: ts) b.value ∧
      t.kind ≠ .parenOpen ∧
      t.span.start = Position.start.after (textOf (ps ++ Piece.token kind [c] :: gs)) ∧
      t.span.stop = t.span.start.after t.lexeme ∧ locate t.span.stop qs = ts ++ rest ∧
      ∀ {ys qs' : List Piece} {value : Expr}, bares qs' = rest.map Token.bare →
        Derives .simple (locate t.span.start ys) value →
        ∃ T' b',
          Derives .expr (locate .start (ps ++ Piece.token kind [c] :: (gs ++ (ys ++ qs')))) T' ∧
          Becomes path T b T' b' ∧ b'.value = value ∧
          Keeps path T T'
            (locate .start (ps ++
              Piece.token kind [c] :: (gs ++ Piece.token t.kind t.lexeme :: qs)))
            (locate .start (ps ++ Piece.token kind [c] :: (gs ++ (ys ++ qs')))) := by
  obtain ⟨all, hall, hT⟩ := Expr.parse_eq_ok.1 hparse
  obtain ⟨a, bar, x, rest, hts, hkind, hx, hhead, hframe⟩ := value_site hT hfind hsimple
  obtain ⟨t, ts, rfl⟩ : ∃ t ts, x = t :: ts := by
    cases x with
    | nil => exact Bool.noConfusion hx.begins
    | cons t ts => exact ⟨t, ts, rfl⟩
  obtain ⟨ps, rs, rfl, hps, hspan, hrs⟩ := Token.locate_eq_append hts
  obtain ⟨gs, qs, rfl, hgs, htspan, hqs⟩ := exists_gaps hrs
  obtain ⟨c, hc, hbarrier⟩ : ∃ c, bar.lexeme = [c] ∧ (bar.kind, c) ∈ barriers := by
    have hmem : Piece.token bar.kind bar.lexeme ∈
        ps ++ Piece.token bar.kind bar.lexeme ::
          (gs ++ Piece.token t.kind t.lexeme :: qs) := by simp
    rcases hkind with hkind | hkind
    · exact ⟨'=', (lexeme_eq hall hmem (by rw [hkind]; rfl)).trans (by rw [hkind]; rfl),
        by rw [hkind]; decide⟩
    · exact ⟨'(', (lexeme_eq hall hmem (by rw [hkind]; rfl)).trans (by rw [hkind]; rfl),
        by rw [hkind]; decide⟩
  have hbar : bar = ⟨bar.kind, [c], bar.span⟩ := by
    rw [← hc]
  rw [hc] at hall hspan
  refine ⟨ps, bar.kind, c, gs, t, qs, ts, rest, hall, hbarrier, hgs, hx, ?_, ?_, ?_, hqs, ?_⟩
  · intro heq
    exact hhead (by rw [headKind_cons, heq])
  · rw [htspan, hspan]
    simp
  · rw [htspan]
  · intro ys qs' value hqs' hvalue
    have hstart : t.span.start = (bar.span.stop).after (textOf gs) := by rw [htspan]
    have hrest : Alike rest (locate (t.span.start.after (textOf ys)) qs') := by
      rw [Alike, Token.map_bare_locate, hqs']
    obtain ⟨T', b', hT', hbecomes, hvalue', hkeeps⟩ := hframe hrest hvalue
    have htokens : locate .start (ps ++ Piece.token bar.kind [c] :: (gs ++ (ys ++ qs'))) =
        a ++ bar :: (locate t.span.start ys ++ locate (t.span.start.after (textOf ys)) qs') := by
      rw [Token.locate_append, hps, locate, Token.locate_append, Token.locate_gaps hgs,
        List.nil_append, Token.locate_append]
      rw [hspan] at hbar hstart
      rw [← hbar, ← hstart]
    rw [hc] at hkeeps
    rw [← htokens] at hT' hkeeps
    exact ⟨T', b', hT', hbecomes, hvalue', hkeeps⟩

/-- The tokens of a string without interpolations. -/
theorem Style.exists_literal {style : Style} {t : Token} {ts : List Token} {e : Expr}
    {span : Span} {x : Text} (h : Derives .simple (t :: ts) e) (hhead : t.kind ≠ .parenOpen)
    (hnode : e.node = style.node [.text span x]) :
    ∃ expected, Derives (.literal style.delimiter expected) (t :: ts) (e.span, [.text span x]) := by
  obtain ⟨espan, node⟩ := e
  cases style with
  | quoted =>
    obtain rfl : node = .string [.text span x] := hnode
    generalize hp : t :: ts = p at h
    cases h with
    | string h => exact ⟨_, h⟩
    | parenthesised hopening =>
      obtain ⟨rfl, -⟩ := List.cons.inj hp
      exact absurd hopening hhead
  | indented =>
    obtain rfl : node = .indentedString [.text span x] := hnode
    generalize hp : t :: ts = p at h
    cases h with
    | indentedString h => exact ⟨_, h⟩
    | parenthesised hopening =>
      obtain ⟨rfl, -⟩ := List.cons.inj hp
      exact absurd hopening hhead

/-- The pieces of a string without interpolations, when its first token is among those of a
text. -/
theorem Style.exists_pieces {style : Style} {text : Text} {ps qs : List Piece} {t : Token}
    {ts rest : List Token} {e : Expr} {span : Span} {x : Text}
    (hall : Scan.pieces [] text = .ok (ps ++ Piece.token t.kind t.lexeme :: qs))
    (hx : Derives .simple (t :: ts) e) (hhead : t.kind ≠ .parenOpen)
    (hnode : e.node = style.node [.text span x]) (hqs : locate t.span.stop qs = ts ++ rest) :
    ∃ qs', .token t.kind t.lexeme :: qs = style.pieces x ++ qs' ∧
      span = ⟨t.span.stop, t.span.stop.after x⟩ ∧
      (style = .indented → Literal.escapesQuotes (textOf qs').head? = false) ∧
      bares qs' = rest.map Token.bare := by
  obtain ⟨expected, hliteral⟩ := Style.exists_literal hx hhead hnode
  obtain ⟨opening, t₁, ts₁, closing, heq, hopening, hclosing, htexts, hsole⟩ :=
    hliteral.literal_text
  obtain ⟨rfl, rfl⟩ := List.cons.inj heq
  have hsplit : Scan.pieces [] text = .ok ((ps ++ [Piece.token t.kind t.lexeme]) ++ qs) := by
    rw [hall]
    simp
  obtain ⟨kind', qs', rfl, hkind', hescape, ht₁, hrest⟩ := exists_text hsplit
    (by rw [hqs]; rfl) (htexts t₁ List.mem_cons_self)
  obtain ⟨rfl, hclose, rfl⟩ : ts₁ = [] ∧ kind' = closing.kind ∧ rest = locate _ qs' := by
    cases ts₁ with
    | nil =>
      obtain ⟨rfl, rfl⟩ := List.cons.inj hrest
      exact ⟨rfl, rfl, rfl⟩
    | cons u ts₁ =>
      obtain ⟨rfl, -⟩ := List.cons.inj hrest
      obtain rfl : kind' = .text := htexts _ (List.mem_cons_of_mem _ List.mem_cons_self)
      exact absurd hkind' (by decide)
  obtain ⟨rfl, rfl⟩ := hsole rfl
  obtain rfl : kind' = style.delimiter := hclose.trans hclosing
  have hmark : t.lexeme = style.mark := by
    rw [hopening] at hall
    exact lexeme_eq hall (by simp) (by cases style <;> rfl)
  refine ⟨qs', ?_, ht₁, ?_, by rw [Token.map_bare_locate]⟩
  · rw [hopening, hmark]
    rfl
  · rintro rfl
    exact hescape rfl

/-- A string without interpolations that is the value of a binding stands in the text with its
delimiters around it, and any other url can stand there. -/
theorem exists_literal_site {text : Text} {T : Expr} {path : List Text} {b : KeyValue}
    {style : Style} {span : Span} {x : Text} (hparse : Expr.parse text = .ok T)
    (hfind : T.findFirst (some path) = .ok (some b))
    (hnode : b.value.node = style.node [.text span x]) :
    ∃ p q, text = p ++ (x ++ q) ∧
      span = ⟨Position.start.after p, (Position.start.after p).after x⟩ ∧
      ∀ url, (style = .indented → '\x27' ∉ url) →
        ∃ T' b', Expr.parse (p ++ (style.escape url ++ q)) = .ok T' ∧ Becomes path T b T' b' ∧
          Spares path text (p ++ (style.escape url ++ q)) T T' ∧
          b'.value.node = style.node [.text ⟨Position.start.after p,
            (Position.start.after p).after (style.escape url)⟩ (style.escape url)] := by
  obtain ⟨ps, kind, c, gs, t, qs, ts, rest, hall, hbarrier, hgs, hx, hhead, hstart, hstop, hqs,
    hframe⟩ := exists_value_site hparse hfind (by rw [hnode]; cases style <;> rfl)
  have hsplit : Scan.pieces [] text =
      .ok ((ps ++ Piece.token kind [c] :: gs) ++ Piece.token t.kind t.lexeme :: qs) := by
    rw [hall]
    simp
  obtain ⟨qs', hpieces, hspan, hr, hrest⟩ := Style.exists_pieces hsplit hx hhead hnode hqs
  have hmark : t.lexeme = style.mark := (Piece.token.inj (List.cons.inj hpieces).1).2
  have hall' : Scan.pieces [] text =
      .ok (ps ++ Piece.token kind [c] :: (gs ++ (style.pieces x ++ qs'))) := by
    rw [hall, hpieces]
  have hafter : Position.start.after (textOf (ps ++ Piece.token kind [c] :: gs) ++ style.mark) =
      t.span.start.after style.mark := by
    rw [Position.after_append, hstart]
  refine ⟨textOf (ps ++ Piece.token kind [c] :: gs) ++ style.mark, style.mark ++ textOf qs',
    ?_, ?_, ?_⟩
  · rw [← textOf_pieces hall']
    simp [Style.pieces]
  · rw [hafter, hspan, hstop, hmark]
  · intro url hurl
    obtain ⟨d, hd, hassign, hhead⟩ := style.exists_head?_pieces
    have hnew := pieces_exchange hall' hbarrier hgs (style.neutral_pieces _)
      (style.getLast?_pieces_ne _) (style.fits_pieces hurl hr)
      (fun g _ hold => hold.anywhere (hhead _ _) hd _)
      (head?_gaps_ne hall hgs (fun g hg => by simp [hg]) (by simpa [hhead] using hassign))
    obtain ⟨T', b', hT', hbecomes, hvalue, hkeeps⟩ := hframe hrest
      (style.derives_pieces t.span.start (style.escape url))
    have hout : Scan.pieces [] (textOf (ps ++ Piece.token kind [c] :: gs) ++ style.mark ++
        (style.escape url ++ (style.mark ++ textOf qs'))) =
          .ok (ps ++ Piece.token kind [c] :: (gs ++ (style.pieces (style.escape url) ++ qs'))) := by
      rw [← hnew]
      simp [Style.pieces]
    exact ⟨T', b', Expr.parse_eq_ok.2 ⟨_, hout, hT'⟩, hbecomes, ⟨_, _, hall, hout, hkeeps⟩,
      by rw [hafter, hvalue]⟩

theorem uri_of_simple {t : Token} {ts : List Token} {e : Expr} {x : Text}
    (h : Derives .simple (t :: ts) e) (hhead : t.kind ≠ .parenOpen) (hnode : e.node = .uri x) :
    t.kind = .uri ∧ x = t.lexeme ∧ ts = [] ∧ e.span = t.span := by
  obtain ⟨espan, node⟩ := e
  obtain rfl : node = .uri x := hnode
  generalize hp : t :: ts = p at h
  cases h with
  | uri h =>
    obtain ⟨rfl, rfl⟩ := List.cons.inj hp
    exact ⟨h, rfl, rfl, rfl⟩
  | parenthesised hopening =>
    obtain ⟨rfl, -⟩ := List.cons.inj hp
    exact absurd hopening hhead

/-- A url literal that is the value of a binding can be replaced by a string. -/
theorem exists_uri_site {text : Text} {T : Expr} {path : List Text} {b : KeyValue} {x : Text}
    (hparse : Expr.parse text = .ok T) (hfind : T.findFirst (some path) = .ok (some b))
    (hnode : b.value.node = .uri x) :
    ∃ p q, text = p ++ (x ++ q) ∧
      b.value.span = ⟨Position.start.after p, (Position.start.after p).after x⟩ ∧
      ∀ url, ∃ T' b', Expr.parse (p ++ (stringLiteral url ++ q)) = .ok T' ∧
        Becomes path T b T' b' ∧ Spares path text (p ++ (stringLiteral url ++ q)) T T' ∧
        b'.value.node = .string [.text ⟨Position.start.after (p ++ ['"']),
          (Position.start.after (p ++ ['"'])).after (escape url)⟩ (escape url)] := by
  obtain ⟨ps, kind, c, gs, t, qs, ts, rest, hall, hbarrier, hgs, hx, hhead, hstart, hstop, hqs,
    hframe⟩ := exists_value_site hparse hfind (by rw [hnode]; rfl)
  obtain ⟨hkind, rfl, rfl, hspan⟩ := uri_of_simple hx hhead hnode
  rw [hkind] at hall
  obtain ⟨d, hd, hfirst⟩ := exists_head? hall (List.mem_append_right _ (List.mem_cons_of_mem _
    (List.mem_append_right _ List.mem_cons_self))) (by simp)
  refine ⟨textOf (ps ++ Piece.token kind [c] :: gs), textOf qs, ?_, ?_, ?_⟩
  · rw [← textOf_pieces hall]
    simp
  · rw [hspan, ← hstart, ← hstop]
  · intro url
    have hall' : Scan.pieces [] text =
        .ok (ps ++ Piece.token kind [c] :: (gs ++ ([Piece.token .uri t.lexeme] ++ qs))) := hall
    obtain ⟨d', -, hassign, hnext⟩ := Style.quoted.exists_head?_pieces
    have hfits : Fits (Style.quoted.pieces (escape url)) (textOf qs) := fits_quoted url _
    have hnew := pieces_exchange hall' hbarrier hgs (neutral_uri _) (by simp) hfits
      (fun g _ hold => hold.anywhere (by simpa using hfirst _) hd _)
      (head?_gaps_ne hall hgs (fun g hg => by simp [hg])
        (fun h => hassign (Option.some.inj ((hnext _ _).symm.trans h))))
    obtain ⟨T', b', hT', hbecomes, hvalue, hkeeps⟩ :=
      hframe (by rw [← Token.map_bare_locate, hqs]; rfl)
        (Style.quoted.derives_pieces t.span.start (escape url))
    have hout : Scan.pieces []
        (textOf (ps ++ Piece.token kind [c] :: gs) ++ (stringLiteral url ++ textOf qs)) =
          .ok (ps ++ Piece.token kind [c] :: (gs ++ (Style.quoted.pieces (escape url) ++ qs))) := by
      rw [← hnew]
      simp [stringLiteral, Style.pieces, Style.mark, Style.delimiter, TokenKind.name]
    rw [hkind] at hkeeps
    refine ⟨T', b', Expr.parse_eq_ok.2 ⟨_, hout, hT'⟩, hbecomes, ⟨_, _, hall, hout, hkeeps⟩, ?_⟩
    rw [Position.after_append, ← hstart, hvalue]
    rfl

/-! ## Updates -/

/-- How an update rewrites a value: the span that it replaces, what it writes there, and the
literal that the value becomes.  The url of an indented string must not have quotes in it. -/
inductive Rewrites (url : Text) : Expr → Span → Text → Node → Prop
  | uri {span : Span} {x : Text} :
      Rewrites url ⟨span, .uri x⟩ span (stringLiteral url) (.string [.text .blank (escape url)])
  | string {span part : Span} {x : Text} :
      Rewrites url ⟨span, .string [.text part x]⟩ part (escape url)
        (.string [.text .blank (escape url)])
  | indentedString {span part : Span} {x : Text} (hurl : '\x27' ∉ url) :
      Rewrites url ⟨span, .indentedString [.text part x]⟩ part (escapeIndented url)
        (.indentedString [.text .blank (escapeIndented url)])

theorem Rewrites.shape_node {url replacement : Text} {value : Expr} {part : Span} {node : Node}
    (h : Rewrites url value part replacement node) : node.shape = node := by
  cases h <;> rfl

theorem replace_append (p x q replacement : Text) :
    replaceValue.replace (p ++ (x ++ q)) ⟨Position.start.after p, (Position.start.after p).after x⟩
      replacement = .ok (p ++ (replacement ++ q)) := by
  have hsplice := splice_append p x q replacement
  simp only [replaceValue.replace, offsetsOf_after]
  exact hsplice

/-- The text `x` of the literal that is a value, where it stands behind the text `u`. -/
def IsLiteral (value : Expr) (u x : Text) : Prop :=
  (value.node = .uri x ∧
      value.span = ⟨Position.start.after u, (Position.start.after u).after x⟩) ∨
    ∃ style, value.node = Style.node style
      [.text ⟨Position.start.after u, (Position.start.after u).after x⟩ x]

/-- Which values are replaced. -/
theorem exists_literal_of_replaceValue {value : Expr} {url text out : Text}
    (h : replaceValue value url text = .ok out) :
    (∃ x, value.node = .uri x) ∨ ∃ style span x, value.node = Style.node style [.text span x] := by
  unfold replaceValue at h
  split at h
  · next span x hnode => exact .inr ⟨.quoted, span, x, hnode⟩
  · next span x hnode => exact .inr ⟨.indented, span, x, hnode⟩
  · simp at h
  · simp at h
  · next x hnode => exact .inl ⟨x, hnode⟩
  · simp at h

theorem replaceValue_literal {value : Expr} {style : Style} {span : Span} {x : Text}
    (hnode : value.node = style.node [.text span x]) (url text : Text) :
    replaceValue value url text = replaceValue.replace text span (style.escape url) := by
  cases style with
  | quoted => simp only [replaceValue, hnode, Style.node, Style.escape]
  | indented => simp only [replaceValue, hnode, Style.node, Style.escape]

/-- An update writes the new literal in the place of the old one. -/
theorem Rewrites.site {text url replacement : Text} {T : Expr} {path : List Text} {b : KeyValue}
    {part : Span} {node : Node} (hrewrites : Rewrites url b.value part replacement node)
    (hparse : Expr.parse text = .ok T) (hfind : T.findFirst (some path) = .ok (some b)) :
    ∃ p x q T' b', text = p ++ (x ++ q) ∧
      part = ⟨Position.start.after p, (Position.start.after p).after x⟩ ∧
      replaceValue b.value url text = .ok (p ++ (replacement ++ q)) ∧
      Expr.parse (p ++ (replacement ++ q)) = .ok T' ∧ Becomes path T b T' b' ∧
      b'.value.node.shape = node := by
  generalize hvalue : b.value = value at hrewrites
  cases hrewrites with
  | @uri _ x =>
    have hnode : b.value.node = .uri x := by rw [hvalue]
    obtain ⟨p, q, rfl, hspan, hnew⟩ := exists_uri_site hparse hfind hnode
    obtain ⟨T', b', hparse', hbecomes, -, hnode'⟩ := hnew url
    rw [hvalue] at hspan
    obtain rfl : part = _ := hspan
    refine ⟨p, x, q, T', b', rfl, rfl, replace_append p x q _, hparse', hbecomes, ?_⟩
    simp [hnode', Node.shape, Part.shape]
  | @string span part x =>
    have hnode : b.value.node = Style.quoted.node [.text part x] := by rw [hvalue]; rfl
    obtain ⟨p, q, rfl, rfl, hnew⟩ := exists_literal_site hparse hfind hnode
    obtain ⟨T', b', hparse', hbecomes, -, hnode'⟩ := hnew url Style.noConfusion
    refine ⟨p, x, q, T', b', rfl, rfl, replace_append p x q _, hparse', hbecomes, ?_⟩
    simp [hnode', Style.node, Style.escape, Node.shape, Part.shape]
  | @indentedString span part x hurl =>
    have hnode : b.value.node = Style.indented.node [.text part x] := by rw [hvalue]; rfl
    obtain ⟨p, q, rfl, rfl, hnew⟩ := exists_literal_site hparse hfind hnode
    obtain ⟨T', b', hparse', hbecomes, -, hnode'⟩ := hnew url fun _ => hurl
    refine ⟨p, x, q, T', b', rfl, rfl, replace_append p x q _, hparse', hbecomes, ?_⟩
    simp [hnode', Style.node, Style.escape, Node.shape, Part.shape]

theorem result_upsertInput_of_some {T : Expr} {name url text : Text} {path : List Text}
    {location? : Option Location} {b : KeyValue}
    (hfind : T.findFirst (some path) = .ok (some b)) :
    (upsertInput T name url text path location?).result = replaceValue b.value url text := by
  simp only [upsertInput, Logged.result_bind, hfind]
  rfl

/-- Updating a url rewrites one literal of the manifest and leaves all else as it is: the
characters before and behind the literal, and the tree apart from this one value. -/
theorem upsertInput_rewrites {text name url replacement : Text} {T : Expr} {path : List Text}
    {location? : Option Location} {b : KeyValue} {part : Span} {node : Node}
    (hparse : Expr.parse text = .ok T) (hfind : T.findFirst (some path) = .ok (some b))
    (hrewrites : Rewrites url b.value part replacement node) :
    ∃ start stop T' T₁, offsetsOf text part = .ok (start, stop) ∧
      (upsertInput T name url text path location?).result =
        .ok (text.take start ++ replacement ++ text.drop stop) ∧
      Expr.parse (text.take start ++ replacement ++ text.drop stop) = .ok T' ∧
      Exchanges b { b with value := ⟨b.value.span, node⟩ } path T T₁ ∧ T'.shape = T₁.shape := by
  obtain ⟨p, x, q, T', b', rfl, rfl, hresult, hparse', hbecomes, hnode⟩ :=
    hrewrites.site hparse hfind
  obtain ⟨T₀, hexchanges, hshape⟩ := hbecomes.exchanges
  obtain ⟨T₁, hexchanges', hsame⟩ :=
    hexchanges.exists_other { b with value := ⟨b.value.span, node⟩ }
  have hdrop : (p ++ (x ++ q)).drop (p.length + x.length) = q := by
    rw [← List.append_assoc, ← List.length_append, List.drop_left]
  refine ⟨p.length, p.length + x.length, T', T₁, offsetsOf_after p x q, ?_, ?_, hexchanges', ?_⟩
  · rw [result_upsertInput_of_some hfind, hresult, List.take_left, hdrop, List.append_assoc]
  · rw [List.take_left, hdrop, List.append_assoc, hparse']
  · rw [hshape, hsame]
    refine shape_keyValue hbecomes.keys.symm ?_
    rw [Expr.eta b'.value, Expr.shape, Expr.shape, hnode, hrewrites.shape_node]

/-- Whether a text spells a manifest in which a path leads to a binding that passes a test. -/
def finds (text : Text) (path : List Text) (test : KeyValue → Bool) : Bool :=
  (Expr.parse text).toOption.any fun T => (T.findFirst (some path)).toOption.join.any test

theorem exists_of_finds {text : Text} {path : List Text} {test : KeyValue → Bool}
    (h : finds text path test = true) :
    ∃ T b, Expr.parse text = .ok T ∧ T.findFirst (some path) = .ok (some b) ∧ test b = true := by
  unfold finds at h
  cases hparse : Expr.parse text with
  | error error => simp [hparse, Except.toOption] at h
  | ok T =>
    cases hfind : T.findFirst (some path) with
    | error error => simp [hparse, hfind, Except.toOption] at h
    | ok b? =>
      cases b? with
      | none => simp [hparse, hfind, Except.toOption] at h
      | some b =>
        simp only [hparse, hfind, Except.toOption, Option.any_some, Option.join_some] at h
        exact ⟨T, b, rfl, hfind, h⟩

theorem Rewrites.of_kind {url : Text} {value : Expr} (h : value.kind = .uri) :
    Rewrites url value value.span (stringLiteral url) (.string [.text .blank (escape url)]) := by
  obtain ⟨span, node⟩ := value
  cases node
  all_goals first | exact .uri | exact Kind.noConfusion h

theorem upsertInput_rewrites_uri :
    ∃ text T b start stop T' T₁, text = "\x7b a = x:y; \x7d".toList ∧ Expr.parse text = .ok T ∧
      T.findFirst (some ["a".toList]) = .ok (some b) ∧
      offsetsOf text b.value.span = .ok (start, stop) ∧
      (upsertInput T "a".toList "z".toList text ["a".toList] none).result =
        .ok (text.take start ++ stringLiteral "z".toList ++ text.drop stop) ∧
      Expr.parse (text.take start ++ stringLiteral "z".toList ++ text.drop stop) = .ok T' ∧
      Exchanges b { b with value := ⟨b.value.span, .string [.text .blank (escape "z".toList)]⟩ }
        ["a".toList] T T₁ ∧ T'.shape = T₁.shape := by
  have hfinds : finds "\x7b a = x:y; \x7d".toList ["a".toList]
      (fun b => b.value.kind == .uri) = true := by
    decide +kernel
  obtain ⟨T, b, hparse, hfind, hkind⟩ := exists_of_finds hfinds
  obtain ⟨start, stop, T', T₁, h⟩ :=
    upsertInput_rewrites hparse hfind (Rewrites.of_kind (beq_iff_eq.1 hkind))
  exact ⟨_, T, b, start, stop, T', T₁, rfl, hparse, hfind, h⟩

end Edit
end FlakeInputs
