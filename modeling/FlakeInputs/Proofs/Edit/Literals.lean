import FlakeInputs.Proofs.Edit.Update
import FlakeInputs.Proofs.Grammar.Contents
import FlakeInputs.Proofs.Grammar.Slices
import FlakeInputs.Proofs.Token.Escapes
import FlakeInputs.Proofs.Token.Quotes

/-!
# Urls in indented strings

A url that is put into an indented string is read back from it if the quotes of the url stay
apart from those around it, and only then.  Nothing else in the manifest changes: every other
node stays as it is, moved along with the text.
-/

namespace FlakeInputs

/-! ## Exchanging one text -/

namespace Retext

/-- Where what starts at a position starts when the text of a part is exchanged. -/
def startBeside (part : Span) (content : Text) (p : Position) : Position :=
  if p < part.start then p else part.stop.moved (part.start.after content) p

/-- Where what stops at a position stops when the text of a part is exchanged. -/
def stopBeside (part : Span) (content : Text) (p : Position) : Position :=
  if part.start < p then part.stop.moved (part.start.after content) p else p

/-- The exchange of the text of one part of a string. -/
def exchange (part : Span) (content : Text) : Retext where
  start := startBeside part content
  stop := stopBeside part content
  place span :=
    if span = part then ⟨part.start, part.start.after content⟩
    else ⟨startBeside part content span.start, stopBeside part content span.stop⟩
  text span old := if span = part then content else old

end Retext

namespace Token

open Scan (Piece textOf pieces indentedPieces)

/-- A token that is not of the part that is exchanged. -/
def Beside (part : Span) (t : Token) : Prop :=
  t.kind = .text → t.span ≠ part

section
variable {part : Span} {content : Text} {t : Token}

theorem Beside.retext (h : t.Beside part) : t.retext (.exchange part content) =
    { t with span := ⟨Retext.startBeside part content t.span.start,
      Retext.stopBeside part content t.span.stop⟩ } := by
  obtain ⟨kind, lexeme, span⟩ := t
  by_cases hkind : kind = .text
  · simp [Token.retext, Retext.exchange, hkind, h hkind]
  · simp [Token.retext, Retext.exchange, Retext.span, hkind]

theorem Beside.not_turns (h : t.Beside part) : ¬Grammar.Turns (.exchange part content) t := by
  rintro ⟨hkind, hturns⟩
  simp [Retext.exchange, h hkind] at hturns

/-- A token in front of the text that is exchanged. -/
structure Ahead (part : Span) (t : Token) : Prop where
  start : t.span.start < part.start
  stop : ¬part.start < t.span.stop

theorem Ahead.beside (h : t.Ahead part) : t.Beside part := by
  rintro - rfl
  exact Position.lt_irrefl _ h.start

theorem Ahead.retext (h : t.Ahead part) : t.retext (.exchange part content) = t := by
  rw [h.beside.retext, Retext.startBeside, if_pos h.start, Retext.stopBeside, if_neg h.stop]

/-- A token behind the text that is exchanged. -/
structure Behind (part : Span) (t : Token) : Prop where
  start : ¬t.span.start < part.start
  stop : part.start < t.span.stop
  beside : t.Beside part

theorem Behind.retext (h : t.Behind part) : t.retext (.exchange part content) =
    { t with span := ⟨part.stop.moved (part.start.after content) t.span.start,
      part.stop.moved (part.start.after content) t.span.stop⟩ } := by
  rw [h.beside.retext, Retext.startBeside, if_neg h.start, Retext.stopBeside, if_pos h.stop]

end

/-- A token stands where the text in front of it ends. -/
theorem exists_of_mem_locate {p : Position} {ps : List Piece} {t : Token} (h : t ∈ locate p ps) :
    ∃ w, w ++ t.lexeme <+: textOf ps ∧ t.span = ⟨p.after w, (p.after w).after t.lexeme⟩ := by
  obtain ⟨a, b, hsplit⟩ := List.append_of_mem h
  obtain ⟨qs, rs, rfl, -, hspan, -⟩ := locate_eq_append hsplit
  exact ⟨textOf qs, ⟨textOf rs, by simp⟩, hspan⟩

/-- Tokens behind a position move with it. -/
theorem locate_moved (old new : Position) (w : Text) (ps : List Piece) :
    locate (new.after w) ps = (locate (old.after w) ps).map fun t =>
      { t with span := ⟨old.moved new t.span.start, old.moved new t.span.stop⟩ } := by
  induction ps generalizing w with
  | nil => rfl
  | cons p ps ih =>
    cases p with
    | gap g =>
      rw [locate, locate, ← Position.after_append, ← Position.after_append, ih]
    | token kind lexeme =>
      rw [locate, locate, List.map_cons, ← Position.after_append, ← Position.after_append, ih,
        Position.moved_after, Position.moved_after]

/-! ## The text between two quotes -/

/-- Where the text of an indented string starts, with the pieces `us` in front of the string. -/
def textStart (us : List Piece) : Position :=
  Position.start.after (textOf us ++ ['\x27', '\x27'])

/-- The span of the text `x` of an indented string, with the pieces `us` in front of the
string. -/
def textSpan (us : List Piece) (x : Text) : Span :=
  ⟨textStart us, (textStart us).after x⟩

section
variable {us vs : List Piece} {x y : Text} {t : Token}

theorem ahead_of_mem
    (h : t ∈ locate .start (us ++ [Piece.token .indentQuote ['\x27', '\x27']])) :
    t.Ahead (textSpan us x) := by
  rw [locate_append] at h
  rcases List.mem_append.1 h with h | h
  · obtain ⟨w, ⟨r, hr⟩, hspan⟩ := exists_of_mem_locate h
    have hstart : textStart us = t.span.start.after (t.lexeme ++ (r ++ ['\x27', '\x27'])) := by
      rw [textStart, ← hr, hspan]
      simp
    have hstop : textStart us = t.span.stop.after (r ++ ['\x27', '\x27']) := by
      rw [hstart, hspan]
      simp
    exact ⟨Position.lt_of_eq_after hstart (by simp),
      Position.lt_asymm (Position.lt_of_eq_after hstop (by simp))⟩
  · obtain rfl := List.mem_singleton.1 h
    have hstop : textStart us =
        (Position.start.after (textOf us)).after ['\x27', '\x27'] := Position.after_append ..
    refine ⟨Position.lt_of_eq_after hstop (by simp), ?_⟩
    change ¬textStart us < _
    rw [hstop]
    exact Position.lt_irrefl _

theorem behind_of_mem
    (h : t ∈ locate ((textStart us).after x) (.token .indentQuote ['\x27', '\x27'] :: vs)) :
    t.Behind (textSpan us x) := by
  rcases List.mem_cons.1 h with rfl | h
  · have hstop : ((textStart us).after x).after ['\x27', '\x27'] =
        (textStart us).after (x ++ ['\x27', '\x27']) := (Position.after_append ..).symm
    exact ⟨Position.not_after_lt _ x, Position.lt_of_eq_after hstop (by simp),
      fun hkind => absurd hkind (by simp)⟩
  · obtain ⟨w, -, hspan⟩ := exists_of_mem_locate h
    have hstart : t.span.start = (textStart us).after (x ++ (['\x27', '\x27'] ++ w)) := by
      rw [hspan]
      simp
    have hstop : t.span.stop =
        (textStart us).after (x ++ (['\x27', '\x27'] ++ (w ++ t.lexeme))) := by
      rw [hspan]
      simp
    have hlt := Position.lt_of_eq_after hstart (by simp)
    refine ⟨Position.lt_asymm hlt, Position.lt_of_eq_after hstop (by simp), fun _ heq => ?_⟩
    rw [heq] at hlt
    exact Position.lt_irrefl _ hlt

theorem locate_indented (us vs : List Piece) (z : Text) :
    locate .start (us ++ (indentedPieces z ++ vs)) =
      locate .start (us ++ [Piece.token .indentQuote ['\x27', '\x27']]) ++
        ⟨.text, z, textSpan us z⟩ ::
          locate ((textStart us).after z) (.token .indentQuote ['\x27', '\x27'] :: vs) := by
  have happend : us ++ (indentedPieces z ++ vs) =
      (us ++ [Piece.token .indentQuote ['\x27', '\x27']]) ++
        .token .text z :: .token .indentQuote ['\x27', '\x27'] :: vs := by
    simp [indentedPieces]
  have hstart : textOf (us ++ [Piece.token .indentQuote ['\x27', '\x27']]) =
      textOf us ++ ['\x27', '\x27'] := by
    simp
  rw [happend, locate_append, hstart]
  rfl

/-- The tokens around the text of an indented string stay when the text is exchanged. -/
theorem map_retext_locate (us vs : List Piece) (x y : Text) :
    (locate .start (us ++ (indentedPieces x ++ vs))).map
        (Token.retext (.exchange (textSpan us x) y)) =
      locate .start (us ++ (indentedPieces y ++ vs)) := by
  have hmoved := locate_moved ((textStart us).after x) ((textStart us).after y) []
    (.token .indentQuote ['\x27', '\x27'] :: vs)
  rw [Position.after_nil, Position.after_nil] at hmoved
  rw [locate_indented, locate_indented, List.map_append, List.map_cons, hmoved]
  congr 1
  · refine (List.map_congr_left fun t ht => ?_).trans (List.map_id _)
    exact (ahead_of_mem ht).retext
  · congr 1
    · simp [Token.retext, Retext.exchange]
      rfl
    · exact List.map_congr_left fun t ht => (behind_of_mem ht).retext

/-- No other text turns empty. -/
theorem spaced_locate (us vs : List Piece) (x y : Text) :
    Grammar.Spaced (.exchange (textSpan us x) y)
      (locate .start (us ++ (indentedPieces x ++ vs))) := by
  have hfront {t : Token}
      (ht : t ∈ locate .start (us ++ [Piece.token .indentQuote ['\x27', '\x27']])) :
      ¬Grammar.Turns (.exchange (textSpan us x) y) t := (ahead_of_mem ht).beside.not_turns
  rw [locate_indented]
  rw [locate_append] at hfront ⊢
  rw [List.append_assoc]
  exact Grammar.spaced_of_alone rfl rfl (fun t ht => hfront ht)
    fun t ht => (behind_of_mem ht).beside.not_turns

end

end Token

namespace Edit

open Grammar Scan
open Token (locate textSpan)

/-! ## Indented strings in a manifest -/

section
variable {text out url x : Text} {T value : Expr} {part : Span} {us vs : List Piece}

/-- An indented string without interpolations stands between two quotes, wherever it stands. -/
theorem exists_indented (hparse : Expr.parse text = .ok T)
    (hvalue : (Subtree.expr T).Contains (.expr value))
    (hnode : value.node = .indentedString [.text part x]) :
    ∃ us vs, Scan.pieces [] text = .ok (us ++ (indentedPieces x ++ vs)) ∧
      Derives .expr (locate .start (us ++ (indentedPieces x ++ vs))) T ∧
      inString (modesAfter [] us) = false ∧ value.span.start = Position.start.after (textOf us) ∧
      part = textSpan us x := by
  obtain ⟨all, hall, hT⟩ := Expr.parse_eq_ok.1 hparse
  obtain ⟨us, ts, vs, rfl, hplaced⟩ := hT.exists_placed hvalue
  have hdelimited : (Subtree.expr value).delimited? = some value := by
    simp [Subtree.delimited?, hnode, isDelimited]
  obtain ⟨-, hm, hderives, hhead, -⟩ := hplaced.derives_delimited hdelimited
  obtain ⟨t, q, htokens⟩ : ∃ t q, tokensBehind us ts = t :: q := by
    cases htokens : tokensBehind us ts with
    | nil =>
      rw [htokens] at hderives
      exact Bool.noConfusion hderives.begins
    | cons t q => exact ⟨t, q, rfl⟩
  rw [htokens] at hderives hhead
  obtain ⟨ts, rfl⟩ : ∃ rest, ts = .token t.kind t.lexeme :: rest := by
    have hfirst := hplaced.first
    rw [htokens] at hfirst
    obtain ⟨rest, rfl⟩ := List.head?_eq_some_iff.1 hfirst
    exact ⟨rest, rfl⟩
  obtain ⟨ht, hq⟩ := List.cons.inj htokens
  have hstop : t.span.stop = (positionBehind us).after t.lexeme := by rw [← ht]
  have hbehind :
      locate t.span.stop (ts ++ vs) = q ++ locate (t.span.stop.after (textOf ts)) vs := by
    rw [Token.locate_append, ← hq, hstop]
  have hliteral : value.node = Style.indented.node [.text part x] := hnode
  obtain ⟨vs', hpieces, hpart, -, -⟩ := Style.exists_pieces hall hderives
    (fun heq => hhead (by rw [headKind_cons, heq])) hliteral hbehind
  have hmark : t.lexeme = ['\x27', '\x27'] := (Piece.token.inj (List.cons.inj hpieces).1).2
  have hsplit : us ++ (Piece.token t.kind t.lexeme :: ts ++ vs) = us ++ (indentedPieces x ++ vs') :=
    congrArg (us ++ ·) hpieces
  rw [hsplit] at hall hT
  refine ⟨us, vs', hall, hT, by rwa [modesAfter_eq], congrArg Span.start hplaced.span_eq, ?_⟩
  have hstart : t.span.stop = Token.textStart us := by
    rw [hstop, hmark]
    exact (Position.after_append ..).symm
  rw [hpart, hstart, textSpan]

/-- With the text of an indented string exchanged, a manifest is the same around it. -/
theorem parse_exchanged (hT : Derives .expr (locate .start (us ++ (indentedPieces x ++ vs))) T)
    {y : Text} (hout : Scan.pieces [] out = .ok (us ++ (indentedPieces y ++ vs))) :
    Expr.parse out = .ok (T.retext (.exchange (textSpan us x) y)) := by
  have hnew := hT.retext (.exchange (textSpan us x) y) trivial (Token.spaced_locate us vs x y)
  rw [Token.map_retext_locate] at hnew
  exact Expr.parse_eq_ok.2 ⟨_, hout, hnew⟩

/-- At a position of a text an indented string begins that is the url as it is written in such
strings, and the url can be read back from it. -/
def ReadsUrl (url : Text) (p : Position) (text : Text) : Prop :=
  ∃ T value span, Expr.parse text = .ok T ∧ (Subtree.expr T).Contains (.expr value) ∧
    value.span.start = p ∧ value.node = .indentedString [.text span (escapeIndented url)] ∧
    Literal.unescapeIndented (escapeIndented url) = url

theorem ReadsUrl.quotesApart {p : Position} (h : ReadsUrl url p text) :
    Literal.quotesApart url = true := by
  obtain ⟨T, value, span, hparse, hvalue, -, hnode, -⟩ := h
  obtain ⟨us, vs, hall, -, hm, -, -⟩ := exists_indented hparse hvalue hnode
  exact quotesApart_of_pieces hall hm

/-- An indented string without interpolations is replaced by any url, and the url can be read
back exactly if its quotes stay apart from those around it.  Then the rest of the manifest stays as
it is, moved along with the text. -/
theorem replaceValue_indented (hparse : Expr.parse text = .ok T)
    (hvalue : (Subtree.expr T).Contains (.expr value))
    (hnode : value.node = .indentedString [.text part x]) (url : Text) :
    ∃ out, replaceValue value url text = .ok out ∧
      (ReadsUrl url value.span.start out ↔ Literal.quotesApart url = true) ∧
      (Literal.quotesApart url = true →
        Expr.parse out = .ok (T.retext (.exchange part (escapeIndented url)))) := by
  obtain ⟨us, vs, hall, hT, hm, hstart, rfl⟩ := exists_indented hparse hvalue hnode
  have hparsed : Literal.quotesApart url = true →
      Expr.parse (textOf (us ++ (indentedPieces (escapeIndented url) ++ vs))) =
        .ok (T.retext (.exchange (textSpan us x) (escapeIndented url))) :=
    fun hurl => parse_exchanged hT (pieces_exchange_indented hall hm hurl)
  refine ⟨_, ?_, ⟨ReadsUrl.quotesApart, fun hurl => ?_⟩, hparsed⟩
  · have hliteral : value.node = Style.indented.node [.text (textSpan us x) x] := hnode
    have hreplace : replaceValue.replace ((textOf us ++ ['\x27', '\x27']) ++
        (x ++ (['\x27', '\x27'] ++ textOf vs))) (textSpan us x) (escapeIndented url) = .ok _ :=
      replace_append _ x _ _
    rw [replaceValue_literal hliteral, ← textOf_pieces hall]
    simpa [indentedPieces, Style.escape] using hreplace
  · have hinner := hvalue.retext (.exchange (textSpan us x) (escapeIndented url))
    refine ⟨_, _, textSpan us (escapeIndented url), hparsed hurl, hinner, ?_, ?_,
      Literal.unescapeIndented_escape hurl⟩
    · have hlt : value.span.start < (textSpan us x).start :=
        Position.lt_of_eq_after (by rw [hstart]; exact Position.after_append ..) (by simp)
      rw [Expr.span_retext]
      exact if_pos hlt
    · rw [Expr.node_retext, hnode]
      simp [Node.retext, Part.retext, Retext.exchange, textSpan]

/-- A node is an indented string with nothing but text in it. -/
def isIndented : Subtree → Bool
  | .expr ⟨_, .indentedString [.text _ _]⟩ => true
  | _ => false

theorem exists_of_isIndented {x : Subtree} (h : isIndented x = true) :
    ∃ value part t, x = .expr value ∧ value.node = .indentedString [.text part t] := by
  unfold isIndented at h
  split at h
  · exact ⟨_, _, _, rfl, rfl⟩
  · cases h

theorem replaceValue_indented_pairs :
    ∃ (text : Text) (T value : Expr) (part : Span) (x url out : Text),
      text = "\x7b a = ''x''; \x7d".toList ∧ url = "b'c''$d''$\x7be\x7d".toList ∧
      Expr.parse text = .ok T ∧ (Subtree.expr T).Contains (.expr value) ∧
      value.node = .indentedString [.text part x] ∧ Literal.quotesApart url = true ∧
      replaceValue value url text = .ok out ∧ ReadsUrl url value.span.start out ∧
      Expr.parse out = .ok (T.retext (.exchange part (escapeIndented url))) := by
  have hparse : (Expr.parse "\x7b a = ''x''; \x7d".toList).toOption.any (fun T =>
      (Subtree.expr T).children.any (·.children.any isIndented)) = true := by
    decide +kernel
  have hurl : Literal.quotesApart "b'c''$d''$\x7be\x7d".toList = true := by decide
  obtain ⟨T, hT, htest⟩ := Outcome.exists_of_any hparse
  obtain ⟨y, hy, htest⟩ := List.any_eq_true.1 htest
  obtain ⟨v, hv, htest⟩ := List.any_eq_true.1 htest
  obtain ⟨value, part, x, rfl, hnode⟩ := exists_of_isIndented htest
  have hvalue : (Subtree.expr T).Contains (.expr value) := .tail (.single hy) hv
  obtain ⟨out, hout, hreads, hparse'⟩ :=
    replaceValue_indented hT hvalue hnode "b'c''$d''$\x7be\x7d".toList
  exact ⟨_, T, value, part, x, _, out, rfl, rfl, hT, hvalue, hnode, hurl, hout, hreads.2 hurl,
    hparse' hurl⟩

/-- A url that ends with a quote takes the end of its string along: the text that results does not
parse. -/
theorem replaceValue_last_quote :
    (Expr.parse "\x7b inputs.a.url = ''x''; outputs = x: 1; \x7d".toList).toOption.any
      (fun T => (T.findFirst (some (Manifest.urlPath ['a']))).toOption.any fun b? => b?.any fun b =>
        (replaceValue b.value ['\x27']
            "\x7b inputs.a.url = ''x''; outputs = x: 1; \x7d".toList).toOption.any fun out =>
          out == "\x7b inputs.a.url = '''''; outputs = x: 1; \x7d".toList &&
            (Expr.parse out).toOption.isNone) = true := by
  decide +kernel

end

end Edit
end FlakeInputs
