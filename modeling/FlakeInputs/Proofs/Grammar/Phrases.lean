import FlakeInputs.Proofs.Edit.Update

/-!
# Phrases that a text spells

A text spells a phrase if its tokens are one wherever the text stands.  Texts go together as their
phrases do, as long as no word goes on from one text into the next.
-/

namespace FlakeInputs

namespace Scan

/-- What fits in front of a closing brace fits between braces. -/
theorem Fits.braced {qs : List Piece} {r : Text} (h : Fits qs ('}' :: r)) :
    Fits (.token .braceOpen ['{'] :: (qs ++ [Piece.token .braceClose ['}']])) r := by
  intro m hm
  have hopening : Run (textOf qs ++ '}' :: r) m ['{'] [.token .braceOpen ['{']] (.brace :: m) :=
    Run.single (s := ⟨[.token .braceOpen ['{']], .brace :: m, textOf qs ++ '}' :: r⟩)
      (steps_bare hm rfl) rfl
  have hclosing : Run r (.brace :: m) ['}'] [.token .braceClose ['}']] m :=
    Run.single (s := ⟨[.token .braceClose ['}']], m, r⟩) (steps_bare rfl rfl) rfl
  have hinner :
      Run r (.brace :: m) (textOf qs ++ ['}']) (qs ++ [Piece.token .braceClose ['}']]) m :=
    (h (.brace :: m) rfl).append hclosing
  have htext : textOf (.token .braceOpen ['{'] :: (qs ++ [Piece.token .braceClose ['}']])) =
      ['{'] ++ (textOf qs ++ ['}']) := by
    rw [textOf_cons, textOf_append]
    rfl
  rw [htext]
  exact Run.append (by simpa using hopening) hinner

/-- The signs that stand in front of a blank. -/
def spacedSigns : List (String × TokenKind) :=
  [("=", .assign), (":", .colon), ("?", .question), ("@", .atSign), ("[", .bracketOpen),
    ("...", .ellipsis)]

theorem fits_sign (sign : String × TokenKind) (h : sign ∈ spacedSigns) (r : Text) :
    Fits [.token sign.2 sign.1.toList] (' ' :: r) := by
  simp only [spacedSigns, List.mem_cons, List.not_mem_nil, or_false] at h
  rcases h with rfl | rfl | rfl | rfl | rfl | rfl
  all_goals exact fits_of_steps fun _ hm => steps_bare hm rfl

theorem isGap_space : ∀ c ∈ [' '], isGap c = true :=
  List.all_eq_true.1 (by decide)

theorem fits_space (r : Text) : Fits [.gap [' ']] r :=
  fits_blanks isGap_space r

theorem fits_identifier {name r : Text} (hname : Edit.isIdentifier name = true)
    (h : Word.longest? (name ++ r) = some (.identifier, name)) :
    Fits [.token .identifier name] r := by
  obtain ⟨hword, hkind⟩ := isName_of_isIdentifier hname
  rw [← hkind]
  exact fits_name hword h

/-- An identifier is a token of its own wherever a parameter can end. -/
theorem fits_parameter {name r : Text} (hname : Edit.isIdentifier name = true)
    (hr : endsParameter r = true) : Fits [.token .identifier name] r :=
  fits_identifier hname (longest?_of_endsParameter (isName_of_isIdentifier hname).1 hr)

end Scan

namespace Grammar

open Scan
open Token (locate)
open Edit (isIdentifier)

/-- The text `t`, in front of `r`, spells a phrase of the symbol `s` with the property `P`. -/
def Spells (s : Symbol) (P : s.Val → Prop) (t r : Text) : Prop :=
  ∃ ps, textOf ps = t ∧ Fits ps r ∧ ∀ p, ∃ v, Derives s (locate p ps) v ∧ P v

section
variable {s : Symbol} {P Q : s.Val → Prop} {t r b : Text}

theorem Spells.imp (h : Spells s P t r) (himp : ∀ v, P v → Q v) : Spells s Q t r := by
  obtain ⟨ps, htext, hfits, hderives⟩ := h
  refine ⟨ps, htext, hfits, fun p => ?_⟩
  obtain ⟨v, hv, hP⟩ := hderives p
  exact ⟨v, hv, himp v hP⟩

/-- Blanks in front of a phrase do not matter. -/
theorem Spells.behind (h : Spells s P t r) (hb : ∀ c ∈ b, isGap c = true) :
    Spells s P (b ++ t) r := by
  obtain ⟨ps, rfl, hfits, hderives⟩ := h
  refine ⟨blanks b ++ ps, ?_, (fits_blanks hb _).append hfits, fun p => ?_⟩
  · rw [textOf_append, textOf_blanks]
  · rw [Token.locate_append, Token.locate_gaps (isGaps_blanks b), List.nil_append]
    exact hderives _

/-- Blanks behind a phrase do not matter. -/
theorem Spells.ahead (h : Spells s P t (b ++ r)) (hb : ∀ c ∈ b, isGap c = true) :
    Spells s P (t ++ b) r := by
  obtain ⟨ps, rfl, hfits, hderives⟩ := h
  refine ⟨ps ++ blanks b, ?_, ?_, fun p => ?_⟩
  · rw [textOf_append, textOf_blanks]
  · apply Fits.append _ (fits_blanks hb r)
    rwa [textOf_blanks]
  · rw [Token.locate_append, Token.locate_gaps (isGaps_blanks b), List.append_nil]
    exact hderives p

end

/-- A text that spells an expression is read as one. -/
theorem Spells.exists_parse {P : Expr → Prop} {t : Text} (h : Spells .expr P t []) :
    ∃ T, Expr.parse t = .ok T ∧ P T := by
  obtain ⟨ps, rfl, hfits, hderives⟩ := h
  obtain ⟨T, hT, hP⟩ := hderives .start
  have hend : pieces [] [] = .ok [] := by
    rw [pieces]
    rfl
  have hpieces := (hfits [] rfl).pieces hend
  rw [List.append_nil, List.append_nil] at hpieces
  exact ⟨T, Expr.parse_eq_ok.2 ⟨ps, hpieces, hT⟩, hP⟩

/-! ## Values -/

theorem Spells.expr {P : Expr → Prop} {t r : Text} (h : Spells .simple P t r) :
    Spells .expr P t r := by
  obtain ⟨ps, htext, hfits, hderives⟩ := h
  refine ⟨ps, htext, hfits, fun p => ?_⟩
  obtain ⟨e, he, hP⟩ := hderives p
  exact ⟨e, he.expr_of_simple, hP⟩

/-- A string that is written as it is. -/
theorem spells_string {t : Text} (ht : Edit.escape t = t) (r : Text) :
    Spells .simple (fun e : Expr => ∃ span, e.node = .string [.text span t])
      ('"' :: (t ++ ['"'])) r := by
  refine ⟨quotedPieces t, rfl, ?_, fun p => ?_⟩
  · rw [← ht]
    exact fits_quoted t r
  · exact ⟨_, Edit.Style.quoted.derives_pieces p t, _, rfl⟩

theorem spells_identifier {name r : Text} (hname : isIdentifier name = true)
    (hr : Word.longest? (name ++ r) = some (.identifier, name)) :
    Spells .simple (fun e : Expr => e.node = .identifier name) name r := by
  refine ⟨[.token .identifier name], by simp, ?_, fun p => ⟨_, .identifier rfl, rfl⟩⟩
  exact fits_identifier hname hr

/-- A url is a word of its own in front of a semicolon. -/
theorem spells_uri {t : Text} (ht : Word.IsUri t) (r : Text) :
    Spells .simple (fun e : Expr => e.node = .uri t) t (';' :: r) :=
  ⟨[.token .uri t], by simp, fits_uri ht (by decide) r, fun p => ⟨_, .uri rfl, rfl⟩⟩

/-! ## Keys -/

/-- Names behind dots. -/
def dotted (names : List Text) : Text :=
  names.flatMap fun name => '.' :: name

section
variable {names : List Text} (hnames : ∀ name ∈ names, isIdentifier name = true)
include hnames

theorem not_mem_dotted {c : Char} (hc : Word.isIdentChar c = false) (hdot : c ≠ '.') :
    c ∉ dotted names := by
  intro hmem
  obtain ⟨name, hname, hmem⟩ := List.mem_flatMap.1 hmem
  rcases List.mem_cons.1 hmem with rfl | hmem
  · exact hdot rfl
  · exact (isName_of_isIdentifier (hnames name hname)).1.not_mem hc hmem

/-- A name is a word of its own in front of a dot and of a blank. -/
theorem fits_bare {name : Text} (hname : isIdentifier name = true) (r : Text) :
    Fits [.token .identifier name] (dotted names ++ ' ' :: r) := by
  apply fits_identifier hname
  apply (isName_of_isIdentifier hname).1.longest?_of_barrier
  · intro d hd
    cases names with
    | nil => cases hd
    | cons first names =>
      obtain rfl := Option.some.inj hd
      decide
  · exact not_mem_dotted hnames (by decide) (by decide)
  · exact not_mem_dotted hnames (by decide) (by decide)
  · decide
  · decide

/-- A dot is a token of its own in front of a name. -/
theorem fits_dot_ahead {name : Text} (hname : isIdentifier name = true) (r : Text) :
    Fits [.token .dot ['.']] (name ++ (dotted names ++ ' ' :: r)) := by
  have hword := (isName_of_isIdentifier hname).1
  have hle : (Word.segments ('.' :: name ++ dotted names ++ ' ' :: r)).length ≤
      ('.' :: name ++ dotted names).length :=
    Word.segments_length_le (by decide) (by decide)
  have hwithin : Word.segments ('.' :: name ++ dotted names ++ ' ' :: r) <+:
      '.' :: name ++ dotted names :=
    List.prefix_of_prefix_length_le (Word.segments_within _) (List.prefix_append _ _) hle
  have hslash : '/' ∉ '.' :: name ++ dotted names := by
    rw [List.mem_append, List.mem_cons]
    rintro ((hdot | hmem) | hmem)
    · exact absurd hdot (by decide)
    · exact hword.not_mem (by decide) hmem
    · exact not_mem_dotted hnames (by decide) (by decide) hmem
  rw [List.append_assoc] at hwithin
  obtain ⟨c, t, rfl, hc⟩ := hword.exists_start
  apply fits_dot
  · rintro rfl
    exact absurd hc (by decide)
  · exact Word.isDigit_of_isIdentStart hc
  · exact fun hmem => hslash (hwithin.subset hmem)

theorem spells_pathRest (r : Text) :
    Spells .pathRest (fun ks : List Key => ks.map Key.name? = names.map some) (dotted names)
      (' ' :: r) := by
  induction names with
  | nil => exact ⟨[], rfl, .nil, fun p => ⟨[], .pathEnd, rfl⟩⟩
  | cons name names ih =>
    have hname := hnames name List.mem_cons_self
    have hrest : ∀ other ∈ names, isIdentifier other = true :=
      fun other hother => hnames other (List.mem_cons_of_mem _ hother)
    obtain ⟨ps, htext, hfits, hderives⟩ := ih hrest
    refine ⟨.token .dot ['.'] :: .token .identifier name :: ps, ?_, ?_, fun p => ?_⟩
    · rw [textOf_cons, textOf_cons, htext]
      rfl
    · apply Fits.cons
      · rw [textOf_cons, htext, List.append_assoc]
        exact fits_dot_ahead hrest hname r
      · apply Fits.cons _ hfits
        rw [htext]
        exact fits_bare hrest hname r
    · obtain ⟨ks, hks, heq⟩ := hderives ((p.after ['.']).after name)
      exact ⟨.bare _ name :: ks, .pathStep rfl (.bareKey (.inl rfl)) hks,
        congrArg (some name :: ·) heq⟩

theorem spells_attrPath {first : Text} (hfirst : isIdentifier first = true) (r : Text) :
    Spells .attrPath (fun v : Span × List Key => v.2.map Key.name? = (first :: names).map some)
      (first ++ dotted names) (' ' :: r) := by
  obtain ⟨ps, htext, hfits, hderives⟩ := spells_pathRest hnames r
  refine ⟨.token .identifier first :: ps, ?_, ?_, fun p => ?_⟩
  · rw [textOf_cons, htext]
    rfl
  · apply Fits.cons _ hfits
    rw [htext]
    exact fits_bare hnames hfirst r
  · obtain ⟨ks, hks, heq⟩ := hderives (p.after first)
    exact ⟨_, .attrPath (.bareKey (.inl rfl)) hks, congrArg (some first :: ·) heq⟩

/-! ## Bindings -/

/-- A key, an equals sign and a value are a binding. -/
theorem spells_keyValue {P : Expr → Prop} {first value r : Text}
    (hfirst : isIdentifier first = true) (hvalue : Spells .expr P value (';' :: r)) :
    Spells .keyValue (fun b : KeyValue => b.names = (first :: names).map some ∧ P b.value)
      (first ++ dotted names ++ (" = ".toList ++ (value ++ [';']))) r := by
  obtain ⟨qs, rfl, hqs, hvalue⟩ := hvalue
  obtain ⟨ps, htext, hps, hpath⟩ :=
    spells_attrPath hnames hfirst ("= ".toList ++ (textOf qs ++ ';' :: r))
  choose value hvalue hP using hvalue
  refine ⟨ps ++ Piece.gap [' '] :: .token .assign ['='] :: .gap [' '] ::
    (qs ++ [Piece.token .semicolon [';']]), ?_, ?_, fun p => ?_⟩
  · rw [textOf_append, htext, textOf_cons, textOf_cons, textOf_cons, textOf_append]
    rfl
  · apply Fits.append
    · rw [textOf_cons, textOf_cons, textOf_cons, textOf_append]
      simpa using hps
    · apply (fits_space _).cons
      refine Fits.cons (fits_sign ("=", .assign) (by decide) _) ?_
      apply (fits_space _).cons
      exact Fits.append hqs (fits_semicolon r)
  · obtain ⟨⟨span, path⟩, hpath, hpathNames⟩ := hpath p
    simp only [Token.locate_append, locate]
    exact ⟨_, .keyValue hpath rfl (hvalue _) rfl, hpathNames, hP _⟩

end

/-- A text that spells bindings with the property `Q`, in front of any other text. -/
def Binds (Q : List KeyValue → Prop) (t : Text) : Prop :=
  ∀ r, Spells (.bindings .braceClose)
    (fun bs : List Binding => ∃ cs : List KeyValue, bs = cs.map .keyValue ∧ Q cs) t r

section
variable {Q Q' : List KeyValue → Prop} {t t' : Text}

theorem Binds.imp (h : Binds Q t) (himp : ∀ cs, Q cs → Q' cs) : Binds Q' t := by
  intro r
  apply (h r).imp
  rintro bs ⟨cs, hbs, hcs⟩
  exact ⟨cs, hbs, himp cs hcs⟩

theorem binds_blanks (ht : ∀ c ∈ t, isGap c = true) : Binds (· = []) t := by
  intro r
  refine ⟨blanks t, textOf_blanks t, fits_blanks ht r, fun p => ⟨[], ?_, [], rfl, rfl⟩⟩
  rw [Token.locate_gaps (isGaps_blanks t)]
  exact .noBinding

theorem Binds.append (h : Binds Q t) (h' : Binds Q' t') :
    Binds (fun cs => ∃ front back, cs = front ++ back ∧ Q front ∧ Q' back) (t ++ t') := by
  intro r
  obtain ⟨ps, rfl, hps, hderives⟩ := h (t' ++ r)
  obtain ⟨qs, rfl, hqs, hderives'⟩ := h' r
  refine ⟨ps ++ qs, textOf_append ps qs, hps.append hqs, fun p => ?_⟩
  obtain ⟨_, hfront, front, rfl, hQ⟩ := hderives p
  obtain ⟨_, hback, back, rfl, hQ'⟩ := hderives' (p.after (textOf ps))
  refine ⟨_, ?_, front ++ back, List.map_append.symm, front, back, rfl, hQ, hQ'⟩
  rw [Token.locate_append]
  exact hfront.bindings_append hback

/-- Blanks around bindings do not matter. -/
theorem Binds.behind (h : Binds Q t) (ht' : ∀ c ∈ t', isGap c = true) : Binds Q (t' ++ t) :=
  fun r => (h r).behind ht'

theorem Binds.ahead (h : Binds Q t) (ht' : ∀ c ∈ t', isGap c = true) : Binds Q (t ++ t') :=
  fun r => (h (t' ++ r)).ahead ht'

theorem binds_one {P : KeyValue → Prop} (h : ∀ r, Spells .keyValue P t r) :
    Binds (fun cs => ∃ c, cs = [c] ∧ P c) t := by
  intro r
  obtain ⟨ps, htext, hfits, hderives⟩ := h r
  refine ⟨ps, htext, hfits, fun p => ?_⟩
  obtain ⟨b, hb, hP⟩ := hderives p
  refine ⟨[.keyValue b], ?_, [b], rfl, b, rfl, hP⟩
  have hnone : Derives (.bindings .braceClose) [] [] := .noBinding
  rw [← List.append_nil (locate p ps)]
  exact .bindings (.keyValueBinding hb) hnone

/-- Bindings between braces are a set. -/
theorem Binds.set (h : Binds Q t) (r : Text) :
    Spells .simple (fun e : Expr => ∃ cs : List KeyValue,
      e.node = .map (cs.map .keyValue) false ∧ Q cs) ('{' :: (t ++ ['}'])) r := by
  obtain ⟨ps, rfl, hfits, hderives⟩ := h ('}' :: r)
  refine ⟨.token .braceOpen ['{'] :: (ps ++ [Piece.token .braceClose ['}']]), ?_, hfits.braced,
    fun p => ?_⟩
  · rw [textOf_cons, textOf_append]
    rfl
  · obtain ⟨_, hbs, cs, rfl, hQ⟩ := hderives (p.after ['{'])
    simp only [Token.locate_append, locate]
    exact ⟨_, .map (.attrSet rfl hbs rfl), cs, rfl, hQ⟩

end

/-- A value between brackets is a list. -/
theorem spells_list {P : Expr → Prop} {t : Text} (h : ∀ r, Spells .simple P t r) (r : Text) :
    Spells .simple (fun _ => True) ("[ ".toList ++ (t ++ " ]".toList)) r := by
  obtain ⟨ps, rfl, hfits, hderives⟩ := h (" ]".toList ++ r)
  choose e he _ using hderives
  refine ⟨.token .bracketOpen ['['] :: .gap [' '] ::
    (ps ++ [Piece.gap [' '], .token .bracketClose [']']]), ?_, ?_, fun p => ?_⟩
  · rw [textOf_cons, textOf_cons, textOf_append]
    rfl
  · refine Fits.cons (fits_sign ("[", .bracketOpen) (by decide) _) ?_
    apply (fits_space _).cons
    apply Fits.append hfits
    exact (fits_space _).cons (fits_of_steps fun _ hm => steps_bare hm rfl)
  · simp only [Token.locate_append, locate]
    have helements := Derives.element (.unselected (he ((p.after ['[']).after [' ']))) .noElement
    rw [List.append_nil] at helements
    exact ⟨_, .list rfl helements rfl, trivial⟩

/-! ## Functions -/

/-- A function that takes its argument whole. -/
theorem spells_simpleFunction {P : Expr → Prop} {name body r : Text}
    (hname : isIdentifier name = true)
    (hlongest : Word.longest? (name ++ (": ".toList ++ (body ++ r))) = some (.identifier, name))
    (hbody : Spells .expr P body r) :
    Spells .expr (fun e : Expr => ∃ span name body, e.node = .function (.simple span name) body)
      (name ++ (": ".toList ++ body)) r := by
  obtain ⟨qs, rfl, hqs, hbody⟩ := hbody
  choose e he _ using hbody
  refine ⟨.token .identifier name :: .token .colon [':'] :: .gap [' '] :: qs, ?_, ?_, fun p => ?_⟩
  · rw [textOf_cons, textOf_cons, textOf_cons]
    rfl
  · apply Fits.cons
    · exact fits_identifier hname hlongest
    · refine Fits.cons (fits_sign (":", .colon) (by decide) _) ?_
      exact (fits_space _).cons hqs
  · exact ⟨_, .simpleFunction rfl rfl (he _), _, _, _, rfl⟩

/-- A text that spells a parameter wherever one can end. -/
def IsParameter (t : Text) : Prop :=
  ∀ r, endsParameter r = true → Spells .parameter (fun _ => True) t r

theorem isParameter_name {name : Text} (hname : isIdentifier name = true) : IsParameter name := by
  intro r hr
  refine ⟨[.token .identifier name], by simp, ?_, fun p => ⟨_, .parameter rfl, trivial⟩⟩
  exact fits_parameter hname hr

theorem isParameter_default {name other : Text} (hname : isIdentifier name = true)
    (hother : isIdentifier other = true) : IsParameter (name ++ (" ? ".toList ++ other)) := by
  intro r hr
  have hlongest := longest?_of_endsParameter (isName_of_isIdentifier hother).1 hr
  obtain ⟨qs, rfl, hqs, hdefault⟩ := (spells_identifier hother hlongest).expr
  choose e he _ using hdefault
  refine ⟨.token .identifier name :: .gap [' '] :: .token .question ['?'] :: .gap [' '] :: qs,
    ?_, ?_, fun p => ?_⟩
  · rw [textOf_cons, textOf_cons, textOf_cons, textOf_cons]
    rfl
  · apply Fits.cons
    · exact fits_parameter hname rfl
    · apply (fits_space _).cons
      refine Fits.cons (fits_sign ("?", .question) (by decide) _) ?_
      exact (fits_space _).cons hqs
  · exact ⟨_, .parameterOr rfl rfl (he _), trivial⟩

/-- Entries of a parameter list that begin with a parameter. -/
def HasParameter (es : List (Option Parameter)) : Prop :=
  ∃ x rest, es = some x :: rest

theorem Spells.entry {t blank rest r : Text} {P : List (Option Parameter) → Prop}
    (h : Spells .entries P rest r) (ht : IsParameter t) (hblank : ∀ c ∈ blank, isGap c = true) :
    Spells .entries HasParameter (t ++ ((',' :: blank) ++ rest)) r := by
  obtain ⟨qs, htext, hqs, hrest⟩ := h.behind hblank
  obtain ⟨ps, rfl, hps, hparameter⟩ := ht (',' :: (blank ++ rest ++ r)) rfl
  choose x hx _ using hparameter
  choose es hes _ using hrest
  refine ⟨ps ++ Piece.token .comma [','] :: qs, ?_, ?_, fun p => ?_⟩
  · rw [textOf_append, textOf_cons, htext]
    rfl
  · apply Fits.append
    · rw [textOf_cons, htext]
      exact hps
    · exact (fits_comma _).cons hqs
  · simp only [Token.locate_append, locate]
    exact ⟨_, .entry (hx p) rfl (hes _), _, _, rfl⟩

/-- Parameters with commas between them, and an ellipsis at the end or not, are the entries of a
list. -/
theorem spells_entries {blank : Text} (hblank : ∀ c ∈ blank, isGap c = true) {first : Text}
    {others last : List Text} (hfirst : IsParameter first) (hothers : ∀ t ∈ others, IsParameter t)
    (hlast : last = [] ∨ last = ["...".toList]) (r : Text) :
    Spells .entries HasParameter ((',' :: blank).intercalate (first :: (others ++ last)))
      (' ' :: r) := by
  induction others generalizing first with
  | nil =>
    rcases hlast with rfl | rfl
    · obtain ⟨ps, htext, hfits, hderives⟩ := hfirst (' ' :: r) rfl
      refine ⟨ps, ?_, hfits, fun p => ?_⟩
      · rw [htext, List.append_nil, List.intercalate_singleton]
      · obtain ⟨x, hx, -⟩ := hderives p
        exact ⟨_, .lastEntry hx, x, [], rfl⟩
    · have hellipsis : Spells .entries (fun _ => True) "...".toList (' ' :: r) :=
        ⟨[.token .ellipsis "...".toList], rfl, fits_sign ("...", .ellipsis) (by decide) r,
          fun p => ⟨_, .ellipsis rfl, trivial⟩⟩
      rw [List.nil_append, List.intercalate_cons_cons, List.intercalate_singleton,
        List.append_assoc]
      exact hellipsis.entry hfirst hblank
  | cons second others ih =>
    rw [List.cons_append, List.intercalate_cons_cons, List.append_assoc]
    exact (ih (hothers second List.mem_cons_self)
      fun t ht => hothers t (List.mem_cons_of_mem _ ht)).entry hfirst hblank

/-- Entries between braces are a parameter list. -/
theorem spells_parameterList {t r : Text}
    (h : Spells .entries HasParameter t (" \x7d".toList ++ r)) :
    Spells (.parameterList none) (fun list : ParameterList => list.parameters ≠ [])
      ("\x7b ".toList ++ (t ++ " \x7d".toList)) r := by
  obtain ⟨ps, htext, hfits, hderives⟩ :=
    Spells.ahead (b := [' ']) (r := '}' :: r) (h.behind isGap_space) isGap_space
  refine ⟨.token .braceOpen ['{'] :: (ps ++ [Piece.token .braceClose ['}']]), ?_, hfits.braced,
    fun p => ?_⟩
  · rw [textOf_cons, textOf_append, htext]
    simp
  · obtain ⟨es, hes, x, rest, rfl⟩ := hderives (p.after ['{'])
    simp only [Token.locate_append, locate]
    exact ⟨_, .parameterList rfl hes rfl, List.cons_ne_nil _ _⟩

/-- A function that takes its argument apart. -/
def TakesApart (e : Expr) : Prop :=
  ∃ list body, e.node = .function (.destructured list) body ∧ list.parameters ≠ []

theorem spells_listFunction {P : Expr → Prop} {list body r : Text}
    (hlist : ∀ r, Spells (.parameterList none) (fun list : ParameterList => list.parameters ≠ [])
      list r) (hbody : Spells .expr P body r) :
    Spells .expr TakesApart (list ++ (": ".toList ++ body)) r := by
  obtain ⟨qs, rfl, hqs, hbody⟩ := hbody
  obtain ⟨ps, rfl, hps, hlist⟩ := hlist (": ".toList ++ (textOf qs ++ r))
  choose e he _ using hbody
  refine ⟨ps ++ Piece.token .colon [':'] :: .gap [' '] :: qs, ?_, ?_, fun p => ?_⟩
  · rw [textOf_append, textOf_cons, textOf_cons]
    rfl
  · apply Fits.append hps
    refine Fits.cons (fits_sign (":", .colon) (by decide) _) ?_
    exact (fits_space _).cons hqs
  · obtain ⟨l, hl, hne⟩ := hlist p
    simp only [Token.locate_append, locate]
    exact ⟨_, .listFunction hl rfl (he _), _, _, rfl, hne⟩

theorem spells_aliasedFunction {P : Expr → Prop} {list name body r : Text}
    (hlist : ∀ r, Spells (.parameterList none) (fun list : ParameterList => list.parameters ≠ [])
      list r) (hname : isIdentifier name = true)
    (hlongest : Word.longest? (name ++ (": ".toList ++ (body ++ r))) = some (.identifier, name))
    (hbody : Spells .expr P body r) :
    Spells .expr TakesApart (list ++ (" @ ".toList ++ (name ++ (": ".toList ++ body)))) r := by
  obtain ⟨qs, rfl, hqs, hbody⟩ := hbody
  obtain ⟨ps, rfl, hps, hlist⟩ :=
    hlist (" @ ".toList ++ (name ++ (": ".toList ++ (textOf qs ++ r))))
  choose e he _ using hbody
  refine ⟨ps ++ Piece.gap [' '] :: .token .atSign ['@'] :: .gap [' '] :: .token .identifier name ::
    .token .colon [':'] :: .gap [' '] :: qs, ?_, ?_, fun p => ?_⟩
  · simp only [textOf_append, textOf_cons]
    rfl
  · apply Fits.append
    · simp only [textOf_cons, Piece.text, List.append_assoc]
      exact hps
    · apply (fits_space _).cons
      refine Fits.cons (fits_sign ("@", .atSign) (by decide) _) ?_
      apply (fits_space _).cons
      apply Fits.cons
      · exact fits_identifier hname hlongest
      · refine Fits.cons (fits_sign (":", .colon) (by decide) _) ?_
        exact (fits_space _).cons hqs
  · obtain ⟨l, hl, hne⟩ := hlist p
    simp only [Token.locate_append, locate]
    exact ⟨_, .aliasedFunction hl rfl rfl rfl (he _), _, _, rfl, hne⟩

end Grammar
end FlakeInputs
