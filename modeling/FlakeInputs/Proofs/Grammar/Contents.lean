import Mathlib.Data.List.Chain
import FlakeInputs.Proofs.Expr.Contents
import FlakeInputs.Proofs.Grammar.Derivation

/-!
# Derivations do not look at the text of strings

When the text of some strings is exchanged, the tokens are phrases of the same symbols, and what
they spell has the text of these strings exchanged and the rest of it moved.  Text next to an
interpolation is dropped if it is empty, so there it may not become empty, nor the other way round.
-/

namespace FlakeInputs

namespace Token

/-- A token after an exchange of string text. -/
def retext (f : Retext) (t : Token) : Token where
  kind := t.kind
  lexeme := if t.kind = .text then f.text t.span t.lexeme else t.lexeme
  span := if t.kind = .text then f.place t.span else f.span t.span

variable {f : Retext} {t : Token}

@[simp]
theorem span_retext (h : t.kind ≠ .text) : (t.retext f).span = f.span t.span :=
  if_neg h

@[simp]
theorem lexeme_retext (h : t.kind ≠ .text) : (t.retext f).lexeme = t.lexeme :=
  if_neg h

theorem span_retext_text (h : t.kind = .text) : (t.retext f).span = f.place t.span :=
  if_pos h

theorem lexeme_retext_text (h : t.kind = .text) :
    (t.retext f).lexeme = f.text t.span t.lexeme :=
  if_pos h

end Token

namespace Grammar

/-- What a phrase spells, with the text of the strings in it exchanged. -/
def Symbol.retext (f : Retext) : (s : Symbol) → s.Val → s.Val
  | .links _ _ _ => List.map fun (op, e) => (op, e.retext f)
  | .arguments | .elements => List.map (Expr.retext f)
  | .interpolation => fun (span, e) => (f.span span, e.retext f)
  | .parts _ => List.map (Part.retext f)
  | .literal _ _ => fun (span, ps) => (f.span span, ps.map (Part.retext f))
  | .key => Key.retext f
  | .pathRest | .names => List.map (Key.retext f)
  | .attrPath => fun (span, path) => (f.span span, path.map (Key.retext f))
  | .keyValue => KeyValue.retext f
  | .binding => Binding.retext f
  | .bindings _ => List.map (Binding.retext f)
  | .attrSet => fun (span, bs) => (f.span span, bs.map (Binding.retext f))
  | .parameter => Parameter.retext f
  | .entries => List.map (Option.map (Parameter.retext f))
  | .parameterList _ => ParameterList.retext f
  | .expr | .levels _ _ | .complemented | .attrTest | .negated | .application | .select
  | .simple => Expr.retext f

/-! ## Trees of operators -/

section
variable (f : Retext)

theorem retext_binary (left : Expr) (op : Operator) (right : Expr) :
    (binary left op right).retext f = binary (left.retext f) op (right.retext f) := by
  simp [binary, Expr.retext, Node.retext]

theorem retext_leftTree (first : Expr) (rest : List (Operator × Expr)) :
    (leftTree first rest).retext f =
      leftTree (first.retext f) (rest.map fun (op, e) => (op, e.retext f)) := by
  induction rest generalizing first with
  | nil => rfl
  | cons item rest ih =>
    obtain ⟨op, right⟩ := item
    change (leftTree (binary first op right) rest).retext f =
      leftTree (binary (first.retext f) op (right.retext f))
        (rest.map fun (op, e) => (op, e.retext f))
    rw [ih, retext_binary]

theorem retext_rightTree (first : Expr) (rest : List (Operator × Expr)) :
    (rightTree first rest).retext f =
      rightTree (first.retext f) (rest.map fun (op, e) => (op, e.retext f)) := by
  induction rest generalizing first with
  | nil => rfl
  | cons item rest ih =>
    obtain ⟨op, right⟩ := item
    exact (retext_binary f _ _ _).trans (by rw [ih]; rfl)

theorem retext_tree (level : Level) (first : Expr) (rest : List (Operator × Expr)) :
    (level.tree first rest).retext f =
      level.tree (first.retext f) (rest.map fun (op, e) => (op, e.retext f)) := by
  unfold Level.tree
  cases level.grouping with
  | leftward | single => exact retext_leftTree f first rest
  | rightward => exact retext_rightTree f first rest

theorem retext_applyAll (function : Expr) (arguments : List Expr) :
    (applyAll function arguments).retext f =
      applyAll (function.retext f) (arguments.map (Expr.retext f)) := by
  induction arguments generalizing function with
  | nil => rfl
  | cons a arguments ih =>
    refine (ih _).trans ?_
    simp [applyAll, Expr.retext, Node.retext]

theorem lastSpan_retext (first : Key) (rest : List Key) :
    lastSpan (first.retext f) (rest.map (Key.retext f)) = f.span (lastSpan first rest) := by
  unfold lastSpan
  rw [List.getLast?_map]
  cases rest.getLast? <;> simp

end

/-! ## Where text may be exchanged -/

/-- Whether the text of a token is empty when it is exchanged, but not before, or the other way
round. -/
def Turns (f : Retext) (t : Token) : Prop :=
  t.kind = .text ∧ (f.text t.span t.lexeme).isEmpty ≠ t.lexeme.isEmpty

/-- Text that becomes empty, or that was empty, stands alone between two quotes. -/
def Spaced (f : Retext) (p : List Token) : Prop :=
  p.IsChain fun s t => (Turns f t → s.kind = .indentQuote) ∧ (Turns f s → t.kind = .indentQuote)

section
variable {f : Retext} {p q : List Token} {t : Token}

theorem Spaced.tail (h : Spaced f (t :: p)) : Spaced f p :=
  List.IsChain.tail h

theorem Spaced.left (h : Spaced f (p ++ q)) : Spaced f p :=
  List.IsChain.left_of_append h

theorem Spaced.right (h : Spaced f (p ++ q)) : Spaced f q :=
  List.IsChain.right_of_append h

theorem spaced_of_not_turns (h : ∀ t ∈ p, ¬Turns f t) : Spaced f p := by
  induction p with
  | nil => exact .nil
  | cons s p ih =>
    have hp := ih fun t ht => h t (List.mem_cons_of_mem s ht)
    cases p with
    | nil => exact .singleton s
    | cons t p =>
      refine List.isChain_cons_cons.2 ⟨⟨fun hturns => ?_, fun hturns => ?_⟩, hp⟩
      · exact absurd hturns (h t (by simp))
      · exact absurd hturns (h s List.mem_cons_self)

/-- All text stays but what stands alone between two quotes. -/
theorem spaced_of_alone {opening closing : Token} (hopening : opening.kind = .indentQuote)
    (hclosing : closing.kind = .indentQuote) (hp : ∀ s ∈ p ++ [opening], ¬Turns f s)
    (hq : ∀ s ∈ closing :: q, ¬Turns f s) : Spaced f (p ++ opening :: t :: closing :: q) := by
  refine List.isChain_split.2 ⟨spaced_of_not_turns hp, ?_⟩
  have hbehind : Spaced f (t :: closing :: q) :=
    List.isChain_cons_cons.2 ⟨⟨fun h => absurd h (hq closing List.mem_cons_self),
      fun _ => hclosing⟩, spaced_of_not_turns hq⟩
  exact List.isChain_cons_cons.2 ⟨⟨fun _ => hopening, fun h => absurd h (hp opening (by simp))⟩,
    hbehind⟩

theorem isEmpty_retext_of_not_turns (ht : t.kind = .text) (h : ¬Turns f t) :
    ((Part.text t.span t.lexeme).retext f).isEmpty = (Part.text t.span t.lexeme).isEmpty := by
  by_contra hne
  exact h ⟨ht, hne⟩

/-- No part is written without a token. -/
theorem Derives.eq_nil_of_parts {delimiter : TokenKind} {parts : List Part}
    (h : Derives (.parts delimiter) [] parts) : parts = [] := by
  generalize hp : ([] : List Token) = p at h
  cases h with
  | noPart => rfl
  | textPart => cases hp
  | interpolationPart h =>
    obtain ⟨rfl, -⟩ := List.append_eq_nil_iff.1 hp.symm
    exact absurd h.begins (by decide)

/-- Text that is neither empty nor becomes so keeps its place in a string, and so does text that
has the string for itself. -/
theorem Derives.parts_kept {delimiter : TokenKind} {parts : List Part}
    (h : Derives (.parts delimiter) p parts) (hp : Spaced f p) :
    (∃ t, p = [t] ∧ t.kind = .text ∧ parts = [.text t.span t.lexeme]) ∨
      ∀ x ∈ parts, (x.retext f).isEmpty = x.isEmpty := by
  induction parts generalizing p with
  | nil => exact .inr (by simp)
  | cons part parts ih =>
    cases h with
    | @textPart _ t q _ ht hrest =>
      rcases ih hrest hp.tail with ⟨t', rfl, ht', rfl⟩ | hall
      · obtain ⟨hturns', hturns⟩ := List.isChain_pair.1 hp
        have hkept := isEmpty_retext_of_not_turns ht fun h => by simpa [ht'] using hturns h
        have hkept' := isEmpty_retext_of_not_turns ht' fun h => by simpa [ht] using hturns' h
        exact .inr (by simpa using ⟨hkept, hkept'⟩)
      · cases q with
        | nil =>
          obtain rfl := hrest.eq_nil_of_parts
          exact .inl ⟨t, rfl, ht, rfl⟩
        | cons s q =>
          have hbegins := hrest.begins
          have hkept := isEmpty_retext_of_not_turns ht fun h => by
            have hs := (List.isChain_cons_cons.1 hp).1.2 h
            simp [Symbol.begins, hs] at hbegins
          refine .inr fun x hx => ?_
          rcases List.mem_cons.1 hx with rfl | hx
          · exact hkept
          · exact hall x hx
    | @interpolationPart _ p q span e _ hinterpolation hrest =>
      rcases ih hrest hp.right with ⟨t, rfl, ht, rfl⟩ | hall
      · cases hinterpolation with
        | @interpolation opening closing p _ _ _ hclosing =>
          have hpair : Spaced f ((opening :: p) ++ [closing, t]) := by simpa using hp
          have hkept := isEmpty_retext_of_not_turns ht fun h => by
            simpa [hclosing] using (List.isChain_pair.1 hpair.right).1 h
          exact .inr (by simpa [Part.retext, Part.isEmpty] using hkept)
      · refine .inr fun x hx => ?_
        rcases List.mem_cons.1 hx with rfl | hx
        · rfl
        · exact hall x hx

theorem Derives.compact_retext {delimiter : TokenKind} {parts : List Part}
    (h : Derives (.parts delimiter) p parts) (hp : Spaced f p) :
    (Part.compact parts).map (Part.retext f) = Part.compact (parts.map (Part.retext f)) := by
  rcases h.parts_kept hp with ⟨t, rfl, -, rfl⟩ | hall
  · rw [List.map_singleton, Part.compact_singleton, Part.compact_singleton, List.map_singleton]
  · exact Part.map_compact hall

end

/-! ## The same phrases -/

theorem retext_whole (f : Retext) (list : ParameterList) (whole? : Option Text) :
    ({ list with whole? } : ParameterList).retext f = { list.retext f with whole? } := by
  cases list
  rfl

theorem filterMap_retext (f : Retext) (entries : List (Option Parameter)) :
    (entries.map (Option.map (Parameter.retext f))).filterMap id =
      (entries.filterMap id).map (Parameter.retext f) := by
  rw [List.filterMap_map, List.map_filterMap]
  congr 1

theorem any_isNone_retext (f : Retext) (entries : List (Option Parameter)) :
    (entries.map (Option.map (Parameter.retext f))).any Option.isNone =
      entries.any Option.isNone := by
  rw [List.any_map]
  congr 1
  funext x
  cases x <;> rfl

/-- Whether the quotes of a symbol are told from string text. -/
def Symbol.quoting : Symbol → Prop
  | .literal delimiter _ => delimiter ≠ .text
  | _ => True

attribute [local simp] Symbol.retext Expr.retext Node.retext Head.retext Part.retext Key.retext
  KeyValue.retext Binding.retext Parameter.retext

/-- With the text of strings exchanged, the tokens are a phrase of the same symbol, and spell the
same with the text of the strings in it exchanged. -/
def Retexts (f : Retext) (s : Symbol) (p : List Token) (v : s.Val) : Prop :=
  s.quoting → Spaced f p → Derives s (p.map (Token.retext f)) (s.retext f v)

namespace Retexts

variable {f : Retext} {p q r : List Token}

theorem kept {t : Token} {kind : TokenKind} (h : t.kind = kind) : (t.retext f).kind = kind := h

/-! ### Functions and conditionals -/

section
variable {name atSign colon : Token} {list : ParameterList} {body : Expr}

theorem simpleFunction (hname : name.kind = .identifier) (hcolon : colon.kind = .colon)
    (ih : Retexts f .expr p body) :
    Retexts f .expr (name :: colon :: p)
      ⟨name.span.join body.span, .function (.simple name.span name.lexeme) body⟩ := by
  intro _ hp
  simpa [hname, hcolon] using
    Derives.simpleFunction (kept hname) (kept hcolon) (ih trivial hp.tail.tail)

theorem namedFunction (hname : name.kind = .identifier) (hat : atSign.kind = .atSign)
    (hcolon : colon.kind = .colon) (ih : Retexts f (.parameterList (some name.lexeme)) p list)
    (ih' : Retexts f .expr q body) :
    Retexts f .expr (name :: atSign :: (p ++ colon :: q))
      ⟨name.span.join body.span, .function (.destructured list) body⟩ := by
  intro _ hp
  have hlist : Derives (.parameterList (some (name.retext f).lexeme)) (p.map (Token.retext f))
      (list.retext f) := by
    rw [Token.lexeme_retext (by simp [hname])]
    exact ih trivial hp.tail.tail.left
  simpa [hname, hat, hcolon] using Derives.namedFunction (kept hname) (kept hat) hlist
    (kept hcolon) (ih' trivial hp.tail.tail.right.tail)

theorem listFunction (hcolon : colon.kind = .colon) (ih : Retexts f (.parameterList none) p list)
    (ih' : Retexts f .expr q body) :
    Retexts f .expr (p ++ colon :: q)
      ⟨list.span.join body.span, .function (.destructured { list with whole? := none }) body⟩ := by
  intro _ hp
  simpa [hcolon, retext_whole] using
    Derives.listFunction (ih trivial hp.left) (kept hcolon) (ih' trivial hp.right.tail)

theorem aliasedFunction (hat : atSign.kind = .atSign) (hname : name.kind = .identifier)
    (hcolon : colon.kind = .colon) (ih : Retexts f (.parameterList none) p list)
    (ih' : Retexts f .expr q body) :
    Retexts f .expr (p ++ atSign :: name :: colon :: q)
      ⟨list.span.join body.span,
        .function (.destructured { list with whole? := some name.lexeme }) body⟩ := by
  intro _ hp
  simpa [hat, hname, hcolon, retext_whole] using Derives.aliasedFunction (ih trivial hp.left)
    (kept hat) (kept hname) (kept hcolon) (ih' trivial hp.right.tail.tail.tail)

theorem conditional {word thenWord elseWord : Token} {condition yes no : Expr}
    (hword : word.kind = .keyword .ifWord) (hthen : thenWord.kind = .keyword .thenWord)
    (helse : elseWord.kind = .keyword .elseWord) (ih : Retexts f .expr p condition)
    (ih' : Retexts f .expr q yes) (ih'' : Retexts f .expr r no) :
    Retexts f .expr (word :: (p ++ thenWord :: (q ++ elseWord :: r)))
      ⟨word.span.join no.span, .ifThenElse condition yes no⟩ := by
  intro _ hp
  simpa [hword, hthen, helse] using Derives.conditional (kept hword) (ih trivial hp.tail.left)
    (kept hthen) (ih' trivial hp.tail.right.tail.left) (kept helse)
    (ih'' trivial hp.tail.right.tail.right.tail)

end

/-! ### Operators and selections -/

theorem link {tower : Tower} {level : Level} {table : List Level} {op : Operator} {sign : Token}
    {right : Expr} {rest : List (Operator × Expr)} (hsign : sign.kind = .operator op)
    (hop : op ∈ level.operators) (hsingle : level.grouping = .single → q = [])
    (ih : Retexts f (.levels tower table) p right)
    (ih' : Retexts f (.links tower level table) q rest) :
    Retexts f (.links tower level table) (sign :: (p ++ q)) ((op, right) :: rest) := by
  intro _ hp
  simpa [hsign] using
    Derives.link (kept hsign) hop (ih trivial hp.tail.left) (ih' trivial hp.tail.right)
      fun hgrouping => by rw [hsingle hgrouping, List.map_nil]

theorem selectionOr {dot orWord : Token} {source default : Expr} {span : Span} {path : List Key}
    (hdot : dot.kind = .dot) (hor : orWord.kind = .keyword .orWord)
    (ih : Retexts f .simple p source) (ih' : Retexts f .attrPath q (span, path))
    (ih'' : Retexts f .select r default) :
    Retexts f .select (p ++ dot :: (q ++ orWord :: r))
      ⟨source.span.join default.span, .select source path (some default)⟩ := by
  intro _ hp
  simpa [hdot, hor] using Derives.selectionOr (ih trivial hp.left) (kept hdot)
    (ih' trivial hp.right.tail.left) (kept hor) (ih'' trivial hp.right.tail.right.tail)

/-! ### Numbers and strings -/

theorem integer {t : Token} (ht : t.kind = .integer)
    (hlength : t.lexeme.length ≤ maxIntegerDigits) :
    Retexts f .simple [t] ⟨t.span, .integer (digitsValue t.lexeme)⟩ := by
  intro _ _
  have hdigits : (t.retext f).lexeme.length ≤ maxIntegerDigits := by simpa [ht] using hlength
  simpa [ht] using Derives.integer (kept ht) hdigits

theorem textPart {delimiter : TokenKind} {t : Token} {parts : List Part} (ht : t.kind = .text)
    (ih : Retexts f (.parts delimiter) q parts) :
    Retexts f (.parts delimiter) (t :: q) (.text t.span t.lexeme :: parts) := by
  intro _ hp
  have htext : Derives (.parts delimiter) (t.retext f :: q.map (Token.retext f))
      (.text (t.retext f).span (t.retext f).lexeme :: parts.map (Part.retext f)) :=
    .textPart (kept ht) (ih trivial hp.tail)
  rwa [Token.span_retext_text ht, Token.lexeme_retext_text ht] at htext

theorem literal {delimiter : TokenKind} {expected : Expected} {opening closing : Token}
    {parts : List Part} (hopening : opening.kind = delimiter)
    (hparts : Derives (.parts delimiter) p parts) (hclosing : closing.kind = delimiter)
    (ih : Retexts f (.parts delimiter) p parts) :
    Retexts f (.literal delimiter expected) (opening :: (p ++ [closing]))
      (opening.span.join closing.span, Part.compact parts) := by
  intro hs hp
  have hends : opening.kind ≠ .text ∧ closing.kind ≠ .text := by
    rw [hopening, hclosing, and_self]
    exact hs
  have hliteral : Derives (.literal delimiter expected)
      (opening.retext f :: (p.map (Token.retext f) ++ [closing.retext f]))
      ((opening.retext f).span.join (closing.retext f).span,
        Part.compact (parts.map (Part.retext f))) :=
    .literal (kept hopening) (ih trivial hp.tail.left) (kept hclosing)
  rw [← hparts.compact_retext hp.tail.left] at hliteral
  simpa [hends] using hliteral

/-! ### Keys, bindings and parameters -/

section
variable {word opening closing semicolon : Token}

theorem bareKey {t : Token} (ht : t.kind = .identifier ∨ t.kind = .keyword .orWord) :
    Retexts f .key [t] (.bare t.span t.lexeme) := by
  intro _ _
  have hne : t.kind ≠ .text := by rcases ht with ht | ht <;> rw [ht] <;> decide
  have hkept : (t.retext f).kind = .identifier ∨ (t.retext f).kind = .keyword .orWord := ht
  simpa [hne] using Derives.bareKey hkept

theorem keyValue {assign : Token} {span : Span} {path : List Key} {value : Expr}
    (hassign : assign.kind = .assign) (hsemicolon : semicolon.kind = .semicolon)
    (ih : Retexts f .attrPath p (span, path)) (ih' : Retexts f .expr q value) :
    Retexts f .keyValue (p ++ assign :: (q ++ [semicolon]))
      ⟨span.join semicolon.span, path, value⟩ := by
  intro _ hp
  simpa [hassign, hsemicolon] using Derives.keyValue (ih trivial hp.left) (kept hassign)
    (ih' trivial hp.right.tail.left) (kept hsemicolon)

theorem inheritedFrom {source : Expr} {names : List Key}
    (hword : word.kind = .keyword .inheritWord) (hopening : opening.kind = .parenOpen)
    (hclosing : closing.kind = .parenClose) (hsemicolon : semicolon.kind = .semicolon)
    (ih : Retexts f .expr p source) (ih' : Retexts f .names q names) :
    Retexts f .binding (word :: opening :: (p ++ closing :: (q ++ [semicolon])))
      (.inherited (word.span.join semicolon.span) names (some source)) := by
  intro _ hp
  simpa [hword, hopening, hclosing, hsemicolon] using
    Derives.inheritedFrom (kept hword) (kept hopening) (ih trivial hp.tail.tail.left)
      (kept hclosing) (ih' trivial hp.tail.tail.right.tail.left) (kept hsemicolon)

theorem parameterList {whole? : Option Text} {entries : List (Option Parameter)}
    (hopening : opening.kind = .braceOpen) (hclosing : closing.kind = .braceClose)
    (ih : Retexts f .entries p entries) :
    Retexts f (.parameterList whole?) (opening :: (p ++ [closing]))
      ⟨opening.span.join closing.span, entries.filterMap id, entries.any Option.isNone,
        whole?⟩ := by
  intro _ hp
  have hlist : Derives (.parameterList whole?)
      (opening.retext f :: (p.map (Token.retext f) ++ [closing.retext f]))
      ⟨(opening.retext f).span.join (closing.retext f).span, _, _, whole?⟩ :=
    .parameterList (kept hopening) (ih trivial hp.tail.left) (kept hclosing)
  simp only [Symbol.retext] at hlist
  rw [filterMap_retext, any_isNone_retext] at hlist
  simpa [hopening, hclosing, ParameterList.retext] using hlist

end

end Retexts

open Retexts (kept)

/-- The text of strings can be exchanged in every phrase. -/
theorem Derives.retext {s : Symbol} {p : List Token} {v : s.Val} (h : Derives s p v) (f : Retext)
    (hs : s.quoting) (hp : Spaced f p) : Derives s (p.map (Token.retext f)) (s.retext f v) := by
  induction h with
  | noLink | noArgument | noElement | noPart | pathEnd | noName | noBinding | noEntry => constructor
  | simpleFunction hname hcolon _ ih => exact Retexts.simpleFunction hname hcolon ih trivial hp
  | namedFunction hname hat _ hcolon _ ih ih' =>
    exact Retexts.namedFunction hname hat hcolon ih ih' trivial hp
  | listFunction _ hcolon _ ih ih' => exact Retexts.listFunction hcolon ih ih' trivial hp
  | aliasedFunction _ hat hname hcolon _ ih ih' =>
    exact Retexts.aliasedFunction hat hname hcolon ih ih' trivial hp
  | assertion hword _ hmiddle _ ih ih' =>
    simpa [hword, hmiddle] using Derives.assertion (kept hword) (ih trivial hp.tail.left)
      (kept hmiddle) (ih' trivial hp.tail.right.tail)
  | withScope hword _ hmiddle _ ih ih' =>
    simpa [hword, hmiddle] using Derives.withScope (kept hword) (ih trivial hp.tail.left)
      (kept hmiddle) (ih' trivial hp.tail.right.tail)
  | letIn hword _ hmiddle _ ih ih' =>
    simpa [hword, hmiddle] using Derives.letIn (kept hword) (ih trivial hp.tail.left)
      (kept hmiddle) (ih' trivial hp.tail.right.tail)
  | conditional hword _ hthen _ helse _ ih ih' ih'' =>
    exact Retexts.conditional hword hthen helse ih ih' ih'' trivial hp
  | operation _ ih => exact .operation (ih trivial hp)
  | complementedBase _ ih => exact .complementedBase (ih trivial hp)
  | attrTestBase _ ih => exact .attrTestBase (ih trivial hp)
  | uncomplemented _ ih => exact .uncomplemented (ih trivial hp)
  | untested _ ih => exact .untested (ih trivial hp)
  | unnegated _ ih => exact .unnegated (ih trivial hp)
  | unselected _ ih => exact .unselected (ih trivial hp)
  | chain _ _ ih ih' =>
    simpa [retext_tree] using Derives.chain (ih trivial hp.left) (ih' trivial hp.right)
  | link hsign hop _ _ hsingle ih ih' => exact Retexts.link hsign hop hsingle ih ih' trivial hp
  | complement hsign _ ih =>
    simpa [hsign] using Derives.complement (kept hsign) (ih trivial hp.tail)
  | hasAttr _ hsign _ ih ih' =>
    simpa [hsign] using Derives.hasAttr (ih trivial hp.left) (kept hsign)
      (ih' trivial hp.right.tail)
  | negate hsign _ ih => simpa [hsign] using Derives.negate (kept hsign) (ih trivial hp.tail)
  | apply _ _ ih ih' =>
    simpa [retext_applyAll] using Derives.apply (ih trivial hp.left) (ih' trivial hp.right)
  | argument _ _ ih ih' => simpa using Derives.argument (ih trivial hp.left) (ih' trivial hp.right)
  | selection _ hdot _ ih ih' =>
    simpa [hdot] using
      Derives.selection (ih trivial hp.left) (kept hdot) (ih' trivial hp.right.tail)
  | selectionOr _ hdot _ hor _ ih ih' ih'' =>
    exact Retexts.selectionOr hdot hor ih ih' ih'' trivial hp
  | identifier ht => simpa [ht] using Derives.identifier (kept ht)
  | integer ht hlength => exact Retexts.integer ht hlength trivial hp
  | float ht => simpa [ht] using Derives.float (kept ht)
  | path ht => simpa [ht] using Derives.path (kept ht)
  | searchPath ht => simpa [ht] using Derives.searchPath (kept ht)
  | uri ht => simpa [ht] using Derives.uri (kept ht)
  | string _ ih => simpa using Derives.string (ih (by simp [Symbol.quoting]) hp)
  | indentedString _ ih => simpa using Derives.indentedString (ih (by simp [Symbol.quoting]) hp)
  | parenthesised hopening _ hclosing ih =>
    simpa [hopening, hclosing] using
      Derives.parenthesised (kept hopening) (ih trivial hp.tail.left) (kept hclosing)
  | recSet hword _ ih => simpa [hword] using Derives.recSet (kept hword) (ih trivial hp.tail)
  | map _ ih => simpa using Derives.map (ih trivial hp)
  | list hopening _ hclosing ih =>
    simpa [hopening, hclosing] using
      Derives.list (kept hopening) (ih trivial hp.tail.left) (kept hclosing)
  | element _ _ ih ih' => simpa using Derives.element (ih trivial hp.left) (ih' trivial hp.right)
  | interpolation hopening _ hclosing ih =>
    simpa [hopening, hclosing] using
      Derives.interpolation (kept hopening) (ih trivial hp.tail.left) (kept hclosing)
  | textPart ht _ ih => exact Retexts.textPart ht ih trivial hp
  | interpolationPart _ _ ih ih' =>
    simpa using Derives.interpolationPart (ih trivial hp.left) (ih' trivial hp.right)
  | literal hopening hparts hclosing ih => exact Retexts.literal hopening hparts hclosing ih hs hp
  | bareKey ht => exact Retexts.bareKey ht trivial hp
  | quotedKey _ ih => simpa using Derives.quotedKey (ih (by simp [Symbol.quoting]) hp)
  | computedKey _ ih => simpa using Derives.computedKey (ih trivial hp)
  | pathStep hdot _ _ ih ih' =>
    simpa [hdot] using
      Derives.pathStep (kept hdot) (ih trivial hp.tail.left) (ih' trivial hp.tail.right)
  | attrPath _ _ ih ih' =>
    simpa [lastSpan_retext] using Derives.attrPath (ih trivial hp.left) (ih' trivial hp.right)
  | name _ _ ih ih' => simpa using Derives.name (ih trivial hp.left) (ih' trivial hp.right)
  | keyValue _ hassign _ hsemicolon ih ih' =>
    exact Retexts.keyValue hassign hsemicolon ih ih' trivial hp
  | keyValueBinding _ ih => simpa using Derives.keyValueBinding (ih trivial hp)
  | inherited hword _ hsemicolon ih =>
    simpa [hword, hsemicolon] using
      Derives.inherited (kept hword) (ih trivial hp.tail.left) (kept hsemicolon)
  | inheritedFrom hword hopening _ hclosing _ hsemicolon ih ih' =>
    exact Retexts.inheritedFrom hword hopening hclosing hsemicolon ih ih' trivial hp
  | bindings _ _ ih ih' => simpa using Derives.bindings (ih trivial hp.left) (ih' trivial hp.right)
  | attrSet hopening _ hclosing ih =>
    simpa [hopening, hclosing] using
      Derives.attrSet (kept hopening) (ih trivial hp.tail.left) (kept hclosing)
  | parameter hname => simpa [hname] using Derives.parameter (kept hname)
  | parameterOr hname hquestion _ ih =>
    simpa [hname, hquestion] using
      Derives.parameterOr (kept hname) (kept hquestion) (ih trivial hp.tail.tail)
  | ellipsis ht => simpa [ht] using Derives.ellipsis (kept ht)
  | lastEntry _ ih => simpa using Derives.lastEntry (ih trivial hp)
  | entry _ hcomma _ ih ih' =>
    simpa [hcomma] using
      Derives.entry (ih trivial hp.left) (kept hcomma) (ih' trivial hp.right.tail)
  | parameterList hopening _ hclosing ih =>
    exact Retexts.parameterList hopening hclosing ih trivial hp

end Grammar
end FlakeInputs
