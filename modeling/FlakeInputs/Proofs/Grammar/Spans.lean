import FlakeInputs.Proofs.Edit.Threading
import FlakeInputs.Proofs.Grammar.Faults
import FlakeInputs.Proofs.Grammar.Layout
import FlakeInputs.Proofs.Outcome

/-!
# Spans

Every node of a syntax tree covers a stretch of the text that it was read from.  The stretches of
its children lie in it, one behind the other.  When a text cannot be read, the error points to a
stretch of the text, too.
-/

namespace FlakeInputs

open Scan (Piece Mode textOf textOf_append textOf_cons kinds modesBehind)

/-! ## Tokens and their pieces -/

namespace Token

/-- The piece of a token. -/
def piece (t : Token) : Piece :=
  .token t.kind t.lexeme

/-- The pieces of some tokens, with those before and behind them. -/
theorem exists_pieces {p : Position} {ps : List Piece} {a q b : List Token}
    (h : locate p ps = a ++ (q ++ b)) (hq : q ≠ []) :
    ∃ us ts vs, ps = us ++ (ts ++ vs) ∧ locate p us = a ∧
      locate (p.after (textOf us)) ts = q ∧ locate (p.after (textOf (us ++ ts))) vs = b ∧
      Grammar.Frames q ⟨p.after (textOf us), p.after (textOf (us ++ ts))⟩ ∧
      ts.head? = q.head?.map piece ∧ ts.getLast? = q.getLast?.map piece := by
  -- The first token shows where the stretch begins, the last one where it ends.
  obtain ⟨us, xs, rfl, hus, hxs, hstart, hhead⟩ : ∃ us xs, ps = us ++ xs ∧ locate p us = a ∧
      locate (p.after (textOf us)) xs = q ++ b ∧ Grammar.StartsAt q (p.after (textOf us)) ∧
      xs.head? = q.head?.map piece := by
    obtain ⟨t, q, rfl⟩ := List.exists_cons_of_ne_nil hq
    obtain ⟨us, rs, rfl, hus, hspan, hrs⟩ := locate_eq_append h
    refine ⟨us, _, rfl, hus, ?_, ?_, rfl⟩
    · rw [hspan] at hrs
      rw [locate, hrs, ← hspan]
      rfl
    · simp [Grammar.StartsAt, hspan]
  obtain ⟨q, t, rfl⟩ : ∃ q' t, q = q' ++ [t] := ⟨_, _, (List.dropLast_concat_getLast hq).symm⟩
  rw [List.append_assoc, List.singleton_append] at hxs
  obtain ⟨ts, vs, rfl, hts, hspan, hvs⟩ := locate_eq_append hxs
  have hstop : t.span.stop = p.after (textOf (us ++ (ts ++ [t.piece]))) := by
    rw [hspan, textOf_append, textOf_append]
    simp [piece]
  refine ⟨us, ts ++ [t.piece], vs, by simp [piece], hus, ?_, ?_, ⟨hstart, ?_⟩, ?_, by simp⟩
  · rw [locate_append, hts, piece, locate, locate, ← hspan]
  · rw [← hstop, hvs]
  · rw [← hstop]
    exact Grammar.endsAt_concat q t
  · rw [← hhead]
    cases ts <;> rfl

end Token

namespace Grammar

/-! ## Nodes and their pieces -/

/-- The position behind some pieces at the beginning of a text. -/
def positionBehind (us : List Piece) : Position :=
  Position.start.after (textOf us)

/-- The tokens among some pieces with others in front of them. -/
def tokensBehind (us ts : List Piece) : List Token :=
  Token.locate (positionBehind us) ts

/-- The pieces `ts`, with the pieces `us` in front of them, are those of the node `x`. -/
structure Placed (us ts : List Piece) (x : Subtree) : Prop where
  span_eq : x.span = ⟨positionBehind us, positionBehind (us ++ ts)⟩
  formed : Formed (modesBehind [] (kinds us)) (tokensBehind us ts) x
  laid : Laid (modesBehind [] (kinds us)) (tokensBehind us ts) x.children
  first : ts.head? = (tokensBehind us ts).head?.map Token.piece
  last : ts.getLast? = (tokensBehind us ts).getLast?.map Token.piece

/-- The nodes have their pieces among `ps`, one behind the other, with the pieces `us` in front of
them all. -/
def InRow : List Piece → List Piece → List Subtree → Prop
  | _, _, [] => True
  | us, ps, x :: xs =>
    ∃ bs ts vs, ps = bs ++ (ts ++ vs) ∧ Placed (us ++ bs) ts x ∧ InRow (us ++ (bs ++ ts)) vs xs

theorem behind_tokens (us ps : List Piece) :
    behind (modesBehind [] (kinds us)) (tokensBehind us ps) =
      modesBehind [] (kinds (us ++ ps)) := by
  rw [behind, tokensBehind, Scan.map_kind_locate, ← Scan.modesBehind_append, ← Scan.kinds_append]

theorem positionBehind_append (us ts : List Piece) :
    positionBehind (us ++ ts) = (positionBehind us).after (textOf ts) := by
  rw [positionBehind, textOf_append, Position.after_append]
  rfl

/-- Nodes that are laid out in the tokens among some pieces have their pieces among them. -/
theorem Laid.inRow {m : List Mode} {p : List Token} {xs : List Subtree} (h : Laid m p xs)
    {us ps : List Piece} (hm : m = modesBehind [] (kinds us)) (hp : tokensBehind us ps = p) :
    InRow us ps xs := by
  induction h generalizing us ps with
  | nil => trivial
  | @cons m p q r x xs hstart hstop hformed hchildren _ _ ih =>
    subst hm
    obtain ⟨bs, ts, vs, rfl, rfl, hts, hvs, hframes, hhead, hlast⟩ :=
      Token.exists_pieces hp hstart.ne_nil
    rw [← positionBehind_append] at hts hframes
    rw [← positionBehind_append, ← List.append_assoc] at hframes hvs
    subst hts
    have hspan : x.span = ⟨positionBehind (us ++ bs), positionBehind (us ++ bs ++ ts)⟩ := by
      have hfirst := Option.some.inj (hstart.symm.trans hframes.start)
      have hfinal := Option.some.inj (hstop.symm.trans hframes.stop)
      cases hx : x.span
      simp_all
    have hmodes : behind (modesBehind [] (kinds us)) (tokensBehind us bs) =
        modesBehind [] (kinds (us ++ bs)) := behind_tokens us bs
    refine ⟨bs, ts, vs, rfl, ⟨hspan, hmodes ▸ hformed, hmodes ▸ hchildren, hhead, hlast⟩, ?_⟩
    refine ih ?_ ?_
    · rw [behind_append]
      change behind (behind _ (tokensBehind us bs)) (tokensBehind (us ++ bs) ts) = _
      rw [hmodes, behind_tokens, List.append_assoc]
    · rw [← hvs, tokensBehind, List.append_assoc]

theorem InRow.exists_placed {us ps : List Piece} {x : Subtree} {xs : List Subtree}
    (h : InRow us ps xs) (hx : x ∈ xs) :
    ∃ bs ts vs, ps = bs ++ (ts ++ vs) ∧ Placed (us ++ bs) ts x := by
  induction xs generalizing us ps with
  | nil => simp at hx
  | cons y ys ih =>
    obtain ⟨bs, ts, vs, rfl, hplaced, hrest⟩ := h
    rcases List.mem_cons.1 hx with rfl | hx
    · exact ⟨bs, ts, vs, rfl, hplaced⟩
    · obtain ⟨bs', ts', vs', rfl, hplaced'⟩ := ih hrest hx
      refine ⟨bs ++ ts ++ bs', ts', vs', by simp only [List.append_assoc], ?_⟩
      simpa only [List.append_assoc] using hplaced'

/-- The children of a node have their pieces among those of the node. -/
theorem Placed.inRow {us ts : List Piece} {x : Subtree} (h : Placed us ts x) :
    InRow us ts x.children :=
  h.laid.inRow rfl rfl

/-- A node of a syntax tree has pieces of its own. -/
theorem Derives.exists_placed {ps : List Piece} {e : Expr} {x : Subtree}
    (h : Derives .expr (Token.locate .start ps) e) (hx : (Subtree.expr e).Contains x) :
    ∃ us ts vs, ps = us ++ (ts ++ vs) ∧ Placed us ts x := by
  refine hx.induct (P := fun x => ∃ us ts vs, ps = us ++ (ts ++ vs) ∧ Placed us ts x) ?_ ?_
  · have hroot : InRow [] ps [.expr e] := (h.phrase (m := []) rfl).laid.inRow rfl rfl
    exact hroot.exists_placed List.mem_cons_self
  · rintro y z ⟨us, ts, vs, rfl, hplaced⟩ hz
    obtain ⟨bs, ts', vs', rfl, hchild⟩ := hplaced.inRow.exists_placed hz
    exact ⟨us ++ bs, ts', vs' ++ vs, by simp only [List.append_assoc], hchild⟩

/-! ## Offsets -/

/-- The spans lie between two offsets of a text, one behind the other. -/
def InOrder (text : Text) : Nat → List Span → Nat → Prop
  | lower, [], upper => lower ≤ upper
  | lower, span :: spans, upper =>
    ∃ start stop, Edit.offsetsOf text span = .ok (start, stop) ∧ lower ≤ start ∧ start ≤ stop ∧
      InOrder text stop spans upper

theorem offsetsOf_positionBehind (us ts vs : List Piece) :
    Edit.offsetsOf (textOf (us ++ (ts ++ vs))) ⟨positionBehind us, positionBehind (us ++ ts)⟩ =
      .ok ((textOf us).length, (textOf (us ++ ts)).length) := by
  have hoffsets := Edit.offsetsOf_after (textOf us) (textOf ts) (textOf vs)
  rw [positionBehind_append, textOf_append, textOf_append]
  rw [textOf_append, List.length_append]
  exact hoffsets

theorem Placed.offsets {us ts : List Piece} {x : Subtree} (h : Placed us ts x) (vs : List Piece) :
    Edit.offsetsOf (textOf (us ++ (ts ++ vs))) x.span =
      .ok ((textOf us).length, (textOf (us ++ ts)).length) := by
  rw [h.span_eq]
  exact offsetsOf_positionBehind us ts vs

theorem length_textOf_le (us ts : List Piece) :
    (textOf us).length ≤ (textOf (us ++ ts)).length := by
  rw [textOf_append, List.length_append]
  exact Nat.le_add_right _ _

theorem InRow.inOrder {us ps : List Piece} {xs : List Subtree} (h : InRow us ps xs)
    (vs : List Piece) :
    InOrder (textOf (us ++ (ps ++ vs))) (textOf us).length (xs.map Subtree.span)
      (textOf (us ++ ps)).length := by
  induction xs generalizing us ps with
  | nil => exact length_textOf_le us ps
  | cons x xs ih =>
    obtain ⟨bs, ts, ws, rfl, hplaced, hrest⟩ := h
    have hoffsets := hplaced.offsets (ws ++ vs)
    have hbehind := ih hrest
    simp only [List.append_assoc] at hoffsets hbehind ⊢
    refine ⟨_, _, hoffsets, length_textOf_le us bs, ?_, hbehind⟩
    rw [← List.append_assoc]
    exact length_textOf_le (us ++ bs) ts

theorem slice_textOf (us ts vs : List Piece) :
    (textOf (us ++ (ts ++ vs))).slice (textOf us).length (textOf (us ++ ts)).length =
      textOf ts := by
  rw [textOf_append, textOf_append, textOf_append, List.length_append]
  exact Edit.slice_append _ _ _

/-! ## Delimiters -/

/-- A binding begins with its first key and ends with the semicolon behind its value. -/
structure Terminated (tokens : List Token) (slice : Text) (b : KeyValue) : Prop where
  first : ∃ k ks, b.path = k :: ks ∧ k.span.start = b.span.start
  tokens_eq : ∃ before p span assign q semicolon after,
    tokens = before ++ (p ++ assign :: (q ++ semicolon :: after)) ∧
      Derives .attrPath p (span, b.path) ∧ assign.kind = .assign ∧ Derives .expr q b.value ∧
      semicolon.kind = .semicolon ∧ b.span.stop = semicolon.span.stop
  last : slice.getLast? = some ';'

/-- A set ends with the brace behind its bindings. -/
structure Braced (tokens : List Token) (slice : Text) (span : Span) (bindings : List Binding) :
    Prop where
  tokens_eq : ∃ before opening q closing after,
    tokens = before ++ opening :: (q ++ closing :: after) ∧ opening.kind = .braceOpen ∧
      Derives (.bindings .braceClose) q bindings ∧ closing.kind = .braceClose ∧
      span.stop = closing.span.stop
  last : slice.getLast? = some '}'

/-- A parameter list begins with a brace and ends with the brace that closes it. -/
structure Listed (tokens : List Token) (slice : Text) (list : ParameterList) : Prop where
  tokens_eq : ∃ before opening q entries closing after,
    tokens = before ++ opening :: (q ++ closing :: after) ∧ opening.kind = .braceOpen ∧
      Derives .entries q entries ∧ list.parameters = entries.filterMap id ∧
      Balanced true (q.map Token.kind) ∧ closing.kind = .braceClose ∧
      list.span = opening.span.join closing.span
  first : slice.head? = some '{'
  last : slice.getLast? = some '}'

/-- What delimits the slice of a node in a text with the given tokens. -/
def Delimited (tokens : List Token) (slice : Text) : Subtree → Prop
  | .binding (.keyValue b) => Terminated tokens slice b
  | .expr ⟨span, .map bindings _⟩ => Braced tokens slice span bindings
  | .head (.destructured list) => Listed tokens slice list
  | _ => True

/-- The node covers the text between two offsets: its span leads there, its children lie there one
behind the other, and the slice is delimited as the form of the node demands. -/
structure Covers (text : Text) (tokens : List Token) (x : Subtree) (start stop : Nat) : Prop where
  offsets : Edit.offsetsOf text x.span = .ok (start, stop)
  start_le_stop : start ≤ stop
  stop_le_length : stop ≤ text.length
  children : InOrder text start (x.children.map Subtree.span) stop
  delimited : Delimited tokens (text.slice start stop) x

/-- The last character of the pieces of a node whose last token has a fixed spelling. -/
theorem Placed.getLast?_eq {us ts vs : List Piece} {x : Subtree} (h : Placed us ts x)
    (hpieces : Scan.pieces [] (textOf (us ++ (ts ++ vs))) = .ok (us ++ (ts ++ vs))) {p : List Token}
    {t : Token} {kind : TokenKind} {c : Char} (htokens : tokensBehind us ts = p ++ [t])
    (hkind : t.kind = kind) (hopen : Scan.isOpen kind = false) (hname : kind.name.toList = [c]) :
    (textOf ts).getLast? = some c := by
  have hlast := h.last
  rw [htokens, List.getLast?_concat] at hlast
  obtain ⟨front, rfl⟩ := List.getLast?_eq_some_iff.1 hlast
  have hlexeme : t.lexeme = [c] := by
    rw [← hname]
    exact Scan.lexeme_eq hpieces (x := t.lexeme) (by simp [Token.piece, hkind]) hopen
  rw [textOf_append]
  simp [Token.piece, hlexeme]

theorem Placed.head?_eq {us ts vs : List Piece} {x : Subtree} (h : Placed us ts x)
    (hpieces : Scan.pieces [] (textOf (us ++ (ts ++ vs))) = .ok (us ++ (ts ++ vs))) {p : List Token}
    {t : Token} {kind : TokenKind} {c : Char} (htokens : tokensBehind us ts = t :: p)
    (hkind : t.kind = kind) (hopen : Scan.isOpen kind = false) (hname : kind.name.toList = [c]) :
    (textOf ts).head? = some c := by
  have hfirst := h.first
  rw [htokens] at hfirst
  obtain ⟨rest, rfl⟩ := List.head?_eq_some_iff.1 hfirst
  have hlexeme : t.lexeme = [c] := by
    rw [← hname]
    exact Scan.lexeme_eq hpieces (x := t.lexeme) (by simp [Token.piece, hkind]) hopen
  simp [Token.piece, hlexeme]

theorem locate_start_append (us ts vs : List Piece) :
    Token.locate .start (us ++ (ts ++ vs)) =
      tokensBehind [] us ++ (tokensBehind us ts ++ tokensBehind (us ++ ts) vs) := by
  rw [Token.locate_append, Token.locate_append, tokensBehind, tokensBehind, tokensBehind,
    positionBehind_append]
  rfl

section Delimiters

variable {us ts vs : List Piece}
  (hpieces : Scan.pieces [] (textOf (us ++ (ts ++ vs))) = .ok (us ++ (ts ++ vs)))
include hpieces

theorem Placed.terminated {b : KeyValue} (h : Placed us ts (.binding (.keyValue b))) :
    Terminated (Token.locate .start (us ++ (ts ++ vs))) (textOf ts) b := by
  obtain ⟨-, hderives⟩ := h.formed
  rw [locate_start_append]
  generalize tokensBehind [] us = before, tokensBehind (us ++ ts) vs = after
  generalize htokens : tokensBehind us ts = tokens at hderives ⊢
  cases hderives with
  | keyValueBinding hderives =>
    cases hderives with
    | @keyValue assign semicolon p q span path value hpath hassign hvalue hsemicolon =>
      constructor
      · cases hpath with
        | attrPath => exact ⟨_, _, rfl, rfl⟩
      · refine ⟨before, p, span, assign, q, semicolon, after, ?_, hpath, hassign, hvalue,
          hsemicolon, rfl⟩
        simp only [List.append_assoc, List.cons_append, List.nil_append]
      · exact h.getLast?_eq hpieces (p := p ++ assign :: q) (by simp [htokens]) hsemicolon rfl rfl

theorem Placed.braced {span : Span} {bindings : List Binding} {recursive : Bool}
    (h : Placed us ts (.expr ⟨span, .map bindings recursive⟩)) :
    Braced (Token.locate .start (us ++ (ts ++ vs))) (textOf ts) span bindings := by
  obtain ⟨-, hderives, hparen⟩ := h.formed rfl
  rw [locate_start_append]
  generalize tokensBehind [] us = before, tokensBehind (us ++ ts) vs = after
  generalize htokens : tokensBehind us ts = tokens at hderives hparen ⊢
  cases hderives with
  | parenthesised hopening => exact absurd (congrArg some hopening) hparen
  | @recSet word _ _ _ _ hset =>
    cases hset with
    | @attrSet opening closing p _ hopening hbindings hclosing =>
      constructor
      · refine ⟨before ++ [word], opening, p, closing, after, ?_, hopening, hbindings,
          hclosing, rfl⟩
        simp only [List.append_assoc, List.cons_append, List.nil_append]
      · exact h.getLast?_eq hpieces (p := word :: opening :: p) (by simp [htokens]) hclosing rfl rfl
  | map hset =>
    cases hset with
    | @attrSet opening closing p _ hopening hbindings hclosing =>
      constructor
      · refine ⟨before, opening, p, closing, after, ?_, hopening, hbindings, hclosing, rfl⟩
        simp only [List.append_assoc, List.cons_append, List.nil_append]
      · exact h.getLast?_eq hpieces (p := opening :: p) (by simp [htokens]) hclosing rfl rfl

theorem Placed.listed {list : ParameterList} (h : Placed us ts (.head (.destructured list))) :
    Listed (Token.locate .start (us ++ (ts ++ vs))) (textOf ts) list := by
  obtain ⟨whole?, list', hderives, hlist⟩ := h.formed
  rw [locate_start_append]
  generalize tokensBehind [] us = before, tokensBehind (us ++ ts) vs = after
  generalize htokens : tokensBehind us ts = tokens at hderives ⊢
  cases hderives with
  | @parameterList _ opening closing p entries hopening hentries hclosing =>
    constructor
    · refine ⟨before, opening, p, entries, closing, after, ?_, hopening, hentries, ?_, ?_, hclosing,
        ?_⟩
      · simp only [List.append_assoc, List.cons_append, List.nil_append]
      · rw [hlist]
      · exact hentries.balanced trivial
      · rw [hlist]
    · exact h.head?_eq hpieces htokens hopening rfl rfl
    · exact h.getLast?_eq hpieces (p := opening :: p) (by simp [htokens]) hclosing rfl rfl

theorem Placed.delimited {x : Subtree} (h : Placed us ts x) :
    Delimited (Token.locate .start (us ++ (ts ++ vs))) (textOf ts) x := by
  unfold Delimited
  split
  · exact h.terminated hpieces
  · exact h.braced hpieces
  · exact h.listed hpieces
  · trivial

/-- The pieces of a node are the stretch of the text that it covers. -/
theorem Placed.covers {x : Subtree} (h : Placed us ts x) :
    ∃ start stop, Covers (textOf (us ++ (ts ++ vs))) (Token.locate .start (us ++ (ts ++ vs))) x
      start stop := by
  refine ⟨(textOf us).length, (textOf (us ++ ts)).length, h.offsets vs, length_textOf_le us ts, ?_,
    h.inRow.inOrder vs, ?_⟩
  · rw [← List.append_assoc]
    exact length_textOf_le (us ++ ts) vs
  · rw [slice_textOf]
    exact h.delimited hpieces

end Delimiters

end Grammar

/-! ## Errors -/

namespace Scan

/-- The faulty stretch is a stretch of the text. -/
def Fault.Inside (f : Fault) (t : Text) : Prop :=
  ∃ rest, t = f.before ++ (f.within ++ rest)

theorem inside_of_stringStep {closing : Piece} {mode : Mode} {outer : List Mode}
    {body : Option Literal.Body} {t : Text} {f : Fault}
    (h : stringStep closing mode outer body t = .error f) : f.Inside t := by
  unfold stringStep at h
  split at h
  · obtain rfl := Except.error.inj h
    exact ⟨[], by simp⟩
  · simp at h
  · simp at h

theorem inside_of_bareStep {m : List Mode} {c : Char} {t : Text} {f : Fault}
    (h : bareStep m c t = .error f) : f.Inside (c :: t) := by
  unfold bareStep at h
  split at h
  · simp at h
  split at h
  · simp at h
  split at h
  · split at h
    · simp at h
    · obtain rfl := Except.error.inj h
      exact ⟨[], by simp⟩
  · unfold tokenStep at h
    split at h
    · simp at h
    split at h
    · obtain rfl := Except.error.inj h
      exact ⟨_, rfl⟩
    · simp at h

theorem inside_of_step {m : List Mode} {c : Char} {t : Text} {f : Fault}
    (h : step m c t = .error f) : f.Inside (c :: t) := by
  unfold step at h
  split at h
  · exact inside_of_stringStep h
  · exact inside_of_stringStep h
  · exact inside_of_bareStep h

theorem Fault.Inside.behind {f : Fault} {t : Text} (h : f.Inside t) (u : Text) :
    (f.behind u).Inside (u ++ t) := by
  obtain ⟨rest, rfl⟩ := h
  exact ⟨rest, by simp [Fault.behind]⟩

theorem inside_of_pieces {m : List Mode} {t : Text} {f : Fault} (h : pieces m t = .error f) :
    f.Inside t := by
  induction hn : t.length using Nat.strongRecOn generalizing m t f with
  | _ n ih =>
    subst hn
    cases t with
    | nil =>
      rw [pieces] at h
      split at h
      · obtain rfl := Except.error.inj h
        exact ⟨[], rfl⟩
      · simp at h
    | cons c t =>
      rw [pieces] at h
      split at h
      · next fault hstep =>
        obtain rfl := Except.error.inj h
        exact inside_of_step hstep
      · next s hstep =>
        have htext := Steps.text ⟨c, t, rfl, hstep⟩
        split at h
        · next fault hrest =>
          obtain rfl := Except.error.inj h
          rw [htext]
          exact (ih _ (length_step_rest hstep) hrest rfl).behind s.text
        · simp at h

end Scan

/-- A span of a text converts to offsets in order. -/
def Span.Lies (text : Text) (span : Span) : Prop :=
  ∃ start stop, Edit.offsetsOf text span = .ok (start, stop) ∧ start ≤ stop

theorem Span.lies_after (u x r : Text) :
    Span.Lies (u ++ (x ++ r)) ⟨Position.start.after u, (Position.start.after u).after x⟩ :=
  ⟨_, _, Edit.offsetsOf_after u x r, Nat.le_add_right _ _⟩

theorem Scan.Fault.Inside.lies {f : Scan.Fault} {text : Text} (h : f.Inside text) :
    f.span.Lies text := by
  obtain ⟨rest, rfl⟩ := h
  exact Span.lies_after f.before f.within rest

theorem Span.lies_of_mem {text : Text} {ps : List Piece} {t : Token}
    (hps : Scan.pieces [] text = .ok ps) (ht : t ∈ Token.locate .start ps) : t.span.Lies text := by
  obtain ⟨a, b, htokens⟩ := List.append_of_mem ht
  obtain ⟨qs, rs, rfl, -, hspan, -⟩ := Token.locate_eq_append htokens
  rw [← Scan.textOf_pieces hps, hspan, textOf_append, textOf_cons]
  exact Span.lies_after _ _ _

theorem Span.lies_endOf (text : Text) : (Span.endOf text).Lies text := by
  have hend := Span.lies_after text [] []
  rwa [List.append_nil, List.append_nil] at hend

/-- What a refusal amounts to points to a stretch of the text. -/
theorem Grammar.Fault.Among.lies {text : Text} {ps : List Piece} {fault : Grammar.Fault}
    {err : SyntaxError} (h : fault.Among (Token.locate .start ps))
    (hps : Scan.pieces [] text = .ok ps) (herr : fault.toError text = .malformed err) :
    err.span.Lies text := by
  unfold Grammar.Fault.toError at herr
  split at herr
  · obtain rfl := Error.malformed.inj herr
    exact Span.lies_of_mem hps h
  · obtain rfl := Error.malformed.inj herr
    exact Span.lies_endOf text
  · obtain rfl := Error.malformed.inj herr
    obtain ⟨t, ht, rfl⟩ := h
    exact Span.lies_of_mem hps ht
  · simp at herr

theorem Expr.lies_of_parse {text : Text} {err : SyntaxError}
    (h : Expr.parse text = .error (.malformed err)) : err.span.Lies text := by
  unfold Expr.parse Token.tokenize at h
  cases hps : Scan.pieces [] text with
  | error fault =>
    simp only [hps, Except.mapError, bind, Except.bind, Except.error.injEq,
      Error.malformed.injEq] at h
    rw [← h]
    exact (Scan.inside_of_pieces hps).lies
  | ok ps =>
    simp only [hps, Except.mapError, bind, Except.bind] at h
    cases hwhole : Grammar.whole (Token.locate .start ps) with
    | error fault =>
      simp only [hwhole, Except.error.injEq] at h
      exact (Grammar.among_of_whole hwhole).lies hps h
    | ok e => simp [hwhole] at h

/-- Every node of a parsed text covers a stretch of the text, with its children in it one behind
the other, and the error of a text that cannot be parsed points to a stretch of it. -/
theorem Expr.spans_of_parse (text : Text) :
    (∀ e, Expr.parse text = .ok e → ∃ tokens, Token.tokenize text = .ok tokens ∧
      ∀ x, (Subtree.expr e).Contains x →
        ∃ start stop, Grammar.Covers text tokens x start stop) ∧
    ∀ err, Expr.parse text = .error (.malformed err) → err.span.Lies text := by
  constructor
  · intro e he
    obtain ⟨ps, hps, hderives⟩ := Expr.parse_eq_ok.1 he
    refine ⟨_, Token.tokenize_eq_ok.2 ⟨ps, hps, rfl⟩, ?_⟩
    intro x hx
    obtain ⟨us, ts, vs, rfl, hplaced⟩ := hderives.exists_placed hx
    have htext := Scan.textOf_pieces hps
    subst htext
    exact hplaced.covers hps
  · intro err herr
    exact Expr.lies_of_parse herr

/-- The syntax error that a text cannot be parsed for. -/
def malformed? : Except Error Expr → Option SyntaxError
  | .error (.malformed err) => some err
  | _ => none

theorem eq_of_malformed? {r : Except Error Expr} {err : SyntaxError}
    (h : malformed? r = some err) : r = .error (.malformed err) := by
  unfold malformed? at h
  split at h
  · rw [Option.some.inj h]
  · cases h

theorem Expr.spans_of_parse_nested :
    (∃ text e tokens,
      text = "rec \x7b a.\"b$\x7bc\x7d\" = \x7b d ? [ 1 ] \x7d: -d.e or (f 2); \x7d".toList ∧
      Expr.parse text = .ok e ∧ Token.tokenize text = .ok tokens ∧
      ∀ x, (Subtree.expr e).Contains x → ∃ start stop, Grammar.Covers text tokens x start stop) ∧
    ∃ text err, text = "\x7b a = [ 1; \x7d".toList ∧
      Expr.parse text = .error (.malformed err) ∧ err.span.Lies text := by
  constructor
  · have hok : (Expr.parse
      "rec \x7b a.\"b$\x7bc\x7d\" = \x7b d ? [ 1 ] \x7d: -d.e or (f 2); \x7d".toList).isOk =
        true := by
      decide +kernel
    obtain ⟨e, he⟩ := Outcome.exists_of_isOk hok
    obtain ⟨tokens, htokens, hcovers⟩ := (Expr.spans_of_parse _).1 e he
    exact ⟨_, e, tokens, rfl, he, htokens, hcovers⟩
  · have hbad : (malformed? (Expr.parse "\x7b a = [ 1; \x7d".toList)).isSome = true := by
      decide +kernel
    obtain ⟨err, herr⟩ := Option.isSome_iff_exists.1 hbad
    have hparse := eq_of_malformed? herr
    exact ⟨_, err, rfl, hparse, (Expr.spans_of_parse _).2 err hparse⟩

end FlakeInputs
