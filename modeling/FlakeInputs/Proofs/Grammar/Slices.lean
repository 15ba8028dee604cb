import FlakeInputs.Proofs.Grammar.Spans
import FlakeInputs.Proofs.Manifest.Cuts

/-!
# Slices

The slice of the text at a node with delimiters of its own stands for itself: read on its own, it
is cut into the same pieces and spells the same node, whatever surrounds it in the text and
however deep it stands in strings and their interpolations.  A binding stands for itself between
braces.
-/

namespace FlakeInputs

namespace Scan

/-- The run through some pieces with others in front of them and behind them. -/
theorem exists_run_between {t : Text} {us ts vs : List Piece}
    (h : pieces [] t = .ok (us ++ (ts ++ vs))) (hus : inString (modesAfter [] us) = false)
    (hts : inString (modesAfter (modesAfter [] us) ts) = false) :
    Run (textOf vs) (modesAfter [] us) (textOf ts) ts (modesAfter (modesAfter [] us) ts) := by
  obtain ⟨u, r, m, -, hrun, hrest⟩ := exists_run h (getLast?_ne_text h hus)
  obtain rfl := hrun.modes_eq
  obtain ⟨x, r', m', -, hrun', hrest'⟩ := exists_run hrest (getLast?_ne_text hrest hts)
  obtain rfl := hrun'.modes_eq
  have htext : textOf ts = x := hrun'.text
  rwa [htext, textOf_pieces hrest']

/-- Pieces that leave no delimiter open or close one from outside are taken with any modes open
around them. -/
theorem exists_run_framed {t : Text} {us ts vs : List Piece}
    (h : pieces [] t = .ok (us ++ (ts ++ vs))) (hus : inString (modesAfter [] us) = false)
    (hts : modesAfter (modesAfter [] us) ts = modesAfter [] us)
    (hbalanced : Grammar.Balanced false (kinds ts)) {n : List Mode} (hn : inString n = false) :
    Run (textOf vs) n (textOf ts) ts n := by
  have hrun := exists_run_between h hus (by rwa [hts])
  have hdepth : Grammar.bracesAfter (braces []) (kinds ts) = some 0 := by
    have hempty := hbalanced.bracesAfter_append 0 []
    rwa [List.append_nil] at hempty
  obtain ⟨hmodes, -, hframed⟩ := hrun.reframe (o := []) (n := n) rfl hus hn hdepth
  have hnil : modesAfter [] ts = [] := by
    rw [hts] at hmodes
    exact List.self_eq_append_left.1 hmodes
  rwa [hnil] at hframed

theorem Run.swap_nil {r : Text} {m m' : List Mode} {u x : Text} {ps : List Piece} {kind : TokenKind}
    (h : Run r m u ps m') (hlast : ps.getLast? = some (.token kind x)) : Run [] m u ps m' := by
  refine h.swap ?_ fun v _ _ => sealed_nil v
  intro p hp
  rw [hlast, Option.mem_some] at hp
  subst hp
  cases kind
  all_goals trivial

end Scan

open Scan (Piece Mode Run textOf textOf_append textOf_cons kinds modesBehind inString pieces)

/-- The expression with delimiters of its own that a node is: a string, a set or a list.  A quoted
key is a string, too. -/
def Subtree.delimited? : Subtree → Option Expr
  | .expr e => if Grammar.isDelimited e.node then some e else none
  | .key (.quoted span parts) => some ⟨span, .string parts⟩
  | _ => none

/-- The binding that a node is. -/
def Subtree.binding? : Subtree → Option Binding
  | .binding b => some b
  | _ => none

theorem Subtree.eq_of_binding? {x : Subtree} {b : Binding} (h : x.binding? = some b) :
    x = .binding b := by
  cases x with
  | binding b' => rw [Option.some.inj h]
  | expr _ | part _ | key _ | head _ | parameter _ => cases h

namespace Grammar

/-- The tokens of a node with delimiters of its own spell the expression that it is. -/
theorem Placed.derives_delimited {us ts : List Piece} {x : Subtree} {e : Expr}
    (h : Placed us ts x) (hx : x.delimited? = some e) :
    e.span = x.span ∧ inString (modesBehind [] (kinds us)) = false ∧
      Derives .simple (tokensBehind us ts) e ∧ headKind (tokensBehind us ts) ≠ some .parenOpen ∧
      isDelimited e.node = true := by
  unfold Subtree.delimited? at hx
  split at hx
  · next e' =>
    by_cases hnode : isDelimited e'.node = true
    · rw [if_pos hnode] at hx
      obtain rfl := Option.some.inj hx
      obtain ⟨hm, hderives, hparen⟩ := h.formed hnode
      exact ⟨rfl, hm, hderives, hparen, hnode⟩
    · rw [if_neg hnode] at hx
      simp at hx
  · obtain rfl := Option.some.inj hx
    obtain ⟨hm, hderives, hparen⟩ := h.formed
    exact ⟨rfl, hm, hderives, hparen, rfl⟩
  · simp at hx

/-- An expression with delimiters of its own ends with one of them. -/
theorem Derives.exists_closing {q : List Token} {e : Expr} (h : Derives .simple q e)
    (hparen : headKind q ≠ some .parenOpen) (hnode : isDelimited e.node = true) :
    ∃ t, q.getLast? = some t ∧
      t.kind ∈ [.quote, .indentQuote, .braceClose, .bracketClose] := by
  have hconcat : ∀ (p : List Token) (t : Token), (p ++ [t]).getLast? = some t := by simp
  cases h with
  | string h | indentedString h =>
    cases h with
    | @literal _ _ opening closing p _ _ _ hclosing =>
      exact ⟨closing, hconcat (opening :: p) closing, by simp [hclosing]⟩
  | map h =>
    cases h with
    | @attrSet opening closing p _ _ _ hclosing =>
      exact ⟨closing, hconcat (opening :: p) closing, by simp [hclosing]⟩
  | @recSet word _ _ _ _ h =>
    cases h with
    | @attrSet opening closing p _ _ _ hclosing =>
      exact ⟨closing, hconcat (word :: opening :: p) closing, by simp [hclosing]⟩
  | @list opening closing p _ _ _ hclosing =>
    exact ⟨closing, hconcat (opening :: p) closing, by simp [hclosing]⟩
  | parenthesised hopening => exact absurd (congrArg some hopening) hparen
  | identifier | integer | float | path | searchPath | uri => exact Bool.noConfusion hnode

/-- The pieces of a phrase are taken with any modes open around them. -/
theorem Derives.exists_run {us ts vs : List Piece} {t : Text} {s : Symbol} {v : s.Val}
    (h : Derives s (tokensBehind us ts) v) (hpieces : pieces [] t = .ok (us ++ (ts ++ vs)))
    (hm : inString (modesBehind [] (kinds us)) = false) (hquotes : s.quotes)
    (hlisted : s.listed = false) (hsuits : s.Suits (modesBehind [] (kinds us))) {n : List Mode}
    (hn : inString n = false) : Run (textOf vs) n (textOf ts) ts n := by
  have hkinds : (tokensBehind us ts).map Token.kind = kinds ts := Scan.map_kind_locate _ ts
  have hbalanced := h.balanced hquotes
  have hmodes := (h.phrase hsuits).modes
  rw [hlisted, hkinds] at hbalanced
  rw [behind, hkinds] at hmodes
  rw [← Scan.modesAfter_eq] at hm
  refine Scan.exists_run_framed hpieces hm ?_ hbalanced hn
  rw [Scan.modesAfter_eq, Scan.modesAfter_eq, hmodes]

theorem alike_tokensBehind (us us' ts : List Piece) :
    Alike (tokensBehind us ts) (tokensBehind us' ts) := by
  rw [Alike, tokensBehind, tokensBehind, Token.map_bare_locate, Token.map_bare_locate]

/-- A phrase that ends with a token is cut into the same pieces if it is read on its own. -/
theorem Derives.pieces_own {us ts vs : List Piece} {t x : Text} {s : Symbol} {v : s.Val}
    {kind : TokenKind} (h : Derives s (tokensBehind us ts) v)
    (hpieces : pieces [] t = .ok (us ++ (ts ++ vs)))
    (hm : inString (modesBehind [] (kinds us)) = false) (hquotes : s.quotes)
    (hlisted : s.listed = false) (hsuits : s.Suits (modesBehind [] (kinds us)))
    (hlast : ts.getLast? = some (.token kind x)) : pieces [] (textOf ts) = .ok ts := by
  have hrun : Run (textOf vs) [] (textOf ts) ts [] :=
    h.exists_run hpieces hm hquotes hlisted hsuits rfl
  have hend : pieces [] [] = .ok [] := by
    rw [pieces]
    rfl
  have hown := (hrun.swap_nil hlast).pieces hend
  rwa [List.append_nil, List.append_nil] at hown

/-- Read on its own, the slice of a node with delimiters of its own spells that node. -/
theorem Placed.exists_parse {us ts vs : List Piece} {t : Text} {x : Subtree} {e : Expr}
    (h : Placed us ts x) (hpieces : pieces [] t = .ok (us ++ (ts ++ vs)))
    (hx : x.delimited? = some e) : ∃ e', Expr.parse (textOf ts) = .ok e' ∧ e'.shape = e.shape := by
  obtain ⟨-, hm, hderives, hparen, hnode⟩ := h.derives_delimited hx
  obtain ⟨closing, hclosing, -⟩ := hderives.exists_closing hparen hnode
  have hlast : ts.getLast? = some (.token closing.kind closing.lexeme) := by
    rw [h.last, hclosing]
    rfl
  have hown := hderives.pieces_own hpieces hm trivial rfl hm hlast
  obtain ⟨e', hderives', hshape⟩ := hderives.moves _ (alike_tokensBehind us [] ts)
  exact ⟨e', Expr.parse_eq_ok.2 ⟨ts, hown, hderives'.expr_of_simple⟩, hshape⟩

/-- The pieces of a binding between braces. -/
def bracedPieces (ts : List Piece) : List Piece :=
  Piece.token .braceOpen ['{'] :: .gap [' '] ::
    (ts ++ [Piece.gap [' '], .token .braceClose ['}']])

/-- What ends with a semicolon is cut into the same pieces between braces. -/
theorem pieces_braced {r : Text} {ts front : List Piece}
    (h : Run r [.brace] (textOf ts) ts [.brace])
    (hts : ts = front ++ [Piece.token .semicolon [';']]) :
    pieces [] (textOf (bracedPieces ts)) = .ok (bracedPieces ts) := by
  have hclosed : pieces [.brace] ['}'] = .ok [.token .braceClose ['}']] := by
    refine Scan.pieces_of_steps (s := ⟨[.token .braceClose ['}']], [], []⟩) ⟨'}', [], rfl, rfl⟩ ?_
    rw [pieces]
    rfl
  have hspaced : pieces [.brace] [' ', '}'] = .ok [.gap [' '], .token .braceClose ['}']] :=
    Scan.pieces_of_steps (s := ⟨[.gap [' ']], [.brace], ['}']⟩) ⟨' ', ['}'], rfl, rfl⟩ hclosed
  have hinner : pieces [.brace] (textOf ts ++ [' ', '}']) =
      .ok (ts ++ [Piece.gap [' '], .token .braceClose ['}']]) := by
    rw [hts] at h ⊢
    exact (h.swap_barrier (by decide) (by simp)).pieces hspaced
  have hgap := Scan.pieces_of_steps (m := [.brace])
    (s := ⟨[.gap [' ']], [.brace], textOf ts ++ [' ', '}']⟩) ⟨' ', _, rfl, rfl⟩ hinner
  have hopened := Scan.pieces_of_steps (m := [])
    (s := ⟨[.token .braceOpen ['{']], [.brace], ' ' :: (textOf ts ++ [' ', '}'])⟩)
    ⟨'{', _, rfl, rfl⟩ hgap
  have htext : textOf (bracedPieces ts) = '{' :: ' ' :: (textOf ts ++ [' ', '}']) := by
    simp [bracedPieces]
  rw [htext]
  exact hopened

/-- A binding between braces is a set of that binding alone. -/
theorem Derives.braced {ts : List Piece} {us : List Piece} {b : Binding}
    (h : Derives .binding (tokensBehind us ts) b) :
    ∃ span b', Derives .expr (Token.locate .start (bracedPieces ts)) ⟨span, .map [b'] false⟩ ∧
      b'.shape = b.shape := by
  obtain ⟨b', hb, hshape⟩ :=
    h.moves _ (alike_tokensBehind us [.token .braceOpen ['{'], .gap [' ']] ts)
  have hbindings : Derives (.bindings .braceClose) _ ([b'] : List Binding) :=
    .bindings hb .noBinding
  rw [List.append_nil] at hbindings
  obtain ⟨opening, closing, htokens, hopening, hclosing⟩ : ∃ opening closing,
      Token.locate .start (bracedPieces ts) = opening ::
        (tokensBehind [.token .braceOpen ['{'], .gap [' ']] ts ++ [closing]) ∧
      opening.kind = .braceOpen ∧ closing.kind = .braceClose :=
    ⟨_, _, congrArg (_ :: ·) (Token.locate_append _ _ _), rfl, rfl⟩
  rw [htokens]
  exact ⟨_, b', (Derives.map (.attrSet hopening hbindings hclosing)).expr_of_simple, hshape⟩

/-- Between braces, the slice of a binding spells a set of that binding alone. -/
theorem Placed.exists_parse_braced {us ts vs : List Piece} {t : Text} {b : Binding}
    (h : Placed us ts (.binding b)) (hpieces : pieces [] t = .ok (us ++ (ts ++ vs))) :
    ∃ span b', Expr.parse ("\x7b ".toList ++ textOf ts ++ " \x7d".toList) =
      .ok ⟨span, .map [b'] false⟩ ∧ b'.shape = b.shape := by
  obtain ⟨hm, hderives⟩ := h.formed
  obtain ⟨q, semicolon, htokens, hkind, -⟩ := hderives.binding_semicolon
  have hlast : ts.getLast? = some (.token .semicolon [';']) := by
    have hpiece := h.last
    rw [htokens, List.getLast?_concat, Option.map_some, Token.piece, hkind] at hpiece
    have hmem : Piece.token .semicolon semicolon.lexeme ∈ us ++ (ts ++ vs) := by
      simp [List.mem_of_getLast? hpiece]
    rw [hpiece, Scan.lexeme_eq hpieces hmem rfl]
    rfl
  obtain ⟨front, hts⟩ := List.getLast?_eq_some_iff.1 hlast
  have hrun := hderives.exists_run hpieces hm trivial rfl hm (n := [.brace]) rfl
  obtain ⟨span, b', hderives', hshape⟩ := hderives.braced
  have htext : "\x7b ".toList ++ textOf ts ++ " \x7d".toList = textOf (bracedPieces ts) := by
    simp [bracedPieces]
  rw [htext]
  exact ⟨span, b', Expr.parse_eq_ok.2 ⟨_, pieces_braced hrun hts, hderives'⟩, hshape⟩

end Grammar

/-- The slice of the text at a string, a set or a list parses by itself to the same node, and the
slice at a binding parses between braces to a set of that binding alone. -/
theorem Expr.slices_of_parse {text : Text} {e : Expr} (h : Expr.parse text = .ok e) :
    (∀ x d, (Subtree.expr e).Contains x → x.delimited? = some d →
      ∃ start stop d', Edit.offsetsOf text x.span = .ok (start, stop) ∧
        Expr.parse (text.slice start stop) = .ok d' ∧ d'.shape = d.shape) ∧
    ∀ b, (Subtree.expr e).Contains (.binding b) →
      ∃ start stop span b', Edit.offsetsOf text b.span = .ok (start, stop) ∧
        Expr.parse ("\x7b ".toList ++ text.slice start stop ++ " \x7d".toList) =
          .ok ⟨span, .map [b'] false⟩ ∧ b'.shape = b.shape := by
  obtain ⟨ps, hps, hderives⟩ := Expr.parse_eq_ok.1 h
  obtain rfl := Scan.textOf_pieces hps
  constructor
  · intro x d hx hd
    obtain ⟨us, ts, vs, rfl, hplaced⟩ := hderives.exists_placed hx
    obtain ⟨d', hparse, hshape⟩ := hplaced.exists_parse hps hd
    refine ⟨_, _, d', hplaced.offsets vs, ?_, hshape⟩
    rwa [Grammar.slice_textOf]
  · intro b hb
    obtain ⟨us, ts, vs, rfl, hplaced⟩ := hderives.exists_placed hb
    obtain ⟨span, b', hparse, hshape⟩ := hplaced.exists_parse_braced hps
    refine ⟨_, _, span, b', hplaced.offsets vs, ?_, hshape⟩
    rwa [Grammar.slice_textOf]

theorem Expr.slices_of_parse_string :
    ∃ (text : Text) (e : Expr) (x : Subtree) (d : Expr) (b : Binding),
      text = "\x7b a = \"b$\x7b [ ''c$\x7bd\x7d'' ] \x7d\"; \x7d".toList ∧
      Expr.parse text = .ok e ∧ (Subtree.expr e).Contains x ∧ x.delimited? = some d ∧
      (Subtree.expr e).Contains (.binding b) ∧
      (∃ start stop d', Edit.offsetsOf text x.span = .ok (start, stop) ∧
        Expr.parse (text.slice start stop) = .ok d' ∧ d'.shape = d.shape) ∧
      ∃ start stop span b', Edit.offsetsOf text b.span = .ok (start, stop) ∧
        Expr.parse ("\x7b ".toList ++ text.slice start stop ++ " \x7d".toList) =
          .ok ⟨span, .map [b'] false⟩ ∧ b'.shape = b.shape := by
  have hparse : (Expr.parse
      "\x7b a = \"b$\x7b [ ''c$\x7bd\x7d'' ] \x7d\"; \x7d".toList).toOption.any (fun e =>
        (Subtree.expr e).children.any fun x =>
          x.binding?.isSome && x.children.any (·.delimited?.isSome)) = true := by
    decide +kernel
  obtain ⟨e, he, htest⟩ := Outcome.exists_of_any hparse
  obtain ⟨y, hy, htest⟩ := List.any_eq_true.1 htest
  obtain ⟨hbinding, hvalue⟩ := Bool.and_eq_true_iff.1 htest
  obtain ⟨b, hb⟩ := Option.isSome_iff_exists.1 hbinding
  obtain rfl := Subtree.eq_of_binding? hb
  obtain ⟨x, hx, hdelimited⟩ := List.any_eq_true.1 hvalue
  obtain ⟨d, hd⟩ := Option.isSome_iff_exists.1 hdelimited
  have hcontains : (Subtree.expr e).Contains (.binding b) := .single hy
  obtain ⟨hslices, hbindings⟩ := Expr.slices_of_parse he
  exact ⟨_, e, x, d, b, rfl, he, hcontains.tail hx, hd, hcontains,
    hslices _ _ (hcontains.tail hx) hd, hbindings _ hcontains⟩

end FlakeInputs
