import FlakeInputs.Proofs.Grammar.Frames
import FlakeInputs.Proofs.Grammar.Nesting

/-!
# Parameter lists

The entries of a parameter list stand between braces in the head of a function.  A new
parameter goes behind the last one, or in front of the ellipsis if there is no other
parameter.
-/

namespace FlakeInputs
namespace Grammar

/-! ## Entries -/

/-- Kinds of tokens of some parameters with a comma behind each. -/
inductive Rows : List TokenKind → Prop
  | nil : Rows []
  | row {ks ks' : List TokenKind} (hne : ks ≠ []) (hrow : Balanced false ks) (h : Rows ks') :
      Rows (ks ++ .comma :: ks')

/-- What stands behind the last parameter of a list, and the entries that it spells. -/
inductive Tail : List Token → List (Option Parameter) → Prop
  | nil : Tail [] []
  | comma {t : Token} (ht : t.kind = .comma) : Tail [t] []
  | ellipsis {t z : Token} (ht : t.kind = .comma) (hz : z.kind = .ellipsis) : Tail [t, z] [none]

theorem Tail.of_alike {p p' : List Token} {es : List (Option Parameter)} (h : Tail p es)
    (halike : Alike p p') : Tail p' es := by
  cases h with
  | nil =>
    rw [halike.eq_nil]
    exact .nil
  | comma ht =>
    obtain ⟨t', _, rfl, ht', -, hnil⟩ := halike.exists_cons
    rw [hnil.eq_nil]
    exact .comma (ht'.trans ht)
  | ellipsis ht hz =>
    obtain ⟨t', _, rfl, ht', -, hrest⟩ := halike.exists_cons
    obtain ⟨z', _, rfl, hz', -, hnil⟩ := hrest.exists_cons
    rw [hnil.eq_nil]
    exact .ellipsis (ht'.trans ht) (hz'.trans hz)

theorem Tail.filterMap_eq_nil {p : List Token} {es : List (Option Parameter)} (h : Tail p es) :
    es.filterMap id = [] := by
  cases h <;> rfl

/-- A parameter with the end of a list behind it. -/
theorem Tail.derives_parameter {p q : List Token} {es : List (Option Parameter)} {x : Parameter}
    (h : Tail p es) (hx : Derives .parameter q x) : Derives .entries (q ++ p) (some x :: es) := by
  cases h with
  | nil =>
    rw [List.append_nil]
    exact .lastEntry hx
  | comma hcomma => exact .entry hx hcomma .noEntry
  | ellipsis hcomma hz => exact .entry hx hcomma (.ellipsis hz)

/-- A name with the end of a list behind it. -/
theorem Tail.derives {p : List Token} {es : List (Option Parameter)} (h : Tail p es) {t : Token}
    (ht : t.kind = .identifier) :
    Derives .entries (t :: p) (some ⟨t.span.join t.span, t.lexeme, none⟩ :: es) :=
  h.derives_parameter (.parameter ht)

/-- The last parameter of a list, between the entries before it and the end of the list. -/
structure LastParameter (E : List Token) (es : List (Option Parameter)) (x : Parameter)
    (first p tail : List Token) (before behind : List (Option Parameter)) : Prop where
  tokens : E = first ++ (p ++ tail)
  entries : es = before ++ some x :: behind
  rows : Rows (first.map Token.kind)
  derives : Derives .parameter p x
  tail : Tail tail behind
  extend : ∀ {q : List Token} {ys : List (Option Parameter)}, Derives .entries q ys →
    Derives .entries (first ++ q) (before ++ ys)

theorem LastParameter.last_kind {E first p tail : List Token} {z : Token} {x : Parameter}
    {es before behind : List (Option Parameter)}
    (h : LastParameter E es x first (p ++ [z]) tail before behind) :
    z.kind ∉ [.colon, .text, .comma, .ellipsis] := by
  simpa [Symbol.ends] using h.derives.ends z (by simp)

theorem Derives.parameter_ne_nil {p : List Token} {x : Parameter} (h : Derives .parameter p x) :
    p ≠ [] :=
  h.ne_nil rfl

theorem Derives.last_parameter {E : List Token} {es : List (Option Parameter)} {x : Parameter}
    (h : Derives .entries E es) (hx : (es.filterMap id).getLast? = some x) :
    ∃ first p tail before behind, LastParameter E es x first p tail before behind := by
  induction es generalizing E with
  | nil => simp at hx
  | cons y es ih =>
    cases h with
    | ellipsis => simp at hx
    | lastEntry h =>
      obtain rfl : _ = x := by simpa using hx
      exact ⟨[], E, [], [], [], by simp, rfl, .nil, h, .nil, fun h => h⟩
    | @entry comma p q y es h hcomma hrest =>
      cases hlast : (es.filterMap id).getLast? with
      | some z =>
        have hz : z = x := by
          rw [filterMap_id_cons, List.getLast?_cons, hlast] at hx
          exact Option.some.inj hx
        subst hz
        obtain ⟨first, p', tail, before, behind, hlast⟩ := ih hrest hlast
        refine ⟨p ++ comma :: first, p', tail, some y :: before, behind, ?_, ?_, ?_, hlast.derives,
          hlast.tail, ?_⟩
        · rw [hlast.tokens]
          simp
        · rw [hlast.entries]
          rfl
        · rw [List.map_append, List.map_cons, hcomma]
          refine .row ?_ (h.balanced trivial) hlast.rows
          simpa using h.parameter_ne_nil
        · intro q ys hq
          rw [List.append_assoc, List.cons_append]
          exact .entry h hcomma (hlast.extend hq)
      | none =>
        rw [List.getLast?_eq_none_iff] at hlast
        rw [filterMap_id_cons, hlast] at hx
        obtain rfl : y = x := Option.some.inj hx
        refine ⟨[], p, comma :: q, [], es, rfl, rfl, .nil, h, ?_, fun h => h⟩
        cases hrest with
        | noEntry => exact .comma hcomma
        | ellipsis hz => exact .ellipsis hcomma hz
        | lastEntry => simp at hlast
        | entry => simp at hlast

/-- A parameter can be put behind the last one. -/
theorem LastParameter.append {E first p tail tail' : List Token}
    {es before behind : List (Option Parameter)} {x : Parameter} {comma name : Token}
    (h : LastParameter E es x first p tail before behind) (hcomma : comma.kind = .comma)
    (hname : name.kind = .identifier) (htail : Alike tail tail') :
    Derives .entries (first ++ (p ++ comma :: name :: tail'))
      (before ++ some x :: some ⟨name.span.join name.span, name.lexeme, none⟩ :: behind) :=
  h.extend (.entry h.derives hcomma ((h.tail.of_alike htail).derives hname))

/-- The last parameter can be exchanged for another one. -/
theorem LastParameter.exchange {E first p p' tail tail' : List Token}
    {es before behind : List (Option Parameter)} {x x' : Parameter}
    (h : LastParameter E es x first p tail before behind) (hx : Derives .parameter p' x')
    (htail : Alike tail tail') :
    Derives .entries (first ++ (p' ++ tail')) (before ++ some x' :: behind) :=
  h.extend ((h.tail.of_alike htail).derives_parameter hx)

/-- The entries of a list without parameters but with an ellipsis. -/
theorem Derives.sole_ellipsis {E : List Token} {es : List (Option Parameter)}
    (h : Derives .entries E es) (hnone : es.filterMap id = [])
    (hany : es.any Option.isNone = true) :
    ∃ z, E = [z] ∧ z.kind = .ellipsis ∧ es = [none] := by
  cases h with
  | noEntry => simp at hany
  | ellipsis hz => exact ⟨_, rfl, hz, rfl⟩
  | lastEntry => simp at hnone
  | entry => simp at hnone

/-! ## Heads -/

/-- The parameter list between two braces. -/
def listBetween (opening closing : Token) (es : List (Option Parameter)) (whole? : Option Text) :
    ParameterList :=
  ⟨opening.span.join closing.span, es.filterMap id, es.any Option.isNone, whole?⟩

/-- What stands around the entries of the parameter list of a function. -/
structure Heads (whole? : Option Text) (body : Expr) (l : List Token) (opening closing : Token)
    (r : List Token) : Prop where
  opening_kind : opening.kind = .braceOpen
  closing_kind : closing.kind = .braceClose
  behind : headKind r = some .colon ∨ headKind r = some .atSign
  derives : ∀ {l' r' q : List Token} {o c : Token} {es : List (Option Parameter)}, Alike l l' →
    Alike r r' → o.kind = .braceOpen → c.kind = .braceClose → Derives .entries q es →
      ∃ e' body', Derives .expr (l' ++ o :: (q ++ c :: r')) e' ∧
        e'.node = .function (.destructured (listBetween o c es whole?)) body' ∧
        body'.shape = body.shape

theorem Encloses.heads {whole? : Option Text} {body : Expr} {l l₀ r r₀ : List Token}
    {opening closing : Token} (h : Encloses l₀ r₀)
    (hheads : Heads whole? body l opening closing r) :
    Heads whole? body (l₀ ++ l) opening closing (r ++ r₀) where
  opening_kind := hheads.opening_kind
  closing_kind := hheads.closing_kind
  behind := by
    have hne : r ≠ [] := by
      rintro rfl
      simpa using hheads.behind
    rw [headKind_append_of_ne_nil hne]
    exact hheads.behind
  derives hl hr ho hc hq := by
    obtain ⟨l₀', l', rfl, hl₀, hl⟩ := hl.exists_append
    obtain ⟨r', r₀', rfl, hr, hr₀⟩ := hr.exists_append
    obtain ⟨e', body', he', hnode, hshape⟩ := hheads.derives hl hr ho hc hq
    refine ⟨e', body', ?_, hnode, hshape⟩
    simpa using h.derives hl₀ hr₀ he'

/-- The entries of the parameter list of a function that is not in parentheses. -/
theorem Derives.heads_bare {p : List Token} {e : Expr} {list : ParameterList} {body : Expr}
    (h : Derives .expr p e) (hnode : e.node = .function (.destructured list) body)
    (hhead : headKind p ≠ some .parenOpen) :
    ∃ l opening q closing r es, p = l ++ opening :: (q ++ closing :: r) ∧
      Derives .entries q es ∧ list = listBetween opening closing es list.whole? ∧
      Heads list.whole? body l opening closing r := by
  obtain ⟨span, node⟩ := e
  subst hnode
  cases h with
  | operation h =>
    cases h.simple_of_operation rfl with
    | parenthesised hopening =>
      rw [headKind_cons, hopening] at hhead
      exact absurd rfl hhead
  | @namedFunction name atSign colon p q list body hname hat hlist hcolon hbody =>
    cases hlist with
    | @parameterList _ opening closing E es hopening hentries hclosing =>
      refine ⟨[name, atSign], opening, E, closing, colon :: q, es, by simp, hentries, rfl,
        hopening, hclosing, .inl (by rw [headKind_cons, hcolon]), ?_⟩
      intro l' r' E' o c es' hl hr ho hc hE'
      obtain ⟨n, _, rfl, hn, hlexeme, hl⟩ := hl.exists_cons
      obtain ⟨a, _, rfl, ha, -, hnil⟩ := hl.exists_cons
      obtain ⟨k, q', rfl, hk, -, hq'⟩ := hr.exists_cons
      obtain ⟨body', hbody', hshape⟩ := hbody.moves q' hq'
      rw [hnil.eq_nil]
      have hfunction := Derives.namedFunction (hn.trans hname) (ha.trans hat)
        (.parameterList ho hE' hc) (hk.trans hcolon) hbody'
      rw [hlexeme] at hfunction
      exact ⟨_, body', by simpa using hfunction, rfl, hshape⟩
  | @listFunction colon p q list body hlist hcolon hbody =>
    cases hlist with
    | @parameterList _ opening closing E es hopening hentries hclosing =>
      refine ⟨[], opening, E, closing, colon :: q, es, by simp, hentries, rfl,
        hopening, hclosing, .inl (by rw [headKind_cons, hcolon]), ?_⟩
      intro l' r' E' o c es' hl hr ho hc hE'
      obtain ⟨k, q', rfl, hk, -, hq'⟩ := hr.exists_cons
      obtain ⟨body', hbody', hshape⟩ := hbody.moves q' hq'
      rw [hl.eq_nil]
      have hfunction := Derives.listFunction (.parameterList ho hE' hc) (hk.trans hcolon) hbody'
      exact ⟨_, body', by simpa using hfunction, rfl, hshape⟩
  | @aliasedFunction atSign name colon p q list body hlist hat hname hcolon hbody =>
    cases hlist with
    | @parameterList _ opening closing E es hopening hentries hclosing =>
      refine ⟨[], opening, E, closing, atSign :: name :: colon :: q, es, by simp, hentries, rfl,
        hopening, hclosing, .inr (by rw [headKind_cons, hat]), ?_⟩
      intro l' r' E' o c es' hl hr ho hc hE'
      obtain ⟨a, _, rfl, ha, -, hr⟩ := hr.exists_cons
      obtain ⟨n, _, rfl, hn, hlexeme, hr⟩ := hr.exists_cons
      obtain ⟨k, q', rfl, hk, -, hq'⟩ := hr.exists_cons
      obtain ⟨body', hbody', hshape⟩ := hbody.moves q' hq'
      rw [hl.eq_nil]
      have hfunction := Derives.aliasedFunction (.parameterList ho hE' hc) (ha.trans hat)
        (hn.trans hname) (hk.trans hcolon) hbody'
      rw [hlexeme] at hfunction
      exact ⟨_, body', by simpa using hfunction, rfl, hshape⟩

/-- The entries of the parameter list of a function. -/
theorem Derives.heads {p : List Token} {e : Expr} {list : ParameterList} {body : Expr}
    (h : Derives .expr p e) (hnode : e.node = .function (.destructured list) body) :
    ∃ l opening q closing r es, p = l ++ opening :: (q ++ closing :: r) ∧
      Derives .entries q es ∧ list = listBetween opening closing es list.whole? ∧
      Heads list.whole? body l opening closing r := by
  obtain ⟨l₀, p, r₀, rfl, hencloses, hp, hhead⟩ := h.enclosed (by rw [hnode]; rfl)
  obtain ⟨l, opening, q, closing, r, es, rfl, hq, hlist, hheads⟩ := hp.heads_bare hnode hhead
  exact ⟨l₀ ++ l, opening, q, closing, r ++ r₀, es, by simp, hq, hlist, hencloses.heads hheads⟩

end Grammar
end FlakeInputs
