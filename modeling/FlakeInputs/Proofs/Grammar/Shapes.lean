import FlakeInputs.Proofs.Expr.Shape
import FlakeInputs.Proofs.Grammar.Derivation

/-!
# Derivations do not look at spans

Tokens of the same kinds and lexemes are phrases of the same symbols, and what they
spell has the same shape.
-/

namespace FlakeInputs

/-- What the grammar sees of a token. -/
def Token.bare (t : Token) : TokenKind × Text :=
  (t.kind, t.lexeme)

theorem Part.isEmpty_shape (p : Part) : p.shape.isEmpty = p.isEmpty := by
  cases p <;> rfl

theorem Part.map_shape_compact (parts : List Part) :
    (Part.compact parts).map Part.shape = Part.compact (parts.map Part.shape) :=
  Part.map_compact fun p _ => Part.isEmpty_shape p

namespace Grammar

/-- What a phrase spells, without spans. -/
def Symbol.shape : (s : Symbol) → s.Val → s.Val
  | .links _ _ _ => List.map fun (op, e) => (op, e.shape)
  | .arguments | .elements => List.map Expr.shape
  | .interpolation => fun (_, e) => (.blank, e.shape)
  | .parts _ => List.map Part.shape
  | .literal _ _ => fun (_, ps) => (.blank, ps.map Part.shape)
  | .key => Key.shape
  | .pathRest | .names => List.map Key.shape
  | .attrPath => fun (_, path) => (.blank, path.map Key.shape)
  | .keyValue => KeyValue.shape
  | .binding => Binding.shape
  | .bindings _ => List.map Binding.shape
  | .attrSet => fun (_, bs) => (.blank, bs.map Binding.shape)
  | .parameter => Parameter.shape
  | .entries => List.map (Option.map Parameter.shape)
  | .parameterList _ => ParameterList.shape
  | .expr | .levels _ _ | .complemented | .attrTest | .negated | .application | .select
  | .simple => Expr.shape

/-! ## Trees of operators -/

theorem shape_binary {left left' right right' : Expr} (op : Operator)
    (hleft : left'.shape = left.shape) (hright : right'.shape = right.shape) :
    (binary left' op right').shape = (binary left op right).shape := by
  simp [binary, Expr.shape, Node.shape, hleft, hright]

theorem shape_leftTree {first first' : Expr} {rest rest' : List (Operator × Expr)}
    (hfirst : first'.shape = first.shape)
    (hrest : rest'.map (fun (op, e) => (op, e.shape)) = rest.map fun (op, e) => (op, e.shape)) :
    (leftTree first' rest').shape = (leftTree first rest).shape := by
  induction rest generalizing first first' rest' with
  | nil =>
    obtain rfl := List.map_eq_nil_iff.1 hrest
    exact hfirst
  | cons item rest ih =>
    obtain ⟨⟨op', right'⟩, items, rfl, hitem, hitems⟩ := List.map_eq_cons_iff.1 hrest
    obtain ⟨op, right⟩ := item
    obtain ⟨rfl, hright⟩ := Prod.mk.inj hitem
    change (leftTree (binary first' op' right') items).shape =
      (leftTree (binary first op' right) rest).shape
    exact ih (shape_binary op' hfirst hright) hitems

theorem shape_rightTree {first first' : Expr} {rest rest' : List (Operator × Expr)}
    (hfirst : first'.shape = first.shape)
    (hrest : rest'.map (fun (op, e) => (op, e.shape)) = rest.map fun (op, e) => (op, e.shape)) :
    (rightTree first' rest').shape = (rightTree first rest).shape := by
  induction rest generalizing first first' rest' with
  | nil =>
    obtain rfl := List.map_eq_nil_iff.1 hrest
    exact hfirst
  | cons item rest ih =>
    obtain ⟨⟨op', right'⟩, items, rfl, hitem, hitems⟩ := List.map_eq_cons_iff.1 hrest
    obtain ⟨op, right⟩ := item
    obtain ⟨rfl, hright⟩ := Prod.mk.inj hitem
    exact shape_binary op' hfirst (ih hright hitems)

theorem shape_tree (level : Level) {first first' : Expr} {rest rest' : List (Operator × Expr)}
    (hfirst : first'.shape = first.shape)
    (hrest : rest'.map (fun (op, e) => (op, e.shape)) = rest.map fun (op, e) => (op, e.shape)) :
    (level.tree first' rest').shape = (level.tree first rest).shape := by
  unfold Level.tree
  cases level.grouping with
  | leftward | single => exact shape_leftTree hfirst hrest
  | rightward => exact shape_rightTree hfirst hrest

theorem shape_applyAll {function function' : Expr} {arguments arguments' : List Expr}
    (hfunction : function'.shape = function.shape)
    (harguments : arguments'.map Expr.shape = arguments.map Expr.shape) :
    (applyAll function' arguments').shape = (applyAll function arguments).shape := by
  induction arguments generalizing function function' arguments' with
  | nil =>
    obtain rfl := List.map_eq_nil_iff.1 harguments
    exact hfunction
  | cons a arguments ih =>
    obtain ⟨a', rest, rfl, ha, hrest⟩ := List.map_eq_cons_iff.1 harguments
    change (applyAll ⟨_, .apply function' a'⟩ rest).shape =
      (applyAll ⟨_, .apply function a⟩ arguments).shape
    refine ih ?_ hrest
    simp [Expr.shape, Node.shape, hfunction, ha]

/-! ## The same tokens elsewhere -/

theorem map_bare_cons {t : Token} {p p' : List Token}
    (h : p'.map Token.bare = (t :: p).map Token.bare) :
    ∃ t' q', p' = t' :: q' ∧ t'.kind = t.kind ∧ t'.lexeme = t.lexeme ∧
      q'.map Token.bare = p.map Token.bare := by
  obtain ⟨t', q', rfl, ht, hq⟩ := List.map_eq_cons_iff.1 h
  obtain ⟨hkind, hlexeme⟩ := Prod.mk.inj ht
  exact ⟨t', q', rfl, hkind, hlexeme, hq⟩

theorem map_bare_append {p q p' : List Token}
    (h : p'.map Token.bare = (p ++ q).map Token.bare) :
    ∃ a b, p' = a ++ b ∧ a.map Token.bare = p.map Token.bare ∧
      b.map Token.bare = q.map Token.bare := by
  rw [List.map_append] at h
  exact List.map_eq_append_iff.1 h

theorem map_bare_nil {p' : List Token} (h : p'.map Token.bare = [].map Token.bare) : p' = [] :=
  List.map_eq_nil_iff.1 h

theorem shape_whole {list list' : ParameterList} (h : list'.shape = list.shape)
    (whole? : Option Text) :
    ({ list' with whole? } : ParameterList).shape =
      ({ list with whole? } : ParameterList).shape := by
  obtain ⟨span, parameters, ellipsis, old?⟩ := list
  obtain ⟨span', parameters', ellipsis', old?'⟩ := list'
  simp only [ParameterList.shape, ParameterList.mk.injEq] at h ⊢
  exact ⟨trivial, h.2.1, h.2.2.1, trivial⟩

theorem filterMap_id_cons {α : Type} (x : α) (xs : List (Option α)) :
    (some x :: xs).filterMap id = x :: xs.filterMap id := rfl

theorem shape_entries {entries entries' : List (Option Parameter)}
    (h : entries'.map (Option.map Parameter.shape) = entries.map (Option.map Parameter.shape)) :
    (entries'.filterMap id).map Parameter.shape = (entries.filterMap id).map Parameter.shape ∧
      entries'.any Option.isNone = entries.any Option.isNone := by
  induction entries generalizing entries' with
  | nil =>
    obtain rfl := List.map_eq_nil_iff.1 h
    exact ⟨rfl, rfl⟩
  | cons x xs ih =>
    obtain ⟨x', xs', rfl, hx, hxs⟩ := List.map_eq_cons_iff.1 h
    obtain ⟨hparameters, hellipsis⟩ := ih hxs
    cases x with
    | none =>
      obtain rfl := Option.map_eq_none_iff.1 hx
      exact ⟨hparameters, rfl⟩
    | some x =>
      obtain ⟨y, rfl, hy⟩ := Option.map_eq_some_iff.1 hx
      refine ⟨?_, hellipsis⟩
      rw [filterMap_id_cons, filterMap_id_cons, List.map_cons, List.map_cons, hy, hparameters]

/-- The same tokens elsewhere are a phrase of the same symbol, and what they spell has
the same shape. -/
def Moves (s : Symbol) (p : List Token) (v : s.Val) : Prop :=
  ∀ p' : List Token, p'.map Token.bare = p.map Token.bare →
    ∃ v', Derives s p' v' ∧ s.shape v' = s.shape v

attribute [local simp] Symbol.shape Expr.shape Node.shape Head.shape Part.shape Key.shape
  KeyValue.shape Binding.shape Parameter.shape

namespace Moves

/-! ### Phrases in a row -/

section
variable {s s₁ s₂ : Symbol} {t opening closing : Token} {p q : List Token} {v : s.Val}
  {v₁ : s₁.Val} {v₂ : s₂.Val}

theorem empty (h : Derives s [] v) : Moves s [] v := by
  intro p' hp
  obtain rfl := map_bare_nil hp
  exact ⟨v, h, rfl⟩

theorem token
    (h : ∀ {t' : Token}, t'.kind = t.kind → t'.lexeme = t.lexeme →
      ∃ v', Derives s [t'] v' ∧ s.shape v' = s.shape v) : Moves s [t] v := by
  intro p' hp
  obtain ⟨t', _, rfl, hkind, hlexeme, hp⟩ := map_bare_cons hp
  obtain rfl := map_bare_nil hp
  exact h hkind hlexeme

theorem unit (h₁ : Moves s₁ p v₁)
    (h : ∀ {p' : List Token} {w₁ : s₁.Val}, Derives s₁ p' w₁ → s₁.shape w₁ = s₁.shape v₁ →
      ∃ v', Derives s p' v' ∧ s.shape v' = s.shape v) : Moves s p v := by
  intro p' hp
  obtain ⟨w₁, hw₁, hshape⟩ := h₁ p' hp
  exact h hw₁ hshape

theorem behind (h₁ : Moves s₁ p v₁)
    (h : ∀ {t' : Token} {p' : List Token} {w₁ : s₁.Val}, t'.kind = t.kind →
      t'.lexeme = t.lexeme → Derives s₁ p' w₁ → s₁.shape w₁ = s₁.shape v₁ →
        ∃ v', Derives s (t' :: p') v' ∧ s.shape v' = s.shape v) : Moves s (t :: p) v := by
  intro p' hp
  obtain ⟨t', p', rfl, hkind, hlexeme, hp⟩ := map_bare_cons hp
  obtain ⟨w₁, hw₁, hshape⟩ := h₁ p' hp
  exact h hkind hlexeme hw₁ hshape

theorem append (h₁ : Moves s₁ p v₁) (h₂ : Moves s₂ q v₂)
    (h : ∀ {p' q' : List Token} {w₁ : s₁.Val} {w₂ : s₂.Val}, Derives s₁ p' w₁ → Derives s₂ q' w₂ →
      s₁.shape w₁ = s₁.shape v₁ → s₂.shape w₂ = s₂.shape v₂ →
        ∃ v', Derives s (p' ++ q') v' ∧ s.shape v' = s.shape v) : Moves s (p ++ q) v := by
  intro p' hp
  obtain ⟨p', q', rfl, hp, hq⟩ := map_bare_append hp
  obtain ⟨w₁, hw₁, hshape₁⟩ := h₁ p' hp
  obtain ⟨w₂, hw₂, hshape₂⟩ := h₂ q' hq
  exact h hw₁ hw₂ hshape₁ hshape₂

/-- Two phrases with a token between them. -/
theorem separated (h₁ : Moves s₁ p v₁) (h₂ : Moves s₂ q v₂)
    (h : ∀ {t' : Token} {p' q' : List Token} {w₁ : s₁.Val} {w₂ : s₂.Val}, t'.kind = t.kind →
      Derives s₁ p' w₁ → Derives s₂ q' w₂ → s₁.shape w₁ = s₁.shape v₁ →
        s₂.shape w₂ = s₂.shape v₂ →
          ∃ v', Derives s (p' ++ t' :: q') v' ∧ s.shape v' = s.shape v) :
    Moves s (p ++ t :: q) v := by
  intro p' hp
  obtain ⟨p', q', rfl, hp', hq⟩ := map_bare_append hp
  obtain ⟨t', q', rfl, ht, -, hq⟩ := map_bare_cons hq
  obtain ⟨w₁, hw₁, hshape₁⟩ := h₁ p' hp'
  obtain ⟨w₂, hw₂, hshape₂⟩ := h₂ q' hq
  exact h ht hw₁ hw₂ hshape₁ hshape₂

/-- A phrase between two tokens. -/
theorem enclosed (h₁ : Moves s₁ p v₁)
    (h : ∀ {opening' closing' : Token} {p' : List Token} {w₁ : s₁.Val},
      opening'.kind = opening.kind → closing'.kind = closing.kind → Derives s₁ p' w₁ →
        s₁.shape w₁ = s₁.shape v₁ →
          ∃ v', Derives s (opening' :: (p' ++ [closing'])) v' ∧ s.shape v' = s.shape v) :
    Moves s (opening :: (p ++ [closing])) v := by
  intro p' hp
  obtain ⟨opening', p', rfl, ho, -, hp⟩ := map_bare_cons hp
  obtain ⟨p', q', rfl, hp', hq⟩ := map_bare_append hp
  obtain ⟨closing', _, rfl, hc, -, hq⟩ := map_bare_cons hq
  obtain rfl := map_bare_nil hq
  obtain ⟨w₁, hw₁, hshape⟩ := h₁ p' hp'
  exact h ho hc hw₁ hshape

/-- Two phrases with a token in front of each of them. -/
theorem guarded (h₁ : Moves s₁ p v₁) (h₂ : Moves s₂ q v₂)
    (h : ∀ {word t' : Token} {p' q' : List Token} {w₁ : s₁.Val} {w₂ : s₂.Val},
      word.kind = opening.kind → t'.kind = t.kind → Derives s₁ p' w₁ → Derives s₂ q' w₂ →
        s₁.shape w₁ = s₁.shape v₁ → s₂.shape w₂ = s₂.shape v₂ →
          ∃ v', Derives s (word :: (p' ++ t' :: q')) v' ∧ s.shape v' = s.shape v) :
    Moves s (opening :: (p ++ t :: q)) v := by
  intro p' hp
  obtain ⟨word, p', rfl, hword, -, hp⟩ := map_bare_cons hp
  obtain ⟨p', q', rfl, hp', hq⟩ := map_bare_append hp
  obtain ⟨t', q', rfl, ht, -, hq⟩ := map_bare_cons hq
  obtain ⟨w₁, hw₁, hshape₁⟩ := h₁ p' hp'
  obtain ⟨w₂, hw₂, hshape₂⟩ := h₂ q' hq
  exact h hword ht hw₁ hw₂ hshape₁ hshape₂

end

/-! ### Functions and conditionals -/

section
variable {name atSign colon : Token} {p q : List Token} {list : ParameterList} {body : Expr}

theorem simpleFunction (hname : name.kind = .identifier) (hcolon : colon.kind = .colon)
    (ih : Moves .expr p body) :
    Moves .expr (name :: colon :: p)
      ⟨name.span.join body.span, .function (.simple name.span name.lexeme) body⟩ := by
  intro p' hp
  obtain ⟨_, _, rfl, hn, hlexeme, hp⟩ := map_bare_cons hp
  obtain ⟨_, _, rfl, hc, -, hp⟩ := map_bare_cons hp
  obtain ⟨_, hbody, hshape⟩ := ih _ hp
  refine ⟨_, .simpleFunction (hn.trans hname) (hc.trans hcolon) hbody, ?_⟩
  simp_all

theorem namedFunction (hname : name.kind = .identifier) (hat : atSign.kind = .atSign)
    (hcolon : colon.kind = .colon) (ih : Moves (.parameterList (some name.lexeme)) p list)
    (ih' : Moves .expr q body) :
    Moves .expr (name :: atSign :: (p ++ colon :: q))
      ⟨name.span.join body.span, .function (.destructured list) body⟩ := by
  intro p' hp
  obtain ⟨_, _, rfl, hn, hlexeme, hp⟩ := map_bare_cons hp
  obtain ⟨_, _, rfl, ha, -, hp⟩ := map_bare_cons hp
  obtain ⟨_, _, rfl, hq, hp⟩ := map_bare_append hp
  obtain ⟨_, _, rfl, hc, -, hp⟩ := map_bare_cons hp
  obtain ⟨_, hlist, hshape⟩ := ih _ hq
  obtain ⟨_, hbody, hshape'⟩ := ih' _ hp
  rw [← hlexeme] at hlist
  refine ⟨_, .namedFunction (hn.trans hname) (ha.trans hat) hlist (hc.trans hcolon) hbody, ?_⟩
  simp_all

theorem listFunction (hcolon : colon.kind = .colon) (ih : Moves (.parameterList none) p list)
    (ih' : Moves .expr q body) :
    Moves .expr (p ++ colon :: q)
      ⟨list.span.join body.span, .function (.destructured { list with whole? := none }) body⟩ := by
  refine ih.separated ih' fun hc hlist hbody hshape hshape' =>
    ⟨_, .listFunction hlist (hc.trans hcolon) hbody, ?_⟩
  simp only [Symbol.shape] at hshape hshape' ⊢
  simp [shape_whole hshape, hshape']

theorem aliasedFunction (hat : atSign.kind = .atSign) (hname : name.kind = .identifier)
    (hcolon : colon.kind = .colon) (ih : Moves (.parameterList none) p list)
    (ih' : Moves .expr q body) :
    Moves .expr (p ++ atSign :: name :: colon :: q)
      ⟨list.span.join body.span,
        .function (.destructured { list with whole? := some name.lexeme }) body⟩ := by
  intro p' hp
  obtain ⟨_, _, rfl, hq, hp⟩ := map_bare_append hp
  obtain ⟨_, hlist, hshape⟩ := ih _ hq
  obtain ⟨_, _, rfl, ha, -, hp⟩ := map_bare_cons hp
  obtain ⟨_, _, rfl, hn, hlexeme, hp⟩ := map_bare_cons hp
  obtain ⟨_, _, rfl, hc, -, hp⟩ := map_bare_cons hp
  obtain ⟨_, hbody, hshape'⟩ := ih' _ hp
  refine ⟨_, .aliasedFunction hlist (ha.trans hat) (hn.trans hname) (hc.trans hcolon) hbody, ?_⟩
  simp only [Symbol.shape] at hshape hshape' ⊢
  simp [hlexeme, shape_whole hshape, hshape']

theorem conditional {word thenWord elseWord : Token} {r : List Token} {condition yes no : Expr}
    (hword : word.kind = .keyword .ifWord) (hthen : thenWord.kind = .keyword .thenWord)
    (helse : elseWord.kind = .keyword .elseWord) (ih : Moves .expr p condition)
    (ih' : Moves .expr q yes) (ih'' : Moves .expr r no) :
    Moves .expr (word :: (p ++ thenWord :: (q ++ elseWord :: r)))
      ⟨word.span.join no.span, .ifThenElse condition yes no⟩ := by
  intro p' hp
  obtain ⟨_, _, rfl, hw, -, hp⟩ := map_bare_cons hp
  obtain ⟨_, _, rfl, hq, hp⟩ := map_bare_append hp
  obtain ⟨_, hcondition, hshape⟩ := ih _ hq
  obtain ⟨_, _, rfl, ht, -, hp⟩ := map_bare_cons hp
  obtain ⟨_, _, rfl, hq, hp⟩ := map_bare_append hp
  obtain ⟨_, hyes, hshape'⟩ := ih' _ hq
  obtain ⟨_, _, rfl, he, -, hp⟩ := map_bare_cons hp
  obtain ⟨_, hno, hshape''⟩ := ih'' _ hp
  refine ⟨_, .conditional (hw.trans hword) hcondition (ht.trans hthen) hyes (he.trans helse) hno,
    ?_⟩
  simp_all

end

/-! ### Operators and selections -/

section
variable {p q r : List Token}

theorem link {tower : Tower} {level : Level} {table : List Level} {op : Operator} {sign : Token}
    {right : Expr} {rest : List (Operator × Expr)} (hsign : sign.kind = .operator op)
    (hop : op ∈ level.operators) (hsingle : level.grouping = .single → q = [])
    (ih : Moves (.levels tower table) p right) (ih' : Moves (.links tower level table) q rest) :
    Moves (.links tower level table) (sign :: (p ++ q)) ((op, right) :: rest) := by
  intro p' hp
  obtain ⟨_, _, rfl, hs, -, hp⟩ := map_bare_cons hp
  obtain ⟨_, _, rfl, hq, hp⟩ := map_bare_append hp
  obtain ⟨_, hright, hshape⟩ := ih _ hq
  obtain ⟨_, hrest, hshape'⟩ := ih' _ hp
  refine ⟨_, .link (hs.trans hsign) hop hright hrest fun hgrouping => ?_, ?_⟩
  · rw [hsingle hgrouping] at hp
    exact map_bare_nil hp
  · simp only [Symbol.shape] at hshape hshape' ⊢
    rw [List.map_cons, List.map_cons, hshape, hshape']

theorem selectionOr {dot orWord : Token} {source default : Expr} {span : Span} {path : List Key}
    (hdot : dot.kind = .dot) (hor : orWord.kind = .keyword .orWord) (ih : Moves .simple p source)
    (ih' : Moves .attrPath q (span, path)) (ih'' : Moves .select r default) :
    Moves .select (p ++ dot :: (q ++ orWord :: r))
      ⟨source.span.join default.span, .select source path (some default)⟩ := by
  intro p' hp
  obtain ⟨_, _, rfl, hq, hp⟩ := map_bare_append hp
  obtain ⟨_, hsource, hshape⟩ := ih _ hq
  obtain ⟨_, _, rfl, hd, -, hp⟩ := map_bare_cons hp
  obtain ⟨_, _, rfl, hq, hp⟩ := map_bare_append hp
  obtain ⟨_, hpath, hshape'⟩ := ih' _ hq
  obtain ⟨_, _, rfl, ho, -, hp⟩ := map_bare_cons hp
  obtain ⟨_, hdefault, hshape''⟩ := ih'' _ hp
  refine ⟨_, .selectionOr hsource (hd.trans hdot) hpath (ho.trans hor) hdefault, ?_⟩
  simp_all

end

/-! ### Keys, bindings and parameters -/

section
variable {word opening closing semicolon : Token} {p q : List Token}

theorem pathStep {dot : Token} {k : Key} {ks : List Key} (hdot : dot.kind = .dot)
    (ih : Moves .key p k) (ih' : Moves .pathRest q ks) :
    Moves .pathRest (dot :: (p ++ q)) (k :: ks) := by
  intro p' hp
  obtain ⟨_, _, rfl, hd, -, hp⟩ := map_bare_cons hp
  obtain ⟨_, _, rfl, hq, hp⟩ := map_bare_append hp
  obtain ⟨_, hk, hshape⟩ := ih _ hq
  obtain ⟨_, hks, hshape'⟩ := ih' _ hp
  refine ⟨_, .pathStep (hd.trans hdot) hk hks, ?_⟩
  simp_all

theorem keyValue {assign : Token} {span : Span} {path : List Key} {value : Expr}
    (hassign : assign.kind = .assign) (hsemicolon : semicolon.kind = .semicolon)
    (ih : Moves .attrPath p (span, path)) (ih' : Moves .expr q value) :
    Moves .keyValue (p ++ assign :: (q ++ [semicolon]))
      ⟨span.join semicolon.span, path, value⟩ := by
  intro p' hp
  obtain ⟨_, _, rfl, hq, hp⟩ := map_bare_append hp
  obtain ⟨_, hpath, hshape⟩ := ih _ hq
  obtain ⟨_, _, rfl, ha, -, hp⟩ := map_bare_cons hp
  obtain ⟨_, _, rfl, hq, hp⟩ := map_bare_append hp
  obtain ⟨_, hvalue, hshape'⟩ := ih' _ hq
  obtain ⟨_, _, rfl, hs, -, hp⟩ := map_bare_cons hp
  obtain rfl := map_bare_nil hp
  refine ⟨_, .keyValue hpath (ha.trans hassign) hvalue (hs.trans hsemicolon), ?_⟩
  simp_all

theorem inheritedFrom {source : Expr} {names : List Key}
    (hword : word.kind = .keyword .inheritWord) (hopening : opening.kind = .parenOpen)
    (hclosing : closing.kind = .parenClose) (hsemicolon : semicolon.kind = .semicolon)
    (ih : Moves .expr p source) (ih' : Moves .names q names) :
    Moves .binding (word :: opening :: (p ++ closing :: (q ++ [semicolon])))
      (.inherited (word.span.join semicolon.span) names (some source)) := by
  intro p' hp
  obtain ⟨_, _, rfl, hw, -, hp⟩ := map_bare_cons hp
  obtain ⟨_, _, rfl, ho, -, hp⟩ := map_bare_cons hp
  obtain ⟨_, _, rfl, hq, hp⟩ := map_bare_append hp
  obtain ⟨_, hsource, hshape⟩ := ih _ hq
  obtain ⟨_, _, rfl, hc, -, hp⟩ := map_bare_cons hp
  obtain ⟨_, _, rfl, hq, hp⟩ := map_bare_append hp
  obtain ⟨_, hnames, hshape'⟩ := ih' _ hq
  obtain ⟨_, _, rfl, hs, -, hp⟩ := map_bare_cons hp
  obtain rfl := map_bare_nil hp
  refine ⟨_, .inheritedFrom (hw.trans hword) (ho.trans hopening) hsource (hc.trans hclosing) hnames
    (hs.trans hsemicolon), ?_⟩
  simp_all

theorem parameterOr {name question : Token} {default : Expr} (hname : name.kind = .identifier)
    (hquestion : question.kind = .question) (ih : Moves .expr p default) :
    Moves .parameter (name :: question :: p)
      ⟨name.span.join default.span, name.lexeme, some default⟩ := by
  intro p' hp
  obtain ⟨_, _, rfl, hn, hlexeme, hp⟩ := map_bare_cons hp
  obtain ⟨_, _, rfl, hq, -, hp⟩ := map_bare_cons hp
  obtain ⟨_, hdefault, hshape⟩ := ih _ hp
  refine ⟨_, .parameterOr (hn.trans hname) (hq.trans hquestion) hdefault, ?_⟩
  simp_all

theorem parameterList {whole? : Option Text} {entries : List (Option Parameter)}
    (hopening : opening.kind = .braceOpen) (hclosing : closing.kind = .braceClose)
    (ih : Moves .entries p entries) :
    Moves (.parameterList whole?) (opening :: (p ++ [closing]))
      ⟨opening.span.join closing.span, entries.filterMap id, entries.any Option.isNone,
        whole?⟩ := by
  refine ih.enclosed fun ho hc hentries hshape =>
    ⟨_, .parameterList (ho.trans hopening) hentries (hc.trans hclosing), ?_⟩
  simp only [Symbol.shape] at hshape ⊢
  obtain ⟨hparameters, hellipsis⟩ := shape_entries hshape
  simp only [ParameterList.shape, Parameter.shapes_eq_map, hparameters, hellipsis]

end

end Moves

/-- Phrases do not depend on where their tokens stand. -/
theorem Derives.moves {s : Symbol} {p : List Token} {v : s.Val} (h : Derives s p v) :
    Moves s p v := by
  induction h with
  | noLink | noArgument | noElement | noPart | pathEnd | noName | noBinding | noEntry =>
    exact .empty (by constructor)
  | simpleFunction hname hcolon _ ih => exact .simpleFunction hname hcolon ih
  | namedFunction hname hat _ hcolon _ ih ih' => exact .namedFunction hname hat hcolon ih ih'
  | listFunction _ hcolon _ ih ih' => exact .listFunction hcolon ih ih'
  | aliasedFunction _ hat hname hcolon _ ih ih' => exact .aliasedFunction hat hname hcolon ih ih'
  | assertion hword _ hsemicolon _ ih ih' =>
    exact ih.guarded ih' fun hw hs h h' hshape hshape' =>
      ⟨_, .assertion (hw.trans hword) h (hs.trans hsemicolon) h', by simp_all⟩
  | withScope hword _ hsemicolon _ ih ih' =>
    exact ih.guarded ih' fun hw hs h h' hshape hshape' =>
      ⟨_, .withScope (hw.trans hword) h (hs.trans hsemicolon) h', by simp_all⟩
  | letIn hword _ hin _ ih ih' =>
    exact ih.guarded ih' fun hw hi h h' hshape hshape' =>
      ⟨_, .letIn (hw.trans hword) h (hi.trans hin) h', by simp_all⟩
  | conditional hword _ hthen _ helse _ ih ih' ih'' =>
    exact .conditional hword hthen helse ih ih' ih''
  | operation _ ih => exact ih.unit fun h hshape => ⟨_, .operation h, hshape⟩
  | complementedBase _ ih => exact ih.unit fun h hshape => ⟨_, .complementedBase h, hshape⟩
  | attrTestBase _ ih => exact ih.unit fun h hshape => ⟨_, .attrTestBase h, hshape⟩
  | uncomplemented _ ih => exact ih.unit fun h hshape => ⟨_, .uncomplemented h, hshape⟩
  | untested _ ih => exact ih.unit fun h hshape => ⟨_, .untested h, hshape⟩
  | unnegated _ ih => exact ih.unit fun h hshape => ⟨_, .unnegated h, hshape⟩
  | unselected _ ih => exact ih.unit fun h hshape => ⟨_, .unselected h, hshape⟩
  | chain _ _ ih ih' =>
    exact ih.append ih' fun h h' hshape hshape' => ⟨_, .chain h h', shape_tree _ hshape hshape'⟩
  | link hsign hop _ _ hsingle ih ih' => exact .link hsign hop hsingle ih ih'
  | complement hsign _ ih =>
    exact ih.behind fun hs _ h hshape => ⟨_, .complement (hs.trans hsign) h, by simp_all⟩
  | negate hsign _ ih =>
    exact ih.behind fun hs _ h hshape => ⟨_, .negate (hs.trans hsign) h, by simp_all⟩
  | hasAttr _ hquestion _ ih ih' =>
    exact ih.separated ih' fun hq h h' hshape hshape' =>
      ⟨_, .hasAttr h (hq.trans hquestion) h', by simp_all⟩
  | apply _ _ ih ih' =>
    exact ih.append ih' fun h h' hshape hshape' => ⟨_, .apply h h', shape_applyAll hshape hshape'⟩
  | argument _ _ ih ih' =>
    exact ih.append ih' fun h h' hshape hshape' => ⟨_, .argument h h', by simp_all⟩
  | selection _ hdot _ ih ih' =>
    exact ih.separated ih' fun hd h h' hshape hshape' =>
      ⟨_, .selection h (hd.trans hdot) h', by simp_all⟩
  | selectionOr _ hdot _ hor _ ih ih' ih'' => exact .selectionOr hdot hor ih ih' ih''
  | identifier ht =>
    exact .token fun hk hlexeme => ⟨_, .identifier (hk.trans ht), by simp [hlexeme]⟩
  | integer ht hlength =>
    exact .token fun hk hlexeme =>
      ⟨_, .integer (hk.trans ht) (hlexeme ▸ hlength), by simp [hlexeme]⟩
  | float ht => exact .token fun hk hlexeme => ⟨_, .float (hk.trans ht), by simp [hlexeme]⟩
  | path ht => exact .token fun hk hlexeme => ⟨_, .path (hk.trans ht), by simp [hlexeme]⟩
  | searchPath ht =>
    exact .token fun hk hlexeme => ⟨_, .searchPath (hk.trans ht), by simp [hlexeme]⟩
  | uri ht => exact .token fun hk hlexeme => ⟨_, .uri (hk.trans ht), by simp [hlexeme]⟩
  | string _ ih => exact ih.unit fun h hshape => ⟨_, .string h, by simp_all⟩
  | indentedString _ ih => exact ih.unit fun h hshape => ⟨_, .indentedString h, by simp_all⟩
  | map _ ih => exact ih.unit fun h hshape => ⟨_, .map h, by simp_all⟩
  | parenthesised hopening _ hclosing ih =>
    exact ih.enclosed fun ho hc h hshape =>
      ⟨_, .parenthesised (ho.trans hopening) h (hc.trans hclosing), hshape⟩
  | recSet hword _ ih =>
    exact ih.behind fun hw _ h hshape => ⟨_, .recSet (hw.trans hword) h, by simp_all⟩
  | list hopening _ hclosing ih =>
    exact ih.enclosed fun ho hc h hshape =>
      ⟨_, .list (ho.trans hopening) h (hc.trans hclosing), by simp_all⟩
  | element _ _ ih ih' =>
    exact ih.append ih' fun h h' hshape hshape' => ⟨_, .element h h', by simp_all⟩
  | interpolation hopening _ hclosing ih =>
    exact ih.enclosed fun ho hc h hshape =>
      ⟨_, .interpolation (ho.trans hopening) h (hc.trans hclosing), by simp_all⟩
  | textPart ht _ ih =>
    exact ih.behind fun hk hlexeme h hshape => ⟨_, .textPart (hk.trans ht) h, by simp_all⟩
  | interpolationPart _ _ ih ih' =>
    exact ih.append ih' fun h h' hshape hshape' => ⟨_, .interpolationPart h h', by simp_all⟩
  | literal hopening _ hclosing ih =>
    exact ih.enclosed fun ho hc h hshape =>
      ⟨_, .literal (ho.trans hopening) h (hc.trans hclosing), by simp_all [Part.map_shape_compact]⟩
  | bareKey ht => exact .token fun hk hlexeme => ⟨_, .bareKey (hk ▸ ht), by simp [hlexeme]⟩
  | quotedKey _ ih => exact ih.unit fun h hshape => ⟨_, .quotedKey h, by simp_all⟩
  | computedKey _ ih => exact ih.unit fun h hshape => ⟨_, .computedKey h, by simp_all⟩
  | pathStep hdot _ _ ih ih' => exact .pathStep hdot ih ih'
  | attrPath _ _ ih ih' =>
    exact ih.append ih' fun h h' hshape hshape' => ⟨_, .attrPath h h', by simp_all⟩
  | name _ _ ih ih' => exact ih.append ih' fun h h' hshape hshape' => ⟨_, .name h h', by simp_all⟩
  | keyValue _ hassign _ hsemicolon ih ih' => exact .keyValue hassign hsemicolon ih ih'
  | keyValueBinding _ ih => exact ih.unit fun h hshape => ⟨_, .keyValueBinding h, by simp_all⟩
  | inherited hword _ hsemicolon ih =>
    exact ih.enclosed fun hw hs h hshape =>
      ⟨_, .inherited (hw.trans hword) h (hs.trans hsemicolon), by simp_all⟩
  | inheritedFrom hword hopening _ hclosing _ hsemicolon ih ih' =>
    exact .inheritedFrom hword hopening hclosing hsemicolon ih ih'
  | bindings _ _ ih ih' =>
    exact ih.append ih' fun h h' hshape hshape' => ⟨_, .bindings h h', by simp_all⟩
  | attrSet hopening _ hclosing ih =>
    exact ih.enclosed fun ho hc h hshape =>
      ⟨_, .attrSet (ho.trans hopening) h (hc.trans hclosing), by simp_all⟩
  | parameter hname =>
    exact .token fun hn hlexeme => ⟨_, .parameter (hn.trans hname), by simp [hlexeme]⟩
  | parameterOr hname hquestion _ ih => exact .parameterOr hname hquestion ih
  | ellipsis ht => exact .token fun hk _ => ⟨_, .ellipsis (hk.trans ht), rfl⟩
  | lastEntry _ ih => exact ih.unit fun h hshape => ⟨_, .lastEntry h, by simp_all⟩
  | entry _ hcomma _ ih ih' =>
    exact ih.separated ih' fun hc h h' hshape hshape' =>
      ⟨_, .entry h (hc.trans hcomma) h', by simp_all⟩
  | parameterList hopening _ hclosing ih => exact .parameterList hopening hclosing ih

end Grammar
end FlakeInputs
