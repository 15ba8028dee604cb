import FlakeInputs.Proofs.Grammar.Layout

/-!
# Where expressions end

Parentheses leave no trace in a syntax tree, and the span of an expression does not take them in.
So the tokens of an expression end where its span ends, but for closing parentheses behind that.
-/

namespace FlakeInputs
namespace Grammar

/-- The tokens end at the given position, but for closing parentheses behind it. -/
def Trails (p : List Token) (stop : Position) : Prop :=
  ∃ q r, p = q ++ r ∧ EndsAt q stop ∧ ∀ t ∈ r, t.kind = .parenClose

section
variable {p q : List Token} {stop : Position}

theorem EndsAt.trails (h : EndsAt p stop) : Trails p stop :=
  ⟨p, [], (List.append_nil p).symm, h, by simp⟩

theorem Trails.behind (h : Trails q stop) (p : List Token) : Trails (p ++ q) stop := by
  obtain ⟨q, r, rfl, hq, hr⟩ := h
  exact ⟨p ++ q, r, (List.append_assoc p q r).symm, hq.append p, hr⟩

theorem Trails.cons (h : Trails q stop) (t : Token) : Trails (t :: q) stop :=
  h.behind [t]

theorem Trails.concat (h : Trails p stop) {t : Token} (ht : t.kind = .parenClose) :
    Trails (p ++ [t]) stop := by
  obtain ⟨q, r, rfl, hq, hr⟩ := h
  refine ⟨q, r ++ [t], List.append_assoc q r [t], hq, ?_⟩
  intro z hz
  rcases List.mem_append.1 hz with hz | hz
  · exact hr z hz
  · rw [List.mem_singleton.1 hz]
    exact ht

end

/-! ## Operands in a row -/

theorem stop_leftTree (first : Expr) (rest : List (Operator × Expr)) :
    (leftTree first rest).span.stop =
      Span.lastStop first.span.stop (rest.map fun (_, e) => e.span) := by
  induction rest generalizing first with
  | nil => rfl
  | cons item rest ih => exact ih _

theorem stop_rightTree (first : Expr) (rest : List (Operator × Expr)) :
    (rightTree first rest).span.stop =
      Span.lastStop first.span.stop (rest.map fun (_, e) => e.span) := by
  induction rest generalizing first with
  | nil => rfl
  | cons item rest ih => exact ih item.2

theorem stop_tree (level : Level) (first : Expr) (rest : List (Operator × Expr)) :
    (level.tree first rest).span.stop =
      Span.lastStop first.span.stop (rest.map fun (_, e) => e.span) := by
  unfold Level.tree
  cases level.grouping with
  | leftward | single => exact stop_leftTree first rest
  | rightward => exact stop_rightTree first rest

theorem stop_applyAll (function : Expr) (arguments : List Expr) :
    (applyAll function arguments).span.stop =
      Span.lastStop function.span.stop (arguments.map Expr.span) := by
  induction arguments generalizing function with
  | nil => rfl
  | cons argument arguments ih => exact ih _

/-- Behind tokens that end at some position, these tokens end where the last of the spans stops. -/
def TrailsLast (p : List Token) (spans : List Span) : Prop :=
  ∀ l stop, Trails l stop → Trails (l ++ p) (Span.lastStop stop spans)

theorem trailsLast_nil : TrailsLast [] [] := by
  intro l stop h
  rw [List.append_nil]
  exact h

theorem TrailsLast.cons {p q : List Token} {span : Span} {spans : List Span}
    (hp : Trails p span.stop) (hq : TrailsLast q spans) : TrailsLast (p ++ q) (span :: spans) := by
  intro l stop _
  rw [← List.append_assoc]
  exact hq (l ++ p) span.stop (hp.behind l)

/-! ## Phrases -/

/-- What the tokens of a phrase that spells expressions end with. -/
def Symbol.Trailing : (s : Symbol) → List Token → s.Val → Prop
  | .expr, p, e | .levels _ _, p, e | .complemented, p, e | .attrTest, p, e | .negated, p, e
  | .application, p, e | .select, p, e | .simple, p, e => Trails p e.span.stop
  | .links _ _ _, p, rest => TrailsLast p (rest.map fun (_, e) => e.span)
  | .arguments, p, es => TrailsLast p (es.map Expr.span)
  | .parameter, p, x => Trails p x.span.stop
  | _, _, _ => True

/-- The tokens of an expression or a parameter end where its span ends, but for closing parentheses
behind that. -/
theorem Derives.trailing {s : Symbol} {p : List Token} {v : s.Val} (h : Derives s p v) :
    s.Trailing p v := by
  induction h with
  | noLink | noArgument => exact trailsLast_nil
  | operation _ ih | complementedBase _ ih | attrTestBase _ ih | uncomplemented _ ih
  | untested _ ih | unnegated _ ih | unselected _ ih => exact ih
  | simpleFunction _ _ _ ih => exact (ih.cons _).cons _
  | namedFunction _ _ _ _ _ _ ih => exact (((ih.cons _).behind _).cons _).cons _
  | listFunction _ _ _ _ ih => exact (ih.cons _).behind _
  | aliasedFunction _ _ _ _ _ _ ih => exact (((ih.cons _).cons _).cons _).behind _
  | assertion _ _ _ _ _ ih | withScope _ _ _ _ _ ih | letIn _ _ _ _ _ ih =>
    exact ((ih.cons _).behind _).cons _
  | conditional _ _ _ _ _ _ _ _ ih =>
    exact ((((ih.cons _).behind _).cons _).behind _).cons _
  | chain _ _ ih ih' =>
    rw [Symbol.Trailing, stop_tree]
    exact ih' _ _ ih
  | @link _ _ _ _ sign p q _ _ _ _ _ _ _ ih ih' => exact TrailsLast.cons (ih.cons sign) ih'
  | complement _ _ ih | negate _ _ ih => exact ih.cons _
  | hasAttr _ _ hpath | selection _ _ hpath =>
    exact (hpath.frames_attrPath.stop.trails.cons _).behind _
  | selectionOr _ _ _ _ _ _ _ ih => exact (((ih.cons _).behind _).cons _).behind _
  | apply _ _ ih ih' =>
    rw [Symbol.Trailing, stop_applyAll]
    exact ih' _ _ ih
  | argument _ _ ih ih' => exact TrailsLast.cons ih ih'
  | identifier | integer | float | path | searchPath | uri => exact (frames_single _).stop.trails
  | string h | indentedString h => exact h.frames_literal.stop.trails
  | parenthesised _ _ hclosing ih => exact (ih.concat hclosing).cons _
  | recSet _ h => exact h.frames_attrSet.stop.trails.cons _
  | map h => exact h.frames_attrSet.stop.trails
  | list => exact (frames_enclosed _ _ _).stop.trails
  | parameter => exact (frames_single _).stop.trails
  | parameterOr _ _ _ ih => exact (ih.cons _).cons _
  | _ => trivial

theorem Derives.trails_parameter {p : List Token} {x : Parameter} (h : Derives .parameter p x) :
    Trails p x.span.stop :=
  h.trailing

/-- A parameter starts with its name. -/
theorem Derives.parameter_start {t : Token} {q : List Token} {x : Parameter}
    (h : Derives .parameter (t :: q) x) : x.span.start = t.span.start := by
  cases h with
  | parameter => rfl
  | parameterOr => rfl

end Grammar
end FlakeInputs
