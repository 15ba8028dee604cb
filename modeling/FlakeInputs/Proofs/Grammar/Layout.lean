import FlakeInputs.Proofs.Expr.Subtrees
import FlakeInputs.Proofs.Token.Braces

/-!
# The layout of a syntax tree

Every node of a syntax tree has tokens of its own, the first and the last of which give its span.
The tokens of its children are a part of them, one child behind the other.  Around the tokens of
a node there may be parentheses that belong to no node.

The scanner reads the tokens of a phrase with the same delimiters open before and behind them, an
expression where no string is open and the parts of a string where that string is.  So the layout
also tells which delimiters are open where a node begins.
-/

namespace FlakeInputs

namespace Scan

/-- The modes behind tokens of the given kinds. -/
def modesBehind (m : List Mode) (ks : List TokenKind) : List Mode :=
  ks.foldl (fun m kind => (Piece.token kind []).modes m) m

@[simp]
theorem modesBehind_nil (m : List Mode) : modesBehind m [] = m := rfl

@[simp]
theorem modesBehind_cons (m : List Mode) (kind : TokenKind) (ks : List TokenKind) :
    modesBehind m (kind :: ks) = modesBehind ((Piece.token kind []).modes m) ks := rfl

@[simp]
theorem modesBehind_append (m : List Mode) (ks ks' : List TokenKind) :
    modesBehind m (ks ++ ks') = modesBehind (modesBehind m ks) ks' :=
  List.foldl_append

theorem Piece.modes_token (kind : TokenKind) (x : Text) (m : List Mode) :
    (Piece.token kind x).modes m = (Piece.token kind []).modes m := by
  cases kind
  case quote | indentQuote => rcases m with _ | ⟨_ | _ | _ | _, m⟩ <;> rfl
  all_goals rfl

/-- The modes behind some pieces are those behind the tokens among them. -/
theorem modesAfter_eq (m : List Mode) (ps : List Piece) :
    modesAfter m ps = modesBehind m (kinds ps) := by
  induction ps generalizing m with
  | nil => rfl
  | cons p ps ih =>
    cases p with
    | gap x => exact ih m
    | token kind x =>
      rw [kinds_token, modesBehind_cons, ← Piece.modes_token kind x]
      exact ih _

end Scan

namespace Grammar

open Scan (Mode Piece inString modesBehind)

/-- The modes behind some tokens. -/
def behind (m : List Mode) (p : List Token) : List Mode :=
  modesBehind m (p.map Token.kind)

@[simp]
theorem behind_nil (m : List Mode) : behind m [] = m := rfl

@[simp]
theorem behind_append (m : List Mode) (p q : List Token) :
    behind m (p ++ q) = behind (behind m p) q := by
  simp [behind]

/-! ## Layouts -/

/-- The forms of expressions that stand between delimiters of their own. -/
def isDelimited : Node → Bool
  | .string _ | .indentedString _ | .map _ _ | .list _ => true
  | _ => false

/-- What is known of the tokens of a node with delimiters of its own, read with the given modes
open: they spell that node. -/
def Formed (m : List Mode) (q : List Token) : Subtree → Prop
  | .expr e =>
    isDelimited e.node = true →
      inString m = false ∧ Derives .simple q e ∧ headKind q ≠ some .parenOpen
  | .key (.quoted span parts) =>
    inString m = false ∧ Derives .simple q ⟨span, .string parts⟩ ∧ headKind q ≠ some .parenOpen
  | .binding b => inString m = false ∧ Derives .binding q b
  | .head (.destructured list) =>
    ∃ whole? list', Derives (.parameterList whole?) q list' ∧
      list = { list' with whole? := list.whole? }
  | _ => True

/-- The tokens begin at the given position. -/
def StartsAt (p : List Token) (start : Position) : Prop :=
  p.head?.map (·.span.start) = some start

/-- The tokens end at the given position. -/
def EndsAt (p : List Token) (stop : Position) : Prop :=
  p.getLast?.map (·.span.stop) = some stop

/-- Each of the nodes has a stretch of the tokens for itself, one behind the other, and its
children are laid out in that stretch in the same way.  Before the first of the tokens the modes
`m` are open. -/
inductive Laid : List Mode → List Token → List Subtree → Prop
  | nil {m : List Mode} (p : List Token) : Laid m p []
  | cons {m : List Mode} (p : List Token) {q r : List Token} {x : Subtree} {xs : List Subtree}
      (hstart : StartsAt q x.span.start) (hstop : EndsAt q x.span.stop)
      (hformed : Formed (behind m p) q x) (hchildren : Laid (behind m p) q x.children)
      (hrest : Laid (behind m (p ++ q)) r xs) : Laid m (p ++ (q ++ r)) (x :: xs)

theorem StartsAt.append {p : List Token} {start : Position} (h : StartsAt p start)
    (q : List Token) : StartsAt (p ++ q) start := by
  cases p with
  | nil => simp [StartsAt] at h
  | cons t p => exact h

theorem EndsAt.append {q : List Token} {stop : Position} (h : EndsAt q stop) (p : List Token) :
    EndsAt (p ++ q) stop := by
  obtain ⟨t, ht, hstop⟩ := Option.map_eq_some_iff.1 h
  simp [EndsAt, List.getLast?_append, ht, hstop]

theorem StartsAt.ne_nil {p : List Token} {start : Position} (h : StartsAt p start) : p ≠ [] := by
  rintro rfl
  simp [StartsAt] at h

theorem EndsAt.ne_nil {p : List Token} {stop : Position} (h : EndsAt p stop) : p ≠ [] := by
  rintro rfl
  simp [EndsAt] at h

theorem StartsAt.of_append {p q : List Token} {start : Position} (h : StartsAt (p ++ q) start)
    (hp : p ≠ []) : StartsAt p start := by
  cases p with
  | nil => exact absurd rfl hp
  | cons t p => exact h

theorem EndsAt.of_append {p q : List Token} {stop : Position} (h : EndsAt (p ++ q) stop)
    (hq : q ≠ []) : EndsAt q stop := by
  have hlast := List.getLast?_eq_some_getLast hq
  rwa [EndsAt, List.getLast?_append, hlast, Option.some_or, ← hlast] at h

namespace Laid

variable {m : List Mode} {p q : List Token} {x : Subtree} {xs ys : List Subtree}

theorem behind_left (h : Laid (behind m p) q xs) : Laid m (p ++ q) xs := by
  generalize hm : behind m p = m' at h
  cases h with
  | nil => exact .nil _
  | @cons _ p' q' r x xs hstart hstop hformed hchildren hrest =>
    subst hm
    rw [← behind_append] at hformed hchildren
    rw [← behind_append, ← List.append_assoc] at hrest
    rw [← List.append_assoc]
    exact .cons _ hstart hstop hformed hchildren hrest

theorem append_right (h : Laid m p xs) (q : List Token) : Laid m (p ++ q) xs := by
  induction h with
  | nil p => exact .nil _
  | cons p hstart hstop hformed hchildren _ _ ih =>
    rw [List.append_assoc, List.append_assoc]
    exact .cons p hstart hstop hformed hchildren ih

theorem append (hp : Laid m p xs) (hq : Laid (behind m p) q ys) : Laid m (p ++ q) (xs ++ ys) := by
  induction hp with
  | nil p => exact hq.behind_left
  | cons p hstart hstop hformed hchildren _ _ ih =>
    rw [List.append_assoc, List.append_assoc, List.cons_append]
    refine .cons p hstart hstop hformed hchildren (ih ?_)
    simpa using hq

theorem sublist (h : Laid m p xs) (hys : ys.Sublist xs) : Laid m p ys := by
  induction h generalizing ys with
  | nil p =>
    rw [List.sublist_nil.1 hys]
    exact .nil p
  | @cons m p q r x xs hstart hstop hformed hchildren _ _ ih =>
    cases hys with
    | cons _ hys =>
      have hrest := (ih hys).behind_left
      rwa [List.append_assoc] at hrest
    | cons_cons _ hys => exact .cons p hstart hstop hformed hchildren (ih hys)

/-- A node whose tokens are exactly the given ones. -/
theorem node (hstart : StartsAt p x.span.start) (hstop : EndsAt p x.span.stop)
    (hformed : Formed m p x) (hchildren : Laid m p x.children) : Laid m p [x] := by
  have hlaid : Laid m ([] ++ (p ++ [])) [x] :=
    .cons [] hstart hstop hformed hchildren (.nil [])
  rwa [List.append_nil] at hlaid

/-- The tokens in front of the first node can be left away. -/
theorem exists_start (h : Laid m p (x :: xs)) :
    ∃ a q, p = a ++ q ∧ Laid (behind m a) q (x :: xs) ∧ StartsAt q x.span.start := by
  cases h with
  | @cons _ a q r _ _ hstart hstop hformed hchildren hrest =>
    refine ⟨a, q ++ r, rfl, ?_, hstart.append r⟩
    rw [behind_append] at hrest
    exact (node hstart hstop hformed hchildren).append hrest

/-- The tokens behind the last node can be left away. -/
theorem exists_stop (h : Laid m p (xs ++ [x])) :
    ∃ q b, p = q ++ b ∧ Laid m q (xs ++ [x]) ∧ EndsAt q x.span.stop := by
  induction xs generalizing m p with
  | nil =>
    cases h with
    | @cons _ a q r _ _ hstart hstop hformed hchildren hrest =>
      refine ⟨a ++ q, r, by rw [List.append_assoc], ?_, hstop.append a⟩
      exact (node hstart hstop hformed hchildren).behind_left
  | cons y xs ih =>
    cases h with
    | @cons _ a q r _ _ hstart hstop hformed hchildren hrest =>
      obtain ⟨r', b, rfl, hlaid, hends⟩ := ih hrest
      refine ⟨a ++ (q ++ r'), b, by simp only [List.append_assoc], ?_, ?_⟩
      · exact .cons a hstart hstop hformed hchildren hlaid
      · exact (hends.append q).append a

/-- The tokens of the first node and those of the others. -/
theorem exists_append (h : Laid m p (x :: xs)) :
    ∃ a b, p = a ++ b ∧ Laid m a [x] ∧ Laid (behind m a) b xs := by
  cases h with
  | @cons _ a q r _ _ hstart hstop hformed hchildren hrest =>
    refine ⟨a ++ q, r, by rw [List.append_assoc], ?_, hrest⟩
    exact (node hstart hstop hformed hchildren).behind_left

end Laid

/-- The node begins with the first of the tokens or with its first child. -/
def Opens (p : List Token) (x : Subtree) : Prop :=
  StartsAt p x.span.start ∨ ∃ y ys, x.children = y :: ys ∧ y.span.start = x.span.start

/-- The node ends with the last of the tokens or with its last child. -/
def Closes (p : List Token) (x : Subtree) : Prop :=
  EndsAt p x.span.stop ∨ ∃ ys y, x.children = ys ++ [y] ∧ y.span.stop = x.span.stop

/-- A node around its children. -/
theorem Laid.wrap {m : List Mode} {p : List Token} {x : Subtree} (h : Laid m p x.children)
    (hopens : Opens p x) (hcloses : Closes p x) (hformed : ∀ m q, Formed m q x) : Laid m p [x] := by
  -- What stands in front of the first child or behind the last one belongs to no node.
  obtain ⟨a, q, rfl, hq, hstart⟩ : ∃ a q, p = a ++ q ∧ Laid (behind m a) q x.children ∧
      StartsAt q x.span.start := by
    rcases hopens with hstart | ⟨y, ys, hchildren, hy⟩
    · exact ⟨[], p, rfl, h, hstart⟩
    · rw [hchildren] at h ⊢
      obtain ⟨a, q, rfl, hq, hstart⟩ := h.exists_start
      exact ⟨a, q, rfl, hq, hy ▸ hstart⟩
  obtain ⟨r, b, rfl, hr, hstop⟩ : ∃ r b, q = r ++ b ∧ Laid (behind m a) r x.children ∧
      EndsAt r x.span.stop := by
    rcases hcloses with hstop | ⟨ys, y, hchildren, hy⟩
    · exact ⟨q, [], by simp, hq, hstop.of_append hstart.ne_nil⟩
    · rw [hchildren] at hq ⊢
      obtain ⟨r, b, rfl, hr, hstop⟩ := hq.exists_stop
      exact ⟨r, b, rfl, hr, hy ▸ hstop⟩
  have hnode := Laid.node (hstart.of_append hstop.ne_nil) hstop (hformed _ _) hr
  exact (hnode.append_right b).behind_left

/-! ## Trees of operators -/

/-- An expression made of two others, one behind the other. -/
theorem Laid.pair {m : List Mode} {p q : List Token} {left right : Expr} {node : Node}
    (hp : Laid m p [.expr left]) (hq : Laid (behind m p) q [.expr right])
    (hnode : Subtree.ofNode node = [.expr left, .expr right]) (hplain : isDelimited node = false) :
    Laid m (p ++ q) [.expr ⟨left.span.join right.span, node⟩] := by
  have hchildren : Laid m (p ++ q) (Subtree.ofNode node) := by
    rw [hnode]
    exact hp.append hq
  refine Laid.wrap hchildren (.inr ⟨_, _, hnode, rfl⟩) (.inr ⟨[.expr left], _, hnode, rfl⟩) ?_
  intro m q hdelimited
  rw [hplain] at hdelimited
  exact Bool.noConfusion hdelimited

theorem laid_leftTree {m : List Mode} {p q : List Token} {first : Expr}
    {rest : List (Operator × Expr)} (hp : Laid m p [.expr first])
    (hq : Laid (behind m p) q (rest.map fun (_, e) => .expr e)) :
    Laid m (p ++ q) [.expr (leftTree first rest)] := by
  induction rest generalizing p q first with
  | nil => exact hp.append_right q
  | cons item rest ih =>
    obtain ⟨op, right⟩ := item
    obtain ⟨a, b, rfl, ha, hb⟩ := hq.exists_append
    rw [← behind_append] at hb
    rw [← List.append_assoc]
    exact ih (Laid.pair hp ha rfl rfl) hb

theorem laid_rightTree {m : List Mode} {p q : List Token} {first : Expr}
    {rest : List (Operator × Expr)} (hp : Laid m p [.expr first])
    (hq : Laid (behind m p) q (rest.map fun (_, e) => .expr e)) :
    Laid m (p ++ q) [.expr (rightTree first rest)] := by
  induction rest generalizing m p q first with
  | nil => exact hp.append_right q
  | cons item rest ih =>
    obtain ⟨op, next⟩ := item
    obtain ⟨a, b, rfl, ha, hb⟩ := hq.exists_append
    exact Laid.pair hp (ih ha hb) rfl rfl

theorem laid_tree (level : Level) {m : List Mode} {p q : List Token} {first : Expr}
    {rest : List (Operator × Expr)} (hp : Laid m p [.expr first])
    (hq : Laid (behind m p) q (rest.map fun (_, e) => .expr e)) :
    Laid m (p ++ q) [.expr (level.tree first rest)] := by
  unfold Level.tree
  cases level.grouping with
  | leftward | single => exact laid_leftTree hp hq
  | rightward => exact laid_rightTree hp hq

theorem laid_applyAll {m : List Mode} {p q : List Token} {function : Expr} {arguments : List Expr}
    (hp : Laid m p [.expr function]) (hq : Laid (behind m p) q (arguments.map .expr)) :
    Laid m (p ++ q) [.expr (applyAll function arguments)] := by
  induction arguments generalizing p q function with
  | nil => exact hp.append_right q
  | cons argument arguments ih =>
    obtain ⟨a, b, rfl, ha, hb⟩ := hq.exists_append
    rw [← behind_append] at hb
    rw [← List.append_assoc]
    exact ih (Laid.pair hp ha rfl rfl) hb

/-! ## Phrases with tokens of their own at both ends -/

theorem endsAt_concat (p : List Token) (t : Token) : EndsAt (p ++ [t]) t.span.stop := by
  simp [EndsAt]

/-- The tokens begin where the span begins and end where it ends. -/
structure Frames (p : List Token) (span : Span) : Prop where
  start : StartsAt p span.start
  stop : EndsAt p span.stop

theorem frames_single (t : Token) : Frames [t] t.span where
  start := rfl
  stop := rfl

theorem frames_enclosed (opening : Token) (p : List Token) (closing : Token) :
    Frames (opening :: (p ++ [closing])) (opening.span.join closing.span) where
  start := rfl
  stop := endsAt_concat (opening :: p) closing

theorem Derives.frames_literal {delimiter : TokenKind} {expected : Expected} {p : List Token}
    {span : Span} {parts : List Part} (h : Derives (.literal delimiter expected) p (span, parts)) :
    Frames p span := by
  cases h
  exact frames_enclosed _ _ _

theorem Derives.headKind_literal {delimiter : TokenKind} {expected : Expected} {p : List Token}
    {v : Span × List Part} (h : Derives (.literal delimiter expected) p v) :
    headKind p = some delimiter := by
  simpa [Symbol.begins] using h.begins

theorem Derives.headKind_attrSet {p : List Token} {v : Span × List Binding}
    (h : Derives .attrSet p v) : headKind p = some .braceOpen := by
  simpa [Symbol.begins] using h.begins

theorem Derives.frames_interpolation {p : List Token} {span : Span} {e : Expr}
    (h : Derives .interpolation p (span, e)) : Frames p span := by
  cases h
  exact frames_enclosed _ _ _

theorem Derives.frames_attrSet {p : List Token} {span : Span} {bindings : List Binding}
    (h : Derives .attrSet p (span, bindings)) : Frames p span := by
  cases h
  exact frames_enclosed _ _ _

theorem Derives.frames_parameterList {whole? : Option Text} {p : List Token} {list : ParameterList}
    (h : Derives (.parameterList whole?) p list) : Frames p list.span := by
  cases h
  exact frames_enclosed _ _ _

theorem Derives.frames_key {p : List Token} {k : Key} (h : Derives .key p k) : Frames p k.span := by
  cases h with
  | bareKey => exact frames_single _
  | quotedKey h => exact h.frames_literal
  | computedKey h => exact h.frames_interpolation

theorem Derives.path_endsAt {p q : List Token} {k : Key} {ks : List Key} (hk : Derives .key p k)
    (hks : Derives .pathRest q ks) : EndsAt (p ++ q) (lastSpan k ks).stop := by
  induction ks generalizing p q k with
  | nil =>
    cases hks
    rw [List.append_nil]
    exact hk.frames_key.stop
  | cons k' ks ih =>
    cases hks with
    | @pathStep dot p' q' _ _ _ hk' hks' =>
      have hlast : lastSpan k (k' :: ks) = lastSpan k' ks := by
        simp [lastSpan, List.getLast?_cons]
      rw [hlast]
      exact ((ih hk' hks').append [dot]).append p

theorem Derives.frames_attrPath {p : List Token} {span : Span} {path : List Key}
    (h : Derives .attrPath p (span, path)) : Frames p span := by
  cases h with
  | attrPath hk hks => exact ⟨hk.frames_key.start.append _, hk.path_endsAt hks⟩

/-- A path ends with its last key. -/
theorem Derives.attrPath_stop {p : List Token} {span : Span} {path : List Key}
    (h : Derives .attrPath p (span, path)) :
    ∃ (ks : List Key) (k : Key), path = ks ++ [k] ∧ k.span.stop = span.stop := by
  cases h with
  | @attrPath _ _ k ks _ _ =>
    obtain ⟨front, hpath⟩ := List.getLast?_eq_some_iff.1 (List.getLast?_cons (a := k) (l := ks))
    exact ⟨front, _, hpath, rfl⟩

/-! ## Phrases -/

/-- The mode of a string that the given delimiter opens. -/
def stringMode? : TokenKind → Option Mode
  | .quote => some .quoted
  | .indentQuote => some .indented
  | _ => none

/-- Whether a phrase of the symbol can be read with the given modes open. -/
def Symbol.Suits : Symbol → List Mode → Prop
  | parts delimiter, m => ∃ mode outer, stringMode? delimiter = some mode ∧ m = mode :: outer
  | literal delimiter _, m => (∃ mode, stringMode? delimiter = some mode) ∧ inString m = false
  | interpolation, _ => True
  | _, m => inString m = false

/-- The nodes that a phrase spells, without the nodes below them. -/
def Symbol.subtrees : (s : Symbol) → s.Val → List Subtree
  | .links _ _ _ => List.map fun (_, e) => .expr e
  | .arguments | .elements => List.map .expr
  | .interpolation => fun (_, e) => [.expr e]
  | .parts _ => List.map .part
  | .literal _ _ => fun (_, ps) => ps.map .part
  | .key => fun k => [.key k]
  | .pathRest | .names => List.map .key
  | .attrPath => fun (_, path) => path.map .key
  | .keyValue => fun b => [.binding (.keyValue b)]
  | .binding => fun b => [.binding b]
  | .bindings _ => List.map .binding
  | .attrSet => fun (_, bs) => bs.map .binding
  | .parameter => fun x => [.parameter x]
  | .entries => fun entries => (entries.filterMap id).map .parameter
  | .parameterList _ => fun list => list.parameters.map .parameter
  | .expr | .levels _ _ | .complemented | .attrTest | .negated | .application | .select
  | .simple => fun e => [.expr e]

/-- The nodes are laid out in the tokens, which leave the modes as they are. -/
structure Phrase (m : List Mode) (p : List Token) (xs : List Subtree) : Prop where
  laid : Laid m p xs
  modes : behind m p = m

namespace Phrase

variable {m : List Mode} {p q : List Token} {x : Subtree} {xs ys : List Subtree}

theorem nil : Phrase m [] [] where
  laid := .nil []
  modes := rfl

theorem append (hp : Phrase m p xs) (hq : Phrase m q ys) : Phrase m (p ++ q) (xs ++ ys) where
  laid := by
    refine hp.laid.append ?_
    rw [hp.modes]
    exact hq.laid
  modes := by rw [behind_append, hp.modes, hq.modes]

/-- A token in front that neither is string text nor changes the modes. -/
theorem word {t : Token} {kind : TokenKind} (ht : t.kind = kind)
    (hkind : Scan.isWordKind kind = true) (h : Phrase m p xs) : Phrase m (t :: p) xs := by
  subst ht
  have hmodes : behind m [t] = m := Piece.modes_of_isWordKind hkind [] m
  have ht : Phrase m [t] [] := ⟨.nil [t], hmodes⟩
  exact ht.append h

/-- A token behind that neither is string text nor changes the modes. -/
theorem concat {t : Token} {kind : TokenKind} (h : Phrase m p xs) (ht : t.kind = kind)
    (hkind : Scan.isWordKind kind = true) : Phrase m (p ++ [t]) xs := by
  simpa using h.append (word ht hkind nil)

/-- A pair of delimiters around what is read with other modes open. -/
theorem enclosed {opening closing : Token} {n : List Mode}
    (hopening : (Piece.token opening.kind []).modes m = n)
    (hclosing : (Piece.token closing.kind []).modes n = m) (h : Phrase n p xs) :
    Phrase m (opening :: (p ++ [closing])) xs where
  laid := by
    have hlaid : Laid (behind m [opening]) (p ++ [closing]) xs := by
      rw [show behind m [opening] = n from hopening]
      exact h.laid.append_right [closing]
    exact hlaid.behind_left
  modes := by
    have hbehind : behind m (opening :: (p ++ [closing])) =
        behind (behind (behind m [opening]) p) [closing] := by
      rw [← behind_append, ← behind_append]
      rfl
    rw [hbehind, show behind m [opening] = n from hopening, h.modes]
    exact hclosing

theorem wrap (h : Phrase m p x.children) (hopens : Opens p x) (hcloses : Closes p x)
    (hformed : ∀ m q, Formed m q x) : Phrase m p [x] where
  laid := h.laid.wrap hopens hcloses hformed
  modes := h.modes

theorem node (h : Phrase m p x.children) (hframes : Frames p x.span) (hformed : Formed m p x) :
    Phrase m p [x] where
  laid := .node hframes.start hframes.stop hformed h.laid
  modes := h.modes

/-- A node that is a single token. -/
theorem single {t : Token} {kind : TokenKind} (ht : t.kind = kind)
    (hkind : Scan.isWordKind kind = true) (hspan : x.span = t.span) (hchildren : x.children = [])
    (hformed : Formed m [t] x) : Phrase m [t] [x] := by
  refine node ?_ ?_ hformed
  · rw [hchildren]
    exact word ht hkind nil
  · rw [hspan]
    exact frames_single t

end Phrase

theorem formed_of_plain {e : Expr} (h : isDelimited e.node = false) (m : List Mode)
    (q : List Token) : Formed m q (.expr e) := by
  intro hdelimited
  rw [h] at hdelimited
  exact Bool.noConfusion hdelimited

/-- A parameter list with any name beside it. -/
theorem Derives.phrase_head {old? : Option Text} {m : List Mode} {p : List Token}
    {list : ParameterList} (hlist : Derives (.parameterList old?) p list)
    (h : Phrase m p (list.parameters.map .parameter)) (whole? : Option Text) :
    Phrase m p [.head (.destructured { list with whole? })] :=
  .node h hlist.frames_parameterList ⟨old?, list, hlist, rfl⟩

/-- A delimiter of a string opens its mode and closes it. -/
theorem modes_string {t : Token} {delimiter : TokenKind} {mode : Mode} {m : List Mode}
    (ht : t.kind = delimiter) (h : stringMode? delimiter = some mode) (hm : inString m = false) :
    (Piece.token t.kind []).modes m = mode :: m ∧
      (Piece.token t.kind []).modes (mode :: m) = m := by
  subst ht
  unfold stringMode? at h
  split at h
  · next hkind =>
    obtain rfl := Option.some.inj h
    rw [hkind]
    exact ⟨Piece.modes_quote hm [], rfl⟩
  · next hkind =>
    obtain rfl := Option.some.inj h
    rw [hkind]
    exact ⟨Piece.modes_indentQuote hm [], rfl⟩
  · simp at h

theorem compact_sublist (parts : List Part) : (Part.compact parts).Sublist parts := by
  unfold Part.compact
  split
  · exact List.take_sublist 1 parts
  · next hkept => exact List.filter_sublist

/-- Text of a string. -/
theorem phrase_text {t : Token} {m : List Mode} (ht : t.kind = .text) :
    Phrase m [t] [.part (.text t.span t.lexeme)] := by
  have hmodes : behind m [t] = m := by simp [behind, ht, Piece.modes]
  exact ⟨.node rfl rfl trivial (.nil [t]), hmodes⟩

/-! ### Functions, operators and paths -/

section
variable {m : List Mode} {p q : List Token}

/-- A function that begins with its head. -/
theorem phrase_function {head : Head} {body : Expr} (h : Phrase m p [.head head])
    (h' : Phrase m q [.expr body]) :
    Phrase m (p ++ q)
      [.expr ⟨head.span.join body.span, .function head body⟩] :=
  .wrap (h.append h') (.inr ⟨_, _, rfl, rfl⟩) (.inr ⟨[_], _, rfl, rfl⟩) (formed_of_plain rfl)

theorem phrase_tree (level : Level) {first : Expr} {rest : List (Operator × Expr)}
    (h : Phrase m p [.expr first]) (h' : Phrase m q (rest.map fun (_, e) => .expr e)) :
    Phrase m (p ++ q) [.expr (level.tree first rest)] where
  laid := by
    refine laid_tree level h.laid ?_
    rw [h.modes]
    exact h'.laid
  modes := (h.append h').modes

theorem phrase_applyAll {function : Expr} {arguments : List Expr}
    (h : Phrase m p [.expr function]) (h' : Phrase m q (arguments.map .expr)) :
    Phrase m (p ++ q) [.expr (applyAll function arguments)] where
  laid := by
    refine laid_applyAll h.laid ?_
    rw [h.modes]
    exact h'.laid
  modes := (h.append h').modes

/-- An operand with a path behind it. -/
theorem phrase_onPath {source : Expr} {span : Span} {path : List Key} {node : Node} {t : Token}
    {kind : TokenKind} (h : Phrase m p [.expr source]) (ht : t.kind = kind)
    (hkind : Scan.isWordKind kind = true) (hpath : Derives .attrPath q (span, path))
    (h' : Phrase m q (path.map .key)) (hnode : Subtree.ofNode node = .expr source :: path.map .key)
    (hplain : isDelimited node = false) :
    Phrase m (p ++ t :: q) [.expr ⟨source.span.join span, node⟩] := by
  obtain ⟨ks, k, rfl, hstop⟩ := hpath.attrPath_stop
  have hchildren : Subtree.children (.expr ⟨source.span.join span, node⟩) =
      .expr source :: (ks ++ [k]).map .key := hnode
  refine .wrap ?_ (.inr ⟨_, _, hchildren, rfl⟩)
    (.inr ⟨.expr source :: ks.map .key, .key k, by simp [hchildren], hstop⟩)
    (formed_of_plain hplain)
  rw [hchildren]
  exact h.append (.word ht hkind h')

end

/-! ### Bindings and strings -/

section
variable {m : List Mode} {p q : List Token} {opening closing : Token}

theorem phrase_keyValue {assign semicolon : Token} {span : Span} {path : List Key} {value : Expr}
    (hm : inString m = false) (hpath : Derives .attrPath p (span, path))
    (hassign : assign.kind = .assign) (hvalue : Derives .expr q value)
    (hsemicolon : semicolon.kind = .semicolon) (h : Phrase m p (path.map .key))
    (h' : Phrase m q [.expr value]) :
    Phrase m (p ++ assign :: (q ++ [semicolon]))
      [.binding (.keyValue ⟨span.join semicolon.span, path, value⟩)] := by
  refine .node (h.append (.word hassign rfl (h'.concat hsemicolon rfl))) ⟨?_, ?_⟩
    ⟨hm, .keyValueBinding (.keyValue hpath hassign hvalue hsemicolon)⟩
  · exact hpath.frames_attrPath.start.append _
  · exact ((endsAt_concat q semicolon).append [_]).append p

theorem phrase_inheritedFrom {word semicolon : Token} {source : Expr} {names : List Key}
    (hm : inString m = false) (hword : word.kind = .keyword .inheritWord)
    (hopening : opening.kind = .parenOpen) (hsource : Derives .expr p source)
    (hclosing : closing.kind = .parenClose) (hnames : Derives .names q names)
    (hsemicolon : semicolon.kind = .semicolon) (h : Phrase m p [.expr source])
    (h' : Phrase m q (names.map .key)) :
    Phrase m (word :: opening :: (p ++ closing :: (q ++ [semicolon])))
      [.binding (.inherited (word.span.join semicolon.span) names (some source))] := by
  have hinner := h.append (.word hclosing rfl (h'.concat hsemicolon rfl))
  refine .node (.word hword rfl (.word hopening rfl hinner)) ⟨rfl, ?_⟩
    ⟨hm, .inheritedFrom hword hopening hsource hclosing hnames hsemicolon⟩
  exact (((endsAt_concat q semicolon).append [_]).append _).append [_, _]

theorem phrase_literal {delimiter : TokenKind} {mode : Mode} {parts : List Part}
    (hm : inString m = false) (hmode : stringMode? delimiter = some mode)
    (hopening : opening.kind = delimiter) (hclosing : closing.kind = delimiter)
    (h : Phrase (mode :: m) p (parts.map .part)) :
    Phrase m (opening :: (p ++ [closing])) ((Part.compact parts).map .part) :=
  .enclosed (modes_string hopening hmode hm).1 (modes_string hclosing hmode hm).2
    ⟨h.laid.sublist ((compact_sublist parts).map _), h.modes⟩

end

/-- The nodes that a phrase spells are laid out in its tokens. -/
theorem Derives.phrase {s : Symbol} {p : List Token} {v : s.Val} (h : Derives s p v)
    {m : List Mode} (hm : s.Suits m) : Phrase m p (s.subtrees v) := by
  induction h generalizing m with
  | noLink | noArgument | noElement | noPart | pathEnd | noName | noBinding | noEntry => exact .nil
  | operation _ ih | complementedBase _ ih | attrTestBase _ ih | uncomplemented _ ih
  | untested _ ih | unnegated _ ih | unselected _ ih | keyValueBinding _ ih => exact ih hm
  | lastEntry _ ih => exact ih hm
  | argument _ _ ih ih' | element _ _ ih ih' | attrPath _ _ ih ih' | name _ _ ih ih'
  | bindings _ _ ih ih' => exact (ih hm).append (ih' hm)
  | chain _ _ ih ih' => exact phrase_tree _ (ih hm) (ih' hm)
  | apply _ _ ih ih' => exact phrase_applyAll (ih hm) (ih' hm)
  | link hsign _ _ _ _ ih ih' => exact .word hsign rfl ((ih hm).append (ih' hm))
  | pathStep hdot _ _ ih ih' => exact .word hdot rfl ((ih hm).append (ih' hm))
  | identifier h | integer h | float h | path h | searchPath h | uri h =>
    exact .single h rfl rfl rfl (formed_of_plain rfl _ _)
  | ellipsis h => exact .word h rfl .nil
  | parameter h => exact .single h rfl rfl rfl trivial
  | bareKey h =>
    rcases h with h | h
    · exact .single h rfl rfl rfl trivial
    · exact .single h rfl rfl rfl trivial
  | complement h _ ih | negate h _ ih =>
    exact .wrap (.word h rfl (ih hm)) (.inl rfl) (.inr ⟨[], _, rfl, rfl⟩) (formed_of_plain rfl)
  | @simpleFunction name _ _ _ hname hcolon _ ih =>
    have hhead : Phrase m [name] [.head (.simple name.span name.lexeme)] :=
      .single hname rfl rfl rfl trivial
    exact phrase_function hhead (.word hcolon rfl (ih hm))
  | @namedFunction _ _ _ _ _ list _ hname hat hlist hcolon _ ih ih' =>
    have hhead := hlist.phrase_head (ih hm) list.whole?
    cases list
    exact .wrap (.word hname rfl (.word hat rfl (hhead.append (.word hcolon rfl (ih' hm)))))
      (.inl rfl) (.inr ⟨[_], _, rfl, rfl⟩) (formed_of_plain rfl)
  | listFunction hlist hcolon _ ih ih' =>
    exact phrase_function (hlist.phrase_head (ih hm) none) (.word hcolon rfl (ih' hm))
  | aliasedFunction hlist hat hname hcolon _ ih ih' =>
    exact phrase_function (hlist.phrase_head (ih hm) (some _))
      (.word hat rfl (.word hname rfl (.word hcolon rfl (ih' hm))))
  | assertion hword _ hmiddle _ ih ih' | withScope hword _ hmiddle _ ih ih' =>
    exact .wrap (.word hword rfl ((ih hm).append (.word hmiddle rfl (ih' hm)))) (.inl rfl)
      (.inr ⟨[_], _, rfl, rfl⟩) (formed_of_plain rfl)
  | letIn hword _ hin _ ih ih' =>
    exact .wrap (.word hword rfl ((ih hm).append (.word hin rfl (ih' hm)))) (.inl rfl)
      (.inr ⟨_, _, rfl, rfl⟩) (formed_of_plain rfl)
  | conditional hword _ hthen _ helse _ ih ih' ih'' =>
    exact .wrap (.word hword rfl ((ih hm).append (.word hthen rfl
      ((ih' hm).append (.word helse rfl (ih'' hm)))))) (.inl rfl) (.inr ⟨[_, _], _, rfl, rfl⟩)
      (formed_of_plain rfl)
  | hasAttr _ hquestion hpath ih ih' =>
    exact phrase_onPath (ih hm) hquestion rfl hpath (ih' hm) rfl rfl
  | selection _ hdot hpath ih ih' =>
    exact phrase_onPath (ih hm) hdot rfl hpath (ih' hm) (by simp [Subtree.ofNode]) rfl
  | selectionOr _ hdot _ hor _ ih ih' ih'' =>
    exact .wrap ((ih hm).append (.word hdot rfl ((ih' hm).append (.word hor rfl (ih'' hm)))))
      (.inr ⟨_, _, rfl, rfl⟩) (.inr ⟨_, _, rfl, rfl⟩) (formed_of_plain rfl)
  | string h ih =>
    exact .node (ih ⟨⟨_, rfl⟩, hm⟩) h.frames_literal
      fun _ => ⟨hm, .string h, by simp [h.headKind_literal]⟩
  | indentedString h ih =>
    exact .node (ih ⟨⟨_, rfl⟩, hm⟩) h.frames_literal
      fun _ => ⟨hm, .indentedString h, by simp [h.headKind_literal]⟩
  | parenthesised ho _ hc ih => exact .word ho rfl ((ih hm).concat hc rfl)
  | recSet hword h ih =>
    exact .node (.word hword rfl (ih hm)) ⟨rfl, h.frames_attrSet.stop.append [_]⟩
      fun _ => ⟨hm, .recSet hword h, by simp [hword]⟩
  | map h ih =>
    exact .node (ih hm) h.frames_attrSet fun _ => ⟨hm, .map h, by simp [h.headKind_attrSet]⟩
  | list ho h hc ih =>
    exact .node (.word ho rfl ((ih hm).concat hc rfl)) (frames_enclosed _ _ _)
      fun _ => ⟨hm, .list ho h hc, by simp [ho]⟩
  | interpolation ho _ hc ih =>
    exact .enclosed (n := .interp :: m) (by rw [ho]; rfl) (by rw [hc]; rfl) (ih rfl)
  | attrSet ho _ hc ih | parameterList ho _ hc ih =>
    exact .enclosed (n := .brace :: m) (by rw [ho]; rfl) (by rw [hc]; rfl) (ih rfl)
  | textPart h _ ih => exact (phrase_text h).append (ih hm)
  | @interpolationPart _ p _ span e _ h _ ih ih' =>
    have hpart : Phrase m p [.part (.interpolation span e)] :=
      .node (ih trivial) h.frames_interpolation trivial
    exact hpart.append (ih' hm)
  | literal ho _ hc ih =>
    obtain ⟨⟨mode, hmode⟩, hm⟩ := hm
    exact phrase_literal hm hmode ho hc (ih ⟨mode, m, hmode, rfl⟩)
  | quotedKey h ih =>
    exact .node (ih ⟨⟨_, rfl⟩, hm⟩) h.frames_literal
      ⟨hm, .string h, by simp [h.headKind_literal]⟩
  | computedKey h ih => exact .node (ih trivial) h.frames_interpolation trivial
  | keyValue hpath hassign hvalue hsemicolon ih ih' =>
    exact phrase_keyValue hm hpath hassign hvalue hsemicolon (ih hm) (ih' hm)
  | inherited hword hnames hsemicolon ih =>
    exact .node (.word hword rfl ((ih hm).concat hsemicolon rfl)) (frames_enclosed _ _ _)
      ⟨hm, .inherited hword hnames hsemicolon⟩
  | inheritedFrom hword hopening hsource hclosing hnames hsemicolon ih ih' =>
    exact phrase_inheritedFrom hm hword hopening hsource hclosing hnames hsemicolon (ih hm) (ih' hm)
  | parameterOr hname hquestion _ ih =>
    exact .wrap (.word hname rfl (.word hquestion rfl (ih hm))) (.inl rfl)
      (.inr ⟨[], _, rfl, rfl⟩) fun _ _ => trivial
  | entry _ hcomma _ ih ih' => exact (ih hm).append (.word hcomma rfl (ih' hm))

end Grammar
end FlakeInputs
