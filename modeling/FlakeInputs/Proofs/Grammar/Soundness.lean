import FlakeInputs.Proofs.Grammar.Derivation

/-!
# What readers read

Whatever a reader of the grammar takes off the tokens is a phrase of its symbol.
Each production is sound if the readers for what is nested in it are, and the knot
is tied by induction on its depth.
-/

namespace FlakeInputs
namespace Grammar

open Nested (beginsArgument)

/-- The readers for what is nested read phrases. -/
structure Nested.Sound (g : Nested) : Prop where
  expr : Reads g.expr (Derives .expr)
  operand : Reads g.operand (Derives .select)

namespace Nested.Sound

variable {g : Nested} (hg : g.Sound)
include hg

/-! ## Strings and keys -/

theorem interpolation : Reads g.interpolation (Derives .interpolation) := by
  intro ts v rest h
  simp only [Nested.interpolation, bind_eq_ok, expect_eq_ok, require_eq_ok, pure_eq_ok,
    Prod.mk.injEq] at h
  obtain ⟨opening, ts, ⟨hopening, rfl⟩, e, mid, he, closing, rest', ⟨hclosing, rfl⟩, rfl, rfl⟩ := h
  obtain ⟨p, rfl, hp⟩ := hg.expr _ _ _ he
  exact ⟨opening :: (p ++ [closing]), by simp, .interpolation hopening hp hclosing⟩

theorem part (delimiter : TokenKind) (ts : List Token) (r : Round Part) (rest : List Token)
    (h : g.part delimiter ts = .ok (r, rest)) :
    RoundReads (Derives (.parts delimiter)) ts r rest := by
  simp only [Nested.part, bind_eq_ok, peek_eq_ok, Prod.mk.injEq] at h
  obtain ⟨k, _, ⟨-, rfl⟩, h⟩ := h
  split at h
  · simp only [pure_eq_ok, Prod.mk.injEq] at h
    obtain ⟨rfl, rfl⟩ := h
    rfl
  split at h
  · simp only [bind_eq_ok, expect_eq_ok, pure_eq_ok, Prod.mk.injEq] at h
    obtain ⟨t, mid, ⟨ht, rfl⟩, rfl, rfl⟩ := h
    exact ⟨[t], by simp, rfl, fun q parts hq => .textPart ht hq⟩
  split at h
  · simp only [bind_eq_ok, pure_eq_ok, Prod.mk.injEq] at h
    obtain ⟨⟨span, e⟩, mid, he, rfl, rfl⟩ := h
    obtain ⟨p, rfl, hp⟩ := hg.interpolation _ _ _ he
    exact ⟨p, hp.ne_nil rfl, rfl, fun q parts hq => .interpolationPart hp hq⟩
  · exact absurd h refuse_ne_ok

theorem literal (delimiter : TokenKind) (closing : Expected) :
    Reads (g.literal delimiter closing) (Derives (.literal delimiter closing)) := by
  intro ts v rest h
  simp only [Nested.literal, bind_eq_ok, expect_eq_ok, require_eq_ok, pure_eq_ok,
    Prod.mk.injEq] at h
  obtain ⟨first, ts, ⟨hfirst, rfl⟩, parts, mid, hparts, last, rest', ⟨hlast, rfl⟩, rfl, rfl⟩ := h
  obtain ⟨p, rfl, hp⟩ := loop_reads .noPart (hg.part delimiter) _ _ _ hparts
  exact ⟨first :: (p ++ [last]), by simp, .literal hfirst hp hlast⟩

theorem key : Reads g.key (Derives .key) := by
  intro ts v rest h
  simp only [Nested.key, bind_eq_ok, peek_eq_ok, Prod.mk.injEq] at h
  obtain ⟨k, _, ⟨-, rfl⟩, h⟩ := h
  split at h
  · simp only [bind_eq_ok, expect_eq_ok, pure_eq_ok, Prod.mk.injEq] at h
    obtain ⟨t, mid, ⟨ht, rfl⟩, rfl, rfl⟩ := h
    exact ⟨[t], rfl, .bareKey (.inl ht)⟩
  · simp only [bind_eq_ok, expect_eq_ok, pure_eq_ok, Prod.mk.injEq] at h
    obtain ⟨t, mid, ⟨ht, rfl⟩, rfl, rfl⟩ := h
    exact ⟨[t], rfl, .bareKey (.inr ht)⟩
  · simp only [bind_eq_ok, pure_eq_ok, Prod.mk.injEq] at h
    obtain ⟨⟨span, parts⟩, mid, hparts, rfl, rfl⟩ := h
    obtain ⟨p, rfl, hp⟩ := hg.literal _ _ _ _ _ hparts
    exact ⟨p, rfl, .quotedKey hp⟩
  · simp only [bind_eq_ok, pure_eq_ok, Prod.mk.injEq] at h
    obtain ⟨⟨span, e⟩, mid, he, rfl, rfl⟩ := h
    obtain ⟨p, rfl, hp⟩ := hg.interpolation _ _ _ he
    exact ⟨p, rfl, .computedKey hp⟩
  · exact absurd h refuse_ne_ok

theorem pathRest :
    Reads (whileNext (· == some .dot) do let _ ← expect .dot; g.key) (Derives .pathRest) := by
  refine whileNext_reads .pathEnd ?_
  intro ts k rest h
  simp only [bind_eq_ok, expect_eq_ok] at h
  obtain ⟨dot, mid, ⟨hdot, rfl⟩, hk⟩ := h
  obtain ⟨p, rfl, hp⟩ := hg.key _ _ _ hk
  exact ⟨dot :: p, by simp, rfl, fun q ks hq => .pathStep hdot hp hq⟩

theorem attrPath : Reads g.attrPath (Derives .attrPath) := by
  intro ts v rest h
  simp only [Nested.attrPath, bind_eq_ok, pure_eq_ok, Prod.mk.injEq] at h
  obtain ⟨k, mid, hk, ks, rest', hks, rfl, rfl⟩ := h
  obtain ⟨p, rfl, hp⟩ := hg.key _ _ _ hk
  obtain ⟨q, rfl, hq⟩ := hg.pathRest _ _ _ hks
  exact ⟨p ++ q, by rw [List.append_assoc], .attrPath hp hq⟩

theorem names : Reads (whileNext (· != some .semicolon) g.key) (Derives .names) := by
  refine whileNext_reads .noName ?_
  intro ts k rest h
  obtain ⟨p, rfl, hp⟩ := hg.key _ _ _ h
  exact ⟨p, hp.ne_nil rfl, rfl, fun q ks hq => .name hp hq⟩

/-! ## Bindings -/

theorem keyValue : Reads g.keyValue (Derives .keyValue) := by
  intro ts v rest h
  simp only [Nested.keyValue, bind_eq_ok, require_eq_ok, pure_eq_ok, Prod.mk.injEq] at h
  obtain ⟨⟨span, path⟩, mid, hpath, assign, mid', ⟨hassign, rfl⟩, value, mid'', hvalue,
    semicolon, rest', ⟨hsemicolon, rfl⟩, rfl, rfl⟩ := h
  obtain ⟨p, rfl, hp⟩ := hg.attrPath _ _ _ hpath
  obtain ⟨q, rfl, hq⟩ := hg.expr _ _ _ hvalue
  exact ⟨p ++ assign :: (q ++ [semicolon]), by simp, .keyValue hp hassign hq hsemicolon⟩

theorem inherited : Reads g.inherited (Derives .binding) := by
  intro ts v rest h
  simp only [Nested.inherited, Nested.inheritSource, bind_eq_ok, expect_eq_ok, peek_eq_ok,
    pure_eq_ok, Prod.mk.injEq] at h
  obtain ⟨word, ts, ⟨hword, rfl⟩, source, mid, ⟨k, _, ⟨-, rfl⟩, hsource⟩, names, mid', hnames,
    semicolon, rest', ⟨hsemicolon, rfl⟩, rfl, rfl⟩ := h
  obtain ⟨q, rfl, hq⟩ := hg.names _ _ _ hnames
  split at hsource
  · simp only [bind_eq_ok, expect_eq_ok, pure_eq_ok, Prod.mk.injEq] at hsource
    obtain ⟨opening, mid, ⟨hopening, rfl⟩, e, mid', he, closing, mid'', ⟨hclosing, rfl⟩, rfl,
      rfl⟩ := hsource
    obtain ⟨p, rfl, hp⟩ := hg.expr _ _ _ he
    exact ⟨word :: opening :: (p ++ closing :: (q ++ [semicolon])), by simp,
      .inheritedFrom hword hopening hp hclosing hq hsemicolon⟩
  · simp only [pure_eq_ok, Prod.mk.injEq] at hsource
    obtain ⟨rfl, rfl⟩ := hsource
    exact ⟨word :: (q ++ [semicolon]), by simp, .inherited hword hq hsemicolon⟩

theorem binding (closing : TokenKind) (ts : List Token) (r : Round Binding) (rest : List Token)
    (h : g.binding closing ts = .ok (r, rest)) :
    RoundReads (Derives (.bindings closing)) ts r rest := by
  simp only [Nested.binding, bind_eq_ok, peek_eq_ok, Prod.mk.injEq] at h
  obtain ⟨k, _, ⟨-, rfl⟩, h⟩ := h
  split at h
  · exact absurd h refuse_ne_ok
  split at h
  · simp only [pure_eq_ok, Prod.mk.injEq] at h
    obtain ⟨rfl, rfl⟩ := h
    rfl
  split at h
  · simp only [bind_eq_ok, pure_eq_ok, Prod.mk.injEq] at h
    obtain ⟨b, mid, hb, rfl, rfl⟩ := h
    obtain ⟨p, rfl, hp⟩ := hg.inherited _ _ _ hb
    exact ⟨p, hp.ne_nil rfl, rfl, fun q bs hq => .bindings hp hq⟩
  · simp only [bind_eq_ok, pure_eq_ok, Prod.mk.injEq] at h
    obtain ⟨b, mid, hb, rfl, rfl⟩ := h
    obtain ⟨p, rfl, hp⟩ := hg.keyValue _ _ _ hb
    exact ⟨p, hp.ne_nil rfl, rfl,
      fun q bs hq => .bindings (.keyValueBinding hp) hq⟩

theorem bindings (closing : TokenKind) :
    Reads (g.bindings closing) (Derives (.bindings closing)) :=
  loop_reads .noBinding (hg.binding closing)

theorem attrSet : Reads g.attrSet (Derives .attrSet) := by
  intro ts v rest h
  simp only [Nested.attrSet, bind_eq_ok, expect_eq_ok, require_eq_ok, pure_eq_ok,
    Prod.mk.injEq] at h
  obtain ⟨first, ts, ⟨hfirst, rfl⟩, bs, mid, hbs, last, rest', ⟨hlast, rfl⟩, rfl, rfl⟩ := h
  obtain ⟨p, rfl, hp⟩ := hg.bindings _ _ _ _ hbs
  exact ⟨first :: (p ++ [last]), by simp, .attrSet hfirst hp hlast⟩

/-! ## Operands -/

theorem elements : Reads (loop g.element) (Derives .elements) := by
  refine loop_reads .noElement ?_
  intro ts r rest h
  simp only [Nested.element, bind_eq_ok, peek_eq_ok, Prod.mk.injEq] at h
  obtain ⟨k, _, ⟨-, rfl⟩, h⟩ := h
  split at h
  · exact absurd h refuse_ne_ok
  · simp only [pure_eq_ok, Prod.mk.injEq] at h
    obtain ⟨rfl, rfl⟩ := h
    rfl
  · simp only [bind_eq_ok, pure_eq_ok, Prod.mk.injEq] at h
    obtain ⟨e, mid, he, rfl, rfl⟩ := h
    obtain ⟨p, rfl, hp⟩ := hg.operand _ _ _ he
    exact ⟨p, hp.ne_nil rfl, rfl, fun q es hq => .element hp hq⟩

theorem list : Reads g.list (Derives .simple) := by
  intro ts v rest h
  simp only [Nested.list, bind_eq_ok, expect_eq_ok, pure_eq_ok, Prod.mk.injEq] at h
  obtain ⟨first, ts, ⟨hfirst, rfl⟩, es, mid, hes, last, rest', ⟨hlast, rfl⟩, rfl, rfl⟩ := h
  obtain ⟨p, rfl, hp⟩ := hg.elements _ _ _ hes
  exact ⟨first :: (p ++ [last]), by simp, .list hfirst hp hlast⟩

theorem parenthesised : Reads g.parenthesised (Derives .simple) := by
  intro ts v rest h
  simp only [Nested.parenthesised, bind_eq_ok, expect_eq_ok, require_eq_ok, pure_eq_ok,
    Prod.mk.injEq] at h
  obtain ⟨first, ts, ⟨hfirst, rfl⟩, e, mid, he, last, rest', ⟨hlast, rfl⟩, rfl, rfl⟩ := h
  obtain ⟨p, rfl, hp⟩ := hg.expr _ _ _ he
  exact ⟨first :: (p ++ [last]), by simp, .parenthesised hfirst hp hlast⟩

theorem recSet : Reads g.recSet (Derives .simple) := by
  intro ts v rest h
  simp only [Nested.recSet, bind_eq_ok, expect_eq_ok, pure_eq_ok, Prod.mk.injEq] at h
  obtain ⟨word, ts, ⟨hword, rfl⟩, ⟨span, bs⟩, mid, hbs, rfl, rfl⟩ := h
  obtain ⟨p, rfl, hp⟩ := hg.attrSet _ _ _ hbs
  exact ⟨word :: p, rfl, .recSet hword hp⟩

omit hg in
theorem atom {kind : TokenKind} {node : Text → Node}
    (hnode : ∀ t : Token, t.kind = kind → Derives .simple [t] ⟨t.span, node t.lexeme⟩) :
    Reads (Nested.atom kind node) (Derives .simple) := by
  intro ts v rest h
  simp only [Nested.atom, bind_eq_ok, expect_eq_ok, pure_eq_ok, Prod.mk.injEq] at h
  obtain ⟨t, mid, ⟨ht, rfl⟩, rfl, rfl⟩ := h
  exact ⟨[t], rfl, hnode t ht⟩

omit hg in
theorem integer : Reads Nested.integer (Derives .simple) := by
  intro ts v rest h
  simp only [Nested.integer, bind_eq_ok, expect_eq_ok] at h
  obtain ⟨t, mid, ⟨ht, rfl⟩, h⟩ := h
  split at h
  · simp only [bind_eq_ok] at h
    obtain ⟨_, _, hthrow, -⟩ := h
    exact absurd hthrow (by intro h; cases h)
  · next hlength =>
    simp only [pure_eq_ok, Prod.mk.injEq] at h
    obtain ⟨rfl, rfl⟩ := h
    exact ⟨[t], rfl, .integer ht (Nat.le_of_not_lt hlength)⟩

omit hg in
theorem misplacedLet_ne_ok {ts : List Token} {r : Expr × List Token} :
    Nested.misplacedLet ts ≠ .ok r := by
  unfold Nested.misplacedLet
  split
  · split <;> simp
  · simp

theorem simple : Reads g.simple (Derives .simple) := by
  intro ts v rest h
  simp only [Nested.simple, bind_eq_ok, peek_eq_ok, Prod.mk.injEq] at h
  obtain ⟨k, _, ⟨-, rfl⟩, h⟩ := h
  split at h
  · exact atom (fun _ ht => .identifier ht) _ _ _ h
  · exact integer _ _ _ h
  · exact atom (fun _ ht => .float ht) _ _ _ h
  · exact atom (fun _ ht => .path ht) _ _ _ h
  · exact atom (fun _ ht => .searchPath ht) _ _ _ h
  · exact atom (fun _ ht => .uri ht) _ _ _ h
  · simp only [bind_eq_ok, pure_eq_ok, Prod.mk.injEq] at h
    obtain ⟨⟨span, parts⟩, mid, hparts, rfl, rfl⟩ := h
    obtain ⟨p, rfl, hp⟩ := hg.literal _ _ _ _ _ hparts
    exact ⟨p, rfl, .string hp⟩
  · simp only [bind_eq_ok, pure_eq_ok, Prod.mk.injEq] at h
    obtain ⟨⟨span, parts⟩, mid, hparts, rfl, rfl⟩ := h
    obtain ⟨p, rfl, hp⟩ := hg.literal _ _ _ _ _ hparts
    exact ⟨p, rfl, .indentedString hp⟩
  · exact hg.parenthesised _ _ _ h
  · exact hg.recSet _ _ _ h
  · exact absurd h misplacedLet_ne_ok
  · simp only [bind_eq_ok, pure_eq_ok, Prod.mk.injEq] at h
    obtain ⟨⟨span, bs⟩, mid, hbs, rfl, rfl⟩ := h
    obtain ⟨p, rfl, hp⟩ := hg.attrSet _ _ _ hbs
    exact ⟨p, rfl, .map hp⟩
  · exact hg.list _ _ _ h
  · exact absurd h refuse_ne_ok

theorem select : Reads g.select (Derives .select) := by
  intro ts v rest h
  simp only [Nested.select, Nested.selectDefault, bind_eq_ok, peek_eq_ok, Prod.mk.injEq] at h
  obtain ⟨source, mid, hsource, k, _, ⟨-, rfl⟩, h⟩ := h
  obtain ⟨p, rfl, hp⟩ := hg.simple _ _ _ hsource
  split at h
  · simp only [bind_eq_ok, expect_eq_ok, peek_eq_ok, pure_eq_ok, Prod.mk.injEq] at h
    obtain ⟨dot, mid, ⟨hdot, rfl⟩, ⟨span, path⟩, mid', hpath, default?, rest',
      ⟨k', _, ⟨-, rfl⟩, hdefault⟩, rfl, rfl⟩ := h
    obtain ⟨q, rfl, hq⟩ := hg.attrPath _ _ _ hpath
    split at hdefault
    · simp only [bind_eq_ok, expect_eq_ok, pure_eq_ok, Prod.mk.injEq] at hdefault
      obtain ⟨orWord, mid, ⟨hor, rfl⟩, e, rest', he, rfl, rfl⟩ := hdefault
      obtain ⟨r, rfl, hr⟩ := hg.operand _ _ _ he
      exact ⟨p ++ dot :: (q ++ orWord :: r), by simp, .selectionOr hp hdot hq hor hr⟩
    · simp only [pure_eq_ok, Prod.mk.injEq] at hdefault
      obtain ⟨rfl, rfl⟩ := hdefault
      exact ⟨p ++ dot :: q, by simp, .selection hp hdot hq⟩
  · simp only [pure_eq_ok, Prod.mk.injEq] at h
    obtain ⟨rfl, rfl⟩ := h
    exact ⟨p, rfl, .unselected hp⟩

/-! ## Operators -/

theorem arguments : Reads (whileNext beginsArgument g.select) (Derives .arguments) := by
  refine whileNext_reads .noArgument ?_
  intro ts e rest h
  obtain ⟨p, rfl, hp⟩ := hg.select _ _ _ h
  exact ⟨p, hp.ne_nil rfl, rfl, fun q es hq => .argument hp hq⟩

theorem application : Reads g.application (Derives .application) := by
  intro ts v rest h
  simp only [Nested.application, bind_eq_ok, pure_eq_ok, Prod.mk.injEq] at h
  obtain ⟨f, mid, hf, es, rest', hes, rfl, rfl⟩ := h
  obtain ⟨p, rfl, hp⟩ := hg.select _ _ _ hf
  obtain ⟨q, rfl, hq⟩ := hg.arguments _ _ _ hes
  exact ⟨p ++ q, by rw [List.append_assoc], .apply hp hq⟩

omit hg in
/-- An operand behind signs, if a sign in front of a phrase makes a phrase. -/
theorem signed {kind : TokenKind} {node : Expr → Node} {operand : Reader Expr}
    {inner phrase : List Token → Expr → Prop} (hoperand : Reads operand inner)
    (hinner : ∀ p e, inner p e → phrase p e)
    (hsign : ∀ (t : Token) p e, t.kind = kind → phrase p e →
      phrase (t :: p) ⟨t.span.join e.span, node e⟩) :
    Reads (Grammar.signed kind node operand) phrase := by
  intro ts v rest h
  simp only [Grammar.signed, bind_eq_ok, run_eq_ok, pure_eq_ok, Prod.mk.injEq] at h
  obtain ⟨signs, mid, ⟨rfl, rfl⟩, e, rest', he, rfl, rfl⟩ := h
  obtain ⟨p, hp, hinnerp⟩ := hoperand _ _ _ he
  refine ⟨ts.takeWhile (fun t => t.kind = kind) ++ p, ?_, ?_⟩
  · rw [List.append_assoc, ← hp, List.takeWhile_append_dropWhile]
  · have hkinds : ∀ t ∈ ts.takeWhile (fun t => t.kind = kind), t.kind = kind := by
      intro t ht
      exact of_decide_eq_true (List.all_eq_true.1 List.all_takeWhile t ht)
    generalize ts.takeWhile (fun t => t.kind = kind) = signs at hkinds
    induction signs with
    | nil => exact hinner _ _ hinnerp
    | cons t signs ih =>
      exact hsign _ _ _ (hkinds t (by simp)) (ih fun t ht => hkinds t (by simp [ht]))

theorem negated :
    Reads (Grammar.signed (.operator .minus) .negate g.application) (Derives .negated) :=
  signed hg.application (fun _ _ h => .unnegated h) (fun _ _ _ ht h => .negate ht h)

theorem attrTest : Reads g.attrTest (Derives .attrTest) := by
  intro ts v rest h
  simp only [Nested.attrTest, bind_eq_ok, peek_eq_ok, Prod.mk.injEq] at h
  obtain ⟨source, mid, hsource, k, _, ⟨-, rfl⟩, h⟩ := h
  obtain ⟨p, rfl, hp⟩ := hg.negated _ _ _ hsource
  split at h
  · simp only [bind_eq_ok, expect_eq_ok, pure_eq_ok, Prod.mk.injEq] at h
    obtain ⟨question, mid, ⟨hquestion, rfl⟩, ⟨span, path⟩, rest', hpath, rfl, rfl⟩ := h
    obtain ⟨q, rfl, hq⟩ := hg.attrPath _ _ _ hpath
    exact ⟨p ++ question :: q, by simp, .hasAttr hp hquestion hq⟩
  · simp only [pure_eq_ok, Prod.mk.injEq] at h
    obtain ⟨rfl, rfl⟩ := h
    exact ⟨p, rfl, .untested hp⟩

omit hg in
theorem mem_operators_of_operator? {level : Level} {kind : Option TokenKind} {op : Operator}
    (h : level.operator? kind = some op) : op ∈ level.operators := by
  unfold Level.operator? at h
  split at h
  · split at h
    · next hmem => exact Option.some.inj h ▸ hmem
    · simp at h
  · simp at h

omit hg in
theorem links {tower : Tower} {level : Level} {table : List Level} {operand : Reader Expr}
    (hoperand : Reads operand (Derives (.levels tower table))) :
    Reads (loop (level.link operand)) (Derives (.links tower level table)) := by
  refine loop_reads .noLink ?_
  intro ts r rest h
  simp only [Level.link, bind_eq_ok, peek_eq_ok, Prod.mk.injEq] at h
  obtain ⟨k, _, ⟨-, rfl⟩, h⟩ := h
  cases hop : level.operator? k with
  | none =>
    simp only [hop, pure_eq_ok, Prod.mk.injEq] at h
    obtain ⟨rfl, rfl⟩ := h
    rfl
  | some op =>
    have hmem := mem_operators_of_operator? hop
    simp only [hop, bind_eq_ok, expect_eq_ok, pure_eq_ok, Prod.mk.injEq] at h
    obtain ⟨sign, mid, ⟨hsign, rfl⟩, right, rest', hright, rfl, rfl⟩ := h
    obtain ⟨p, rfl, hp⟩ := hoperand _ _ _ hright
    split
    · refine ⟨sign :: p, rfl, ?_⟩
      have hlink : Derives (.links tower level table) (sign :: (p ++ [])) [(op, right)] :=
        .link hsign hmem hp .noLink fun _ => rfl
      rwa [List.append_nil] at hlink
    · next hgrouping =>
      exact ⟨sign :: p, by simp, rfl,
        fun q items hq => .link hsign hmem hp hq fun h => absurd h hgrouping⟩

omit hg in
theorem levels {tower : Tower} {operand : Reader Expr}
    (hoperand : Reads operand (Derives (.levels tower []))) (table : List Level) :
    Reads (Grammar.levels table operand) (Derives (.levels tower table)) := by
  induction table with
  | nil => exact hoperand
  | cons level table ih =>
    intro ts v rest h
    change level.chain (Grammar.levels table operand) ts = _ at h
    simp only [Level.chain, bind_eq_ok, pure_eq_ok, Prod.mk.injEq] at h
    obtain ⟨first, mid, hfirst, items, rest', hitems, rfl, rfl⟩ := h
    obtain ⟨p, rfl, hp⟩ := ih _ _ _ hfirst
    obtain ⟨q, rfl, hq⟩ := links ih _ _ _ hitems
    exact ⟨p ++ q, by rw [List.append_assoc], .chain hp hq⟩

theorem operation : Reads g.operation (Derives (.levels .loose looseLevels)) := by
  refine levels ?_ looseLevels
  have htight : Reads (Grammar.levels tightLevels g.attrTest)
      (Derives (.levels .tight tightLevels)) := by
    refine levels ?_ tightLevels
    intro ts v rest h
    obtain ⟨p, rfl, hp⟩ := hg.attrTest _ _ _ h
    exact ⟨p, rfl, .attrTestBase hp⟩
  have hcomplemented : Reads
      (Grammar.signed .bang .complement (Grammar.levels tightLevels g.attrTest))
      (Derives .complemented) :=
    signed htight (fun _ _ h => .uncomplemented h) (fun _ _ _ ht h => .complement ht h)
  intro ts v rest h
  obtain ⟨p, rfl, hp⟩ := hcomplemented _ _ _ h
  exact ⟨p, rfl, .complementedBase hp⟩

/-! ## Functions -/

theorem parameter : Reads g.parameter (Derives .parameter) := by
  intro ts v rest h
  simp only [Nested.parameter, Nested.parameterDefault, bind_eq_ok, require_eq_ok, peek_eq_ok,
    pure_eq_ok, Prod.mk.injEq] at h
  obtain ⟨name, ts, ⟨hname, rfl⟩, default?, mid, ⟨k, _, ⟨-, rfl⟩, hdefault⟩, rfl, rfl⟩ := h
  split at hdefault
  · simp only [bind_eq_ok, expect_eq_ok, pure_eq_ok, Prod.mk.injEq] at hdefault
    obtain ⟨question, mid, ⟨hquestion, rfl⟩, e, rest', he, rfl, rfl⟩ := hdefault
    obtain ⟨p, rfl, hp⟩ := hg.expr _ _ _ he
    exact ⟨name :: question :: p, rfl, .parameterOr hname hquestion hp⟩
  · simp only [pure_eq_ok, Prod.mk.injEq] at hdefault
    obtain ⟨rfl, rfl⟩ := hdefault
    exact ⟨[name], rfl, .parameter hname⟩

theorem entries : Reads (loop g.parameterEntry) (Derives .entries) := by
  refine loop_reads .noEntry ?_
  intro ts r rest h
  simp only [Nested.parameterEntry, bind_eq_ok, peek_eq_ok, Prod.mk.injEq] at h
  obtain ⟨k, _, ⟨-, rfl⟩, h⟩ := h
  split at h
  · simp only [pure_eq_ok, Prod.mk.injEq] at h
    obtain ⟨rfl, rfl⟩ := h
    rfl
  · simp only [bind_eq_ok, expect_eq_ok, pure_eq_ok, Prod.mk.injEq] at h
    obtain ⟨t, mid, ⟨ht, rfl⟩, rfl, rfl⟩ := h
    exact ⟨[t], rfl, .ellipsis ht⟩
  · simp only [bind_eq_ok, peek_eq_ok, Prod.mk.injEq] at h
    obtain ⟨x, mid, hx, k', _, ⟨-, rfl⟩, h⟩ := h
    obtain ⟨p, rfl, hp⟩ := hg.parameter _ _ _ hx
    split at h
    · simp only [bind_eq_ok, expect_eq_ok, pure_eq_ok, Prod.mk.injEq] at h
      obtain ⟨comma, mid, ⟨hcomma, rfl⟩, rfl, rfl⟩ := h
      refine ⟨p ++ [comma], by simp, by simp, fun q xs hq => ?_⟩
      rw [List.append_assoc, List.singleton_append]
      exact .entry hp hcomma hq
    · simp only [pure_eq_ok, Prod.mk.injEq] at h
      obtain ⟨rfl, rfl⟩ := h
      exact ⟨p, rfl, .lastEntry hp⟩

theorem parameterList (whole? : Option Text) :
    Reads (g.parameterList whole?) (Derives (.parameterList whole?)) := by
  intro ts v rest h
  simp only [Nested.parameterList, bind_eq_ok, expect_eq_ok, require_eq_ok, pure_eq_ok,
    Prod.mk.injEq] at h
  obtain ⟨first, ts, ⟨hfirst, rfl⟩, xs, mid, hxs, last, rest', ⟨hlast, rfl⟩, rfl, rfl⟩ := h
  obtain ⟨p, rfl, hp⟩ := hg.entries _ _ _ hxs
  exact ⟨first :: (p ++ [last]), by simp, .parameterList hfirst hp hlast⟩

theorem simpleFunction : Reads g.simpleFunction (Derives .expr) := by
  intro ts v rest h
  simp only [Nested.simpleFunction, Nested.body, bind_eq_ok, expect_eq_ok, pure_eq_ok,
    Prod.mk.injEq] at h
  obtain ⟨name, ts, ⟨hname, rfl⟩, colon, ts, ⟨hcolon, rfl⟩, body, rest', hbody, rfl, rfl⟩ := h
  obtain ⟨p, rfl, hp⟩ := hg.expr _ _ _ hbody
  exact ⟨name :: colon :: p, rfl, .simpleFunction hname hcolon hp⟩

theorem namedFunction : Reads g.namedFunction (Derives .expr) := by
  intro ts v rest h
  simp only [Nested.namedFunction, Nested.body, bind_eq_ok, expect_eq_ok, require_eq_ok,
    pure_eq_ok, Prod.mk.injEq] at h
  obtain ⟨name, ts, ⟨hname, rfl⟩, atSign, ts, ⟨hat, rfl⟩, list, mid, hlist, colon, ts,
    ⟨hcolon, rfl⟩, body, rest', hbody, rfl, rfl⟩ := h
  obtain ⟨p, rfl, hp⟩ := hg.parameterList _ _ _ _ hlist
  obtain ⟨q, rfl, hq⟩ := hg.expr _ _ _ hbody
  exact ⟨name :: atSign :: (p ++ colon :: q), by simp, .namedFunction hname hat hp hcolon hq⟩

theorem listFunction : Reads g.listFunction (Derives .expr) := by
  intro ts v rest h
  simp only [Nested.listFunction, Nested.wholeName, Nested.body, bind_eq_ok, require_eq_ok,
    peek_eq_ok, pure_eq_ok, Prod.mk.injEq] at h
  obtain ⟨list, mid, hlist, whole?, mid', ⟨k, _, ⟨-, rfl⟩, hwhole⟩, colon, ts, ⟨hcolon, rfl⟩,
    body, rest', hbody, rfl, rfl⟩ := h
  obtain ⟨p, rfl, hp⟩ := hg.parameterList _ _ _ _ hlist
  obtain ⟨q, rfl, hq⟩ := hg.expr _ _ _ hbody
  split at hwhole
  · simp only [bind_eq_ok, expect_eq_ok, require_eq_ok, pure_eq_ok, Prod.mk.injEq] at hwhole
    obtain ⟨atSign, mid, ⟨hat, rfl⟩, name, mid', ⟨hname, rfl⟩, rfl, rfl⟩ := hwhole
    exact ⟨p ++ atSign :: name :: colon :: q, by simp, .aliasedFunction hp hat hname hcolon hq⟩
  · simp only [pure_eq_ok, Prod.mk.injEq] at hwhole
    obtain ⟨rfl, rfl⟩ := hwhole
    exact ⟨p ++ colon :: q, by simp, .listFunction hp hcolon hq⟩

/-! ## Expressions -/

theorem guarded {keyword : Keyword} {node : Expr → Expr → Node}
    (hnode : ∀ (word semicolon : Token) p q condition target, word.kind = .keyword keyword →
      Derives .expr p condition → semicolon.kind = .semicolon → Derives .expr q target →
      Derives .expr (word :: (p ++ semicolon :: q))
        ⟨word.span.join target.span, node condition target⟩) :
    Reads (g.guarded keyword node) (Derives .expr) := by
  intro ts v rest h
  simp only [Nested.guarded, bind_eq_ok, expect_eq_ok, pure_eq_ok, Prod.mk.injEq] at h
  obtain ⟨word, ts, ⟨hword, rfl⟩, condition, mid, hcondition, semicolon, ts, ⟨hsemicolon, rfl⟩,
    target, rest', htarget, rfl, rfl⟩ := h
  obtain ⟨p, rfl, hp⟩ := hg.expr _ _ _ hcondition
  obtain ⟨q, rfl, hq⟩ := hg.expr _ _ _ htarget
  exact ⟨word :: (p ++ semicolon :: q), by simp, hnode _ _ _ _ _ _ hword hp hsemicolon hq⟩

theorem letIn : Reads g.letIn (Derives .expr) := by
  intro ts v rest h
  simp only [Nested.letIn, bind_eq_ok, expect_eq_ok, require_eq_ok, pure_eq_ok,
    Prod.mk.injEq] at h
  obtain ⟨word, ts, ⟨hword, rfl⟩, bs, mid, hbs, inWord, ts, ⟨hin, rfl⟩, target, rest', htarget,
    rfl, rfl⟩ := h
  obtain ⟨p, rfl, hp⟩ := hg.bindings _ _ _ _ hbs
  obtain ⟨q, rfl, hq⟩ := hg.expr _ _ _ htarget
  exact ⟨word :: (p ++ inWord :: q), by simp, .letIn hword hp hin hq⟩

theorem conditional : Reads g.conditional (Derives .expr) := by
  intro ts v rest h
  simp only [Nested.conditional, bind_eq_ok, expect_eq_ok, pure_eq_ok, Prod.mk.injEq] at h
  obtain ⟨word, ts, ⟨hword, rfl⟩, condition, mid, hcondition, thenWord, ts, ⟨hthen, rfl⟩, yes,
    mid', hyes, elseWord, ts, ⟨helse, rfl⟩, no, rest', hno, rfl, rfl⟩ := h
  obtain ⟨p, rfl, hp⟩ := hg.expr _ _ _ hcondition
  obtain ⟨q, rfl, hq⟩ := hg.expr _ _ _ hyes
  obtain ⟨r, rfl, hr⟩ := hg.expr _ _ _ hno
  exact ⟨word :: (p ++ thenWord :: (q ++ elseWord :: r)), by simp,
    .conditional hword hp hthen hq helse hr⟩

theorem expression : Reads g.expression (Derives .expr) := by
  have hoperation : Reads g.operation (Derives .expr) := by
    intro ts v rest h
    obtain ⟨p, rfl, hp⟩ := hg.operation _ _ _ h
    exact ⟨p, rfl, .operation hp⟩
  intro ts v rest h
  simp only [Nested.expression, bind_eq_ok] at h
  obtain ⟨kinds, mid, hkinds, h⟩ := h
  obtain ⟨-, rfl⟩ := Prod.mk.inj (Except.ok.inj hkinds)
  split at h
  · exact hg.simpleFunction _ _ _ h
  · exact hg.namedFunction _ _ _ h
  · split at h
    · exact hg.listFunction _ _ _ h
    · exact hoperation _ _ _ h
  · exact hg.guarded (fun _ _ _ _ _ _ => .assertion) _ _ _ h
  · exact hg.guarded (fun _ _ _ _ _ _ => .withScope) _ _ _ h
  · exact hoperation _ _ _ h
  · exact hg.letIn _ _ _ h
  · exact hg.conditional _ _ _ h
  · exact hoperation _ _ _ h

end Nested.Sound

/-! ## The knot -/

theorem Nested.limit_sound (n : Nat) : (Nested.limit n).Sound := by
  induction n with
  | zero => exact ⟨fun _ _ _ h => absurd h refuse_ne_ok, fun _ _ _ h => absurd h refuse_ne_ok⟩
  | succ n ih => exact ⟨ih.expression, ih.select⟩

/-- Tokens that are read as a whole are a phrase. -/
theorem derives_of_whole {ts : List Token} {e : Expr} (h : whole ts = .ok e) :
    Derives .expr ts e := by
  unfold whole at h
  cases hread : (Nested.limit (ts.length + 1)).expr ts with
  | error fault => simp [hread, bind, Except.bind] at h
  | ok read =>
    obtain ⟨e', rest⟩ := read
    obtain ⟨p, hp, hderives⟩ := (Nested.limit_sound _).expr _ _ _ hread
    simp only [hread, bind, Except.bind] at h
    split at h
    · next hrest =>
      obtain rfl := Except.ok.inj h
      rw [List.isEmpty_iff.1 hrest, List.append_nil] at hp
      exact hp ▸ hderives
    · cases h

end Grammar
end FlakeInputs
