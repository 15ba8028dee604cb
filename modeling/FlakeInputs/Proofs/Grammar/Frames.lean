import FlakeInputs.Proofs.Grammar.Shapes

/-!
# Phrases in larger phrases

An edit changes one phrase of a text.  Here is what stands around such a phrase: the
parentheses of an operand, the braces of an attribute set and the other bindings in it.
Each frame says which phrase the whole is when another one takes the place of the inner
one.  The tokens of the frame may have moved, so that they are only alike.
-/

namespace FlakeInputs
namespace Grammar

/-- Tokens of the same kinds and lexemes, wherever they stand. -/
def Alike (p p' : List Token) : Prop :=
  p'.map Token.bare = p.map Token.bare

theorem Alike.refl (p : List Token) : Alike p p := rfl

theorem Alike.trans {p q r : List Token} (hpq : Alike p q) (hqr : Alike q r) : Alike p r :=
  Eq.trans hqr hpq

theorem Alike.append {p p' q q' : List Token} (hp : Alike p p') (hq : Alike q q') :
    Alike (p ++ q) (p' ++ q') := by
  rw [Alike, List.map_append, List.map_append, hp, hq]

theorem Alike.exists_cons {t : Token} {p p' : List Token} (h : Alike (t :: p) p') :
    ∃ t' q', p' = t' :: q' ∧ t'.kind = t.kind ∧ t'.lexeme = t.lexeme ∧ Alike p q' :=
  map_bare_cons h

theorem Alike.exists_append {p q p' : List Token} (h : Alike (p ++ q) p') :
    ∃ a b, p' = a ++ b ∧ Alike p a ∧ Alike q b :=
  map_bare_append h

theorem Alike.eq_nil {p' : List Token} (h : Alike [] p') : p' = [] :=
  map_bare_nil h

/-! ## Operands -/

/-- Whether a node is no operator, application or selection, so that it stands in an
operand by itself. -/
def isOperand : Node → Bool
  | .apply _ _ | .select _ _ _ | .hasAttr _ _ | .binary _ _ _ | .negate _ | .complement _ => false
  | _ => true

theorem isOperand_leftTree {first : Expr} {item : Operator × Expr}
    {rest : List (Operator × Expr)} : isOperand (leftTree first (item :: rest)).node = false := by
  induction rest generalizing first item with
  | nil => rfl
  | cons next rest ih => exact @ih (binary first item.1 item.2) next

theorem isOperand_tree {level : Level} {first : Expr} {item : Operator × Expr}
    {rest : List (Operator × Expr)} : isOperand (level.tree first (item :: rest)).node = false := by
  unfold Level.tree
  cases level.grouping with
  | leftward | single => exact isOperand_leftTree
  | rightward => rfl

theorem tree_nil (level : Level) (first : Expr) : level.tree first [] = first := by
  unfold Level.tree
  cases level.grouping <;> rfl

theorem isOperand_applyAll {function a : Expr} {arguments : List Expr} :
    isOperand (applyAll function (a :: arguments)).node = false := by
  induction arguments generalizing function a with
  | nil => rfl
  | cons b arguments ih => exact @ih ⟨_, .apply function a⟩ b

theorem Derives.complemented_of_levels {table : List Level} {p : List Token} {e : Expr}
    (h : Derives (.levels .loose table) p e) (hnode : isOperand e.node = true) :
    Derives .complemented p e := by
  induction table generalizing p e with
  | nil =>
    cases h with
    | complementedBase h => exact h
  | cons level table ih =>
    cases h with
    | chain hfirst hrest =>
      cases hrest with
      | noLink =>
        rw [tree_nil] at hnode
        rw [tree_nil, List.append_nil]
        exact ih hfirst hnode
      | link =>
        rw [isOperand_tree] at hnode
        exact Bool.noConfusion hnode

theorem Derives.attrTest_of_levels {table : List Level} {p : List Token} {e : Expr}
    (h : Derives (.levels .tight table) p e) (hnode : isOperand e.node = true) :
    Derives .attrTest p e := by
  induction table generalizing p e with
  | nil =>
    cases h with
    | attrTestBase h => exact h
  | cons level table ih =>
    cases h with
    | chain hfirst hrest =>
      cases hrest with
      | noLink =>
        rw [tree_nil] at hnode
        rw [tree_nil, List.append_nil]
        exact ih hfirst hnode
      | link =>
        rw [isOperand_tree] at hnode
        exact Bool.noConfusion hnode

/-- An operation without operators, applications and selections is a simple expression. -/
theorem Derives.simple_of_operation {p : List Token} {e : Expr}
    (h : Derives (.levels .loose looseLevels) p e) (hnode : isOperand e.node = true) :
    Derives .simple p e := by
  cases h.complemented_of_levels hnode with
  | complement => exact Bool.noConfusion hnode
  | uncomplemented h =>
    cases h.attrTest_of_levels hnode with
    | hasAttr => exact Bool.noConfusion hnode
    | untested h =>
      cases h with
      | negate => exact Bool.noConfusion hnode
      | unnegated h =>
        cases h with
        | apply hfunction harguments =>
          cases harguments with
          | argument =>
            rw [isOperand_applyAll] at hnode
            exact Bool.noConfusion hnode
          | noArgument =>
            rw [List.append_nil]
            cases hfunction with
            | unselected h => exact h
            | selection => exact Bool.noConfusion hnode
            | selectionOr => exact Bool.noConfusion hnode

theorem Derives.loose_of_complemented {p : List Token} {e : Expr} (h : Derives .complemented p e)
    (table : List Level) : Derives (.levels .loose table) p e := by
  induction table with
  | nil => exact .complementedBase h
  | cons level table ih =>
    have hchain : Derives (.levels .loose (level :: table)) (p ++ []) (level.tree e []) :=
      .chain ih .noLink
    rwa [tree_nil, List.append_nil] at hchain

theorem Derives.tight_of_attrTest {p : List Token} {e : Expr} (h : Derives .attrTest p e)
    (table : List Level) : Derives (.levels .tight table) p e := by
  induction table with
  | nil => exact .attrTestBase h
  | cons level table ih =>
    have hchain : Derives (.levels .tight (level :: table)) (p ++ []) (level.tree e []) :=
      .chain ih .noLink
    rwa [tree_nil, List.append_nil] at hchain

theorem Derives.attrTest_of_simple {p : List Token} {e : Expr} (h : Derives .simple p e) :
    Derives .attrTest p e := by
  have happly := Derives.apply (.unselected h) .noArgument
  rw [List.append_nil] at happly
  exact .untested (.unnegated happly)

/-- A simple expression is an expression. -/
theorem Derives.expr_of_simple {p : List Token} {e : Expr} (h : Derives .simple p e) :
    Derives .expr p e :=
  .operation <| (Derives.uncomplemented
    (h.attrTest_of_simple.tight_of_attrTest _)).loose_of_complemented _

/-! ## Parentheses -/

/-- Tokens that can stand around any expression without a trace in the tree. -/
structure Encloses (l r : List Token) : Prop where
  opening : ∀ t ∈ l, t.kind = .parenOpen
  closing : ∀ t ∈ r, t.kind = .parenClose
  derives : ∀ {l' r' q : List Token} {e : Expr}, Alike l l' → Alike r r' → Derives .expr q e →
    Derives .expr (l' ++ (q ++ r')) e

theorem Encloses.nil : Encloses [] [] where
  opening := by simp
  closing := by simp
  derives hl hr h := by
    rw [hl.eq_nil, hr.eq_nil]
    simpa using h

theorem Encloses.parenthesised {l r : List Token} (h : Encloses l r) {opening closing : Token}
    (hopening : opening.kind = .parenOpen) (hclosing : closing.kind = .parenClose) :
    Encloses (opening :: l) (r ++ [closing]) where
  opening := by simpa [hopening] using h.opening
  closing := by
    intro t ht
    rcases List.mem_append.1 ht with ht | ht
    · exact h.closing t ht
    · rw [List.mem_singleton.1 ht, hclosing]
  derives hl hr hq := by
    obtain ⟨o, l', rfl, ho, -, hl⟩ := hl.exists_cons
    obtain ⟨r', z, rfl, hinside, hlast⟩ := hr.exists_append
    obtain ⟨c, _, rfl, hc, -, hnil⟩ := hlast.exists_cons
    rw [hnil.eq_nil]
    have hinner := Derives.parenthesised (ho.trans hopening) (h.derives hl hinside hq)
      (hc.trans hclosing)
    simpa using hinner.expr_of_simple

/-- An expression that begins with a parenthesis and is an operand is in parentheses as a
whole. -/
theorem Derives.of_parenthesised {p : List Token} {e : Expr} (h : Derives .expr p e)
    (hnode : isOperand e.node = true) (hhead : headKind p = some .parenOpen) :
    ∃ (opening : Token) (q : List Token) (closing : Token),
      p = opening :: (q ++ [closing]) ∧ opening.kind = .parenOpen ∧ closing.kind = .parenClose ∧
        Derives .expr q e := by
  have hne : ∀ {t : Token} {ts : List Token} {kind : TokenKind}, t.kind = kind →
      headKind (t :: ts) = some .parenOpen → kind = .parenOpen := by
    intro t ts kind ht hhead
    rw [headKind_cons, Option.some.injEq] at hhead
    exact ht.symm.trans hhead
  cases h with
  | simpleFunction hname => exact absurd (hne hname hhead) (by decide)
  | namedFunction hname => exact absurd (hne hname hhead) (by decide)
  | listFunction hlist =>
    cases hlist with
    | parameterList hopening => exact absurd (hne hopening hhead) (by decide)
  | aliasedFunction hlist =>
    cases hlist with
    | parameterList hopening => exact absurd (hne hopening hhead) (by decide)
  | assertion hword => exact absurd (hne hword hhead) (by decide)
  | withScope hword => exact absurd (hne hword hhead) (by decide)
  | letIn hword => exact absurd (hne hword hhead) (by decide)
  | conditional hword => exact absurd (hne hword hhead) (by decide)
  | operation hoperation =>
    have hsimple := hoperation.simple_of_operation hnode
    clear hoperation
    cases hsimple with
    | identifier h => exact absurd (hne h hhead) (by decide)
    | integer h => exact absurd (hne h hhead) (by decide)
    | float h => exact absurd (hne h hhead) (by decide)
    | path h => exact absurd (hne h hhead) (by decide)
    | searchPath h => exact absurd (hne h hhead) (by decide)
    | uri h => exact absurd (hne h hhead) (by decide)
    | string h =>
      cases h with
      | literal hopening => exact absurd (hne hopening hhead) (by decide)
    | indentedString h =>
      cases h with
      | literal hopening => exact absurd (hne hopening hhead) (by decide)
    | parenthesised hopening h hclosing => exact ⟨_, _, _, rfl, hopening, hclosing, h⟩
    | recSet hword => exact absurd (hne hword hhead) (by decide)
    | map h =>
      cases h with
      | attrSet hopening => exact absurd (hne hopening hhead) (by decide)
    | list hopening => exact absurd (hne hopening hhead) (by decide)

/-- An operand without the parentheses around it. -/
theorem Derives.enclosed {p : List Token} {e : Expr} (h : Derives .expr p e)
    (hnode : isOperand e.node = true) :
    ∃ l q r, p = l ++ (q ++ r) ∧ Encloses l r ∧ Derives .expr q e ∧
      headKind q ≠ some .parenOpen := by
  induction hn : p.length using Nat.strongRecOn generalizing p with
  | _ n ih =>
    subst hn
    by_cases hhead : headKind p = some .parenOpen
    · obtain ⟨opening, q, closing, rfl, hopening, hclosing, hq⟩ := h.of_parenthesised hnode hhead
      obtain ⟨l, q', r, rfl, hencloses, hq', hhead'⟩ :=
        ih _ (by simp only [List.length_cons, List.length_append]; omega) hq rfl
      exact ⟨opening :: l, q', r ++ [closing], by simp, hencloses.parenthesised hopening hclosing,
        hq', hhead'⟩
    · exact ⟨[], p, [], by simp, .nil, h, hhead⟩

/-- Whether a node is that of a single token or of something between delimiters. -/
def isSimple : Node → Bool
  | .string _ | .indentedString _ | .uri _ | .map _ _ | .identifier _ | .integer _ | .float _
  | .path _ | .searchPath _ | .list _ => true
  | _ => false

theorem isOperand_of_isSimple {node : Node} (h : isSimple node = true) : isOperand node = true := by
  cases node
  all_goals first | rfl | exact Bool.noConfusion h

/-- A simple expression without the parentheses around it. -/
theorem Derives.enclosed_simple {p : List Token} {e : Expr} (h : Derives .expr p e)
    (hnode : isSimple e.node = true) :
    ∃ l q r, p = l ++ (q ++ r) ∧ Encloses l r ∧ Derives .simple q e ∧
      headKind q ≠ some .parenOpen := by
  have hoperand := isOperand_of_isSimple hnode
  obtain ⟨l, q, r, rfl, hencloses, hq, hhead⟩ := h.enclosed hoperand
  refine ⟨l, q, r, rfl, hencloses, ?_, hhead⟩
  cases hq with
  | operation hq => exact hq.simple_of_operation hoperand
  | simpleFunction => exact Bool.noConfusion hnode
  | namedFunction => exact Bool.noConfusion hnode
  | listFunction => exact Bool.noConfusion hnode
  | aliasedFunction => exact Bool.noConfusion hnode
  | assertion => exact Bool.noConfusion hnode
  | withScope => exact Bool.noConfusion hnode
  | letIn => exact Bool.noConfusion hnode
  | conditional => exact Bool.noConfusion hnode

/-! ## Attribute sets -/

theorem Derives.bindings_append {closing : TokenKind} {p q : List Token} {bs cs : List Binding}
    (hp : Derives (.bindings closing) p bs) (hq : Derives (.bindings closing) q cs) :
    Derives (.bindings closing) (p ++ q) (bs ++ cs) := by
  induction bs generalizing p with
  | nil =>
    cases hp with
    | noBinding => exact hq
  | cons b bs ih =>
    cases hp with
    | bindings hb hbs =>
      rw [List.append_assoc]
      exact .bindings hb (ih hbs)

theorem Derives.bindings_split {closing : TokenKind} {p : List Token} {bs cs : List Binding}
    (h : Derives (.bindings closing) p (bs ++ cs)) :
    ∃ q r, p = q ++ r ∧ Derives (.bindings closing) q bs ∧ Derives (.bindings closing) r cs := by
  induction bs generalizing p with
  | nil => exact ⟨[], p, rfl, .noBinding, h⟩
  | cons b bs ih =>
    cases h with
    | bindings hb hbs =>
      obtain ⟨q, r, rfl, hq, hr⟩ := ih hbs
      exact ⟨_, r, (List.append_assoc _ _ _).symm, .bindings hb hq, hr⟩

/-- Bindings around one of them. -/
theorem Derives.bindings_at {closing : TokenKind} {p : List Token} {bs cs : List Binding}
    {b : Binding} (h : Derives (.bindings closing) p (bs ++ b :: cs)) :
    ∃ q k r, p = q ++ (k ++ r) ∧ Derives (.bindings closing) q bs ∧ Derives .binding k b ∧
      Derives (.bindings closing) r cs := by
  obtain ⟨q, p', rfl, hq, hp'⟩ := h.bindings_split
  cases hp' with
  | bindings hb hcs => exact ⟨q, _, _, rfl, hq, hb, hcs⟩

section
variable {closing : TokenKind} {p : List Token} {as bs cs ds : List Binding} {b : Binding}

/-- Some bindings in front of one of them. -/
theorem Derives.bindings_ahead
    (h : Derives (.bindings closing) p (as ++ (bs ++ (cs ++ b :: ds)))) :
    ∃ k₁ k₂ k₃ k k₄, p = k₁ ++ (k₂ ++ (k₃ ++ (k ++ k₄))) ∧ Derives (.bindings closing) k₁ as ∧
      Derives (.bindings closing) k₂ bs ∧ Derives (.bindings closing) k₃ cs ∧
      Derives (.bindings closing) k [b] ∧ Derives (.bindings closing) k₄ ds := by
  obtain ⟨k₁, p, rfl, h₁, h⟩ := h.bindings_split
  obtain ⟨k₂, p, rfl, h₂, h⟩ := h.bindings_split
  obtain ⟨k₃, p, rfl, h₃, h⟩ := h.bindings_split
  have h : Derives (.bindings closing) p ([b] ++ ds) := h
  obtain ⟨k, k₄, rfl, hk, h₄⟩ := h.bindings_split
  exact ⟨k₁, k₂, k₃, k, k₄, rfl, h₁, h₂, h₃, hk, h₄⟩

/-- Some bindings behind one of them. -/
theorem Derives.bindings_behind
    (h : Derives (.bindings closing) p ((as ++ b :: bs) ++ (cs ++ ds))) :
    ∃ k₁ k k₂ k₃ k₄, p = (k₁ ++ (k ++ k₂)) ++ (k₃ ++ k₄) ∧ Derives (.bindings closing) k₁ as ∧
      Derives (.bindings closing) k [b] ∧ Derives (.bindings closing) k₂ bs ∧
      Derives (.bindings closing) k₃ cs ∧ Derives (.bindings closing) k₄ ds := by
  obtain ⟨p, q, rfl, hp, hq⟩ := h.bindings_split
  obtain ⟨k₁, p, rfl, h₁, hp⟩ := hp.bindings_split
  have hp : Derives (.bindings closing) p ([b] ++ bs) := hp
  obtain ⟨k, k₂, rfl, hk, h₂⟩ := hp.bindings_split
  obtain ⟨k₃, k₄, rfl, h₃, h₄⟩ := hq.bindings_split
  exact ⟨k₁, k, k₂, k₃, k₄, rfl, h₁, hk, h₂, h₃, h₄⟩

end

/-- What stands around the bindings of an attribute set. -/
structure Braces (e : Expr) (recursive : Bool) (l : List Token) (opening closing : Token)
    (r : List Token) : Prop where
  opening_kind : opening.kind = .braceOpen
  closing_kind : closing.kind = .braceClose
  span_eq : ∃ l₁ first l₂, l ++ [opening] = l₁ ++ first :: l₂ ∧
    e.span = first.span.join closing.span ∧ (recursive = false → first = opening) ∧
    (recursive = true → first.kind = .keyword .recWord ∧ l₂ = [opening])
  derives : ∀ {l' r' q : List Token} {bs : List Binding}, Alike (l ++ [opening]) l' →
    Alike (closing :: r) r' → Derives (.bindings .braceClose) q bs →
      ∃ span, Derives .expr (l' ++ (q ++ r')) ⟨span, .map bs recursive⟩

theorem Derives.braces {p : List Token} {e : Expr} {bs : List Binding} {recursive : Bool}
    (h : Derives .expr p e) (hnode : e.node = .map bs recursive) :
    ∃ l opening q closing r, p = l ++ opening :: (q ++ closing :: r) ∧
      Derives (.bindings .braceClose) q bs ∧ Braces e recursive l opening closing r := by
  obtain ⟨l, q, r, rfl, hencloses, hq, hhead⟩ := h.enclosed_simple (by rw [hnode]; rfl)
  obtain ⟨span, node⟩ := e
  subst hnode
  cases hq with
  | parenthesised hopening =>
    rw [headKind_cons, hopening] at hhead
    exact absurd rfl hhead
  | map hset =>
    cases hset with
    | @attrSet opening closing q _ hopening hbindings hclosing =>
      refine ⟨l, opening, q, closing, r, by simp, hbindings, hopening, hclosing,
        ⟨l, opening, [], rfl, rfl, fun _ => rfl, fun h => Bool.noConfusion h⟩, ?_⟩
      intro l' r' q' bs' hl hr hq'
      obtain ⟨l', z, rfl, hbefore, hz⟩ := hl.exists_append
      obtain ⟨o, _, rfl, ho, -, hnil⟩ := hz.exists_cons
      obtain ⟨c, r', rfl, hc, -, hbehind⟩ := hr.exists_cons
      rw [hnil.eq_nil]
      have hmap := Derives.map (.attrSet (ho.trans hopening) hq' (hc.trans hclosing))
      have hexpr := hencloses.derives hbefore hbehind hmap.expr_of_simple
      exact ⟨_, by simpa using hexpr⟩
  | @recSet word _ _ _ hword hset =>
    cases hset with
    | @attrSet opening closing q _ hopening hbindings hclosing =>
      refine ⟨l ++ [word], opening, q, closing, r, by simp, hbindings, hopening, hclosing,
        ⟨l, word, [opening], by simp, rfl, fun h => Bool.noConfusion h, fun _ => ⟨hword, rfl⟩⟩, ?_⟩
      intro l' r' q' bs' hl hr hq'
      obtain ⟨y, z, rfl, hy, hz⟩ := hl.exists_append
      obtain ⟨l', x, rfl, hbefore, hx⟩ := hy.exists_append
      obtain ⟨w, _, rfl, hw, -, hnil⟩ := hx.exists_cons
      obtain ⟨o, _, rfl, ho, -, hnil'⟩ := hz.exists_cons
      obtain ⟨c, r', rfl, hc, -, hbehind⟩ := hr.exists_cons
      rw [hnil.eq_nil, hnil'.eq_nil]
      have hmap := Derives.recSet (hw.trans hword)
        (.attrSet (ho.trans hopening) hq' (hc.trans hclosing))
      have hexpr := hencloses.derives hbefore hbehind hmap.expr_of_simple
      exact ⟨_, by simpa using hexpr⟩

/-! ## Bindings -/

theorem Derives.key_start {p : List Token} {k : Key} (h : Derives .key p k) :
    ∃ t ts, p = t :: ts ∧ k.span.start = t.span.start := by
  cases h with
  | bareKey => exact ⟨_, _, rfl, rfl⟩
  | quotedKey h =>
    cases h with
    | literal => exact ⟨_, _, rfl, rfl⟩
  | computedKey h =>
    cases h with
    | interpolation => exact ⟨_, _, rfl, rfl⟩

/-- A binding starts with its first token. -/
theorem Derives.keyValue_start {p : List Token} {b : KeyValue} (h : Derives .keyValue p b) :
    ∃ t ts, p = t :: ts ∧ b.span.start = t.span.start := by
  cases h with
  | keyValue hpath =>
    cases hpath with
    | attrPath hk =>
      obtain ⟨t, ts, rfl, hstart⟩ := hk.key_start
      exact ⟨t, _, rfl, hstart⟩

/-- What stands around the value of a binding. -/
structure Assigns (b : KeyValue) (l : List Token) (assign semicolon : Token) : Prop where
  assign_kind : assign.kind = .assign
  semicolon_kind : semicolon.kind = .semicolon
  stop_eq : b.span.stop = semicolon.span.stop
  derives : ∀ {l' r' q : List Token} {e : Expr}, Alike (l ++ [assign]) l' →
    Alike [semicolon] r' → Derives .expr q e →
      ∃ b' : KeyValue, Derives .keyValue (l' ++ (q ++ r')) b' ∧
        b'.path.map Key.shape = b.path.map Key.shape ∧ b'.value = e

theorem Derives.assigns {p : List Token} {b : KeyValue} (h : Derives .keyValue p b) :
    ∃ l assign q semicolon, p = l ++ assign :: (q ++ [semicolon]) ∧ Derives .expr q b.value ∧
      Assigns b l assign semicolon := by
  cases h with
  | @keyValue assign semicolon l q span path value hpath hassign hvalue hsemicolon =>
    refine ⟨l, assign, q, semicolon, rfl, hvalue, hassign, hsemicolon, rfl, ?_⟩
    intro l' r' q' e hl hr hq'
    obtain ⟨l', z, rfl, hbefore, hz⟩ := hl.exists_append
    obtain ⟨a, _, rfl, ha, -, hnil⟩ := hz.exists_cons
    obtain ⟨s, _, rfl, hs, -, hnil'⟩ := hr.exists_cons
    rw [hnil.eq_nil, hnil'.eq_nil]
    obtain ⟨⟨span', path'⟩, hpath', hshape⟩ := hpath.moves l' hbefore
    refine ⟨⟨span'.join s.span, path', e⟩, ?_, (Prod.mk.inj hshape).2, rfl⟩
    simpa using Derives.keyValue hpath' (ha.trans hassign) hq' (hs.trans hsemicolon)

/-! ## Literals -/

theorem mem_compact {parts : List Part} {span : Span} {e : Expr}
    (h : .interpolation span e ∈ parts) : .interpolation span e ∈ Part.compact parts := by
  have hmem : Part.interpolation span e ∈ parts.filter fun p => !p.isEmpty :=
    List.mem_filter.2 ⟨h, rfl⟩
  unfold Part.compact
  split
  · next hnil =>
    rw [hnil] at hmem
    exact absurd hmem List.not_mem_nil
  · exact hmem

/-- The tokens of parts without an interpolation are string text. -/
theorem Derives.parts_text {delimiter : TokenKind} {p : List Token} {parts : List Part}
    (h : Derives (.parts delimiter) p parts) (hparts : ∀ span e, .interpolation span e ∉ parts) :
    (∀ t ∈ p, t.kind = .text) ∧ parts = p.map fun t => .text t.span t.lexeme := by
  induction parts generalizing p with
  | nil =>
    cases h with
    | noPart => simp
  | cons part parts ih =>
    cases h with
    | textPart ht hrest =>
      obtain ⟨hall, rfl⟩ := ih hrest fun span e hmem => hparts span e (List.mem_cons_of_mem _ hmem)
      exact ⟨by simpa [ht] using hall, rfl⟩
    | interpolationPart => exact absurd List.mem_cons_self (hparts _ _)

/-- The tokens of a literal without an interpolation: string text between two
delimiters. -/
theorem Derives.literal_text {delimiter : TokenKind} {expected : Expected} {p : List Token}
    {span textSpan : Span} {content : Text}
    (h : Derives (.literal delimiter expected) p (span, [.text textSpan content])) :
    ∃ (opening t : Token) (ts : List Token) (closing : Token),
      p = opening :: (t :: ts ++ [closing]) ∧ opening.kind = delimiter ∧
      closing.kind = delimiter ∧ (∀ t' ∈ t :: ts, t'.kind = .text) ∧
      (ts = [] → textSpan = t.span ∧ content = t.lexeme) := by
  generalize hparts : [Part.text textSpan content] = kept at h
  cases h with
  | @literal _ _ opening closing p parts hopening h hclosing =>
    obtain ⟨hall, rfl⟩ := h.parts_text fun span e hmem => by
      have hkept := mem_compact hmem
      rw [← hparts] at hkept
      simp at hkept
    cases p with
    | nil => simp [Part.compact] at hparts
    | cons t ts =>
      refine ⟨opening, t, ts, closing, rfl, hopening, hclosing, hall, ?_⟩
      rintro rfl
      by_cases hempty : t.lexeme.isEmpty = true
      · simp [Part.compact, Part.isEmpty, hempty] at hparts
        exact hparts
      · simp [Part.compact, Part.isEmpty, hempty] at hparts
        exact hparts

end Grammar
end FlakeInputs
