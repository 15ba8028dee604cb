import FlakeInputs.Proofs.Manifest.Cuts

/-!
# Places for a binding

One more binding can stand between two bindings of a manifest, or in a set that one of them
binds.  The tokens around such a place tell where the bindings next to it begin and end.
-/

namespace FlakeInputs

/-- A place for one more binding: between two bindings, or between two bindings of the set
that `c` binds. -/
inductive Hole
  | between
  | within (c : KeyValue) (left right : List Binding) (recursive : Bool)

namespace Hole

/-- The bindings around a place in which nothing stands. -/
def bindings : Hole → List Binding
  | between => []
  | within c _ _ _ => [.keyValue c]

/-- Whether the set of a place has the bindings that the place is between. -/
def IsPlace : Hole → Prop
  | between => True
  | within c left right recursive => c.value.node = .map (left ++ right) recursive

/-- The bindings around a place in which a binding stands. -/
def fill (d : KeyValue) : Hole → List Binding
  | between => [.keyValue d]
  | within c left right recursive =>
    [.keyValue { c with value := ⟨c.value.span, .map (left ++ .keyValue d :: right) recursive⟩ }]

/-- The same bindings as those around a place in which a binding stands, when all but that
binding may have moved. -/
def Filled (d : KeyValue) (bs : List Binding) : Hole → Prop
  | between => bs = [.keyValue d]
  | within c left right recursive => ∃ c' left' right', bs = [.keyValue c'] ∧
      c'.path.map Key.shape = c.path.map Key.shape ∧
      c'.value.node = .map (left' ++ .keyValue d :: right') recursive ∧
      left'.map Binding.shape = left.map Binding.shape ∧
      right'.map Binding.shape = right.map Binding.shape

end Hole

namespace Grammar

theorem shapes_of_filled {hole : Hole} {d d' : KeyValue} {bs : List Binding}
    (h : hole.Filled d bs) (hd : d.shape = d'.shape) :
    bs.map Binding.shape = (hole.fill d').map Binding.shape := by
  cases hole with
  | between =>
    obtain rfl : bs = _ := h
    simp [Hole.fill, Binding.shape, hd]
  | within c left right recursive =>
    obtain ⟨c', left', right', rfl, hpath, hnode, hleft, hright⟩ := h
    have hvalue : c'.value.shape =
        (⟨c.value.span, .map (left ++ Binding.keyValue d' :: right) recursive⟩ : Expr).shape := by
      rw [Expr.eta c'.value, hnode]
      simp [Expr.shape, Node.shape, Binding.shape, hleft, hright, hd]
    have hsame : c'.shape = ({ c with value :=
        ⟨c.value.span, .map (left ++ Binding.keyValue d' :: right) recursive⟩ } : KeyValue).shape :=
      shape_keyValue hpath hvalue
    simp [Hole.fill, Binding.shape, hsame]

/-! ## The ends of a binding -/

/-- A binding begins with its first token and ends with a semicolon. -/
theorem Derives.keyValue_ends {k : List Token} {b : KeyValue} (h : Derives .keyValue k b) :
    ∃ (t : Token) (k' : List Token) (semicolon : Token),
      k = t :: (k' ++ [semicolon]) ∧ t.kind ≠ .text ∧
      semicolon.kind = .semicolon ∧ b.span = ⟨t.span.start, semicolon.span.stop⟩ := by
  obtain ⟨t, ts, hts, hstart⟩ := h.keyValue_start
  have hbegins := h.begins
  obtain ⟨l, assign, q, semicolon, rfl, -, hassigns⟩ := h.assigns
  obtain ⟨k', hk'⟩ : ∃ k', l ++ assign :: q = t :: k' := by
    cases l with
    | nil =>
      obtain ⟨rfl, -⟩ := List.cons.inj hts
      exact ⟨q, rfl⟩
    | cons t' l =>
      obtain ⟨rfl, -⟩ := List.cons.inj hts
      exact ⟨l ++ assign :: q, rfl⟩
  refine ⟨t, k', semicolon, ?_, ?_, hassigns.semicolon_kind, ?_⟩
  · have hall := congrArg (· ++ [semicolon]) hk'
    simpa using hall
  · intro htext
    rw [hts, headKind_cons, htext] at hbegins
    exact absurd hbegins (by decide)
  · rw [← hstart, ← hassigns.stop_eq]

/-- The first token of some bindings is that of the first of them. -/
theorem Derives.bindings_start {closing : TokenKind} {q : List Token} {x : KeyValue}
    {bs : List Binding} (h : Derives (.bindings closing) q (.keyValue x :: bs)) :
    ∃ t q', q = t :: q' ∧ t.kind ≠ .text ∧ x.span.start = t.span.start := by
  cases h with
  | bindings hx _ =>
    obtain ⟨t, k', semicolon, rfl, hkind, -, hspan⟩ := hx.binding_keyValue.keyValue_ends
    exact ⟨t, _, rfl, hkind, by rw [hspan]⟩

/-- The last token of some bindings is that of the last of them. -/
theorem Derives.bindings_stop {closing : TokenKind} {q : List Token} {x : KeyValue}
    {bs : List Binding} (h : Derives (.bindings closing) q (bs ++ [Binding.keyValue x])) :
    ∃ (q₁ : List Token) (t : Token) (q₂ : List Token) (semicolon : Token),
      q = q₁ ++ t :: (q₂ ++ [semicolon]) ∧ semicolon.kind = .semicolon ∧
      x.span = ⟨t.span.start, semicolon.span.stop⟩ := by
  obtain ⟨q₁, k, r, rfl, -, hk, hr⟩ := h.bindings_at
  cases hr with
  | noBinding =>
    obtain ⟨t, k', semicolon, rfl, -, hsemicolon, hspan⟩ := hk.binding_keyValue.keyValue_ends
    exact ⟨q₁, t, k', semicolon, by simp, hsemicolon, hspan⟩

/-- The tokens around a place between some bindings: `f` and `bar` in front of it, and `g`
behind it. -/
structure Between (left right : List Binding) (f : List Token) (bar : Token) (g : List Token) :
    Prop where
  barrier : bar.kind = .braceOpen ∨ bar.kind = .semicolon
  below : ∀ bs x, left = bs ++ [.keyValue x] →
    ∃ f₁ t f₂, f = f₁ ++ t :: f₂ ∧ x.span = ⟨t.span.start, bar.span.stop⟩
  above : ∀ x bs, right = .keyValue x :: bs →
    ∃ t g', g = t :: g' ∧ t.kind ≠ .text ∧ x.span.start = t.span.start

theorem Derives.between {p q : List Token} {left right : List Binding} {opening : Token}
    (hp : Derives (.bindings .braceClose) p left) (hq : Derives (.bindings .braceClose) q right)
    (hopening : opening.kind = .braceOpen ∨ opening.kind = .semicolon) (l z : List Token) :
    ∃ f bar, l ++ opening :: p = f ++ [bar] ∧ Between left right f bar (q ++ z) := by
  have habove : ∀ x bs, right = .keyValue x :: bs →
      ∃ t g', q ++ z = t :: g' ∧ t.kind ≠ .text ∧ x.span.start = t.span.start := by
    rintro x bs rfl
    obtain ⟨t, q', rfl, hkind, hstart⟩ := hq.bindings_start
    exact ⟨t, q' ++ z, rfl, hkind, hstart⟩
  rcases hp.bindings_semicolon with rfl | ⟨p', semicolon, rfl, hsemicolon⟩
  · refine ⟨l, opening, rfl, hopening, ?_, habove⟩
    rintro bs x rfl
    obtain ⟨q₁, t, q₂, semicolon, heq, -⟩ := hp.bindings_stop
    simp at heq
  · refine ⟨l ++ opening :: p', semicolon, by simp, .inr hsemicolon, ?_, habove⟩
    rintro bs x rfl
    obtain ⟨q₁, t, q₂, s, heq, -, hspan⟩ := hp.bindings_stop
    rw [← List.cons_append, ← List.append_assoc] at heq
    obtain ⟨rfl, hs⟩ := List.append_inj' heq rfl
    obtain rfl : semicolon = s := by simpa using hs
    exact ⟨l ++ opening :: q₁, t, q₂, by simp, hspan⟩

/-! ## Sets in a manifest -/

/-- The tokens of a binding of a set: what stands in front of the bindings of the set and what
stands behind them. -/
structure SetAround (c : KeyValue) (recursive : Bool) (l : List Token) (opening : Token)
    (r : List Token) : Prop where
  opening_kind : opening.kind = .braceOpen
  spans : ∃ t l₁ first l₂ closing r',
    l ++ [opening] = t :: (l₁ ++ first :: l₂) ∧ r = closing :: r' ∧
    closing.kind = .braceClose ∧ c.span.start = t.span.start ∧
    c.value.span = ⟨first.span.start, closing.span.stop⟩ ∧ (recursive = false → first = opening) ∧
    (recursive = true → first.kind = .keyword .recWord ∧ l₂ = [opening])
  derives : ∀ {l' r' q : List Token} {bs : List Binding}, Alike (l ++ [opening]) l' → Alike r r' →
    Derives (.bindings .braceClose) q bs →
      ∃ c', Derives (.bindings .braceClose) (l' ++ (q ++ r')) [.keyValue c'] ∧
        c'.path.map Key.shape = c.path.map Key.shape ∧ c'.value.node = .map bs recursive

theorem Derives.set_around {x : List Token} {c : KeyValue} {bs : List Binding} {recursive : Bool}
    (h : Derives (.bindings .braceClose) x [.keyValue c])
    (hnode : c.value.node = .map bs recursive) :
    ∃ l opening q r, x = l ++ opening :: (q ++ r) ∧ Derives (.bindings .braceClose) q bs ∧
      SetAround c recursive l opening r := by
  cases h with
  | @bindings _ k _ _ _ hk hnil =>
    cases hnil with
    | noBinding =>
      obtain ⟨t, ts, hts, hstart⟩ := hk.binding_keyValue.keyValue_start
      obtain ⟨lc, assign, v, semicolon, rfl, hv, hassigns⟩ := hk.binding_keyValue.assigns
      obtain ⟨lv, opening, q, closing, rv, rfl, hq, hbraces⟩ := hv.braces hnode
      obtain ⟨l₁, first, l₂, hfirst, hspan, hset⟩ := hbraces.span_eq
      refine ⟨lc ++ assign :: lv, opening, q, closing :: (rv ++ [semicolon]), by simp, hq,
        hbraces.opening_kind, ?_, ?_⟩
      · obtain ⟨k', hk'⟩ : ∃ k', lc ++ assign :: l₁ = t :: k' := by
          cases lc with
          | nil =>
            obtain ⟨rfl, -⟩ := List.cons.inj hts
            exact ⟨l₁, rfl⟩
          | cons t' lc =>
            obtain ⟨rfl, -⟩ := List.cons.inj hts
            exact ⟨lc ++ assign :: l₁, rfl⟩
        refine ⟨t, k', first, l₂, closing, rv ++ [semicolon], ?_, rfl, hbraces.closing_kind, hstart,
          hspan, hset⟩
        have hall := congrArg (· ++ first :: l₂) hk'
        rw [List.append_assoc, List.cons_append, hfirst]
        simpa using hall
      · intro l' r' q' bs' hl hr hq'
        have hsplit : lc ++ assign :: lv ++ [opening] = (lc ++ [assign]) ++ (lv ++ [opening]) := by
          simp
        have hsplit' : closing :: (rv ++ [semicolon]) = (closing :: rv) ++ [semicolon] := by simp
        rw [hsplit] at hl
        rw [hsplit'] at hr
        obtain ⟨lc', lv', rfl, hlc', hlv'⟩ := hl.exists_append
        obtain ⟨rv', s', rfl, hrv', hs'⟩ := hr.exists_append
        obtain ⟨span, hvalue⟩ := hbraces.derives hlv' hrv' hq'
        obtain ⟨c', hc', hpath, hvalue'⟩ := hassigns.derives hlc' hs' hvalue
        refine ⟨c', ?_, hpath, by rw [hvalue']⟩
        have hall : Derives (.bindings .braceClose) _ [.keyValue c'] :=
          .bindings (.keyValueBinding hc') .noBinding
        simpa using hall

end Grammar
end FlakeInputs
