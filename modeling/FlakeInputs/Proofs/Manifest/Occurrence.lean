import FlakeInputs.Proofs.Grammar.Frames
import FlakeInputs.Proofs.Manifest.Lookup

/-!
# Where a binding stands

A binding that a search finds is a phrase of its own among the tokens of the manifest.
Another binding of the same key can take its place, and is then what the search finds.
-/

namespace FlakeInputs
namespace Grammar

open Lookup (found findSomeM?_eq_some findSomeM?_append_of_none findSomeM?_cons_of_some
  found_eq_none_of_shape found_of_reached found_of_within findFirst_map exists_map_of_findFirst
  Exchanges)

/-- Another binding of the same key can stand between `l` and `r` in the place of `b`, the
first among `bs` that a path leads to. -/
def Holds (path : List Text) (bs : List Binding) (b : KeyValue) (l r : List Token) : Prop :=
  ∀ {l' k' r' : List Token} {b' : KeyValue}, Alike l l' → Alike r r' → Derives .keyValue k' b' →
    b'.names = b.names →
      ∃ bs' bs₁, Derives (.bindings .braceClose) (l' ++ (k' ++ r')) bs' ∧
        bs'.findSomeM? (found (some path)) = .ok (some b') ∧
        bs'.map Binding.shape = bs₁.map Binding.shape ∧
        ∀ span recursive,
          Exchanges b b' path ⟨span, .map bs recursive⟩ ⟨span, .map bs₁ recursive⟩

theorem Derives.bindings_moves {closing : TokenKind} {p p' : List Token} {bs : List Binding}
    (h : Derives (.bindings closing) p bs) (halike : Alike p p') :
    ∃ bs', Derives (.bindings closing) p' bs' ∧ bs'.map Binding.shape = bs.map Binding.shape :=
  h.moves p' halike

theorem Derives.binding_keyValue {p : List Token} {b : KeyValue}
    (h : Derives .binding p (.keyValue b)) : Derives .keyValue p b := by
  cases h with
  | keyValueBinding h => exact h

theorem Derives.holds_reached {path : List Text} {q r : List Token}
    {before behind : List Binding} {b : KeyValue}
    (hq : Derives (.bindings .braceClose) q before)
    (hr : Derives (.bindings .braceClose) r behind)
    (hbefore : ∀ x ∈ before, Lookup.found (some path) x = .ok none)
    (hb : Lookup.compare b.names (some path) = .reached) :
    Holds path (before ++ Binding.keyValue b :: behind) b q r := by
  intro q' k' r' b' hq' hr' hk' hnames
  obtain ⟨before', hbefore', hshape⟩ := hq.bindings_moves hq'
  obtain ⟨behind', hbehind', hshape'⟩ := hr.bindings_moves hr'
  refine ⟨before' ++ Binding.keyValue b' :: behind', before ++ Binding.keyValue b' :: behind,
    ?_, ?_, ?_, ?_⟩
  · exact hbefore'.bindings_append (.bindings (.keyValueBinding hk') hbehind')
  · rw [findSomeM?_append_of_none (found_eq_none_of_shape hshape hbefore)]
    exact findSomeM?_cons_of_some (found_of_reached (by rw [hnames, hb]))
  · simp [hshape, hshape']
  · exact fun span recursive => .reached hbefore hb

theorem shape_keyValue {b b' : KeyValue} (hpath : b'.path.map Key.shape = b.path.map Key.shape)
    (hvalue : b'.value.shape = b.value.shape) : b'.shape = b.shape := by
  obtain ⟨span, path, value⟩ := b
  obtain ⟨span', path', value'⟩ := b'
  simpa [KeyValue.shape] using ⟨hpath, hvalue⟩

theorem Derives.holds_within {path rest : List Text} {q r lc lv l r' rv : List Token}
    {assign semicolon opening closing : Token} {before behind bs : List Binding}
    {recursive : Bool} {b c : KeyValue}
    (hq : Derives (.bindings .braceClose) q before)
    (hr : Derives (.bindings .braceClose) r behind)
    (hassigns : Assigns c lc assign semicolon)
    (hbraces : Braces c.value recursive lv opening closing rv)
    (hnode : c.value.node = .map bs recursive) (hholds : Holds rest bs b l r')
    (hbefore : ∀ x ∈ before, Lookup.found (some path) x = .ok none)
    (hc : Lookup.compare c.names (some path) = .within rest) :
    Holds path (before ++ Binding.keyValue c :: behind) b
      (q ++ ((lc ++ [assign]) ++ ((lv ++ [opening]) ++ l)))
      (r' ++ (closing :: rv ++ ([semicolon] ++ r))) := by
  intro l₁ k' r₁ b' hl hr₁ hk' hnames
  obtain ⟨q', _, rfl, hq', hl⟩ := hl.exists_append
  obtain ⟨lc', _, rfl, hlc', hl⟩ := hl.exists_append
  obtain ⟨lv', l', rfl, hlv', hl'⟩ := hl.exists_append
  obtain ⟨r'', _, rfl, hr'', hr₁⟩ := hr₁.exists_append
  obtain ⟨rv', _, rfl, hrv', hr₁⟩ := hr₁.exists_append
  obtain ⟨s', rb', rfl, hs', hrb'⟩ := hr₁.exists_append
  obtain ⟨before', hbefore', hshape⟩ := hq.bindings_moves hq'
  obtain ⟨behind', hbehind', hshape'⟩ := hr.bindings_moves hrb'
  obtain ⟨bs', bs₁, hbs', hfirst, hshapes, hexchanges⟩ := hholds hl' hr'' hk' hnames
  obtain ⟨span, hvalue⟩ := hbraces.derives hlv' hrv' hbs'
  obtain ⟨c', hc', hpath, hvalue'⟩ := hassigns.derives hlc' hs' hvalue
  have hnames' := KeyValue.names_eq_of_shape hpath
  refine ⟨before' ++ Binding.keyValue c' :: behind',
    before ++ Binding.keyValue { c with value := ⟨c.value.span, .map bs₁ recursive⟩ } :: behind,
    ?_, ?_, ?_, ?_⟩
  · have hall := hbefore'.bindings_append (.bindings (.keyValueBinding hc') hbehind')
    simpa using hall
  · rw [findSomeM?_append_of_none (found_eq_none_of_shape hshape hbefore)]
    refine findSomeM?_cons_of_some ?_
    rw [found_of_within (by rw [hnames', hc]), hvalue', findFirst_map rfl]
    exact hfirst
  · have hsame : c'.shape =
        ({ c with value := ⟨c.value.span, .map bs₁ recursive⟩ } : KeyValue).shape := by
      refine shape_keyValue hpath ?_
      simp [hvalue', Expr.shape, Node.shape, hshapes]
    simp [hshape, hshape', Binding.shape, hsame]
  · intro span recursive'
    refine .within hbefore hc ?_
    have hinner := hexchanges c.value.span recursive
    rwa [← hnode, ← Expr.eta] at hinner

/-- The binding that a search finds among some bindings is a phrase in which others can take
its place. -/
theorem Derives.bindings_first {path : List Text} {p : List Token} {bs : List Binding}
    {b : KeyValue} (h : Derives (.bindings .braceClose) p bs)
    (hfind : bs.findSomeM? (Lookup.found (some path)) = .ok (some b)) :
    ∃ l k r, p = l ++ (k ++ r) ∧ Derives .keyValue k b ∧ Holds path bs b l r := by
  induction hn : path.length using Nat.strongRecOn generalizing path p bs with
  | _ n ih =>
    subst hn
    obtain ⟨before, x, behind, rfl, hbefore, hx⟩ := findSomeM?_eq_some.1 hfind
    obtain ⟨q, k, r, rfl, hq, hk, hr⟩ := h.bindings_at
    cases x with
    | inherited span names source? => simp [Lookup.found] at hx
    | keyValue c =>
      cases hcompare : Lookup.compare c.names (some path) with
      | apart =>
        rw [Lookup.found_of_apart hcompare] at hx
        simp at hx
      | reached =>
        rw [found_of_reached hcompare] at hx
        obtain rfl := Option.some.inj (Except.ok.inj hx)
        exact ⟨q, k, r, rfl, hk.binding_keyValue, holds_reached hq hr hbefore hcompare⟩
      | within rest =>
        rw [found_of_within hcompare] at hx
        obtain ⟨cs, recursive, hnode⟩ := exists_map_of_findFirst hx
        rw [findFirst_map hnode] at hx
        obtain ⟨lc, assign, qv, semicolon, rfl, hvalue, hassigns⟩ := hk.binding_keyValue.assigns
        obtain ⟨lv, opening, qs, closing, rv, rfl, hqs, hbraces⟩ := hvalue.braces hnode
        obtain ⟨l, k, r', rfl, hk, hholds⟩ := ih _ (Lookup.size_within_lt hcompare) hqs hx rfl
        refine ⟨_, k, _, ?_, hk, holds_within hq hr hassigns hbraces hnode hholds hbefore hcompare⟩
        simp

end Grammar
end FlakeInputs
