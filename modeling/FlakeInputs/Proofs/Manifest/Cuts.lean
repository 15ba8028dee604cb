import Mathlib.Data.List.Forall2
import FlakeInputs.Proofs.Grammar.Heads
import FlakeInputs.Proofs.Manifest.Occurrence

/-!
# Cutting a manifest

The tokens of a manifest can be cut around some of its bindings.  When other bindings take
their place, the bindings in front are the same, and those behind have only moved.  The
parameter list of a function that has moved has tokens of the same kinds.
-/

namespace FlakeInputs

/-- Bindings that correspond to others of the same shapes have the same shapes. -/
theorem Binding.shapes_eq_of_forall₂ {r : Binding → Binding → Prop} {bs bs' : List Binding}
    (h : List.Forall₂ r bs bs') (hshape : ∀ x x', r x x' → x'.shape = x.shape) :
    bs'.map Binding.shape = bs.map Binding.shape := by
  induction h with
  | nil => rfl
  | cons hx _ ih => rw [List.map_cons, List.map_cons, hshape _ _ hx, ih]

/-- The parameter list of a binding of a function. -/
def Binding.head? : Binding → Option ParameterList
  | .keyValue b =>
    match b.value.node with
    | .function (.destructured list) _ => some list
    | _ => none
  | .inherited _ _ _ => none

theorem Binding.head?_shape (x : Binding) :
    x.shape.head? = x.head?.map ParameterList.shape := by
  cases x with
  | inherited span names source? => rfl
  | keyValue b =>
    obtain ⟨span, path, ⟨span', node⟩⟩ := b
    cases node with
    | function head body => cases head <;> rfl
    | _ => rfl

theorem Binding.head?_eq_some {x : Binding} {list : ParameterList} (h : x.head? = some list) :
    ∃ b body, x = .keyValue b ∧ b.value.node = .function (.destructured list) body := by
  cases x with
  | inherited span names source? => simp [Binding.head?] at h
  | keyValue b =>
    simp only [Binding.head?] at h
    split at h
    · next list' body hnode =>
      obtain rfl := Option.some.inj h
      exact ⟨b, body, rfl, hnode⟩
    · simp at h

namespace Grammar

/-- The entries of a parameter list stand among some tokens, and these are their kinds. -/
def HeadAt (p : List Token) (list : ParameterList) (ks : List TokenKind) : Prop :=
  ∃ l opening q closing r, p = l ++ opening :: (q ++ closing :: r) ∧ opening.kind = .braceOpen ∧
    closing.kind = .braceClose ∧ list.span.stop = closing.span.stop ∧ q.map Token.kind = ks

theorem HeadAt.within {p : List Token} {list : ParameterList} {ks : List TokenKind}
    (h : HeadAt p list ks) (l r : List Token) : HeadAt (l ++ (p ++ r)) list ks := by
  obtain ⟨l', opening, q, closing, r', rfl, h⟩ := h
  exact ⟨l ++ l', opening, q, closing, r' ++ r, by simp, h⟩

/-- The same binding in two places. -/
structure Kin (p p' : List Token) (x x' : Binding) : Prop where
  shape : x'.shape = x.shape
  head : ∀ list', x'.head? = some list' →
    ∃ list ks, x.head? = some list ∧ HeadAt p list ks ∧ HeadAt p' list' ks

theorem Kin.within {p p' : List Token} {x x' : Binding} (h : Kin p p' x x')
    (l l' r r' : List Token) : Kin (l ++ (p ++ r)) (l' ++ (p' ++ r')) x x' where
  shape := h.shape
  head list' hlist' := by
    obtain ⟨list, ks, hlist, hp, hp'⟩ := h.head list' hlist'
    exact ⟨list, ks, hlist, hp.within l r, hp'.within l' r'⟩

theorem Alike.map_kind {p p' : List Token} (h : Alike p p') :
    p'.map Token.kind = p.map Token.kind := by
  have hkinds := congrArg (List.map Prod.fst) h
  simpa [Token.bare, Function.comp_def] using hkinds

theorem shape_listBetween {es es' : List (Option Parameter)} {whole? : Option Text}
    (opening closing o c : Token)
    (h : es'.map (Option.map Parameter.shape) = es.map (Option.map Parameter.shape)) :
    (listBetween o c es' whole?).shape = (listBetween opening closing es whole?).shape := by
  obtain ⟨hparameters, hellipsis⟩ := shape_entries h
  simp only [listBetween, ParameterList.shape, Parameter.shapes_eq_map, hparameters, hellipsis]

/-- A binding of a function that has moved. -/
theorem Derives.function_moves {k k' : List Token} {b : KeyValue} {list : ParameterList}
    {body : Expr} (h : Derives .keyValue k b) (halike : Alike k k')
    (hnode : b.value.node = .function (.destructured list) body) :
    ∃ b', Derives .keyValue k' b' ∧ Kin k k' (.keyValue b) (.keyValue b') := by
  obtain ⟨lb, assign, v, semicolon, rfl, hv, hassigns⟩ := h.assigns
  obtain ⟨lh, opening, q, closing, r, es, rfl, hq, hlist, hheads⟩ := hv.heads hnode
  have hsplit : lb ++ assign :: (lh ++ opening :: (q ++ closing :: r) ++ [semicolon]) =
      (lb ++ [assign]) ++ (lh ++ (opening :: (q ++ (closing :: (r ++ [semicolon]))))) := by
    simp
  rw [hsplit] at halike
  obtain ⟨lb', _, rfl, hlb', halike⟩ := halike.exists_append
  obtain ⟨lh', _, rfl, hlh', halike⟩ := halike.exists_append
  obtain ⟨o, _, rfl, ho, -, halike⟩ := halike.exists_cons
  obtain ⟨q', _, rfl, hq', halike⟩ := halike.exists_append
  obtain ⟨c, _, rfl, hc, -, halike⟩ := halike.exists_cons
  obtain ⟨r', s', rfl, hr', hs'⟩ := halike.exists_append
  obtain ⟨es', hes', hshapes⟩ := hq.moves q' hq'
  obtain ⟨e', body', he', hnode', hbody'⟩ := hheads.derives hlh' hr'
    (ho.trans hheads.opening_kind) (hc.trans hheads.closing_kind) hes'
  obtain ⟨b', hb', hpath, hvalue⟩ := hassigns.derives hlb' hs' he'
  have hhead' : Binding.head? (.keyValue b') = some (listBetween o c es' list.whole?) := by
    simp only [Binding.head?, hvalue, hnode']
  refine ⟨b', by simpa using hb', ?_, ?_⟩
  · refine congrArg Binding.keyValue (shape_keyValue hpath ?_)
    have hshape : (listBetween o c es' list.whole?).shape = list.shape := by
      conv => rhs; rw [hlist]
      exact shape_listBetween opening closing o c hshapes
    rw [hvalue, Expr.eta e', Expr.eta b.value, hnode', hnode]
    simp only [Expr.shape, Node.shape, Head.shape, hshape, hbody']
  · intro list' hlist'
    obtain rfl := Option.some.inj (hhead'.symm.trans hlist')
    refine ⟨list, q.map Token.kind, by simp only [Binding.head?, hnode], ?_, ?_⟩
    · refine ⟨lb ++ assign :: lh, opening, q, closing, r ++ [semicolon], by simp,
        hheads.opening_kind, hheads.closing_kind, ?_, rfl⟩
      rw [hlist]
      rfl
    · exact ⟨lb' ++ lh', o, q', c, r' ++ s', by simp, ho.trans hheads.opening_kind,
        hc.trans hheads.closing_kind, rfl, hq'.map_kind⟩

/-- A binding that has moved. -/
theorem Derives.binding_moves {k k' : List Token} {x : Binding} (h : Derives .binding k x)
    (halike : Alike k k') : ∃ x', Derives .binding k' x' ∧ Kin k k' x x' := by
  cases hhead : x.head? with
  | some list =>
    obtain ⟨b, body, rfl, hnode⟩ := Binding.head?_eq_some hhead
    obtain ⟨b', hb', hkin⟩ := h.binding_keyValue.function_moves halike hnode
    exact ⟨.keyValue b', .keyValueBinding hb', hkin⟩
  | none =>
    obtain ⟨x', hx', hshape⟩ := h.moves k' halike
    refine ⟨x', hx', hshape, ?_⟩
    intro list' hlist'
    have hsame := x'.head?_shape
    rw [show x'.shape = x.shape from hshape, Binding.head?_shape, hhead, hlist'] at hsame
    exact absurd hsame (by simp)

/-- Bindings that have moved. -/
theorem Derives.bindings_kin {closing : TokenKind} {p p' : List Token} {bs : List Binding}
    (h : Derives (.bindings closing) p bs) (halike : Alike p p') :
    ∃ bs', Derives (.bindings closing) p' bs' ∧ List.Forall₂ (Kin p p') bs bs' := by
  induction bs generalizing p p' with
  | nil =>
    cases h with
    | noBinding =>
      rw [halike.eq_nil]
      exact ⟨[], .noBinding, .nil⟩
  | cons x bs ih =>
    cases h with
    | @bindings _ k q _ _ hx hbs =>
      obtain ⟨k', q', rfl, hk', hq'⟩ := halike.exists_append
      obtain ⟨x', hx', hkin⟩ := hx.binding_moves hk'
      obtain ⟨bs', hbs', hkins⟩ := ih hbs hq'
      refine ⟨x' :: bs', .bindings hx' hbs', .cons ?_ (hkins.imp fun y y' hy => ?_)⟩
      · exact hkin.within [] [] q q'
      · simpa using hy.within k k' [] []

theorem Derives.binding_headAt {k : List Token} {x : Binding} (h : Derives .binding k x)
    {list : ParameterList} (hlist : x.head? = some list) : ∃ ks, HeadAt k list ks := by
  obtain ⟨b, body, rfl, hnode⟩ := Binding.head?_eq_some hlist
  obtain ⟨b', -, hkin⟩ := h.binding_keyValue.function_moves (.refl k) hnode
  have hsome : (Binding.keyValue b').head?.isSome := by
    have hsame := (Binding.keyValue b').head?_shape
    rw [hkin.shape, Binding.head?_shape, hlist] at hsame
    cases hb' : (Binding.keyValue b').head? with
    | none => simp [hb'] at hsame
    | some list' => rfl
  obtain ⟨list', hlist'⟩ := Option.isSome_iff_exists.1 hsome
  obtain ⟨list₁, ks, hlist₁, hat, -⟩ := hkin.head list' hlist'
  obtain rfl := Option.some.inj (hlist.symm.trans hlist₁)
  exact ⟨ks, hat⟩

/-- The parameter list of a binding stands among the tokens of the bindings. -/
theorem Derives.bindings_headAt {closing : TokenKind} {p : List Token} {bs : List Binding}
    (h : Derives (.bindings closing) p bs) {x : Binding} (hx : x ∈ bs) {list : ParameterList}
    (hlist : x.head? = some list) : ∃ ks, HeadAt p list ks := by
  obtain ⟨before, behind, rfl⟩ := List.append_of_mem hx
  obtain ⟨q, k, r, rfl, -, hk, -⟩ := h.bindings_at
  obtain ⟨ks, hat⟩ := hk.binding_headAt hlist
  exact ⟨ks, hat.within q r⟩

/-! ## Cuts -/

/-- A binding ends with a semicolon. -/
theorem Derives.binding_semicolon {k : List Token} {x : Binding} (h : Derives .binding k x) :
    ∃ (k' : List Token) (semicolon : Token), k = k' ++ [semicolon] ∧ semicolon.kind = .semicolon ∧
      x.span.stop = semicolon.span.stop := by
  cases h with
  | keyValueBinding h =>
    obtain ⟨l, assign, q, semicolon, rfl, -, hassigns⟩ := h.assigns
    exact ⟨l ++ assign :: q, semicolon, by simp, hassigns.semicolon_kind, hassigns.stop_eq⟩
  | @inherited word semicolon p _ _ _ hsemicolon =>
    exact ⟨word :: p, semicolon, rfl, hsemicolon, rfl⟩
  | @inheritedFrom word opening closing semicolon p q _ _ _ _ _ _ _ hsemicolon =>
    exact ⟨word :: opening :: (p ++ closing :: q), semicolon, by simp, hsemicolon, rfl⟩

theorem Derives.bindings_semicolon {closing : TokenKind} {q : List Token} {bs : List Binding}
    (h : Derives (.bindings closing) q bs) :
    q = [] ∨ ∃ (q' : List Token) (semicolon : Token),
      q = q' ++ [semicolon] ∧ semicolon.kind = .semicolon := by
  rcases List.eq_nil_or_concat bs with rfl | ⟨bs, x, rfl⟩
  · cases h with
    | noBinding => exact .inl rfl
  · rw [List.concat_eq_append] at h
    obtain ⟨q', k, r, rfl, -, hk, hr⟩ := h.bindings_at
    obtain ⟨k', semicolon, rfl, hsemicolon, -⟩ := hk.binding_semicolon
    cases hr with
    | noBinding => exact .inr ⟨q' ++ k', semicolon, by simp, hsemicolon⟩

/-- Some bindings of a manifest can be exchanged for others. -/
structure Cut (recursive : Bool) (before behind : List Binding) (a b : List Token) : Prop where
  barrier : ∃ a' bar, a = a' ++ [bar] ∧ (bar.kind = .braceOpen ∨ bar.kind = .semicolon)
  headAt : ∀ x ∈ before, ∀ list, x.head? = some list → ∃ ks, HeadAt a list ks
  derives : ∀ {m b' : List Token} {mid : List Binding}, Alike b b' →
    Derives (.bindings .braceClose) m mid →
      ∃ span behind',
        Derives .expr (a ++ (m ++ b')) ⟨span, .map (before ++ (mid ++ behind')) recursive⟩ ∧
        List.Forall₂ (Kin b b') behind behind'

theorem Derives.cut {ts : List Token} {T : Expr} {before mid behind : List Binding}
    {recursive : Bool} (h : Derives .expr ts T)
    (hnode : T.node = .map (before ++ (mid ++ behind)) recursive) :
    ∃ a m b, ts = a ++ (m ++ b) ∧ Derives (.bindings .braceClose) m mid ∧
      Cut recursive before behind a b := by
  obtain ⟨l, opening, q, closing, r, rfl, hq, hbraces⟩ := h.braces hnode
  obtain ⟨q₁, _, rfl, hq₁, hrest⟩ := hq.bindings_split
  obtain ⟨m, q₂, rfl, hm, hq₂⟩ := hrest.bindings_split
  refine ⟨l ++ opening :: q₁, m, q₂ ++ closing :: r, by simp, hm, ?_, ?_, ?_⟩
  · rcases hq₁.bindings_semicolon with rfl | ⟨q, semicolon, rfl, hsemicolon⟩
    · exact ⟨l, opening, by simp, .inl hbraces.opening_kind⟩
    · exact ⟨l ++ opening :: q, semicolon, by simp, .inr hsemicolon⟩
  · intro x hx list hlist
    obtain ⟨ks, hat⟩ := hq₁.bindings_headAt hx hlist
    exact ⟨ks, by simpa using hat.within (l ++ [opening]) []⟩
  · intro m' b' mid' hb' hm'
    obtain ⟨q₂', r', rfl, hq₂', hr'⟩ := hb'.exists_append
    obtain ⟨behind', hbehind', hkin⟩ := hq₂.bindings_kin hq₂'
    obtain ⟨span, hT'⟩ := hbraces.derives (.refl _) hr'
      (hq₁.bindings_append (hm'.bindings_append hbehind'))
    refine ⟨span, behind', by simpa using hT', hkin.imp fun x x' hx => ?_⟩
    exact hx.within [] [] (closing :: r) r'

/-- The bindings around a cut when others have taken the place of those in it. -/
theorem Cut.kin {recursive : Bool} {before behind behind' : List Binding} {a b b' : List Token}
    (h : Cut recursive before behind a b) (hbehind : List.Forall₂ (Kin b b') behind behind')
    (m m' : List Token) :
    List.Forall₂ (Kin (a ++ (m ++ b)) (a ++ (m' ++ b'))) (before ++ behind)
      (before ++ behind') := by
  refine List.rel_append (List.forall₂_same.2 ?_) (hbehind.imp fun x x' hx => ?_)
  · refine fun x hx => ⟨rfl, fun list hlist => ?_⟩
    obtain ⟨ks, hat⟩ := h.headAt x hx list hlist
    exact ⟨list, ks, hlist, hat.within [] (m ++ b), hat.within [] (m' ++ b')⟩
  · simpa using hx.within (a ++ m) (a ++ m') [] []

theorem shapes_of_kin {p p' : List Token} {bs bs' : List Binding}
    (h : List.Forall₂ (Kin p p') bs bs') : bs'.map Binding.shape = bs.map Binding.shape :=
  Binding.shapes_eq_of_forall₂ h fun _ _ hx => hx.shape

theorem ne_nil_of_headKind {p : List Token} {kind : TokenKind} (h : headKind p = some kind) :
    p ≠ [] := by
  rintro rfl
  simp at h

/-- The entries `q` of the parameter list of a function that a binding binds can be exchanged for
others. -/
structure FunctionHole (o : KeyValue) (list : ParameterList) (body : Expr) (l : List Token)
    (opening : Token) (q : List Token) (closing : Token) (r : List Token)
    (es : List (Option Parameter)) : Prop where
  entries : Derives .entries q es
  list_eq : list = listBetween opening closing es list.whole?
  opening_kind : opening.kind = .braceOpen
  closing_kind : closing.kind = .braceClose
  behind : ∀ w, headKind (r ++ w) = some .colon ∨ headKind (r ++ w) = some .atSign
  derives : ∀ {q' r' : List Token} {c : Token} {es' : List (Option Parameter)},
    c.kind = .braceClose → Alike r r' → Derives .entries q' es' →
    ∃ o' body', Derives (.bindings .braceClose) (l ++ opening :: (q' ++ c :: r')) [.keyValue o'] ∧
      o'.path.map Key.shape = o.path.map Key.shape ∧
      o'.value.node = .function (.destructured (listBetween opening c es' list.whole?)) body' ∧
      body'.shape = body.shape

namespace FunctionHole

variable {o : KeyValue} {list : ParameterList} {body : Expr} {l q r : List Token}
  {opening closing : Token} {es : List (Option Parameter)}
  (h : FunctionHole o list body l opening q closing r es)
include h

theorem span_eq : list.span = opening.span.join closing.span := by
  rw [h.list_eq]
  rfl

theorem parameters_eq : list.parameters = es.filterMap id := by
  rw [h.list_eq]
  rfl

theorem ellipsis_eq : list.ellipsis = es.any Option.isNone := by
  rw [h.list_eq]
  rfl

/-- A list without parameters and without an ellipsis has no entries. -/
theorem eq_nil (hparameters : list.parameters = []) (hellipsis : list.ellipsis = false) :
    q = [] ∧ es = [] := by
  have hentries := h.entries
  rw [h.parameters_eq] at hparameters
  rw [h.ellipsis_eq] at hellipsis
  cases hentries with
  | noEntry => exact ⟨rfl, rfl⟩
  | ellipsis => simp at hellipsis
  | lastEntry => simp at hparameters
  | entry => simp at hparameters

end FunctionHole

theorem Derives.function_hole {y : List Token} {o : KeyValue} {list : ParameterList} {body : Expr}
    (h : Derives (.bindings .braceClose) y [.keyValue o])
    (ho : o.value.node = .function (.destructured list) body) :
    ∃ l opening q closing r es, y = l ++ opening :: (q ++ closing :: r) ∧
      FunctionHole o list body l opening q closing r es := by
  cases h with
  | @bindings _ k r _ _ hk hr =>
    cases hr with
    | noBinding =>
      obtain ⟨lb, assign, v, semicolon, rfl, hv, hassigns⟩ := hk.binding_keyValue.assigns
      obtain ⟨lh, opening, q, closing, r, es, rfl, hq, hlist, hheads⟩ := hv.heads ho
      refine ⟨lb ++ assign :: lh, opening, q, closing, r ++ [semicolon], es, by simp, hq,
        hlist, hheads.opening_kind, hheads.closing_kind, ?_, ?_⟩
      · intro w
        rw [List.append_assoc]
        rcases hheads.behind with hr | hr
        · exact .inl (by rw [headKind_append_of_ne_nil (ne_nil_of_headKind hr), hr])
        · exact .inr (by rw [headKind_append_of_ne_nil (ne_nil_of_headKind hr), hr])
      · intro q' r' c es' hc hr' hq'
        obtain ⟨r', s', rfl, hr', hs'⟩ := hr'.exists_append
        obtain ⟨e', body', he', hnode', hbody'⟩ :=
          hheads.derives (.refl lh) hr' hheads.opening_kind hc hq'
        obtain ⟨o', ho', hpath, hvalue⟩ := hassigns.derives (.refl _) hs' he'
        have hall : Derives (.bindings .braceClose) _ [.keyValue o'] :=
          .bindings (.keyValueBinding ho') .noBinding
        exact ⟨o', body', by simpa using hall, hpath, by rw [hvalue, hnode'], hbody'⟩

/-- The entries of the parameter list of a function that a manifest binds can be exchanged for
others. -/
theorem Derives.function_site {ts : List Token} {T : Expr} {before behind : List Binding}
    {recursive : Bool} {o : KeyValue} {list : ParameterList} {body : Expr}
    (h : Derives .expr ts T)
    (hnode : T.node = .map (before ++ Binding.keyValue o :: behind) recursive)
    (ho : o.value.node = .function (.destructured list) body) :
    ∃ a opening q closing b es, ts = a ++ opening :: (q ++ closing :: b) ∧
      Derives .entries q es ∧ list = listBetween opening closing es list.whole? ∧
      opening.kind = .braceOpen ∧ closing.kind = .braceClose ∧
      (headKind b = some .colon ∨ headKind b = some .atSign) ∧
      ∀ {q' b' : List Token} {c : Token} {es' : List (Option Parameter)}, c.kind = .braceClose →
        Alike b b' → Derives .entries q' es' →
        ∃ T' o' behind' body', Derives .expr (a ++ opening :: (q' ++ c :: b')) T' ∧
          T'.node = .map (before ++ Binding.keyValue o' :: behind') recursive ∧
          o'.path.map Key.shape = o.path.map Key.shape ∧
          o'.value.node = .function (.destructured (listBetween opening c es' list.whole?)) body' ∧
          body'.shape = body.shape ∧ behind'.map Binding.shape = behind.map Binding.shape := by
  have hsplit : T.node = .map (before ++ ([Binding.keyValue o] ++ behind)) recursive := hnode
  obtain ⟨a, m, b, rfl, hm, hcut⟩ := h.cut hsplit
  obtain ⟨l, opening, q, closing, r, es, rfl, hhole⟩ := hm.function_hole ho
  refine ⟨a ++ l, opening, q, closing, r ++ b, es, by simp, hhole.entries, hhole.list_eq,
    hhole.opening_kind, hhole.closing_kind, hhole.behind b, ?_⟩
  intro q' b' c es' hc hb' hq'
  obtain ⟨r', b', rfl, hr', hb'⟩ := hb'.exists_append
  obtain ⟨o', body', ho', hpath, hnode', hbody'⟩ := hhole.derives hc hr' hq'
  obtain ⟨span, behind', hT', hkin⟩ := hcut.derives hb' ho'
  refine ⟨_, o', behind', body', by simpa using hT', rfl, hpath, hnode', hbody', ?_⟩
  exact shapes_of_kin hkin

end Grammar
end FlakeInputs
