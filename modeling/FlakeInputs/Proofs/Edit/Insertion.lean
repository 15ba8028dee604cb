import FlakeInputs.Proofs.Edit.Growth
import FlakeInputs.Proofs.Edit.Openings
import FlakeInputs.Proofs.Edit.Sites

/-!
# Declaring an input

A new input is declared by two edits of the text, which are made one after the other from the
spans of one tree.  The text that results is read as the manifest with one more binding in it,
and with one more parameter of the outputs function.
-/

namespace FlakeInputs
namespace Edit

open Grammar Scan
open Token (locate)
open Lookup (Exchanges startsWith)
open Manifest (inputsName outputsName urlName urlPath)

/-- How declarations are written in a place: whether their keys are qualified, and the text in
front of them and behind them. -/
structure Writing where
  qualified : Bool
  front : Text
  back : Text

/-- The text with a declaration in the place. -/
def Writing.text (w : Writing) (name url : Text) : Text :=
  w.front ++ (declaration name url w.qualified ++ w.back)

/-- A text is read as a tree in which `d` is the declaration that is written in it. -/
structure Spelled (name url : Text) (w : Writing) (T' : Expr) (d : KeyValue) : Prop where
  parses : Expr.parse (w.text name url) = .ok T'
  shape : d.shape = declared name url w.qualified
  span : d.span = ⟨Position.start.after w.front,
    (Position.start.after w.front).after (declaration name url w.qualified)⟩
  value : d.value.node = .string [.text
    ⟨Position.start.after (w.front ++ declarationHead name w.qualified),
      (Position.start.after (w.front ++ declarationHead name w.qualified)).after (escape url)⟩
    (escape url)]

/-- Two bindings of two texts are the same, apart from spans. -/
structure Same (text out : Text) (x x' : Binding) : Prop where
  shape : x'.shape = x.shape
  clean : (∀ list, x.head? = some list → endsInUri text list = false) →
    ∀ list, x'.head? = some list → endsInUri out list = false

theorem same_of_kin {text out : Text} {ps ps' : List Piece} {l l' p p' r r' : List Token}
    {x x' : Binding} (h : Kin p p' x x') (hps : pieces [] text = .ok ps)
    (htokens : locate .start ps = l ++ (p ++ r)) (hps' : pieces [] out = .ok ps')
    (htokens' : locate .start ps' = l' ++ (p' ++ r')) : Same text out x x' where
  shape := h.shape
  clean hclean list' hlist' := by
    obtain ⟨list, ks, hlist, hat, hat'⟩ := h.head list' hlist'
    rw [endsInUri_of_headAt hps' htokens' hat', ← endsInUri_of_headAt hps htokens hat]
    exact hclean list hlist

/-! ## One more binding -/

section
variable {text name : Text} {place : Placing} {spot : Spot}

/-- A place in a text whose tokens are those of a manifest. -/
structure Gap (text : Text) (N : List Piece) (spot : Spot) (f : List Token) (bar : Token)
    (g : List Token) : Prop where
  pieces_eq : pieces [] text = .ok N
  tokens : locate .start N = f ++ bar :: g
  barrier : bar.kind = .braceOpen ∨ bar.kind = .semicolon
  derives : ∀ {k g' : List Token} {d : KeyValue}, Derives .keyValue k d → Alike g g' →
    ∃ span bs right', Derives .expr (f ++ bar :: (k ++ g'))
        ⟨span, .map (spot.left ++ (bs ++ right')) spot.recursive⟩ ∧ spot.hole.Filled d bs ∧
      List.Forall₂ (Kin g g') spot.right right'
  headAt : ∀ x ∈ spot.left, ∀ list, x.head? = some list → ∃ ks, HeadAt (f ++ [bar]) list ks

theorem gap_of_tokens {N : List Piece} {l a x₁ x₂ c z f : List Token} {bar₀ bar : Token}
    (hpieces : pieces [] text = .ok N)
    (htokens : locate .start N = (l ++ bar₀ :: (a ++ x₁)) ++ (x₂ ++ (c ++ z)))
    (hf : l ++ bar₀ :: (a ++ x₁) = f ++ [bar])
    (hbar : bar.kind = .braceOpen ∨ bar.kind = .semicolon)
    (ha : Derives (.bindings .braceClose) a spot.left)
    (hc : Derives (.bindings .braceClose) c spot.right)
    (hfills : ∀ {x₂' k : List Token} {d : KeyValue}, Alike x₂ x₂' → Derives .keyValue k d →
      ∃ bs, Derives (.bindings .braceClose) (x₁ ++ (k ++ x₂')) bs ∧ spot.hole.Filled d bs)
    (hframe : ∀ {q z' : List Token} {bs : List Binding}, Alike z z' →
      Derives (.bindings .braceClose) q bs →
        ∃ span, Derives .expr (l ++ [bar₀] ++ (q ++ z')) ⟨span, .map bs spot.recursive⟩) :
    Gap text N spot f bar (x₂ ++ (c ++ z)) := by
  refine ⟨hpieces, ?_, hbar, ?_, ?_⟩
  · rw [htokens, hf, List.append_assoc]
    rfl
  · intro k g' d hk hg'
    obtain ⟨x₂', _, rfl, hx₂', hg'⟩ := hg'.exists_append
    obtain ⟨c', z', rfl, hc', hz'⟩ := hg'.exists_append
    obtain ⟨bs, hbs, hfilled⟩ := hfills hx₂' hk
    obtain ⟨right', hright', hkin⟩ := hc.bindings_kin hc'
    obtain ⟨span, hT'⟩ := hframe hz' (ha.bindings_append (hbs.bindings_append hright'))
    refine ⟨span, bs, right', ?_, hfilled, hkin.imp fun x x' hx => hx.within x₂ x₂' z z'⟩
    have hall : f ++ bar :: (k ++ (x₂' ++ (c' ++ z'))) =
        l ++ [bar₀] ++ ((a ++ ((x₁ ++ (k ++ x₂')) ++ c')) ++ z') := by
      rw [List.append_cons, ← hf]
      simp
    rwa [hall]
  · intro x hx list hlist
    obtain ⟨ks, hat⟩ := ha.bindings_headAt hx hlist
    refine ⟨ks, ?_⟩
    rw [← hf]
    simpa using hat.within (l ++ [bar₀]) x₁

/-- The text with a declaration in a place, and what it is read as. -/
structure Reads (text name url : Text) (spot : Spot) (w : Writing) (T' : Expr) (d : KeyValue) :
    Prop extends Spelled name url w T' d where
  node_eq : ∃ left' bs right', T'.node = .map (left' ++ (bs ++ right')) spot.recursive ∧
    spot.hole.Filled d bs ∧ List.Forall₂ (Same text (w.text name url)) spot.left left' ∧
    List.Forall₂ (Same text (w.text name url)) spot.right right'

theorem Room.bares_eq {qs gs xs rs : List Piece} {lead trail : Text}
    (h : Room qs gs xs rs lead trail) : bares rs = bares qs := by
  rw [h.split, bares_append, bares_append, isGaps_iff.1 h.gaps, isGaps_iff.1 h.removed]
  rfl

/-- Behind a declaration stand the same tokens as behind the barrier. -/
theorem Room.exists_tokens {N ps qs gs xs rs : List Piece} {f g : List Token} {bar : Token}
    {c : Char} {lead trail : Text} (h : Room qs gs xs rs lead trail)
    (hbarrier : Barrier N f bar g ps c qs) (ks : List Piece) :
    ∃ g', locate .start (ps ++ Piece.token bar.kind [c] :: (gs ++
        ((blanks lead ++ (ks ++ blanks trail)) ++ rs))) =
      f ++ bar :: (locate (Position.start.after
        (textOf (ps ++ Piece.token bar.kind [c] :: gs) ++ lead)) ks ++ g') ∧ Alike g g' := by
  have hbar : (⟨bar.kind, [c], ⟨Position.start.after (textOf ps),
      (Position.start.after (textOf ps)).after [c]⟩⟩ : Token) = bar := by
    rw [← hbarrier.span_eq, ← hbarrier.lexeme_eq]
  have hsplit :
      ps ++ Piece.token bar.kind [c] :: (gs ++ ((blanks lead ++ (ks ++ blanks trail)) ++ rs)) =
      (ps ++ Piece.token bar.kind [c] :: gs ++ blanks lead) ++ (ks ++ (blanks trail ++ rs)) := by
    simp
  have hfront : locate .start (ps ++ Piece.token bar.kind [c] :: gs ++ blanks lead) =
      f ++ [bar] := by
    rw [Token.locate_append, Token.locate_gaps (isGaps_blanks lead), Token.locate_append,
      hbarrier.front, locate, hbar, Token.locate_gaps h.gaps]
    simp
  have hback : ∀ p, Alike g (locate p (blanks trail ++ rs)) := by
    intro p
    rw [Alike, Token.map_bare_locate, bares_append, bares_blanks, List.nil_append, h.bares_eq,
      ← hbarrier.back, Token.map_bare_locate]
  refine ⟨_, ?_, hback (((Position.start.after (textOf (ps ++ Piece.token bar.kind [c] :: gs) ++
    lead)).after (textOf ks)))⟩
  rw [hsplit, Token.locate_append, hfront, Token.locate_append]
  simp

/-- A declaration in the room for it is one more binding of the manifest. -/
theorem Gap.exists_reads {N : List Piece} {f g : List Token} {bar : Token}
    {ps qs gs xs rs : List Piece} {c : Char} {lead trail : Text}
    (h : Gap text N spot f bar g) (hbarrier : Barrier N f bar g ps c qs)
    (hroom : Room qs gs xs rs lead trail) (name url : Text) (qualified : Bool) :
    ∃ T' d, Reads text name url spot ⟨qualified,
      textOf (ps ++ Piece.token bar.kind [c] :: gs) ++ lead, trail ++ textOf rs⟩ T' d := by
  have hN := h.pieces_eq
  rw [hbarrier.pieces_eq] at hN
  have hpieces := hroom.pieces hN hbarrier.barrier name url qualified
  rw [← List.append_assoc (textOf (ps ++ Piece.token bar.kind [c] :: gs))] at hpieces
  obtain ⟨d, hd, hshape, hspan, hvalue⟩ := derives_declaration
    (Position.start.after (textOf (ps ++ Piece.token bar.kind [c] :: gs) ++ lead))
    name url qualified
  obtain ⟨g', htokens, hg'⟩ :=
    hroom.exists_tokens hbarrier (declarationPieces name url qualified)
  obtain ⟨span, bs, right', hT', hfilled, hkin⟩ := h.derives hd hg'
  rw [← htokens] at hT'
  refine ⟨_, d,
    { parses := Expr.parse_eq_ok.2 ⟨_, hpieces, hT'⟩
      shape := hshape
      span := hspan
      value := ?_
      node_eq := ⟨spot.left, bs, right', rfl, hfilled, ?_, ?_⟩ }⟩
  · rw [hvalue, Position.after_append _ _ (declarationHead name qualified)]
  · refine List.forall₂_same.2 fun x hx => ⟨rfl, fun hclean list hlist => ?_⟩
    obtain ⟨ks, hat⟩ := h.headAt x hx list hlist
    have hold := endsInUri_of_headAt (l := []) h.pieces_eq
      (h.tokens.trans (List.append_cons f bar g)) hat
    have hnew := endsInUri_of_headAt (l := []) hpieces
      (htokens.trans (List.append_cons f bar _)) hat
    rw [Writing.text, hnew, ← hold]
    exact hclean list hlist
  · refine hkin.imp fun x x' hx => ?_
    have hold : locate .start N = (f ++ [bar]) ++ (g ++ []) := by
      rw [h.tokens]
      simp
    have hnew : ∀ k, f ++ bar :: (k ++ g') = (f ++ bar :: k) ++ (g' ++ []) := by simp
    exact same_of_kin hx h.pieces_eq hold hpieces (htokens.trans (hnew _))

end

/-! ## One more binding and one more parameter -/

/-- A declaration in a place with the name threaded into the outputs `o` of a text: the new text,
and what it is read as.  The bindings around the place are the same, apart from spans. -/
structure Inserted (text : Text) (o : KeyValue) (name url : Text) (spot : Spot) (w : Writing)
    (T' : Expr) (d : KeyValue) : Prop extends Spelled name url w T' d where
  node_eq : ∃ left' bs right', T'.node = .map (left' ++ (bs ++ right')) spot.recursive ∧
    spot.hole.Filled d bs ∧ left'.map Binding.shape = spot.left.map Binding.shape ∧
    right'.map Binding.shape = spot.right.map Binding.shape
  clean : IsClean text o → ∀ o', T'.findFirst (some [outputsName]) = .ok (some o') →
    IsClean (w.text name url) o'

/-- The key of a declaration begins with `inputs`, or else it stands in an `inputs` set. -/
theorem found_filled_apart {hole : Hole} {qualified : Bool} {name url segment : Text} {d : KeyValue}
    {bs : List Binding} {rest : List Text} (h : hole.Filled d bs) (htakes : Takes hole qualified)
    (hshape : d.shape = declared name url qualified) (hsegment : segment ≠ inputsName) :
    ∀ x ∈ bs, Lookup.found (some (segment :: rest)) x = .ok none := by
  have hapart : ∀ c : KeyValue, startsWith inputsName c = true →
      Lookup.found (some (segment :: rest)) (.keyValue c) = .ok none := by
    intro c hc
    refine Lookup.found_of_apart (Lookup.compare_not_startsWith ?_)
    rw [startsWith, beq_iff_eq] at hc
    rw [startsWith, hc, beq_eq_false_iff_ne]
    exact fun heq => hsegment (Option.some.inj (Option.some.inj heq)).symm
  cases hole with
  | between =>
    obtain rfl : bs = _ := h
    obtain rfl : qualified = true := htakes
    rintro x hx
    obtain rfl := List.mem_singleton.1 hx
    refine hapart d ?_
    rw [startsWith, ← KeyValue.names_shape, hshape, names_declared]
    rfl
  | within c left right recursive =>
    obtain ⟨c', left', right', rfl, hpath, -⟩ := h
    rintro x hx
    obtain rfl := List.mem_singleton.1 hx
    refine hapart c' ?_
    rw [startsWith, KeyValue.names_eq_of_shape hpath, htakes.2]
    rfl

/-- The outputs that are found in two texts are the same. -/
theorem isClean_of_same {text out segment : Text} {bs bs' : List Binding} {o' : KeyValue}
    (h : List.Forall₂ (Same text out) bs bs')
    (hclean : ∀ o, bs.findSomeM? (Lookup.found (some [segment])) = .ok (some o) → IsClean text o)
    (ho' : bs'.findSomeM? (Lookup.found (some [segment])) = .ok (some o')) : IsClean out o' := by
  induction h with
  | nil => simp [pure, Except.pure] at ho'
  | @cons x x' bs bs' hx _ ih =>
    have hfound := Lookup.found_shape (some [segment]) x
    rw [← hx.shape, Lookup.found_shape] at hfound
    cases hxo' : Lookup.found (some [segment]) x' with
    | error error => simp [hxo', bind, Except.bind] at ho'
    | ok found? =>
      rw [hxo'] at hfound
      cases found? with
      | none =>
        have hxo := Lookup.shapeOf_eq_none.1 hfound.symm
        rw [Lookup.findSomeM?_cons_of_none hxo'] at ho'
        refine ih (fun o ho => hclean o ?_) ho'
        rw [Lookup.findSomeM?_cons_of_none hxo, ho]
      | some y' =>
        rw [Lookup.findSomeM?_cons_of_some hxo'] at ho'
        obtain rfl := Option.some.inj (Except.ok.inj ho')
        obtain ⟨y, hxo, -⟩ := Lookup.exists_of_shapeOf_some hfound.symm
        obtain ⟨rfl, -⟩ := Lookup.found_segment hxo
        obtain ⟨rfl, -⟩ := Lookup.found_segment hxo'
        exact hx.clean (hclean y (Lookup.findSomeM?_cons_of_some hxo))

theorem Reads.inserted {text text' name url : Text} {w : Writing} {spot : Spot}
    {left right : List Binding} {T' : Expr} {o o' d : KeyValue}
    (h : Reads text' name url spot w T' d) (htakes : Takes spot.hole w.qualified)
    (ho : (spot.left ++ spot.right).findSomeM? (Lookup.found (some [outputsName])) = .ok (some o'))
    (hclean : IsClean text o → IsClean text' o')
    (hleft : spot.left.map Binding.shape = left.map Binding.shape)
    (hright : spot.right.map Binding.shape = right.map Binding.shape) :
    Inserted text o name url { spot with left, right } w T' d := by
  obtain ⟨left', bs, right', hnode, hfilled, hleft', hright'⟩ := h.node_eq
  refine { h.toSpelled with node_eq := ⟨left', bs, right', hnode, hfilled, ?_, ?_⟩, clean := ?_ }
  · rw [Binding.shapes_eq_of_forall₂ hleft' fun _ _ hx => hx.shape, hleft]
  · rw [Binding.shapes_eq_of_forall₂ hright' fun _ _ hx => hx.shape, hright]
  · intro hold o'' ho''
    have hnone : ∀ x ∈ bs, Lookup.found (some [outputsName]) x = .ok none :=
      found_filled_apart hfilled htakes h.shape (by decide)
    rw [Lookup.findFirst_map hnode,
      Lookup.findSomeM?_append_congr (Lookup.findSomeM?_append_of_none hnone)] at ho''
    refine isClean_of_same (List.rel_append hleft' hright') (fun o₁ ho₁ => ?_) ho''
    obtain rfl := Option.some.inj (Except.ok.inj (ho.symm.trans ho₁))
    exact hclean hold

/-! ## The two orders of the edits -/

theorem names_of_shape {b b' : KeyValue} (h : b'.shape = b.shape) : b'.names = b.names := by
  rw [← KeyValue.names_shape, h, KeyValue.names_shape]

theorem TurnsInto.names {text name : Text} {o o₁ : KeyValue} (h : TurnsInto text name o o₁) :
    o₁.names = o.names := by
  rw [KeyValue.names, h.path]
  rfl

/-- A function into which a name has been threaded is still found under its key. -/
theorem TurnsInto.found {text name : Text} {o o₁ o' : KeyValue} (h : TurnsInto text name o o₁)
    (ho : startsWith outputsName o = true) (hshape : o'.shape = o₁.shape) :
    Lookup.found (some [outputsName]) (.keyValue o') = .ok (some o') := by
  refine Lookup.found_of_reached (Lookup.compare_startsWith ?_)
  rw [startsWith, names_of_shape hshape, h.names]
  exact ho

/-- The stretch that an edit of a function may change begins behind its first token. -/
theorem Stretch.exists_first {all ps xs zs : List Piece} {before y behind l r : List Token}
    (h : Stretch all before y behind ps xs zs l r) :
    ∃ t l₀ y', locate .start ps = before ++ t :: l₀ ∧ y = t :: y' := by
  obtain ⟨t, l₀, hopens⟩ := h.opens
  have hl := h.front
  rw [Token.locate_append, hopens, List.append_assoc, List.append_cancel_left_eq] at hl
  exact ⟨t, l₀, _, hopens, by rw [h.tokens, ← hl]; rfl⟩

/-- An edited function begins with the same token as before. -/
theorem Threaded.exists_first {text : Text} {all ps xs xs' zs : List Piece} {o o₁ : KeyValue}
    {before y behind l l' r : List Token} (h : Threaded text o o₁ before ps xs' zs l' r)
    (hstretch : Stretch all before y behind ps xs zs l r) :
    ∃ t y' w, y = t :: y' ∧ l' = t :: w := by
  obtain ⟨t, l₀, y', hopens, hy⟩ := hstretch.exists_first
  have hl' := h.front
  rw [Token.locate_append, hopens, List.append_assoc, List.append_cancel_left_eq] at hl'
  exact ⟨t, y', _, hy, by rw [← hl']; rfl⟩

section
variable {text name : Text} {T : Expr} {b o o₁ : KeyValue} {place : Placing} {hole : Hole}
  {left right middle : List Binding} {recursive : Bool}

/-- A declaration in front of the outputs is written when the outputs have been edited. -/
theorem exists_inserted_ahead {text' : Text} (hparse : Expr.parse text = .ok T)
    (hnode : T.node =
      .map (left ++ (hole.bindings ++ (middle ++ Binding.keyValue o :: right))) recursive)
    (hplace : hole.IsPlace)
    (hmeets : Meets b place hole left (middle ++ Binding.keyValue o :: right))
    (hbrace : ∀ c, place = .inside c → c.value.node = .map [] true →
      braceIsToken text c.value.span = true)
    (hbefore : ∀ x ∈ left ++ middle, Lookup.found (some [outputsName]) x = .ok none)
    (ho : startsWith outputsName o = true)
    (hthread : (threadOutputs o name text).result = .ok text') :
    ∃ o₁ u v, TurnsInto text name o o₁ ∧
      (∀ declaration, place.put text' declaration = .ok (u ++ (declaration ++ v))) ∧
      ∀ url qualified, Takes hole qualified → ∃ T' d, Inserted text o name url
        ⟨hole, left, middle ++ Binding.keyValue o₁ :: right, recursive⟩ ⟨qualified, u, v⟩ T' d := by
  obtain ⟨all, lt, opening, q, closing, rt, hall, htokens, hq, hbraces⟩ :=
    exists_tokens hparse hnode
  obtain ⟨a, x, m, y, c, rfl, ha, hx, hm, hy, hc⟩ := hq.bindings_ahead
  replace htokens : locate .start all =
      (lt ++ opening :: (a ++ (x ++ m))) ++ (y ++ (c ++ closing :: rt)) :=
    htokens.trans (by simp)
  obtain ⟨ps, xs, zs, l, r, hstretch, hgrows⟩ := exists_grows name hall htokens hy
  have htext : text = textOf (ps ++ xs) ++ textOf zs := by
    rw [← textOf_pieces hall, hstretch.split]
    simp
  rcases hgrows with ⟨e, -, herror⟩ | ⟨xs', hresult, ⟨o₁, l', hturns, hthreaded⟩, -⟩
  · rw [htext, herror] at hthread
    cases hthread
  rw [htext, hresult, Except.ok.injEq] at hthread
  -- The pieces of the text when the outputs have been edited.
  have hpieces : pieces [] text' = .ok (ps ++ (xs' ++ zs)) := by
    rw [← hthreaded.pieces_eq, ← hthread]
    simp
  obtain ⟨r', z', hback, hr', hz'⟩ : ∃ r' z',
      locate (Position.start.after (textOf (ps ++ xs'))) zs = r' ++ z' ∧ Alike r r' ∧
        Alike (c ++ closing :: rt) z' := by
    have hmoved : Alike (r ++ (c ++ closing :: rt))
        (locate (Position.start.after (textOf (ps ++ xs'))) zs) := by
      rw [← hstretch.back, Alike, Token.map_bare_locate, Token.map_bare_locate]
    exact hmoved.exists_append
  obtain ⟨c', z', rfl, hc', hz'⟩ := hz'.exists_append
  have htokens' : locate .start (ps ++ (xs' ++ zs)) =
      (lt ++ opening :: (a ++ (x ++ m))) ++ ((l' ++ r') ++ (c' ++ z')) := by
    rw [← List.append_assoc, Token.locate_append, hthreaded.front, hback]
    simp
  obtain ⟨o', ho', hshape, hheads⟩ := hthreaded.derives hr'
  obtain ⟨right', hright', hkin⟩ := hc.bindings_kin hc'
  have hclean' : IsClean text o → IsClean text' o' := by
    intro hclean list hlist
    obtain ⟨ks, hat, hks⟩ := hheads hclean list hlist
    rw [endsInUri_of_headAt hpieces htokens' hat, hks]
  -- The place among the tokens of that text.
  obtain ⟨x₁, x₂, f, bar, rfl, hf, hsite⟩ :=
    hmeets.exists_site hplace (.inl hbraces.opening_kind) ha hx
      (hm.bindings_append (hy.bindings_append hc)) lt (closing :: rt)
  obtain ⟨t, l₀, y', hps, rfl⟩ := hstretch.exists_first
  obtain ⟨t', y'', w, heq, rfl⟩ := hthreaded.exists_first hstretch
  obtain ⟨rfl, rfl⟩ := List.cons.inj heq
  have hgap : Gap text' (ps ++ (xs' ++ zs))
      ⟨hole, left, middle ++ ([Binding.keyValue o'] ++ right'), recursive⟩ f bar
      (x₂ ++ ((m ++ ((t :: w ++ r') ++ c')) ++ z')) := by
    refine gap_of_tokens hpieces (htokens'.trans (by simp)) hf hsite.barrier ha
      (hm.bindings_append (ho'.bindings_append hright'))
        (fun hx₂' hk => hsite.fills (.refl x₁) hx₂' hk)
      fun hz hq => hbraces.derives (.refl _) (hz'.trans hz) hq
  have hat : place.At f bar (x₂ ++ ((m ++ ((t :: w ++ r') ++ c')) ++ z')) :=
    hsite.stands.of_head (by simp)
  -- The pieces in front of the outputs are the same as before, and so is what opens an empty set.
  have hfront : ∀ l,
      lt ++ opening :: (a ++ (x₁ ++ x₂ ++ m)) ++ l = f ++ bar :: (x₂ ++ (m ++ l)) := by
    intro l
    rw [List.append_cons f, ← hf]
    simp
  obtain ⟨ps', c₀, qs, hbarrier, hready⟩ := exists_barrier_ready (hstretch.split ▸ hall) hpieces
    (hps.trans (hfront _)) ((hstretch.split ▸ htokens).trans (hfront _)) hgap.tokens hsite.barrier
    (hsite.stands.of_head (by simp)) hsite.opens hbrace
  obtain ⟨gs, xs₀, rs, lead, trail, hroom, hadds⟩ :=
    hbarrier.exists_room hpieces hat (hbarrier.clear hpieces hat hsite.opens hready)
  refine ⟨o₁, textOf (ps' ++ Piece.token bar.kind [c₀] :: gs) ++ lead, trail ++ textOf rs, hturns,
    fun declaration => ?_, fun url qualified htakes => ?_⟩
  · rw [hadds.result]
    simp
  · obtain ⟨T', d, hreads⟩ := hgap.exists_reads hbarrier hroom name url qualified
    refine ⟨T', d, hreads.inserted htakes ?_ hclean' rfl ?_⟩
    · rw [← List.append_assoc, Lookup.findSomeM?_append_of_none hbefore]
      exact Lookup.findSomeM?_cons_of_some (hturns.found ho hshape)
    · simp [shapes_of_kin hkin, Binding.shape, hshape]

/-- When the outputs have been edited, a place behind them is still a place between the same
bindings. -/
theorem Threaded.exists_gap {lt a l' r m x₁ x₂ c rt f g : List Token} {opening closing bar : Token}
    {ps xs' zs qs : List Piece}
    (h : Threaded text o o₁ (lt ++ opening :: a) ps xs'
      (zs ++ Piece.token bar.kind bar.lexeme :: qs) l' r)
    (hsite : Site place hole x₁ x₂ f bar g) (hbraces : Braces T recursive lt opening closing rt)
    (hf : f ++ [bar] = r ++ (m ++ x₁)) (hzs : bares zs = f.map Token.bare)
    (hqs : bares qs = (x₂ ++ (c ++ closing :: rt)).map Token.bare)
    (ha : Derives (.bindings .braceClose) a left) (hm : Derives (.bindings .braceClose) m middle)
    (hc : Derives (.bindings .braceClose) c right) :
    ∃ o' middle' right' f' bar' g', bar'.kind = bar.kind ∧ bar'.lexeme = bar.lexeme ∧
      locate .start (ps ++ (xs' ++ zs)) = f' ∧
      Gap (textOf (ps ++ (xs' ++ (zs ++ Piece.token bar.kind bar.lexeme :: qs))))
        ((ps ++ (xs' ++ zs)) ++ Piece.token bar.kind bar.lexeme :: qs)
        ⟨hole, left ++ Binding.keyValue o' :: middle', right', recursive⟩ f' bar' g' ∧
      o'.shape = o₁.shape ∧
      (IsClean text o →
        IsClean (textOf (ps ++ (xs' ++ (zs ++ Piece.token bar.kind bar.lexeme :: qs)))) o') ∧
      middle'.map Binding.shape = middle.map Binding.shape ∧
      right'.map Binding.shape = right.map Binding.shape := by
  have hN : (ps ++ (xs' ++ zs)) ++ Piece.token bar.kind bar.lexeme :: qs =
      ps ++ (xs' ++ (zs ++ Piece.token bar.kind bar.lexeme :: qs)) := by
    simp
  have hpieces := h.pieces_eq
  rw [← hN] at hpieces ⊢
  have hfront : locate .start (ps ++ (xs' ++ zs)) = (lt ++ opening :: a) ++ (l' ++
      locate (Position.start.after (textOf (ps ++ xs'))) zs) := by
    rw [← List.append_assoc, Token.locate_append, h.front, List.append_assoc]
  have htokens := Token.locate_append .start (ps ++ (xs' ++ zs))
    (.token bar.kind bar.lexeme :: qs)
  rw [locate] at htokens
  generalize hbar : (⟨bar.kind, bar.lexeme, _⟩ : Token) = bar' at htokens
  obtain ⟨hkind, hlexeme⟩ : bar'.kind = bar.kind ∧ bar'.lexeme = bar.lexeme := by
    rw [← hbar]
    exact ⟨rfl, rfl⟩
  -- The tokens from behind the stretch to the place have only moved, and so have those behind it.
  obtain ⟨r', w, hw, hr', hmoved⟩ : ∃ r' w,
      locate (Position.start.after (textOf (ps ++ xs'))) zs ++ [bar'] = r' ++ w ∧ Alike r r' ∧
        Alike (m ++ x₁) w := by
    refine Alike.exists_append ?_
    rw [← hf, Alike, List.map_append, List.map_append, Token.map_bare_locate, hzs]
    simp [Token.bare, hkind, hlexeme]
  obtain ⟨m', x₁', rfl, hm', hx₁'⟩ := hmoved.exists_append
  obtain ⟨x₂', w, hback, hx₂', hmoved⟩ : ∃ x₂' w, locate
      ((Position.start.after (textOf (ps ++ (xs' ++ zs)))).after bar.lexeme) qs = x₂' ++ w ∧
        Alike x₂ x₂' ∧ Alike (c ++ closing :: rt) w := by
    refine Alike.exists_append ?_
    rw [Alike, Token.map_bare_locate, hqs]
  obtain ⟨c', z', rfl, hc', hz'⟩ := hmoved.exists_append
  obtain ⟨o', ho', hshape, hheads⟩ := h.derives hr'
  obtain ⟨middle', hmiddle', hkin⟩ := hm.bindings_kin hm'
  obtain ⟨right', hright', hkin'⟩ := hc.bindings_kin hc'
  have hf' : lt ++ opening :: ((a ++ ((l' ++ r') ++ m')) ++ x₁') =
      locate .start (ps ++ (xs' ++ zs)) ++ [bar'] := by
    have hsplit := congrArg (fun w => lt ++ opening :: a ++ (l' ++ w)) hw
    rw [hfront]
    simpa using hsplit.symm
  have htokens' : locate .start ((ps ++ (xs' ++ zs)) ++ Piece.token bar.kind bar.lexeme :: qs) =
      (lt ++ opening :: ((a ++ ((l' ++ r') ++ m')) ++ x₁')) ++ (x₂' ++ (c' ++ z')) := by
    rw [htokens, hf', hback]
    simp
  refine ⟨o', middle', right', _, bar', x₂' ++ (c' ++ z'), hkind, hlexeme, rfl, ?_, hshape, ?_,
    shapes_of_kin hkin, shapes_of_kin hkin'⟩
  · refine gap_of_tokens hpieces htokens' hf' (by rw [hkind]; exact hsite.barrier)
      (ha.bindings_append (ho'.bindings_append hmiddle')) hright'
      (fun hx₂ hk => hsite.fills hx₁' (hx₂'.trans hx₂) hk)
      fun hz hq => hbraces.derives (.refl _) (hz'.trans hz) hq
  · intro hclean list hlist
    obtain ⟨ks, hat, hks⟩ := hheads hclean list hlist
    have hsplit : locate .start ((ps ++ (xs' ++ zs)) ++ Piece.token bar.kind bar.lexeme :: qs) =
        (lt ++ opening :: a) ++ ((l' ++ r') ++ ((m' ++ x₁') ++ (x₂' ++ (c' ++ z')))) := by
      rw [htokens']
      simp
    rw [endsInUri_of_headAt hpieces hsplit hat, hks]

/-- A declaration behind the outputs is written first. -/
theorem exists_inserted_after (hparse : Expr.parse text = .ok T)
    (hnode : T.node =
      .map ((left ++ Binding.keyValue o :: middle) ++ (hole.bindings ++ right)) recursive)
    (hplace : hole.IsPlace)
    (hmeets : Meets b place hole (left ++ Binding.keyValue o :: middle) right)
    (hbrace : ∀ c, place = .inside c → c.value.node = .map [] true →
      braceIsToken text c.value.span = true)
    (hbefore : ∀ x ∈ left, Lookup.found (some [outputsName]) x = .ok none)
    (ho : startsWith outputsName o = true) (name : Text) :
    ∃ u₀ v, (∀ declaration, place.put text declaration = .ok (u₀ ++ (declaration ++ v))) ∧
      ((∃ e, ∀ declaration,
          (threadOutputs o name (u₀ ++ (declaration ++ v))).result = .error e) ∨
        ∃ o₁ u, TurnsInto text name o o₁ ∧
          (∀ declaration, (threadOutputs o name (u₀ ++ (declaration ++ v))).result =
            .ok (u ++ (declaration ++ v))) ∧
          ∀ url qualified, Takes hole qualified → ∃ T' d, Inserted text o name url
            ⟨hole, left ++ Binding.keyValue o₁ :: middle, right, recursive⟩ ⟨qualified, u, v⟩
            T' d) := by
  obtain ⟨all, lt, opening, q, closing, rt, hall, htokens, hq, hbraces⟩ :=
    exists_tokens hparse hnode
  obtain ⟨a, y, m, x, c, rfl, ha, hy, hm, hx, hc⟩ := hq.bindings_behind
  replace htokens : locate .start all =
      (lt ++ opening :: a) ++ (y ++ (m ++ (x ++ (c ++ closing :: rt)))) :=
    htokens.trans (by simp)
  obtain ⟨ps, xs, zs, l, r, hstretch, hgrows⟩ := exists_grows name hall htokens hy
  obtain ⟨r₀, semicolon, rfl, hsemicolon⟩ := hstretch.closes
  -- The place among the tokens behind the stretch that the edit of the outputs changes.
  have ho' : startsWith inputsName o = false := by
    rw [startsWith, beq_iff_eq] at ho
    rw [startsWith, ho]
    decide
  obtain ⟨x₁, x₂, f, bar, rfl, hf, hsite⟩ :=
    (hmeets.trim_left ho').exists_site hplace (.inr hsemicolon) hm hx hc r₀ (closing :: rt)
  have hback : locate (Position.start.after (textOf (ps ++ xs))) zs =
      f ++ bar :: (x₂ ++ (c ++ closing :: rt)) := by
    rw [hstretch.back, List.append_cons f, ← hf]
    simp
  obtain ⟨zs₁, qs, rfl, hzs₁, hspan, hqs⟩ := Token.locate_eq_append hback
  have hsplit : all = (ps ++ (xs ++ zs₁)) ++ Piece.token bar.kind bar.lexeme :: qs := by
    rw [hstretch.split]
    simp
  have hfront : locate .start (ps ++ (xs ++ zs₁)) = (lt ++ opening :: a ++ l) ++ f := by
    rw [← List.append_assoc, Token.locate_append, hstretch.front, hzs₁]
  have htokens₁ : locate .start all =
      ((lt ++ opening :: a ++ l) ++ f) ++ bar :: (x₂ ++ (c ++ closing :: rt)) := by
    rw [hstretch.split, ← List.append_assoc, Token.locate_append, hstretch.front, hback]
    simp
  subst hsplit
  obtain ⟨c₀, hbarrier⟩ := exists_barrier_of_split hall htokens₁ hfront hsite.barrier
  have hat := hsite.stands.append (lt ++ opening :: a ++ l)
  have hopens := hsite.opens.append (lt ++ opening :: a ++ l)
  obtain ⟨gs, xs₀, rs, lead, trail, hroom, hadds⟩ :=
    hbarrier.exists_room hall hat (hbarrier.clear hall hat hopens
      (hbarrier.ready hall hat hopens hbrace))
  have htext : ∀ (xs : List Piece) (declaration : Text),
      textOf ((ps ++ (xs ++ zs₁)) ++ Piece.token bar.kind [c₀] :: gs) ++ lead ++
          (declaration ++ (trail ++ textOf rs)) =
        textOf (ps ++ xs) ++ (textOf (zs₁ ++ Piece.token bar.kind [c₀] :: gs) ++ lead ++
          (declaration ++ (trail ++ textOf rs))) := by
    simp
  refine ⟨textOf ((ps ++ (xs ++ zs₁)) ++ Piece.token bar.kind [c₀] :: gs) ++ lead,
    trail ++ textOf rs, fun declaration => ?_, ?_⟩
  · rw [hadds.result, List.append_assoc _ lead]
  rcases hgrows with ⟨e, -, herror⟩ | ⟨xs', hresult, ⟨o₁, l', hturns, hthreaded⟩, -⟩
  · exact .inl ⟨e, fun declaration => by rw [htext, herror]⟩
  refine .inr ⟨o₁, textOf ((ps ++ (xs' ++ zs₁)) ++ Piece.token bar.kind [c₀] :: gs) ++ lead, hturns,
    fun declaration => by rw [htext, hresult, htext], ?_⟩
  obtain ⟨o', middle', right', f', bar', g', hkind, hlexeme, hf', hgap, hshape, hclean', hmiddle',
    hright'⟩ := hthreaded.exists_gap hsite hbraces (hf.symm.trans (by simp))
      (by rw [← hzs₁, Token.map_bare_locate]) (by rw [← hqs, Token.map_bare_locate]) ha hm hc
  have hN := hgap.pieces_eq
  rw [← hkind, ← hlexeme] at hN
  obtain ⟨c₁, hbarrier'⟩ := exists_barrier_of_split hN (by rw [hkind, hlexeme, hgap.tokens]) hf'
    hgap.barrier
  obtain rfl : c₁ = c₀ := by
    have heq := hbarrier'.lexeme_eq
    rw [hlexeme, hbarrier.lexeme_eq] at heq
    simpa using heq.symm
  rw [hkind, hlexeme] at hbarrier'
  intro url qualified htakes
  obtain ⟨T', d, hreads⟩ := hgap.exists_reads hbarrier' hroom name url qualified
  rw [hkind] at hreads
  refine ⟨T', d, hreads.inserted htakes ?_ hclean' ?_ hright'⟩
  · rw [List.append_assoc, Lookup.findSomeM?_append_of_none hbefore]
    exact Lookup.findSomeM?_cons_of_some (hturns.found ho hshape)
  · simp [Binding.shape, hshape, hmiddle']

/-! ## The edits as they are planned -/

/-- The outputs stand behind a place or in front of it. -/
theorem exists_sides (hnode : T.node = .map (left ++ (hole.bindings ++ right)) recursive)
    (ho : T.findFirst (some [outputsName]) = .ok (some o))
    (hhole : ∀ c, .keyValue c ∈ hole.bindings → startsWith inputsName c = true) :
    (∃ middle behind, right = middle ++ Binding.keyValue o :: behind ∧
        ∀ x ∈ left ++ middle, Lookup.found (some [outputsName]) x = .ok none) ∨
      ∃ before middle, left = before ++ Binding.keyValue o :: middle ∧
        ∀ x ∈ before, Lookup.found (some [outputsName]) x = .ok none := by
  obtain ⟨before, behind, recursive', hnode', hbefore, hnames⟩ := Lookup.exists_split ho
  rw [hnode, Node.map.injEq] at hnode'
  have hapart : .keyValue o ∉ hole.bindings := by
    intro hmem
    have hstarts := hhole o hmem
    rw [startsWith, hnames] at hstarts
    exact absurd hstarts (by decide)
  rcases List.append_eq_append_iff.1 hnode'.1 with ⟨w, hbefore', hrest⟩ | ⟨w, hleft, hrest⟩
  · rw [hbefore'] at hbefore
    left
    rcases List.append_eq_append_iff.1 hrest with ⟨w', hw, hright⟩ | ⟨w', hbindings, hright⟩
    · refine ⟨w', behind, hright, fun x hx => hbefore x ?_⟩
      rw [hw]
      rcases List.mem_append.1 hx with hx | hx
      · exact List.mem_append_left _ hx
      · exact List.mem_append_right _ (List.mem_append_right _ hx)
    · cases w' with
      | nil =>
        refine ⟨[], behind, by simpa using hright.symm, fun x hx => hbefore x ?_⟩
        exact List.mem_append_left _ (by simpa using hx)
      | cons y w' =>
        obtain ⟨rfl, -⟩ := List.cons.inj hright
        exact absurd (by rw [hbindings]; simp) hapart
  · cases w with
    | nil =>
      left
      rw [List.nil_append] at hrest
      cases hbindings : hole.bindings with
      | nil =>
        rw [hbindings, List.nil_append] at hrest
        refine ⟨[], behind, hrest.symm, fun x hx => hbefore x ?_⟩
        simpa [hleft] using hx
      | cons y ys =>
        rw [hbindings] at hrest
        obtain ⟨rfl, -⟩ := List.cons.inj hrest
        exact absurd (by rw [hbindings]; simp) hapart
    | cons y w =>
      obtain ⟨rfl, -⟩ := List.cons.inj hrest
      exact .inr ⟨before, w, hleft, hbefore⟩

/-- An anchor in front of the outputs starts before them. -/
theorem start_lt_of_ahead (hparse : Expr.parse text = .ok T)
    (hnode : T.node =
      .map (left ++ (hole.bindings ++ (middle ++ Binding.keyValue o :: right))) recursive)
    (hplace : hole.IsPlace) (hmeets : Meets b place hole left middle) :
    b.span.start < o.span.start := by
  obtain ⟨all, lt, opening, q, closing, rt, hall, htokens, hq, -⟩ := exists_tokens hparse hnode
  obtain ⟨a, x, m, y, c, rfl, ha, hx, hm, hy, -⟩ := hq.bindings_ahead
  have ho : Starts y o := starts_of_mem hy List.mem_cons_self
  have hsplit : locate .start all =
      (lt ++ [opening]) ++ ((a ++ (x ++ m)) ++ ([] ++ (y ++ (c ++ closing :: rt)))) := by
    rw [htokens]
    simp
  exact (hmeets.starts hplace ha hx hm).lt ho hall hsplit

/-- An anchor behind the outputs does not start before them. -/
theorem not_start_lt_of_after (hparse : Expr.parse text = .ok T)
    (hnode : T.node =
      .map ((left ++ Binding.keyValue o :: middle) ++ (hole.bindings ++ right)) recursive)
    (hplace : hole.IsPlace) (hmeets : Meets b place hole middle right) :
    ¬b.span.start < o.span.start := by
  obtain ⟨all, lt, opening, q, closing, rt, hall, htokens, hq, -⟩ := exists_tokens hparse hnode
  obtain ⟨a, y, m, x, c, rfl, -, hy, hm, hx, hc⟩ := hq.bindings_behind
  have ho : Starts y o := starts_of_mem hy List.mem_cons_self
  have hsplit : locate .start all =
      (lt ++ opening :: a) ++ (y ++ ([] ++ ((m ++ (x ++ c)) ++ closing :: rt))) := by
    rw [htokens]
    simp
  exact Position.lt_asymm (ho.lt (hmeets.starts hplace hm hx hc) hall hsplit)

end

end Edit
end FlakeInputs
