import FlakeInputs.Proofs.Edit.NewInputs

/-!
# What comes of adding an input

An input is added, or the text spells no manifest, or the manifest has a form that is not
edited.  All the positions that the edits look up stand in the text that is edited, also when
one edit has been made already.  If the input is added, then all that is lost of the text is the
literal that was its url before, or blanks.
-/

namespace FlakeInputs
namespace Edit

open Grammar Scan
open Token (locate)
open Lookup (found startsWith)
open Manifest (inputsName outputsName urlPath)

/-! ## Outcomes that only refuse -/

/-- An outcome that is no error but one that says that a manifest has a form that is not
edited. -/
def OnlyRefuses {α : Type} (r : Except Error α) : Prop :=
  ∀ e, r = .error e → refuses e = true

theorem onlyRefuses_ok {α : Type} (a : α) : OnlyRefuses (.ok a) :=
  fun _ h => by cases h

theorem onlyRefuses_error {α : Type} {e : Error} (h : refuses e = true) :
    OnlyRefuses (.error e : Except Error α) := by
  rintro _ ⟨⟩
  exact h

theorem OnlyRefuses.bind {α β : Type} {x : Except Error α} {f : α → Except Error β}
    (hx : OnlyRefuses x) (hf : ∀ a, x = .ok a → OnlyRefuses (f a)) : OnlyRefuses (x >>= f) := by
  intro e he
  rcases Outcome.bind_eq_error.1 he with he | ⟨a, ha, he⟩
  · exact hx e he
  · exact hf a ha e he

theorem onlyRefuses_findSomeM? {f : Binding → Lookup.Answer} {bs : List Binding}
    (h : ∀ x ∈ bs, OnlyRefuses (f x)) : OnlyRefuses (bs.findSomeM? f) := by
  induction bs with
  | nil => exact onlyRefuses_ok none
  | cons x bs ih =>
    rw [List.findSomeM?_cons]
    refine (h x List.mem_cons_self).bind fun b? _ => ?_
    cases b? with
    | none => exact ih fun y hy => h y (List.mem_cons_of_mem _ hy)
    | some b => exact onlyRefuses_ok (some b)

/-- A search stops only at an `inherit` and at a value that is no attribute set. -/
theorem onlyRefuses_findFirst (T : Expr) (query : Option (List Text)) :
    OnlyRefuses (T.findFirst query) := by
  induction hn : Lookup.size query using Nat.strongRecOn generalizing T query with
  | _ n ih =>
    subst hn
    rw [Lookup.findFirst_eq]
    refine OnlyRefuses.bind ?_ fun bs _ => onlyRefuses_findSomeM? fun x _ => ?_
    · unfold Lookup.bindings
      split
      · exact onlyRefuses_ok _
      · exact onlyRefuses_error rfl
    · cases x with
      | inherited span names source? => exact onlyRefuses_error rfl
      | keyValue b =>
        simp only [found]
        cases hcompare : Lookup.compare b.names query with
        | apart => exact onlyRefuses_ok none
        | reached => exact onlyRefuses_ok (some b)
        | within rest => exact ih _ (Lookup.size_within_lt hcompare) b.value (some rest) rfl

/-! ## Places in a stretch of text -/

/-- A place that lies in the stretch `x` of a text, behind `w`. -/
def Placing.Lies (place : Placing) (w x : Text) : Prop :=
  match place with
  | above start _ => ∃ u r, x = u ++ r ∧ start = Position.start.after (w ++ u)
  | below span => ∃ u y r, x = u ++ (y ++ r) ∧
      span = ⟨Position.start.after (w ++ u), (Position.start.after (w ++ u)).after y⟩
  | inside binding => ∃ u k y r, x = u ++ (k ++ (y ++ '}' :: r)) ∧
      binding.span.start = Position.start.after (w ++ u) ∧
      binding.value.span = ⟨Position.start.after (w ++ u ++ k),
        (Position.start.after (w ++ u ++ k)).after (y ++ ['}'])⟩ ∧ '{' ∈ y

/-- What is put in a stretch of a text leaves the text before the stretch alone. -/
theorem Placing.Lies.exists_adds {place : Placing} {w x : Text} (h : place.Lies w x) (r : Text) :
    ∃ front removed back lead trail,
      Adds (w ++ (x ++ r)) (place.put (w ++ (x ++ r))) (w ++ front) removed back lead trail := by
  cases place with
  | above start blankLine =>
    obtain ⟨u, r', rfl, rfl⟩ := h
    obtain ⟨trail, hadds⟩ := adds_above (w ++ u) (r' ++ r) blankLine
    have htext : w ++ (u ++ r' ++ r) = w ++ u ++ (r' ++ r) := by simp
    rw [htext]
    exact ⟨u, _, _, _, trail, hadds⟩
  | below span =>
    obtain ⟨u, y, r', rfl, rfl⟩ := h
    obtain ⟨w', rest, lead, trail, -, -, hadds⟩ := adds_below (w ++ u) y (r' ++ r)
    have htext : w ++ (u ++ (y ++ r') ++ r) = w ++ u ++ (y ++ (r' ++ r)) := by simp
    have hfront : w ++ (u ++ y ++ w') = w ++ u ++ y ++ w' := by simp
    rw [htext]
    exact ⟨u ++ y ++ w', _, _, lead, trail, by rwa [hfront]⟩
  | inside binding =>
    obtain ⟨u, k, y, r', rfl, hstart, hset, hy⟩ := h
    -- The first brace may stand in a comment, but there is one.
    obtain ⟨y₁, y₂, rfl, hy₁⟩ := List.eq_append_cons_of_mem hy
    obtain ⟨removed, kept, lead, trail, -, -, hadds⟩ :=
      @adds_inside (w ++ u) k y₁ y₂ (r' ++ r) binding hy₁ hstart (by simpa using hset)
    have htext : w ++ (u ++ (k ++ (y₁ ++ '{' :: y₂ ++ '}' :: r')) ++ r) =
        w ++ u ++ (k ++ (y₁ ++ '{' :: (y₂ ++ '}' :: (r' ++ r)))) := by
      simp
    have hfront : w ++ (u ++ k ++ y₁ ++ ['{']) = w ++ u ++ k ++ y₁ ++ ['{'] := by simp
    rw [htext]
    exact ⟨u ++ k ++ y₁ ++ ['{'], _, _, lead, trail, by rwa [hfront]⟩

/-- The braces among some tokens are written as braces. -/
def HasBraces (ts : List Token) : Prop :=
  ∀ t ∈ ts, (t.kind = .braceOpen → t.lexeme = ['{']) ∧ (t.kind = .braceClose → t.lexeme = ['}'])

theorem HasBraces.mono {ts ts' : List Token} (h : HasBraces ts) (hsub : ts' ⊆ ts) : HasBraces ts' :=
  fun t ht => h t (hsub ht)

theorem hasBraces_locate {text : Text} {all : List Piece} (hall : pieces [] text = .ok all) :
    HasBraces (locate .start all) := by
  intro t ht
  obtain ⟨a, b, htokens⟩ := List.append_of_mem ht
  obtain ⟨ps, qs, rfl, -⟩ := Token.locate_eq_append htokens
  have hmem : Piece.token t.kind t.lexeme ∈ ps ++ Piece.token t.kind t.lexeme :: qs := by simp
  constructor
  · intro hkind
    rw [hkind] at hall hmem
    exact lexeme_eq hall hmem rfl
  · intro hkind
    rw [hkind] at hall hmem
    exact lexeme_eq hall hmem rfl

/-- The tokens around a place tell in which stretch of the text it lies. -/
theorem Placing.At.lies {place : Placing} {f g : List Token} {bar : Token} {w : Text}
    {zs : List Piece} (h : place.At f bar g)
    (hzs : locate (Position.start.after w) zs = f ++ bar :: g)
    (hbraces : HasBraces (f ++ bar :: g)) : place.Lies w (textOf zs) := by
  cases place with
  | above start blankLine =>
    obtain ⟨t, g', rfl, -, rfl⟩ := h
    have hzs' : locate (Position.start.after w) zs = (f ++ [bar]) ++ t :: g' := by simpa using hzs
    obtain ⟨ps, qs, rfl, -, hspan, -⟩ := Token.locate_eq_append hzs'
    refine ⟨textOf ps, textOf (.token t.kind t.lexeme :: qs), textOf_append _ _, ?_⟩
    rw [hspan, Position.after_append]
  | below span =>
    obtain ⟨f₁, t, f₂, rfl, rfl⟩ := h
    rw [List.append_assoc, List.cons_append] at hzs
    obtain ⟨ps, qs, rfl, -, hspan, hqs⟩ := Token.locate_eq_append hzs
    obtain ⟨ps', qs', rfl, -, hspan', -⟩ := Token.locate_eq_append hqs
    refine ⟨textOf ps,
      textOf (.token t.kind t.lexeme :: (ps' ++ [Piece.token bar.kind bar.lexeme])), textOf qs',
      by simp, ?_⟩
    rw [hspan', hspan]
    simp
  | inside binding =>
    obtain ⟨f₁, t, f₂, s, f₃, closing, g', hf, rfl, hkind, hkind', hstart, hset⟩ := h
    have hbar : bar.lexeme = ['{'] := (hbraces bar (by simp)).1 hkind
    have hclosing : closing.lexeme = ['}'] := (hbraces closing (by simp)).2 hkind'
    have hzs' : locate (Position.start.after w) zs =
        f₁ ++ t :: (f₂ ++ s :: (f₃ ++ closing :: g')) := by
      have hall := congrArg (· ++ closing :: g') hf
      rw [hzs]
      simpa using hall
    obtain ⟨ps, qs, rfl, -, hspan, hqs⟩ := Token.locate_eq_append hzs'
    obtain ⟨ps', qs', rfl, -, hspan', hqs'⟩ := Token.locate_eq_append hqs
    obtain ⟨ps'', qs'', rfl, hps'', hspan'', -⟩ := Token.locate_eq_append hqs'
    refine ⟨textOf ps, textOf (.token t.kind t.lexeme :: ps'),
      textOf (.token s.kind s.lexeme :: ps''), textOf qs'', by simp [hclosing], ?_, ?_, ?_⟩
    · rw [hstart, hspan, Position.after_append]
    · rw [hset, hspan'', hspan', hspan, hclosing]
      simp
    · -- The brace of the set is the last of the tokens in front of the place.
      rcases List.eq_nil_or_concat f₃ with rfl | ⟨f₄, last, rfl⟩
      · rw [← List.cons_append, ← List.append_assoc] at hf
        obtain ⟨-, hlast⟩ := List.append_inj' hf rfl
        obtain rfl := List.singleton_inj.1 hlast
        simp [hbar]
      · rw [List.concat_eq_append] at hf hps''
        rw [← List.cons_append, ← List.append_assoc, ← List.cons_append, ← List.append_assoc] at hf
        obtain ⟨-, hlast⟩ := List.append_inj' hf rfl
        obtain rfl := List.singleton_inj.1 hlast
        obtain ⟨ps₁, ps₂, rfl, -⟩ := Token.locate_eq_append hps''
        simp [hbar]

/-- A place is among the tokens of the pieces `zs` of a text, which stand between `ps` and `rs`. -/
structure Placing.Among (place : Placing) (text : Text) (ps zs rs : List Piece) : Prop where
  pieces_eq : pieces [] text = .ok (ps ++ (zs ++ rs))
  exists_at : ∃ f bar g, locate (Position.start.after (textOf ps)) zs = f ++ bar :: g ∧ g ≠ [] ∧
    (bar.kind = .braceOpen ∨ bar.kind = .semicolon) ∧ place.At f bar g

theorem Placing.Among.text_eq {place : Placing} {text : Text} {ps zs rs : List Piece}
    (h : place.Among text ps zs rs) : text = textOf ps ++ (textOf zs ++ textOf rs) := by
  rw [← textOf_pieces h.pieces_eq, textOf_append, textOf_append]

theorem Placing.Among.lies {place : Placing} {text : Text} {ps zs rs : List Piece}
    (h : place.Among text ps zs rs) : place.Lies (textOf ps) (textOf zs) := by
  obtain ⟨f, bar, g, hzs, -, -, hat⟩ := h.exists_at
  refine hat.lies hzs (hzs ▸ (hasBraces_locate h.pieces_eq).mono ?_)
  rw [Token.locate_append, Token.locate_append]
  exact fun t ht => List.mem_append_right _ (List.mem_append_left _ ht)

/-! ## The edits of a new input -/

/-- The second text is the first one with something in the place of a stretch `x` behind a text
`u`, which satisfy `p`. -/
def Patched (p : Text → Text → Prop) (text out : Text) : Prop :=
  ∃ u x v y, text = u ++ (x ++ v) ∧ p u x ∧ out = u ++ (y ++ v)

/-- A stretch of blanks, which may be empty. -/
def Blanks (_ x : Text) : Prop :=
  x.isBlank = true

theorem patched_insertAt {text addition out : Text} {offset : Nat}
    (h : insertAt text offset addition = .ok out) : Patched Blanks text out := by
  unfold insertAt splice at h
  split at h
  · refine ⟨text.take offset, [], text.drop offset, addition, ?_, rfl, ?_⟩
    · simp
    · simpa using (Except.ok.inj h).symm
  · cases h

/-- Threading a name into a function puts it in the text, if anything. -/
theorem patched_threadOutputs {o : KeyValue} {name text out : Text}
    (h : (threadOutputs o name text).result = .ok out) : Patched Blanks text out := by
  have hsame : Patched Blanks text text := ⟨text, [], [], [], by simp, rfl, by simp⟩
  unfold threadOutputs at h
  split at h
  · next list body hnode =>
    cases haccepts : accepts list name with
    | false =>
      rw [result_addParameter_of_not haccepts] at h
      obtain rfl := Except.ok.inj h
      exact hsame
    | true =>
      rw [result_addParameter haccepts, insertParameter, Logged.result_bind,
        Outcome.bind_eq_ok] at h
      obtain ⟨⟨start, stop⟩, -, h⟩ := h
      rw [Logged.result_bind, Outcome.bind_eq_ok] at h
      obtain ⟨formals, -, h⟩ := h
      split at h
      · unfold appendParameter at h
        split at h
        · cases h
        · exact patched_insertAt h
      · split at h
        · unfold prependParameter at h
          split at h
          · cases h
          · exact patched_insertAt h
        · cases h
  · obtain rfl := Except.ok.inj h
    exact hsame
  · cases h

/-- The outcome of the two edits that declare an input. -/
structure Settles (text : Text) (r : Except Error Text) : Prop where
  refuses : OnlyRefuses r
  patches : ∀ out, r = .ok out → ∃ mid, Patched Blanks text mid ∧ Patched Blanks mid out

theorem Settles.of_error {text : Text} {e : Error} (h : Edit.refuses e = true) :
    Settles text (.error e) :=
  ⟨onlyRefuses_error h, fun _ heq => by cases heq⟩

theorem Settles.of_bind {text : Text} {x : Except Error Text} {f : Text → Except Error Text}
    (hx : OnlyRefuses x) (hpatched : ∀ mid, x = .ok mid → Patched Blanks text mid)
    (hf : ∀ mid, x = .ok mid → OnlyRefuses (f mid))
    (hpatched' : ∀ mid out, x = .ok mid → f mid = .ok out → Patched Blanks mid out) :
    Settles text (x >>= f) := by
  refine ⟨hx.bind hf, fun out hout => ?_⟩
  obtain ⟨mid, hmid, hout⟩ := Outcome.bind_eq_ok.1 hout
  exact ⟨mid, hpatched mid hmid, hpatched' mid out hmid hout⟩

theorem Adds.onlyRefuses {text front removed back lead trail declaration : Text}
    {edit : Text → Except Error Text} (h : Adds text edit front removed back lead trail) :
    OnlyRefuses (edit declaration) := by
  rw [h.result]
  exact onlyRefuses_ok _

theorem Adds.patched {text front removed back lead trail declaration out : Text}
    {edit : Text → Except Error Text} (h : Adds text edit front removed back lead trail)
    (hout : edit declaration = .ok out) : Patched Blanks text out := by
  rw [h.result, Except.ok.injEq] at hout
  exact ⟨front, removed, back, lead ++ (declaration ++ trail), h.text_eq, h.removed_blank,
    by simp [← hout]⟩

section
variable {text name declaration : Text} {T : Expr} {b o : KeyValue} {place : Placing} {hole : Hole}
  {left right middle : List Binding} {recursive : Bool}

/-- A place in a manifest is among its tokens. -/
theorem exists_among (hparse : Expr.parse text = .ok T)
    (hnode : T.node = .map (left ++ (hole.bindings ++ right)) recursive) (hplace : hole.IsPlace)
    (hmeets : Meets b place hole left right) : ∃ all, place.Among text [] all [] := by
  obtain ⟨all, lt, opening, q, closing, rt, hall, hts, hq, hbraces⟩ := exists_tokens hparse hnode
  obtain ⟨a, q, rfl, ha, hq⟩ := hq.bindings_split
  obtain ⟨x, c, rfl, hx, hc⟩ := hq.bindings_split
  obtain ⟨x₁, x₂, f, bar, rfl, hf, hsite⟩ :=
    hmeets.exists_site hplace (.inl hbraces.opening_kind) ha hx hc lt (closing :: rt)
  refine ⟨all, by simpa using hall, f, bar, _, ?_, by simp, hsite.barrier, hsite.stands⟩
  refine hts.trans ?_
  rw [List.append_cons f, ← hf]
  simp

/-- A place in front of the outputs is in front of the stretch of text that their edit changes. -/
theorem exists_ahead (name : Text) (hparse : Expr.parse text = .ok T)
    (hnode : T.node =
      .map (left ++ (hole.bindings ++ (middle ++ Binding.keyValue o :: right))) recursive)
    (hplace : hole.IsPlace)
    (hmeets : Meets b place hole left (middle ++ Binding.keyValue o :: right)) :
    ∃ before ps xs zs r, Grows text name o before ps xs zs r ∧
      place.Among text [] ps (xs ++ zs) := by
  obtain ⟨all, lt, opening, q, closing, rt, hall, htokens, hq, hbraces⟩ :=
    exists_tokens hparse hnode
  obtain ⟨a, x, m, y, c, rfl, ha, hx, hm, hy, hc⟩ := hq.bindings_ahead
  replace htokens : locate .start all =
      (lt ++ opening :: (a ++ (x ++ m))) ++ (y ++ (c ++ closing :: rt)) :=
    htokens.trans (by simp)
  obtain ⟨ps, xs, zs, l, r, hstretch, hgrows⟩ := exists_grows name hall htokens hy
  obtain ⟨x₁, x₂, f, bar, rfl, hf, hsite⟩ :=
    hmeets.exists_site hplace (.inl hbraces.opening_kind) ha hx
      (hm.bindings_append (hy.bindings_append hc)) lt (closing :: rt)
  -- The place is in front of the first token of the outputs, and so in front of the stretch.
  obtain ⟨t, l₀, y', hps, rfl⟩ := hstretch.exists_first
  have hat : place.At f bar (x₂ ++ (m ++ t :: l₀)) := hsite.stands.of_head (by simp)
  refine ⟨_, ps, xs, zs, r, hgrows, hstretch.split ▸ hall, f, bar, _, ?_, by simp, hsite.barrier,
    hat⟩
  refine hps.trans ?_
  rw [List.append_cons f, ← hf]
  simp

/-- A place behind the outputs is behind the stretch of text that their edit changes. -/
theorem exists_after (name : Text) (hparse : Expr.parse text = .ok T)
    (hnode : T.node =
      .map ((left ++ Binding.keyValue o :: middle) ++ (hole.bindings ++ right)) recursive)
    (hplace : hole.IsPlace)
    (hmeets : Meets b place hole (left ++ Binding.keyValue o :: middle) right)
    (ho : startsWith inputsName o = false) :
    ∃ before ps xs zs r, Grows text name o before ps xs zs r ∧
      place.Among text (ps ++ xs) zs [] := by
  obtain ⟨all, lt, opening, q, closing, rt, hall, htokens, hq, hbraces⟩ :=
    exists_tokens hparse hnode
  obtain ⟨a, y, m, x, c, rfl, ha, hy, hm, hx, hc⟩ := hq.bindings_behind
  replace htokens : locate .start all =
      (lt ++ opening :: a) ++ (y ++ (m ++ (x ++ (c ++ closing :: rt)))) :=
    htokens.trans (by simp)
  obtain ⟨ps, xs, zs, l, r, hstretch, hgrows⟩ := exists_grows name hall htokens hy
  obtain ⟨r₀, semicolon, rfl, hsemicolon⟩ := hstretch.closes
  obtain ⟨x₁, x₂, f, bar, rfl, hf, hsite⟩ :=
    (hmeets.trim_left ho).exists_site hplace (.inr hsemicolon) hm hx hc r₀ (closing :: rt)
  have hsplit : pieces [] text = .ok (ps ++ xs ++ (zs ++ [])) := by
    rw [hall, hstretch.split]
    simp
  refine ⟨_, ps, xs, zs, _, hgrows, hsplit, f, bar, _, ?_, by simp, hsite.barrier, hsite.stands⟩
  rw [hstretch.back, List.append_cons f, ← hf]
  simp

/-- A declaration can be put in any place of a manifest. -/
theorem onlyRefuses_put (hparse : Expr.parse text = .ok T)
    (hnode : T.node = .map (left ++ (hole.bindings ++ right)) recursive) (hplace : hole.IsPlace)
    (hmeets : Meets b place hole left right) : OnlyRefuses (place.put text declaration) := by
  obtain ⟨all, hamong⟩ := exists_among hparse hnode hplace hmeets
  obtain ⟨front, removed, back, lead, trail, hadds⟩ := hamong.lies.exists_adds []
  rw [show textOf [] ++ (textOf all ++ []) = text from hamong.text_eq.symm] at hadds
  exact hadds.onlyRefuses

/-- A place in front of the outputs is still there when the outputs have been edited. -/
theorem settles_ahead (hparse : Expr.parse text = .ok T)
    (hnode : T.node =
      .map (left ++ (hole.bindings ++ (middle ++ Binding.keyValue o :: right))) recursive)
    (hplace : hole.IsPlace)
    (hmeets : Meets b place hole left (middle ++ Binding.keyValue o :: right)) :
    Settles text
      ((threadOutputs o name text).result >>= fun text => place.put text declaration) := by
  obtain ⟨before, ps, xs, zs, r, hgrows, hamong⟩ := exists_ahead name hparse hnode hplace hmeets
  have htext : text = textOf (ps ++ xs) ++ textOf zs := by
    rw [hamong.text_eq]
    simp
  rcases hgrows with ⟨e, hrefuses, herror⟩ | ⟨xs', hresult, -⟩
  · rw [htext, herror]
    exact .of_error hrefuses
  obtain ⟨front, removed, back, lead, trail, hadds⟩ :=
    hamong.lies.exists_adds (textOf xs' ++ textOf zs)
  have hthread : (threadOutputs o name text).result =
      .ok ([] ++ (textOf ps ++ (textOf xs' ++ textOf zs))) := by
    rw [htext, hresult]
    simp
  refine .of_bind (hthread ▸ onlyRefuses_ok _) (fun mid hmid => patched_threadOutputs hmid) ?_ ?_
  · intro mid hmid
    obtain rfl := Except.ok.inj (hthread.symm.trans hmid)
    exact hadds.onlyRefuses
  · intro mid out hmid hout
    obtain rfl := Except.ok.inj (hthread.symm.trans hmid)
    exact hadds.patched hout

/-- The outputs in front of a place are still there when a declaration has been put in it. -/
theorem settles_after (hparse : Expr.parse text = .ok T)
    (hnode : T.node =
      .map ((left ++ Binding.keyValue o :: middle) ++ (hole.bindings ++ right)) recursive)
    (hplace : hole.IsPlace)
    (hmeets : Meets b place hole (left ++ Binding.keyValue o :: middle) right)
    (ho : startsWith inputsName o = false) :
    Settles text
      (place.put text declaration >>= fun text => (threadOutputs o name text).result) := by
  obtain ⟨before, ps, xs, zs, r, hgrows, hamong⟩ := exists_after name hparse hnode hplace hmeets ho
  obtain ⟨front, removed, back, lead, trail, hadds⟩ := hamong.lies.exists_adds []
  rw [show textOf (ps ++ xs) ++ (textOf zs ++ []) = text from hamong.text_eq.symm] at hadds
  refine .of_bind hadds.onlyRefuses (fun mid hmid => hadds.patched hmid) ?_
    fun mid out _ hout => patched_threadOutputs hout
  intro mid hmid
  rw [hadds.result, Except.ok.injEq, List.append_assoc] at hmid
  rcases hgrows with ⟨e, hrefuses, herror⟩ | ⟨xs', hresult, -⟩
  · rw [← hmid, herror]
    exact onlyRefuses_error hrefuses
  · rw [← hmid, hresult]
    exact onlyRefuses_ok _

/-! ## All outcomes of a new input -/

/-- What holds of all the ways in which the two edits of a new input can be made, or fail, holds
of its declaration. -/
structure OfAllEdits (T : Expr) (name url text : Text) (P : Except Error Text → Prop) : Prop where
  refusal : ∀ {e : Error}, refuses e = true → P (.error e)
  missing : ∀ {b : KeyValue} {place : Placing} {qualified : Bool} {hole : Hole}
    {left right : List Binding} {recursive : Bool},
    T.node = .map (left ++ (hole.bindings ++ right)) recursive → hole.IsPlace →
    Meets b place hole left right →
      P (place.put text (Edit.declaration name url qualified) >>= fun _ => .error .missingOutputs)
  ahead : ∀ {b o : KeyValue} {place : Placing} {qualified : Bool} {hole : Hole}
    {left middle right : List Binding} {recursive : Bool},
    T.node = .map (left ++ (hole.bindings ++ (middle ++ .keyValue o :: right))) recursive →
    hole.IsPlace → Meets b place hole left (middle ++ .keyValue o :: right) →
      P ((threadOutputs o name text).result >>=
        fun text => place.put text (Edit.declaration name url qualified))
  after : ∀ {b o : KeyValue} {place : Placing} {qualified : Bool} {hole : Hole}
    {left middle right : List Binding} {recursive : Bool},
    T.node = .map ((left ++ .keyValue o :: middle) ++ (hole.bindings ++ right)) recursive →
    hole.IsPlace → Meets b place hole (left ++ .keyValue o :: middle) right →
    startsWith inputsName o = false →
      P (place.put text (Edit.declaration name url qualified) >>=
        fun text => (threadOutputs o name text).result)

/-- Declaring a new input next to the anchor of a location. -/
theorem OfAllEdits.beside {P : Except Error Text → Prop} {location? : Option Location}
    {cs : List KeyValue} {nested : Bool} {url : Text} (h : OfAllEdits T name url text P)
    (hparse : Expr.parse text = .ok T) (hnode : T.node = .map (cs.map .keyValue) recursive)
    (hsets : Manifest.AreSets cs) (hanchored : Anchored T cs b location? nested)
    (hanchor : (anchor? T location?).result = .ok (some (b, nested))) :
    P (insertInput T name url text location?).result := by
  obtain ⟨place, qualified, ⟨hole, left, right, recursive⟩, hplacing, hslot, hstarts⟩ :=
    exists_slot hnode hsets hanchor hanchored
  have hdeclare : ∀ text, (declareInput b (location?.getD .bottom) nested name url text).result =
      place.put text (Edit.declaration name url qualified) := by
    intro text
    rw [result_declareInput, hplacing, Outcome.ok_bind]
  cases hfind : cs.find? (startsWith outputsName) with
  | none =>
    have hmissing := Lookup.findFirst_segment hnode outputsName
    rw [hfind] at hmissing
    rw [result_insertInput_missingOutputs hanchor hmissing, hdeclare]
    exact h.missing hslot.node_eq hslot.isPlace hslot.meets
  | some o =>
    have houtputs := Lookup.findFirst_segment hnode outputsName
    rw [hfind] at houtputs
    have hother := startsWith_inputs_of_outputs houtputs
    rw [result_insertInput_beside hanchor houtputs]
    simp only [hdeclare]
    rcases exists_sides hslot.node_eq houtputs hslot.startsWith_of_mem with
      ⟨middle, behind, rfl, -⟩ | ⟨before, middle, rfl, -⟩
    · rw [if_pos (start_lt_of_ahead hparse hslot.node_eq hslot.isPlace
        (hslot.meets.trim_right hstarts hother))]
      exact h.ahead hslot.node_eq hslot.isPlace hslot.meets
    · rw [if_neg (not_start_lt_of_after hparse hslot.node_eq hslot.isPlace
        (hslot.meets.trim_left hother))]
      exact h.after hslot.node_eq hslot.isPlace hslot.meets hother

/-- A declaration of an input that is not found is made of its edits. -/
theorem OfAllEdits.insertInput {P : Except Error Text → Prop} {url : Text}
    (h : OfAllEdits T name url text P) (hparse : Expr.parse text = .ok T)
    (hnone : T.findFirst (some (urlPath name)) = .ok none) (location? : Option Location) :
    P (insertInput T name url text location?).result := by
  obtain ⟨bs, recursive, hnode⟩ := Lookup.exists_map_of_findFirst hnone
  rw [Lookup.findFirst_map hnode, Lookup.findSomeM?_eq_none] at hnone
  obtain ⟨cs, rfl, hsets⟩ := Manifest.exists_areSets hnone
  rcases exists_anchor hnode hsets location? with
    ⟨hinputs, hanchor⟩ | ⟨b, nested, hanchor, hanchored⟩
  · cases hfind : cs.find? (startsWith outputsName) with
    | none =>
      have hmissing := Lookup.findFirst_segment hnode outputsName
      rw [hfind] at hmissing
      rw [result_insertInput_missingBoth hanchor hmissing]
      exact h.refusal rfl
    | some o =>
      have houtputs := Lookup.findFirst_segment hnode outputsName
      rw [hfind] at houtputs
      obtain ⟨before, behind, recursive', hsplit, -⟩ := Lookup.exists_split houtputs
      rw [result_insertInput_missingInputs hanchor houtputs]
      have hbetween : T.node =
          .map (before ++ (Hole.between.bindings ++ ([] ++ Binding.keyValue o :: behind)))
            recursive' :=
        hsplit
      exact h.ahead hbetween (show Hole.between.IsPlace from trivial) .above
  · exact h.beside hparse hnode hsets hanchored hanchor

/-- A new input is declared, unless the manifest has a form that is not edited. -/
theorem settles_insertInput {url : Text} (hparse : Expr.parse text = .ok T)
    (hnone : T.findFirst (some (urlPath name)) = .ok none) (location? : Option Location) :
    Settles text (insertInput T name url text location?).result := by
  refine OfAllEdits.insertInput ⟨Settles.of_error, fun hnode hplace hmeets => ⟨?_, ?_⟩,
    settles_ahead hparse, settles_after hparse⟩ hparse hnone location?
  · exact (onlyRefuses_put hparse hnode hplace hmeets).bind fun _ _ => onlyRefuses_error rfl
  · intro out hout
    obtain ⟨_, -, herror⟩ := Outcome.bind_eq_ok.1 hout
    cases herror

/-! ## The edit of an old input -/

/-- A url that is found is replaced where it stands, unless it is no literal or has
interpolations. -/
theorem onlyRefuses_replaceValue {path : List Text} (hparse : Expr.parse text = .ok T)
    (hfind : T.findFirst (some path) = .ok (some b)) (url : Text) :
    OnlyRefuses (replaceValue b.value url text) ∧
      ∀ out, replaceValue b.value url text = .ok out → Patched (IsLiteral b.value) text out := by
  by_cases hliteral : (∃ x, b.value.node = .uri x) ∨
      ∃ style span x, b.value.node = Style.node style [.text span x]
  · obtain ⟨u, x, v, y, htext, hx, hresult⟩ : ∃ u x v y, text = u ++ (x ++ v) ∧
        IsLiteral b.value u x ∧ replaceValue b.value url text = .ok (u ++ (y ++ v)) := by
      rcases hliteral with ⟨x, hnode⟩ | ⟨style, span, x, hnode⟩
      · obtain ⟨p, q, rfl, hspan, -⟩ := exists_uri_site hparse hfind hnode
        refine ⟨p, x, q, stringLiteral url, rfl, .inl ⟨hnode, hspan⟩, ?_⟩
        rw [← replace_append p x q, ← hspan]
        simp only [replaceValue, hnode]
      · obtain ⟨p, q, rfl, rfl, -⟩ := exists_literal_site hparse hfind hnode
        exact ⟨p, x, q, style.escape url, rfl, .inr ⟨style, hnode⟩,
          by rw [replaceValue_literal hnode, replace_append]⟩
    refine ⟨hresult ▸ onlyRefuses_ok _, fun out hout => ⟨u, x, v, y, htext, hx, ?_⟩⟩
    exact Except.ok.inj (hout.symm.trans hresult)
  · refine ⟨fun e he => ?_, fun out hout => absurd (exists_literal_of_replaceValue hout) hliteral⟩
    unfold replaceValue at he
    split at he
    · next span x hnode => exact absurd (.inr ⟨.quoted, span, x, hnode⟩) hliteral
    · next span x hnode => exact absurd (.inr ⟨.indented, span, x, hnode⟩) hliteral
    · exact onlyRefuses_error rfl e he
    · exact onlyRefuses_error rfl e he
    · next x hnode => exact absurd (.inl ⟨x, hnode⟩) hliteral
    · exact onlyRefuses_error rfl e he

/-! ## Adding an input -/

/-- Whether an error says that a text spells no expression. -/
def isReading : Error → Bool
  | .malformed _ | .integerTooLong _ => true
  | _ => false

theorem isReading_of_parse {e : Error} (h : Expr.parse text = .error e) : isReading e = true := by
  rw [Expr.parse, Outcome.bind_eq_error] at h
  rcases h with h | ⟨tokens, -, h⟩
  · cases htokens : Token.tokenize text with
    | error error =>
      rw [htokens] at h
      cases h
      rfl
    | ok tokens =>
      rw [htokens] at h
      cases h
  · cases hwhole : Grammar.whole tokens with
    | error fault =>
      rw [hwhole] at h
      cases h
      rcases fault with ⟨_ | token, expected⟩ | span | digits
      all_goals rfl
    | ok T =>
      rw [hwhole] at h
      cases h

/-- An addition edits the url that is found, or declares an input that is not found. -/
theorem exists_found_of_addInput {url out : Text} {location? : Option Location}
    (hout : (addInput text name url location?).result = .ok out) :
    ∃ T, Expr.parse text = .ok T ∧
      ((∃ b, T.findFirst (some (urlPath name)) = .ok (some b) ∧
          replaceValue b.value url text = .ok out) ∨
        T.findFirst (some (urlPath name)) = .ok none ∧
          (insertInput T name url text location?).result = .ok out) := by
  cases hparse : Expr.parse text with
  | error e =>
    rw [addInput, Logged.result_bind, Outcome.result_monadLift, hparse] at hout
    cases hout
  | ok T =>
    refine ⟨T, rfl, ?_⟩
    rw [result_addInput hparse] at hout
    cases hfind : T.findFirst (some (urlPath name)) with
    | error e =>
      rw [upsertInput, Logged.result_bind, Outcome.result_monadLift, hfind] at hout
      cases hout
    | ok b? =>
      cases b? with
      | none =>
        rw [result_upsertInput_of_none hfind] at hout
        exact .inr ⟨rfl, hout⟩
      | some b =>
        rw [result_upsertInput_of_some hfind] at hout
        exact .inl ⟨b, rfl, hout⟩

/-- What an addition changes in a text: a literal, or two stretches of blanks. -/
theorem exists_patched_of_addInput {url out : Text} {location? : Option Location}
    (hparse : Expr.parse text = .ok T)
    (hout : (addInput text name url location?).result = .ok out) :
    (∃ b, T.findFirst (some (urlPath name)) = .ok (some b) ∧
        Patched (IsLiteral b.value) text out) ∨
      T.findFirst (some (urlPath name)) = .ok none ∧
        ∃ mid, Patched Blanks text mid ∧ Patched Blanks mid out := by
  obtain ⟨T', hparse', hfound⟩ := exists_found_of_addInput hout
  obtain rfl := Except.ok.inj (hparse'.symm.trans hparse)
  rcases hfound with ⟨b, hfind, hout⟩ | ⟨hfind, hout⟩
  · exact .inl ⟨b, hfind, (onlyRefuses_replaceValue hparse hfind url).2 out hout⟩
  · exact .inr ⟨hfind, (settles_insertInput hparse hfind location?).patches out hout⟩

/-- An input is added, or the text spells no expression, or it has a form that is not
edited. -/
theorem addInput_only_refuses (text name url : Text) (location? : Option Location) :
    (∃ out, (addInput text name url location?).result = .ok out) ∨
      ∃ e, (addInput text name url location?).result = .error e ∧
        (Expr.parse text = .error e ∧ isReading e = true ∨ refuses e = true) := by
  cases hparse : Expr.parse text with
  | error e =>
    refine .inr ⟨e, ?_, .inl ⟨rfl, isReading_of_parse hparse⟩⟩
    rw [addInput, Logged.result_bind, Outcome.result_monadLift, hparse]
    rfl
  | ok T =>
    have honly : OnlyRefuses (addInput text name url location?).result := by
      rw [result_addInput hparse]
      cases hfind : T.findFirst (some (urlPath name)) with
      | error e =>
        rw [upsertInput, Logged.result_bind, Outcome.result_monadLift, hfind]
        exact onlyRefuses_error (onlyRefuses_findFirst T _ e hfind)
      | ok b? =>
        cases b? with
        | none =>
          rw [result_upsertInput_of_none hfind]
          exact (settles_insertInput hparse hfind location?).refuses
        | some b =>
          rw [result_upsertInput_of_some hfind]
          exact (onlyRefuses_replaceValue hparse hfind url).1
    cases hresult : (addInput text name url location?).result with
    | ok out => exact .inl ⟨out, rfl⟩
    | error e => exact .inr ⟨e, rfl, .inr (honly e hresult)⟩

end

end Edit
end FlakeInputs
