import FlakeInputs.Proofs.Edit.Splices
import FlakeInputs.Proofs.Token.Lossless

/-!
# Two edits at once

A new input is declared by two edits, and the second one is made on a text that the first one
has changed.  Still each of them replaces the stretch of text that it would replace on its own:
the later one in the text is made first, and nothing that the other one reads off the text has
changed.
-/

namespace FlakeInputs
namespace Edit

open Grammar Scan
open Token (locate)
open Lookup (startsWith)
open Manifest (inputsName outputsName)

/-! ## How lines end -/

/-- Two characters that follow each other stand on one side of a seam, unless the seam parts
them. -/
theorem occurs_append_of_apart {c d : Char} {u v : Text}
    (h : u.getLast? ≠ some c ∨ v.head? ≠ some d) :
    Text.occurs [c, d] (u ++ v) = (Text.occurs [c, d] u || Text.occurs [c, d] v) := by
  induction u with
  | nil => simp [Text.occurs]
  | cons x u ih =>
    cases u with
    | nil =>
      have hhere : [c, d].isPrefixOf (x :: v) = false := by
        cases v with
        | nil => simp [List.isPrefixOf]
        | cons y v =>
          simp only [List.isPrefixOf, Bool.and_true, Bool.and_eq_false_iff, beq_eq_false_iff_ne]
          rcases h with h | h
          · exact .inl fun heq => h (by simp [heq])
          · exact .inr fun heq => h (by simp [heq])
      simp [Text.occurs, hhere]
    | cons y u =>
      have hrest := ih (by simpa using h)
      have hhere : [c, d].isPrefixOf (x :: (y :: u ++ v)) = [c, d].isPrefixOf (x :: y :: u) := by
        simp [List.isPrefixOf]
      rw [List.cons_append, Text.occurs, hrest, hhere, ← Bool.or_assoc, ← Text.occurs]

theorem occurs_of_not_mem {c d : Char} {u : Text} (h : c ∉ u) : Text.occurs [c, d] u = false := by
  induction u with
  | nil => rfl
  | cons x u ih =>
    obtain ⟨hx, hu⟩ := not_or.1 (mt List.mem_cons.2 h)
    exact occurs_cons_eq_false (by simp [List.isPrefixOf, hx]) (ih hu)

/-- Lines end in the same way when something is put into a text that ends no line. -/
theorem Grafted.newline_eq {x x' : Text} (h : Grafted x x') (p z : Text) :
    (p ++ (x' ++ z)).newline = (p ++ (x ++ z)).newline := by
  obtain ⟨u, y, v, rfl, rfl, hreturn, hline, hseam⟩ := h
  by_cases hy : y = []
  · simp [hy]
  have hback : Text.occurs ['\r', '\n'] (y ++ (v ++ z)) = Text.occurs ['\r', '\n'] (v ++ z) := by
    rw [occurs_append_of_apart (.inl fun h => hreturn (List.mem_of_getLast? h)),
      occurs_of_not_mem hreturn, Bool.false_or]
  have hnew : (y ++ (v ++ z)).head? ≠ some '\n' := by
    rw [List.head?_append_of_ne_nil y hy]
    exact fun h => hline (List.mem_of_head? h)
  have hold : (p ++ u).getLast? ≠ some '\r' ∨ (v ++ z).head? ≠ some '\n' := by
    rcases hseam.resolve_left hy with ⟨d, hd, hlast⟩ | ⟨d, hd, hhead⟩
    · exact .inl (by simp [List.getLast?_append, hlast, hd])
    · exact .inr (by simp [List.head?_append, hhead, hd])
  have hoccurs : Text.occurs ['\r', '\n'] (p ++ u ++ (y ++ (v ++ z))) =
      Text.occurs ['\r', '\n'] (p ++ u ++ (v ++ z)) := by
    rw [occurs_append_of_apart (.inr hnew), occurs_append_of_apart hold, hback]
  have htext : p ++ (u ++ (y ++ v) ++ z) = p ++ u ++ (y ++ (v ++ z)) := by simp
  have htext' : p ++ (u ++ v ++ z) = p ++ u ++ (v ++ z) := by simp
  rw [Text.newline, Text.newline, htext, htext', hoccurs]

/-- What is put into a stretch of a text is a splice at a point of it. -/
theorem Grafted.exists_splice {x x' : Text} (h : Grafted x x') (p : Text) :
    ∃ b : Splice, b.start = b.stop ∧ p.length ≤ b.start ∧ b.stop ≤ (p ++ x).length ∧
      ∀ z, b.apply (p ++ (x ++ z)) = p ++ (x' ++ z) := by
  obtain ⟨u, y, v, rfl, rfl, -⟩ := h
  refine ⟨⟨(p ++ u).length, (p ++ u).length, y⟩, rfl, by simp, by simp, fun z => ?_⟩
  have htext : p ++ (u ++ v ++ z) = p ++ u ++ (v ++ z) := by simp
  rw [htext, Splice.apply, List.take_left, List.drop_left]
  simp

/-! ## Edits that are splices -/

/-- An edit of a text is a splice of it. -/
structure Performs (edit : Text → Except Error Text) (text : Text) (s : Splice) : Prop where
  within : s.Within text
  result : edit text = .ok (s.apply text)

/-- Two edits of a text, of which the one that is later in the text is made first.  The other one
is the same splice on the text that results. -/
structure Made (late early : Text → Except Error Text) (text : Text) (b a : Splice) : Prop where
  late_splice : Performs late text b
  early_splice : Performs early text a
  still : Performs early (b.apply text) a
  apart : a.stop ≤ b.start

/-- Both stretches are replaced where they stand in the text. -/
theorem Made.result {late early : Text → Except Error Text} {text : Text} {b a : Splice}
    (h : Made late early text b a) : (late text >>= early) = .ok (Splice.applyBoth a b text) := by
  rw [h.late_splice.result, Outcome.ok_bind, h.still.result,
    Splice.apply_apply h.early_splice.within.order h.late_splice.within h.apart]

/-- A splice that writes a declaration in a place removes nothing, or the braces of an empty set
with blanks between them, which it writes again. -/
def Clears (place : Placing) (text declaration : Text) (a : Splice) : Prop :=
  a.start = a.stop ∨ (∃ binding, place = .inside binding) ∧ ∃ blank lead trail,
    Text.isBlank blank = true ∧ (∀ c ∈ lead ++ trail, isGap c = true) ∧
    text.slice a.start a.stop = '{' :: (blank ++ ['}']) ∧
    a.replacement = '{' :: (lead ++ (declaration ++ (trail ++ ['}'])))

theorem CutsIn.clears {place : Placing} {w x : Text} {cut : Text → Cut} (h : CutsIn place w x cut)
    (r declaration : Text) :
    Clears place (w ++ (x ++ r)) declaration
      ((cut (w ++ (x ++ r)).newline).splice declaration) := by
  rcases h.removed (w ++ (x ++ r)).newline with
    hpoint | ⟨hplace, blank, lead, trail, hblank, hslice, hlead, htrail, hgap⟩
  · exact .inl hpoint
  · refine .inr ⟨hplace, blank, lead, trail, hblank, hgap isGap_of_newline, hslice r, ?_⟩
    rw [Cut.splice, hlead, htrail]
    rfl

theorem CutsIn.performs {place : Placing} {w x : Text} {cut : Text → Cut}
    (h : CutsIn place w x cut) (r declaration : Text) :
    Performs (fun t => place.put t declaration) (w ++ (x ++ r))
      ((cut (w ++ (x ++ r)).newline).splice declaration) := by
  obtain ⟨-, horder, hbound⟩ := h.bounds (w ++ (x ++ r)).newline
  have hwithin : ((cut (w ++ (x ++ r)).newline).splice declaration).Within (w ++ (x ++ r)) :=
    ⟨horder, Nat.le_trans hbound (by simp)⟩
  exact ⟨hwithin, (h.cuts r declaration).trans hwithin.splice_eq⟩

/-- How a name is threaded into a function whose parameter list is in the stretch `x` behind `p`,
whatever stands behind the stretch. -/
structure ThreadsIn (o : KeyValue) (name p x : Text) (s : Splice) : Prop where
  point : s.start = s.stop
  after : p.length ≤ s.start
  bound : s.stop ≤ (p ++ x).length
  performs : ∀ r, Performs (fun t => (threadOutputs o name t).result) (p ++ (x ++ r)) s
  front : ∀ r, ∃ r', s.apply (p ++ (x ++ r)) = p ++ r'
  newline : ∀ r, (s.apply (p ++ (x ++ r))).newline = (p ++ (x ++ r)).newline

section
variable {text name t out : Text} {o : KeyValue} {before r : List Token} {ps xs zs : List Piece}

/-- If a name is threaded, then something is put into the stretch, whatever stands behind it. -/
theorem Grows.exists_grafted (h : Grows text name o before ps xs zs r)
    (hout : (threadOutputs o name (textOf ps ++ (textOf xs ++ t))).result = .ok out) :
    ∃ x', Grafted (textOf xs) x' ∧
      ∀ t, (threadOutputs o name (textOf ps ++ (textOf xs ++ t))).result =
        .ok (textOf ps ++ (x' ++ t)) := by
  rcases h with ⟨e, -, herror⟩ | ⟨xs', hresult, -, hgrafted⟩
  · rw [← List.append_assoc, ← textOf_append, herror] at hout
    cases hout
  · exact ⟨textOf xs', hgrafted, fun t => by simpa using hresult t⟩

theorem Grows.exists_threadsIn (h : Grows text name o before ps xs zs r)
    (hout : (threadOutputs o name (textOf ps ++ (textOf xs ++ t))).result = .ok out) :
    ∃ s, ThreadsIn o name (textOf ps) (textOf xs) s := by
  obtain ⟨x', hgrafted, hresult⟩ := h.exists_grafted hout
  obtain ⟨s, hpoint, hstart, hstop, happly⟩ := hgrafted.exists_splice (textOf ps)
  refine ⟨s, hpoint, hstart, hstop, fun r => ⟨?_, ?_⟩, fun r => ⟨_, happly r⟩, fun r => ?_⟩
  · exact ⟨Nat.le_of_eq hpoint, Nat.le_trans hstop (by simp)⟩
  · rw [happly]
    exact hresult r
  · rw [happly, hgrafted.newline_eq]

end

/-- The text in front of the stretch in which a place is cut stays. -/
theorem CutsIn.front {place : Placing} {w x : Text} {cut : Text → Cut} (h : CutsIn place w x cut)
    (newline declaration r : Text) :
    ∃ r', ((cut newline).splice declaration).apply (w ++ r) = w ++ r' := by
  obtain ⟨hafter, horder, -⟩ := h.bounds newline
  refine ⟨r.take ((cut newline).start - w.length) ++
    ((cut newline).splice declaration).replacement ++
    r.drop ((cut newline).stop - w.length), ?_⟩
  rw [Splice.apply, Cut.splice, List.take_append, List.take_of_length_le hafter, List.drop_append,
    List.drop_eq_nil_of_le (Nat.le_trans hafter horder)]
  simp

section
variable {text name out : Text} {T : Expr} {b o : KeyValue} {place : Placing} {hole : Hole}
  {left right middle : List Binding} {recursive : Bool}

/-- Edits of the outputs and of a place in front of them. -/
theorem exists_made_ahead (hparse : Expr.parse text = .ok T)
    (hnode : T.node =
      .map (left ++ (hole.bindings ++ (middle ++ Binding.keyValue o :: right))) recursive)
    (hplace : hole.IsPlace)
    (hmeets : Meets b place hole left (middle ++ Binding.keyValue o :: right))
    (hthread : (threadOutputs o name text).result = .ok out) (declaration : Text) :
    ∃ s a, Made (fun t => (threadOutputs o name t).result) (fun t => place.put t declaration)
      text s a ∧ s.start = s.stop ∧ Clears place text declaration a := by
  obtain ⟨before, ps, xs, zs, r, hgrows, hamong⟩ := exists_ahead name hparse hnode hplace hmeets
  obtain rfl : textOf ps ++ (textOf xs ++ textOf zs) = text := by
    rw [hamong.text_eq]
    simp
  obtain ⟨s, hthreads⟩ := hgrows.exists_threadsIn hthread
  obtain ⟨cut, hcut⟩ : ∃ cut, CutsIn place [] (textOf ps) cut := hamong.exists_cutsIn
  -- The text changes behind the place only, and in a way that keeps the ends of lines.
  obtain ⟨r', hr'⟩ := hthreads.front (textOf zs)
  have hstill := hcut.performs r' declaration
  rw [List.nil_append, ← hr', hthreads.newline] at hstill
  refine ⟨s, _, ⟨hthreads.performs _, hcut.performs _ declaration, hstill, ?_⟩, hthreads.point,
    hcut.clears _ declaration⟩
  exact Nat.le_trans (hcut.bounds _).2.2 hthreads.after

/-- Edits of a place and of the outputs in front of it. -/
theorem exists_made_after {declaration : Text} (hparse : Expr.parse text = .ok T)
    (hnode : T.node =
      .map ((left ++ Binding.keyValue o :: middle) ++ (hole.bindings ++ right)) recursive)
    (hplace : hole.IsPlace)
    (hmeets : Meets b place hole (left ++ Binding.keyValue o :: middle) right)
    (ho : startsWith inputsName o = false)
    (hout : (place.put text declaration >>= fun t => (threadOutputs o name t).result) = .ok out) :
    ∃ a s, Made (fun t => place.put t declaration) (fun t => (threadOutputs o name t).result)
      text a s ∧ s.start = s.stop ∧ Clears place text declaration a := by
  obtain ⟨before, ps, xs, zs, r, hgrows, hamong⟩ := exists_after name hparse hnode hplace hmeets ho
  obtain ⟨cut, hcut⟩ := hamong.exists_cutsIn
  obtain rfl : textOf (ps ++ xs) ++ (textOf zs ++ []) = text := hamong.text_eq.symm
  have hlate := hcut.performs [] declaration
  have hclears := hcut.clears [] declaration
  -- The outputs stand in front of the splice, and so they are where they were.
  obtain ⟨r', hr'⟩ := hcut.front (textOf (ps ++ xs) ++ (textOf zs ++ [])).newline declaration
    (textOf zs ++ [])
  rw [hlate.result, Outcome.ok_bind, hr', textOf_append, List.append_assoc] at hout
  obtain ⟨s, hthreads⟩ := hgrows.exists_threadsIn hout
  have hearly := hthreads.performs (textOf zs ++ [])
  have hstill := hthreads.performs r'
  rw [← List.append_assoc, ← textOf_append] at hearly hstill
  refine ⟨_, s, ⟨hlate, hearly, hr' ▸ hstill, Nat.le_trans hthreads.bound ?_⟩, hthreads.point,
    hclears⟩
  rw [← textOf_append]
  exact (hcut.bounds _).1

end

/-! ## The edits of a new input -/

/-- The text with what a finding asks for done. -/
def Finding.edit (f : Finding) (name url text : Text) : Except Error Text :=
  (f.apply name url text).result

/-- What the edit of the inputs removes from a text: nothing, or the braces of an empty set of
inputs with the blanks between them.  The braces are written again, with the declaration and
blanks between them. -/
inductive Removes (text name url : Text) (f : Finding) (a : Splice) : Prop
  | nothing (h : a.start = a.stop)
  | braces {b : KeyValue} {location : Location} {recursive : Bool} {blank lead trail : Text}
      (hfinding : f = .hasInputs b location false) (hnode : b.value.node = .map [] recursive)
      (hblank : blank.isBlank = true) (hgaps : ∀ c ∈ lead ++ trail, isGap c = true)
      (hslice : text.slice a.start a.stop = '{' :: (blank ++ ['}']))
      (hreplacement : a.replacement =
        '{' :: (lead ++ (declaration name url false ++ (trail ++ ['}']))))

/-- Where the declaration goes whenever the anchor and the place next to it are found: the
bindings behind the anchor may be of any form. -/
theorem exists_slot_of_ok {T : Expr} {location? : Option Location} {b : KeyValue} {nested : Bool}
    {place : Placing} {qualified : Bool}
    (hanchor : (anchor? T location?).result = .ok (some (b, nested)))
    (hplacing : placing b (location?.getD .bottom) nested = .ok (place, qualified)) :
    ∃ spot, Slot T location? b place qualified spot ∧
      (spot.hole = .between → startsWith inputsName b = true) := by
  have hanchor' := hanchor
  rw [anchor?, Logged.result_bind, Outcome.result_monadLift, Outcome.bind_eq_ok] at hanchor'
  obtain ⟨first?, hfirst, hrest⟩ := hanchor'
  cases first? with
  | none => cases hrest
  | some first =>
  by_cases hlocation : location? = some .bottom
  · -- All bindings of the manifest have been gone through.
    subst hlocation
    simp only [Logged.result_bind, Outcome.result_monadLift] at hrest
    obtain ⟨found, hfound, hrest⟩ := Outcome.bind_eq_ok.1 hrest
    obtain ⟨declared, hdeclared, -⟩ := Outcome.bind_eq_ok.1 hrest
    obtain ⟨cs, recursive, hnode⟩ := Lookup.exists_keyValues_of_findAll hfound
    rw [Lookup.findAll_segment hnode, Except.ok.injEq] at hfound
    subst hfound
    have hsets : Manifest.AreSets cs := by
      intro c hc hnames
      refine Manifest.areSets_of_collect hdeclared c (List.mem_filter.2 ⟨hc, ?_⟩) hnames
      rw [startsWith, hnames]
      rfl
    rcases exists_anchor hnode hsets (some .bottom) with ⟨hnone, -⟩ | ⟨b', nested', heq, hanchored⟩
    · rw [hfirst] at hnone
      cases hnone
    · obtain ⟨rfl, rfl⟩ := Prod.mk.inj (Option.some.inj (Except.ok.inj (hanchor.symm.trans heq)))
      obtain ⟨place', qualified', spot, hplacing', hslot, hstarts⟩ :=
        exists_slot hnode hsets hanchor hanchored
      obtain ⟨rfl, rfl⟩ := Prod.mk.inj (Except.ok.inj (hplacing.symm.trans hplacing'))
      exact ⟨spot, hslot, hstarts⟩
  · obtain ⟨rfl, rfl⟩ : first = b ∧ false = nested := by
      rcases location? with _ | _ | _
      · exact Prod.mk.inj (Option.some.inj (Except.ok.inj hrest))
      · exact Prod.mk.inj (Option.some.inj (Except.ok.inj hrest))
      · exact absurd rfl hlocation
    obtain ⟨l, r, recursive, hsplit, -, hhead⟩ := Lookup.exists_split hfirst
    have hstarts : startsWith inputsName first = true := beq_iff_eq.2 hhead
    by_cases hnames : first.names = [some inputsName]
    · have hvalue := hplacing
      rw [placing, if_pos ⟨hnames, rfl⟩] at hvalue
      obtain ⟨children, hchildren, -⟩ := Outcome.bind_eq_ok.1 hvalue
      obtain ⟨ks, recursive', hvalue⟩ := Lookup.exists_keyValues_of_findAll hchildren
      obtain ⟨place', spot, hplacing', hslot⟩ := exists_slot_within hsplit hanchor hnames hvalue
      obtain ⟨rfl, rfl⟩ := Prod.mk.inj (Except.ok.inj (hplacing.symm.trans hplacing'))
      exact ⟨spot, hslot, fun _ => hstarts⟩
    · rw [placing, if_neg (by simp [hnames])] at hplacing
      obtain ⟨rfl, rfl⟩ := Prod.mk.inj (Except.ok.inj hplacing)
      obtain ⟨left, right, hslot⟩ := exists_slot_beside hsplit hanchor hstarts hnames
      exact ⟨_, hslot, fun _ => hstarts⟩

section
variable {text name url out : Text} {T : Expr} {location? : Option Location} {b o : KeyValue}
  {place : Placing} {nested qualified : Bool}

/-- The edit of the inputs, when it is known where the declaration goes. -/
theorem edit_hasInputs {location : Location}
    (hplacing : placing b location nested = .ok (place, qualified)) (name url : Text) :
    (Finding.hasInputs b location nested).edit name url =
      fun text => place.put text (declaration name url qualified) := by
  funext text
  exact (result_declareInput b location nested name url text).trans (by rw [hplacing]; rfl)

/-- An edit of the inputs that is made knows where the declaration goes. -/
theorem exists_placing {location : Location} {text out : Text}
    (h : (declareInput b location nested name url text).result = .ok out) :
    ∃ place qualified, placing b location nested = .ok (place, qualified) := by
  rw [result_declareInput, Outcome.bind_eq_ok] at h
  obtain ⟨⟨place, qualified⟩, hplacing, -⟩ := h
  exact ⟨place, qualified, hplacing⟩

/-- Only the set of the anchor is filled, with a key that is not qualified. -/
theorem Slot.removes {spot : Spot} {a : Splice} (h : Slot T location? b place qualified spot)
    (hplacing : placing b (location?.getD .bottom) nested = .ok (place, qualified))
    (hclears : Clears place text (declaration name url qualified) a) :
    Removes text name url (.hasInputs b (location?.getD .bottom) nested) a := by
  obtain ⟨hole, left, right, recursive⟩ := spot
  rcases hclears with hpoint | ⟨⟨c, rfl⟩, blank, lead, trail, hblank, hgaps, hslice, hreplacement⟩
  · exact .nothing hpoint
  · cases h.meets with
    | empty =>
      obtain rfl : qualified = false := h.takes.1
      obtain rfl : nested = false := by
        rw [placing] at hplacing
        split at hplacing
        · next hnames => exact hnames.2
        · unfold beside at hplacing
          split at hplacing <;> cases hplacing
      exact .braces rfl h.isPlace hblank hgaps hslice hreplacement

/-- A function that is as it should be is left alone. -/
theorem Performs.replacement_eq_nil {s : Splice}
    (h : Performs (fun t => (threadOutputs o name t).result) text s) (hpoint : s.start = s.stop)
    (hrejects : ∀ list body, o.value.node = .function (.destructured list) body →
      accepts list name = false) : s.replacement = [] := by
  have hresult := h.result
  unfold threadOutputs at hresult
  split at hresult
  · next list body hnode =>
    rw [result_addParameter_of_not (hrejects list body hnode)] at hresult
    exact Splice.replacement_eq_nil h.within hpoint (Except.ok.inj hresult).symm
  · exact Splice.replacement_eq_nil h.within hpoint (Except.ok.inj hresult).symm
  · cases hresult

/-- The edits of a manifest are the splices `a` of the inputs and `s` of the outputs: both are
made where they stand in the text, in the order in which they are found. -/
structure Simultaneous (T : Expr) (location? : Option Location) (name url text out : Text)
    (f : Finding) (o : KeyValue) (a s : Splice) : Prop where
  declares : f.task = .hasInputs ∨ f.task = .missingInputs
  removes : Removes text name url f a
  point : s.start = s.stop
  idle : (∀ list body, o.value.node = .function (.destructured list) body →
    accepts list name = false) → s.replacement = []
  order : (classify T location?).result = .ok [.hasOutputs o, f] ∧
      Made ((Finding.hasOutputs o).edit name url) (f.edit name url) text s a ∧
      out = Splice.applyBoth a s text ∨
    (classify T location?).result = .ok [f, .hasOutputs o] ∧
      Made (f.edit name url) ((Finding.hasOutputs o).edit name url) text a s ∧
      out = Splice.applyBoth s a text

/-- Without inputs, the declaration goes above the outputs. -/
theorem exists_simultaneous_above (hparse : Expr.parse text = .ok T)
    (hanchor : (anchor? T location?).result = .ok none)
    (houtputs : T.findFirst (some [outputsName]) = .ok (some o))
    (hout : (insertInput T name url text location?).result = .ok out) :
    ∃ f a s, Simultaneous T location? name url text out f o a s := by
  rw [result_insertInput_missingInputs hanchor houtputs] at hout
  obtain ⟨mid, hmid, -⟩ := Outcome.bind_eq_ok.1 hout
  obtain ⟨before, behind, recursive, hsplit, -⟩ := Lookup.exists_split houtputs
  have hbetween : T.node =
      .map (before ++ (Hole.between.bindings ++ ([] ++ Binding.keyValue o :: behind))) recursive :=
    hsplit
  obtain ⟨s, a, hmade, hpoint, hclears⟩ := exists_made_ahead hparse hbetween
    (show Hole.between.IsPlace from trivial) .above hmid (declaration name url true)
  refine ⟨.missingInputs o.span, a, s, .inr rfl, ?_, hpoint,
    hmade.late_splice.replacement_eq_nil hpoint,
    .inl ⟨classify_missingInputs hanchor houtputs, hmade, ?_⟩⟩
  · rcases hclears with hpoint | ⟨⟨c, hc⟩, -⟩
    · exact .nothing hpoint
    · cases hc
  · exact Except.ok.inj (hout.symm.trans hmade.result)

/-- The declaration goes next to the anchor of a location. -/
theorem exists_simultaneous_beside (hparse : Expr.parse text = .ok T)
    (hanchor : (anchor? T location?).result = .ok (some (b, nested)))
    (houtputs : T.findFirst (some [outputsName]) = .ok (some o))
    (hout : (insertInput T name url text location?).result = .ok out) :
    ∃ f a s, Simultaneous T location? name url text out f o a s := by
  have hclassify := classify_beside hanchor houtputs
  rw [result_insertInput_beside hanchor houtputs] at hout
  obtain ⟨place, qualified, hplacing⟩ : ∃ place qualified,
      placing b (location?.getD .bottom) nested = .ok (place, qualified) := by
    split at hout
    · obtain ⟨mid, -, hmid⟩ := Outcome.bind_eq_ok.1 hout
      exact exists_placing hmid
    · obtain ⟨mid, hmid, -⟩ := Outcome.bind_eq_ok.1 hout
      exact exists_placing hmid
  have hedit := edit_hasInputs hplacing name url
  have hdeclare : ∀ text, (declareInput b (location?.getD .bottom) nested name url text).result =
      place.put text (declaration name url qualified) := congrFun hedit
  simp only [hdeclare] at hout
  obtain ⟨⟨hole, left, right, recursive⟩, hslot, hstarts⟩ := exists_slot_of_ok hanchor hplacing
  have hother := startsWith_inputs_of_outputs houtputs
  rcases exists_sides hslot.node_eq houtputs hslot.startsWith_of_mem with
    ⟨middle, behind, rfl, -⟩ | ⟨before, middle, rfl, -⟩
  · have hlt := start_lt_of_ahead hparse hslot.node_eq hslot.isPlace
      (hslot.meets.trim_right hstarts hother)
    rw [if_pos hlt] at hclassify hout
    obtain ⟨mid, hmid, -⟩ := Outcome.bind_eq_ok.1 hout
    obtain ⟨s, a, hmade, hpoint, hclears⟩ := exists_made_ahead hparse hslot.node_eq hslot.isPlace
      hslot.meets hmid (declaration name url qualified)
    refine ⟨_, a, s, .inl rfl, hslot.removes hplacing hclears, hpoint,
      hmade.late_splice.replacement_eq_nil hpoint, .inl ⟨hclassify, ?_, ?_⟩⟩
    · rw [hedit]
      exact hmade
    · exact Except.ok.inj (hout.symm.trans hmade.result)
  · have hnot := not_start_lt_of_after hparse hslot.node_eq hslot.isPlace
      (hslot.meets.trim_left hother)
    rw [if_neg hnot] at hclassify hout
    obtain ⟨a, s, hmade, hpoint, hclears⟩ := exists_made_after hparse hslot.node_eq hslot.isPlace
      hslot.meets hother hout
    refine ⟨_, a, s, .inl rfl, hslot.removes hplacing hclears, hpoint,
      hmade.early_splice.replacement_eq_nil hpoint, .inr ⟨hclassify, ?_, ?_⟩⟩
    · rw [hedit]
      exact hmade
    · exact Except.ok.inj (hout.symm.trans hmade.result)

/-- The two edits that declare a new input do to the text what each of them does to it alone:
each replaces a stretch of the text, the stretches are apart, and the one that is later in the
text is replaced first. -/
theorem insertInput_simultaneous (hparse : Expr.parse text = .ok T)
    (hout : (insertInput T name url text location?).result = .ok out) :
    ∃ f o a s, Simultaneous T location? name url text out f o a s := by
  have hclassify := hout
  rw [insertInput, Logged.result_bind, Outcome.bind_eq_ok] at hclassify
  obtain ⟨findings, hclassify, -⟩ := hclassify
  rw [classify, Logged.result_bind, Outcome.bind_eq_ok] at hclassify
  obtain ⟨anchor?, hanchor, hclassify⟩ := hclassify
  rw [Logged.result_bind, Outcome.result_monadLift, Outcome.bind_eq_ok] at hclassify
  obtain ⟨outputs?, houtputs, -⟩ := hclassify
  cases outputs? with
  | none =>
    -- The edit of the inputs is made, but nothing is written without outputs.
    cases anchor? with
    | none =>
      rw [result_insertInput_missingBoth hanchor houtputs] at hout
      cases hout
    | some anchor =>
      rw [result_insertInput_missingOutputs hanchor houtputs] at hout
      obtain ⟨-, -, herror⟩ := Outcome.bind_eq_ok.1 hout
      cases herror
  | some o =>
    obtain ⟨f, a, s, h⟩ : ∃ f a s, Simultaneous T location? name url text out f o a s := by
      cases anchor? with
      | none => exact exists_simultaneous_above hparse hanchor houtputs hout
      | some anchor => exact exists_simultaneous_beside hparse hanchor houtputs hout
    exact ⟨f, o, a, s, h⟩

theorem insertInput_simultaneous_filled : ∃ text T out f o a s,
    text = "\x7b outputs = \x7b self \x7d: 1;\n  inputs = \x7b \x7d;\n\x7d".toList ∧
    Expr.parse text = .ok T ∧
    (insertInput T "b".toList "y".toList text none).result = .ok out ∧
    Simultaneous T none "b".toList "y".toList text out f o a s := by
  have hcheck : (Expr.parse
      "\x7b outputs = \x7b self \x7d: 1;\n  inputs = \x7b \x7d;\n\x7d".toList).toOption.any
        (fun T => (insertInput T "b".toList "y".toList
          "\x7b outputs = \x7b self \x7d: 1;\n  inputs = \x7b \x7d;\n\x7d".toList
            none).result.isOk) = true := by
    decide +kernel
  obtain ⟨T, hparse, hok⟩ := Outcome.exists_of_any hcheck
  obtain ⟨out, hout⟩ := Outcome.exists_of_isOk hok
  obtain ⟨f, o, a, s, h⟩ := insertInput_simultaneous hparse hout
  exact ⟨_, T, out, f, o, a, s, rfl, hparse, hout, h⟩

end

end Edit
end FlakeInputs
