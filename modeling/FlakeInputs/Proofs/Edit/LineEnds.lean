import FlakeInputs.Proofs.Edit.Simultaneous
import Mathlib.Data.List.Chain

/-!
# How lines end

An edit ends its lines as the text does.  Below a binding, a line ends as the line of the binding
does.  Elsewhere a line ends in both characters if that occurs anywhere in the text, and then it
matters that there is a line to look at: a binding that begins its line stands behind a brace, and
so below another line.  Nothing is ever put between the two characters that end a line.
-/

namespace FlakeInputs

/-! ## Newline characters behind carriage returns -/

namespace Text

/-- Every newline character of the text stands behind a carriage return. -/
def Paired (t : Text) : Prop :=
  t.head? ≠ some '\n' ∧ t.IsChain fun c d => d = '\n' → c = '\r'

instance (t : Text) : Decidable t.Paired :=
  inferInstanceAs (Decidable (_ ∧ _))

/-- Nothing in the text ends a line. -/
def Unbroken (t : Text) : Prop :=
  ∀ c ∈ t, c ≠ '\r' ∧ c ≠ '\n'

instance (t : Text) : Decidable t.Unbroken :=
  List.decidableBAll (fun c => c ≠ '\r' ∧ c ≠ '\n') t

theorem unbroken_cons {c : Char} {t : Text} :
    Unbroken (c :: t) ↔ (c ≠ '\r' ∧ c ≠ '\n') ∧ t.Unbroken :=
  List.forall_mem_cons

theorem unbroken_nil : Unbroken [] := by decide

variable {u v t : Text}

theorem paired_append (hu : u.Paired) (hv : v.Paired) : (u ++ v).Paired := by
  refine ⟨?_, List.isChain_append.2 ⟨hu.2, hv.2, ?_⟩⟩
  · cases u with
    | nil => exact hv.1
    | cons c u => exact hu.1
  · rintro c - d hd rfl
    exact absurd hd hv.1

theorem Paired.left (h : (u ++ v).Paired) : u.Paired := by
  refine ⟨fun hu => h.1 ?_, (List.isChain_append.1 h.2).1⟩
  rw [List.head?_append, hu]
  rfl

theorem Paired.right (h : (u ++ v).Paired) (hv : v.head? ≠ some '\n') : v.Paired :=
  ⟨hv, (List.isChain_append.1 h.2).2.1⟩

/-- A newline character stands only behind a carriage return. -/
theorem Paired.head?_ne {c : Char} (h : (u ++ v).Paired) (hlast : u.getLast? = some c)
    (hc : c ≠ '\r') : v.head? ≠ some '\n' := by
  intro hv
  obtain ⟨-, -, hseam⟩ := List.isChain_append.1 h.2
  exact hc (hseam c hlast '\n' hv rfl)

theorem Paired.head?_drop_ne {c : Char} (h : (u ++ c :: v).Paired) (hc : c ≠ '\r') :
    ((u ++ c :: v).drop (u.length + 1)).head? ≠ some '\n' := by
  rw [List.append_cons] at h ⊢
  rw [List.drop_left' (by simp)]
  exact h.head?_ne List.getLast?_concat hc

theorem Paired.getLast?_eq (h : (u ++ '\n' :: v).Paired) : u.getLast? = some '\r' := by
  cases hu : u.getLast? with
  | none =>
    obtain rfl := List.getLast?_eq_none_iff.1 hu
    exact absurd rfl h.1
  | some c =>
    obtain ⟨-, -, hseam⟩ := List.isChain_append.1 h.2
    rw [hseam c hu '\n' rfl rfl]

theorem Unbroken.append (hu : u.Unbroken) (hv : v.Unbroken) : (u ++ v).Unbroken := by
  intro c hc
  rcases List.mem_append.1 hc with hc | hc
  · exact hu c hc
  · exact hv c hc

theorem Unbroken.paired (h : t.Unbroken) : t.Paired := by
  refine ⟨fun ht => (h _ (List.mem_of_head? ht)).2 rfl, ?_⟩
  exact (List.pairwise_of_forall_mem_list fun c _ d hd hline => absurd hline (h d hd).2).isChain

/-- The text ends its lines as another one does. -/
structure EndsAs (t text : Text) : Prop where
  paired : text.Paired → t.Paired
  bare : '\r' ∉ text → '\r' ∉ t

theorem EndsAs.refl (t : Text) : t.EndsAs t :=
  ⟨id, id⟩

theorem EndsAs.trans {text : Text} (ht : t.EndsAs v) (hv : v.EndsAs text) : t.EndsAs text :=
  ⟨fun h => ht.paired (hv.paired h), fun h => ht.bare (hv.bare h)⟩

theorem EndsAs.append {text : Text} (hu : u.EndsAs text) (hv : v.EndsAs text) :
    (u ++ v).EndsAs text where
  paired h := paired_append (hu.paired h) (hv.paired h)
  bare h := by simp [hu.bare h, hv.bare h]

theorem Unbroken.endsAs (h : t.Unbroken) (text : Text) : t.EndsAs text :=
  ⟨fun _ => h.paired, fun _ hc => (h _ hc).1 rfl⟩

/-- A stretch of a text can be exchanged for a text that ends its lines as that one does, unless a
newline character that follows would lose its carriage return. -/
theorem EndsAs.exchange {x y : Text} (hy : y.EndsAs (u ++ (x ++ v)))
    (hv : (u ++ (x ++ v)).Paired → v.head? ≠ some '\n') :
    (u ++ (y ++ v)).EndsAs (u ++ (x ++ v)) where
  paired h := by
    have hback : (u ++ x ++ v).Paired := by rwa [List.append_assoc]
    exact paired_append h.left (paired_append (hy.paired h) (hback.right (hv h)))
  bare h := by
    have hnew := hy.bare h
    simp only [List.mem_append, not_or] at h ⊢
    exact ⟨h.1, hnew, h.2.2⟩

/-! ## The ends of new lines -/

theorem occurs_append (c d : Char) (u v : Text) : occurs [c, d] (u ++ c :: d :: v) = true := by
  induction u with
  | nil => simp [occurs, List.isPrefixOf]
  | cons x u ih => rw [List.cons_append, occurs, ih, Bool.or_true]

/-- If lines end in both characters, then so do new lines. -/
theorem newline_endsAs (h : '\n' ∈ t) : t.newline.EndsAs t where
  paired ht := by
    obtain ⟨u, v, rfl⟩ := List.append_of_mem h
    obtain ⟨w, rfl⟩ := List.getLast?_eq_some_iff.1 ht.getLast?_eq
    have hoccurs := occurs_append '\r' '\n' w v
    rw [newline, List.append_assoc, List.singleton_append, if_pos hoccurs]
    decide
  bare ht := by
    rw [newline, Edit.occurs_of_not_mem ht]
    decide

/-- The text in front of an indentation is that of the lines above. -/
theorem exists_of_indentation {i : Text} (h : u.indentation? u.length = some i) :
    ∃ w, u = w ++ i ∧ (∀ c ∈ i, isIndentChar c = true) ∧ (w = [] ∨ w.getLast? = some '\n') := by
  have hsplit : u = (u.reverse.dropWhile (· != '\n')).reverse ++
      (u.reverse.takeWhile (· != '\n')).reverse := by
    rw [← List.reverse_append, List.takeWhile_append_dropWhile, List.reverse_reverse]
  have hline : u.slice (u.lineStart u.length) u.length =
      (u.reverse.takeWhile (· != '\n')).reverse := by
    have hlength := congrArg List.length hsplit
    simp only [List.length_append, List.length_reverse] at hlength
    rw [slice, lineStart, List.take_length]
    refine (congrArg (List.drop _) hsplit).trans (List.drop_left' ?_)
    rw [List.length_reverse]
    omega
  simp only [indentation?, hline] at h
  split at h
  · next hall =>
    obtain rfl := Option.some.inj h
    refine ⟨_, hsplit, List.all_eq_true.1 hall, ?_⟩
    cases hrest : u.reverse.dropWhile (· != '\n') with
    | nil => exact .inl rfl
    | cons c w =>
      have hc := List.head?_dropWhile_not (· != '\n') u.reverse
      rw [hrest] at hc
      exact .inr (by simpa using hc)
  · cases h

theorem unbroken_of_indentation {i : Text} (h : u.indentation? u.length = some i) :
    i.Unbroken := by
  obtain ⟨-, -, hi, -⟩ := exists_of_indentation h
  intro c hc
  have hc' := hi c hc
  simp only [isIndentChar, Bool.or_eq_true, beq_iff_eq] at hc'
  rcases hc' with rfl | rfl <;> decide

/-- A line with something in front of it is not the first one, if it is indented. -/
theorem newline_mem_of_indentation {i : Text} {c : Char}
    (h : u.indentation? u.length = some i) (hc : c ∈ u) (hchar : isIndentChar c = false) :
    '\n' ∈ u := by
  obtain ⟨w, rfl, hi, rfl | hw⟩ := exists_of_indentation h
  · rw [hi c hc] at hchar
    exact Bool.noConfusion hchar
  · exact List.mem_append_left _ (List.mem_of_getLast? hw)

end Text

namespace Edit

open Grammar Scan
open Text
open Token (locate)
open Lookup (startsWith)
open Manifest (inputsName urlPath)

/-! ## Declarations on one line -/

section
variable {name url t : Text}

theorem unbroken_escape (h : t.Unbroken) : (escape t).Unbroken := by
  fun_induction escape t <;> simp_all [unbroken_cons]

theorem unbroken_escapeIndented (h : t.Unbroken) : (escapeIndented t).Unbroken := by
  fun_induction escapeIndented t <;> simp_all [unbroken_cons]

theorem Style.unbroken_escape (style : Style) (h : t.Unbroken) : (style.escape t).Unbroken := by
  cases style with
  | quoted => exact Edit.unbroken_escape h
  | indented => exact unbroken_escapeIndented h

theorem unbroken_stringLiteral (h : t.Unbroken) : (stringLiteral t).Unbroken :=
  unbroken_cons.2 ⟨by decide, (unbroken_escape h).append (by decide)⟩

theorem unbroken_attrName (h : name.Unbroken) : (attrName name).Unbroken := by
  unfold attrName
  split
  · exact h
  · exact unbroken_stringLiteral h

theorem unbroken_declaration (hname : name.Unbroken) (hurl : url.Unbroken) (qualified : Bool) :
    (declaration name url qualified).Unbroken := by
  have hqualifier : (if qualified then "inputs.".toList else [] : Text).Unbroken := by
    cases qualified <;> decide
  exact (((hqualifier.append (unbroken_attrName hname)).append (by decide)).append
    (unbroken_stringLiteral hurl)).append (by decide)

end

/-! ## Cuts between lines -/

theorem ne_of_isInk {c d : Char} (hc : isInk c = true) (hd : isInk d = false) : c ≠ d := by
  rintro rfl
  rw [hd] at hc
  exact Bool.noConfusion hc

/-- What is written around a declaration at a cut ends lines as the text does, and no newline
character behind the cut loses its carriage return. -/
structure Cut.Suits (c : Cut) (text : Text) : Prop where
  lead : c.lead.EndsAs text
  trail : c.trail.EndsAs text
  apart : text.Paired → (text.drop c.stop).head? ≠ some '\n'

theorem Cuts.endsAs {place : Placing} {text declaration out : Text} {c : Cut}
    (h : Cuts place text c) (hsuits : c.Suits text) (hdeclaration : declaration.Unbroken)
    (hout : place.put text declaration = .ok out) : out.EndsAs text := by
  rw [h, splice] at hout
  split at hout
  · next hrange =>
    obtain rfl := Except.ok.inj hout
    have htake : text.take c.start ++ text.slice c.start c.stop = text.take c.stop := by
      have horder : c.start ≤ c.stop := by omega
      have hsplit := List.take_append_drop c.start (text.take c.stop)
      rwa [List.take_take, Nat.min_eq_left horder] at hsplit
    have htext : text.take c.start ++ (text.slice c.start c.stop ++ text.drop c.stop) = text := by
      rw [← List.append_assoc, htake, List.take_append_drop]
    have hadded := hsuits.lead.append ((hdeclaration.endsAs text).append hsuits.trail)
    have hexchange := @EndsAs.exchange (text.take c.start) (text.drop c.stop)
      (text.slice c.start c.stop) (c.lead ++ (declaration ++ c.trail))
    rw [htext] at hexchange
    simpa using hexchange hadded hsuits.apart
  · cases hout

theorem suits_above {u r : Text} {d : Char} (hd : isInk d = true) (hu : '{' ∈ u)
    (blankLine : Bool) :
    (cutAbove u (u ++ d :: r).newline blankLine).Suits (u ++ d :: r) := by
  have hdrop : ((u ++ d :: r).drop u.length).head? ≠ some '\n' := by
    rw [List.drop_left, List.head?_cons, Ne, Option.some.injEq]
    exact ne_of_isInk hd (by decide)
  unfold cutAbove
  cases hi : u.indentation? u.length with
  | none => exact ⟨unbroken_nil.endsAs _, (by decide : Unbroken [' ']).endsAs _, fun _ => hdrop⟩
  | some i =>
    refine ⟨unbroken_nil.endsAs _, ?_, fun _ => hdrop⟩
    have hline := newline_mem_of_indentation hi hu (by decide)
    have hnew : (u ++ d :: r).newline.EndsAs (u ++ d :: r) :=
      newline_endsAs (List.mem_append_left _ hline)
    have hindent := (unbroken_of_indentation hi).endsAs (u ++ d :: r)
    cases blankLine with
    | false => exact hnew.append hindent
    | true => exact (hnew.append hnew).append hindent

/-- A line that starts at the end of another one ends as that one does. -/
theorem suits_lineEnd {line i r : Text} (hi : i.Unbroken) :
    (if line.getLast? = some '\r' then
        ⟨line.length - 1, line.length - 1, '\r' :: '\n' :: i, []⟩
      else ⟨line.length, line.length, '\n' :: i, []⟩ : Cut).Suits (line ++ '\n' :: r) := by
  split
  · next hlast =>
    -- The new line takes a carriage return of its own along and leaves the old one behind.
    obtain ⟨w, rfl⟩ := List.getLast?_eq_some_iff.1 hlast
    refine ⟨⟨fun _ => ?_, fun h => absurd (by simp) h⟩, unbroken_nil.endsAs _, fun _ => ?_⟩
    · exact paired_append (u := ['\r', '\n']) (by decide) hi.paired
    · simp
  · next hlast =>
    -- The newline character behind the cut stands by itself.
    refine ⟨⟨fun h => absurd h.getLast?_eq hlast, fun _ hc => ?_⟩, unbroken_nil.endsAs _,
      fun h => absurd h.getLast?_eq hlast⟩
    rcases List.mem_cons.1 hc with hc | hc
    · exact absurd hc (by decide)
    · exact (hi _ hc).1 rfl

theorem suits_below {y r : Text} {d : Char} (u : Text) (hd : isInk d = true) (hr : Decided r) :
    (cutBelow u (y ++ [d]) (r.takeWhile (· != '\n'))).Suits (u ++ (y ++ [d] ++ r)) := by
  rw [← List.append_assoc u (y ++ [d]) r]
  have hbeside : (⟨(u ++ (y ++ [d])).length, (u ++ (y ++ [d])).length, [' '], []⟩ : Cut).Suits
      (u ++ (y ++ [d]) ++ r) := by
    refine ⟨(by decide : Unbroken [' ']).endsAs _, unbroken_nil.endsAs _, fun h => ?_⟩
    rw [List.drop_left]
    exact h.head?_ne (c := d) (by simp) (ne_of_isInk hd (by decide))
  rcases hr.line_cases with ⟨a, b, rfl, hline⟩ | hline
  · have hline' : (a ++ '\n' :: b).takeWhile (· != '\n') = a := by simpa using hline []
    rw [hline']
    unfold cutBelow
    split
    · next i hi _ =>
      rw [← List.append_assoc _ a]
      exact suits_lineEnd (unbroken_of_indentation hi)
    · exact hbeside
  · have hline' := hline []
    rw [List.append_nil] at hline'
    rw [cutBelow_of_not_blank _ _ hline']
    exact hbeside

theorem suits_inside {u k inner r : Text} (hu : '{' ∈ u) :
    (cutInside u (u ++ k) inner (u ++ k ++ '{' :: (inner ++ '}' :: r)).newline).Suits
      (u ++ k ++ '{' :: (inner ++ '}' :: r)) := by
  have hmem : ∀ c ∈ u, c ∈ u ++ k ++ '{' :: (inner ++ '}' :: r) := by
    intro c hc
    simp [hc]
  generalize u ++ k = front at hmem
  have hopened : (front ++ '{' :: (inner ++ '}' :: r)).Paired →
      ((front ++ '{' :: (inner ++ '}' :: r)).drop (front.length + 1)).head? ≠ some '\n' :=
    fun h => h.head?_drop_ne (by decide)
  have hclosed : (front ++ '{' :: (inner ++ '}' :: r)).Paired →
      ((front ++ '{' :: (inner ++ '}' :: r)).drop (front.length + (inner.length + 2))).head? ≠
        some '\n' := by
    have hsplit : front ++ '{' :: (inner ++ '}' :: r) = front ++ '{' :: inner ++ '}' :: r := by simp
    have hlength : front.length + (inner.length + 2) = (front ++ '{' :: inner).length + 1 := by
      simp [Nat.add_assoc]
    rw [hsplit, hlength]
    exact fun h => h.head?_drop_ne (by decide)
  generalize front ++ '{' :: (inner ++ '}' :: r) = text at hmem hopened hclosed
  unfold cutInside
  cases hi : u.indentation? u.length with
  | none =>
    cases inner.isBlank with
    | false => exact ⟨(by decide : Unbroken [' ']).endsAs _, unbroken_nil.endsAs _, hopened⟩
    | true =>
      exact ⟨(by decide : Unbroken ['{', ' ']).endsAs _, (by decide : Unbroken [' ', '}']).endsAs _,
        hclosed⟩
  | some i =>
    have hline := hmem _ (newline_mem_of_indentation hi hu (by decide))
    have hindent := (newline_endsAs hline).append ((unbroken_of_indentation hi).endsAs text)
    have hnested := hindent.append ((by decide : Unbroken nestedIndent).endsAs text)
    cases inner.isBlank with
    | false => exact ⟨hnested, unbroken_nil.endsAs _, hopened⟩
    | true =>
      exact ⟨((by decide : Unbroken ['{']).endsAs text).append hnested,
        hindent.append ((by decide : Unbroken ['}']).endsAs text), hclosed⟩

/-! ## Edits of a text -/

/-- A brace opens in front of a position of the text. -/
def Led (text : Text) (p : Position) : Prop :=
  ∃ u v, text = u ++ v ∧ '{' ∈ u ∧ p = Position.start.after u

theorem Led.mem {text u v : Text} (h : Led text (Position.start.after u)) (htext : text = u ++ v) :
    '{' ∈ u := by
  obtain ⟨u', v', htext', hmem, hstart⟩ := h
  have hoffset := offsetOf_after u v
  rw [hstart, ← htext, htext', offsetOf_after, Except.ok.injEq] at hoffset
  obtain ⟨rfl, -⟩ := List.append_inj (htext'.symm.trans htext) hoffset
  exact hmem

/-- Where the binding starts that a place is next to. -/
def Placing.start : Placing → Position
  | above start _ => start
  | below span => span.start
  | inside binding => binding.span.start

/-- A place among the tokens of a stretch keeps how lines end, whatever stands behind it. -/
theorem Placing.Among.endsAs {place : Placing} {text declaration r out : Text}
    {ps zs rs : List Piece} (h : place.Among text ps zs rs) (hled : Led text place.start)
    (hdeclaration : declaration.Unbroken)
    (hout : place.put (textOf ps ++ (textOf zs ++ r)) declaration = .ok out) :
    out.EndsAs (textOf ps ++ (textOf zs ++ r)) := by
  have htext := h.text_eq
  cases place with
  | above start blankLine =>
    obtain ⟨u, d, s, hzs, hd, rfl⟩ := h.rests
    rw [hzs, List.append_assoc u, ← List.append_assoc] at htext hout ⊢
    exact (cuts_above _ _ blankLine).endsAs (suits_above hd (hled.mem htext) blankLine)
      hdeclaration hout
  | below span =>
    obtain ⟨u, y, d, s, hzs, hd, hs, rfl⟩ := h.rests
    have hsplit : textOf ps ++ (textOf zs ++ r) = textOf ps ++ u ++ (y ++ [d] ++ (s ++ r)) := by
      simp [hzs]
    rw [hsplit] at hout ⊢
    exact (cuts_below _ _ _).endsAs (suits_below _ hd (hs.append r)) hdeclaration hout
  | inside binding =>
    obtain ⟨u, k, y, s, hzs, hstart, hset, hy⟩ := h.lies
    obtain ⟨y, inner, rfl, hne⟩ := List.eq_append_cons_of_mem hy
    rw [Placing.start, hstart] at hled
    rw [hzs, List.append_assoc u, ← List.append_assoc] at htext
    have hset' : binding.value.span = ⟨Position.start.after (textOf ps ++ u ++ k),
        (Position.start.after (textOf ps ++ u ++ k)).after (y ++ '{' :: (inner ++ ['}']))⟩ := by
      simpa using hset
    have hcuts := cuts_inside (r := s ++ r) hne hstart hset'
    have hsplit : textOf ps ++ (textOf zs ++ r) =
        textOf ps ++ u ++ (k ++ y) ++ '{' :: (inner ++ '}' :: (s ++ r)) := by
      simp [hzs]
    have hsplit' : textOf ps ++ u ++ (k ++ (y ++ '{' :: (inner ++ '}' :: (s ++ r)))) =
        textOf ps ++ u ++ (k ++ y) ++ '{' :: (inner ++ '}' :: (s ++ r)) := by
      simp
    rw [hsplit', List.append_assoc _ k y] at hcuts
    rw [hsplit] at hout ⊢
    exact hcuts.endsAs (suits_inside (hled.mem htext)) hdeclaration hout

theorem Grafted.endsAs {x x' : Text} (h : Grafted x x') (p z : Text) :
    (p ++ (x' ++ z)).EndsAs (p ++ (x ++ z)) := by
  obtain ⟨u, y, v, rfl, rfl, hreturn, hline, hseam⟩ := h
  by_cases hy : y = []
  · rw [hy, List.nil_append]
    exact .refl _
  have hnew : y.Unbroken := fun c hc => ⟨fun h => hreturn (h ▸ hc), fun h => hline (h ▸ hc)⟩
  have hsplit : p ++ (u ++ v ++ z) = p ++ u ++ ([] ++ (v ++ z)) := by simp
  have hsplit' : p ++ (u ++ (y ++ v) ++ z) = p ++ u ++ (y ++ (v ++ z)) := by simp
  rw [hsplit, hsplit']
  refine (hnew.endsAs _).exchange fun h => ?_
  rcases hseam.resolve_left hy with ⟨d, hd, hlast⟩ | ⟨d, hd, hhead⟩
  · exact h.head?_ne (by simp [List.getLast?_append, hlast]) hd
  · simpa [List.head?_append, hhead] using hd

/-! ## Places behind a brace -/

section
variable {text name url declaration out : Text} {T : Expr} {b o : KeyValue} {place : Placing}
  {hole : Hole} {left right middle : List Binding} {recursive : Bool}

/-- A place is next to a binding of the manifest, or of a set in it. -/
theorem Meets.exists_starts {a x c : List Token} (h : Meets b place hole left right)
    (hplace : hole.IsPlace) (ha : Derives (.bindings .braceClose) a left)
    (hx : Derives (.bindings .braceClose) x hole.bindings)
    (hc : Derives (.bindings .braceClose) c right) :
    ∃ d, place.start = d.span.start ∧ Starts (a ++ (x ++ c)) d := by
  have hstarts := h.starts hplace ha hx hc
  cases h with
  | above => exact ⟨b, rfl, hstarts⟩
  | below => exact ⟨b, rfl, hstarts⟩
  | first => exact ⟨_, rfl, (starts_child hx hplace List.mem_cons_self).within a c⟩
  | last => exact ⟨_, rfl, (starts_child hx hplace (by simp)).within a c⟩
  | empty => exact ⟨b, rfl, hstarts⟩
  | nested => exact ⟨b, rfl, hstarts⟩

theorem Meets.led (h : Meets b place hole left right) (hparse : Expr.parse text = .ok T)
    (hnode : T.node = .map (left ++ (hole.bindings ++ right)) recursive) (hplace : hole.IsPlace) :
    Led text place.start := by
  obtain ⟨all, lt, opening, q, closing, rt, hall, hts, hq, hbraces⟩ := exists_tokens hparse hnode
  obtain ⟨a, q, rfl, ha, hq⟩ := hq.bindings_split
  obtain ⟨x, c, rfl, hx, hc⟩ := hq.bindings_split
  obtain ⟨d, hstart, p₁, t, p₂, hp, -, ht⟩ := h.exists_starts hplace ha hx hc
  have htokens : locate .start all = lt ++ opening :: (p₁ ++ t :: (p₂ ++ closing :: rt)) := by
    rw [hts, hp]
    simp
  obtain ⟨ps, qs, rfl, -, hopening, hqs⟩ := Token.locate_eq_append htokens
  obtain ⟨ps', qs, rfl, -, hspan, -⟩ := Token.locate_eq_append hqs
  have hbrace : opening.lexeme = ['{'] :=
    (hasBraces_locate hall opening (by rw [htokens]; simp)).1 hbraces.opening_kind
  refine ⟨textOf (ps ++ Piece.token opening.kind opening.lexeme :: ps'),
    textOf (.token t.kind t.lexeme :: qs), ?_, ?_, ?_⟩
  · rw [← textOf_pieces hall, ← textOf_append]
    simp
  · simp [hbrace]
  · rw [hstart, ht, hspan, hopening]
    simp

theorem endsAs_ahead (hparse : Expr.parse text = .ok T)
    (hnode : T.node =
      .map (left ++ (hole.bindings ++ (middle ++ Binding.keyValue o :: right))) recursive)
    (hplace : hole.IsPlace)
    (hmeets : Meets b place hole left (middle ++ Binding.keyValue o :: right))
    (hdeclaration : declaration.Unbroken)
    (hout : ((threadOutputs o name text).result >>= fun text => place.put text declaration) =
      .ok out) : out.EndsAs text := by
  obtain ⟨before, ps, xs, zs, r, hgrows, hamong⟩ := exists_ahead name hparse hnode hplace hmeets
  have hled := hmeets.led hparse hnode hplace
  obtain rfl : textOf ps ++ (textOf xs ++ textOf zs) = text := by
    rw [hamong.text_eq]
    simp
  obtain ⟨mid, hmid, hout⟩ := Outcome.bind_eq_ok.1 hout
  obtain ⟨x', hgrafted, hresult⟩ := hgrows.exists_grafted hmid
  obtain rfl := Except.ok.inj ((hresult _).symm.trans hmid)
  -- The stretch in front of the outputs is the same in both texts.
  exact (hamong.endsAs hled hdeclaration hout).trans (hgrafted.endsAs _ _)

theorem endsAs_after (hparse : Expr.parse text = .ok T)
    (hnode : T.node =
      .map ((left ++ Binding.keyValue o :: middle) ++ (hole.bindings ++ right)) recursive)
    (hplace : hole.IsPlace)
    (hmeets : Meets b place hole (left ++ Binding.keyValue o :: middle) right)
    (ho : startsWith inputsName o = false) (hdeclaration : declaration.Unbroken)
    (hout : (place.put text declaration >>= fun text => (threadOutputs o name text).result) =
      .ok out) : out.EndsAs text := by
  obtain ⟨before, ps, xs, zs, r, hgrows, hamong⟩ := exists_after name hparse hnode hplace hmeets ho
  have hled := hmeets.led hparse hnode hplace
  obtain ⟨front, removed, back, lead, trail, hadds⟩ := hamong.lies.exists_adds []
  obtain rfl : textOf (ps ++ xs) ++ (textOf zs ++ []) = text := hamong.text_eq.symm
  obtain ⟨mid, hmid, hout⟩ := Outcome.bind_eq_ok.1 hout
  have hdeclared := hamong.endsAs hled hdeclaration hmid
  -- The stretch of the outputs is the same in both texts.
  rw [hadds.result, Except.ok.injEq, textOf_append, List.append_assoc, List.append_assoc] at hmid
  subst hmid
  obtain ⟨x', hgrafted, hresult⟩ := hgrows.exists_grafted hout
  obtain rfl := Except.ok.inj ((hresult _).symm.trans hout)
  exact (hgrafted.endsAs _ _).trans hdeclared

/-- A declaration of an input keeps how lines end. -/
theorem endsAs_insertInput (hparse : Expr.parse text = .ok T)
    (hnone : T.findFirst (some (urlPath name)) = .ok none) (hname : name.Unbroken)
    (hurl : url.Unbroken) {location? : Option Location}
    (hout : (insertInput T name url text location?).result = .ok out) : out.EndsAs text := by
  refine OfAllEdits.insertInput (P := fun r => ∀ out, r = .ok out → out.EndsAs text)
    ⟨?_, ?_, ?_, ?_⟩ hparse hnone location? out hout
  · rintro e - out ⟨⟩
  · intro b place qualified hole left right recursive hnode hplace hmeets out hout
    obtain ⟨_, -, herror⟩ := Outcome.bind_eq_ok.1 hout
    cases herror
  · intro b o place qualified hole left middle right recursive hnode hplace hmeets out hout
    have hdeclaration := unbroken_declaration hname hurl qualified
    exact endsAs_ahead hparse hnode hplace hmeets hdeclaration hout
  · intro b o place qualified hole left middle right recursive hnode hplace hmeets ho out hout
    have hdeclaration := unbroken_declaration hname hurl qualified
    exact endsAs_after hparse hnode hplace hmeets ho hdeclaration hout

/-! ## Urls that are replaced -/

theorem isInk_of_uri {path : List Text} {x : Text} (hparse : Expr.parse text = .ok T)
    (hfind : T.findFirst (some path) = .ok (some b)) (hnode : b.value.node = .uri x) :
    x ≠ [] ∧ ∀ c ∈ x, isInk c = true := by
  obtain ⟨ps, kind, c, gs, t, qs, ts, rest, hall, -, -, hx, hhead, -⟩ :=
    exists_value_site hparse hfind (by rw [hnode]; rfl)
  obtain ⟨hkind, rfl, -⟩ := uri_of_simple hx hhead hnode
  have hmem : Piece.token t.kind t.lexeme ∈
      ps ++ Piece.token kind [c] :: (gs ++ Piece.token t.kind t.lexeme :: qs) := by
    simp
  exact isInk_of_token hall hmem (by rw [hkind]; decide)

/-- Behind the text of a literal stands the mark that ends it. -/
theorem exists_mark {path : List Text} {style : Style} {span : Span} {x : Text}
    (hparse : Expr.parse text = .ok T) (hfind : T.findFirst (some path) = .ok (some b))
    (hnode : b.value.node = style.node [.text span x]) :
    ∃ p q, text = p ++ (x ++ (style.mark ++ q)) ∧
      span = ⟨Position.start.after p, (Position.start.after p).after x⟩ := by
  obtain ⟨ps, kind, c, gs, t, qs, ts, rest, hall, -, -, hx, hhead, hstart, hstop, hqs, -⟩ :=
    exists_value_site hparse hfind (by rw [hnode]; cases style <;> rfl)
  have hsplit : Scan.pieces [] text =
      .ok ((ps ++ Piece.token kind [c] :: gs) ++ Piece.token t.kind t.lexeme :: qs) := by
    rw [hall]
    simp
  obtain ⟨qs', hpieces, hspan, -⟩ := Style.exists_pieces hsplit hx hhead hnode hqs
  have hmark : t.lexeme = style.mark := (Piece.token.inj (List.cons.inj hpieces).1).2
  refine ⟨textOf (ps ++ Piece.token kind [c] :: gs) ++ style.mark, textOf qs', ?_, ?_⟩
  · rw [← textOf_pieces hall, hpieces]
    simp [Style.pieces]
  · rw [hspan, hstop, hmark, Position.after_append, hstart]

theorem endsAs_replaceValue {path : List Text} (hparse : Expr.parse text = .ok T)
    (hfind : T.findFirst (some path) = .ok (some b)) (hurl : url.Unbroken)
    (hout : replaceValue b.value url text = .ok out) : out.EndsAs text := by
  rcases exists_literal_of_replaceValue hout with ⟨x, hnode⟩ | ⟨style, span, x, hnode⟩
  · obtain ⟨p, q, rfl, hspan, -⟩ := exists_uri_site hparse hfind hnode
    obtain ⟨hne, hink⟩ := isInk_of_uri hparse hfind hnode
    obtain ⟨x, d, rfl⟩ := (List.eq_nil_or_concat x).resolve_left hne
    have hd := hink d (by simp)
    simp only [replaceValue, hnode, hspan, replace_append, Except.ok.injEq] at hout
    subst hout
    refine ((unbroken_stringLiteral hurl).endsAs _).exchange fun h => ?_
    rw [← List.append_assoc] at h
    exact h.head?_ne (c := d) (by simp) (ne_of_isInk hd (by decide))
  · obtain ⟨p, q, rfl, rfl⟩ := exists_mark hparse hfind hnode
    rw [replaceValue_literal hnode, replace_append, Except.ok.injEq] at hout
    subst hout
    refine ((style.unbroken_escape hurl).endsAs _).exchange fun _ => ?_
    cases style <;> exact ne_of_beq_false rfl

/-! ## Adding an input -/

/-- An input is added without a change to how lines end: if every newline character stands behind
a carriage return, then so does every one afterwards, and no carriage return comes into a text
that has none. -/
theorem addInput_line_endings {location? : Option Location}
    (hname : '\r' ∉ name ∧ '\n' ∉ name) (hurl : '\r' ∉ url ∧ '\n' ∉ url)
    (hout : (addInput text name url location?).result = .ok out) :
    (text.Paired → out.Paired) ∧ ('\r' ∉ text → '\r' ∉ out) := by
  have hname' : name.Unbroken := fun c hc => ⟨fun h => hname.1 (h ▸ hc), fun h => hname.2 (h ▸ hc)⟩
  have hurl' : url.Unbroken := fun c hc => ⟨fun h => hurl.1 (h ▸ hc), fun h => hurl.2 (h ▸ hc)⟩
  suffices h : out.EndsAs text from ⟨h.paired, h.bare⟩
  obtain ⟨T, hparse, ⟨b, hfind, hout⟩ | ⟨hfind, hout⟩⟩ := exists_found_of_addInput hout
  · exact endsAs_replaceValue hparse hfind hurl' hout
  · exact endsAs_insertInput hparse hfind hname' hurl' hout

theorem addInput_line_endings_filled : ∃ text out : Text,
    text = "\x7b\r\n  inputs = \x7b \x7d;\r\n  outputs = \x7b self \x7d: 1;\r\n\x7d\r\n".toList ∧
    (addInput text "b".toList "y".toList none).result = .ok out ∧ text.Paired ∧ out.Paired := by
  have hcheck : (addInput
      "\x7b\r\n  inputs = \x7b \x7d;\r\n  outputs = \x7b self \x7d: 1;\r\n\x7d\r\n".toList
      "b".toList "y".toList none).result.isOk = true := by
    decide +kernel
  have hpaired : Text.Paired
      "\x7b\r\n  inputs = \x7b \x7d;\r\n  outputs = \x7b self \x7d: 1;\r\n\x7d\r\n".toList := by
    decide
  obtain ⟨out, hout⟩ := Outcome.exists_of_isOk hcheck
  exact ⟨_, out, rfl, hout, hpaired,
    (addInput_line_endings (by decide) (by decide) hout).1 hpaired⟩

end

end Edit
end FlakeInputs
