import FlakeInputs.Proofs.Edit.Plan
import FlakeInputs.Proofs.Edit.Rooms

/-!
# Places among the tokens

The place of a declaration among the bindings of a manifest is a place between two of its
tokens.  When the declaration stands there and the tokens around it have moved, the bindings
around it are the same as before, apart from spans.
-/

namespace FlakeInputs
namespace Edit

open Grammar Scan
open Token (locate)
open Lookup (startsWith)
open Manifest (inputsName)

/-- The tokens of a manifest are those of its bindings between two braces. -/
theorem exists_tokens {text : Text} {T : Expr} {bs : List Binding} {recursive : Bool}
    (hparse : Expr.parse text = .ok T) (hnode : T.node = .map bs recursive) :
    ∃ all lt opening q closing rt, pieces [] text = .ok all ∧
      locate .start all = lt ++ opening :: (q ++ closing :: rt) ∧
      Derives (.bindings .braceClose) q bs ∧ Braces T recursive lt opening closing rt := by
  obtain ⟨all, hall, hT⟩ := Expr.parse_eq_ok.1 hparse
  obtain ⟨lt, opening, q, closing, rt, htokens, hq, hbraces⟩ := hT.braces hnode
  exact ⟨all, lt, opening, q, closing, rt, hall, htokens, hq, hbraces⟩

/-- The tokens around a place for a binding: `x₁` and `x₂` are those of the bindings around it,
and `f ++ [bar]` and `g` are all those in front of it and behind it. -/
structure Site (place : Placing) (hole : Hole) (x₁ x₂ f : List Token) (bar : Token)
    (g : List Token) : Prop where
  barrier : bar.kind = .braceOpen ∨ bar.kind = .semicolon
  stands : place.At f bar g
  opens : place.Opens f bar
  fills : ∀ {x₁' x₂' k : List Token} {d : KeyValue}, Alike x₁ x₁' → Alike x₂ x₂' →
    Derives .keyValue k d →
      ∃ bs, Derives (.bindings .braceClose) (x₁' ++ (k ++ x₂')) bs ∧ hole.Filled d bs

/-- A binding can stand in the set of another one. -/
theorem fills_within {c : KeyValue} {left right : List Binding} {recursive : Bool}
    {l q₁ q₂ r : List Token} {opening : Token} (haround : SetAround c recursive l opening r)
    (hq₁ : Derives (.bindings .braceClose) q₁ left) (hq₂ : Derives (.bindings .braceClose) q₂ right)
    {x₁' x₂' k : List Token} {d : KeyValue} (hx₁ : Alike (l ++ opening :: q₁) x₁')
    (hx₂ : Alike (q₂ ++ r) x₂') (hk : Derives .keyValue k d) :
    ∃ bs, Derives (.bindings .braceClose) (x₁' ++ (k ++ x₂')) bs ∧
      (Hole.within c left right recursive).Filled d bs := by
  rw [← List.singleton_append, ← List.append_assoc] at hx₁
  obtain ⟨l', q₁', rfl, hl', hq₁'⟩ := hx₁.exists_append
  obtain ⟨q₂', r', rfl, hq₂', hr'⟩ := hx₂.exists_append
  obtain ⟨left', hleft', hkin⟩ := hq₁.bindings_kin hq₁'
  obtain ⟨right', hright', hkin'⟩ := hq₂.bindings_kin hq₂'
  obtain ⟨c', hc', hpath, hnode⟩ := haround.derives hl' hr'
    (hleft'.bindings_append (.bindings (.keyValueBinding hk) hright'))
  exact ⟨_, by simpa using hc', c', left', right', rfl, hpath, hnode, shapes_of_kin hkin,
    shapes_of_kin hkin'⟩

section
variable {b : KeyValue} {place : Placing} {hole : Hole} {left right : List Binding}

/-- The tokens around the place of a declaration. -/
theorem Meets.exists_site {a x c : List Token} {bar₀ : Token} (h : Meets b place hole left right)
    (hplace : hole.IsPlace) (hbar₀ : bar₀.kind = .braceOpen ∨ bar₀.kind = .semicolon)
    (ha : Derives (.bindings .braceClose) a left)
    (hx : Derives (.bindings .braceClose) x hole.bindings)
    (hc : Derives (.bindings .braceClose) c right) (l z : List Token) :
    ∃ x₁ x₂ f bar, x = x₁ ++ x₂ ∧ l ++ bar₀ :: (a ++ x₁) = f ++ [bar] ∧
      Site place hole x₁ x₂ f bar (x₂ ++ (c ++ z)) := by
  cases hole with
  | between =>
    obtain rfl : x = [] := by
      cases hx with
      | noBinding => rfl
    obtain ⟨f, bar, hf, hbetween⟩ := ha.between hc hbar₀ l z
    refine ⟨[], [], f, bar, rfl, by simpa using hf, hbetween.barrier, ?_, ?_, ?_⟩
    · cases h with
      | above => exact hbetween.above _ _ rfl
      | below => exact hbetween.below _ _ rfl
    · cases h <;> trivial
    · intro x₁' x₂' k d hx₁' hx₂' hk
      obtain rfl := hx₁'.eq_nil
      obtain rfl := hx₂'.eq_nil
      have hd : Derives (.bindings .braceClose) (k ++ []) [.keyValue d] :=
        .bindings (.keyValueBinding hk) .noBinding
      exact ⟨_, by simpa using hd, rfl⟩
  | within e left' right' recursive =>
    obtain ⟨lx, opening, q, rx, rfl, hq, haround⟩ := hx.set_around hplace
    obtain ⟨q₁, q₂, rfl, hq₁, hq₂⟩ := hq.bindings_split
    obtain ⟨f, bar, hf, hbetween⟩ :=
      hq₁.between hq₂ (.inl haround.opening_kind) (l ++ bar₀ :: (a ++ lx)) (rx ++ (c ++ z))
    refine ⟨lx ++ opening :: q₁, q₂ ++ rx, f, bar, by simp, by simpa using hf, hbetween.barrier, ?_,
      ?_, fun hx₁' hx₂' hk => fills_within haround hq₁ hq₂ hx₁' hx₂' hk⟩
    · rw [List.append_assoc]
      cases h with
      | first => exact hbetween.above _ _ rfl
      | last => exact hbetween.below _ _ rfl
      | nested => exact hbetween.below _ _ rfl
      | empty =>
        cases hq₁ with
        | noBinding =>
        cases hq₂ with
        | noBinding =>
        obtain ⟨t, l₁, first, l₂, closing, r', hlx, rfl, hclosing, hstart, hspan, -⟩ :=
          haround.spans
        obtain ⟨rfl, hbar⟩ := List.append_inj' hf rfl
        obtain rfl : opening = bar := by simpa using hbar
        refine ⟨l ++ bar₀ :: a, t, l₁, first, l₂, closing, r' ++ (c ++ z), ?_, rfl,
          haround.opening_kind, hclosing, hstart, hspan⟩
        simp [← hlx]
    · cases h with
      | first => trivial
      | last => trivial
      | nested => trivial
      | empty =>
        cases hq₁ with
        | noBinding =>
        obtain ⟨rfl, hbar⟩ := List.append_inj' hf rfl
        obtain rfl : opening = bar := by simpa using hbar
        obtain ⟨t, l₁, first, l₂, closing, r', hlx, -, -, -, hspan, hset, hrec⟩ := haround.spans
        cases recursive with
        | false => exact .inl (by rw [hspan, hset rfl])
        | true =>
          obtain ⟨hword, rfl⟩ := hrec rfl
          obtain rfl : lx = t :: (l₁ ++ [first]) :=
            List.append_inj_left' (hlx.trans (by simp)) rfl
          exact .inr ⟨hplace, l ++ bar₀ :: (a ++ t :: l₁), first, by simp, hword, by rw [hspan]⟩

/-! ## The order of the edits -/

/-- The bindings in front of the outputs do not matter to a place behind them. -/
theorem Meets.trim_left {before : List Binding} {o : KeyValue}
    (h : Meets b place hole (before ++ Binding.keyValue o :: left) right)
    (ho : startsWith inputsName o = false) : Meets b place hole left right := by
  generalize hsplit : before ++ Binding.keyValue o :: left = all at h
  cases h with
  | @below all _ hb =>
    rcases List.eq_nil_or_concat left with rfl | ⟨left', y, rfl⟩
    · obtain ⟨-, hlast⟩ := List.append_inj' hsplit rfl
      obtain rfl : o = b := by simpa using hlast
      rw [hb] at ho
      exact Bool.noConfusion ho
    · rw [List.concat_eq_append, ← List.cons_append, ← List.append_assoc] at hsplit
      obtain ⟨-, hlast⟩ := List.append_inj' hsplit rfl
      obtain rfl : y = .keyValue b := by simpa using hlast
      rw [List.concat_eq_append]
      exact .below hb
  | above => exact .above
  | first => exact .first
  | last => exact .last
  | empty => exact .empty
  | nested => exact .nested

/-- The bindings from the outputs on do not matter to a place in front of them. -/
theorem Meets.trim_right {behind : List Binding} {o : KeyValue}
    (h : Meets b place hole left (right ++ Binding.keyValue o :: behind))
    (hb : hole = .between → startsWith inputsName b = true)
    (ho : startsWith inputsName o = false) : Meets b place hole left right := by
  generalize hsplit : right ++ Binding.keyValue o :: behind = all at h
  cases h with
  | above =>
    cases right with
    | nil =>
      obtain ⟨heq, -⟩ := List.cons.inj hsplit
      rw [Binding.keyValue.inj heq, hb rfl] at ho
      exact Bool.noConfusion ho
    | cons y right =>
      obtain ⟨rfl, -⟩ := List.cons.inj hsplit
      exact .above
  | below hstarts => exact .below hstarts
  | first => exact .first
  | last => exact .last
  | empty => exact .empty
  | nested => exact .nested

/-- A binding starts with one of some tokens. -/
def Starts (p : List Token) (b : KeyValue) : Prop :=
  ∃ p₁ t p₂, p = p₁ ++ t :: p₂ ∧ t.kind ≠ .text ∧ b.span.start = t.span.start

theorem Starts.within {p : List Token} (h : Starts p b) (l r : List Token) :
    Starts (l ++ (p ++ r)) b := by
  obtain ⟨p₁, t, p₂, rfl, h⟩ := h
  exact ⟨l ++ p₁, t, p₂ ++ r, by simp, h⟩

theorem starts_of_mem {p : List Token} {bs : List Binding}
    (h : Derives (.bindings .braceClose) p bs) (hb : .keyValue b ∈ bs) : Starts p b := by
  obtain ⟨before, behind, rfl⟩ := List.append_of_mem hb
  obtain ⟨q, k, r, rfl, -, hk, -⟩ := h.bindings_at
  obtain ⟨t, k', semicolon, rfl, hkind, -, hspan⟩ := hk.binding_keyValue.keyValue_ends
  exact ⟨q, t, (k' ++ [semicolon]) ++ r, by simp, hkind, by rw [hspan]⟩

/-- The bindings of a set start among the tokens of the binding that has the set. -/
theorem starts_child {x : List Token} {c child : KeyValue} {children : List Binding}
    {recursive : Bool} (hx : Derives (.bindings .braceClose) x [.keyValue c])
    (hnode : c.value.node = .map children recursive) (hchild : .keyValue child ∈ children) :
    Starts x child := by
  obtain ⟨l, opening, q, r, rfl, hq, -⟩ := hx.set_around hnode
  simpa using (starts_of_mem hq hchild).within (l ++ [opening]) r

theorem Meets.starts {a x c : List Token} (h : Meets b place hole left right)
    (hplace : hole.IsPlace) (ha : Derives (.bindings .braceClose) a left)
    (hx : Derives (.bindings .braceClose) x hole.bindings)
    (hc : Derives (.bindings .braceClose) c right) : Starts (a ++ (x ++ c)) b := by
  have hown : .keyValue b ∈ hole.bindings → Starts (a ++ (x ++ c)) b :=
    fun hb => (starts_of_mem hx hb).within a c
  cases h with
  | above => simpa using (starts_of_mem hc List.mem_cons_self).within (a ++ x) []
  | below => simpa using (starts_of_mem ha (by simp)).within [] (x ++ c)
  | first => exact hown List.mem_cons_self
  | last => exact hown List.mem_cons_self
  | empty => exact hown List.mem_cons_self
  | nested => exact (starts_child hx hplace (by simp)).within a c

/-- A binding starts before another one if its tokens stand before those of the other. -/
theorem Starts.lt {text : Text} {all : List Piece} {l p m q r : List Token} {o : KeyValue}
    (hb : Starts p b) (ho : Starts q o) (hall : pieces [] text = .ok all)
    (htokens : locate .start all = l ++ (p ++ (m ++ (q ++ r)))) :
    b.span.start < o.span.start := by
  obtain ⟨p₁, t, p₂, rfl, hkind, hbstart⟩ := hb
  obtain ⟨q₁, u, q₂, rfl, -, hostart⟩ := ho
  have hsplit : locate .start all = (l ++ p₁) ++ t :: ((p₂ ++ (m ++ q₁)) ++ u :: (q₂ ++ r)) := by
    rw [htokens]
    simp
  obtain ⟨ps, qs, rfl, -, htspan, hqs⟩ := Token.locate_eq_append hsplit
  obtain ⟨ps', qs', rfl, -, huspan, -⟩ := Token.locate_eq_append hqs
  obtain ⟨d, -, hhead⟩ := exists_head? hall (List.mem_append_right _ List.mem_cons_self) hkind
  have hlexeme : t.lexeme ++ textOf ps' ≠ [] := by
    intro hnil
    have hd := hhead []
    rw [(List.append_eq_nil_iff.1 hnil).1] at hd
    simp at hd
  have hlt := Position.lt_after t.span.start hlexeme
  rw [Position.after_append] at hlt
  rw [hbstart, hostart, huspan]
  rw [htspan] at hlt ⊢
  exact hlt

end

end Edit
end FlakeInputs
