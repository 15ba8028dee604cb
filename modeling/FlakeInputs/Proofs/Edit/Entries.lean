import FlakeInputs.Proofs.Edit.Formals
import FlakeInputs.Proofs.Grammar.Endings
import FlakeInputs.Proofs.Grammar.Slices
import FlakeInputs.Proofs.Token.Closing

/-!
# Entries and parameters

The text of a parameter list is cut into entries by counting delimiters, on its own and without
reading the defaults.  Even so there is one entry for each parameter that the grammar finds in the
list, in the same order and at the same place, and one for the ellipsis if there is one.
-/

namespace FlakeInputs

theorem exists_forall₂_append {α β : Type} {r : α → β → Prop} {xs xs' : List α} {ys : List β}
    (h : List.Forall₂ r (xs ++ xs') ys) :
    ∃ zs zs', ys = zs ++ zs' ∧ List.Forall₂ r xs zs ∧ List.Forall₂ r xs' zs' := by
  induction xs generalizing ys with
  | nil => exact ⟨[], ys, rfl, .nil, h⟩
  | cons x xs ih =>
    obtain ⟨y, ys, hxy, hrest, rfl⟩ := List.forall₂_cons_left_iff.1 h
    obtain ⟨zs, zs', rfl, hxs, hxs'⟩ := ih hrest
    exact ⟨y :: zs, zs', rfl, .cons hxy hxs, hxs'⟩

/-- The parameter list that a node is. -/
def Subtree.list? : Subtree → Option ParameterList
  | .head (.destructured list) => some list
  | _ => none

theorem Subtree.eq_of_list? {x : Subtree} {list : ParameterList} (h : x.list? = some list) :
    x = .head (.destructured list) := by
  unfold Subtree.list? at h
  split at h
  · rw [Option.some.inj h]
  · cases h

namespace Edit

open Grammar Scan

/-! ## Tokens of a slice -/

/-- A token of a text, and the same token where it is placed in the slice of the text from the
offset `base` on. -/
structure Stands (text : Text) (base : Nat) (t : Token) (p : Placed) : Prop where
  bare_eq : p.bare = t.bare
  offsets : offsetsOf text t.span = .ok (base + p.start, base + p.stop)

/-- The tokens among some pieces are placed where they stand in the text. -/
theorem stands_place (us ts vs : List Piece) {base offset : Nat}
    (hbase : base + offset = (textOf us).length) :
    List.Forall₂ (Stands (textOf (us ++ (ts ++ vs))) base) (tokensBehind us ts)
      (place offset ts) := by
  induction ts generalizing us offset with
  | nil => exact .nil
  | cons p ts ih =>
    have htext : textOf [p] = p.text := by simp [textOf]
    have hnext : base + (offset + p.text.length) = (textOf (us ++ [p])).length := by
      rw [textOf_append, htext, List.length_append, ← hbase, Nat.add_assoc]
    have hposition : positionBehind (us ++ [p]) = (positionBehind us).after p.text := by
      rw [positionBehind_append, htext]
    have hbehind := ih (us ++ [p]) hnext
    rw [List.append_assoc, List.singleton_append, tokensBehind, hposition] at hbehind
    cases p with
    | gap t => exact hbehind
    | token kind lexeme =>
      have hoffsets := offsetsOf_after (textOf us) lexeme (textOf (ts ++ vs))
      refine .cons ⟨rfl, ?_⟩ hbehind
      rw [textOf_append, List.cons_append, textOf_cons, ← Nat.add_assoc, hbase]
      exact hoffsets

theorem Stands.last {text : Text} {base : Nat} {p : List Token} {ts : List Placed} {z : Token}
    (h : List.Forall₂ (Stands text base) p ts) (hz : p.getLast? = some z) :
    ∃ last, ts.getLast? = some last ∧ Stands text base z last := by
  obtain ⟨front, rfl⟩ := List.getLast?_eq_some_iff.1 hz
  obtain ⟨us, vs, rfl, -, hvs⟩ := exists_forall₂_append h
  obtain ⟨last, vs, hlast, hnil, rfl⟩ := List.forall₂_cons_left_iff.1 hvs
  obtain rfl := List.forall₂_nil_left_iff.1 hnil
  exact ⟨last, List.getLast?_concat, hlast⟩

theorem map_kind_of_stands {text : Text} {base : Nat} {p : List Token} {ts : List Placed}
    (h : List.Forall₂ (Stands text base) p ts) : ts.map Placed.kind = p.map Token.kind := by
  apply map_kind_of_bare
  induction h with
  | nil => rfl
  | cons ht _ ih => rw [List.map_cons, List.map_cons, ht.bare_eq, ih]

/-! ## One entry -/

/-- How an entry of a parameter list that begins at the offset `base` stands to a parameter.  It
has the name of the parameter and starts where that starts.  It stops where the parameter stops, or
behind the parentheses around its default, and nothing but blanks and comments is left in front of
what ends it in the list. -/
structure IsEntry (text : Text) (base : Nat) (x : Parameter) (f : Formal) : Prop where
  name : f.name? = some x.name
  ellipsis : f.ellipsis = false
  offsets : ∃ stop, offsetsOf text x.span = .ok (base + f.start, stop) ∧ stop ≤ base + f.stop ∧
    Closing (text.drop (base + f.stop)) (text.slice stop (base + f.stop))
  behind : ∃ gap rest, text.drop (base + f.stop) = gap ++ rest ∧ Skipped rest gap ∧
    (rest.head? = some ',' ∨ rest.head? = some '}')

/-- Tokens whose kind has one spelling are spelled that way. -/
def AreSpelled (ts : List Token) : Prop :=
  ∀ t ∈ ts, isOpen t.kind = false → t.lexeme = t.kind.name.toList

section
variable {text : Text} {base offset : Nat} {glued : Bool}

/-- The text from the end of the span of a parameter to the end of its last token. -/
theorem exists_closing {p rest : List Token} {x : Parameter} {z : Token} {n : Nat}
    (hp : Derives .parameter p x) (hz : p.getLast? = some z)
    (hstop : offsetOf text z.span.stop = .ok n)
    (htile : Token.Tile text offset glued (p ++ rest)) (hspelled : AreSpelled (p ++ rest)) :
    ∃ stop glued', offsetOf text x.span.stop = .ok stop ∧ stop ≤ n ∧
      Closing (text.drop n) (text.slice stop n) ∧ Token.Tile text n glued' rest := by
  obtain ⟨q, r, rfl, hends, hparens⟩ := hp.trails_parameter
  obtain ⟨y, hy, hsame⟩ := Option.map_eq_some_iff.1 hends
  obtain ⟨q, rfl⟩ := List.getLast?_eq_some_iff.1 hy
  have hlexemes : ∀ t ∈ r, t.lexeme = [')'] := by
    intro t ht
    have hkind := hparens t ht
    rw [hspelled t (by simp [ht]) (by rw [hkind]; rfl), hkind]
    rfl
  -- The last token is the last of the parentheses, or, without any, the one that ends the span.
  have hlast : Span.lastStop y.span.stop (r.map Token.span) = z.span.stop := by
    have hspans : ((q ++ [y] ++ r).map Token.span).getLast? = some z.span := by
      rw [List.getLast?_map, hz]
      rfl
    rw [← Span.lastStop_of_getLast? hspans y.span.stop, List.map_append, Span.lastStop_append,
      List.map_append, Span.lastStop_append]
    rfl
  rw [List.append_assoc, List.append_assoc, List.singleton_append] at htile
  obtain ⟨start, stop, glued', hoffsets, htile⟩ := htile.exists_behind
  have hstop' : offsetOf text y.span.stop = .ok stop := (offsetsOf_eq_ok.1 hoffsets).2
  obtain ⟨n', glued'', htile, hle, hclosing, hbehind⟩ := htile.closing hlexemes
  have hn := hbehind y.span.stop hstop'
  rw [hlast, hstop] at hn
  obtain rfl := Except.ok.inj hn
  refine ⟨stop, glued'', ?_, hle, hclosing, htile⟩
  rw [← hsame]
  exact hstop'

/-- The tokens of a parameter, read as an entry, in front of a token that ends it. -/
theorem exists_entry {p rest : List Token} {x : Parameter} {t : Token} {ts : List Placed}
    (hp : Derives .parameter p x) (hts : List.Forall₂ (Stands text base) p ts)
    (htile : Token.Tile text offset glued (p ++ t :: rest)) (hspelled : AreSpelled (p ++ t :: rest))
    (ht : t.kind = .comma ∨ t.kind = .braceClose) :
    ∃ f, (ts.foldl Pending.push none).formals = [f] ∧ IsEntry text base x f ∧
      ∃ stop glued', Token.Tile text stop glued' (t :: rest) := by
  obtain ⟨z, hz⟩ := Option.ne_none_iff_exists'.1
    (mt List.getLast?_eq_none_iff.1 hp.parameter_ne_nil)
  obtain ⟨last, hlast, hstands⟩ := Stands.last hts hz
  obtain ⟨stop, glued', hstop, hle, hclosing, hrest⟩ :=
    exists_closing hp hz (offsetsOf_eq_ok.1 hstands.offsets).2 htile hspelled
  obtain ⟨name, q, rfl, hname⟩ := Derives.parameter_head hp
  obtain ⟨first, us, hfirst, -, rfl⟩ := List.forall₂_cons_left_iff.1 hts
  obtain ⟨hkind, hlexeme⟩ := Prod.mk.inj (hfirst.bare_eq.trans hname)
  refine ⟨⟨some x.name, first.start, last.stop, false⟩, ?_, ⟨rfl, rfl, ?_, ?_⟩, _, _, hrest⟩
  · rw [@Pending.push_all (first :: us) first last rfl hlast, Pending.formals, hkind, hlexeme]
    rfl
  · refine ⟨stop, offsetsOf_eq_ok.2 ⟨?_, hstop⟩, hle, hclosing⟩
    rw [hp.parameter_start]
    exact (offsetsOf_eq_ok.1 hfirst.offsets).1
  · obtain ⟨gap, behind, hdrop, hgap⟩ := hrest.exists_gap
    refine ⟨gap, t.lexeme ++ behind, hdrop, hgap, ?_⟩
    rcases ht with ht | ht
    · left
      rw [hspelled t (by simp) (by rw [ht]; rfl), ht]
      rfl
    · right
      rw [hspelled t (by simp) (by rw [ht]; rfl), ht]
      rfl

theorem formalsAt_comma {c : Placed} (hc : c.kind = .comma) (pending : Pending)
    (ts : List Placed) :
    formalsAt 1 pending (c :: ts) = pending.formals ++ formalsAt 1 none ts := by
  simp [formalsAt, hc, isOpening, isClosing]

/-- The entries of a list, up to the brace at its end: the induction is on the entries that the
grammar finds, and no token of one of them is read as the end of it, because its delimiters come in
pairs. -/
theorem formalsAt_entries {E rest : List Token} {es : List (Option Parameter)}
    (h : Derives .entries E es) {ts : List Placed} (hts : List.Forall₂ (Stands text base) E ts)
    {t : Token} (htile : Token.Tile text offset glued (E ++ t :: rest))
    (hspelled : AreSpelled (E ++ t :: rest)) (ht : t.kind = .braceClose) {closing : Placed}
    (hclosing : closing.kind = .braceClose) :
    ∃ (entries : List Formal) (ellipsis? : Option Formal),
      formalsAt 1 none (ts ++ [closing]) = entries ++ ellipsis?.toList ∧
      List.Forall₂ (IsEntry text base) (es.filterMap id) entries ∧
      ellipsis?.isSome = es.any Option.isNone ∧
      ∀ f ∈ ellipsis?, f.name? = none ∧ f.ellipsis = true := by
  have hend : ∀ pending, formalsAt 1 pending [closing] = Pending.formals pending := by
    intro pending
    simp [formalsAt, hclosing, isOpening, isClosing]
  induction es generalizing E ts offset glued with
  | nil =>
    cases h with
    | noEntry =>
      obtain rfl := List.forall₂_nil_left_iff.1 hts
      exact ⟨[], none, hend none, .nil, rfl, by simp⟩
  | cons e es ih =>
    cases h with
    | @ellipsis z hz =>
      obtain ⟨p, _, hp, hnil, rfl⟩ := List.forall₂_cons_left_iff.1 hts
      obtain rfl := List.forall₂_nil_left_iff.1 hnil
      have hkind : p.kind = .ellipsis := (Prod.mk.inj hp.bare_eq).1.trans hz
      refine ⟨[], some ⟨none, p.start, p.stop, true⟩, ?_, .nil, rfl, by simp⟩
      simp [formalsAt, hclosing, hkind, isOpening, isClosing, Pending.formals, Pending.push]
    | @lastEntry _ x hx =>
      obtain ⟨f, hf, hentry, -⟩ := exists_entry hx hts htile hspelled (.inr ht)
      refine ⟨[f], none, ?_, .cons hentry .nil, rfl, by simp⟩
      rw [formalsAt_balanced (hx.balanced trivial) (map_kind_of_stands hts) (by omega)
        (by simp [Symbol.listed]), hend, hf]
      rfl
    | @entry comma p q x _ hx hcomma hq =>
      obtain ⟨us, _, rfl, hus, hbehind⟩ := exists_forall₂_append hts
      obtain ⟨c, vs, hc, hvs, rfl⟩ := List.forall₂_cons_left_iff.1 hbehind
      have hkind : c.kind = .comma := (Prod.mk.inj hc.bare_eq).1.trans hcomma
      rw [List.append_assoc, List.cons_append] at htile hspelled
      obtain ⟨f, hf, hentry, stop, glued', hrest⟩ :=
        exists_entry hx hus htile hspelled (.inl hcomma)
      cases hrest with
      | token _ _ _ _ _ hrest =>
        have hspelled' : AreSpelled (q ++ t :: rest) :=
          fun z hz => hspelled z (List.mem_append_right p (List.mem_cons_of_mem comma hz))
        obtain ⟨entries, ellipsis?, hformals, hentries, hsome, hellipsis⟩ :=
          ih hq hvs hrest hspelled'
        refine ⟨f :: entries, ellipsis?, ?_, .cons hentry hentries, hsome, hellipsis⟩
        rw [List.append_assoc, formalsAt_balanced (hx.balanced trivial) (map_kind_of_stands hus)
          (by omega) (by simp [Symbol.listed]), List.cons_append, formalsAt_comma hkind, hf,
          hformals]
        rfl

end

/-! ## The text of a list -/

theorem areSpelled_locate {text : Text} {ps : List Piece} (hps : pieces [] text = .ok ps) :
    AreSpelled (Token.locate .start ps) := by
  intro t ht hkind
  obtain ⟨a, b, htokens⟩ := List.append_of_mem ht
  obtain ⟨qs, rs, rfl, -⟩ := Token.locate_eq_append htokens
  exact lexeme_eq hps (by simp) hkind

/-- A parameter list is cut into the same pieces if it is read on its own. -/
theorem pieces_parameterList {us ts vs : List Piece} {whole? : Option Text} {t : Text}
    {list list' : ParameterList} (hplaced : Grammar.Placed us ts (.head (.destructured list')))
    (hlist : Derives (.parameterList whole?) (tokensBehind us ts) list)
    (hpieces : pieces [] t = .ok (us ++ (ts ++ vs))) : pieces [] (textOf ts) = .ok ts := by
  have hfirst := hplaced.first
  have hlast := hplaced.last
  -- No string is open where a brace begins a list.
  have hm : inString (modesBehind [] (kinds us)) = false := by
    generalize tokensBehind us ts = tokens at hlist hfirst
    cases hlist with
    | parameterList hopening =>
      obtain ⟨ts, rfl⟩ := List.head?_eq_some_iff.1 hfirst
      obtain ⟨m, hm, hrun, -⟩ := exists_run_before hpieces (by rw [hopening]; decide)
      rwa [hrun.modes_eq, modesAfter_eq] at hm
  obtain ⟨closing, hclosing⟩ : ∃ closing, (tokensBehind us ts).getLast? = some closing := by
    generalize tokensBehind us ts = tokens at hlist
    cases hlist with
    | @parameterList _ opening closing E =>
      refine ⟨closing, ?_⟩
      rw [← List.cons_append, List.getLast?_concat]
  rw [hclosing] at hlast
  exact hlist.pieces_own hpieces hm trivial rfl hm hlast

/-- The text of a parameter list, read on its own, has the entries of the list. -/
theorem scanFormals_placed {us ts vs : List Piece} {whole? : Option Text} {list : ParameterList}
    (hpieces : pieces [] (textOf (us ++ (ts ++ vs))) = .ok (us ++ (ts ++ vs)))
    (hlist : Derives (.parameterList whole?) (tokensBehind us ts) list)
    (hown : pieces [] (textOf ts) = .ok ts) :
    ∃ (entries : List Formal) (ellipsis? : Option Formal),
      scanFormals (textOf ts) = .ok (entries ++ ellipsis?.toList) ∧
      List.Forall₂ (IsEntry (textOf (us ++ (ts ++ vs))) (textOf us).length) list.parameters
        entries ∧
      ellipsis?.isSome = list.ellipsis ∧ ∀ f ∈ ellipsis?, f.name? = none ∧ f.ellipsis = true := by
  have htile := (Token.tokenize_lossless (Token.tokenize_eq_ok.2 ⟨_, hpieces, rfl⟩)).1
  have hspelled := areSpelled_locate hpieces
  have hstands := stands_place us ts vs (Nat.add_zero (textOf us).length)
  rw [locate_start_append] at htile hspelled
  generalize htokens : tokensBehind us ts = tokens at hlist htile hspelled hstands
  cases hlist with
  | @parameterList _ opening closing E es hopening hentries hclosing =>
    obtain ⟨o, _, ho, hrest, hplace⟩ := List.forall₂_cons_left_iff.1 hstands
    obtain ⟨ps, _, rfl, hps, hlast⟩ := exists_forall₂_append hrest
    obtain ⟨c, _, hc, hnil, rfl⟩ := List.forall₂_cons_left_iff.1 hlast
    obtain rfl := List.forall₂_nil_left_iff.1 hnil
    have hkind : o.kind = .braceOpen := (Prod.mk.inj ho.bare_eq).1.trans hopening
    have hscan : scanFormals (textOf ts) = .ok (formalsAt 1 none (ps ++ [c])) := by
      rw [scanFormals, hown]
      simp [hplace, formalsAt, hkind, isOpening]
    rw [List.cons_append, List.append_assoc, List.singleton_append] at htile hspelled
    obtain ⟨start, stop, glued, -, hbehind⟩ := htile.exists_behind
    have hspelled' : AreSpelled (E ++ closing :: tokensBehind (us ++ ts) vs) :=
      fun z hz => hspelled z (List.mem_append_right _ (List.mem_cons_of_mem opening hz))
    obtain ⟨entries, ellipsis?, hformals, hall⟩ := formalsAt_entries hentries hps hbehind hspelled'
      hclosing ((Prod.mk.inj hc.bare_eq).1.trans hclosing)
    rw [hformals] at hscan
    exact ⟨entries, ellipsis?, hscan, hall⟩

/-- The scan of the text of a parameter list agrees with the grammar, wherever the list stands in a
text: it has one entry for each parameter, in order, and then one for the ellipsis if there is
one. -/
theorem scanFormals_agrees {text : Text} {e : Expr} {list : ParameterList}
    (h : Expr.parse text = .ok e)
    (hlist : (Subtree.expr e).Contains (.head (.destructured list))) :
    ∃ (start stop : Nat) (entries : List Formal) (ellipsis? : Option Formal),
      offsetsOf text list.span = .ok (start, stop) ∧
      scanFormals (text.slice start stop) = .ok (entries ++ ellipsis?.toList) ∧
      List.Forall₂ (IsEntry text start) list.parameters entries ∧
      ellipsis?.isSome = list.ellipsis ∧ ∀ f ∈ ellipsis?, f.name? = none ∧ f.ellipsis = true := by
  obtain ⟨pieces, hpieces, hderives⟩ := Expr.parse_eq_ok.1 h
  obtain rfl := textOf_pieces hpieces
  obtain ⟨us, ts, vs, rfl, hplaced⟩ := hderives.exists_placed hlist
  obtain ⟨whole?, list', hhead, hsame⟩ := hplaced.formed
  obtain ⟨entries, ellipsis?, hscan, hentries, hsome, hellipsis⟩ :=
    scanFormals_placed hpieces hhead (pieces_parameterList hplaced hhead hpieces)
  refine ⟨_, _, entries, ellipsis?, hplaced.offsets vs, ?_, ?_, ?_, hellipsis⟩
  · rw [slice_textOf]
    exact hscan
  · rw [hsame]
    exact hentries
  · rw [hsame]
    exact hsome

theorem scanFormals_agrees_nested :
    ∃ (text : Text) (e : Expr) (list : ParameterList),
      text = "x: \x7b a, b ? ((\x7b c, ... \x7d: [ c ])) # ,\n , ... \x7d: a".toList ∧
      Expr.parse text = .ok e ∧ (Subtree.expr e).Contains (.head (.destructured list)) ∧
      list.parameters.map Parameter.name = ["a".toList, "b".toList] ∧ list.ellipsis = true ∧
      ∃ (start stop : Nat) (entries : List Formal) (ellipsis? : Option Formal),
        offsetsOf text list.span = .ok (start, stop) ∧
        scanFormals (text.slice start stop) = .ok (entries ++ ellipsis?.toList) ∧
        List.Forall₂ (IsEntry text start) list.parameters entries ∧
        ellipsis?.isSome = list.ellipsis ∧
        ∀ f ∈ ellipsis?, f.name? = none ∧ f.ellipsis = true := by
  have hparse : (Expr.parse
      "x: \x7b a, b ? ((\x7b c, ... \x7d: [ c ])) # ,\n , ... \x7d: a".toList).toOption.any
        (fun e => (Subtree.expr e).children.any fun x => x.children.any fun y =>
          y.list?.any fun list =>
            list.parameters.map Parameter.name == ["a".toList, "b".toList] && list.ellipsis) =
      true := by
    decide +kernel
  obtain ⟨e, he, htest⟩ := Outcome.exists_of_any hparse
  obtain ⟨x, hx, htest⟩ := List.any_eq_true.1 htest
  obtain ⟨y, hy, htest⟩ := List.any_eq_true.1 htest
  obtain ⟨list, hlist, htest⟩ := (Option.any_eq_true _ _).1 htest
  obtain ⟨hnames, hellipsis⟩ := Bool.and_eq_true_iff.1 htest
  obtain rfl := Subtree.eq_of_list? hlist
  have hcontains : (Subtree.expr e).Contains (.head (.destructured list)) :=
    .tail (.single hx) hy
  exact ⟨_, e, list, rfl, he, hcontains, beq_iff_eq.1 hnames, hellipsis,
    scanFormals_agrees he hcontains⟩

end Edit
end FlakeInputs
