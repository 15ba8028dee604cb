import FlakeInputs.Edit.Parameters
import FlakeInputs.Proofs.Grammar.Heads
import FlakeInputs.Proofs.Token.Braces

/-!
# Entries of a parameter list

The text of a parameter list is cut into entries by counting delimiters.  The last entry
with a name is the last parameter, and it ends where the last token of that parameter ends.
-/

namespace FlakeInputs
namespace Edit

open Grammar Scan

/-! ## Placed tokens -/

/-- What the grammar sees of a placed token. -/
def Placed.bare (t : Placed) : TokenKind × Text :=
  (t.kind, t.lexeme)

theorem place_append (offset : Nat) (ps qs : List Piece) :
    place offset (ps ++ qs) = place offset ps ++ place (offset + (textOf ps).length) qs := by
  induction ps generalizing offset with
  | nil => rfl
  | cons p ps ih =>
    cases p with
    | gap t => simp only [List.cons_append, place, ih, textOf_cons, Piece.text_gap,
        List.length_append, Nat.add_assoc]
    | token kind t => simp only [List.cons_append, place, ih, textOf_cons, Piece.text_token,
        List.length_append, Nat.add_assoc]

theorem map_bare_place (offset : Nat) (ps : List Piece) :
    (place offset ps).map Placed.bare = bares ps := by
  induction ps generalizing offset with
  | nil => rfl
  | cons p ps ih =>
    cases p with
    | gap t => exact ih _
    | token kind t => exact congrArg ((kind, t) :: ·) (ih _)

/-! ## Reading entries -/

theorem isOpening_eq_isPaired {kind : TokenKind} (h : isPaired kind = false) :
    isOpening kind = false ∧ isClosing kind = false := by
  cases kind
  all_goals first | exact ⟨rfl, rfl⟩ | exact absurd h (by decide)

/-- Balanced tokens are all taken into the entry that is being read. -/
theorem formalsAt_balanced {listed : Bool} {ks : List TokenKind} (h : Balanced listed ks)
    {ts : List Placed} (hts : ts.map Placed.kind = ks) {depth : Int} (hdepth : 1 ≤ depth)
    (hlisted : listed = true → 2 ≤ depth) (pending : Pending) (rest : List Placed) :
    formalsAt depth pending (ts ++ rest) =
      formalsAt depth (ts.foldl Pending.push pending) rest := by
  induction h generalizing ts depth pending rest with
  | nil =>
    obtain rfl := List.map_eq_nil_iff.1 hts
    rfl
  | @plain listed kind ks hkind hcomma _ ih =>
    obtain ⟨t, ts, rfl, rfl, hrest⟩ := List.map_eq_cons_iff.1 hts
    obtain ⟨hopening, hclosing⟩ := isOpening_eq_isPaired hkind
    have hsplit : ¬(depth = 1 ∧ t.kind = .comma) := by
      rintro ⟨rfl, ht⟩
      have := hlisted (hcomma ht)
      omega
    simp only [List.cons_append, formalsAt, hopening, hclosing, if_neg hsplit, if_pos hdepth,
      Bool.false_eq_true, if_false]
    exact ih hrest hdepth hlisted _ rest
  | @group listed opening closing ks ks' hpair _ _ ih ih' =>
    obtain ⟨o, _, rfl, rfl, hbehind⟩ := List.map_eq_cons_iff.1 hts
    obtain ⟨inside, _, rfl, hinside, hlast⟩ := List.map_eq_append_iff.1 hbehind
    obtain ⟨c, ts, rfl, rfl, hrest⟩ := List.map_eq_cons_iff.1 hlast
    have hkinds : isOpening o.kind = true ∧ isOpening c.kind = false ∧ isClosing c.kind = true := by
      have hall : ∀ pair ∈ delimiterPairs, isOpening pair.1 = true ∧ isOpening pair.2 = false ∧
          isClosing pair.2 = true := by decide
      exact hall _ hpair
    have hinner : formalsAt (depth + 1) (pending.push o) (inside ++ (c :: ts ++ rest)) =
        formalsAt (depth + 1) (inside.foldl Pending.push (pending.push o)) (c :: ts ++ rest) :=
      ih hinside (by omega) (by omega) _ _
    rw [List.cons_append, List.append_assoc, formalsAt, if_pos hkinds.1, if_pos hdepth, hinner,
      List.cons_append, formalsAt, if_neg (by simp [hkinds.2.1]), if_pos hkinds.2.2,
      if_neg (by omega), if_pos (by omega), Int.add_sub_cancel, ih' hrest hdepth hlisted]
    simp

theorem foldl_push (first last : Placed) (ts : List Placed) :
    ts.foldl Pending.push (some (first, last)) = some (first, ts.getLast?.getD last) := by
  induction ts generalizing last with
  | nil => rfl
  | cons t ts ih =>
    rw [List.foldl_cons, Pending.push, ih, List.getLast?_cons]
    simp

theorem Pending.push_all {ts : List Placed} {first last : Placed} (hfirst : ts.head? = some first)
    (hlast : ts.getLast? = some last) : ts.foldl Pending.push none = some (first, last) := by
  obtain ⟨ts, rfl⟩ := List.head?_eq_some_iff.1 hfirst
  rw [List.foldl_cons, Pending.push, foldl_push]
  rw [List.getLast?_cons, Option.some.injEq] at hlast
  rw [hlast]

/-- The entries before a parameter do not matter to those from it on. -/
theorem formalsAt_rows {ks : List TokenKind} (h : Rows ks) {ts : List Placed}
    (hts : ts.map Placed.kind = ks) (rest : List Placed) :
    ∃ fs, formalsAt 1 none (ts ++ rest) = fs ++ formalsAt 1 none rest := by
  induction h generalizing ts with
  | nil =>
    obtain rfl := List.map_eq_nil_iff.1 hts
    exact ⟨[], rfl⟩
  | @row ks ks' _ hrow _ ih =>
    obtain ⟨row, _, rfl, hkinds, hbehind⟩ := List.map_eq_append_iff.1 hts
    obtain ⟨comma, ts, rfl, hcomma, hrest⟩ := List.map_eq_cons_iff.1 hbehind
    obtain ⟨fs, hfs⟩ := ih hrest
    refine ⟨(row.foldl Pending.push none).formals ++ fs, ?_⟩
    rw [List.append_assoc, formalsAt_balanced hrow hkinds (by omega) (by simp), List.cons_append,
      formalsAt]
    simp [hcomma, isOpening, isClosing, hfs]

/-- Behind the last parameter no other entry has a name. -/
theorem formalsAt_tail {tail : List Token} {es : List (Option Parameter)} (h : Tail tail es)
    {ts : List Placed} (hts : ts.map Placed.kind = tail.map Token.kind) {closing : Placed}
    (hclosing : closing.kind = .braceClose) (pending : Pending) :
    ∃ fs, formalsAt 1 pending (ts ++ [closing]) = pending.formals ++ fs ∧
      ∀ f ∈ fs, f.name? = none := by
  cases h with
  | nil =>
    obtain rfl := List.map_eq_nil_iff.1 hts
    exact ⟨[], by simp [formalsAt, hclosing, isOpening, isClosing], by simp⟩
  | comma ht =>
    obtain ⟨t, _, rfl, hkind, hnil⟩ := List.map_eq_cons_iff.1 hts
    obtain rfl := List.map_eq_nil_iff.1 hnil
    refine ⟨[], ?_, by simp⟩
    simp [formalsAt, hclosing, hkind, ht, isOpening, isClosing, Pending.formals]
  | ellipsis ht hz =>
    obtain ⟨t, _, rfl, hkind, hrest⟩ := List.map_eq_cons_iff.1 hts
    obtain ⟨z, _, rfl, hkind', hnil⟩ := List.map_eq_cons_iff.1 hrest
    obtain rfl := List.map_eq_nil_iff.1 hnil
    refine ⟨[⟨none, z.start, z.stop, true⟩], ?_, by simp⟩
    simp [formalsAt, hclosing, hkind, ht, hkind', hz, isOpening, isClosing, Pending.formals,
      Pending.push]

/-! ## The text of a list -/

/-- The pieces of a list between its braces. -/
def bracedPieces (qs : List Piece) : List Piece :=
  Piece.token .braceOpen ['{'] :: (qs ++ [Piece.token .braceClose ['}']])

theorem scanFormals_braced {qs : List Piece}
    (h : pieces [] (textOf (bracedPieces qs)) = .ok (bracedPieces qs)) :
    ∃ closing : Placed, closing.kind = .braceClose ∧
      scanFormals (textOf (bracedPieces qs)) =
        .ok (formalsAt 1 none (place 1 qs ++ [closing])) := by
  refine ⟨⟨.braceClose, ['}'], 1 + (textOf qs).length, 1 + (textOf qs).length + 1⟩, rfl, ?_⟩
  rw [scanFormals, h]
  simp [bracedPieces, place, place_append, formalsAt, isOpening]

theorem Derives.parameter_head {p : List Token} {x : Parameter} (h : Derives .parameter p x) :
    ∃ t ts, p = t :: ts ∧ t.bare = (.identifier, x.name) := by
  cases h with
  | parameter hname => exact ⟨_, _, rfl, by rw [Token.bare, hname]⟩
  | parameterOr hname => exact ⟨_, _, rfl, by rw [Token.bare, hname]⟩

theorem map_kind_of_bare {ts : List Placed} {p : List Token}
    (h : ts.map Placed.bare = p.map Token.bare) : ts.map Placed.kind = p.map Token.kind := by
  have hkinds := congrArg (List.map Prod.fst) h
  simpa [Placed.bare, Token.bare, Function.comp_def] using hkinds

/-- The last entry with the name of the last parameter ends where that parameter ends. -/
theorem scanFormals_last {E first p tail : List Token} {es before behind : List (Option Parameter)}
    {x : Parameter} {z : Token} {qs rs : List Piece}
    (hlast : LastParameter E es x first (p ++ [z]) tail before behind)
    (hqs : bares qs = (first ++ p).map Token.bare) (hrs : bares rs = tail.map Token.bare)
    (h : pieces [] (textOf (bracedPieces (qs ++ Piece.token z.kind z.lexeme :: rs))) =
      .ok (bracedPieces (qs ++ Piece.token z.kind z.lexeme :: rs))) :
    ∃ fs entry,
      scanFormals (textOf (bracedPieces (qs ++ Piece.token z.kind z.lexeme :: rs))) = .ok fs ∧
      (fs.reverse.find? fun f => f.name? = some x.name) = some entry ∧
      entry.stop = 1 + (textOf qs).length + z.lexeme.length := by
  obtain ⟨closing, hclosing, hscan⟩ := scanFormals_braced h
  rw [← map_bare_place 1, List.map_append] at hqs
  obtain ⟨ts, us, hplace, hts, hus⟩ := List.map_eq_append_iff.1 hqs
  generalize hz : (⟨z.kind, z.lexeme, 1 + (textOf qs).length,
    1 + (textOf qs).length + z.lexeme.length⟩ : Placed) = zp
  have hplaced : place 1 (qs ++ Piece.token z.kind z.lexeme :: rs) =
      ts ++ ((us ++ [zp]) ++ place zp.stop rs) := by
    rw [place_append, hplace, place, hz, ← hz]
    simp
  have hbare : (us ++ [zp]).map Placed.bare = (p ++ [z]).map Token.bare := by
    rw [List.map_append, List.map_append, hus, ← hz]
    rfl
  obtain ⟨t, q, hp, hname⟩ := Derives.parameter_head hlast.derives
  rw [hp] at hbare
  obtain ⟨first', us', hus', hfirst, -⟩ := List.map_eq_cons_iff.1 hbare
  have hpending : (us ++ [zp]).foldl Pending.push none = some (first', zp) :=
    Pending.push_all (by rw [hus']; rfl) (by simp)
  obtain ⟨fs, hfs⟩ := formalsAt_rows hlast.rows (map_kind_of_bare hts)
    ((us ++ [zp]) ++ (place zp.stop rs ++ [closing]))
  obtain ⟨gs, hgs, hnone⟩ := formalsAt_tail hlast.tail
    (map_kind_of_bare ((map_bare_place zp.stop rs).trans hrs)) hclosing (some (first', zp))
  have hentry : first'.kind = .identifier ∧ first'.lexeme = x.name := by
    rw [hname] at hfirst
    exact Prod.mk.inj hfirst
  refine ⟨_, ⟨some x.name, first'.start, zp.stop, false⟩, hscan, ?_, by rw [← hz]⟩
  have hformals :
      formalsAt 1 none (place 1 (qs ++ Piece.token z.kind z.lexeme :: rs) ++ [closing]) =
      fs ++ (⟨some x.name, first'.start, zp.stop, false⟩ :: gs) := by
    rw [hplaced, List.append_assoc, List.append_assoc, hfs,
      formalsAt_balanced (hlast.derives.balanced trivial) (map_kind_of_bare (hp ▸ hbare))
        (by omega) (by simp [Symbol.listed]), hpending, hgs]
    simp [Pending.formals, hentry.1, hentry.2]
  have hgs' : (gs.reverse.find? fun f => f.name? = some x.name) = none := by
    refine List.find?_eq_none.2 fun f hf => ?_
    simp [hnone f (List.mem_reverse.1 hf)]
  simp [hformals, hgs']

/-- The entry of an ellipsis without parameters starts where the ellipsis starts. -/
theorem scanFormals_ellipsis {z : Token} {qs rs : List Piece} (hz : z.kind = .ellipsis)
    (hqs : IsGaps qs) (hrs : IsGaps rs)
    (h : pieces [] (textOf (bracedPieces (qs ++ Piece.token z.kind z.lexeme :: rs))) =
      .ok (bracedPieces (qs ++ Piece.token z.kind z.lexeme :: rs))) :
    ∃ fs entry,
      scanFormals (textOf (bracedPieces (qs ++ Piece.token z.kind z.lexeme :: rs))) = .ok fs ∧
      fs.find? Formal.ellipsis = some entry ∧ entry.start = 1 + (textOf qs).length := by
  obtain ⟨closing, hclosing, hscan⟩ := scanFormals_braced h
  have hgaps : ∀ {ps : List Piece} (offset : Nat), IsGaps ps → place offset ps = [] := by
    intro ps offset hps
    have hbare := map_bare_place offset ps
    rw [isGaps_iff.1 hps] at hbare
    exact List.map_eq_nil_iff.1 hbare
  rw [place_append, hgaps 1 hqs, place, hgaps _ hrs] at hscan
  refine ⟨_, ⟨none, 1 + (textOf qs).length, 1 + (textOf qs).length + z.lexeme.length, true⟩, hscan,
    ?_, rfl⟩
  simp [formalsAt, hz, hclosing, isOpening, isClosing, Pending.push, Pending.formals]

end Edit
end FlakeInputs
