import FlakeInputs.Proofs.Edit.Update
import FlakeInputs.Proofs.Manifest.Holes

/-!
# What a declaration declares

A declaration is read as one binding.  Its key is the name as it is written, so a name that is
written with escapes is not the name that is read.
-/

namespace FlakeInputs
namespace Edit

open Grammar Scan
open Token (locate)

/-- The name that is read where a name is written as a key. -/
def writtenName (name : Text) : Text :=
  if isBareKey name then name else escape name

/-- The key that a name is read as, without its spans. -/
def writtenKey (name : Text) : Key :=
  if isBareKey name then .bare .blank name else .quoted .blank [.text .blank (escape name)]

/-- The binding that a declaration is read as, without its spans. -/
def declared (name url : Text) (qualified : Bool) : KeyValue :=
  ⟨.blank, (if qualified then [.bare .blank Manifest.inputsName] else []) ++
    [writtenKey name, .bare .blank Manifest.urlName], ⟨.blank, .string [.text .blank (escape url)]⟩⟩

theorem name?_writtenKey (name : Text) : (writtenKey name).name? = some (writtenName name) := by
  unfold writtenKey writtenName
  split
  · rfl
  · rfl

theorem names_declared (name url : Text) (qualified : Bool) :
    (declared name url qualified).names =
      (if qualified then [some Manifest.inputsName] else []) ++
        [some (writtenName name), some Manifest.urlName] := by
  cases qualified
  · exact congrArg (fun k => [k, some Manifest.urlName]) (name?_writtenKey name)
  · exact congrArg (fun k => [some Manifest.inputsName, k, some Manifest.urlName])
      (name?_writtenKey name)

/-- A text without quotes, backslashes and interpolations is written as it is. -/
theorem escape_eq_self {t : Text} (hquote : '"' ∉ t) (hbackslash : '\\' ∉ t)
    (hinterpolation : ¬['$', '{'] <:+: t) : escape t = t := by
  fun_induction escape t with
  | case1 => rfl
  | case2 t => simp at hbackslash
  | case3 t => simp at hquote
  | case4 t => exact absurd ⟨[], t, rfl⟩ hinterpolation
  | case5 c t _ _ _ ih =>
    rw [ih (fun h => hquote (List.mem_cons_of_mem _ h))
      (fun h => hbackslash (List.mem_cons_of_mem _ h))
      (fun h => hinterpolation (h.trans (List.suffix_cons c t).isInfix))]

/-- Nothing that would be escaped stands in a name that is written without quotes. -/
theorem writtenName_eq_escape (name : Text) : writtenName name = escape name := by
  unfold writtenName
  split
  · next hbare =>
    have hname := isName_of_isBareKey hbare
    have hdollar : '$' ∉ name := hname.not_mem (by decide)
    exact (escape_eq_self (hname.not_mem (by decide)) (hname.not_mem (by decide))
      fun hpart => hdollar (hpart.subset (by simp))).symm
  · rfl

/-! ## The text of a declaration -/

/-- A declaration up to its url. -/
def declarationHead (name : Text) (qualified : Bool) : Text :=
  (if qualified then "inputs.".toList else []) ++ attrName name ++ ".url = \"".toList

theorem declaration_eq (name url : Text) (qualified : Bool) :
    declaration name url qualified =
      declarationHead name qualified ++ (escape url ++ ['"', ';']) := by
  simp only [declaration, declarationHead, stringLiteral, List.append_assoc, List.cons_append]
  rfl

/-! ## The binding of a declaration -/

theorem derives_key (p : Position) (name : Text) :
    ∃ k, Derives .key (locate p (keyPieces name)) k ∧ k.shape = writtenKey name := by
  unfold keyPieces writtenKey
  split
  · next hbare =>
    have hkind : wordKind .identifier name = .identifier ∨
        wordKind .identifier name = .keyword .orWord := by
      rw [isBareKey, Bool.or_eq_true] at hbare
      rcases hbare with hbare | hbare
      · exact .inl (isName_of_isIdentifier hbare).2
      · obtain rfl := beq_iff_eq.1 hbare
        exact .inr rfl
    exact ⟨_, .bareKey hkind, rfl⟩
  · exact ⟨_, .quotedKey (derives_sole_literal rfl rfl rfl), rfl⟩

/-- The pieces of the key of a declaration. -/
def pathPieces (name : Text) (qualified : Bool) : List Piece :=
  (if qualified then [Piece.token .identifier Manifest.inputsName, .token .dot ['.']] else []) ++
    (keyPieces name ++ [Piece.token .dot ['.'], .token .identifier Manifest.urlName])

/-- The pieces of a declaration behind its key. -/
def urlPieces (url : Text) : List Piece :=
  [Piece.gap [' '], .token .assign ['='], .gap [' ']] ++ quotedPieces (escape url) ++
    [Piece.token .semicolon [';']]

theorem declarationPieces_eq (name url : Text) (qualified : Bool) :
    declarationPieces name url qualified = pathPieces name qualified ++ urlPieces url := by
  simp [declarationPieces, pathPieces, assignmentPieces, urlPieces]

theorem textOf_pathPieces (name : Text) (qualified : Bool) :
    textOf (pathPieces name qualified) ++ " = \"".toList = declarationHead name qualified := by
  have hqualifier : textOf (if qualified then
      [Piece.token .identifier Manifest.inputsName, .token .dot ['.']] else []) =
        if qualified then "inputs.".toList else [] := by
    cases qualified <;> rfl
  rw [pathPieces, textOf_append, textOf_append, textOf_keyPieces, hqualifier, declarationHead]
  simp only [List.append_assoc]
  rfl

theorem derives_pathPieces (p : Position) (name url : Text) (qualified : Bool) :
    ∃ span path, Derives .attrPath (locate p (pathPieces name qualified)) (span, path) ∧
      path.map Key.shape = (declared name url qualified).path := by
  have hurl : ∀ p, ∃ k,
      Derives .pathRest (locate p [.token .dot ['.'], .token .identifier Manifest.urlName]) [k] ∧
        k.shape = .bare .blank Manifest.urlName :=
    fun p => ⟨_, .pathStep rfl (.bareKey (.inl rfl)) .pathEnd, rfl⟩
  cases qualified with
  | false =>
    obtain ⟨k, hk, hshape⟩ := derives_key p name
    obtain ⟨u, hu, hushape⟩ := hurl (p.after (textOf (keyPieces name)))
    have hpath := Derives.attrPath hk hu
    rw [← Token.locate_append] at hpath
    exact ⟨_, _, hpath, by simp [declared, hshape, hushape]⟩
  | true =>
    obtain ⟨k, hk, hshape⟩ := derives_key ((p.after Manifest.inputsName).after ['.']) name
    obtain ⟨u, hu, hushape⟩ := hurl
      (((p.after Manifest.inputsName).after ['.']).after (textOf (keyPieces name)))
    have hdot : (⟨.dot, ['.'], p.after Manifest.inputsName,
      (p.after Manifest.inputsName).after ['.']⟩ : Token).kind = .dot := rfl
    have hrest := Derives.pathStep hdot hk hu
    rw [← Token.locate_append] at hrest
    exact ⟨_, _, .attrPath (.bareKey (.inl rfl)) hrest,
      by simp [declared, Key.shape, hshape, hushape]⟩

/-- What stands behind the key of a declaration makes it a binding of the url. -/
theorem derives_urlPieces {a : List Token} {span : Span} {path : List Key}
    (hpath : Derives .attrPath a (span, path)) (p : Position) (url : Text) :
    ∃ d, Derives .keyValue (a ++ locate p (urlPieces url)) d ∧ d.path = path ∧
      d.value.node = .string [.text ⟨p.after " = \"".toList,
        (p.after " = \"".toList).after (escape url)⟩ (escape url)] := by
  have hstring := (Style.quoted.derives_pieces (p.after " = ".toList) (escape url)).expr_of_simple
  exact ⟨_, .keyValue hpath rfl hstring rfl, rfl, rfl⟩

theorem exists_first_pathPieces (name : Text) (qualified : Bool) :
    ∃ kind x qs, pathPieces name qualified = .token kind x :: qs := by
  cases qualified with
  | true => exact ⟨_, _, _, rfl⟩
  | false =>
    by_cases hbare : isBareKey name = true
    · exact ⟨_, _, _, by simp only [pathPieces, keyPieces, if_pos hbare]; rfl⟩
    · exact ⟨_, _, _, by simp only [pathPieces, keyPieces, if_neg hbare]; rfl⟩

/-- A binding that is read from a declaration reaches from its first character to its last. -/
theorem span_of_declaration {p : Position} {name url : Text} {qualified : Bool} {d : KeyValue}
    (h : Derives .keyValue (locate p (declarationPieces name url qualified)) d) :
    d.span = ⟨p, p.after (declaration name url qualified)⟩ := by
  obtain ⟨t, k, semicolon, hk, -, -, hspan⟩ := h.keyValue_ends
  have hstart : t.span.start = p := by
    obtain ⟨kind, x, qs, hqs⟩ := exists_first_pathPieces name qualified
    rw [declarationPieces_eq, hqs, List.cons_append, locate] at hk
    rw [← (List.cons.inj hk).1]
  have hstop : semicolon.span.stop = p.after (declaration name url qualified) := by
    rw [← textOf_declarationPieces]
    rw [declarationPieces_eq, urlPieces, ← List.append_assoc] at hk ⊢
    rw [Token.locate_append, ← List.cons_append] at hk
    obtain ⟨-, hlast⟩ := List.append_inj' hk rfl
    rw [← List.singleton_inj.1 hlast, textOf_append, Position.after_append]
    simp
  rw [hspan, hstart, hstop]

/-- A declaration is read as one binding. -/
theorem derives_declaration (p : Position) (name url : Text) (qualified : Bool) :
    ∃ d, Derives .keyValue (locate p (declarationPieces name url qualified)) d ∧
      d.shape = declared name url qualified ∧
      d.span = ⟨p, p.after (declaration name url qualified)⟩ ∧
      d.value.node = .string [.text ⟨p.after (declarationHead name qualified),
        (p.after (declarationHead name qualified)).after (escape url)⟩ (escape url)] := by
  obtain ⟨span, path, hpath, hshape⟩ := derives_pathPieces p name url qualified
  obtain ⟨d, hd, rfl, hnode⟩ :=
    derives_urlPieces hpath (p.after (textOf (pathPieces name qualified))) url
  rw [← Token.locate_append, ← declarationPieces_eq] at hd
  rw [← Position.after_append, textOf_pathPieces] at hnode
  refine ⟨d, hd, ?_, span_of_declaration hd, hnode⟩
  clear hd
  obtain ⟨dspan, dpath, ⟨vspan, node⟩⟩ := d
  obtain rfl : node = _ := hnode
  simp only [KeyValue.shape, Key.shapes_eq_map, Expr.shape, Node.shape, Part.shapes_eq_map,
    List.map_cons, List.map_nil, Part.shape]
  rw [show dpath.map Key.shape = _ from hshape]
  rfl

end Edit
end FlakeInputs
