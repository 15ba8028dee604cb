import FlakeInputs.Edit.Written
import FlakeInputs.Manifest.Inputs
import FlakeInputs.Proofs.Token.Barriers

/-!
# How written text is scanned

The runs of the scanner through what is put into a manifest: blanks, names, string
literals and declarations.
-/

namespace FlakeInputs

namespace Word

theorem foldl_longer_of_le {t : Text} {entries : List (TokenKind × (Text → Text))}
    {best : Option (TokenKind × Text)} (h : ∀ entry ∈ entries, (entry.2 t).length ≤ record best) :
    entries.foldl (longer t) best = best := by
  induction entries with
  | nil => rfl
  | cons first entries ih =>
    have hfirst := h first List.mem_cons_self
    rw [List.foldl_cons, longer_eq, if_neg (Nat.not_lt.2 hfirst)]
    exact ih fun entry hentry => h entry (List.mem_cons_of_mem _ hentry)

/-- An identifier is the longest word if no class takes more. -/
theorem longest?_of_identifier {t name : Text} (hname : identifier t = name) (hne : name ≠ [])
    (hle : ∀ entry ∈ classes, (entry.2 t).length ≤ name.length) :
    longest? t = some (.identifier, name) := by
  have hfirst : longer t none (.identifier, identifier) = some (.identifier, name) := by
    subst hname
    exact if_pos (List.length_pos_iff.2 hne)
  unfold longest? classes at *
  rw [List.foldl_cons, hfirst]
  exact foldl_longer_of_le fun entry hentry => hle entry (List.mem_cons_of_mem _ hentry)

theorem isLetter_iff {c : Char} :
    isLetter c = true ↔ (65 ≤ c.toNat ∧ c.toNat ≤ 90) ∨ (97 ≤ c.toNat ∧ c.toNat ≤ 122) := by
  change (decide ('A'.val ≤ c.val ∧ c.val ≤ 'Z'.val) ||
    (decide ('a'.val ≤ c.val) && decide (c.val ≤ 'z'.val))) = true ↔ _
  simp only [Bool.or_eq_true, Bool.and_eq_true, decide_eq_true_eq, UInt32.le_iff_toNat_le]
  rfl

theorem isDigit_iff {c : Char} : isDigit c = true ↔ 48 ≤ c.toNat ∧ c.toNat ≤ 57 := by
  change (decide ('0'.val ≤ c.val) && decide (c.val ≤ '9'.val)) = true ↔ _
  simp only [Bool.and_eq_true, decide_eq_true_eq, UInt32.le_iff_toNat_le]
  rfl

theorem isDigit_of_isIdentStart {c : Char} (h : isIdentStart c = true) : isDigit c = false := by
  rw [Bool.eq_false_iff, ne_eq, isDigit_iff]
  rw [isIdentStart, Bool.or_eq_true, isLetter_iff, beq_iff_eq] at h
  rcases h with (h | h) | rfl
  · omega
  · omega
  · decide

/-- A path has a slash. -/
theorem path_eq_nil {t : Text} (hslash : '/' ∉ segments t) (htilde : t.head? ≠ some '~') :
    path t = [] := by
  rw [path_bare htilde, if_neg]
  simpa using hslash

theorem segments_length_le {a b : Text} {c : Char} (hc : isPathChar c = false) (hslash : c ≠ '/') :
    (segments (a ++ c :: b)).length ≤ a.length := by
  refine Nat.le_of_not_lt fun hlt => ?_
  have hle : a ++ [c] <+: segments (a ++ c :: b) := by
    refine List.prefix_of_prefix_length_le ⟨b, by simp⟩ (segments_within _) ?_
    simpa using Nat.succ_le_of_lt hlt
  rcases segments_spelled _ c (hle.subset (by simp)) with h | h
  · rw [h] at hc
    exact Bool.noConfusion hc
  · exact hslash h

theorem segments_getLast? (t : Text) : (segments t).getLast? ≠ some '/' := by
  fun_induction segments t with
  | case1 c t hc ih =>
    cases hsegments : segments t with
    | nil =>
      intro heq
      obtain rfl : c = '/' := by simpa using heq
      exact absurd hc (by decide)
    | cons d w =>
      rw [hsegments] at ih
      simpa using ih
  | case3 c t _ hc ih =>
    cases hsegments : segments t with
    | nil =>
      intro heq
      obtain rfl : c = '/' := by simpa using heq
      exact absurd hc (by decide)
    | cons d w =>
      rw [hsegments] at ih
      simpa using ih
  | case2 | case4 | case5 => simp

/-- Segments do not go on into a comment. -/
theorem segments_comment_le {a b : Text} :
    (segments (a ++ '/' :: '*' :: b)).length ≤ a.length := by
  have hle : (segments (a ++ ['/'] ++ '*' :: b)).length ≤ (a ++ ['/']).length :=
    segments_length_le (by decide) (by decide)
  rw [List.append_assoc, List.singleton_append, List.length_append] at hle
  refine Nat.le_of_not_lt fun hlt => segments_getLast? (a ++ '/' :: '*' :: b) ?_
  have heq : segments (a ++ '/' :: '*' :: b) = a ++ ['/'] := by
    refine ((List.prefix_of_prefix_length_le (segments_within _) ?_ ?_).eq_of_length ?_)
    · exact ⟨'*' :: b, by simp⟩
    · simpa using hle
    · simp at hle hlt ⊢
      omega
  rw [heq]
  simp

/-- What a name has to be to be written without quotes. -/
structure IsName (name : Text) : Prop where
  ne_nil : name ≠ []
  identifier_eq : identifier name = name

namespace IsName

variable {name : Text} (hname : IsName name)
include hname

theorem isIdentChar {c : Char} (hc : c ∈ name) : isIdentChar c = true := by
  obtain ⟨hne, heq⟩ := hname
  obtain ⟨d, t, rfl⟩ := List.exists_cons_of_ne_nil hne
  rw [identifier] at heq
  split at heq
  · next hd =>
    rw [← heq] at hc
    rcases List.mem_cons.1 hc with rfl | hc
    · exact isIdentChar_of_isIdentStart hd
    · exact List.mem_takeWhile_imp hc
  · exact absurd heq.symm hne

theorem exists_start : ∃ c t, name = c :: t ∧ isIdentStart c = true := by
  obtain ⟨hne, heq⟩ := hname
  obtain ⟨c, t, rfl⟩ := List.exists_cons_of_ne_nil hne
  rw [identifier] at heq
  split at heq
  · next hc => exact ⟨c, t, rfl, hc⟩
  · exact absurd heq.symm hne

theorem not_mem {c : Char} (hc : Word.isIdentChar c = false) : c ∉ name := by
  intro hmem
  rw [hname.isIdentChar hmem] at hc
  exact Bool.noConfusion hc

theorem identifier_append {r : Text} (hr : ∀ c ∈ r.head?, Word.isIdentChar c = false) :
    identifier (name ++ r) = name := by
  have hle : name <+: identifier (name ++ r) := by
    have hstable := lawful_identifier.stable name (name ++ r)
    rw [hname.identifier_eq] at hstable
    exact hstable (List.prefix_append _ _)
  refine Eq.symm (Classical.byContradiction fun hne => ?_)
  cases r with
  | nil =>
    rw [List.append_nil, hname.identifier_eq] at hne
    exact hne rfl
  | cons c r =>
    have hmore := concat_le hle (lawful_identifier.within _) hne (c := c) ⟨r, by simp⟩
    obtain ⟨d, t, rfl, hd⟩ := hname.exists_start
    have hmem : c ∈ (t ++ c :: r).takeWhile Word.isIdentChar := by
      simp only [List.cons_append, identifier, hd, if_true, List.cons_prefix_cons,
        true_and] at hmore
      exact hmore.subset (by simp)
    have hc := hr c rfl
    rw [List.mem_takeWhile_imp hmem] at hc
    exact Bool.noConfusion hc

/-- Numbers and paths in angle brackets do not begin like a name. -/
theorem number_eq_nil (r : Text) :
    integer (name ++ r) = [] ∧ float (name ++ r) = [] ∧ searchPath (name ++ r) = [] := by
  obtain ⟨c, t, rfl, hc⟩ := hname.exists_start
  have hdigit := isDigit_of_isIdentStart hc
  have hpoint : c ≠ '.' := by rintro rfl; exact absurd hc (by decide)
  have hangle : c ≠ '<' := by rintro rfl; exact absurd hc (by decide)
  have hzero : c ≠ '0' := by rintro rfl; exact absurd hc (by decide)
  refine ⟨?_, ?_, ?_⟩
  · rw [List.cons_append, integer, List.takeWhile_cons, hdigit]
    rfl
  · have hmantissa : mantissa (c :: (t ++ r)) = [] := by
      rw [mantissa.eq_3 _ _ hpoint (fun _ heq _ => hzero heq), hdigit]
      rfl
    rw [List.cons_append, float_eq, if_pos hmantissa]
  · exact searchPath_of_ne (by simpa using hangle)

/-- A name is the longest word where neither a path nor a url begins. -/
theorem longest?_append {r : Text} (hr : ∀ c ∈ r.head?, Word.isIdentChar c = false)
    (hpath : '/' ∉ segments (name ++ r)) (huri : (uri (name ++ r)).length ≤ name.length) :
    longest? (name ++ r) = some (.identifier, name) := by
  obtain ⟨hinteger, hfloat, hsearch⟩ := hname.number_eq_nil r
  have hidentifier := hname.identifier_append hr
  have htilde : (name ++ r).head? ≠ some '~' := by
    obtain ⟨c, t, rfl, hc⟩ := hname.exists_start
    rintro htilde
    obtain rfl : c = '~' := by simpa using htilde
    exact absurd hc (by decide)
  refine longest?_of_identifier hidentifier hname.ne_nil ?_
  simp only [classes, List.mem_cons, List.not_mem_nil, or_false]
  rintro entry (rfl | rfl | rfl | rfl | rfl | rfl)
  · exact Nat.le_of_eq (congrArg List.length hidentifier)
  · simp [hinteger]
  · simp [hfloat]
  · simp [path_eq_nil hpath htilde]
  · simp [hsearch]
  · exact huri

theorem not_mem_segments {r : Text} (hle : (segments (name ++ r)).length ≤ name.length) :
    '/' ∉ segments (name ++ r) := by
  intro hslash
  have hwithin : segments (name ++ r) <+: name :=
    List.prefix_of_prefix_length_le (segments_within _) (List.prefix_append _ _) hle
  exact hname.not_mem (by decide) (hwithin.subset hslash)

theorem uri_length_le {r : Text} {c : Char} (hscheme : isSchemeChar c = false) (hcolon : c ≠ ':') :
    (uri (name ++ c :: r)).length ≤ name.length := by
  refine Nat.le_of_not_lt fun hlt => ?_
  have hle : name ++ [c] <+: uri (name ++ c :: r) := by
    refine List.prefix_of_prefix_length_le ⟨r, by simp⟩ (lawful_uri.within _) ?_
    simpa using Nat.succ_le_of_lt hlt
  have huri := (isUri_of_le_uri (by simp) hle).of_le hle hscheme hcolon
  generalize hw : name ++ [c] = w at huri
  obtain ⟨_, _, _, _⟩ := huri
  have hmem : ':' ∈ name ++ [c] := by rw [hw]; simp
  rcases List.mem_append.1 hmem with hmem | hmem
  · exact hname.not_mem (by decide) hmem
  · exact hcolon (List.mem_singleton.1 hmem).symm

/-- A name is a word of its own in front of a character that goes on neither with it nor
with a path or a url. -/
theorem longest?_of_head {r : Text} {c : Char} (hident : Word.isIdentChar c = false)
    (hpath : isPathChar c = false) (hslash : c ≠ '/') (hscheme : isSchemeChar c = false)
    (hcolon : c ≠ ':') : longest? (name ++ c :: r) = some (.identifier, name) := by
  refine hname.longest?_append ?_ ?_ (hname.uri_length_le hscheme hcolon)
  · simpa using hident
  · exact hname.not_mem_segments (segments_length_le hpath hslash)

theorem longest?_of_comment {r : Text} :
    longest? (name ++ '/' :: '*' :: r) = some (.identifier, name) := by
  refine hname.longest?_append ?_ ?_ (hname.uri_length_le (by decide) (by decide))
  · intro c hc
    obtain rfl := Option.some.inj hc
    decide
  · exact hname.not_mem_segments segments_comment_le

/-- A name is a word of its own in front of a text without slashes and colons that ends with
a character that is in no word. -/
theorem longest?_of_barrier {a b : Text} {c : Char} (ha : ∀ d ∈ a.head?, Word.isIdentChar d = false)
    (hslash : '/' ∉ a) (hcolon : ':' ∉ a) (hplain : isPlain c = false)
    (huri : isUriChar c = false) :
    longest? (name ++ (a ++ c :: b)) = some (.identifier, name) := by
  have hpathChar : isPathChar c = false := by
    cases hc : isPathChar c with
    | false => rfl
    | true =>
      rw [isPlain_of_isPathChar hc] at hplain
      exact hplain
  have hidentChar : Word.isIdentChar c = false := by
    cases hc : Word.isIdentChar c with
    | false => rfl
    | true =>
      rw [isPlain_of_isIdentChar hc] at hplain
      exact hplain
  have hne : c ≠ '/' := by rintro rfl; exact absurd hplain (by decide)
  refine hname.longest?_append ?_ ?_ ?_
  · cases a with
    | nil => simpa using hidentChar
    | cons d a => exact ha
  · intro hmem
    rw [← List.append_assoc] at hmem
    have hwithin : segments (name ++ a ++ c :: b) <+: name ++ a :=
      List.prefix_of_prefix_length_le (segments_within _) (List.prefix_append _ _)
        (segments_length_le hpathChar hne)
    rcases List.mem_append.1 (hwithin.subset hmem) with hmem | hmem
    · exact hname.not_mem (by decide) hmem
    · exact hslash hmem
  · rcases uri_cases (name ++ (a ++ c :: b)) with hnil | ⟨hisUri, hle⟩
    · simp [hnil]
    · have hlength := lawful_uri.length_le_of_not_alphabet (a := name ++ a) (b := b) huri
      rw [List.append_assoc] at hlength
      have hwithin : uri (name ++ (a ++ c :: b)) <+: name ++ a := by
        refine List.prefix_of_prefix_length_le hle ⟨c :: b, by simp⟩ hlength
      generalize uri (name ++ (a ++ c :: b)) = w at hisUri hwithin
      obtain ⟨_, _, _, _⟩ := hisUri
      rcases List.mem_append.1 (hwithin.subset (a := ':') (by simp)) with hmem | hmem
      · exact absurd hmem (hname.not_mem (by decide))
      · exact absurd hmem hcolon

end IsName

end Word

namespace Scan

/-- The text of some pieces. -/
abbrev textOf (ps : List Piece) : Text :=
  ps.flatMap Piece.text

/-- Pieces that the scanner takes in front of `r` wherever no string is open, and that leave
none open. -/
def Fits (ps : List Piece) (r : Text) : Prop :=
  ∀ m, inString m = false → Run r m (textOf ps) ps m

theorem Fits.nil {r : Text} : Fits [] r :=
  fun _ _ => .nil

theorem Fits.append {ps qs : List Piece} {r : Text} (hps : Fits ps (textOf qs ++ r))
    (hqs : Fits qs r) : Fits (ps ++ qs) r := by
  intro m hm
  rw [textOf, List.flatMap_append]
  exact (hps m hm).append (hqs m hm)

theorem Fits.cons {p : Piece} {qs : List Piece} {r : Text} (hp : Fits [p] (textOf qs ++ r))
    (hqs : Fits qs r) : Fits (p :: qs) r :=
  hp.append hqs

theorem fits_of_steps {p : Piece} {r : Text}
    (h : ∀ m, inString m = false → Steps m (p.text ++ r) ⟨[p], m, r⟩) : Fits [p] r := by
  intro m hm
  refine Run.single (s := ⟨[p], m, r⟩) ?_ rfl
  simpa [Step.text] using h m hm

/-- Outside of string literals the innermost delimiter does not matter. -/
theorem steps_bare {m : List Mode} (hm : inString m = false) {c : Char} {t : Text} {s : Step}
    (h : bareStep m c t = .ok s) : Steps m (c :: t) s := by
  refine ⟨c, t, rfl, ?_⟩
  rcases m with _ | ⟨_ | _ | _ | _, m⟩
  all_goals first | exact h | exact Bool.noConfusion hm

/-! ## Blanks and symbols -/

/-- Each blank is a gap of its own. -/
def blanks (t : Text) : List Piece :=
  t.map fun c => .gap [c]

@[simp]
theorem textOf_blanks (t : Text) : textOf (blanks t) = t := by
  induction t with
  | nil => rfl
  | cons c t ih => exact congrArg (c :: ·) ih

theorem fits_blanks {t : Text} (ht : ∀ c ∈ t, isGap c = true) (r : Text) : Fits (blanks t) r := by
  induction t with
  | nil => exact .nil
  | cons c t ih =>
    refine .cons (fits_of_steps fun m hm => steps_bare hm ?_) ?_
    · unfold bareStep
      rw [if_pos (ht c List.mem_cons_self)]
      rfl
    · exact ih fun d hd => ht d (List.mem_cons_of_mem _ hd)

theorem fits_semicolon (r : Text) : Fits [.token .semicolon [';']] r :=
  fits_of_steps fun _ hm => steps_bare hm rfl

theorem fits_comma (r : Text) : Fits [.token .comma [',']] r :=
  fits_of_steps fun _ hm => steps_bare hm rfl

/-! ## Names -/

/-- A word that begins like a name and is no path is a token of its own where it is the longest
word. -/
theorem fits_word {kind : TokenKind} {c : Char} {t r : Text} (hc : Word.isIdentStart c = true)
    (hkind : kind ≠ .path) (h : Word.longest? (c :: t ++ r) = some (kind, c :: t)) :
    Fits [.token (wordKind kind (c :: t)) (c :: t)] r := by
  refine fits_of_steps fun m hm => ?_
  have hne : ∀ d, Word.isIdentStart d = false → c ≠ d := by
    rintro d hd rfl
    rw [hc] at hd
    exact Bool.noConfusion hd
  have hgap : isGap c = false := by
    simp only [isGap, Bool.or_eq_false_iff, beq_eq_false_iff_ne]
    exact ⟨⟨⟨hne _ (by decide), hne _ (by decide)⟩, hne _ (by decide)⟩, hne _ (by decide)⟩
  have hcomment : ¬['/', '*'] <+: c :: (t ++ r) := by
    intro hle
    exact hne '/' (by decide) (List.cons_prefix_cons.1 hle).1.symm
  have hdelimiter : delimiter? m (c :: (t ++ r)) = none := by
    unfold delimiter?
    split
    · next heq => exact absurd (List.cons.inj heq).1 (hne _ (by decide))
    · next heq => exact absurd (List.cons.inj heq).1 (hne _ (by decide))
    · next heq => exact absurd (List.cons.inj heq).1 (hne _ (by decide))
    · next heq => exact absurd (List.cons.inj heq).1 (hne _ (by decide))
    · next heq => exact absurd (List.cons.inj heq).1 (hne _ (by decide))
    · rfl
  have hword : word c (t ++ r) = .ok (wordKind kind (c :: t), c :: t) := by
    unfold word
    rw [← List.cons_append, h]
    exact if_neg fun hpath => hkind hpath.1
  refine steps_bare (t := t ++ r) hm ?_
  rw [bareStep_of_token hgap (hne _ (by decide)) hcomment]
  simp only [tokenStep, hdelimiter, hword]
  rw [← List.cons_append, List.drop_left]

theorem fits_name {name r : Text} (hname : Word.IsName name)
    (h : Word.longest? (name ++ r) = some (.identifier, name)) :
    Fits [.token (wordKind .identifier name) name] r := by
  obtain ⟨c, t, rfl, hc⟩ := hname.exists_start
  exact fits_word hc (by decide) h

/-- A url is a word of its own in front of a character over which no word goes on. -/
theorem fits_uri {t : Text} (ht : Word.IsUri t) {c : Char} (hc : isHard c = true) (r : Text) :
    Fits [.token .uri t] (c :: r) := by
  have hrecord : Word.record (Word.longest? (t ++ c :: r)) ≤ t.length := by
    cases hlongest : Word.longest? (t ++ c :: r) with
    | none => exact Nat.zero_le _
    | some found =>
      obtain ⟨kind, lexeme⟩ := found
      obtain ⟨entry, hentry, rfl, rfl⟩ := Word.exists_class_of_longest? hlongest
      exact (Word.lawful_of_mem hentry).length_le_of_not_alphabet (alphabet_of_isHard hc entry.1)
  have hlongest := Word.longest?_of_isUri ht hrecord
  obtain ⟨d, u, rfl, hd⟩ : ∃ d u, t = d :: u ∧ Word.isIdentStart d = true := by
    obtain @⟨d, scheme, rest, hd, -, -, -⟩ := ht
    refine ⟨d, scheme ++ ':' :: rest, rfl, ?_⟩
    rw [Word.isIdentStart, hd, Bool.true_or]
  exact fits_word hd (by decide) hlongest

/-! ## String literals -/

/-- The pieces of a double-quoted string without interpolations. -/
def quotedPieces (text : Text) : List Piece :=
  [.token .quote ['"'], .token .text text, .token .quote ['"']]

/-- The pieces of an indented string without interpolations. -/
def indentedPieces (text : Text) : List Piece :=
  [.token .indentQuote ['\x27', '\x27'], .token .text text,
    .token .indentQuote ['\x27', '\x27']]

theorem steps_of_ne_nil {m : List Mode} {t : Text} {s : Step} (ht : t ≠ [])
    (h : ∀ c r, t = c :: r → step m c r = .ok s) : Steps m t s := by
  obtain ⟨c, r, rfl⟩ := List.exists_cons_of_ne_nil ht
  exact ⟨c, r, rfl, h c r rfl⟩

theorem fits_quoted (url r : Text) : Fits (quotedPieces (Edit.escape url)) r := by
  intro m hm
  have hbody : Steps (.quoted :: m) (Edit.escape url ++ '"' :: r)
      ⟨[.token .text (Edit.escape url), .token .quote ['"']], m, r⟩ := by
    refine steps_of_ne_nil (by simp) fun c t heq => ?_
    rw [step, ← heq, Literal.quoted?_escape]
    rfl
  have hopening : Steps m ('"' :: (Edit.escape url ++ '"' :: r))
      ⟨[.token .quote ['"']], .quoted :: m, Edit.escape url ++ '"' :: r⟩ :=
    steps_bare hm rfl
  refine .step (s := ⟨[.token .quote ['"']], .quoted :: m, Edit.escape url ++ '"' :: r⟩)
    (u := Edit.escape url ++ ['"']) ?_ ?_ ?_
  · simpa [Step.text] using hopening
  · simp
  · have hrun := Run.single (r := r) (m := .quoted :: m)
      (s := ⟨[.token .text (Edit.escape url), .token .quote ['"']], m, r⟩)
      (by simpa [Step.text] using hbody) rfl
    simpa [Step.text] using hrun

theorem fits_indented {url r : Text} (hurl : Literal.quotesApart url = true)
    (hr : Literal.escapesQuotes r.head? = false) :
    Fits (indentedPieces (Edit.escapeIndented url)) r := by
  intro m hm
  have hbody : Steps (.indented :: m) (Edit.escapeIndented url ++ '\x27' :: '\x27' :: r)
      ⟨[.token .text (Edit.escapeIndented url), .token .indentQuote ['\x27', '\x27']], m, r⟩ := by
    refine steps_of_ne_nil (by simp) fun c t heq => ?_
    rw [step, ← heq, (Literal.indented?_escape hr).2 hurl]
    rfl
  have hopening : Steps m ('\x27' :: '\x27' :: (Edit.escapeIndented url ++ '\x27' :: '\x27' :: r))
      ⟨[.token .indentQuote ['\x27', '\x27']], .indented :: m,
        Edit.escapeIndented url ++ '\x27' :: '\x27' :: r⟩ :=
    steps_bare hm rfl
  refine .step (s := ⟨[.token .indentQuote ['\x27', '\x27']], .indented :: m,
    Edit.escapeIndented url ++ '\x27' :: '\x27' :: r⟩)
    (u := Edit.escapeIndented url ++ ['\x27', '\x27']) ?_ ?_ ?_
  · simpa [Step.text] using hopening
  · simp
  · have hrun := Run.single (r := r) (m := .indented :: m)
      (s := ⟨[.token .text (Edit.escapeIndented url), .token .indentQuote ['\x27', '\x27']], m, r⟩)
      (by simpa [Step.text] using hbody) rfl
    simpa [Step.text] using hrun

/-! ## Declarations -/

/-- A dot is a token of its own where neither a number nor a path begins with it. -/
theorem fits_dot {c : Char} {r : Text} (hdot : c ≠ '.') (hdigit : Word.isDigit c = false)
    (hpath : '/' ∉ Word.segments ('.' :: c :: r)) : Fits [.token .dot ['.']] (c :: r) := by
  have hlongest : Word.longest? ('.' :: c :: r) = none := by
    refine Word.foldl_longer_of_le ?_
    simp only [Word.classes, List.mem_cons, List.not_mem_nil, or_false]
    rintro entry (rfl | rfl | rfl | rfl | rfl | rfl)
    · exact Nat.le_refl 0
    · exact Nat.le_refl 0
    · simp [Word.float, Word.mantissa, hdigit, Word.record]
    · exact Nat.le_of_eq (congrArg List.length (Word.path_eq_nil hpath (by simp)))
    · exact Nat.le_refl 0
    · exact Nat.le_refl 0
  have hpunctuation : punctuation? ('.' :: c :: r) = some (.dot, ['.']) := by
    have hellipsis : "...".toList.isPrefixOf ('.' :: c :: r) = false := by
      simp [List.isPrefixOf, hdot.symm]
    rw [punctuation?, punctuation, List.findSome?_cons]
    simp only [hellipsis, Bool.false_eq_true, if_false]
    rfl
  refine fits_of_steps fun m hm => steps_bare (t := c :: r) hm ?_
  rw [bareStep_of_token (by decide) (by decide) (by simp)]
  have hdelimiter : delimiter? m ('.' :: c :: r) = none := rfl
  have hword : word '.' (c :: r) = .ok (.dot, ['.']) := by
    simp only [word, hlongest, hpunctuation]
  simp only [tokenStep, hdelimiter, hword]
  rfl

/-- Whether a name is written without quotes where it is a key. -/
def isBareKey (name : Text) : Bool :=
  Edit.isIdentifier name || name == "or".toList

theorem isName_of_isBareKey {name : Text} (h : isBareKey name = true) : Word.IsName name := by
  rw [isBareKey, Bool.or_eq_true] at h
  rcases h with h | h
  · simp only [Edit.isIdentifier, Bool.and_eq_true, Bool.not_eq_true', List.isEmpty_eq_false_iff,
      beq_iff_eq] at h
    exact ⟨h.1.1, h.1.2⟩
  · obtain rfl := beq_iff_eq.1 h
    exact ⟨by decide, by decide⟩

/-- The pieces of a name as a key. -/
def keyPieces (name : Text) : List Piece :=
  if isBareKey name then [.token (wordKind .identifier name) name]
  else quotedPieces (Edit.escape name)

theorem textOf_keyPieces (name : Text) : textOf (keyPieces name) = Edit.attrName name := by
  unfold keyPieces Edit.attrName isBareKey
  split
  · simp
  · simp [quotedPieces, Edit.stringLiteral]

/-- The pieces of the declaration of an input behind its name. -/
def assignmentPieces (url : Text) : List Piece :=
  [Piece.token .dot ['.'], .token .identifier Manifest.urlName, .gap [' '], .token .assign ['='],
    .gap [' ']] ++ quotedPieces (Edit.escape url) ++ [Piece.token .semicolon [';']]

/-- The pieces of the declaration of an input. -/
def declarationPieces (name url : Text) (qualified : Bool) : List Piece :=
  (if qualified then [Piece.token .identifier Manifest.inputsName, .token .dot ['.']] else []) ++
    (keyPieces name ++ assignmentPieces url)

theorem textOf_assignmentPieces (url : Text) :
    textOf (assignmentPieces url) = ".url = ".toList ++ Edit.stringLiteral url ++ [';'] := by
  simp [assignmentPieces, quotedPieces, Edit.stringLiteral, Manifest.urlName]

theorem textOf_declarationPieces (name url : Text) (qualified : Bool) :
    textOf (declarationPieces name url qualified) = Edit.declaration name url qualified := by
  have hqualifier : textOf (if qualified then
      [.token .identifier Manifest.inputsName, .token .dot ['.']] else []) =
      if qualified then "inputs.".toList else [] := by
    cases qualified <;> rfl
  unfold declarationPieces Edit.declaration
  rw [textOf, List.flatMap_append, List.flatMap_append, ← textOf, ← textOf, ← textOf, hqualifier,
    textOf_keyPieces, textOf_assignmentPieces]
  simp only [List.append_assoc]

theorem fits_assignment (url r : Text) : Fits (assignmentPieces url) r := by
  have hurl : Word.IsName Manifest.urlName := ⟨by decide, by decide⟩
  have hliteral : Fits (quotedPieces (Edit.escape url) ++ [Piece.token .semicolon [';']]) r :=
    (fits_quoted url _).append (fits_semicolon r)
  have hspace : ∀ r, Fits [.gap [' ']] r :=
    fits_blanks (t := [' ']) (List.all_eq_true.1 (by decide))
  refine .cons (fits_of_steps fun m hm => steps_bare hm rfl) ?_
  refine .cons (fits_name hurl (hurl.longest?_of_head (c := ' ') (by decide) (by decide)
    (by decide) (by decide) (by decide))) ?_
  refine .cons (hspace _) (.cons (fits_of_steps fun m hm => steps_bare hm rfl) ?_)
  exact .cons (hspace _) hliteral

theorem fits_key (name url r : Text) :
    Fits (keyPieces name) (textOf (assignmentPieces url) ++ r) := by
  unfold keyPieces
  split
  · next hbare =>
    have hname := isName_of_isBareKey hbare
    refine fits_name hname ?_
    rw [textOf_assignmentPieces]
    exact hname.longest?_of_barrier (a := ".url".toList) (c := ' ')
      (b := "= ".toList ++ Edit.stringLiteral url ++ [';'] ++ r)
      (fun d hd => by obtain rfl := Option.some.inj hd; decide) (by decide) (by decide) (by decide)
      (by decide)
  · exact fits_quoted name _

/-- A key in front of a blank, up to where no word goes on. -/
theorem exists_barrier_of_attrName (name z : Text) :
    ∃ d a c b, Edit.attrName name ++ (".url".toList ++ ' ' :: z) = a ++ c :: b ∧
      '/' ∉ a ∧ ':' ∉ a ∧ Word.isPlain c = false ∧ Word.isUriChar c = false ∧
      (a ++ c :: b).head? = some d ∧ d ≠ '.' ∧ Word.isDigit d = false := by
  by_cases hbare : isBareKey name = true
  · have hname := isName_of_isBareKey hbare
    obtain ⟨d, t, hd, hstart⟩ := hname.exists_start
    refine ⟨d, name ++ ".url".toList, ' ', z, ?_, ?_, ?_, by decide, by decide, ?_, ?_,
      Word.isDigit_of_isIdentStart hstart⟩
    · rw [Edit.attrName, ← isBareKey, if_pos hbare, List.append_assoc]
    · simpa using hname.not_mem (by decide)
    · simpa using hname.not_mem (by decide)
    · rw [hd]
      rfl
    · rintro rfl
      exact absurd hstart (by decide)
  · refine ⟨'"', [], '"', Edit.escape name ++ ['"'] ++ (".url".toList ++ ' ' :: z), ?_, by simp,
      by simp, by decide, by decide, rfl, by decide, by decide⟩
    rw [Edit.attrName, ← isBareKey, if_neg hbare]
    rfl

theorem fits_qualifier {d c : Char} {a b : Text} (hslash : '/' ∉ a) (hcolon : ':' ∉ a)
    (hplain : Word.isPlain c = false) (huri : Word.isUriChar c = false)
    (hhead : (a ++ c :: b).head? = some d) (hdot : d ≠ '.') (hdigit : Word.isDigit d = false) :
    Fits [.token .identifier Manifest.inputsName, .token .dot ['.']] (a ++ c :: b) := by
  have hinputs : Word.IsName Manifest.inputsName := ⟨by decide, by decide⟩
  have hpath : (Word.segments ('.' :: a ++ c :: b)).length ≤ ('.' :: a).length := by
    refine Word.segments_length_le ?_ ?_
    · cases hc : Word.isPathChar c with
      | false => rfl
      | true =>
        rw [Word.isPlain_of_isPathChar hc] at hplain
        exact hplain
    · rintro rfl
      exact absurd hplain (by decide)
  refine .cons (fits_name hinputs ?_) ?_
  · exact hinputs.longest?_of_barrier (a := '.' :: a)
      (fun d hd => by obtain rfl := Option.some.inj hd; decide) (by simpa using hslash)
      (by simpa using hcolon) hplain huri
  · obtain ⟨t, ht⟩ := List.head?_eq_some_iff.1 hhead
    rw [List.cons_append, ht] at hpath
    rw [ht]
    refine fits_dot hdot hdigit fun hmem => ?_
    have hwithin : Word.segments ('.' :: d :: t) <+: '.' :: a := by
      refine List.prefix_of_prefix_length_le (Word.segments_within _) ?_ hpath
      exact ⟨c :: b, by rw [List.cons_append, ht]⟩
    exact absurd (hwithin.subset hmem) (by simpa using hslash)

/-- A declaration is read as such in front of any text. -/
theorem fits_declaration (name url : Text) (qualified : Bool) (r : Text) :
    Fits (declarationPieces name url qualified) r := by
  have hkey := (fits_key name url r).append (fits_assignment url r)
  cases qualified with
  | false => exact hkey
  | true =>
    have htext : textOf (keyPieces name ++ assignmentPieces url) ++ r =
        Edit.attrName name ++ (".url".toList ++ ' ' :: ("= ".toList ++ Edit.stringLiteral url ++
          [';'] ++ r)) := by
      rw [textOf, List.flatMap_append, ← textOf, ← textOf, textOf_keyPieces,
        textOf_assignmentPieces]
      simp
    obtain ⟨d, a, c, b, heq, hslash, hcolon, hplain, huri, hhead, hdot, hdigit⟩ :=
      exists_barrier_of_attrName name ("= ".toList ++ Edit.stringLiteral url ++ [';'] ++ r)
    refine Fits.append ?_ hkey
    rw [htext, heq]
    exact fits_qualifier hslash hcolon hplain huri hhead hdot hdigit

/-! ## Parameters -/

theorem isName_of_isIdentifier {name : Text} (h : Edit.isIdentifier name = true) :
    Word.IsName name ∧ wordKind .identifier name = .identifier := by
  simp only [Edit.isIdentifier, Bool.and_eq_true, Bool.not_eq_true', List.isEmpty_eq_false_iff,
    beq_iff_eq, Option.isNone_iff_eq_none] at h
  refine ⟨⟨h.1.1, h.1.2⟩, ?_⟩
  simp only [wordKind, h.2]

/-- Whether a text begins with a gap, a comma or a closing brace. -/
def endsParameter : Text → Bool
  | '/' :: '*' :: _ => true
  | c :: _ => isGap c || c == '#' || c == ',' || c == '}'
  | [] => false

theorem longest?_of_endsParameter {name r : Text} (hname : Word.IsName name)
    (hr : endsParameter r = true) : Word.longest? (name ++ r) = some (.identifier, name) := by
  unfold endsParameter at hr
  split at hr
  · exact hname.longest?_of_comment
  · simp only [isGap, Bool.or_eq_true, beq_iff_eq] at hr
    rcases hr with (((((rfl | rfl) | rfl) | rfl) | rfl) | rfl) | rfl
    all_goals
      exact hname.longest?_of_head (by decide) (by decide) (by decide) (by decide) (by decide)
  · exact Bool.noConfusion hr

/-- A name behind a blank. -/
theorem fits_spaced {name r : Text} (hname : Edit.isIdentifier name = true)
    (hr : endsParameter r = true) : Fits [.gap [' '], .token .identifier name] r := by
  obtain ⟨hword, hkind⟩ := isName_of_isIdentifier hname
  have hlast := fits_name hword (longest?_of_endsParameter hword hr)
  rw [hkind] at hlast
  exact .cons (fits_blanks (t := [' ']) (List.all_eq_true.1 (by decide)) _) hlast

/-- A parameter behind others. -/
theorem fits_appended {name r : Text} (hname : Edit.isIdentifier name = true)
    (hr : endsParameter r = true) :
    Fits [.token .comma [','], .gap [' '], .token .identifier name] r :=
  .cons (fits_comma _) (fits_spaced hname hr)

/-- A parameter in front of others. -/
theorem fits_prepended {name : Text} (hname : Edit.isIdentifier name = true) (r : Text) :
    Fits [.token .identifier name, .token .comma [','], .gap [' ']] r := by
  obtain ⟨hword, hkind⟩ := isName_of_isIdentifier hname
  have hfirst := fits_name hword (longest?_of_endsParameter (r := ',' :: ' ' :: r) hword rfl)
  rw [hkind] at hfirst
  exact .cons hfirst
    (.cons (fits_comma _) (fits_blanks (t := [' ']) (List.all_eq_true.1 (by decide)) _))

end Scan
end FlakeInputs
