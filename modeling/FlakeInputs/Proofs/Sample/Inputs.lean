import FlakeInputs.Proofs.Edit.Acceptance
import FlakeInputs.Proofs.Grammar.Phrases
import FlakeInputs.Proofs.Sample.Draws
import FlakeInputs.Sample.Manifest
import Mathlib.Data.List.TakeWhile

/-!
# The inputs of samples

Whatever is drawn, the lines of a sample that declare inputs spell bindings of a plain manifest.
The names are identifiers, so no word goes on over the end of a name, and the urls are written as
they are.
-/

namespace FlakeInputs

namespace Word

theorem isUriChar_of_isIdentChar {c : Char} (h : isIdentChar c = true) : isUriChar c = true := by
  simp only [isIdentChar, Bool.or_eq_true, beq_iff_eq] at h
  rcases h with (((h | h) | rfl) | rfl) | rfl
  · rw [isUriChar, h, Bool.true_or, Bool.true_or]
  · rw [isUriChar, h, Bool.or_true, Bool.true_or]
  all_goals decide

theorem isUriChar_of_isDigit {c : Char} (h : isDigit c = true) : isUriChar c = true := by
  rw [isUriChar, h, Bool.or_true, Bool.true_or]

end Word

namespace Edit

theorem escape_eq_of_not_mem {t : Text} (hquote : '"' ∉ t) (hbackslash : '\\' ∉ t)
    (hbrace : '{' ∉ t) : escape t = t := by
  apply escape_eq_self hquote hbackslash
  intro hpart
  exact hbrace (hpart.subset (by simp))

/-- A url is written as it is in quotes. -/
theorem escape_of_isUri {t : Text} (h : Word.IsUri t) : escape t = t := by
  have hnot : ∀ {c : Char}, Word.isUriChar c = false → c ∉ t := by
    intro c hc hmem
    rw [h.spelled c hmem] at hc
    cases hc
  exact escape_eq_of_not_mem (hnot (by decide)) (hnot (by decide)) (hnot (by decide))

end Edit

namespace Sample

open Grammar Scan
open Draw (Yields yields_any yields_pure yields_choose yields_mapM yields_times)
open Edit (isIdentifier TakesInputs)
open Lookup (startsWith)
open Manifest (IsUrl IsInput IsPlain inputsName outputsName urlName)

/-! ## Names and urls -/

theorem mem_reserved_of_ofText? {t : Text} {k : Keyword} (h : Keyword.ofText? t = some k) :
    t ∈ reserved := by
  have hall : ∀ k ∈ Keyword.all, k.word.toList ∈ reserved := by decide
  have hword := List.find?_some h
  rw [← beq_iff_eq.1 hword]
  exact hall k (List.mem_of_find?_eq_some h)

/-- Names of samples are identifiers. -/
theorem yields_name : name.Yields fun drawn => isIdentifier drawn = true := by
  have hletters : ∀ c ∈ letters, Word.isIdentStart c = true := List.all_eq_true.1 (by decide)
  have hchars : ∀ c ∈ nameChars, Word.isIdentChar c = true := List.all_eq_true.1 (by decide)
  have hreserved : ∀ t ∈ reserved, isIdentifier (t ++ "-x".toList) = true := by decide
  unfold name
  apply (yields_choose letters).bind
  intro head hhead
  apply (yields_any _).bind
  intro length _
  apply (yields_times (yields_choose nameChars) length).bind
  intro tail htail
  apply yields_pure
  split
  · next hmem => exact hreserved _ hmem
  · next hmem =>
    have hname : Word.identifier (head :: tail) = head :: tail := by
      rw [Word.identifier, if_pos (hletters head hhead), List.takeWhile_eq_self_iff.2]
      exact fun c hc => hchars c (htail c hc)
    have hkeyword : Keyword.ofText? (head :: tail) = none := by
      cases hk : Keyword.ofText? (head :: tail) with
      | none => rfl
      | some k => exact absurd (mem_reserved_of_ofText? hk) hmem
    rw [isIdentifier, hname, hkeyword, beq_self_eq_true]
    rfl

theorem yields_names (n : Nat) :
    (names n).Yields fun drawn => ∀ t ∈ drawn, isIdentifier t = true := by
  induction n with
  | zero =>
    apply yields_pure
    intro t ht
    cases ht
  | succ n ih =>
    unfold names
    apply ih.bind
    intro seen hseen
    have hfresh : (freshName seen).Yields fun drawn => isIdentifier drawn = true := by
      apply Draw.yields_retry
      apply yields_name.bind
      intro drawn hdrawn
      apply yields_pure
      intro t ht
      split at ht
      · cases ht
      · rw [← Option.some.inj ht]
        exact hdrawn
    apply hfresh.bind
    intro drawn hdrawn
    apply yields_pure
    intro t ht
    rcases List.mem_append.1 ht with ht | ht
    · exact hseen t ht
    · rw [List.mem_singleton.1 ht]
      exact hdrawn

section
variable {name : Text} (hname : isIdentifier name = true)
include hname

theorem isUriChar_of_mem {c : Char} (hc : c ∈ name) : Word.isUriChar c = true :=
  Word.isUriChar_of_isIdentChar ((isName_of_isIdentifier hname).1.isIdentChar hc)

theorem yields_url : (url name).Yields Word.IsUri := by
  have howners : owners.all (·.all Word.isUriChar) = true := by decide
  have hchars : ∀ c ∈ name, Word.isUriChar c = true := fun c hc => isUriChar_of_mem hname hc
  unfold url
  apply (yields_any _).bind
  intro k _
  apply (yields_choose owners).bind
  intro owner howner
  have hpath : ∀ c ∈ owner ++ ['/'] ++ name, Word.isUriChar c = true := by
    rw [List.forall_mem_append, List.forall_mem_append]
    exact ⟨⟨List.all_eq_true.1 (List.all_eq_true.1 howners owner howner),
      List.all_eq_true.1 (by decide)⟩, hchars⟩
  split
  · apply yields_pure
    have huri : Word.IsUri ('g' :: ("ithub".toList ++ ':' :: (owner ++ ['/'] ++ name))) :=
      .intro (by decide) (List.all_eq_true.1 (by decide)) hpath (by simp)
    simp only [List.append_assoc] at huri ⊢
    exact huri
  split
  · apply (yields_any _).bind
    intro version _
    apply yields_pure
    have hdigits : ∀ c ∈ Nat.toDigits 10 version, Word.isUriChar c = true := fun c hc =>
      Word.isUriChar_of_isDigit (Nat.isDigit_of_mem_toDigits (by decide) (by decide) hc)
    have hrest : ∀ c ∈ "//flakehub.com/f/".toList ++ ((owner ++ ['/'] ++ name) ++
        ("/0.".toList ++ (Nat.toDigits 10 version ++ ".*".toList))), Word.isUriChar c = true := by
      rw [List.forall_mem_append]
      refine ⟨List.all_eq_true.1 (by decide), List.forall_mem_append.2 ⟨hpath, ?_⟩⟩
      rw [List.forall_mem_append, List.forall_mem_append]
      exact ⟨List.all_eq_true.1 (by decide), hdigits, List.all_eq_true.1 (by decide)⟩
    have huri : Word.IsUri ('h' :: ("ttps".toList ++ ':' :: _)) :=
      .intro (by decide) (List.all_eq_true.1 (by decide)) hrest (by simp)
    simp only [List.append_assoc] at huri ⊢
    exact huri
  · apply yields_pure
    have hrest : ∀ c ∈ "//example.org/".toList ++ ((owner ++ ['/'] ++ name) ++
        ".git?ref=main".toList), Word.isUriChar c = true := by
      rw [List.forall_mem_append, List.forall_mem_append]
      exact ⟨List.all_eq_true.1 (by decide), hpath, List.all_eq_true.1 (by decide)⟩
    have huri : Word.IsUri ('g' :: ("it+https".toList ++ ':' :: _)) :=
      .intro (by decide) (List.all_eq_true.1 (by decide)) hrest (by simp)
    simp only [List.append_assoc] at huri ⊢
    exact huri

theorem yields_urlValue :
    (urlValue name).Yields fun value => ∀ r, Spells .expr IsUrl value (';' :: r) := by
  have hquoted : ∀ {url : Text}, Word.IsUri url →
      ∀ r, Spells .expr IsUrl ('"' :: url ++ ['"']) (';' :: r) := by
    intro url hurl r
    apply (spells_string (Edit.escape_of_isUri hurl) _).expr.imp
    rintro e ⟨span, he⟩
    exact .inr ⟨span, url, he⟩
  unfold urlValue
  apply (yields_url hname).bind
  intro url hurl
  split
  · apply (yields_any _).bind
    intro bare _
    apply yields_pure
    split
    · intro r
      apply (spells_uri hurl r).expr.imp
      exact fun e he => .inl ⟨url, he⟩
    · exact hquoted hurl
  · exact yields_pure (hquoted hurl)

end

/-! ## Lines -/

/-- Lines with their ends. -/
def written (lines : List Text) : Text :=
  lines.flatMap fun line => line ++ ['\n']

theorem written_append (front back : List Text) :
    written (front ++ back) = written front ++ written back :=
  List.flatMap_append

theorem written_cons (line : Text) (lines : List Text) :
    written (line :: lines) = written [line] ++ written lines :=
  written_append [line] lines

theorem intercalate_eq_written {lines : List Text} (h : lines ≠ []) :
    ['\n'].intercalate lines ++ ['\n'] = written lines := by
  induction lines with
  | nil => exact absurd rfl h
  | cons line lines ih =>
    cases lines with
    | nil => rw [List.intercalate_singleton]; simp [written]
    | cons next lines =>
      rw [List.intercalate_cons_cons, List.append_assoc, ih (List.cons_ne_nil _ _)]
      rfl

/-- A binding of a plain manifest beside the outputs. -/
def IsBeside (c : KeyValue) : Prop :=
  IsPlain c ∧ startsWith outputsName c = false

theorem startsWith_of_ne {segment key : Text} {c : KeyValue} {names : List (Option Text)}
    (hnames : c.names = some key :: names) (hne : key ≠ segment) :
    startsWith segment c = false := by
  simp [startsWith, hnames, hne]

theorem isBeside_of_inputs {c : KeyValue} {names : List (Option Text)}
    (hnames : c.names = some inputsName :: names) (hplain : IsPlain c) : IsBeside c :=
  ⟨hplain, startsWith_of_ne hnames (by decide)⟩

/-- Bindings all of which have a property. -/
abbrev BindsAll (P : KeyValue → Prop) (t : Text) : Prop :=
  Binds (fun cs => ∀ c ∈ cs, P c) t

section
variable {P : KeyValue → Prop}

theorem bindsAll_one {Q : KeyValue → Prop} {t : Text} (h : Binds (fun cs => ∃ c, cs = [c] ∧ Q c) t)
    (himp : ∀ c, Q c → P c) : BindsAll P t := by
  apply h.imp
  rintro _ ⟨c, rfl, hc⟩ c' hc'
  rw [List.mem_singleton.1 hc']
  exact himp c hc

theorem bindsAll_append {t t' : Text} (h : BindsAll P t) (h' : BindsAll P t') :
    BindsAll P (t ++ t') := by
  apply (Binds.append h h').imp
  rintro _ ⟨front, back, rfl, hfront, hback⟩
  exact List.forall_mem_append.2 ⟨hfront, hback⟩

theorem bindsAll_blanks {t : Text} (ht : ∀ c ∈ t, isGap c = true) : BindsAll P t := by
  apply (binds_blanks ht).imp
  rintro _ rfl c hc
  cases hc

theorem bindsAll_nil : BindsAll P [] :=
  bindsAll_blanks fun c hc => by cases hc

theorem bindsAll_blankLine : BindsAll P (written [[]]) :=
  bindsAll_blanks (List.all_eq_true.1 (by decide))

theorem bindsAll_written {lines : List Text} (h : ∀ line ∈ lines, BindsAll P (written [line])) :
    BindsAll P (written lines) := by
  induction lines with
  | nil => exact bindsAll_nil
  | cons line lines ih =>
    rw [written_cons]
    exact bindsAll_append (h line List.mem_cons_self)
      (ih fun l hl => h l (List.mem_cons_of_mem _ hl))

theorem bindsAll_flatten {groups : List (List Text)}
    (h : ∀ group ∈ groups, BindsAll P (written group)) :
    BindsAll P (written groups.flatten) := by
  induction groups with
  | nil => exact bindsAll_nil
  | cons group groups ih =>
    rw [List.flatten_cons, written_append]
    exact bindsAll_append (h group List.mem_cons_self)
      (ih fun g hg => h g (List.mem_cons_of_mem _ hg))

end

theorem spells_word {name : Text} (hname : isIdentifier name = true) (r : Text) :
    Spells .expr (fun _ => True) name (';' :: r) := by
  have hlongest : Word.longest? (name ++ ';' :: r) = some (.identifier, name) :=
    (isName_of_isIdentifier hname).1.longest?_of_head (by decide) (by decide) (by decide)
      (by decide) (by decide)
  exact (spells_identifier hname hlongest).expr.imp fun _ _ => trivial

/-! ## Bindings on lines -/

section
variable {indent : Text} (hindent : ∀ c ∈ indent, isGap c = true)
include hindent

theorem isGap_of_indented {depth : Nat} : ∀ c ∈ (List.replicate depth indent).flatten,
    isGap c = true := by
  intro c hc
  obtain ⟨l, hl, hc⟩ := List.mem_flatten.1 hc
  rw [List.eq_of_mem_replicate hl] at hc
  exact hindent c hc

theorem binds_line {Q : List KeyValue → Prop} {line : Text} (h : Binds Q line) (depth : Nat) :
    Binds Q (written [indented indent depth line]) := by
  rw [written, List.flatMap_singleton, indented]
  apply Binds.ahead _ (List.all_eq_true.1 (by decide))
  exact h.behind (isGap_of_indented hindent)

/-- A line with one binding. -/
theorem binds_binding {P : Expr → Prop} {first value : Text} {names : List Text}
    (hfirst : isIdentifier first = true) (hnames : ∀ n ∈ names, isIdentifier n = true)
    (hvalue : ∀ r, Spells .expr P value (';' :: r)) (depth : Nat) :
    Binds (fun cs => ∃ c, cs = [c] ∧ c.names = (first :: names).map some ∧ P c.value)
      (written [indented indent depth
        (first ++ dotted names ++ (" = ".toList ++ (value ++ [';'])))]) :=
  binds_line hindent (binds_one fun r => spells_keyValue hnames hfirst (hvalue r)) depth

/-- A line with one binding whose key is a name. -/
theorem binds_key {P : Expr → Prop} (first : Text) {value : Text}
    (hfirst : isIdentifier first = true) (hvalue : ∀ r, Spells .expr P value (';' :: r))
    (depth : Nat) :
    Binds (fun cs => ∃ c, cs = [c] ∧ c.names = [some first] ∧ P c.value)
      (written [indented indent depth (first ++ (" = ".toList ++ (value ++ [';'])))]) := by
  have hnone : ∀ n ∈ ([] : List Text), isIdentifier n = true := fun n hn => by cases hn
  have hbinding := binds_binding hindent hfirst hnone hvalue depth
  rwa [dotted, List.flatMap_nil, List.append_nil] at hbinding

/-- Lines between braces, of which the closing one stands on a line of its own. -/
theorem spells_block {Q : List KeyValue → Prop} {lines : List Text} (h : Binds Q (written lines))
    (depth : Nat) (r : Text) :
    Spells .expr
      (fun e : Expr => ∃ ks : List KeyValue, e.node = .map (ks.map .keyValue) false ∧ Q ks)
      ('{' :: ('\n' :: (written lines ++ (List.replicate depth indent).flatten) ++ ['}'])) r := by
  have hinner : Binds Q (['\n'] ++ (written lines ++ (List.replicate depth indent).flatten)) :=
    (h.ahead (isGap_of_indented hindent)).behind (List.all_eq_true.1 (by decide))
  exact (hinner.set r).expr

/-- A binding of a set, with a line for the opening brace and one for the closing one. -/
theorem binds_set {Q : List KeyValue → Prop} (name : Text) {lines : List Text}
    (hname : isIdentifier name = true) (h : Binds Q (written lines)) (depth : Nat) :
    Binds (fun cs => ∃ c, cs = [c] ∧ c.names = [some name] ∧ ∃ ks : List KeyValue,
        c.value.node = .map (ks.map .keyValue) false ∧ Q ks)
      (written (indented indent depth (name ++ " = \x7b".toList) ::
        (lines ++ [closeSet indent depth]))) := by
  have htext : written (indented indent depth (name ++ " = \x7b".toList) ::
      (lines ++ [closeSet indent depth])) =
        written [indented indent depth (name ++ (" = ".toList ++ (('{' ::
          ('\n' :: (written lines ++ (List.replicate depth indent).flatten) ++ ['}'])) ++
            [';'])))] := by
    simp [written, indented, closeSet]
  rw [htext]
  exact binds_key hindent name hname (fun r => spells_block hindent h depth (';' :: r)) depth

/-! ## Inputs -/

section
variable {name : Text} (hname : isIdentifier name = true)
include hname

theorem yields_setLine : (setLine indent name).Yields fun line =>
    BindsAll (fun k => IsInput k k.names) (written [line]) := by
  have hurl : ∀ n ∈ [urlName], isIdentifier n = true := by decide
  unfold setLine
  apply (yields_urlValue hname).bind
  intro value hvalue
  apply yields_pure
  have htext : name ++ ".url = ".toList ++ value ++ [';'] =
      name ++ dotted [urlName] ++ (" = ".toList ++ (value ++ [';'])) := by
    simp [dotted, urlName]
  rw [htext]
  apply bindsAll_one (binds_binding hindent hname hurl hvalue 2)
  rintro k ⟨hnames, hvalue⟩
  rw [hnames]
  exact .url hvalue

theorem yields_setLines : (setLines indent name).Yields fun lines =>
    BindsAll (fun k => IsInput k k.names) (written lines) := by
  unfold setLines
  apply (yields_setLine hindent hname).bind
  intro line hline
  apply (yields_any _).bind
  intro follows _
  split
  · apply yields_pure
    rw [written_cons]
    apply bindsAll_append hline
    have hkeys : ∀ n ∈ ["inputs", "nixpkgs", "follows"].map String.toList,
        isIdentifier n = true := by
      decide
    have hvalue : ∀ r,
        Spells .expr (fun _ => True) ('"' :: ("nixpkgs".toList ++ ['"'])) (';' :: r) :=
      fun r => (spells_string (by decide) _).expr.imp fun _ _ => trivial
    have htext : name ++ ".inputs.nixpkgs.follows = \"nixpkgs\";".toList =
        name ++ dotted (["inputs", "nixpkgs", "follows"].map String.toList) ++
          (" = ".toList ++ ('"' :: ("nixpkgs".toList ++ ['"']) ++ [';'])) := by
      simp [dotted]
    rw [htext]
    apply bindsAll_one (binds_binding hindent hname hkeys hvalue 2)
    rintro k ⟨hnames, -⟩
    rw [hnames]
    exact .other (by decide)
  · exact yields_pure hline

theorem yields_dottedLine : (dottedLine indent name).Yields fun line =>
    BindsAll IsBeside (written [line]) := by
  unfold dottedLine
  apply (yields_urlValue hname).bind
  intro value hvalue
  apply yields_pure
  have hkeys : ∀ n ∈ [name, urlName], isIdentifier n = true := by
    intro n hn
    rcases List.mem_cons.1 hn with rfl | hn
    · exact hname
    · rw [List.mem_singleton.1 hn]
      decide
  have htext : "inputs.".toList ++ name ++ ".url = ".toList ++ value ++ [';'] =
      inputsName ++ dotted [name, urlName] ++ (" = ".toList ++ (value ++ [';'])) := by
    have hinputs : "inputs.".toList = inputsName ++ ['.'] := by decide
    rw [hinputs]
    simp [dotted, urlName]
  rw [htext]
  apply bindsAll_one (binds_binding hindent (by decide) hkeys hvalue 1)
  rintro c ⟨hnames, hvalue⟩
  exact isBeside_of_inputs hnames (.input hnames (.url hvalue))

theorem yields_nestedLines : (nestedLines indent name).Yields fun lines =>
    BindsAll (fun k => IsInput k k.names) (written lines) := by
  have hset : ∀ lines, Binds (fun ks => ∃ first rest, ks = first :: rest ∧
      first.names = [some urlName] ∧ IsUrl first.value) (written lines) →
      BindsAll (fun k => IsInput k k.names) (written
        (indented indent 2 (name ++ " = \x7b".toList) :: (lines ++ [closeSet indent 2]))) := by
    intro lines hlines
    apply bindsAll_one (binds_set hindent name hname hlines 2)
    rintro k ⟨hnames, _, hnode, first, rest, rfl, hfirst, hvalue⟩
    rw [hnames]
    exact .set hnode hfirst hvalue
  unfold nestedLines
  apply (yields_urlValue hname).bind
  intro value hvalue
  apply (yields_any _).bind
  intro flake _
  have hurl := binds_key hindent urlName (by decide) hvalue 3
  split
  · apply yields_pure
    have hfalse : isIdentifier "false".toList = true := by decide
    have hflake := binds_key hindent "flake".toList (by decide) (spells_word hfalse) 3
    apply hset [_, _]
    rw [written_cons]
    apply (hurl.append hflake).imp
    rintro _ ⟨_, _, rfl, ⟨k, rfl, hk⟩, -⟩
    exact ⟨k, _, rfl, hk⟩
  · apply yields_pure
    apply hset [_]
    apply hurl.imp
    rintro _ ⟨k, rfl, hk⟩
    exact ⟨k, [], rfl, hk⟩

theorem yields_splitLine : (splitLine indent name).Yields fun line =>
    BindsAll IsBeside (written [line]) := by
  have hnone : ∀ n ∈ ([] : List Text), isIdentifier n = true := fun n hn => by cases hn
  have hkeys : ∀ n ∈ [name], isIdentifier n = true := by
    intro n hn
    rw [List.mem_singleton.1 hn]
    exact hname
  have hkey : isIdentifier urlName = true := by decide
  unfold splitLine
  apply (yields_urlValue hname).bind
  intro value hvalue
  apply yields_pure
  have hurl := binds_one fun r => spells_keyValue hnone hkey (hvalue r)
  have hset := fun r => (((hurl.ahead isGap_space).behind isGap_space).set (';' :: r)).expr
  have htext : "inputs.".toList ++ name ++ " = \x7b url = ".toList ++ value ++ "; \x7d;".toList =
      inputsName ++ dotted [name] ++ (" = ".toList ++ ('{' :: ([' '] ++ (urlName ++ dotted [] ++
        (" = ".toList ++ (value ++ [';'])) ++ [' ']) ++ ['}']) ++ [';'])) := by
    have hinputs : "inputs.".toList = inputsName ++ ['.'] := by decide
    rw [hinputs]
    simp [dotted, urlName]
  rw [htext]
  apply bindsAll_one (binds_binding hindent (by decide) hkeys hset 1)
  rintro c ⟨hnames, _, hnode, k, rfl, hk, hvalue⟩
  exact isBeside_of_inputs hnames (.input hnames (.set hnode hk hvalue))

end

/-- The lines that declare inputs spell plain bindings other than the outputs. -/
theorem yields_inputLines {names : List Text} (hnames : ∀ n ∈ names, isIdentifier n = true)
    (shape : Shape) : (inputLines indent names shape).Yields fun lines =>
      BindsAll IsBeside (written lines) := by
  have hset : ∀ lines, BindsAll (fun k => IsInput k k.names) (written lines) →
      BindsAll IsBeside
        (written (openInputs indent :: (lines ++ [closeSet indent 1]))) := by
    intro lines hlines
    apply bindsAll_one (binds_set hindent inputsName (by decide) hlines 1)
    rintro c ⟨hnames, ks, hnode, hinputs⟩
    exact isBeside_of_inputs hnames (.inputs hnames hnode hinputs)
  cases shape with
  | none => exact yields_pure bindsAll_nil
  | set =>
    by_cases hempty : names.isEmpty = true
    · rw [inputLines, if_pos hempty]
      apply yields_pure
      have hvalue := fun r => ((binds_blanks isGap_space).set (';' :: r)).expr
      apply bindsAll_one (binds_key hindent inputsName (by decide) hvalue 1)
      rintro c ⟨hnames, ks, hnode, rfl⟩
      exact isBeside_of_inputs hnames (.inputs hnames hnode fun k hk => by cases hk)
    · rw [inputLines, if_neg hempty]
      apply (yields_mapM fun n hn => yields_setLines hindent (hnames n hn)).bind
      intro groups hgroups
      apply yields_pure
      exact hset _ (bindsAll_flatten hgroups)
  | dotted =>
    apply (yields_mapM fun n hn => yields_dottedLine hindent (hnames n hn)).imp
    exact fun lines hlines => bindsAll_written hlines
  | nested =>
    apply (yields_mapM fun n hn => yields_nestedLines hindent (hnames n hn)).bind
    intro groups hgroups
    apply yields_pure
    exact hset _ (bindsAll_flatten hgroups)
  | split =>
    apply (yields_mapM fun n hn =>
      yields_setLine hindent (hnames n (List.mem_of_mem_take hn))).bind
    intro inside hinside
    apply (yields_mapM fun n hn =>
      yields_splitLine hindent (hnames n (List.mem_of_mem_drop hn))).bind
    intro behind hbehind
    apply yields_pure
    rw [List.append_cons, written_append]
    exact bindsAll_append (hset _ (bindsAll_written hinside)) (bindsAll_written hbehind)

end

end Sample
end FlakeInputs
