import FlakeInputs.Proofs.Outcome
import FlakeInputs.Proofs.Reference.Endings
import FlakeInputs.Reference.Infer

/-!
# Inferred inputs are in normal form

The name and the url that a reference stands for are not empty, and the url does not end in a
slash.  The url stands for itself, under the name that was inferred, unless a blank is left at its
end: blanks are cut off before slashes are, and only once.
-/

namespace FlakeInputs
namespace Reference

/-! ## Trimmed references -/

theorem not_endsBlank_strip (t : Text) : ¬t.strip.EndsBlank := by
  rintro ⟨front, c, hend, hc⟩
  refine Text.getLast?_trimEnd_ne isBlank (t.dropWhile isBlank) hc ?_
  change t.strip.getLast? = some c
  rw [hend, List.getLast?_concat]

theorem trim_prefix_strip (t : Text) : trim t <+: t.strip :=
  List.rdropWhile_prefix _ t.strip

theorem strip_prefix_dropWhile (t : Text) : t.strip <+: t.dropWhile isBlank :=
  List.rdropWhile_prefix _ (t.dropWhile isBlank)

/-- A trimmed reference does not begin with a blank. -/
theorem head?_trim_ne (t : Text) {c : Char} (hc : isBlank c = true) : (trim t).head? ≠ some c := by
  intro hhead
  obtain ⟨r, hr⟩ := (trim_prefix_strip t).trans (strip_prefix_dropWhile t)
  have hfirst : (t.dropWhile isBlank).head? = some c := by
    rw [← hr, List.head?_append, hhead, Option.some_or]
  have hnot := List.head?_dropWhile_not isBlank t
  rw [hfirst] at hnot
  exact absurd hc (by simpa using hnot)

theorem getLast?_trim_ne (t : Text) : (trim t).getLast? ≠ some '/' :=
  Text.getLast?_trimEnd_ne _ _ rfl

theorem trim_eq_self_of {t : Text} (hfirst : ∀ c, t.head? = some c → isBlank c = false)
    (hblank : ¬t.EndsBlank) (hslash : t.getLast? ≠ some '/') : trim t = t := by
  rcases List.eq_nil_or_concat' t with rfl | ⟨front, c, rfl⟩
  · rfl
  · have hc : isBlank c = false := by
      by_contra hc
      exact hblank ⟨front, c, rfl, by simpa using hc⟩
    have hne : (c == '/') = false := by
      rw [beq_eq_false_iff_ne]
      rintro rfl
      exact hslash List.getLast?_concat
    have hdrop : (front ++ [c]).dropWhile isBlank = front ++ [c] := by
      cases front with
      | nil => exact List.dropWhile_cons_of_neg (by simp [hc])
      | cons d front => exact List.dropWhile_cons_of_neg (by simp [hfirst d rfl])
    rw [trim, Text.strip, Text.trim, hdrop, Text.trimEnd_concat_of_neg front hc]
    exact Text.trimEnd_concat_of_neg front hne

/-- What trimming does not change has no blank at its end. -/
theorem not_endsBlank_of_trim {t : Text} (h : trim t = t) : ¬t.EndsBlank := by
  have hfront : t <+: t.strip := by
    conv => lhs; rw [← h]
    exact trim_prefix_strip t
  have hlength : t.strip.length ≤ t.length :=
    Nat.le_trans (strip_prefix_dropWhile t).length_le (List.dropWhile_suffix _).length_le
  rw [hfront.eq_of_length_le hlength]
  exact not_endsBlank_strip t

/-- A blank at the end of a trimmed reference stood in front of slashes. -/
theorem exists_slashes {t : Text} (h : (trim t).EndsBlank) :
    ∃ slashes, slashes ≠ [] ∧ (∀ c ∈ slashes, c = '/') ∧ t.strip = trim t ++ slashes := by
  obtain ⟨slashes, hstrip, hslashes⟩ := Text.exists_trimEnd (· == '/') t.strip
  refine ⟨slashes, ?_, fun c hc => beq_iff_eq.1 (hslashes c hc), hstrip⟩
  rintro rfl
  rw [List.append_nil] at hstrip
  change t.strip = trim t at hstrip
  rw [← hstrip] at h
  exact not_endsBlank_strip t h

/-! ## Flakes on FlakeHub -/

/-- What the url of a flake on FlakeHub begins with. -/
def hub : Text := "https://flakehub.com/f/".toList

theorem endsFirm_of_version {segment v : Text} (h : version segment = .ok v) : v.EndsFirm := by
  simp only [version] at h
  split at h
  · next hrequirement =>
    rw [← Except.ok.inj h]
    exact Version.endsFirm_of_isRequirement hrequirement
  · cases h

theorem endsFirm_of_flakeHubParts {ref org project v : Text}
    (h : flakeHubParts ref = .ok (org, project, v)) : v.EndsFirm := by
  unfold flakeHubParts at h
  split at h
  · obtain ⟨-, -, rfl⟩ : _ ∧ _ ∧ ['*'] = v := by simpa using h
    exact ⟨[], '*', rfl, rfl, by decide⟩
  · obtain ⟨version, hversion, h⟩ := Outcome.bind_eq_ok.1 h
    obtain ⟨-, -, rfl⟩ : _ ∧ _ ∧ version = v := by simpa [pure, Except.pure] using h
    exact endsFirm_of_version hversion
  · cases h

theorem flakeHub_eq_ok {name? : Option Text} {ref : Text} {input : Input}
    (h : flakeHub defaultBase name? ref = .ok input) :
    ∃ project path, project ≠ [] ∧ path.EndsFirm ∧ input = ⟨name?.getD project, hub ++ path⟩ := by
  unfold flakeHub at h
  obtain ⟨⟨org, project, version⟩, hparts, h⟩ := Outcome.bind_eq_ok.1 h
  dsimp only at h
  split at h
  · cases h
  · next hempty =>
    have hproject : project ≠ [] := by
      rintro rfl
      simp at hempty
    have hversion := (endsFirm_of_flakeHubParts hparts).of_suffix
      (List.suffix_append (org ++ ['/'] ++ project ++ ['/']) version)
    refine ⟨project, _, hproject, hversion, ?_⟩
    rw [← Except.ok.inj h]
    change Input.mk _ (hub ++ org ++ ['/'] ++ project ++ ['/'] ++ version) = _
    simp only [List.append_assoc]

/-- The url of a flake on FlakeHub has a scheme. -/
theorem split_hub (path : Text) : ∃ url, Url.split (hub ++ path) = .ok url ∧ url.scheme ≠ [] := by
  refine ⟨_, rfl, ?_⟩
  change "https".toList ≠ []
  decide

theorem trim_hub {path : Text} (h : path.EndsFirm) : trim (hub ++ path) = hub ++ path := by
  have hfirm := h.of_suffix (List.suffix_append hub path)
  refine trim_eq_self_of (fun c hc => ?_) hfirm.not_endsBlank hfirm.getLast?_ne
  obtain rfl : 'h' = c := Option.some.inj hc
  rfl

/-! ## Names -/

/-- An input has a name, the given one unless that is empty. -/
structure Named (name? : Option Text) (n : Text) : Prop where
  ne_nil : n ≠ []
  given : ∀ m, name? = some m → m ≠ [] → n = m

theorem named_of_orElse {name? suggestion : Option Text} {n : Text}
    (hsuggestion : ∀ s, suggestion = some s → s ≠ [])
    (h : (name?.filter (!·.isEmpty) <|> suggestion) = some n) : Named name? n := by
  cases name? with
  | none => exact ⟨hsuggestion n h, fun m hm => nomatch hm⟩
  | some m =>
    cases m with
    | nil => exact ⟨hsuggestion n h, fun m hm hne => absurd (Option.some.inj hm).symm hne⟩
    | cons c m =>
      obtain rfl : c :: m = n := Option.some.inj h
      exact ⟨List.cons_ne_nil c m, fun m' hm' _ => Option.some.inj hm'⟩

theorem named_of_getD {name? : Option Text} {other : Text} (hother : other ≠ []) :
    Named name? ((name?.filter (!·.isEmpty)).getD other) := by
  have hname : (name?.filter (!·.isEmpty) <|> some other) =
      some ((name?.filter (!·.isEmpty)).getD other) := by
    cases name?.filter (!·.isEmpty) <;> rfl
  exact named_of_orElse (fun s hs => Option.some.inj hs ▸ hother) hname

theorem suggestedName?_ne_nil {path s : Text} (h : suggestedName? path = some s) : s ≠ [] := by
  unfold suggestedName? at h
  split at h
  · split at h
    · cases h
    · next hempty =>
      rintro rfl
      rw [Option.some.inj h] at hempty
      exact hempty rfl
  · cases h

/-! ## Inferred inputs -/

/-- What is inferred has a name, and its url is the trimmed reference, with a scheme, or that of a
flake on FlakeHub. -/
theorem infer_eq_ok {name? : Option Text} {ref n u : Text}
    (h : infer defaultBase name? ref = .ok ⟨n, u⟩) :
    Named name? n ∧
      ((u = trim ref ∧ u ≠ [] ∧ ∃ url, Url.split u = .ok url ∧ url.scheme ≠ []) ∨
        ∃ path : Text, path.EndsFirm ∧ u = hub ++ path) := by
  unfold infer at h
  dsimp only at h
  split at h
  · cases h
  next hne =>
  obtain ⟨url, hsplit, h⟩ := Outcome.bind_eq_ok.1 h
  split at h
  · obtain ⟨project, path, hproject, hpath, hinput⟩ := flakeHub_eq_ok h
    obtain ⟨rfl, rfl⟩ := Input.mk.inj hinput
    exact ⟨named_of_getD hproject, .inr ⟨path, hpath, rfl⟩⟩
  next hscheme =>
  split at h
  · next name hname =>
    obtain ⟨rfl, rfl⟩ := Input.mk.inj (Except.ok.inj h)
    refine ⟨named_of_orElse (fun s hs => ?_) hname, .inl ⟨rfl, ?_, url, hsplit, ?_⟩⟩
    · split at hs
      · exact suggestedName?_ne_nil hs
      · cases hs
    · exact fun hnil => hne (List.isEmpty_iff.2 hnil)
    · exact fun hnil => hscheme (List.isEmpty_iff.2 hnil)
  · cases h

/-- A trimmed url with a scheme stands for itself. -/
theorem infer_self {n u : Text} {url : Url} (hn : n ≠ []) (hu : u ≠ []) (htrim : trim u = u)
    (hsplit : Url.split u = .ok url) (hscheme : url.scheme ≠ []) :
    infer defaultBase (some n) u = .ok ⟨n, u⟩ := by
  have hgiven : (some n).filter (!·.isEmpty) = some n := by
    simp [hn]
  have hempty : u.isEmpty = false := List.isEmpty_eq_false_iff.2 hu
  have hkeeps : url.scheme.isEmpty = false := List.isEmpty_eq_false_iff.2 hscheme
  simp only [infer, htrim, hempty, hgiven, hsplit, Outcome.ok_bind, hkeeps]
  rfl

/-- What `infer` gives is in normal form: name and url are not empty, the url does not end in a
slash, and a given name is kept.  The url stands for itself exactly if no blank is left at its end,
and a blank is left there only if it stood in front of the slashes at the end of the reference. -/
theorem infer_normal_form {name? : Option Text} {ref n u : Text}
    (h : infer defaultBase name? ref = .ok ⟨n, u⟩) :
    n ≠ [] ∧ u ≠ [] ∧ u.getLast? ≠ some '/' ∧ (∀ m, name? = some m → m ≠ [] → n = m) ∧
      (infer defaultBase (some n) u = .ok ⟨n, u⟩ ↔ ¬u.EndsBlank) ∧
      (u.EndsBlank → ∃ slashes, slashes ≠ [] ∧ (∀ c ∈ slashes, c = '/') ∧
        ref.strip = u ++ slashes) := by
  obtain ⟨hnamed, ⟨rfl, hu, url, hsplit, hscheme⟩ | ⟨path, hpath, rfl⟩⟩ := infer_eq_ok h
  · refine ⟨hnamed.ne_nil, hu, getLast?_trim_ne ref, hnamed.given,
      ⟨fun hself => ?_, fun hblank => ?_⟩, exists_slashes⟩
    · obtain ⟨-, ⟨htrim, -⟩ | ⟨path, hpath, hhub⟩⟩ := infer_eq_ok hself
      · exact not_endsBlank_of_trim htrim.symm
      · rw [hhub]
        exact (hpath.of_suffix (List.suffix_append hub path)).not_endsBlank
    · refine infer_self hnamed.ne_nil hu (trim_eq_self_of (fun c hc => ?_) hblank
        (getLast?_trim_ne ref)) hsplit hscheme
      by_contra hc'
      exact head?_trim_ne ref (by simpa using hc') hc
  · have hfirm := hpath.of_suffix (List.suffix_append hub path)
    obtain ⟨url, hsplit, hscheme⟩ := split_hub path
    have hu : hub ++ path ≠ [] := List.append_ne_nil_of_left_ne_nil (by decide) path
    have hself := infer_self hnamed.ne_nil hu (trim_hub hpath) hsplit hscheme
    exact ⟨hnamed.ne_nil, hu, hfirm.getLast?_ne, hnamed.given,
      iff_of_true hself hfirm.not_endsBlank, fun hblank => absurd hblank hfirm.not_endsBlank⟩

/-- A flake on FlakeHub, with a name of its own: its url stands for itself. -/
theorem infer_normal_form_flakeHub :
    infer defaultBase (some "c".toList) "a/b/v1.0.tar.gz/".toList =
        .ok ⟨"c".toList, "https://flakehub.com/f/a/b/1.0".toList⟩ ∧
      infer defaultBase (some "c".toList) "https://flakehub.com/f/a/b/1.0".toList =
        .ok ⟨"c".toList, "https://flakehub.com/f/a/b/1.0".toList⟩ := by
  have hinfer : infer defaultBase (some "c".toList) "a/b/v1.0.tar.gz/".toList =
      .ok ⟨"c".toList, "https://flakehub.com/f/a/b/1.0".toList⟩ := rfl
  obtain ⟨-, -, -, -, hself, -⟩ := infer_normal_form hinfer
  have hfirm : Text.EndsFirm "https://flakehub.com/f/a/b/1.0".toList :=
    ⟨"https://flakehub.com/f/a/b/1.".toList, '0', rfl, rfl, by decide⟩
  exact ⟨hinfer, hself.2 hfirm.not_endsBlank⟩

/-- A blank in front of slashes is left at the end of the url, and the url does not stand for
itself. -/
theorem infer_blank_before_slash :
    infer defaultBase (some "c".toList) "github:o/c /".toList =
        .ok ⟨"c".toList, "github:o/c ".toList⟩ ∧
      infer defaultBase (some "c".toList) "github:o/c ".toList =
        .ok ⟨"c".toList, "github:o/c".toList⟩ :=
  ⟨rfl, rfl⟩

end Reference
end FlakeInputs
