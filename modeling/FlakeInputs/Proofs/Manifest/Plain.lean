import FlakeInputs.Proofs.Manifest.Declared

/-!
# Plain manifests

In a plain manifest every key of an input leads to a url, to a set that begins with one, or past
the url.  A search for a url in such a manifest comes to an end, and the listing has one entry for
each input, with its url.
-/

namespace FlakeInputs
namespace Manifest

open Lookup (found startsWith compareRest)

/-- A value that is a url: a bare one, or a string without interpolations. -/
def IsUrl (e : Expr) : Prop :=
  (∃ t, e.node = .uri t) ∨ ∃ span t, e.node = .string [.text span t]

theorem IsUrl.exists_text {e : Expr} (h : IsUrl e) : ∃ t, literalText? e = some t := by
  rcases h with ⟨t, hnode⟩ | ⟨span, t, hnode⟩
  · exact ⟨t, by simp only [literalText?, hnode]⟩
  · exact ⟨t.strip, by simp only [literalText?, hnode, Part.soleText?, Option.map_some]⟩

/-- A binding of an input.  Its key relative to the inputs is the name of the input and the name of
its url; the name alone, in front of a set that begins with the url; or something else about the
input. -/
inductive IsInput (b : KeyValue) : List (Option Text) → Prop
  | url {name : Text} (hvalue : IsUrl b.value) : IsInput b [some name, some urlName]
  | set {name : Text} {first : KeyValue} {rest : List Binding} {recursive : Bool}
      (hnode : b.value.node = .map (.keyValue first :: rest) recursive)
      (hnames : first.names = [some urlName]) (hvalue : IsUrl first.value) : IsInput b [some name]
  | other {name key : Text} {names : List (Option Text)} (hkey : key ≠ urlName) :
      IsInput b (some name :: some key :: names)

/-- A binding at the top level of a plain manifest: one that is not about inputs, a set of inputs,
or an input. -/
inductive IsPlain (c : KeyValue) : Prop
  | apart (h : startsWith inputsName c = false)
  | inputs {ks : List KeyValue} {recursive : Bool} (hnames : c.names = [some inputsName])
      (hnode : c.value.node = .map (ks.map .keyValue) recursive)
      (hinputs : ∀ k ∈ ks, IsInput k k.names)
  | input {names : List (Option Text)} (hnames : c.names = some inputsName :: names)
      (hinput : IsInput c names)

section
variable {b c : KeyValue} {names : List (Option Text)}

theorem IsInput.ne_nil (h : IsInput b names) : names ≠ [] := by
  cases h with
  | url => exact List.cons_ne_nil _ _
  | set => exact List.cons_ne_nil _ _
  | other => exact List.cons_ne_nil _ _

/-- A set that begins with a url is searched no further. -/
theorem findFirst_url {e : Expr} {first : KeyValue} {rest : List Binding} {recursive : Bool}
    (hnode : e.node = .map (.keyValue first :: rest) recursive)
    (hnames : first.names = [some urlName]) : e.findFirst (some [urlName]) = .ok (some first) := by
  rw [Lookup.findFirst_map hnode]
  apply Lookup.findSomeM?_cons_of_some
  apply Lookup.found_of_reached
  rw [hnames]
  rfl

/-! ## Searching -/

/-- An answer to a search that is a url, if it is anything. -/
def Answers (r : Except Error (Option KeyValue)) : Prop :=
  ∃ b?, r = .ok b? ∧ ∀ b, b? = some b → IsUrl b.value

theorem answers_findSomeM? {f : Binding → Except Error (Option KeyValue)} {bs : List Binding}
    (h : ∀ x ∈ bs, Answers (f x)) : Answers (bs.findSomeM? f) := by
  induction bs with
  | nil => exact ⟨none, rfl, fun b hb => by cases hb⟩
  | cons x bs ih =>
    obtain ⟨b?, hx, hurl⟩ := h x List.mem_cons_self
    rw [List.findSomeM?_cons, hx, Outcome.ok_bind]
    cases b? with
    | none => exact ih fun y hy => h y (List.mem_cons_of_mem _ hy)
    | some b => exact ⟨some b, rfl, hurl⟩

/-- A binding of an input answers a search for a url. -/
theorem IsInput.answers {query : List Text} {name : Text} (h : IsInput b names)
    (hcompare : Lookup.compare b.names (some query) = compareRest names [name, urlName]) :
    Answers (found (some query) (.keyValue b)) := by
  have hother : ∀ {key : Text} {rest : List (Option Text)}, key ≠ name →
      compareRest (some key :: rest) [name, urlName] = .apart := by
    intro key rest hkey
    rw [compareRest, if_neg fun heq => hkey (Option.some.inj heq)]
  cases h with
  | @url key hvalue =>
    by_cases hkey : key = name
    · rw [hkey, compareRest, if_pos rfl, compareRest, if_pos rfl, compareRest] at hcompare
      refine ⟨some b, Lookup.found_of_reached hcompare, fun c hc => ?_⟩
      rw [← Option.some.inj hc]
      exact hvalue
    · rw [hother hkey] at hcompare
      exact ⟨none, Lookup.found_of_apart hcompare, fun c hc => by cases hc⟩
  | @set key first rest recursive hnode hnames hvalue =>
    by_cases hkey : key = name
    · rw [hkey, compareRest, if_pos rfl, compareRest] at hcompare
      · refine ⟨some first, ?_, fun c hc => ?_⟩
        · rw [Lookup.found_of_within hcompare, findFirst_url hnode hnames]
        · rw [← Option.some.inj hc]
          exact hvalue
      · exact List.cons_ne_nil _ _
    · rw [hother hkey] at hcompare
      exact ⟨none, Lookup.found_of_apart hcompare, fun c hc => by cases hc⟩
  | @other key second rest hsecond =>
    have hapart : compareRest (some key :: some second :: rest) [name, urlName] = .apart := by
      by_cases hkey : key = name
      · rw [hkey, compareRest, if_pos rfl, compareRest,
          if_neg fun heq => hsecond (Option.some.inj heq)]
      · exact hother hkey
    rw [hapart] at hcompare
    exact ⟨none, Lookup.found_of_apart hcompare, fun c hc => by cases hc⟩

theorem IsPlain.answers (h : IsPlain c) (name : Text) :
    Answers (found (some (urlPath name)) (.keyValue c)) := by
  cases h with
  | apart hstarts =>
    refine ⟨none, Lookup.found_of_apart ?_, fun b hb => by cases hb⟩
    exact Lookup.compare_not_startsWith hstarts
  | @inputs ks recursive hnames hnode hinputs =>
    have hwithin : Lookup.compare c.names (some (urlPath name)) = .within [name, urlName] := by
      rw [hnames]
      rfl
    rw [Lookup.found_of_within hwithin, Lookup.findFirst_map hnode]
    apply answers_findSomeM?
    intro x hx
    obtain ⟨k, hk, rfl⟩ := List.mem_map.1 hx
    apply (hinputs k hk).answers
    obtain ⟨first, rest, hk⟩ := List.exists_cons_of_ne_nil (hinputs k hk).ne_nil
    rw [hk]
    rfl
  | @input names hnames hinput =>
    apply hinput.answers
    rw [hnames]
    rfl

end

section
variable {T : Expr} {cs : List KeyValue} {recursive : Bool}

/-- A search for the url of an input in a plain manifest finds a url or nothing. -/
theorem answers_findFirst (hnode : T.node = .map (cs.map .keyValue) recursive)
    (hplain : ∀ c ∈ cs, IsPlain c) (name : Text) : Answers (T.findFirst (some (urlPath name))) := by
  rw [Lookup.findFirst_map hnode]
  apply answers_findSomeM?
  intro x hx
  obtain ⟨c, hc, rfl⟩ := List.mem_map.1 hx
  exact (hplain c hc).answers name

theorem areSets_of_isPlain (hplain : ∀ c ∈ cs, IsPlain c) : AreSets cs := by
  intro c hc hnames
  cases hplain c hc with
  | apart hstarts =>
    rw [startsWith, hnames] at hstarts
    cases hstarts
  | @inputs ks recursive _ hnode _ => exact ⟨ks, recursive, hnode⟩
  | input hinput hother =>
    rw [hnames] at hinput
    exact absurd (List.cons.inj hinput).2.symm hother.ne_nil

end

/-! ## Listing -/

/-- A declaration with a url. -/
def Declared.HasUrl (d : Declared) : Prop :=
  ∃ t, d.url = .ok (some t)

theorem IsInput.declares {b : KeyValue} {names : List (Option Text)} (h : IsInput b names)
    (nested : Bool) : ∃ ds, (declare b nested names).result = .ok ds ∧ ∀ d ∈ ds, d.HasUrl := by
  cases h with
  | @url name hvalue =>
    obtain ⟨t, ht⟩ := hvalue.exists_text
    refine ⟨[⟨name, b, nested, true⟩], rfl, fun d hd => ⟨t, ?_⟩⟩
    rw [List.mem_singleton.1 hd, Declared.url, if_pos rfl, ht]
  | @set name first rest recursive hnode hnames hvalue =>
    obtain ⟨t, ht⟩ := hvalue.exists_text
    refine ⟨[⟨name, b, nested, false⟩], rfl, fun d hd => ⟨t, ?_⟩⟩
    rw [List.mem_singleton.1 hd, Declared.url, if_neg Bool.false_ne_true]
    simp only [hnode, urlAt, findFirst_url hnode hnames, Outcome.ok_bind, Option.bind_some, ht]
    rfl
  | @other name key names hkey =>
    have hnone : inputKey? (some name :: some key :: names) = none := by
      cases names with
      | nil => rw [inputKey?, if_neg hkey]
      | cons => rfl
    refine ⟨[], ?_, fun d hd => by cases hd⟩
    simp only [declare, hnone, Logged.result_bind, Logged.result_note, Outcome.ok_bind,
      Logged.result_pure]

theorem exists_flatten {α : Type} {f : α → Except Error (List Declared)} {l : List α}
    (h : ∀ a ∈ l, ∃ ds, f a = .ok ds ∧ ∀ d ∈ ds, d.HasUrl) :
    ∃ r, l.mapM f = .ok r ∧ ∀ d ∈ r.flatten, d.HasUrl := by
  obtain ⟨r, hr, hmem⟩ := Outcome.exists_mapM fun a ha => (h a ha).imp fun _ hds => hds.1
  refine ⟨r, hr, fun d hd => ?_⟩
  obtain ⟨ds, hds, hd⟩ := List.mem_flatten.1 hd
  obtain ⟨a, ha, hresult⟩ := hmem ds hds
  obtain ⟨ds', hds', hall⟩ := h a ha
  rw [hresult] at hds'
  rw [Except.ok.inj hds'] at hd
  exact hall d hd

theorem IsPlain.declares {c : KeyValue} (h : IsPlain c) (hstarts : startsWith inputsName c = true) :
    ∃ ds, (declaredBy c).result = .ok ds ∧ ∀ d ∈ ds, d.HasUrl := by
  cases h with
  | apart hother =>
    rw [hstarts] at hother
    cases hother
  | @inputs ks recursive hnames hnode hinputs =>
    have hchild : ∀ x ∈ ks.map Binding.keyValue,
        ∃ ds, (declaredByChild x).result = .ok ds ∧ ∀ d ∈ ds, d.HasUrl := by
      intro x hx
      obtain ⟨k, hk, rfl⟩ := List.mem_map.1 hx
      exact (hinputs k hk).declares true
    obtain ⟨r, hr, hurls⟩ := exists_flatten hchild
    refine ⟨r.flatten, ?_, hurls⟩
    simp only [declaredBy, hnames, if_true, hnode, Logged.result_bind, Outcome.result_mapM, hr]
    rfl
  | @input names hnames hinput =>
    have hne : c.names ≠ [some inputsName] := by
      rw [hnames]
      intro heq
      exact hinput.ne_nil (List.cons.inj heq).2
    rw [declaredBy, if_neg hne, hnames, List.head?_cons, if_pos rfl]
    exact hinput.declares false

/-- The names of entries after a declaration has been recorded. -/
theorem names_record (e : Entry) (entries : List Entry) :
    (record e entries).map Entry.name =
      if e.name ∈ entries.map Entry.name then entries.map Entry.name
      else entries.map Entry.name ++ [e.name] := by
  induction entries with
  | nil => rfl
  | cons seen entries ih =>
    by_cases hseen : seen.name = e.name
    · rw [record, if_pos hseen, List.map_cons, List.map_cons, if_pos (by simp [hseen])]
    · rw [record, if_neg hseen, List.map_cons, List.map_cons, ih]
      by_cases hmem : e.name ∈ entries.map Entry.name
      · rw [if_pos hmem, if_pos (List.mem_cons_of_mem _ hmem)]
      · rw [if_neg hmem, if_neg (by simpa [Ne.symm hseen] using hmem), List.cons_append]

/-- Recording a declaration leaves one entry for each name. -/
theorem nodup_record (e : Entry) {entries : List Entry} (h : (entries.map Entry.name).Nodup) :
    ((record e entries).map Entry.name).Nodup := by
  rw [names_record]
  by_cases hmem : e.name ∈ entries.map Entry.name
  · rw [if_pos hmem]
    exact h
  · rw [if_neg hmem, List.nodup_append]
    refine ⟨h, by simp, fun x hx y hy => ?_⟩
    rw [List.mem_singleton.1 hy]
    rintro rfl
    exact hmem hx

theorem url?_record {e : Entry} {entries : List Entry} (he : e.url? ≠ none)
    (h : ∀ x ∈ entries, x.url? ≠ none) : ∀ x ∈ record e entries, x.url? ≠ none := by
  induction entries with
  | nil =>
    intro x hx
    rw [List.mem_singleton.1 hx]
    exact he
  | cons seen entries ih =>
    rw [record]
    split
    · intro x hx
      rcases List.mem_cons.1 hx with rfl | hx
      · obtain ⟨t, ht⟩ := Option.ne_none_iff_exists'.1 (h seen List.mem_cons_self)
        simp [ht]
      · exact h x (List.mem_cons_of_mem _ hx)
    · intro x hx
      rcases List.mem_cons.1 hx with rfl | hx
      · exact h x List.mem_cons_self
      · exact ih (fun y hy => h y (List.mem_cons_of_mem _ hy)) x hx

/-- Entries with different names, all of which have a url. -/
def AreListed (entries : List Entry) : Prop :=
  (entries.map Entry.name).Nodup ∧ ∀ e ∈ entries, e.url? ≠ none

theorem areListed_foldl {new old : List Entry} (hnew : ∀ e ∈ new, e.url? ≠ none)
    (hold : AreListed old) : AreListed (new.foldl (fun entries e => record e entries) old) := by
  induction new generalizing old with
  | nil => exact hold
  | cons e new ih =>
    apply ih fun x hx => hnew x (List.mem_cons_of_mem _ hx)
    exact ⟨nodup_record e hold.1, url?_record (hnew e List.mem_cons_self) hold.2⟩

/-- The listing of a plain manifest has an entry for each input, with a url. -/
theorem exists_listInputs {T : Expr} {cs : List KeyValue} {recursive : Bool}
    (hnode : T.node = .map (cs.map .keyValue) recursive) (hplain : ∀ c ∈ cs, IsPlain c) :
    ∃ entries, (listInputs T).result = .ok entries ∧ AreListed entries := by
  have hdeclares : ∀ c ∈ cs.filter (startsWith inputsName),
      ∃ ds, (declaredBy c).result = .ok ds ∧ ∀ d ∈ ds, d.HasUrl := by
    intro c hc
    obtain ⟨hc, hstarts⟩ := List.mem_filter.1 hc
    exact (hplain c hc).declares hstarts
  obtain ⟨r, hr, hurls⟩ := exists_flatten hdeclares
  have hentry : ∀ d ∈ r.flatten, ∃ e : Entry,
      (d.url >>= fun url? => .ok ⟨d.name, url?, d.binding⟩) = .ok e := by
    intro d hd
    obtain ⟨t, ht⟩ := hurls d hd
    rw [ht]
    exact ⟨_, rfl⟩
  obtain ⟨entries, hentries, hmem⟩ := Outcome.exists_mapM hentry
  refine ⟨entries.foldl (fun entries e => record e entries) [], ?_, ?_⟩
  · simp only [listInputs, Logged.result_bind, Outcome.result_monadLift,
      Lookup.findAll_segment hnode inputsName, Outcome.ok_bind, collect, Outcome.result_mapM, hr,
      Logged.result_pure, hentries]
  · have hnone : AreListed [] := ⟨List.nodup_nil, fun e he => by cases he⟩
    refine areListed_foldl (fun e he => ?_) hnone
    obtain ⟨d, hd, hresult⟩ := hmem e he
    obtain ⟨t, ht⟩ := hurls d hd
    rw [ht, Outcome.ok_bind] at hresult
    rw [← Except.ok.inj hresult]
    exact Option.some_ne_none t

end Manifest
end FlakeInputs
