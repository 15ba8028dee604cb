import FlakeInputs.Proofs.Manifest.Matches
import FlakeInputs.Proofs.Manifest.Plain

/-!
# The listing of a manifest

The listing flattens the shapes in which an input can be declared, and takes the first url that is
given for a name.  A search for a url follows its path through the same bindings.  The two agree,
wherever the search does not fail.
-/

namespace FlakeInputs
namespace Manifest

open Lookup (Match Visits gatheredAt)

/-! ## Recording declarations -/

/-- What an entry takes from the first declaration of its name. -/
def Entry.head (e : Entry) : Text × KeyValue :=
  (e.name, e.binding)

/-- Whether two declarations are for the same name. -/
def sameName (x y : Text × KeyValue) : Bool :=
  x.1 == y.1

/-- The url of the entry for a name. -/
def listedUrl? (name : Text) (entries : List Entry) : Option Text :=
  (entries.find? fun e => e.name = name).bind Entry.url?

/-- The url that an entry gives to a name. -/
def Entry.urlFor? (name : Text) (e : Entry) : Option Text :=
  if e.name = name then e.url? else none

section
variable {e : Entry} {entries new old : List Entry}

theorem heads_record (e : Entry) (entries : List Entry) :
    (record e entries).map Entry.head =
      if e.name ∈ entries.map Entry.name then entries.map Entry.head
      else entries.map Entry.head ++ [e.head] := by
  induction entries with
  | nil => rfl
  | cons seen entries ih =>
    by_cases hseen : seen.name = e.name
    · rw [record, if_pos hseen, if_pos (by simp [hseen])]
      rfl
    · rw [record, if_neg hseen, List.map_cons, List.map_cons, List.map_cons, ih]
      by_cases hmem : e.name ∈ entries.map Entry.name
      · rw [if_pos hmem, if_pos (List.mem_cons_of_mem _ hmem)]
      · rw [if_neg hmem, if_neg (by simpa [Ne.symm hseen] using hmem), List.cons_append]

theorem nodup_foldl (h : (old.map Entry.name).Nodup) :
    ((new.foldl (fun entries e => record e entries) old).map Entry.name).Nodup := by
  induction new generalizing old with
  | nil => exact h
  | cons e new ih => exact ih (nodup_record e h)

theorem mem_names_foldl {name : Text} :
    name ∈ (new.foldl (fun entries e => record e entries) old).map Entry.name ↔
      name ∈ old.map Entry.name ∨ name ∈ new.map Entry.name := by
  induction new generalizing old with
  | nil => simp
  | cons e new ih =>
    rw [List.foldl_cons, ih, names_record, List.map_cons, List.mem_cons, ← or_assoc]
    apply or_congr_left
    by_cases hmem : e.name ∈ old.map Entry.name
    · rw [if_pos hmem, iff_self_or]
      rintro rfl
      exact hmem
    · rw [if_neg hmem, List.mem_append, List.mem_singleton]

/-- The entries stand in the order of the first declarations of their names, and carry the bindings
of these. -/
theorem heads_foldl :
    (new.foldl (fun entries e => record e entries) old).map Entry.head =
      old.map Entry.head ++ ((new.map Entry.head).filter fun x =>
        decide (x.1 ∉ old.map Entry.name)).eraseDupsBy sameName := by
  induction new generalizing old with
  | nil => simp [List.eraseDupsBy_nil]
  | cons e new ih =>
    rw [List.foldl_cons, ih, heads_record, names_record, List.map_cons]
    by_cases hmem : e.name ∈ old.map Entry.name
    · rw [if_pos hmem, if_pos hmem, List.filter_cons_of_neg (by simpa [Entry.head] using hmem)]
    · rw [if_neg hmem, if_neg hmem, List.filter_cons_of_pos (by simpa [Entry.head] using hmem),
        List.eraseDupsBy_cons, List.filter_filter, List.append_assoc, List.singleton_append]
      congr 4
      funext x
      simp [sameName, Entry.head, or_comm]

/-- A url that is given for a name is that of its entry, unless the entry has one already. -/
theorem listedUrl?_record (name : Text) (e : Entry) (entries : List Entry) :
    listedUrl? name (record e entries) = (listedUrl? name entries).or (e.urlFor? name) := by
  induction entries with
  | nil =>
    by_cases hname : e.name = name
    · simp [listedUrl?, record, Entry.urlFor?, hname]
    · simp [listedUrl?, record, Entry.urlFor?, hname]
  | cons seen entries ih =>
    by_cases hseen : seen.name = e.name
    · by_cases hname : e.name = name
      · simp [listedUrl?, record, Entry.urlFor?, hseen, hname]
      · simp [listedUrl?, record, Entry.urlFor?, hname, hseen]
    · by_cases hname : seen.name = name
      · have hother : e.name ≠ name := fun h => hseen (hname.trans h.symm)
        rw [record, if_neg hseen, Entry.urlFor?, if_neg hother]
        simp [listedUrl?, hname]
      · rw [record, if_neg hseen, listedUrl?, List.find?_cons_of_neg (by simpa using hname),
          ← listedUrl?, ih, listedUrl?, listedUrl?, List.find?_cons_of_neg (by simpa using hname)]

theorem listedUrl?_foldl (name : Text) :
    listedUrl? name (new.foldl (fun entries e => record e entries) old) =
      (listedUrl? name old).or (new.findSome? (Entry.urlFor? name)) := by
  induction new generalizing old with
  | nil => simp
  | cons e new ih =>
    rw [List.foldl_cons, ih, listedUrl?_record, Option.or_assoc, List.findSome?_cons]
    cases e.urlFor? name with
    | none => rfl
    | some url => rfl

/-- Where each name has one entry, the url of the entry is the one that is listed for the name. -/
theorem listedUrl?_eq (h : (entries.map Entry.name).Nodup) (he : e ∈ entries) :
    listedUrl? e.name entries = e.url? := by
  induction entries with
  | nil => cases he
  | cons seen entries ih =>
    rw [List.map_cons, List.nodup_cons] at h
    rcases List.mem_cons.1 he with rfl | he
    · simp [listedUrl?]
    · have hne : seen.name ≠ e.name := by
        intro heq
        apply h.1
        rw [heq]
        exact List.mem_map_of_mem he
      rw [listedUrl?, List.find?_cons_of_neg (by simpa using hne), ← listedUrl?]
      exact ih h.2 he

end

/-! ## Where an input is declared -/

theorem inputKey?_eq_some {names : List (Option Text)} {name : Text} {direct : Bool} :
    inputKey? names = some (name, direct) ↔
      names = some name :: if direct then [some urlName] else [] := by
  rcases names with _ | ⟨_ | first, _ | ⟨_ | last, _ | ⟨third, names⟩⟩⟩
  all_goals cases direct
  all_goals simp [inputKey?, and_comm]

/-- What is left of a key behind the name of an input, if it says no more than its url. -/
def keyEnd (direct : Bool) : List (Option Text) :=
  if direct then [some urlName] else []

/-- The inputs that a binding at the top level declares: its key goes on from `inputs` to one, or it
holds a set of them. -/
inductive Declares (c : KeyValue) : Declared → Prop
  | top {name : Text} {direct : Bool}
      (hnames : c.names = some inputsName :: some name :: keyEnd direct) :
      Declares c ⟨name, c, false, direct⟩
  | nested {bs : List Binding} {recursive : Bool} {b : KeyValue} {name : Text} {direct : Bool}
      (hnames : c.names = [some inputsName]) (hnode : c.value.node = .map bs recursive)
      (hb : .keyValue b ∈ bs) (hkey : b.names = some name :: keyEnd direct) :
      Declares c ⟨name, b, true, direct⟩

section
variable {b c : KeyValue} {ds : List Declared} {d : Declared}

theorem Declares.startsWith (h : Declares c d) : Lookup.startsWith inputsName c = true := by
  cases h with
  | top hnames => simp [Lookup.startsWith, hnames]
  | nested hnames => simp [Lookup.startsWith, hnames]

theorem mem_declare {nested : Bool} {names : List (Option Text)}
    (h : (declare b nested names).result = .ok ds) :
    d ∈ ds ↔ ∃ name direct, names = some name :: keyEnd direct ∧ d = ⟨name, b, nested, direct⟩ := by
  simp only [keyEnd, ← inputKey?_eq_some]
  rw [declare] at h
  cases hkey : inputKey? names with
  | none =>
    rw [hkey] at h
    rw [← Except.ok.inj h]
    simp
  | some key =>
    rw [hkey] at h
    obtain ⟨name, direct⟩ := key
    rw [← Except.ok.inj h, List.mem_singleton]
    constructor
    · rintro rfl
      exact ⟨name, direct, rfl, rfl⟩
    · rintro ⟨name', direct', hsome, rfl⟩
      obtain ⟨rfl, rfl⟩ := Prod.mk.inj (Option.some.inj hsome)
      rfl

theorem mem_declaredBy_set (hnames : c.names = [some inputsName])
    (h : (declaredBy c).result = .ok ds) : d ∈ ds ↔ Declares c d := by
  rw [declaredBy, if_pos hnames] at h
  cases hnode : c.value.node with
  | map bs recursive =>
    simp only [hnode, Logged.result_bind, Outcome.result_mapM] at h
    obtain ⟨parts, hparts, h⟩ := Outcome.bind_eq_ok.1 h
    rw [← Except.ok.inj h, List.mem_flatten]
    constructor
    · rintro ⟨part, hpart, hd⟩
      obtain ⟨x, hx, hresult⟩ := (Outcome.mem_of_mapM hparts).1 hpart
      cases x with
      | inherited span names source? => cases hresult
      | keyValue b =>
        obtain ⟨name, direct, hkey, rfl⟩ := (mem_declare hresult).1 hd
        exact .nested hnames hnode hx hkey
    · intro hd
      cases hd with
      | top hother =>
        rw [hnames] at hother
        cases hother
      | nested _ hsame hb hkey =>
        rw [hnode, Node.map.injEq] at hsame
        rw [← hsame.1] at hb
        obtain ⟨part, hpart⟩ := Outcome.exists_of_mapM hparts _ hb
        refine ⟨part, (Outcome.mem_of_mapM hparts).2 ⟨_, hb, hpart⟩, ?_⟩
        exact (mem_declare hpart).2 ⟨_, _, hkey, rfl⟩
  | _ =>
    rw [hnode] at h
    cases h

theorem mem_declaredBy_key (hnames : c.names ≠ [some inputsName])
    (h : (declaredBy c).result = .ok ds) (hstarts : Lookup.startsWith inputsName c = true) :
    d ∈ ds ↔ Declares c d := by
  rw [declaredBy, if_neg hnames, if_pos (beq_iff_eq.1 hstarts)] at h
  obtain ⟨names, hcons⟩ := List.head?_eq_some_iff.1 (beq_iff_eq.1 hstarts)
  rw [mem_declare h, hcons, List.tail_cons]
  constructor
  · rintro ⟨name, direct, rfl, rfl⟩
    exact .top hcons
  · intro hd
    cases hd with
    | top hnames =>
      rw [hcons] at hnames
      exact ⟨_, _, (List.cons.inj hnames).2, rfl⟩
    | nested hother => exact absurd hother hnames

/-- The declarations that are collected are those that the bindings make. -/
theorem mem_collect {cs : List KeyValue} (hstarts : ∀ c ∈ cs, Lookup.startsWith inputsName c = true)
    (h : (collect cs).result = .ok ds) : d ∈ ds ↔ ∃ c ∈ cs, Declares c d := by
  have hmem : ∀ {c : KeyValue} {part : List Declared}, c ∈ cs →
      (declaredBy c).result = .ok part → (d ∈ part ↔ Declares c d) := by
    intro c part hc hpart
    by_cases hnames : c.names = [some inputsName]
    · exact mem_declaredBy_set hnames hpart
    · exact mem_declaredBy_key hnames hpart (hstarts c hc)
  simp only [collect, Logged.result_bind, Outcome.result_mapM] at h
  obtain ⟨parts, hparts, h⟩ := Outcome.bind_eq_ok.1 h
  rw [← Except.ok.inj h, List.mem_flatten]
  constructor
  · rintro ⟨part, hpart, hd⟩
    obtain ⟨c, hc, hresult⟩ := (Outcome.mem_of_mapM hparts).1 hpart
    exact ⟨c, hc, (hmem hc hresult).1 hd⟩
  · rintro ⟨c, hc, hd⟩
    obtain ⟨part, hpart⟩ := Outcome.exists_of_mapM hparts c hc
    exact ⟨part, (Outcome.mem_of_mapM hparts).2 ⟨c, hc, hpart⟩, (hmem hc hpart).2 hd⟩

end

/-! ## Where the search for a url comes -/

/-- What is left of the path to a url behind the key of a declaration. -/
def leftBehind (direct : Bool) : Match :=
  if direct then .reached else .within [urlName]

theorem compareRest_keyEnd (name : Text) (direct : Bool) :
    Lookup.compareRest (some name :: keyEnd direct) [name, urlName] = leftBehind direct := by
  cases direct with
  | false => simp [Lookup.compareRest, keyEnd, leftBehind]
  | true => simp [Lookup.compareRest, keyEnd, leftBehind]

section
variable {T : Expr} {bs : List Binding} {recursive : Bool} {b c : KeyValue} {d : Declared}

/-- The search for the url of an input comes to each of its declarations. -/
theorem Declares.visits (h : Declares c d) (hnode : T.node = .map bs recursive)
    (hc : .keyValue c ∈ bs) :
    Visits (urlPath d.name) T (some inputsName :: some d.name :: keyEnd d.direct) d.binding
      (leftBehind d.direct) := by
  cases h with
  | @top name direct hnames =>
    have hcompare : Lookup.compare c.names (some (urlPath name)) = leftBehind direct := by
      rw [hnames, ← compareRest_keyEnd name]
      rfl
    rw [← hnames, ← hcompare]
    exact .here hnode hc
  | @nested bs' recursive' b name direct hnames hset hb hkey =>
    have hwithin : Lookup.compare c.names (some (urlPath name)) = .within [name, urlName] := by
      rw [hnames]
      rfl
    have hcompare : Lookup.compare b.names (some [name, urlName]) = leftBehind direct := by
      rw [hkey, ← compareRest_keyEnd name]
      rfl
    have hvisits := Visits.within hnode hc hwithin (.here hset hb)
    rw [hcompare, hnames, hkey] at hvisits
    exact hvisits

/-- The url of a declaration is that of the first binding that the search gathers there. -/
theorem Declared.url_eq {part : List KeyValue}
    (hpart : gatheredAt d.binding (leftBehind d.direct) = .ok part) :
    d.url = .ok (part.head?.bind fun b => literalText? b.value) := by
  obtain ⟨name, b, nested, direct⟩ := d
  cases direct with
  | true =>
    rw [leftBehind, if_pos rfl, gatheredAt, Except.ok.injEq] at hpart
    rw [← hpart]
    rfl
  | false =>
    rw [leftBehind, if_neg Bool.false_ne_true, gatheredAt] at hpart
    obtain ⟨ks, recursive, hset⟩ := Lookup.exists_keyValues_of_findAll hpart
    have hfirst := (Lookup.findFirst_agrees b.value (some [urlName])).head_eq part hpart
    have hnode : b.value.node = .map (ks.map .keyValue) recursive := hset
    rw [Declared.url, if_neg Bool.false_ne_true]
    simp only [hnode, urlAt, hfirst]
    rfl

/-- Where all of the keys on the way to a binding together spell the path, the first of them is that
of the binding, or it spells a beginning of the path and the others the rest. -/
theorem exists_of_visits {path : List Text} {e : Expr}
    (h : Visits path e (path.map some) b .reached) :
    ∃ bs recursive c, e.node = .map bs recursive ∧ .keyValue c ∈ bs ∧
      ((c = b ∧ c.names = path.map some) ∨ ∃ first rest, first ≠ [] ∧ rest ≠ [] ∧
        path = first ++ rest ∧ c.names = first.map some ∧
          Visits rest c.value (rest.map some) b .reached) := by
  generalize hnames : path.map some = names at h
  generalize hfound : Match.reached = found at h
  cases h with
  | here hnode hb => exact ⟨_, _, b, hnode, hb, .inl ⟨rfl, rfl⟩⟩
  | @within _ rest _ bs recursive c _ names' _ hnode hc hrest hvalue =>
    obtain ⟨hpath, hne⟩ := Lookup.eq_append_of_within hrest
    obtain rfl : names' = rest.map some := List.append_cancel_left (hnames.symm.trans hpath)
    obtain ⟨first, rest', rfl, hfirst, hsame⟩ := List.map_eq_append_iff.1 hpath
    obtain rfl := (List.map_inj_right fun _ _ => Option.some.inj).1 hsame
    refine ⟨bs, recursive, c, hnode, hc, .inr ⟨first, rest', ?_, hne, rfl, hfirst.symm, ?_⟩⟩
    · rintro rfl
      rw [← hfirst] at hrest
      cases hrest
    · exact hvalue

theorem cut_pair {x y : Text} {first rest : List Text} (h : [x, y] = first ++ rest)
    (hfirst : first ≠ []) (hrest : rest ≠ []) : first = [x] ∧ rest = [y] := by
  rcases first with _ | ⟨x', _ | ⟨y', first⟩⟩
  · exact absurd rfl hfirst
  · simpa [eq_comm] using h
  · simp [hrest] at h

theorem cut_urlPath {name : Text} {first rest : List Text} (h : urlPath name = first ++ rest)
    (hfirst : first ≠ []) (hrest : rest ≠ []) :
    first = [inputsName] ∧ rest = [name, urlName] ∨
      first = [inputsName, name] ∧ rest = [urlName] := by
  rcases first with _ | ⟨x, first⟩
  · exact absurd rfl hfirst
  · obtain ⟨rfl, hcut⟩ : inputsName = x ∧ [name, urlName] = first ++ rest := List.cons.inj h
    by_cases hempty : first = []
    · rw [hempty, List.nil_append] at hcut
      exact .inl ⟨by rw [hempty], hcut.symm⟩
    · obtain ⟨rfl, rfl⟩ := cut_pair hcut hempty hrest
      exact .inr ⟨rfl, rfl⟩

/-- A binding that the search comes to by the path of a url, and by no longer key, belongs to a
declaration. -/
theorem exists_declares {name : Text}
    (h : Visits (urlPath name) T ((urlPath name).map some) b .reached) :
    ∃ bs recursive c d, T.node = .map bs recursive ∧ .keyValue c ∈ bs ∧ Declares c d ∧
      d.name = name ∧ ∀ part, gatheredAt d.binding (leftBehind d.direct) = .ok part → b ∈ part := by
  have hdirect : ∀ {part}, gatheredAt b (leftBehind true) = .ok part → b ∈ part := by
    intro part hpart
    rw [leftBehind, if_pos rfl, gatheredAt, Except.ok.injEq] at hpart
    rw [← hpart]
    exact List.mem_singleton_self b
  have hset : ∀ {c : KeyValue} {part}, Visits [urlName] c.value ([urlName].map some) b .reached →
      gatheredAt c (leftBehind false) = .ok part → b ∈ part := by
    intro c part hvisits hpart
    rw [leftBehind, if_neg Bool.false_ne_true, gatheredAt] at hpart
    exact (Lookup.mem_findAll_iff hpart).2 ⟨_, hvisits⟩
  obtain ⟨bs, recursive, c, hnode, hc, ⟨rfl, hnames⟩ | ⟨first, rest, hfirst, hrest, hpath, hnames,
    hvisits⟩⟩ := exists_of_visits h
  · exact ⟨bs, recursive, c, ⟨name, c, false, true⟩, hnode, hc, .top hnames, rfl,
      fun part => hdirect⟩
  rcases cut_urlPath hpath hfirst hrest with ⟨rfl, rfl⟩ | ⟨rfl, rfl⟩
  · obtain ⟨ks, recursive', k, hnode', hk, ⟨rfl, hkey⟩ | ⟨first, rest, hfirst, hrest, hpath, hkey,
      hvisits⟩⟩ := exists_of_visits hvisits
    · exact ⟨bs, recursive, c, ⟨name, k, true, true⟩, hnode, hc, .nested hnames hnode' hk hkey, rfl,
        fun part => hdirect⟩
    · obtain ⟨rfl, rfl⟩ := cut_pair hpath hfirst hrest
      exact ⟨bs, recursive, c, ⟨name, k, true, false⟩, hnode, hc, .nested hnames hnode' hk hkey,
        rfl, fun part => hset hvisits⟩
  · exact ⟨bs, recursive, c, ⟨name, c, false, false⟩, hnode, hc, .top hnames, rfl,
      fun part => hset hvisits⟩

end

/-! ## The entries and the search -/

/-- The entry of a single declaration. -/
def Declared.entry (d : Declared) : Except Error Entry :=
  d.url >>= fun url? => .ok ⟨d.name, url?, d.binding⟩

section
variable {T : Expr} {ds : List Declared} {new : List Entry}

theorem heads_mapM (h : ds.mapM Declared.entry = .ok new) :
    new.map Entry.head = ds.map fun d => (d.name, d.binding) := by
  induction ds generalizing new with
  | nil =>
    rw [← Except.ok.inj h]
    rfl
  | cons d ds ih =>
    rw [List.mapM_cons, Outcome.bind_eq_ok] at h
    obtain ⟨e, he, h⟩ := h
    obtain ⟨rest, hrest, h⟩ := Outcome.bind_eq_ok.1 h
    obtain ⟨url?, -, he⟩ := Outcome.bind_eq_ok.1 he
    rw [← Except.ok.inj h, ← Except.ok.inj he, List.map_cons, List.map_cons, ih hrest]
    rfl

theorem mem_entries (h : ds.mapM Declared.entry = .ok new) {e : Entry} :
    e ∈ new ↔ ∃ d ∈ ds, d.url = .ok e.url? ∧ e.name = d.name ∧ e.binding = d.binding := by
  rw [Outcome.mem_of_mapM h]
  apply exists_congr
  intro d
  apply and_congr_right
  intro _
  rw [Declared.entry, Outcome.bind_eq_ok]
  constructor
  · rintro ⟨url?, hurl, he⟩
    rw [← Except.ok.inj he]
    exact ⟨hurl, rfl, rfl⟩
  · rintro ⟨hurl, hname, hbinding⟩
    refine ⟨e.url?, hurl, ?_⟩
    rw [← hname, ← hbinding]

theorem mem_declared {cs : List KeyValue} (hcs : T.findAll (some [inputsName]) = .ok cs)
    (hds : (collect cs).result = .ok ds) :
    ∀ d, d ∈ ds ↔
      ∃ bs recursive c, T.node = .map bs recursive ∧ .keyValue c ∈ bs ∧ Declares c d := by
  obtain ⟨ks, recursive, hnode⟩ := Lookup.exists_keyValues_of_findAll hcs
  rw [Lookup.findAll_segment hnode, Except.ok.injEq] at hcs
  subst hcs
  intro d
  rw [mem_collect (fun c hc => (List.mem_filter.1 hc).2) hds]
  constructor
  · rintro ⟨c, hc, hd⟩
    exact ⟨_, _, c, hnode, List.mem_map_of_mem (List.mem_filter.1 hc).1, hd⟩
  · rintro ⟨bs, recursive', c, hnode', hc, hd⟩
    rw [hnode, Node.map.injEq] at hnode'
    rw [← hnode'.1] at hc
    obtain ⟨k, hk, hsame⟩ := List.mem_map.1 hc
    rw [Binding.keyValue.inj hsame] at hk
    exact ⟨c, List.mem_filter.2 ⟨hk, hd.startsWith⟩, hd⟩

/-- The listing records one entry after the other. -/
theorem exists_of_listInputs {entries : List Entry} (h : (listInputs T).result = .ok entries) :
    ∃ cs ds new, T.findAll (some [inputsName]) = .ok cs ∧ (collect cs).result = .ok ds ∧
      ds.mapM Declared.entry = .ok new ∧
      new.foldl (fun entries e => record e entries) [] = entries := by
  simp only [listInputs, Logged.result_bind, Outcome.result_monadLift, Outcome.result_mapM] at h
  obtain ⟨cs, hcs, h⟩ := Outcome.bind_eq_ok.1 h
  obtain ⟨ds, hds, h⟩ := Outcome.bind_eq_ok.1 h
  obtain ⟨new, hnew, h⟩ := Outcome.bind_eq_ok.1 h
  exact ⟨cs, ds, new, hcs, hds, hnew, Except.ok.inj h⟩

theorem nodup_listInputs {entries : List Entry} (h : (listInputs T).result = .ok entries) :
    (entries.map Entry.name).Nodup := by
  obtain ⟨cs, ds, new, -, -, -, rfl⟩ := exists_of_listInputs h
  exact nodup_foldl List.nodup_nil

/-- The url of an entry is the first that a declaration of the input gives, and an input is listed
if it is declared. -/
theorem exists_declared {entries : List Entry} (h : (listInputs T).result = .ok entries) :
    ∃ new : List Entry,
      (∀ x, x ∈ new ↔ ∃ bs recursive c d, T.node = .map bs recursive ∧ .keyValue c ∈ bs ∧
        Declares c d ∧ d.url = .ok x.url? ∧ x.name = d.name ∧ x.binding = d.binding) ∧
      (∀ name, name ∈ entries.map Entry.name ↔ name ∈ new.map Entry.name) ∧
      ∀ e ∈ entries, e.url? = new.findSome? (Entry.urlFor? e.name) := by
  have hnodup := nodup_listInputs h
  obtain ⟨cs, ds, new, hcs, hds, hnew, rfl⟩ := exists_of_listInputs h
  refine ⟨new, ?_, ?_, ?_⟩
  · intro x
    rw [mem_entries hnew]
    constructor
    · rintro ⟨d, hd, hresult⟩
      obtain ⟨bs, recursive, c, hnode, hc, hdeclares⟩ := (mem_declared hcs hds d).1 hd
      exact ⟨bs, recursive, c, d, hnode, hc, hdeclares, hresult⟩
    · rintro ⟨bs, recursive, c, d, hnode, hc, hdeclares, hresult⟩
      exact ⟨d, (mem_declared hcs hds d).2 ⟨bs, recursive, c, hnode, hc, hdeclares⟩, hresult⟩
  · intro name
    rw [mem_names_foldl]
    simp
  · intro e he
    rw [← listedUrl?_eq hnodup he, listedUrl?_foldl]
    rfl

/-- The url of a declaration is that of a binding that a search for it finds. -/
theorem Declares.exists_mem_found {bs : List Binding} {recursive : Bool} {c : KeyValue}
    {d : Declared} (h : Declares c d) (hnode : T.node = .map bs recursive) (hc : .keyValue c ∈ bs)
    {found : List KeyValue} (hfound : T.findAll (some (urlPath d.name)) = .ok found) {url : Text}
    (hurl : d.url = .ok (some url)) : ∃ b ∈ found, literalText? b.value = some url := by
  obtain ⟨part, hpart, hsublist⟩ := (h.visits hnode hc).exists_part hfound
  rw [Declared.url_eq hpart, Except.ok.injEq, Option.bind_eq_some_iff] at hurl
  obtain ⟨b, hhead, hb⟩ := hurl
  exact ⟨b, hsublist.subset (List.mem_of_head? hhead), hb⟩

/-- If a search finds just one binding, and finds it behind the very keys of its path, then there is
a declaration with the url of this binding. -/
theorem exists_declares_url {name : Text} {b : KeyValue}
    (hfound : T.findAll (some (urlPath name)) = .ok [b])
    (hvisits : Visits (urlPath name) T ((urlPath name).map some) b .reached) :
    ∃ bs recursive c d, T.node = .map bs recursive ∧ .keyValue c ∈ bs ∧ Declares c d ∧
      d.name = name ∧ d.url = .ok (literalText? b.value) := by
  obtain ⟨bs, recursive, c, d, hnode, hc, hd, rfl, hmem⟩ := exists_declares hvisits
  obtain ⟨part, hpart, hsublist⟩ := (hd.visits hnode hc).exists_part hfound
  have hb : b ∈ part := hmem part hpart
  have hsole : part = [b] := by
    apply hsublist.eq_of_length_le
    exact List.length_pos_of_mem hb
  refine ⟨bs, recursive, c, d, hnode, hc, hd, rfl, ?_⟩
  rw [Declared.url_eq hpart, hsole]
  rfl

end

/-- The listing has one entry for each name, in the order of the first declarations, with the
binding of the first declaration.  Where a search for the url of an input does not fail, a url that
is listed for the input is that of one of the bindings that it finds.  If it finds just one binding,
and the keys on the way to this binding go no further than the path, then the input is listed with
the url of the binding. -/
theorem listInputs_agrees {T : Expr} {entries : List Entry}
    (h : (listInputs T).result = .ok entries) :
    (∃ cs ds, T.findAll (some [inputsName]) = .ok cs ∧ (collect cs).result = .ok ds ∧
      (entries.map Entry.name).Nodup ∧
      entries.map Entry.head = (ds.map fun d => (d.name, d.binding)).eraseDupsBy sameName) ∧
    ∀ name found, T.findAll (some (urlPath name)) = .ok found →
      (∀ e ∈ entries, e.name = name → ∀ url, e.url? = some url →
        ∃ b ∈ found, literalText? b.value = some url) ∧
      ∀ b, found = [b] → Visits (urlPath name) T ((urlPath name).map some) b .reached →
        ∃ e ∈ entries, e.name = name ∧ e.url? = literalText? b.value := by
  constructor
  · have hnodup := nodup_listInputs h
    obtain ⟨cs, ds, new, hcs, hds, hnew, rfl⟩ := exists_of_listInputs h
    refine ⟨cs, ds, hcs, hds, hnodup, ?_⟩
    rw [heads_foldl, ← heads_mapM hnew, List.filter_eq_self.2 (by simp)]
    rfl
  intro name found hfound
  obtain ⟨new, hnew, hnames, hfirst⟩ := exists_declared h
  have hurl : ∀ url, new.findSome? (Entry.urlFor? name) = some url →
      ∃ b ∈ found, literalText? b.value = some url := by
    intro url hsome
    obtain ⟨x, hx, hsome⟩ := List.exists_of_findSome?_eq_some hsome
    obtain ⟨hname, hsome⟩ := Option.ite_none_right_eq_some.1 hsome
    obtain ⟨bs, recursive, c, d, hnode, hc, hdeclares, hresult, hsame, -⟩ := (hnew x).1 hx
    rw [← hname, hsame] at hfound
    rw [hsome] at hresult
    exact hdeclares.exists_mem_found hnode hc hfound hresult
  constructor
  · rintro e he rfl url hsome
    rw [hfirst e he] at hsome
    exact hurl url hsome
  · rintro b rfl hvisits
    obtain ⟨bs, recursive, c, d, hnode, hc, hdeclares, rfl, hresult⟩ :=
      exists_declares_url hfound hvisits
    have hx : ⟨d.name, literalText? b.value, d.binding⟩ ∈ new :=
      (hnew _).2 ⟨bs, recursive, c, d, hnode, hc, hdeclares, hresult, rfl, rfl⟩
    obtain ⟨e, he, hname⟩ := List.mem_map.1 ((hnames d.name).2 (List.mem_map_of_mem hx))
    refine ⟨e, he, hname, ?_⟩
    rw [hfirst e he, hname]
    cases hsome : new.findSome? (Entry.urlFor? d.name) with
    | none =>
      have hnone := List.findSome?_eq_none_iff.1 hsome _ hx
      rw [Entry.urlFor?, if_pos rfl] at hnone
      exact hnone.symm
    | some url =>
      obtain ⟨b', hb', hurl⟩ := hurl url hsome
      rw [← List.mem_singleton.1 hb', hurl]

theorem listInputs_agrees_repeated :
    ∃ (first again nixpkgs : KeyValue) (T : Expr) (entries : List Entry),
      T.node = .map [.keyValue first, .keyValue again] false ∧
      first.names = [some inputsName] ∧ first.value.node = .map [.keyValue nixpkgs] false ∧
      nixpkgs.names = [some "nixpkgs".toList] ∧ nixpkgs.value.node = .map [] false ∧
      again.names = (urlPath "nixpkgs".toList).map some ∧
      again.value.node = .uri "a:b".toList ∧
      (listInputs T).result = .ok entries ∧
      T.findAll (some (urlPath "nixpkgs".toList)) = .ok [again] ∧
      (entries.map Entry.name).Nodup ∧
      ∃ e ∈ entries, e.name = "nixpkgs".toList ∧ e.url? = some "a:b".toList := by
  let nixpkgs : KeyValue := ⟨.blank, [.bare .blank "nixpkgs".toList], ⟨.blank, .map [] false⟩⟩
  let first : KeyValue :=
    ⟨.blank, [.bare .blank inputsName], ⟨.blank, .map [.keyValue nixpkgs] false⟩⟩
  let again : KeyValue :=
    ⟨.blank, [.bare .blank inputsName, .bare .blank "nixpkgs".toList, .bare .blank urlName],
      ⟨.blank, .uri "a:b".toList⟩⟩
  let T : Expr := ⟨.blank, .map ([first, again].map .keyValue) false⟩
  have hset : nixpkgs.value.findAll (some [urlName]) = .ok [] :=
    @Lookup.findAll_map [] nixpkgs.value false rfl _
  have hnixpkgs : (⟨"nixpkgs".toList, nixpkgs, true, false⟩ : Declared).url = .ok none :=
    @Declared.url_eq ⟨_, nixpkgs, true, false⟩ [] hset
  have hlist : (listInputs T).result =
      .ok [⟨"nixpkgs".toList, some "a:b".toList, nixpkgs⟩] := by
    simp only [listInputs, Logged.result_bind, Outcome.result_monadLift, Outcome.result_mapM,
      @Lookup.findAll_segment T [first, again] false rfl]
    change ([⟨_, nixpkgs, true, false⟩, ⟨_, again, false, true⟩].mapM Declared.entry >>= _) = _
    rw [List.mapM_cons, Declared.entry, hnixpkgs]
    rfl
  have hfirst : first.value.findAll (some ["nixpkgs".toList, urlName]) = .ok [] := by
    rw [@Lookup.findAll_map [.keyValue nixpkgs] first.value false rfl, Lookup.gatherAll_cons]
    change (nixpkgs.value.findAll (some [urlName]) >>= _) = _
    rw [hset]
    rfl
  have hfound : T.findAll (some (urlPath "nixpkgs".toList)) = .ok [again] := by
    rw [@Lookup.findAll_map ([first, again].map .keyValue) T false rfl, List.map_cons,
      Lookup.gatherAll_cons]
    change (first.value.findAll (some ["nixpkgs".toList, urlName]) >>= _) = _
    rw [hfirst]
    rfl
  obtain ⟨⟨cs, ds, -, -, hnodup, -⟩, hurls⟩ := listInputs_agrees hlist
  have hvisits : Visits (urlPath "nixpkgs".toList) T ((urlPath "nixpkgs".toList).map some) again
      .reached := @Visits.here (urlPath "nixpkgs".toList) T _ _ again rfl (by simp)
  exact ⟨first, again, nixpkgs, T, _, rfl, rfl, rfl, rfl, rfl, rfl, rfl, hlist, hfound, hnodup,
    (hurls _ _ hfound).2 again rfl hvisits⟩

end Manifest
end FlakeInputs
