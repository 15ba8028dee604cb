import FlakeInputs.Proofs.Grammar.Derivation

/-!
# Arguments of a url

A url at the end of a phrase can be exchanged for another one, and a name behind it is one more
argument of the application that it stands in.
-/

namespace FlakeInputs
namespace Grammar

section
variable {url name : Token}

/-- What a url at the end of a phrase is exchanged for: the name is an argument, so it is no part
of an operand. -/
def Symbol.goesOnWith (url name : Token) : Symbol → List Token
  | select | simple => [url]
  | _ => [url, name]

/-- A phrase that ends with a url goes on with the name. -/
def Symbol.GoesOn (url name : Token) (s : Symbol) (p : List Token) : Prop :=
  ∀ (q : List Token) (z : Token), p = q ++ [z] → z.kind = .uri →
    ∃ v, Derives s (q ++ s.goesOnWith url name) v

/-- The last of some tokens is no url. -/
def NoUrl (p : List Token) : Prop :=
  ∀ z ∈ p.getLast?, z.kind ≠ .uri

theorem noUrl_concat (l : List Token) {t : Token} {kind : TokenKind} (ht : t.kind = kind)
    (hkind : kind ≠ .uri) : NoUrl (l ++ [t]) := by
  intro z hz
  rw [List.getLast?_concat, Option.mem_some] at hz
  rw [← hz, ht]
  exact hkind

theorem NoUrl.behind {q : List Token} (hq : NoUrl q) (hne : q ≠ []) (l : List Token) :
    NoUrl (l ++ q) := by
  intro z hz
  rw [List.getLast?_append, List.getLast?_eq_some_getLast hne, Option.some_or] at hz
  exact hq z (by rwa [List.getLast?_eq_some_getLast hne])

theorem NoUrl.append {p q : List Token} (hp : NoUrl p) (hq : NoUrl q) : NoUrl (p ++ q) := by
  by_cases hne : q = []
  · rwa [hne, List.append_nil]
  · exact hq.behind hne p

theorem NoUrl.goesOn {s : Symbol} {p : List Token} (h : NoUrl p) : s.GoesOn url name p := by
  rintro q z rfl hz
  exact absurd hz (h z (by simp))

theorem exists_concat_of_append {l p q : List Token} {z : Token} (hp : p ≠ [])
    (h : l ++ p = q ++ [z]) : ∃ p', p = p' ++ [z] ∧ q = l ++ p' := by
  obtain ⟨p', t, rfl⟩ := (List.eq_nil_or_concat p).resolve_left hp
  rw [List.concat_eq_append, ← List.append_assoc] at h
  obtain ⟨rfl, ht⟩ := List.append_inj' h rfl
  exact ⟨p', by rw [List.concat_eq_append, ht], rfl⟩

/-- A phrase goes on with the name if the phrase at its end does. -/
theorem Symbol.GoesOn.within {s s' : Symbol} {p w : List Token} (h : s.GoesOn url name p)
    (hp : p ≠ []) (hwith : s'.goesOnWith url name = s.goesOnWith url name) (l : List Token)
    (hw : w = l ++ p)
    (hf : ∀ {p' : List Token} {v : s.Val}, Derives s p' v → ∃ v', Derives s' (l ++ p') v') :
    s'.GoesOn url name w := by
  subst hw
  intro q z hq hz
  obtain ⟨p', rfl, rfl⟩ := exists_concat_of_append hp hq
  obtain ⟨v, hv⟩ := h p' z rfl hz
  rw [hwith, List.append_assoc]
  exact hf hv

/-! ### Expressions that end with an expression -/

section
variable {word middle : Token} {p q r : List Token}

/-- An expression behind a word, some tokens and a separator. -/
theorem Symbol.GoesOn.guarded (h : Symbol.expr.GoesOn url name q) (hq : q ≠ [])
    (hf : ∀ {q' : List Token} {e : Expr}, Derives .expr q' e →
      ∃ e', Derives .expr (word :: (p ++ middle :: q')) e') :
    Symbol.expr.GoesOn url name (word :: (p ++ middle :: q)) :=
  h.within hq rfl (word :: (p ++ [middle])) (by simp) fun h => by simpa using hf h

/-- An expression behind a parameter list. -/
theorem Symbol.GoesOn.headed {l : List Token} (h : Symbol.expr.GoesOn url name q) (hq : q ≠ [])
    (hf : ∀ {q' : List Token} {e : Expr}, Derives .expr q' e →
      ∃ e', Derives .expr (p ++ (l ++ q')) e') :
    Symbol.expr.GoesOn url name (p ++ (l ++ q)) :=
  h.within hq rfl (p ++ l) (by simp) fun h => by simpa using hf h

/-- The last of the rows ends with the url, or else the first phrase if there are no rows. -/
theorem Symbol.GoesOn.row {s s₁ s₂ : Symbol} (h₁ : s₁.GoesOn url name p)
    (h₂ : s₂.GoesOn url name q) (hwith : s.goesOnWith url name = s₂.goesOnWith url name)
    (hlast : q = [] → ∀ {p' : List Token} {v : s₁.Val},
      Derives s₁ (p' ++ s₁.goesOnWith url name) v → ∃ w, Derives s (p' ++ s.goesOnWith url name) w)
    (hmore : ∀ {q' : List Token} {v : s₂.Val}, Derives s₂ q' v → ∃ w, Derives s (p ++ q') w) :
    s.GoesOn url name (p ++ q) := by
  by_cases hq : q = []
  · intro p' z hp hz
    obtain ⟨v, hv⟩ := h₁ p' z (by simpa [hq] using hp) hz
    exact hlast hq hv
  · exact h₂.within hq hwith p rfl hmore

end

/-- What can be said of a phrase that ends with a url: an expression goes on with the name, and a
key or a delimited phrase does not end with one. -/
def Symbol.UrlEnding (url name : Token) : (s : Symbol) → List Token → Prop
  | .literal delimiter _, p => ∀ z ∈ p.getLast?, z.kind = delimiter
  | .interpolation, p | .key, p | .pathRest, p | .attrPath, p | .attrSet, p => NoUrl p
  | .elements, _ | .parts _, _ | .names, _ | .keyValue, _ | .binding, _ | .bindings _, _
  | .parameter, _ | .entries, _ | .parameterList _, _ => True
  | s, p => s.GoesOn url name p

theorem Derives.urlEnding (hurl : url.kind = .uri) (hname : name.kind = .identifier) {s : Symbol}
    {p : List Token} {v : s.Val} (h : Derives s p v) : s.UrlEnding url name p := by
  have hargument : Derives .arguments [name] [⟨name.span, .identifier name.lexeme⟩] := by
    simpa using Derives.argument (.unselected (.identifier hname)) .noArgument
  induction h with
  | simpleFunction hname hcolon hbody ih =>
    exact ih.within (hbody.ne_nil rfl) rfl [_, _] rfl fun h => ⟨_, .simpleFunction hname hcolon h⟩
  | @namedFunction x atSign colon p q list body hname hat hlist hcolon hbody _ ih =>
    exact ih.within (hbody.ne_nil rfl) rfl (x :: atSign :: (p ++ [colon])) (by simp) fun h =>
      ⟨_, by simpa using Derives.namedFunction hname hat hlist hcolon h⟩
  | @listFunction colon p q list body hlist hcolon hbody _ ih =>
    exact ih.headed (l := [colon]) (hbody.ne_nil rfl) fun h => ⟨_, .listFunction hlist hcolon h⟩
  | @aliasedFunction atSign x colon p q list body hlist hat hname hcolon hbody _ ih =>
    exact ih.headed (l := [atSign, x, colon]) (hbody.ne_nil rfl) fun h =>
      ⟨_, .aliasedFunction hlist hat hname hcolon h⟩
  | assertion hword hcondition hmiddle htarget _ ih =>
    exact ih.guarded (htarget.ne_nil rfl) fun h => ⟨_, .assertion hword hcondition hmiddle h⟩
  | withScope hword hscope hmiddle htarget _ ih =>
    exact ih.guarded (htarget.ne_nil rfl) fun h => ⟨_, .withScope hword hscope hmiddle h⟩
  | letIn hword hbindings hmiddle htarget _ ih =>
    exact ih.guarded (htarget.ne_nil rfl) fun h => ⟨_, .letIn hword hbindings hmiddle h⟩
  | @conditional word thenWord elseWord p q r _ _ _ hword hcondition hthen hyes helse hno _ _ ih =>
    exact ih.within (hno.ne_nil rfl) rfl (word :: (p ++ thenWord :: (q ++ [elseWord]))) (by simp)
      fun h => ⟨_, by simpa using Derives.conditional hword hcondition hthen hyes helse h⟩
  | operation h ih => exact ih.within (h.ne_nil rfl) rfl [] rfl fun h => ⟨_, .operation h⟩
  | complementedBase h ih =>
    exact ih.within (h.ne_nil rfl) rfl [] rfl fun h => ⟨_, .complementedBase h⟩
  | attrTestBase h ih => exact ih.within (h.ne_nil rfl) rfl [] rfl fun h => ⟨_, .attrTestBase h⟩
  | uncomplemented h ih =>
    exact ih.within (h.ne_nil rfl) rfl [] rfl fun h => ⟨_, .uncomplemented h⟩
  | untested h ih => exact ih.within (h.ne_nil rfl) rfl [] rfl fun h => ⟨_, .untested h⟩
  | unnegated h ih => exact ih.within (h.ne_nil rfl) rfl [] rfl fun h => ⟨_, .unnegated h⟩
  | unselected h ih => exact ih.within (h.ne_nil rfl) rfl [] rfl fun h => ⟨_, .unselected h⟩
  | @complement sign p e hsign h ih =>
    exact ih.within (h.ne_nil rfl) rfl [sign] rfl fun h => ⟨_, .complement hsign h⟩
  | @negate sign p e hsign h ih =>
    exact ih.within (h.ne_nil rfl) rfl [sign] rfl fun h => ⟨_, .negate hsign h⟩
  | chain hfirst hrest ih ih' =>
    refine ih.row ih' rfl (fun hq _ _ h => ?_) fun h => ⟨_, .chain hfirst h⟩
    subst hq
    exact ⟨_, by simpa [Symbol.goesOnWith] using Derives.chain h hrest⟩
  | noLink | noArgument =>
    intro q z hq
    simp at hq
  | @link tower level table op sign p q right rest hsign hop hright hrest hsingle ih ih' =>
    by_cases hq : q = []
    · subst hq
      exact ih.within (hright.ne_nil (Tower.begins_none _)) rfl [sign] (by simp) fun h =>
        ⟨_, by simpa using Derives.link hsign hop h hrest hsingle⟩
    · exact ih'.within hq rfl (sign :: p) rfl fun h =>
        ⟨_, .link hsign hop hright h fun hgrouping => absurd (hsingle hgrouping) hq⟩
  | @hasAttr question p q source span path hsource hquestion hpath _ ih =>
    exact (((noUrl_concat [] hquestion (by decide)).append ih).behind (by simp) p).goesOn
  | @selection dot p q source span path hsource hdot hpath _ ih =>
    exact (((noUrl_concat [] hdot (by decide)).append ih).behind (by simp) p).goesOn
  | @selectionOr dot orWord p q r source default span path hsource hdot hpath hor hdefault _ _ ih =>
    exact ih.within (hdefault.ne_nil rfl) rfl (p ++ dot :: (q ++ [orWord])) (by simp) fun h =>
      ⟨_, by simpa using Derives.selectionOr hsource hdot hpath hor h⟩
  | apply hfunction harguments ih ih' =>
    -- The url can stand at the end of the function, and then the name is the first argument.
    refine ih.row ih' rfl (fun _ _ _ h => ?_) fun h => ⟨_, .apply hfunction h⟩
    exact ⟨_, by simpa [Symbol.goesOnWith] using Derives.apply h hargument⟩
  | argument he hes ih ih' =>
    refine ih.row ih' rfl (fun _ _ _ h => ?_) fun h => ⟨_, .argument he h⟩
    exact ⟨_, by simpa [Symbol.goesOnWith] using Derives.argument h hargument⟩
  | identifier h | integer h | float h | path h | searchPath h =>
    exact (noUrl_concat [] h (by decide)).goesOn
  | uri =>
    intro q z hq _
    obtain ⟨rfl, -⟩ := List.append_inj' (show [] ++ [_] = q ++ [_] from hq) rfl
    exact ⟨_, .uri hurl⟩
  | string _ ih | indentedString _ ih =>
    exact NoUrl.goesOn fun z hz => by rw [ih z hz]; decide
  | parenthesised _ _ hclosing | list _ _ hclosing =>
    exact (noUrl_concat (_ :: _) hclosing (by decide)).goesOn
  | recSet hword _ ih => exact ((noUrl_concat [] hword (by decide)).append ih).goesOn
  | map _ ih => exact ih.goesOn
  | interpolation _ _ hclosing | attrSet _ _ hclosing =>
    exact noUrl_concat (_ :: _) hclosing (by decide)
  | @literal delimiter expected opening closing p parts hopening _ hclosing =>
    intro z hz
    rw [← List.cons_append, List.getLast?_concat, Option.mem_some] at hz
    rw [← hz, hclosing]
  | bareKey h =>
    rcases h with h | h
    · exact noUrl_concat [] h (by decide)
    · exact noUrl_concat [] h (by decide)
  | quotedKey _ ih => exact fun z hz => by rw [ih z hz]; decide
  | computedKey _ ih => exact ih
  | pathEnd => exact fun z hz => by simp at hz
  | pathStep hdot _ _ ih ih' => exact (noUrl_concat [] hdot (by decide)).append (ih.append ih')
  | attrPath _ _ ih ih' => exact ih.append ih'
  | _ => trivial

/-- A parameter that ends with a url takes a name behind it as a part of its default. -/
theorem Derives.parameter_goesOn {p : List Token} {z url name : Token} {x : Parameter}
    (h : Derives .parameter (p ++ [z]) x) (hz : z.kind = .uri) (hurl : url.kind = .uri)
    (hname : name.kind = .identifier) :
    ∃ x', Derives .parameter (p ++ [url, name]) x' ∧ x'.name = x.name := by
  generalize hw : p ++ [z] = w at h
  cases h with
  | parameter hidentifier =>
    obtain ⟨-, ht⟩ := List.append_inj' (show p ++ [z] = [] ++ [_] from hw) rfl
    rw [List.singleton_inj.1 ht, hidentifier] at hz
    cases hz
  | @parameterOr x question q default hx hquestion hdefault =>
    obtain ⟨q', rfl, rfl⟩ :=
      exists_concat_of_append (l := [x, question]) (hdefault.ne_nil rfl) hw.symm
    obtain ⟨default', hdefault'⟩ := hdefault.urlEnding hurl hname q' z rfl hz
    exact ⟨_, .parameterOr hx hquestion hdefault', rfl⟩

end
end Grammar
end FlakeInputs
