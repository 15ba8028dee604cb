import FlakeInputs.Proofs.Grammar.Derivation

/-!
# Nesting

The delimiters in a phrase come in pairs.  Commas stand between delimiters only, except for
those between the entries of a parameter list.
-/

namespace FlakeInputs
namespace Grammar

/-- The pairs of kinds of tokens between which others are nested. -/
def delimiterPairs : List (TokenKind × TokenKind) :=
  [(.braceOpen, .braceClose), (.interpolation, .braceClose), (.parenOpen, .parenClose),
   (.bracketOpen, .bracketClose)]

/-- Whether a token is one of a pair of delimiters. -/
def isPaired (kind : TokenKind) : Bool :=
  kind ∈ [.braceOpen, .interpolation, .parenOpen, .bracketOpen, .braceClose, .parenClose,
    .bracketClose]

/-- Whether a token is neither a delimiter nor a comma. -/
def isPlain (kind : TokenKind) : Bool :=
  !isPaired kind && kind != .comma

/-- Kinds of tokens with their delimiters in pairs.  If they are `listed`, commas may stand
outside of all delimiters. -/
inductive Balanced : (listed : Bool) → List TokenKind → Prop
  | nil {listed : Bool} : Balanced listed []
  | plain {listed : Bool} {kind : TokenKind} {ks : List TokenKind}
      (hkind : isPaired kind = false) (hcomma : kind = .comma → listed = true)
      (h : Balanced listed ks) : Balanced listed (kind :: ks)
  | group {listed : Bool} {opening closing : TokenKind} {ks ks' : List TokenKind}
      (hpair : (opening, closing) ∈ delimiterPairs) (hinside : Balanced true ks)
      (h : Balanced listed ks') : Balanced listed (opening :: (ks ++ closing :: ks'))

namespace Balanced

theorem append {listed : Bool} {ks ks' : List TokenKind} (h : Balanced listed ks)
    (h' : Balanced listed ks') : Balanced listed (ks ++ ks') := by
  induction h with
  | nil => exact h'
  | plain hkind hcomma _ ih => exact .plain hkind hcomma (ih h')
  | group hpair hinside _ _ ih =>
    rw [List.cons_append, List.append_assoc, List.cons_append]
    exact .group hpair hinside (ih h')

/-- Commas may stand between delimiters. -/
theorem listed {ks : List TokenKind} (h : Balanced false ks) : Balanced true ks := by
  generalize hl : false = l at h
  induction h with
  | nil => exact .nil
  | plain hkind hcomma _ ih => exact .plain hkind (fun _ => rfl) (ih hl)
  | group hpair hinside _ _ ih => exact .group hpair hinside (ih hl)

theorem cons {listed : Bool} {t : Token} {kind : TokenKind} {ks : List TokenKind}
    (ht : t.kind = kind) (hkind : isPlain kind = true) (h : Balanced listed ks) :
    Balanced listed (t.kind :: ks) := by
  subst ht
  simp only [isPlain, Bool.and_eq_true, Bool.not_eq_true', bne_iff_ne] at hkind
  exact .plain hkind.1 (fun heq => absurd heq hkind.2) h

theorem enclosed {listed : Bool} {o c : Token} {opening closing : TokenKind} {ks : List TokenKind}
    (ho : o.kind = opening) (hc : c.kind = closing) (h : Balanced true ks)
    (hpair : (opening, closing) ∈ delimiterPairs) :
    Balanced listed (o.kind :: (ks ++ [c.kind])) := by
  subst ho hc
  exact .group hpair h .nil

end Balanced

/-- Whether commas may stand in a phrase outside of all delimiters. -/
def Symbol.listed : Symbol → Bool
  | entries => true
  | _ => false

/-- Whether the quotes of a symbol are no delimiters of other phrases. -/
def Symbol.quotes : Symbol → Prop
  | literal delimiter _ => isPlain delimiter = true
  | _ => True

/-- The delimiters in a phrase come in pairs. -/
theorem Derives.balanced {s : Symbol} {p : List Token} {v : s.Val} (h : Derives s p v)
    (hs : s.quotes) : Balanced s.listed (p.map Token.kind) := by
  induction h with
  | noLink | noArgument | noElement | noPart | pathEnd | noName | noBinding | noEntry => exact .nil
  | operation _ ih | complementedBase _ ih | attrTestBase _ ih | uncomplemented _ ih
  | untested _ ih | unnegated _ ih | unselected _ ih | map _ ih | computedKey _ ih
  | keyValueBinding _ ih => exact ih trivial
  | string _ ih | indentedString _ ih | quotedKey _ ih => exact ih rfl
  | lastEntry _ ih => exact (ih trivial).listed
  | chain _ _ ih ih' | apply _ _ ih ih' | argument _ _ ih ih' | element _ _ ih ih'
  | interpolationPart _ _ ih ih' | attrPath _ _ ih ih' | name _ _ ih ih' | bindings _ _ ih ih' =>
    rw [List.map_append]
    exact (ih trivial).append (ih' trivial)
  | identifier h | integer h | float h | path h | searchPath h | uri h | parameter h | ellipsis h =>
    exact .cons h rfl .nil
  | bareKey h =>
    rcases h with h | h
    · exact .cons h rfl .nil
    · exact .cons h rfl .nil
  | complement h _ ih | negate h _ ih | recSet h _ ih | textPart h _ ih =>
    exact .cons h rfl (ih trivial)
  | parenthesised ho _ hc ih | list ho _ hc ih | interpolation ho _ hc ih | attrSet ho _ hc ih =>
    rw [List.map_cons, List.map_append]
    exact .enclosed ho hc (ih trivial).listed (by decide)
  | parameterList ho _ hc ih =>
    rw [List.map_cons, List.map_append]
    exact .enclosed ho hc (ih trivial) (by decide)
  | literal ho _ hc ih =>
    rw [List.map_cons, List.map_append]
    exact .cons ho hs ((ih trivial).append (.cons hc hs .nil))
  | simpleFunction hname hsign _ ih | parameterOr hname hsign _ ih =>
    exact .cons hname rfl (.cons hsign rfl (ih trivial))
  | namedFunction hname hat _ hcolon _ ih ih' =>
    rw [List.map_cons, List.map_cons, List.map_append, List.map_cons]
    exact .cons hname rfl (.cons hat rfl ((ih trivial).append (.cons hcolon rfl (ih' trivial))))
  | listFunction _ hcolon _ ih ih' =>
    rw [List.map_append]
    exact (ih trivial).append (.cons hcolon rfl (ih' trivial))
  | aliasedFunction _ hat hname hcolon _ ih ih' =>
    rw [List.map_append]
    exact (ih trivial).append (.cons hat rfl (.cons hname rfl (.cons hcolon rfl (ih' trivial))))
  | assertion hword _ hmiddle _ ih ih' | withScope hword _ hmiddle _ ih ih'
  | letIn hword _ hmiddle _ ih ih' =>
    rw [List.map_cons, List.map_append]
    exact .cons hword rfl ((ih trivial).append (.cons hmiddle rfl (ih' trivial)))
  | conditional hword _ hthen _ helse _ ih ih' ih'' =>
    rw [List.map_cons, List.map_append, List.map_cons, List.map_append]
    exact .cons hword rfl ((ih trivial).append
      (.cons hthen rfl ((ih' trivial).append (.cons helse rfl (ih'' trivial)))))
  | link hsign _ _ _ _ ih ih' =>
    rw [List.map_cons, List.map_append]
    exact .cons hsign rfl ((ih trivial).append (ih' trivial))
  | hasAttr _ hsign _ ih ih' | selection _ hsign _ ih ih' =>
    rw [List.map_append]
    exact (ih trivial).append (.cons hsign rfl (ih' trivial))
  | selectionOr _ hdot _ hor _ ih ih' ih'' =>
    rw [List.map_append, List.map_cons, List.map_append]
    exact (ih trivial).append
      (.cons hdot rfl ((ih' trivial).append (.cons hor rfl (ih'' trivial))))
  | pathStep hdot _ _ ih ih' =>
    rw [List.map_cons, List.map_append]
    exact .cons hdot rfl ((ih trivial).append (ih' trivial))
  | keyValue _ hassign _ hsemicolon ih ih' =>
    rw [List.map_append, List.map_cons, List.map_append]
    exact (ih trivial).append
      (.cons hassign rfl ((ih' trivial).append (.cons hsemicolon rfl .nil)))
  | inherited hword _ hsemicolon ih =>
    rw [List.map_cons, List.map_append]
    exact .cons hword rfl ((ih trivial).append (.cons hsemicolon rfl .nil))
  | inheritedFrom hword hopening _ hclosing _ hsemicolon ih ih' =>
    rw [List.map_cons, List.map_cons, List.map_append, List.map_cons, List.map_append, hopening,
      hclosing]
    exact .cons hword rfl (.group (by decide) (ih trivial).listed
      ((ih' trivial).append (.cons hsemicolon rfl .nil)))
  | entry _ hcomma _ ih ih' =>
    rw [List.map_append, List.map_cons, hcomma]
    exact (ih trivial).listed.append (.plain rfl (fun _ => rfl) (ih' trivial))

/-! ## Last tokens -/

/-- Whether a phrase can end with a token of the given kind. -/
def Symbol.ends : Symbol → TokenKind → Bool
  | parts _, _ => true
  | literal delimiter _, kind => kind == delimiter
  | entries, kind => kind ∉ [.colon, .text]
  | _, kind => kind ∉ [.colon, .text, .comma, .ellipsis]

/-- Whether the last of some tokens is one of those that end a phrase. -/
def Symbol.EndedBy (s : Symbol) (p : List Token) : Prop :=
  ∀ t ∈ p.getLast?, s.ends t.kind = true

theorem endedBy_nil (s : Symbol) : s.EndedBy [] := by
  simp [Symbol.EndedBy]

theorem endedBy_concat {s : Symbol} {t : Token} {kind : TokenKind} (l : List Token)
    (ht : t.kind = kind) (hkind : s.ends kind = true) : s.EndedBy (l ++ [t]) := by
  intro z hz
  rw [List.getLast?_concat, Option.mem_some] at hz
  rw [← hz, ht, hkind]

theorem Symbol.EndedBy.append {s : Symbol} {p q : List Token} (hp : s.EndedBy p)
    (hq : s.EndedBy q) : s.EndedBy (p ++ q) := by
  intro t ht
  rw [List.getLast?_append] at ht
  cases hlast : q.getLast? with
  | none =>
    rw [hlast, Option.none_or] at ht
    exact hp t ht
  | some z =>
    rw [hlast, Option.some_or] at ht
    exact hq t (hlast.trans ht)

theorem Symbol.EndedBy.cons {s : Symbol} {t : Token} {kind : TokenKind} {q : List Token}
    (hq : s.EndedBy q) (ht : t.kind = kind) (hkind : s.ends kind = true) : s.EndedBy (t :: q) :=
  (endedBy_concat [] ht hkind).append hq

theorem Symbol.EndedBy.entries {p : List Token} (h : Symbol.parameter.EndedBy p) :
    Symbol.entries.EndedBy p := by
  intro t ht
  have hends := h t ht
  simp only [Symbol.ends, List.mem_cons, List.not_mem_nil, or_false, not_or, decide_eq_true_eq]
    at hends ⊢
  exact ⟨hends.1, hends.2.1⟩

/-- No phrase ends with a colon, because the body of a function is not empty. -/
theorem Derives.endedBy_colon {s : Symbol} {q : List Token} {e : Expr} (h : Derives .expr q e)
    (hq : s.EndedBy q) (colon : Token) : s.EndedBy (colon :: q) := by
  have hne : q ≠ [] := h.ne_nil rfl
  intro t ht
  rw [List.getLast?_cons_of_ne_nil hne] at ht
  exact hq t ht

/-- A phrase ends with a token that can end one. -/
theorem Derives.ends {s : Symbol} {p : List Token} {v : s.Val} (h : Derives s p v) :
    s.EndedBy p := by
  induction h with
  | noLink | noArgument | noElement | noPart | pathEnd | noName | noBinding | noEntry =>
    exact endedBy_nil _
  | operation _ ih | complementedBase _ ih | attrTestBase _ ih | uncomplemented _ ih
  | untested _ ih | unnegated _ ih | unselected _ ih | map _ ih | computedKey _ ih
  | keyValueBinding _ ih => exact ih
  | lastEntry _ ih => exact ih.entries
  | string _ ih | indentedString _ ih | quotedKey _ ih =>
    intro t ht
    rw [beq_iff_eq.1 (ih t ht)]
    rfl
  | textPart | interpolationPart => exact fun _ _ => rfl
  | chain _ _ ih ih' | apply _ _ ih ih' | argument _ _ ih ih' | element _ _ ih ih'
  | attrPath _ _ ih ih' | name _ _ ih ih' | bindings _ _ ih ih' => exact ih.append ih'
  | identifier h | integer h | float h | path h | searchPath h | uri h | parameter h | ellipsis h =>
    exact endedBy_concat [] h rfl
  | bareKey h =>
    rcases h with h | h
    · exact endedBy_concat [] h rfl
    · exact endedBy_concat [] h rfl
  | parenthesised _ _ hc | list _ _ hc | interpolation _ _ hc | attrSet _ _ hc
  | parameterList _ _ hc | inherited _ _ hc => exact endedBy_concat (_ :: _) hc rfl
  | literal _ _ hc => exact endedBy_concat (_ :: _) hc (beq_self_eq_true _)
  | simpleFunction hname _ h ih => exact (h.endedBy_colon ih _).cons hname rfl
  | namedFunction hname hat _ _ h ih ih' =>
    exact ((ih.append (h.endedBy_colon ih' _)).cons hat rfl).cons hname rfl
  | listFunction _ _ h ih ih' => exact ih.append (h.endedBy_colon ih' _)
  | aliasedFunction _ hat hname _ h ih ih' =>
    exact ih.append (((h.endedBy_colon ih' _).cons hname rfl).cons hat rfl)
  | complement h _ ih | negate h _ ih | recSet h _ ih => exact ih.cons h rfl
  | parameterOr hname hquestion _ ih => exact (ih.cons hquestion rfl).cons hname rfl
  | assertion hword _ hmiddle _ ih ih' | withScope hword _ hmiddle _ ih ih'
  | letIn hword _ hmiddle _ ih ih' => exact (ih.append (ih'.cons hmiddle rfl)).cons hword rfl
  | conditional hword _ hthen _ helse _ ih ih' ih'' =>
    exact (ih.append ((ih'.append (ih''.cons helse rfl)).cons hthen rfl)).cons hword rfl
  | link h _ _ _ _ ih ih' | pathStep h _ _ ih ih' => exact (ih.append ih').cons h rfl
  | hasAttr _ hsign _ ih ih' | selection _ hsign _ ih ih' =>
    exact ih.append (ih'.cons hsign rfl)
  | entry _ hcomma _ ih ih' => exact ih.entries.append (ih'.cons hcomma rfl)
  | selectionOr _ hdot _ hor _ ih ih' ih'' =>
    exact ih.append ((ih'.append (ih''.cons hor rfl)).cons hdot rfl)
  | keyValue _ hassign _ hsemicolon ih ih' =>
    exact ih.append ((ih'.append (endedBy_concat [] hsemicolon rfl)).cons hassign rfl)
  | inheritedFrom hword hopening _ hclosing _ hsemicolon ih ih' =>
    have hlast := endedBy_concat (s := .binding) [] hsemicolon rfl
    exact ((ih.append ((ih'.append hlast).cons hclosing rfl)).cons hopening rfl).cons hword rfl

end Grammar
end FlakeInputs
