import FlakeInputs.Edit.Written
import FlakeInputs.Token.Literal

/-!
# String text and comments on their own

Where string text or a comment ends does not depend on what follows its end, apart
from the two quotes that end an indented string.  Escaped text has no end in it.
-/

namespace FlakeInputs
namespace Literal

/-- How the end of a stretch of a double-quoted string is written. -/
def Closer.quotedMark : Closer → Text
  | delimiter => ['"']
  | interpolation => ['$', '{']

/-- How the end of a stretch of an indented string is written. -/
def Closer.indentedMark : Closer → Text
  | delimiter => ['\x27', '\x27']
  | interpolation => ['$', '{']

theorem Closer.quotedMark_ne_nil (c : Closer) : c.quotedMark ≠ [] := by
  cases c <;> simp [quotedMark]

theorem Closer.indentedMark_ne_nil (c : Closer) : c.indentedMark ≠ [] := by
  cases c <;> simp [indentedMark]

/-- The first character of a text does not depend on what follows a part of it that is
not empty. -/
theorem head?_append_append {w mark : Text} (hmark : mark ≠ []) (r r' : Text) :
    (w ++ (mark ++ r)).head? = (w ++ (mark ++ r')).head? := by
  cases w with
  | cons c w => rfl
  | nil =>
    obtain ⟨c, mark, rfl⟩ := List.exists_cons_of_ne_nil hmark
    rfl

theorem quoted?_cons {c : Char} {t : Text} (hquote : c ≠ '"') (hescape : c ≠ '\\')
    (hdollar : c = '$' → t.head? ≠ some '$' ∧ t.head? ≠ some '{') :
    quoted? (c :: t) = (quoted? t).map (Body.after [c]) := by
  refine quoted?.eq_6 c t hquote (fun _ _ heq => absurd heq hescape) ?_ ?_
  · rintro _ rfl rfl
    exact absurd rfl (hdollar rfl).1
  · rintro _ rfl rfl
    exact absurd rfl (hdollar rfl).2

/-- A stretch of a double-quoted string is the same in front of any other text. -/
theorem quoted?_swap {t : Text} {b : Body} (h : quoted? t = some b) :
    t = b.text ++ (b.closer.quotedMark ++ b.rest) ∧
      ∀ r, quoted? (b.text ++ (b.closer.quotedMark ++ r)) = some { b with rest := r } := by
  fun_induction quoted? t generalizing b with
  | case1 => simp at h
  | case2 t =>
    obtain rfl := Option.some.inj h
    exact ⟨rfl, fun r => rfl⟩
  | case5 t =>
    obtain rfl := Option.some.inj h
    exact ⟨rfl, fun r => rfl⟩
  | case3 c t ih =>
    obtain ⟨b', hb, rfl⟩ := Option.map_eq_some_iff.1 h
    obtain ⟨ht, hswap⟩ := ih hb
    refine ⟨congrArg _ (congrArg _ ht), fun r => ?_⟩
    change (quoted? (b'.text ++ (b'.closer.quotedMark ++ r))).map _ = _
    rw [hswap]
    rfl
  | case4 t ih =>
    obtain ⟨b', hb, rfl⟩ := Option.map_eq_some_iff.1 h
    obtain ⟨ht, hswap⟩ := ih hb
    refine ⟨congrArg _ (congrArg _ ht), fun r => ?_⟩
    change (quoted? (b'.text ++ (b'.closer.quotedMark ++ r))).map _ = _
    rw [hswap]
    rfl
  | case6 c t hquote hescape hdouble hopen ih =>
    obtain ⟨b', hb, rfl⟩ := Option.map_eq_some_iff.1 h
    obtain ⟨ht, hswap⟩ := ih hb
    refine ⟨congrArg _ ht, fun r => ?_⟩
    have hne : c ≠ '\\' := by
      rintro rfl
      cases t with
      | nil => simp [quoted?] at hb
      | cons d t => exact hescape d t rfl rfl
    have hhead := head?_append_append (w := b'.text) b'.closer.quotedMark_ne_nil r b'.rest
    change quoted? (c :: (b'.text ++ (b'.closer.quotedMark ++ r))) = _
    rw [quoted?_cons hquote hne, hswap]
    · rfl
    · intro hdollar
      rw [hhead, ← ht]
      constructor
      · intro hhead
        obtain ⟨t, rfl⟩ := List.head?_eq_some_iff.1 hhead
        exact hdouble t hdollar rfl
      · intro hhead
        obtain ⟨t, rfl⟩ := List.head?_eq_some_iff.1 hhead
        exact hopen t hdollar rfl

/-- Whether a character behind two quotes in an indented string keeps them from ending
the string. -/
def escapesQuotes (c? : Option Char) : Bool :=
  c? ∈ [some '\x27', some '$', some '\\']

theorem indented?_delimiter {t : Text} (h : escapesQuotes t.head? = false) :
    indented? ('\x27' :: '\x27' :: t) = some ⟨[], .delimiter, t⟩ := by
  refine indented?.eq_6 t ?_ ?_ ?_ ?_
  · rintro _ rfl
    exact Bool.noConfusion h
  · rintro _ rfl
    exact Bool.noConfusion h
  · rintro _ _ rfl
    exact Bool.noConfusion h
  · rintro rfl
    exact Bool.noConfusion h

theorem indented?_cons {c : Char} {t : Text} (hquote : c = '\x27' → t.head? ≠ some '\x27')
    (hdollar : c = '$' → t.head? ≠ some '$' ∧ t.head? ≠ some '{') :
    indented? (c :: t) = (indented? t).map (Body.after [c]) := by
  refine indented?.eq_9 c t ?_ ?_ ?_ ?_ ?_ ?_ ?_
  · rintro _ rfl rfl
    exact hquote rfl rfl
  · rintro _ rfl rfl
    exact hquote rfl rfl
  · rintro _ _ rfl rfl
    exact hquote rfl rfl
  · rintro rfl rfl
    exact hquote rfl rfl
  · rintro _ rfl rfl
    exact hquote rfl rfl
  · rintro _ rfl rfl
    exact (hdollar rfl).1 rfl
  · rintro _ rfl rfl
    exact (hdollar rfl).2 rfl

/-- A stretch of an indented string is the same in front of any other text that does not
make an escape of the quotes at its end. -/
theorem indented?_swap {t : Text} {b : Body} (h : indented? t = some b) :
    t = b.text ++ (b.closer.indentedMark ++ b.rest) ∧
      (b.closer = .delimiter → escapesQuotes b.rest.head? = false) ∧
      ∀ r, (b.closer = .delimiter → escapesQuotes r.head? = false) →
        indented? (b.text ++ (b.closer.indentedMark ++ r)) = some { b with rest := r } := by
  fun_induction indented? t generalizing b with
  | case1 => simp at h
  | case5 => simp at h
  | case6 t hquote hdollar hescape hlast =>
    obtain rfl := Option.some.inj h
    refine ⟨rfl, fun _ => ?_, fun r hr => indented?_delimiter (hr rfl)⟩
    unfold escapesQuotes
    rw [decide_eq_false_iff_not]
    simp only [List.mem_cons, List.not_mem_nil, or_false, not_or]
    refine ⟨?_, ?_, ?_⟩
    · intro hhead
      obtain ⟨t, rfl⟩ := List.head?_eq_some_iff.1 hhead
      exact hquote t rfl
    · intro hhead
      obtain ⟨t, rfl⟩ := List.head?_eq_some_iff.1 hhead
      exact hdollar t rfl
    · intro hhead
      obtain ⟨t, rfl⟩ := List.head?_eq_some_iff.1 hhead
      cases t with
      | nil => exact hlast rfl
      | cons c t => exact hescape c t rfl
  | case8 t =>
    obtain rfl := Option.some.inj h
    exact ⟨rfl, fun h => by simp at h, fun r _ => rfl⟩
  | case2 t ih | case3 t ih | case4 c t ih | case7 t ih =>
    obtain ⟨b', hb, rfl⟩ := Option.map_eq_some_iff.1 h
    obtain ⟨ht, hend, hswap⟩ := ih hb
    refine ⟨by rw [ht]; rfl, hend, fun r hr => ?_⟩
    change (indented? (b'.text ++ (b'.closer.indentedMark ++ r))).map _ = _
    rw [hswap r hr]
    rfl
  | case9 c t hthree hquoted hescape hlast htwo hdouble hopen ih =>
    obtain ⟨b', hb, rfl⟩ := Option.map_eq_some_iff.1 h
    obtain ⟨ht, hend, hswap⟩ := ih hb
    refine ⟨congrArg _ ht, hend, fun r hr => ?_⟩
    have hhead := head?_append_append (w := b'.text) b'.closer.indentedMark_ne_nil r b'.rest
    change indented? (c :: (b'.text ++ (b'.closer.indentedMark ++ r))) = _
    rw [indented?_cons, hswap r hr]
    · rfl
    · intro hquote
      rw [hhead, ← ht]
      intro hhead
      obtain ⟨t, rfl⟩ := List.head?_eq_some_iff.1 hhead
      exact htwo t hquote rfl
    · intro hdollar
      rw [hhead, ← ht]
      constructor
      · intro hhead
        obtain ⟨t, rfl⟩ := List.head?_eq_some_iff.1 hhead
        exact hdouble t hdollar rfl
      · intro hhead
        obtain ⟨t, rfl⟩ := List.head?_eq_some_iff.1 hhead
        exact hopen t hdollar rfl

theorem comment?_cons {c : Char} {t : Text} (h : c = '*' → t.head? ≠ some '/') :
    comment? (c :: t) = (comment? t).map fun (body, rest) => (c :: body, rest) := by
  refine comment?.eq_3 c t ?_
  rintro _ rfl rfl
  exact h rfl rfl

/-- A comment is the same in front of any other text. -/
theorem comment?_swap {t body rest : Text} (h : comment? t = some (body, rest)) :
    body ≠ [] ∧ ∀ r, comment? (body ++ r) = some (body, r) := by
  fun_induction comment? t generalizing body rest with
  | case1 => simp at h
  | case2 t =>
    obtain ⟨rfl, rfl⟩ := Prod.mk.inj (Option.some.inj h)
    exact ⟨by simp, fun r => rfl⟩
  | case3 c t hclose ih =>
    obtain ⟨⟨body', rest'⟩, hb, heq⟩ := Option.map_eq_some_iff.1 h
    obtain ⟨rfl, rfl⟩ := Prod.mk.inj heq
    obtain ⟨hne, hswap⟩ := ih hb
    refine ⟨by simp, fun r => ?_⟩
    rw [List.cons_append, comment?_cons, hswap]
    · rfl
    · intro hstar hhead
      rw [List.head?_append, List.head?_eq_some_head hne, Option.some_or,
        ← List.head?_eq_some_head hne] at hhead
      obtain ⟨body, rfl⟩ := List.head?_eq_some_iff.1 hhead
      exact hclose _ hstar (comment?_text hb)

/-! ## Escaped text -/

open Edit (escape escapeIndented)

/-- The end of a double-quoted string comes right behind escaped text, also if one more
dollar stands in front of it. -/
theorem quoted?_escape_aux (url r : Text) :
    quoted? (escape url ++ '"' :: r) = some ⟨escape url, .delimiter, r⟩ ∧
      (url.head? ≠ some '{' → quoted? ('$' :: (escape url ++ '"' :: r)) =
        some ⟨'$' :: escape url, .delimiter, r⟩) := by
  -- A dollar is read together with the next one, so each dollar of the url is looked at
  -- with and without one before it.
  fun_induction escape url with
  | case1 => exact ⟨rfl, fun _ => rfl⟩
  | case2 t ih | case3 t ih =>
    have hread := ih.1
    constructor
    · simp only [List.cons_append, quoted?, hread]
      rfl
    · intro _
      rw [quoted?_cons (by decide) (by decide) (fun _ => ⟨by simp, by simp⟩)]
      simp only [List.cons_append, quoted?.eq_3, hread]
      rfl
  | case4 t ih =>
    have hbrace :
        quoted? ('{' :: (escape t ++ '"' :: r)) = some ⟨'{' :: escape t, .delimiter, r⟩ := by
      rw [quoted?_cons (by decide) (by decide) (fun h => absurd h (by decide)), ih.1]
      rfl
    constructor
    · simp only [List.cons_append, quoted?.eq_3, hbrace]
      rfl
    · intro _
      rw [quoted?_cons (by decide) (by decide) (fun _ => ⟨by simp, by simp⟩)]
      simp only [List.cons_append, quoted?.eq_3, hbrace]
      rfl
  | case5 c t hescape hquote hopen ih =>
    have hfirst : quoted? (c :: escape t ++ '"' :: r) = some ⟨c :: escape t, .delimiter, r⟩ := by
      rw [List.cons_append]
      by_cases hdollar : c = '$'
      · subst hdollar
        refine ih.2 fun hhead => ?_
        obtain ⟨t, rfl⟩ := List.head?_eq_some_iff.1 hhead
        exact hopen t rfl rfl
      · rw [quoted?_cons hquote hescape (fun h => absurd h hdollar), ih.1]
        rfl
    refine ⟨hfirst, fun hbrace => ?_⟩
    by_cases hdollar : c = '$'
    · subst hdollar
      rw [List.cons_append, quoted?.eq_4, ih.1]
      rfl
    · have hhead : c ≠ '{' := fun h => hbrace (by rw [h]; rfl)
      rw [quoted?_cons (by decide) (by decide)
        (fun _ => ⟨by simpa using hdollar, by simpa using hhead⟩), hfirst]
      rfl

/-- A text between double quotes is read as it was written. -/
theorem quoted?_escape (url r : Text) :
    quoted? (escape url ++ '"' :: r) = some ⟨escape url, .delimiter, r⟩ :=
  (quoted?_escape_aux url r).1

/-- Whether every quote of a text stays apart from the quotes that are written behind it in an
indented string: quotes are escaped in pairs from the left, and one that is left over must not
stand at the end of the text or in front of an interpolation. -/
def quotesApart : Text → Bool
  | [] => true
  | '\x27' :: '\x27' :: t => quotesApart t
  | ['\x27'] => false
  | '\x27' :: '$' :: '{' :: _ => false
  | _ :: t => quotesApart t

theorem quotesApart_of_not_mem {t : Text} (h : '\x27' ∉ t) : quotesApart t = true := by
  fun_induction quotesApart t with
  | case1 => rfl
  | case2 | case3 | case4 => exact absurd List.mem_cons_self h
  | case5 c t _ _ _ ih => exact ih fun ht => h (List.mem_cons_of_mem _ ht)

theorem quotesApart_cons {c : Char} {t : Text} (hquote : c ≠ '\x27') :
    quotesApart (c :: t) = quotesApart t := by
  refine quotesApart.eq_5 c t ?_ ?_ ?_
  · rintro _ rfl
    exact absurd rfl hquote
  · rintro rfl
    exact absurd rfl hquote
  · rintro _ rfl
    exact absurd rfl hquote

theorem escapeIndented_cons {c : Char} {t : Text} (hpair : c = '\x27' → t.head? ≠ some '\x27')
    (hopen : c = '$' → t.head? ≠ some '{') :
    escapeIndented (c :: t) = c :: escapeIndented t := by
  rw [Edit.escapeIndented.eq_def]
  split
  · next heq => exact absurd heq (by simp)
  · next heq =>
    obtain ⟨rfl, rfl⟩ := List.cons.inj heq
    exact absurd rfl (hpair rfl)
  · next heq =>
    obtain ⟨rfl, rfl⟩ := List.cons.inj heq
    exact absurd rfl (hopen rfl)
  · next heq =>
    obtain ⟨rfl, rfl⟩ := List.cons.inj heq
    rfl

/-- A quote that is left over from the pairs stays apart if it has another character behind it
that is written as it is. -/
theorem quotesApart_single {t : Text} (hpair : t.head? ≠ some '\x27') :
    quotesApart ('\x27' :: t) = true ↔
      quotesApart t = true ∧ ∃ d u, d ≠ '\x27' ∧ escapeIndented t = d :: u := by
  cases t with
  | nil =>
    refine ⟨fun h => Bool.noConfusion h, fun ⟨_, d, u, _, h⟩ => ?_⟩
    exact absurd h (by simp [escapeIndented])
  | cons d t =>
    have hd : d ≠ '\x27' := fun hd => hpair (congrArg some hd)
    by_cases hopen : d = '$' ∧ t.head? = some '{'
    · obtain ⟨rfl, hhead⟩ := hopen
      obtain ⟨t, rfl⟩ := List.head?_eq_some_iff.1 hhead
      refine ⟨fun h => Bool.noConfusion h, fun ⟨_, c, u, hc, h⟩ => absurd ?_ hc⟩
      rw [escapeIndented] at h
      exact (List.cons.inj h).1.symm
    · have hplain : escapeIndented (d :: t) = d :: escapeIndented t :=
        escapeIndented_cons (fun hq => absurd hq hd) fun hdollar hhead => hopen ⟨hdollar, hhead⟩
      rw [quotesApart.eq_5]
      · exact ⟨fun h => ⟨h, d, escapeIndented t, hd, hplain⟩, fun h => h.1⟩
      · rintro _ - hcons
        exact hd (List.cons.inj hcons).1
      · rintro - hcons
        exact absurd hcons (by simp)
      · rintro _ - hcons
        obtain ⟨hdollar, rfl⟩ := List.cons.inj hcons
        exact hopen ⟨hdollar, rfl⟩

/-- Text in front of a body is in front of the text that is read. -/
theorem map_after_eq_some {before x r : Text} {closer : Closer} {b? : Option Body} :
    b?.map (Body.after before) = some ⟨before ++ x, closer, r⟩ ↔ b? = some ⟨x, closer, r⟩ := by
  cases b? with
  | none => simp
  | some b =>
    cases b
    simp [Body.after]

/-- A quote that is left over from the pairs is read together with the two quotes behind it if
it does not stay apart. -/
theorem indented?_escape_single {t r : Text} (hpair : t.head? ≠ some '\x27')
    (ht : indented? (escapeIndented t ++ '\x27' :: '\x27' :: r) =
      some ⟨escapeIndented t, .delimiter, r⟩ ↔ quotesApart t = true) :
    indented? ('\x27' :: escapeIndented t ++ '\x27' :: '\x27' :: r) =
      some ⟨'\x27' :: escapeIndented t, .delimiter, r⟩ ↔ quotesApart ('\x27' :: t) = true := by
  rw [quotesApart_single hpair, List.cons_append]
  by_cases hplain : ∃ d u, d ≠ '\x27' ∧ escapeIndented t = d :: u
  · rw [and_iff_left hplain, ← ht]
    obtain ⟨d, u, hd, heq⟩ := hplain
    rw [indented?_cons (fun _ => by simpa [heq] using hd) (fun h => absurd h (by decide))]
    exact @map_after_eq_some ['\x27'] _ r .delimiter _
  · refine iff_of_false ?_ fun h => hplain h.2
    fun_cases escapeIndented t with
    | case1 =>
      rw [List.nil_append, indented?.eq_2]
      simp [Body.after]
    | case2 t => exact absurd rfl hpair
    | case3 t =>
      simp only [List.cons_append, indented?.eq_2, indented?.eq_8]
      simp [Body.after]
    | case4 c t htwo hopen =>
      have hc : c ≠ '\x27' := fun hc => hpair (congrArg some hc)
      exact absurd ⟨c, escapeIndented t, hc, Edit.escapeIndented.eq_4 c t htwo hopen⟩ hplain

/-- The end of an indented string comes right behind escaped text exactly if the quotes of the
text stay apart, also if one more dollar stands in front of it. -/
theorem indented?_escape_aux (url r : Text) (hr : escapesQuotes r.head? = false) :
    (indented? (escapeIndented url ++ '\x27' :: '\x27' :: r) =
        some ⟨escapeIndented url, .delimiter, r⟩ ↔ quotesApart url = true) ∧
      (url.head? ≠ some '{' →
        (indented? ('$' :: (escapeIndented url ++ '\x27' :: '\x27' :: r)) =
          some ⟨'$' :: escapeIndented url, .delimiter, r⟩ ↔ quotesApart url = true)) := by
  -- What a dollar in front of something else than a dollar or a brace adds to the text.
  have hdollar {t x : Text} {c : Char} (hc : c ≠ '$' ∧ c ≠ '{') :
      indented? ('$' :: c :: t) = some ⟨'$' :: x, .delimiter, r⟩ ↔
        indented? (c :: t) = some ⟨x, .delimiter, r⟩ := by
    rw [indented?_cons (fun h => absurd h (by decide)) (fun _ => by simpa using hc)]
    exact @map_after_eq_some ['$'] x r .delimiter _
  fun_induction escapeIndented url with
  | case1 =>
    have hend := indented?_delimiter hr
    exact ⟨iff_of_true hend rfl, fun _ => (hdollar (by decide)).trans (iff_of_true hend rfl)⟩
  | case2 t ih =>
    have hfirst : indented? ('\x27' :: '\x27' :: '\x27' ::
        (escapeIndented t ++ '\x27' :: '\x27' :: r)) =
          some ⟨'\x27' :: '\x27' :: '\x27' :: escapeIndented t, .delimiter, r⟩ ↔
            quotesApart t = true := by
      rw [indented?.eq_2]
      exact (@map_after_eq_some ['\x27', '\x27', '\x27'] _ r .delimiter _).trans ih.1
    exact ⟨hfirst, fun _ => (hdollar (by decide)).trans hfirst⟩
  | case3 t ih =>
    have hbrace : indented? ('{' :: (escapeIndented t ++ '\x27' :: '\x27' :: r)) =
        some ⟨'{' :: escapeIndented t, .delimiter, r⟩ ↔ quotesApart t = true := by
      rw [indented?_cons (fun h => absurd h (by decide)) (fun h => absurd h (by decide))]
      exact (@map_after_eq_some ['{'] _ r .delimiter _).trans ih.1
    have hfirst : indented? ('\x27' :: '\x27' :: '$' :: '{' ::
        (escapeIndented t ++ '\x27' :: '\x27' :: r)) =
          some ⟨'\x27' :: '\x27' :: '$' :: '{' :: escapeIndented t, .delimiter, r⟩ ↔
            quotesApart t = true := by
      rw [indented?.eq_3]
      exact (@map_after_eq_some ['\x27', '\x27', '$'] _ r .delimiter _).trans hbrace
    have hapart : quotesApart ('$' :: '{' :: t) = quotesApart t := by
      rw [quotesApart_cons (by decide), quotesApart_cons (by decide)]
    rw [hapart]
    exact ⟨hfirst, fun _ => (hdollar (by decide)).trans hfirst⟩
  | case4 c t htwo hopen ih =>
    have hpair : c = '\x27' → t.head? ≠ some '\x27' := by
      intro hc hhead
      obtain ⟨t, rfl⟩ := List.head?_eq_some_iff.1 hhead
      exact htwo t hc rfl
    have hfirst : indented? (c :: escapeIndented t ++ '\x27' :: '\x27' :: r) =
        some ⟨c :: escapeIndented t, .delimiter, r⟩ ↔ quotesApart (c :: t) = true := by
      by_cases hquote : c = '\x27'
      · subst hquote
        exact indented?_escape_single (hpair rfl) ih.1
      · rw [List.cons_append, quotesApart_cons hquote]
        by_cases hc : c = '$'
        · subst hc
          refine ih.2 fun hhead => ?_
          obtain ⟨t, rfl⟩ := List.head?_eq_some_iff.1 hhead
          exact hopen t rfl rfl
        · rw [indented?_cons (fun h => absurd h hquote) (fun h => absurd h hc)]
          exact (@map_after_eq_some [c] _ r .delimiter _).trans ih.1
    refine ⟨hfirst, fun hbrace => ?_⟩
    by_cases hc : c = '$'
    · subst hc
      rw [List.cons_append, indented?.eq_7, quotesApart_cons (by decide), ← ih.1]
      exact @map_after_eq_some ['$', '$'] _ r .delimiter _
    · have hhead : c ≠ '{' := fun h => hbrace (by rw [h]; rfl)
      exact (hdollar ⟨hc, hhead⟩).trans hfirst

/-- A text between the quotes of an indented string is read as it was written exactly if its
quotes stay apart. -/
theorem indented?_escape {url r : Text} (hr : escapesQuotes r.head? = false) :
    indented? (escapeIndented url ++ '\x27' :: '\x27' :: r) =
      some ⟨escapeIndented url, .delimiter, r⟩ ↔ quotesApart url = true :=
  (indented?_escape_aux url r hr).1

end Literal
end FlakeInputs
