import FlakeInputs.Proofs.Token.Bodies
import FlakeInputs.Proofs.Token.Words
import FlakeInputs.Token.Scan

/-!
# Seams

A step of the scanner may look at characters that it does not take.  When the text
behind a seam is exchanged, a step in front of the seam stays the same if nothing that
begins where the step begins can go on over the seam.
-/

namespace FlakeInputs
namespace Scan

/-- A step through a text. -/
def Steps (modes : List Mode) (t : Text) (s : Step) : Prop :=
  ∃ c r, t = c :: r ∧ step modes c r = .ok s

@[simp]
theorem Piece.text_gap (t : Text) : (Piece.gap t).text = t := rfl

@[simp]
theorem Piece.text_token (kind : TokenKind) (t : Text) : (Piece.token kind t).text = t := rfl

/-- The fixed spellings that a step compares with. -/
def symbols : List Text :=
  punctuation.map (·.1.toList) ++ [['/', '*'], ['\x27', '\x27'], ['$', '{']]

/-- Neither a word nor a symbol that begins with `v` goes on into `r`. -/
structure Sealed (v r : Text) : Prop where
  word : ∀ entry ∈ Word.classes, (entry.2 (v ++ r)).length ≤ v.length
  symbol : ∀ symbol ∈ symbols, symbol <+: v ++ r → symbol.length ≤ v.length

/-! ## What a step takes -/

theorem delimiter?_text {modes : List Mode} {t : Text} {s : Step}
    (h : delimiter? modes t = some s) : t = s.text ++ s.rest := by
  unfold delimiter? at h
  split at h
  case h_6 => simp at h
  all_goals
    obtain rfl := Option.some.inj h
    rfl

theorem punctuation?_within {t lexeme : Text} {kind : TokenKind}
    (h : punctuation? t = some (kind, lexeme)) : lexeme <+: t := by
  obtain ⟨⟨symbol, k⟩, -, heq⟩ := List.exists_of_findSome?_eq_some h
  dsimp only at heq
  split at heq
  · next hle =>
    obtain ⟨-, rfl⟩ := Prod.mk.inj (Option.some.inj heq)
    exact List.isPrefixOf_iff_prefix.1 hle
  · simp at heq

theorem word_within {c : Char} {t lexeme : Text} {kind : TokenKind}
    (h : word c t = .ok (kind, lexeme)) : lexeme <+: c :: t := by
  unfold word at h
  split at h
  · next k l hl =>
    split at h
    · simp at h
    · obtain ⟨-, rfl⟩ := Prod.mk.inj (Except.ok.inj h)
      exact Word.longest?_within hl
  · split at h
    · next found hp =>
      obtain rfl := Except.ok.inj h
      exact punctuation?_within hp
    · simp at h

theorem tokenStep_text {modes : List Mode} {c : Char} {t : Text} {s : Step}
    (h : tokenStep modes c t = .ok s) : c :: t = s.text ++ s.rest := by
  unfold tokenStep at h
  split at h
  · next st hd =>
    obtain rfl := Except.ok.inj h
    exact delimiter?_text hd
  · split at h
    · simp at h
    · next kind lexeme hw =>
      obtain rfl := Except.ok.inj h
      obtain ⟨r, hr⟩ := word_within hw
      simp only [Step.text, List.flatMap_cons, List.flatMap_nil, Piece.text_token, List.append_nil]
      rw [← hr, List.drop_left]

theorem bareStep_text {modes : List Mode} {c : Char} {t : Text} {s : Step}
    (h : bareStep modes c t = .ok s) : c :: t = s.text ++ s.rest := by
  unfold bareStep at h
  split at h
  · obtain rfl := Except.ok.inj h
    rfl
  · split at h
    · obtain rfl := Except.ok.inj h
      simp [Step.text, List.takeWhile_append_dropWhile]
    · split at h
      · split at h
        · next body rest hc =>
          obtain rfl := Except.ok.inj h
          simp [Step.text, Literal.comment?_text hc]
        · simp at h
      · exact tokenStep_text h

theorem stringStep_text {closing : Piece} {mode : Mode} {outer : List Mode}
    {body : Option Literal.Body} {t : Text} {s : Step} (mark : Literal.Closer → Text)
    (hclosing : closing.text = mark .delimiter) (hopening : mark .interpolation = ['$', '{'])
    (hbody : ∀ b, body = some b → t = b.text ++ (mark b.closer ++ b.rest))
    (h : stringStep closing mode outer body t = .ok s) : t = s.text ++ s.rest := by
  unfold stringStep at h
  split at h
  · simp at h
  · obtain rfl := Except.ok.inj h
    rw [hbody _ rfl]
    simp [Step.text, hclosing]
  · obtain rfl := Except.ok.inj h
    rw [hbody _ rfl]
    simp [Step.text, hopening]

/-- A step takes its pieces off the text. -/
theorem Steps.text {modes : List Mode} {t : Text} {s : Step} (h : Steps modes t s) :
    t = s.text ++ s.rest := by
  obtain ⟨c, r, rfl, h⟩ := h
  unfold step at h
  split at h
  · exact stringStep_text Literal.Closer.quotedMark rfl rfl
      (fun b hb => (Literal.quoted?_swap hb).1) h
  · exact stringStep_text Literal.Closer.indentedMark rfl rfl
      (fun b hb => (Literal.indented?_swap hb).1) h
  · exact bareStep_text h

theorem Steps.text_ne_nil {modes : List Mode} {t : Text} {s : Step} (h : Steps modes t s) :
    s.text ≠ [] := by
  intro hnil
  have htext := h.text
  obtain ⟨c, r, rfl, hstep⟩ := h
  have hlt := length_step_rest hstep
  rw [htext, hnil, List.nil_append] at hlt
  exact Nat.lt_irrefl _ hlt

/-! ## Exchanging what follows -/

theorem findSome?_swap {α β : Type} {f f' : α → Option β} {l : List α} {x : β}
    (h : l.findSome? f = some x)
    (hf : ∀ a ∈ l, f' a = f a ∨ f' a = none ∧ f a ≠ some x) : l.findSome? f' = some x := by
  induction l with
  | nil => simp at h
  | cons a l ih =>
    rw [List.findSome?_cons] at h ⊢
    cases hfa : f a with
    | none =>
      have hnone : f' a = none := by
        rcases hf a List.mem_cons_self with heq | ⟨heq, -⟩
        · rw [heq, hfa]
        · exact heq
      rw [hfa] at h
      rw [hnone]
      exact ih h fun b hb => hf b (List.mem_cons_of_mem _ hb)
    | some y =>
      rw [hfa] at h
      rcases hf a List.mem_cons_self with heq | ⟨-, hne⟩
      · rw [heq, hfa]
        exact h
      · exact absurd (hfa.trans h) hne

theorem le_of_le_append {w v r : Text} (h : w <+: v ++ r) (hle : w.length ≤ v.length) (r' : Text) :
    w <+: v ++ r' :=
  (List.prefix_of_prefix_length_le h (List.prefix_append v r) hle).trans
    (List.prefix_append v r')

theorem punctuation?_swap {v r r' : Text} {found : TokenKind × Text}
    (h : punctuation? (v ++ r) = some found) (hle : found.2.length ≤ v.length)
    (hseal : Sealed v r') : punctuation? (v ++ r') = some found := by
  refine findSome?_swap h ?_
  rintro ⟨symbol, kind⟩ hmem
  have hsymbol : symbol.toList ∈ symbols :=
    List.mem_append.2 (.inl (List.mem_map.2 ⟨_, hmem, rfl⟩))
  dsimp only
  by_cases hlength : symbol.toList.length ≤ v.length
  · left
    have hiff : symbol.toList.isPrefixOf (v ++ r') = symbol.toList.isPrefixOf (v ++ r) := by
      rw [Bool.eq_iff_iff, List.isPrefixOf_iff_prefix, List.isPrefixOf_iff_prefix]
      exact ⟨fun h => le_of_le_append h hlength r, fun h => le_of_le_append h hlength r'⟩
    rw [hiff]
  · right
    constructor
    · rw [if_neg]
      intro hle'
      exact hlength (hseal.symbol _ hsymbol (List.isPrefixOf_iff_prefix.1 hle'))
    · split
      · intro heq
        rw [← Option.some.inj heq] at hle
        exact hlength hle
      · simp

/-- No class of words takes more than the word that is read. -/
theorem record_le_of_word {c : Char} {t lexeme : Text} {kind : TokenKind}
    (h : word c t = .ok (kind, lexeme)) :
    Word.record (Word.longest? (c :: t)) ≤ lexeme.length := by
  unfold word at h
  cases hlongest : Word.longest? (c :: t) with
  | none => exact Nat.zero_le _
  | some found =>
    rw [hlongest] at h
    dsimp only at h
    split at h
    · simp at h
    · obtain ⟨-, rfl⟩ := Prod.mk.inj (Except.ok.inj h)
      exact Nat.le_refl _

theorem word_swap {c : Char} {v r r' lexeme : Text} {kind : TokenKind}
    (h : word c (v ++ r) = .ok (kind, lexeme)) (hle : lexeme.length ≤ (c :: v).length)
    (hseal : Sealed (c :: v) r') : word c (v ++ r') = .ok (kind, lexeme) := by
  have hlongest : Word.longest? (c :: v ++ r') = Word.longest? (c :: v ++ r) :=
    Word.longest?_eq_of_le (Nat.le_trans (record_le_of_word h) hle) hseal.word
  unfold word at h ⊢
  rw [← List.cons_append] at h ⊢
  rw [hlongest]
  cases hfound : Word.longest? (c :: v ++ r) with
  | some found =>
    rw [hfound] at h
    exact h
  | none =>
    rw [hfound] at h
    dsimp only at h ⊢
    cases hsymbol : punctuation? (c :: v ++ r) with
    | none =>
      rw [hsymbol] at h
      simp at h
    | some found =>
      rw [hsymbol] at h
      obtain rfl := Except.ok.inj h
      rw [punctuation?_swap hsymbol hle hseal]

theorem cons_of_two_le {c d : Char} {v r : Text} (h : [c, d] <+: c :: v ++ r)
    (hle : 2 ≤ (c :: v).length) : ∃ w, v = d :: w := by
  cases v with
  | nil => simp at hle
  | cons e w =>
    simp only [List.cons_append, List.cons_prefix_cons, true_and] at h
    exact ⟨w, by rw [h.1]⟩

theorem delimiter?_swap {modes : List Mode} {c : Char} {v y r r' : Text} {s : Step}
    (h : delimiter? modes (c :: (v ++ r)) = some s) (hrest : s.rest = y ++ r) :
    delimiter? modes (c :: (v ++ r')) = some { s with rest := y ++ r' } := by
  have htext : c :: v = s.text ++ y := by
    have htext := delimiter?_text h
    rw [hrest, ← List.cons_append, ← List.append_assoc] at htext
    exact List.append_cancel_right htext
  rw [← List.cons_append, htext]
  clear htext
  unfold delimiter? at h
  split at h
  case h_6 => simp at h
  all_goals
    obtain rfl := Option.some.inj h
    rfl

/-- What is no delimiter does not become one if nothing goes on over the seam. -/
theorem delimiter?_eq_none_swap {modes : List Mode} {c : Char} {v r r' : Text}
    (h : delimiter? modes (c :: (v ++ r)) = none) (hseal : Sealed (c :: v) r') :
    delimiter? modes (c :: (v ++ r')) = none := by
  have two : ∀ d e, [d, e] ∈ symbols → c = d → (v ++ r').head? = some e → ∃ w, v = e :: w := by
    rintro d e hmem rfl hhead
    obtain ⟨t, ht⟩ := List.head?_eq_some_iff.1 hhead
    have hle : [c, e] <+: c :: v ++ r' := ⟨t, by simp [ht]⟩
    exact cons_of_two_le hle (hseal.symbol _ hmem hle)
  cases hnew : delimiter? modes (c :: (v ++ r')) with
  | none => rfl
  | some s =>
    generalize ht : v ++ r' = t at hnew two
    unfold delimiter? at hnew
    split at hnew
    · next heq =>
      obtain ⟨rfl, -⟩ := List.cons.inj heq
      simp [delimiter?] at h
    · next heq =>
      obtain ⟨rfl, rfl⟩ := List.cons.inj heq
      obtain ⟨w, rfl⟩ := two _ _ (by decide) rfl rfl
      simp [delimiter?] at h
    · next heq =>
      obtain ⟨rfl, rfl⟩ := List.cons.inj heq
      obtain ⟨w, rfl⟩ := two _ _ (by decide) rfl rfl
      simp [delimiter?] at h
    · next heq =>
      obtain ⟨rfl, -⟩ := List.cons.inj heq
      simp [delimiter?] at h
    · next heq =>
      obtain ⟨rfl, -⟩ := List.cons.inj heq
      simp [delimiter?] at h
    · simp at hnew

/-- A step through a word takes the word. -/
theorem word_of_tokenStep {modes : List Mode} {c : Char} {v y r : Text} {s : Step}
    (h : tokenStep modes c (v ++ r) = .ok s) (hrest : s.rest = y ++ r)
    (hdelimiter : delimiter? modes (c :: (v ++ r)) = none) :
    ∃ kind lexeme, word c (v ++ r) = .ok (kind, lexeme) ∧ c :: v = lexeme ++ y ∧
      s = ⟨[.token kind lexeme], modes, y ++ r⟩ := by
  have htext := tokenStep_text h
  rw [hrest, ← List.cons_append, ← List.append_assoc] at htext
  replace htext := List.append_cancel_right htext
  simp only [tokenStep, hdelimiter] at h
  cases hword : word c (v ++ r) with
  | error problem => simp [hword] at h
  | ok found =>
    obtain ⟨kind, lexeme⟩ := found
    simp only [hword, Except.ok.injEq] at h
    subst h
    refine ⟨kind, lexeme, rfl, by simpa [Step.text] using htext, ?_⟩
    rw [← hrest]

/-- A step through `v` in front of `r` that takes a word or a symbol: no word goes on over
the seam, and the step takes a url if that is the longest word. -/
structure Step.TakesWord (s : Step) (v r : Text) : Prop where
  token : ∃ kind lexeme, s.pieces = [.token kind lexeme]
  word : ∃ c t found, v = c :: t ∧ Scan.word c (t ++ r) = .ok found
  record_le : Word.record (Word.longest? (v ++ r)) ≤ v.length
  pieces_eq : Word.longest? (v ++ r) = some (.uri, v) → s.pieces = [.token .uri v]

theorem takesWord_of_word {modes : List Mode} {c : Char} {v y r lexeme : Text}
    {kind : TokenKind} (hword : word c (v ++ r) = .ok (kind, lexeme))
    (htext : c :: v = lexeme ++ y) :
    (⟨[.token kind lexeme], modes, y ++ r⟩ : Step).TakesWord (c :: v) r := by
  refine ⟨⟨kind, lexeme, rfl⟩, ⟨c, v, _, rfl, hword⟩, ?_, fun huri => ?_⟩
  · refine Nat.le_trans (record_le_of_word hword) ?_
    rw [htext, List.length_append]
    exact Nat.le_add_right _ _
  · simp only [word, ← List.cons_append] at hword huri
    rw [huri] at hword
    simp only [wordKind, reduceCtorEq, false_and, if_false, Except.ok.injEq, Prod.mk.injEq] at hword
    rw [← hword.1, ← hword.2]

theorem tokenStep_swap {modes : List Mode} {c : Char} {v y r r' : Text} {s : Step}
    (h : tokenStep modes c (v ++ r) = .ok s) (hrest : s.rest = y ++ r)
    (hseal : s.TakesWord (c :: v) r → Sealed (c :: v) r') :
    tokenStep modes c (v ++ r') = .ok { s with rest := y ++ r' } := by
  cases hdelimiter : delimiter? modes (c :: (v ++ r)) with
  | some st =>
    simp only [tokenStep, hdelimiter, Except.ok.injEq] at h
    subst h
    rw [tokenStep, delimiter?_swap hdelimiter hrest]
  | none =>
    obtain ⟨kind, lexeme, hword, htext, rfl⟩ := word_of_tokenStep h hrest hdelimiter
    have hle : lexeme.length ≤ (c :: v).length := by
      rw [htext, List.length_append]
      exact Nat.le_add_right _ _
    have hsealed := hseal (takesWord_of_word hword htext)
    have hnone := delimiter?_eq_none_swap hdelimiter hsealed
    simp only [tokenStep, hnone, word_swap hword hle hsealed]
    rw [← List.cons_append, htext, List.append_assoc, List.drop_left]

/-- What has to follow a piece at its end: a line comment ends with its line, and the
quotes that end an indented string are not part of an escape. -/
def Piece.EndsBefore : Piece → Text → Prop
  | .gap ('#' :: _), r => r = [] ∨ r.head? = some '\n'
  | .token .indentQuote _, r => Literal.escapesQuotes r.head? = false
  | _, _ => True

/-- The last piece of a step ends before `r`, if the step ends there. -/
def Step.EndsBefore (s : Step) (y r : Text) : Prop :=
  y = [] → ∀ p ∈ s.pieces.getLast?, p.EndsBefore r

theorem dropWhile_eq_of_takeWhile {p : Char → Bool} {w y : Text} (hw : ∀ c ∈ w, p c = true)
    (hy : ∀ c ∈ y.head?, p c = false) :
    (w ++ y).takeWhile p = w ∧ (w ++ y).dropWhile p = y := by
  rw [List.takeWhile_append_of_pos hw, List.dropWhile_append_of_pos hw]
  cases y with
  | nil => simp
  | cons c y => simp [hy c rfl]

theorem lineComment_swap {modes : List Mode} {v y r r' : Text}
    (hrest : (v ++ r).dropWhile (· != '\n') = y ++ r)
    (hend : y = [] → r' = [] ∨ r'.head? = some '\n') :
    bareStep modes '#' (v ++ r') =
      .ok ⟨[.gap ('#' :: (v ++ r).takeWhile (· != '\n'))], modes, y ++ r'⟩ := by
  have hv : v ++ r = (v ++ r).takeWhile (· != '\n') ++ y ++ r := by
    rw [List.append_assoc, ← hrest, List.takeWhile_append_dropWhile]
  replace hv := List.append_cancel_right hv
  have hlines : ∀ d ∈ (v ++ r).takeWhile (· != '\n'), (d != '\n') = true :=
    fun d hd => List.mem_takeWhile_imp (p := (· != '\n')) hd
  have hnext : ∀ d ∈ (y ++ r').head?, (d != '\n') = false := by
    cases y with
    | nil =>
      rcases hend rfl with hnil | hnewline
      · simp [hnil]
      · simp [hnewline]
    | cons d y =>
      have hnot := List.head?_dropWhile_not (· != '\n') (v ++ r)
      rw [hrest] at hnot
      simpa using hnot
  obtain ⟨htake, hdrop⟩ := dropWhile_eq_of_takeWhile hlines hnext
  have htext : (v ++ r).takeWhile (· != '\n') ++ (y ++ r') = v ++ r' := by
    rw [← List.append_assoc, ← hv]
  rw [htext] at htake hdrop
  unfold bareStep
  rw [if_neg (by decide), if_pos rfl, htake, hdrop]

theorem blockComment_swap {modes : List Mode} {v y r r' body rest : Text}
    (h : Literal.comment? (v ++ r) = some (body, rest)) (hrest : rest = y ++ r) :
    bareStep modes '/' ('*' :: (v ++ r')) =
      .ok ⟨[.gap ('/' :: '*' :: body)], modes, y ++ r'⟩ := by
  have hv : v = body ++ y := by
    have htext := Literal.comment?_text h
    rw [hrest, ← List.append_assoc] at htext
    exact List.append_cancel_right htext
  unfold bareStep
  rw [if_neg (by decide), if_neg (by decide), hv, List.append_assoc]
  simp only [(Literal.comment?_swap h).2]

theorem bareStep_of_token {modes : List Mode} {c : Char} {t : Text} (hgap : isGap c = false)
    (hhash : c ≠ '#') (hcomment : ¬(['/', '*'] <+: c :: t)) :
    bareStep modes c t = tokenStep modes c t := by
  unfold bareStep
  rw [if_neg (by simp [hgap]), if_neg hhash]
  split
  · exact absurd ⟨_, rfl⟩ hcomment
  · rfl

theorem bareStep_swap {modes : List Mode} {c : Char} {v y r r' : Text} {s : Step}
    (h : bareStep modes c (v ++ r) = .ok s) (hrest : s.rest = y ++ r)
    (hend : s.EndsBefore y r')
    (hseal : s.TakesWord (c :: v) r → Sealed (c :: v) r') :
    bareStep modes c (v ++ r') = .ok { s with rest := y ++ r' } := by
  by_cases hgap : isGap c = true
  · unfold bareStep at h ⊢
    rw [if_pos hgap] at h ⊢
    obtain rfl := Except.ok.inj h
    rw [List.append_cancel_right hrest]
  by_cases hhash : c = '#'
  · subst hhash
    unfold bareStep at h
    rw [if_neg hgap, if_pos rfl] at h
    obtain rfl := Except.ok.inj h
    exact lineComment_swap hrest fun hy => hend hy _ rfl
  rw [Bool.not_eq_true] at hgap
  by_cases hcomment : ['/', '*'] <+: c :: (v ++ r)
  · obtain ⟨t, ht⟩ := hcomment
    obtain ⟨rfl, hv⟩ := List.cons.inj ht
    replace hv : v ++ r = '*' :: t := hv.symm
    have htext := bareStep_text h
    unfold bareStep at h
    rw [hv, if_neg (by decide), if_neg (by decide)] at h
    cases hbody : Literal.comment? t with
    | none => simp [hbody] at h
    | some found =>
      simp only [hbody, Except.ok.injEq] at h
      subst h
      simp only at hrest
      rw [hrest, ← List.cons_append, ← List.append_assoc] at htext
      replace htext := List.append_cancel_right htext
      obtain ⟨w, rfl⟩ : ∃ w, v = '*' :: w := by
        simp only [Step.text, List.flatMap_cons, Piece.text_gap, List.cons_append,
          List.cons.injEq] at htext
        exact ⟨_, htext.2⟩
      obtain ⟨-, rfl⟩ := List.cons.inj hv
      exact blockComment_swap hbody hrest
  · have htoken := h
    rw [bareStep_of_token hgap hhash hcomment] at htoken
    rw [bareStep_of_token hgap hhash, tokenStep_swap htoken hrest hseal]
    rintro ⟨t, ht⟩
    obtain ⟨rfl, ht⟩ := List.cons.inj ht
    obtain ⟨kind, lexeme, hword, htext, rfl⟩ :=
      word_of_tokenStep htoken hrest (by simp [delimiter?])
    have hsealed := hseal (takesWord_of_word hword htext)
    have hnew : ['/', '*'] <+: '/' :: v ++ r' := ⟨t, by simpa using ht⟩
    obtain ⟨w, rfl⟩ := cons_of_two_le hnew (hsealed.symbol _ (by decide) hnew)
    exact hcomment ⟨w ++ r, rfl⟩

theorem quotedStep_swap {outer : List Mode} {c : Char} {v y r r' : Text} {s : Step}
    (h : step (.quoted :: outer) c (v ++ r) = .ok s) (hrest : s.rest = y ++ r) :
    step (.quoted :: outer) c (v ++ r') = .ok { s with rest := y ++ r' } := by
  simp only [step] at h ⊢
  cases hbody : Literal.quoted? (c :: (v ++ r)) with
  | none => simp [hbody, stringStep] at h
  | some b =>
    obtain ⟨text, closer, rest⟩ := b
    obtain ⟨htext, hswap⟩ := Literal.quoted?_swap hbody
    obtain rfl : rest = y ++ r := by
      rw [hbody] at h
      cases closer
      all_goals
        obtain rfl := Except.ok.inj h
        exact hrest
    dsimp only at htext hswap
    rw [← List.cons_append, ← List.append_assoc, ← List.append_assoc] at htext
    replace htext := List.append_cancel_right htext
    rw [← List.cons_append, htext, List.append_assoc, List.append_assoc, hswap]
    rw [hbody] at h
    cases closer
    all_goals
      obtain rfl := Except.ok.inj h
      rfl

theorem indentedStep_swap {outer : List Mode} {c : Char} {v y r r' : Text} {s : Step}
    (h : step (.indented :: outer) c (v ++ r) = .ok s) (hrest : s.rest = y ++ r)
    (hend : s.EndsBefore y r') :
    step (.indented :: outer) c (v ++ r') = .ok { s with rest := y ++ r' } := by
  simp only [step] at h ⊢
  cases hbody : Literal.indented? (c :: (v ++ r)) with
  | none => simp [hbody, stringStep] at h
  | some b =>
    obtain ⟨text, closer, rest⟩ := b
    obtain ⟨htext, hold, hswap⟩ := Literal.indented?_swap hbody
    obtain rfl : rest = y ++ r := by
      rw [hbody] at h
      cases closer
      all_goals
        obtain rfl := Except.ok.inj h
        exact hrest
    have hnew : closer = .delimiter → Literal.escapesQuotes (y ++ r').head? = false := by
      rintro rfl
      cases y with
      | cons d y => exact hold rfl
      | nil =>
        rw [hbody] at h
        obtain rfl := Except.ok.inj h
        exact hend rfl _ rfl
    dsimp only at htext hswap
    rw [← List.cons_append, ← List.append_assoc, ← List.append_assoc] at htext
    replace htext := List.append_cancel_right htext
    rw [← List.cons_append, htext, List.append_assoc, List.append_assoc, hswap _ hnew]
    rw [hbody] at h
    cases closer
    all_goals
      obtain rfl := Except.ok.inj h
      rfl

/-- A step is the same in front of any other text, if its last piece can end there and
nothing goes on over the seam. -/
theorem Steps.swap {modes : List Mode} {v y r r' : Text} {s : Step} (h : Steps modes (v ++ r) s)
    (hrest : s.rest = y ++ r) (hend : s.EndsBefore y r')
    (hseal : s.TakesWord v r → Sealed v r') :
    Steps modes (v ++ r') { s with rest := y ++ r' } := by
  have hne := h.text_ne_nil
  have htext := h.text
  rw [hrest, ← List.append_assoc] at htext
  replace htext := List.append_cancel_right htext
  obtain ⟨c, t, ht, hstep⟩ := h
  obtain ⟨d, w, hw⟩ := List.exists_cons_of_ne_nil (List.append_ne_nil_of_left_ne_nil hne y)
  rw [hw] at htext
  subst htext
  obtain ⟨rfl, rfl⟩ := List.cons.inj ht
  refine ⟨d, w ++ r', rfl, ?_⟩
  unfold step at hstep ⊢
  split at hstep
  · exact quotedStep_swap hstep hrest
  · exact indentedStep_swap hstep hrest hend
  · exact bareStep_swap hstep hrest hend hseal

end Scan
end FlakeInputs
