import FlakeInputs.Text.Basic

/-!
# Bodies of string literals and comments

The text of a string literal runs up to the closing delimiter or to the next
interpolation, whichever comes first.  Escapes are passed over, not decoded.
-/

namespace FlakeInputs
namespace Literal

/-- What ends a stretch of string text. -/
inductive Closer
  | delimiter
  | interpolation
deriving DecidableEq, Repr

/-- A stretch of string text, what ends it, and what follows the end. -/
structure Body where
  text : Text
  closer : Closer
  rest : Text
deriving DecidableEq, Repr

/-- A body with more text in front. -/
def Body.after (before : Text) (b : Body) : Body :=
  { b with text := before ++ b.text }

/-- The text up to the end of a double-quoted string or its next interpolation,
or `none` if neither comes.  A backslash takes the next character along, and a
doubled dollar opens no interpolation. -/
def quoted? : Text → Option Body
  | [] => none
  | '"' :: t => some ⟨[], .delimiter, t⟩
  | '\\' :: c :: t => (quoted? t).map (Body.after ['\\', c])
  | '$' :: '$' :: t => (quoted? t).map (Body.after ['$', '$'])
  | '$' :: '{' :: t => some ⟨[], .interpolation, t⟩
  | c :: t => (quoted? t).map (Body.after [c])

/-- The text up to the end of an indented string or its next interpolation, or
`none` if neither comes.  Two quotes end the string unless a third quote, a
dollar or a backslash follows; behind a backslash the next character is taken
along too. -/
def indented? : Text → Option Body
  | [] => none
  | '\x27' :: '\x27' :: '\x27' :: t =>
    (indented? t).map (Body.after ['\x27', '\x27', '\x27'])
  | '\x27' :: '\x27' :: '$' :: t =>
    (indented? t).map (Body.after ['\x27', '\x27', '$'])
  | '\x27' :: '\x27' :: '\\' :: c :: t =>
    (indented? t).map (Body.after ['\x27', '\x27', '\\', c])
  | ['\x27', '\x27', '\\'] => none
  | '\x27' :: '\x27' :: t => some ⟨[], .delimiter, t⟩
  | '$' :: '$' :: t => (indented? t).map (Body.after ['$', '$'])
  | '$' :: '{' :: t => some ⟨[], .interpolation, t⟩
  | c :: t => (indented? t).map (Body.after [c])

/-- The rest of a block comment with its end mark, and what follows it, or `none`
if the comment never ends. -/
def comment? : Text → Option (Text × Text)
  | [] => none
  | '*' :: '/' :: t => some (['*', '/'], t)
  | c :: t => (comment? t).map fun (body, rest) => (c :: body, rest)

theorem quoted?_text {t : Text} {b : Body} (h : quoted? t = some b) :
    ∃ mark : Text, mark ≠ [] ∧ t = b.text ++ mark ++ b.rest := by
  fun_induction quoted? t generalizing b with
  | case1 => simp at h
  | case2 t =>
    obtain rfl := Option.some.inj h
    exact ⟨['"'], by simp, rfl⟩
  | case5 t =>
    obtain rfl := Option.some.inj h
    exact ⟨['$', '{'], by simp, rfl⟩
  | case3 c t ih | case4 t ih | case6 c t _ _ _ _ ih =>
    obtain ⟨b', hb, rfl⟩ := Option.map_eq_some_iff.1 h
    obtain ⟨mark, hm, rfl⟩ := ih hb
    exact ⟨mark, hm, by simp [Body.after]⟩

theorem indented?_text {t : Text} {b : Body} (h : indented? t = some b) :
    ∃ mark : Text, mark ≠ [] ∧ t = b.text ++ mark ++ b.rest := by
  fun_induction indented? t generalizing b with
  | case1 | case5 => simp at h
  | case6 t =>
    obtain rfl := Option.some.inj h
    exact ⟨['\x27', '\x27'], by simp, rfl⟩
  | case8 t =>
    obtain rfl := Option.some.inj h
    exact ⟨['$', '{'], by simp, rfl⟩
  | case2 t ih | case3 t ih | case4 c t ih | case7 t ih | case9 c t _ _ _ _ _ _ _ ih =>
    obtain ⟨b', hb, rfl⟩ := Option.map_eq_some_iff.1 h
    obtain ⟨mark, hm, rfl⟩ := ih hb
    exact ⟨mark, hm, by simp [Body.after]⟩

theorem comment?_text {t body rest : Text} (h : comment? t = some (body, rest)) :
    t = body ++ rest := by
  fun_induction comment? t generalizing body rest with
  | case1 => simp at h
  | case2 t =>
    simp only [Option.some.injEq, Prod.mk.injEq] at h
    obtain ⟨rfl, rfl⟩ := h
    rfl
  | case3 c t _ ih =>
    obtain ⟨⟨b', r'⟩, hb, heq⟩ := Option.map_eq_some_iff.1 h
    simp only [Prod.mk.injEq] at heq
    obtain ⟨rfl, rfl⟩ := heq
    simp [ih hb]

end Literal
end FlakeInputs
