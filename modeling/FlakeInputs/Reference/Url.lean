import FlakeInputs.Reference.Address
import FlakeInputs.Reference.Basic
import FlakeInputs.Token.Word

/-!
# Urls

A url is taken apart into scheme, authority and path; query and fragment are cut
off.  Control characters and spaces in front, and tabs and line ends anywhere,
do not count.
-/

namespace FlakeInputs

/-- The parts of a url that matter for a reference.  A part that is missing is
empty. -/
structure Url where
  scheme : Text
  authority : Text
  path : Text
deriving DecidableEq, Repr

namespace Url

/-- The text of a url without the characters that do not count. -/
def clean (t : Text) : Text :=
  (t.dropWhile fun c => c.toNat ≤ 0x20).filter fun c => c != '\t' && c != '\r' && c != '\n'

/-- The scheme in front of the first colon, and the rest.  Without a well-formed
scheme all of the text is rest. -/
def splitScheme (t : Text) : Text × Text :=
  let scheme := t.takeWhile (· != ':')
  match scheme, t.drop scheme.length with
  | c :: cs, ':' :: rest =>
    if Word.isLetter c && cs.all Word.isSchemeChar then (scheme, rest) else ([], t)
  | _, _ => ([], t)

/-- Whether a character ends the authority of a url. -/
def endsAuthority (c : Char) : Bool :=
  c == '/' || c == '?' || c == '#'

/-- The authority behind a double slash, and the rest. -/
def splitAuthority : Text → Text × Text
  | '/' :: '/' :: t => (t.takeWhile (!endsAuthority ·), t.dropWhile (!endsAuthority ·))
  | t => ([], t)

/-- What stands behind the last `@`, or all of the text. -/
def hostAndPort (authority : Text) : Text :=
  (authority.reverse.takeWhile (· != '@')).reverse

/-- Checks a host that is, or should be, between brackets. -/
def checkHost (host : Text) : Except Reference.Problem Unit :=
  if host.head? = some 'v' then
    if Address.isFuture host then .ok () else .error .badFutureAddress
  else if Address.isIPv4 host then .error .bracketedIPv4
  else if Address.isIPv6 host then .ok ()
  else .error (.badAddress host)

/-- Checks an authority that has an opening and a closing bracket.  Only a user
may stand before the brackets, and only a port behind them. -/
def checkBrackets (authority : Text) : Except Reference.Problem Unit :=
  let host := hostAndPort authority
  match host with
  | '[' :: inner =>
    match inner.dropWhile (· != ']') with
    | ']' :: c :: _ =>
      if c = ':' then checkHost (inner.takeWhile (· != ']')) else .error .badBrackets
    | _ => checkHost (inner.takeWhile (· != ']'))
  | host =>
    if host.contains '[' then .error .badBrackets else checkHost (host.takeWhile (· != ':'))

/-- The characters whose compatibility form contains one of the characters
`/`, `?`, `#`, `@` and `:`. -/
def disguised : List Nat :=
  [0x2047, 0x2048, 0x2049, 0x2100, 0x2101, 0x2105, 0x2106, 0x2A74, 0xFE13, 0xFE16, 0xFE55,
   0xFE56, 0xFE5F, 0xFE6B, 0xFF03, 0xFF0F, 0xFF1A, 0xFF1F, 0xFF20]

/-- Checks the authority of a url. -/
def checkAuthority (authority : Text) : Except Reference.Problem Unit := do
  if authority.contains '[' != authority.contains ']' then throw .badBrackets
  if authority.contains '[' then checkBrackets authority
  if authority.any fun c => c.toNat ∈ disguised then throw (.disguisedDelimiter authority)

/-- The parts of a url. -/
def split (t : Text) : Except Reference.Problem Url := do
  let (scheme, rest) := splitScheme (clean t)
  let (authority, rest) := splitAuthority rest
  checkAuthority authority
  return ⟨scheme, authority, rest.takeWhile fun c => c != '#' && c != '?'⟩

end Url
end FlakeInputs
