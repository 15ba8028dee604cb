import FlakeInputs.Number.Decimal

/-!
# Internet addresses

Which texts are IPv4 and IPv6 addresses.
-/

namespace FlakeInputs
namespace Address

/-- A decimal number up to 255, without leading zeros. -/
def isOctet (t : Text) : Bool :=
  !t.isEmpty && t.all Char.isDigit && t.length ≤ 3 && (t == ['0'] || t.head? != some '0') &&
    digitsValue t ≤ 255

/-- Four octets with dots between them. -/
def isIPv4 (t : Text) : Bool :=
  let octets := Text.splitOn '.' t
  octets.length == 4 && octets.all isOctet

/-- Hexadecimal digits. -/
def isHexDigit (c : Char) : Bool :=
  c.isDigit || ('a' ≤ c && c ≤ 'f') || ('A' ≤ c && c ≤ 'F')

/-- One to four hexadecimal digits. -/
def isHextet (t : Text) : Bool :=
  !t.isEmpty && t.length ≤ 4 && t.all isHexDigit

/-- The number of 16-bit groups that some texts stand for, if each stands for one.
The last may be an IPv4 address, which stands for two. -/
def groups? (ipv4Last : Bool) : List Text → Option Nat
  | [] => some 0
  | [t] => if isHextet t then some 1 else if ipv4Last && isIPv4 t then some 2 else none
  | t :: ts => if isHextet t then (groups? ipv4Last ts).map (· + 1) else none

/-- The number of 16-bit groups in a text with colons between them. -/
def groupCount? (ipv4Last : Bool) (t : Text) : Option Nat :=
  if t.isEmpty then some 0 else groups? ipv4Last (Text.splitOn ':' t)

/-- The text before and behind the first double colon. -/
def splitDouble? : Text → Option (Text × Text)
  | ':' :: ':' :: t => some ([], t)
  | c :: t => (splitDouble? t).map fun (before, behind) => (c :: before, behind)
  | [] => none

/-- Eight groups, or fewer with a double colon in place of those that are zero. -/
def isIPv6Number (t : Text) : Bool :=
  match splitDouble? t with
  | none => groupCount? true t == some 8
  | some (before, behind) =>
    match groupCount? false before, groupCount? true behind with
    | some m, some n => m + n ≤ 7
    | _, _ => false

/-- An IPv6 number, with a scope behind a percent sign if there is one. -/
def isIPv6 (t : Text) : Bool :=
  match Text.splitOn '%' t with
  | [number] => isIPv6Number number
  | [number, scope] => !scope.isEmpty && isIPv6Number number
  | _ => false

/-- An address of a future version: a `v`, a hexadecimal version, a dot and at
least one more character. -/
def isFuture (t : Text) : Bool :=
  match t with
  | 'v' :: t =>
    let version := t.takeWhile isHexDigit
    !version.isEmpty &&
      match t.drop version.length with
      | '.' :: _ :: _ => true
      | _ => false
  | _ => false

end Address
end FlakeInputs
