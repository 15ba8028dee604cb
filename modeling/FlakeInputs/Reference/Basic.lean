import FlakeInputs.Text.Quoted

/-!
# Input references

A reference names a flake, either by a url or, for flakes on FlakeHub, by
organisation, project and version.  Here is what it stands for, and what can be
wrong with it.
-/

namespace FlakeInputs
namespace Reference

/-- What a reference stands for: the name of an input and its url. -/
structure Input where
  name : Text
  url : Text
deriving DecidableEq, Repr

/-- What can be wrong with a reference. -/
inductive Problem
  | empty
  | nameNeeded (ref : Text)
  | badVersion (version : Text)
  | badFormat
  | badBrackets
  | badAddress (host : Text)
  | badFutureAddress
  | bracketedIPv4
  | disguisedDelimiter (authority : Text)
deriving DecidableEq, Repr

namespace Problem

/-- What is wrong. -/
def message : Problem → String
  | empty => "empty input reference"
  | nameNeeded ref =>
    "cannot infer an input name for `" ++ ref.display ++
      "`; please specify one with the `--input-name` flag"
  | badVersion version =>
    "version '" ++ version.display ++ "' was not a valid SemVer version requirement"
  | badFormat =>
    "flakehub input did not match the expected format of `org/project` or `org/project/version`"
  | badBrackets => "Invalid IPv6 URL"
  | badAddress host => host.quoted ++ " does not appear to be an IPv4 or IPv6 address"
  | badFutureAddress => "IPvFuture address is invalid"
  | bracketedIPv4 => "An IPv4 address cannot be in brackets"
  | disguisedDelimiter authority =>
    "netloc '" ++ authority.display ++
      "' contains invalid characters under NFKC normalization"

/-- Whether the url inside a reference is broken, rather than the reference as a
whole unusable. -/
def isUrlProblem : Problem → Bool
  | badBrackets | badAddress _ | badFutureAddress | bracketedIPv4 | disguisedDelimiter _ => true
  | _ => false

end Problem
end Reference
end FlakeInputs
