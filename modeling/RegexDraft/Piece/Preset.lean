/-!
# Presets for passwords and addresses

A requirement looks ahead through all of the remaining text for one character
of a kind, so several can stand at the start of a pattern in any order. An
address part matches a part of a network address.
-/

namespace RegexDraft

inductive Requirement where
  | specialChar
  | letter
  | digit
  deriving DecidableEq, Repr

def Requirement.text : Requirement → String
  | specialChar => "(?=.*[!@#$%^&*])"
  | letter => "(?=.*[a-zA-Z])"
  | digit => "(?=.*\\d)"

inductive AddressPart where
  /-- A number from 0 to 255 without leading zeros. -/
  | ipv4Octet
  /-- The scheme of a web address with the slashes after it. -/
  | webScheme
  | www
  /-- A dot with two or more ASCII letters. -/
  | topLevelDomain
  | path
  deriving DecidableEq, Repr

def AddressPart.text : AddressPart → String
  | ipv4Octet => "(25[0-5]|2[0-4]\\d|1\\d\\d|[1-9]?\\d)"
  | webScheme => "https?:\\/\\/"
  | www => "(www\\.)?"
  | topLevelDomain => "\\.[a-zA-Z]\x7b2,\x7d"
  | path => "(\\/[\\w-]*)*"

end RegexDraft
