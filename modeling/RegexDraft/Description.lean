import RegexDraft.Draft
import RegexDraft.Text.Quoted

/-!
# Descriptions

A description is one line of text that names every part of a value: the
fragments of a draft in quotes, one by one, and the words for its flags.
-/

namespace RegexDraft

namespace Description

def list (items : List String) : String :=
  "[" ++ ", ".intercalate items ++ "]"

def field (name value : String) : String := name ++ ": " ++ value

def record (name : String) (fields : List String) : String :=
  name ++ " \x7b " ++ ", ".intercalate fields ++ " \x7d"

end Description

open Description

def Flags.describe (s : Flags) : String :=
  record "FlagSet" [field "flags" (list (s.toList.map Flag.name))]

def Draft.describe (d : Draft) : String :=
  record "RegexBuilder"
    [field "fragments" (list (d.fragments.map Quoted.encode)),
      field "flags" d.flags.describe]

end RegexDraft
