/-!
# What can go wrong

A selector text can be malformed, a token can hold an index that is no number of signed 64 bits,
and a root bracket can name an element that is not there. `Fault.message` is the text shown
for each; offsets count the bytes of the UTF-8 form.
-/

namespace JsonSelect

/-- Why a text has no reading as a selector or as a root. -/
inductive Malformation where
  | unexpectedClose
  | unclosedGroup
  | danglingDot
  | missingName
  | unclosedRootBracket
  | missingRootIndex
  | badRootIndex (text : String)
  deriving DecidableEq, Repr

namespace Malformation

def message : Malformation → String
  | unexpectedClose => "unexpected '\x7d'"
  | unclosedGroup => "unclosed '\x7b'"
  | danglingDot => "dangling '.'"
  | missingName => "expected a field name before '.'"
  | unclosedRootBracket => "unclosed '[' in root"
  | missingRootIndex => "expected an index inside '[]' in root"
  | badRootIndex text => "invalid root index `" ++ text ++ "`"

end Malformation

inductive Fault where
  | malformed (offset : Nat) (reason : Malformation)
  | invalidIndex (token : String)
  | rootOutOfBounds (index : Int) (length : Nat)
  deriving DecidableEq, Repr

namespace Fault

def message : Fault → String
  | malformed offset reason =>
    "malformed selector at position " ++ toString offset ++ ": " ++ reason.message
  | invalidIndex token => "invalid array index in `" ++ token ++ "`"
  | rootOutOfBounds index length =>
    "root index " ++ toString index ++ " is out of bounds for an array of length "
      ++ toString length

end Fault

end JsonSelect
