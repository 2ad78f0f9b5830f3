import Gavel.Lib.Lines

/-!
# Environment files

A file of assignments is read line by line. Only the reading is modelled, not the search for the file and
the setting of what it holds.
-/

namespace Gavel.Server.EnvFile

/-- One parsed assignment. -/
structure Entry where
  key : Text
  value : Text
  deriving DecidableEq

/-- Strip surrounding quotes, or an unquoted trailing comment. A text that begins and ends with a quote has
two bytes if it has two characters. -/
def cleanValue (value : Text) : Text :=
  let quoted := ['"', '\''].find? fun quote =>
    2 ≤ value.length ∧ value.head? = some quote ∧ value.getLast? = some quote
  if quoted.isSome then value.tail.dropLast
  else
    match Text.splitAtText " #".toList value with
    | some (before, _) => before.rdropWhile isWhitespace
    | none => value

def isKeyChar (c : Char) : Bool := (isAscii c && c.isAlphanum) || c = '_'

def parseLine (raw : Text) : Option Entry :=
  let line := Text.trimMatches isWhitespace (raw.rdropWhile (· = '\r'))
  if line.isEmpty ∨ line.head? = some '#' then none
  else
    let line := ((Text.dropFirst? "export ".toList line).getD line).dropWhile isWhitespace
    match Text.splitOnce '=' line with
    | none => none
    | some (key, value) =>
        let key := Text.trimMatches isWhitespace key
        if key.isEmpty ∨ ¬ key.all isKeyChar then none
        else some ⟨key, cleanValue (Text.trimMatches isWhitespace value)⟩

/-- Parse the contents of a file. -/
def parse (contents : Text) : List Entry := (Text.lines contents).filterMap parseLine

end Gavel.Server.EnvFile
