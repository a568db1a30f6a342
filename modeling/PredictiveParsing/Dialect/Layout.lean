import PredictiveParsing.Text.Lines

namespace PredictiveParsing
namespace Layout

/-!
# Indented lines

A fragment of an indented program is a list of lines, at least one.  The fragment
with a single empty line is empty.  Indenting reads the fragment as text again,
and so a carriage return at the end of a line disappears and so does an empty
line at the end; an empty line in between stays empty.
-/

def empty : List String := [""]

def ofText (text : String) : List String :=
  Text.segments text

def text (fragment : List String) : String :=
  "\n".intercalate fragment

/-- A line one step further in, unless nothing stands on it. -/
def indentLine (line : String) : String :=
  if line.isEmpty then line else "\t" ++ line

/-- A fragment one step further in. -/
def indent (fragment : List String) : List String :=
  (Text.settle fragment).map indentLine

/-- Fragments below each other, as they are. -/
def stack : List (List String) -> List String
  | [] => empty
  | fragments => fragments.flatten

/-- The body of a routine or of an arm, which never is without a statement. -/
def block (fragments : List (List String)) : List String :=
  match fragments.filter (· != empty) with
  | [] => ["\tpass"]
  | kept => kept.flatMap indent

end Layout
end PredictiveParsing
