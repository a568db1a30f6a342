import PredictiveParsing.Text.Lines

namespace PredictiveParsing

/-!
# Token trees

Source text as a list of tokens, in which brackets of all kinds enclose lists of
tokens.  Tokens are written with single spaces between them.  Parentheses and
square brackets stand close to their content, and braces do not.
-/

/-- The brackets around a list of tokens. -/
inductive Delimiter where
  /-- Round brackets. -/
  | parenthesis
  /-- Square brackets. -/
  | bracket
  /-- Curly brackets. -/
  | brace
deriving DecidableEq

/-- A piece of source text. -/
inductive SourceToken where
  /-- A word, a literal or an operator. -/
  | atom (text : String)
  /-- Tokens inside brackets. -/
  | group (delimiter : Delimiter) (content : List SourceToken)

namespace SourceToken

/-- The text of a group, given the texts of its tokens. -/
def groupText (delimiter : Delimiter) (content : List String) : String :=
  let inside := " ".intercalate content
  match delimiter with
  | .parenthesis => "(" ++ inside ++ ")"
  | .bracket => "[" ++ inside ++ "]"
  | .brace => if content.isEmpty then "\x7b \x7d" else "\x7b " ++ inside ++ " \x7d"

mutual

def text : SourceToken -> String
  | .atom text => text
  | .group delimiter content => groupText delimiter (texts content)

def texts : List SourceToken -> List String
  | [] => []
  | token :: rest => text token :: texts rest

end

def textOf (tokens : List SourceToken) : String :=
  " ".intercalate (texts tokens)

/-- The atoms that single spaces separate in a text. -/
def words (text : String) : List SourceToken :=
  (Text.pieces ' ' text).map .atom

def parenthesized (content : List SourceToken) : List SourceToken :=
  [.group .parenthesis content]

def bracketed (content : List SourceToken) : List SourceToken :=
  [.group .bracket content]

def braced (content : List SourceToken) : List SourceToken :=
  [.group .brace content]

def commaSeparated (parts : List (List SourceToken)) : List SourceToken :=
  [SourceToken.atom ","].intercalate parts

end SourceToken
end PredictiveParsing
