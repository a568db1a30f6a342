namespace PredictiveParsing
namespace Naming

/-!
# Identifiers

Names of rules and variables may hold any characters, identifiers may not.  A
name becomes an identifier by folding every other character to an underscore, by
an underscore in front where it would be empty or begin with a digit, and by an
underscore at the end where it would be a reserved word or a lone underscore.  Each
language that programs are written in has reserved words of its own.
-/

/-! ## Reserved words -/

/-- The keywords of Python and the names that a generated module relies on. -/
def pythonWords : List String :=
  ["False", "None", "True", "and", "as", "assert", "async", "await", "break", "class", "continue",
    "def", "del", "elif", "else", "except", "finally", "for", "from", "global", "if", "import",
    "in", "is", "lambda", "nonlocal", "not", "or", "pass", "raise", "return", "try", "while",
    "with", "yield", "len", "open", "print", "str", "List", "subprocess", "sys", "__name__"]

/-- The keywords of Rust, those kept for later included. -/
def rustWords : List String :=
  ["abstract", "as", "async", "await", "become", "box", "break", "const", "continue", "crate",
    "do", "dyn", "else", "enum", "extern", "false", "final", "fn", "for", "if", "impl", "in",
    "let", "loop", "macro", "match", "mod", "move", "mut", "override", "priv", "pub", "ref",
    "return", "self", "Self", "static", "struct", "super", "trait", "true", "try", "type",
    "typeof", "unsafe", "unsized", "use", "virtual", "where", "while", "yield"]

/-! ## Names as identifiers -/

/-- The characters that identifiers are made of. -/
def isIdentifierCharacter (c : Char) : Bool :=
  c.isAlphanum || c == '_'

/-- The name with every character folded that cannot stand in an identifier. -/
def folded (name : List Char) : List Char :=
  name.map fun c => if isIdentifierCharacter c then c else '_'

/-- An underscore in front of a name that cannot begin an identifier. -/
def guardStart : List Char -> List Char
  | [] => ['_']
  | c :: rest => if c.isDigit then '_' :: c :: rest else c :: rest

/-- The name as an identifier, reserved words not considered. -/
def plain (name : String) : String :=
  String.ofList (guardStart (folded name.toList))

/-- The name as an identifier that is none of the reserved words. -/
def avoiding (reserved : List String) (name : String) : String :=
  let identifier := plain name
  if identifier == "_" || reserved.contains identifier then identifier ++ "_" else identifier

/-- The name as an identifier that no language reserves.  Names with different
universal forms are different identifiers in every language. -/
def universal (name : String) : String :=
  avoiding (pythonWords ++ rustWords) name

end Naming
end PredictiveParsing
