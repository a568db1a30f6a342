import PredictiveParsing.Code.Basic
import PredictiveParsing.Proofs.Derivation

namespace PredictiveParsing

/-!
# Token buffers

A parser reads records that the lexer wrote, one for each token.  Where the buffer
is empty it reads a blank record instead, which no leaf accepts whose text or name
is not empty.
-/

/-- What the lexer says about one token. -/
structure TokenRecord where
  className : String
  literal : String
  position : String
deriving DecidableEq

namespace TokenRecord

/-- What stands for the front token of an empty buffer. -/
def blank : TokenRecord := ⟨"", "", ""⟩

def field (token : TokenRecord) : TokenField -> String
  | .className => token.className
  | .literal => token.literal
  | .position => token.position

end TokenRecord

/-- The token that is looked at next. -/
def frontToken (buffer : List TokenRecord) : TokenRecord :=
  buffer.headD .blank

namespace Terminal

/-- Whether a token can be read as the leaf. -/
def accepts : Terminal -> TokenRecord -> Bool
  | .literal text, token => token.literal == text
  | .tokenClass name, token => token.className == name

theorem spelling_eq_empty_of_accepts_blank {leaf : Terminal} (accepted : leaf.accepts .blank = true) :
    leaf.spelling = "" := by
  cases leaf with
  | literal text => exact (beq_iff_eq.mp accepted).symm
  | tokenClass name => exact (beq_iff_eq.mp accepted).symm

end Terminal

namespace Grammar

/-- Whether the pattern derives a sentence that the tokens spell, one token for
each leaf. -/
def Describes (grammar : Grammar) (pattern : Pattern) (tokens : List TokenRecord) : Prop :=
  ∃ sentence, grammar.Derives pattern sentence ∧
    List.Forall₂ (fun leaf token => leaf.accepts token = true) sentence tokens

variable {grammar : Grammar}

theorem describes_nil {pattern : Pattern} (nullable : grammar.Derives pattern []) :
    grammar.Describes pattern [] :=
  ⟨[], nullable, .nil⟩

theorem describes_leaf {leaf : Terminal} (real : leaf ≠ .epsilon) {token : TokenRecord}
    (accepted : leaf.accepts token = true) : grammar.Describes (.terminal leaf) [token] :=
  ⟨[leaf], .leaf real, .cons accepted .nil⟩

theorem Describes.mono {part whole : Pattern} {tokens : List TokenRecord}
    (described : grammar.Describes part tokens)
    (widens : ∀ sentence, grammar.Derives part sentence -> grammar.Derives whole sentence) :
    grammar.Describes whole tokens := by
  rcases described with ⟨sentence, derives, spelled⟩
  exact ⟨sentence, widens sentence derives, spelled⟩

theorem Describes.factor {factor : Pattern} {rest : List Pattern} {front back : List TokenRecord}
    (first : grammar.Describes factor front) (later : grammar.Describes (.sequence rest) back) :
    grammar.Describes (.sequence (factor :: rest)) (front ++ back) := by
  rcases first with ⟨firstSentence, firstDerives, firstSpelled⟩
  rcases later with ⟨laterSentence, laterDerives, laterSpelled⟩
  exact ⟨firstSentence ++ laterSentence, .factor firstDerives laterDerives,
    List.rel_append firstSpelled laterSpelled⟩

end Grammar
end PredictiveParsing
