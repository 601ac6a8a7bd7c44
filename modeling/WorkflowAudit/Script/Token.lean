import WorkflowAudit.Text.Span

/-!
# Tokens of a declaration script

A token is a class, the bytes it covers and the text of those bytes. Line structure is
part of the token stream: `newline` ends a logical line, `indent` and `dedent` bracket
blocks. This module also names everything that can be wrong with a script.
-/

namespace WorkflowAudit.Script

/-- Token classes. -/
inductive TokenKind where
  /-- An identifier or keyword. -/
  | name
  /-- A numeric literal. -/
  | number
  /-- A string literal with its prefix and quotes. -/
  | str
  /-- An operator or delimiter. -/
  | op
  /-- The end of a logical line. -/
  | newline
  /-- The start of a deeper block. -/
  | indent
  /-- The end of a block. -/
  | dedent
  /-- The end of the script. -/
  | endMarker
deriving DecidableEq, Repr, Inhabited

/-- Whether tokens of a class stand for text rather than for line structure. -/
def TokenKind.isLexical : TokenKind → Bool
  | .name | .number | .str | .op => true
  | _ => false

/-- A token with its place and text. -/
structure Token where
  kind : TokenKind
  span : Span
  text : String
deriving DecidableEq, Repr, Inhabited

/-- What can be wrong with a script. -/
inductive SyntaxFault where
  /-- A string literal without its closing quote. -/
  | unterminatedString
  /-- A backslash that joins no lines. -/
  | strayBackslash
  /-- A character that starts no token. -/
  | invalidCharacter (c : Char)
  /-- A closing bracket without its opening one. -/
  | unmatchedBracket (c : Char)
  /-- An opening bracket that is never closed. -/
  | unclosedBracket (c : Char)
  /-- A line that returns to no enclosing indentation. -/
  | inconsistentDedent
  /-- A token of a class that cannot stand here. -/
  | unexpectedKind (kind : TokenKind)
  /-- A token whose text cannot stand here. -/
  | unexpectedText (text : String)
  /-- A missing keyword or operator. -/
  | missing (text : String)
  /-- A missing identifier. -/
  | missingIdentifier
  /-- A decorator that is not alone on its line. -/
  | missingNewlineAfterDecorator
  /-- A block header without a block. -/
  | missingBlock
  /-- A simple statement followed by something else. -/
  | missingStatementEnd
  /-- More nested levels than a script may have. -/
  | tooManyLevels
  /-- A string token that does not decode. -/
  | malformedString
deriving DecidableEq, Repr

/-- The wording of a fault. -/
def SyntaxFault.message : SyntaxFault → String
  | .unterminatedString => "unterminated string literal"
  | .strayBackslash => "unexpected character after line continuation"
  | .invalidCharacter c => s!"invalid character '{c}'"
  | .unmatchedBracket c => s!"unmatched '{c}'"
  | .unclosedBracket c => s!"unexpected end of input inside '{c}'"
  | .inconsistentDedent => "unindent does not match any outer indentation level"
  | .unexpectedKind .newline => "unexpected end of line"
  | .unexpectedKind .indent => "unexpected indent"
  | .unexpectedKind .dedent => "unexpected dedent"
  | .unexpectedKind _ => "unexpected end of input"
  | .unexpectedText text => s!"unexpected '{text}'"
  | .missing text => s!"expected '{text}'"
  | .missingIdentifier => "expected identifier"
  | .missingNewlineAfterDecorator => "expected newline after decorator"
  | .missingBlock => "expected an indented block"
  | .missingStatementEnd => "expected end of statement"
  | .tooManyLevels => "too many nested levels"
  | .malformedString => "malformed string literal"

/-- A fault with the byte offset at which it was found. -/
structure SyntaxError where
  fault : SyntaxFault
  offset : Nat
deriving DecidableEq, Repr

namespace SyntaxError

def message (e : SyntaxError) : String := e.fault.message

/-- The message followed by the place. -/
def describe (e : SyntaxError) : String := s!"{e.message} at offset {e.offset}"

end SyntaxError

end WorkflowAudit.Script
