import WorkflowAudit.Text.CharClass
import WorkflowAudit.Text.Pattern

/-!
# Credentials in texts

Texts that look like credentials, each kind with its pattern. The first pattern that occurs
counts, wherever it occurs.
-/

namespace WorkflowAudit

open Text

/-- A part of a text that looks like a credential. -/
structure Credential where
  kind : String
  span : Span
deriving DecidableEq, Repr

namespace Credential

open Pattern

/-- A class of characters in which case does not count; it is given for lower case. -/
def anyCase (accepts : Char → Bool) (c : Char) : Bool := accepts (foldCase c)

/-- A word in any case; it is given in lower case. -/
def word (w : String) : Pattern := all (w.toList.map fun c => .char (anyCase (· == c)))

def isUpperOrDigit (c : Char) : Bool := c.isUpper || c.isDigit

def isKeyChar (c : Char) : Bool := c.isAlphanum || c = '_' || c = '-'

def isQuote (c : Char) : Bool := c = '\'' || c = '"'

/-- A dash or an underscore, or nothing. -/
def joint : Pattern := .optional (.char fun c => c = '_' || c = '-')

/-- An equals sign or a colon, with white space around it and possibly a quote after it. -/
def assigned : Pattern :=
  all [many isWhiteSpace, .char fun c => c = '=' || c = ':', many isWhiteSpace,
    .optional (.char isQuote)]

def isPasswordChar (c : Char) : Bool := !isWhiteSpace c && !isQuote c

/-- Patterns with what they find, in order. -/
def patterns : List (Pattern × String) := [
  (all [oneOf [all [word "api", joint, word "key"], word "apikey"], assigned,
    atLeast 8 (anyCase isKeyChar)], "API key"),
  (all [word "-p", many isWhiteSpace, .char isQuote, atLeast 8 isPasswordChar, .char isQuote],
    "password"),
  (all [oneOf [word "password", word "passwd", word "pwd"], assigned,
    atLeast 8 fun c => isPasswordChar c && c ≠ '$'], "password"),
  (all [exactly "AKIA", times 16 isUpperOrDigit], "AWS access key id"),
  (all [word "aws", joint, word "secret", joint, word "access", joint, word "key", assigned,
    times 40 (anyCase fun c => c.isAlphanum || c = '/' || c = '+' || c = '=')],
    "AWS secret key"),
  (all [exactly "sk_", oneOf [exactly "test", exactly "live"], exactly "_",
    atLeast 3 Char.isAlphanum], "Stripe secret key"),
  (all [exactly "pk_", oneOf [exactly "test", exactly "live"], exactly "_",
    atLeast 20 Char.isAlphanum], "Stripe publishable key"),
  (all [exactly "gh", .char (['p', 'o', 'u', 's', 'r'].contains ·), exactly "_",
    atLeast 20 Char.isAlphanum], "GitHub token"),
  (all [oneOf [word "token", word "bearer"], assigned,
    oneOf [.seq (word "secret") (atLeast 3 (anyCase isKeyChar)),
      atLeast 20 (anyCase isKeyChar)]], "token"),
  (all [exactly "-----BEGIN ", .optional (.seq (atLeast 1 Char.isUpper) (exactly " ")),
    exactly "PRIVATE KEY-----"], "private key")]

/-- The credential that a text contains, by the first pattern that occurs in it. -/
def find? (text : String) : Option Credential :=
  patterns.findSome? fun (p, kind) => (p.find? text).map fun span => ⟨kind, span⟩

end Credential

end WorkflowAudit
