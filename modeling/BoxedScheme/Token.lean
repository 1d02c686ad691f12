import BoxedScheme.Double.Notation
import BoxedScheme.Location
import BoxedScheme.Text.Quoted

/-!
# Tokens

The smallest pieces of a source text, and what can be wrong with a text before it has any.
-/

namespace BoxedScheme

inductive Token where
  | leftParen
  | rightParen
  | dot
  | quote
  | boolean (value : Bool)
  | number (value : Double)
  | char (value : Char)
  | string (value : String)
  | symbol (name : String)
  | endOfFile
deriving DecidableEq, Inhabited

/-- The token as diagnostics describe it. -/
def Token.describe : Token → String
  | .leftParen => "'('"
  | .rightParen => "')'"
  | .dot => "'.'"
  | .quote => "quote"
  | .boolean b => if b then "boolean #t" else "boolean #f"
  | .number x => "number " ++ x.diagnostic
  | .char c => "character " ++ Text.quoteChar c
  | .string s => "string " ++ Text.quoteString s
  | .symbol name => s!"symbol '{name}'"
  | .endOfFile => "end of file"

/-- A token and the place of its first character. -/
structure Lexeme where
  token : Token
  location : Location
deriving DecidableEq, Inhabited

/-- Why a text does not split into tokens. -/
inductive ScanFault where
  | quasiquote
  | endInString
  | unknownEscape (c : Char)
  | unterminatedString
  | endInChar
  | unknownCharName (name : String)
  | unterminatedComment
  | invalidNumber (text : String)
  | unknownHash (text : String)
deriving DecidableEq

def ScanFault.message : ScanFault → String
  | .quasiquote => "quasiquote is not supported"
  | .endInString => "Unexpected end of file in string literal"
  | .unknownEscape c => "Unknown escape sequence: \\" ++ .singleton c
  | .unterminatedString => "Unterminated string literal"
  | .endInChar => "Unexpected end of file in character literal"
  | .unknownCharName name => "Unknown character name: #\\" ++ name
  | .unterminatedComment => "Unterminated block comment"
  | .invalidNumber text => "Invalid number: " ++ text
  | .unknownHash text => "Unknown # syntax: " ++ text

/-- A fault and the place it is reported at. -/
structure ScanError where
  fault : ScanFault
  location : Location
deriving DecidableEq

def ScanError.message (e : ScanError) : String :=
  s!"Lexer error at {e.location.words}: {e.fault.message}"

end BoxedScheme
