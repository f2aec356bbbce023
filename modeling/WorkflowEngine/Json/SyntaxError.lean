/-!
Why a text is no document, and the texts of the causes.
-/
set_option autoImplicit false

namespace WorkflowEngine.Json

inductive SyntaxError where
  | openList | openObject | openString | openValue
  | expectedColon | expectedListEnd | expectedObjectEnd | expectedIdent | expectedValue
  | invalidEscape | invalidNumber | numberOutOfRange | invalidUnicode
  | controlCharacter | keyNotString | loneSurrogate | shortEscape
  | trailingComma | trailingCharacters | tooDeep
  deriving DecidableEq, Repr

def SyntaxError.message : SyntaxError → String
  | .openList => "EOF while parsing a list"
  | .openObject => "EOF while parsing an object"
  | .openString => "EOF while parsing a string"
  | .openValue => "EOF while parsing a value"
  | .expectedColon => "expected `:`"
  | .expectedListEnd => "expected `,` or `]`"
  | .expectedObjectEnd => "expected `,` or `\x7d`"
  | .expectedIdent => "expected ident"
  | .expectedValue => "expected value"
  | .invalidEscape => "invalid escape"
  | .invalidNumber => "invalid number"
  | .numberOutOfRange => "number out of range"
  | .invalidUnicode => "invalid unicode code point"
  | .controlCharacter => "control character (\\u0000-\\u001F) found while parsing a string"
  | .keyNotString => "key must be a string"
  | .loneSurrogate => "lone leading surrogate in hex escape"
  | .shortEscape => "unexpected end of hex escape"
  | .trailingComma => "trailing comma"
  | .trailingCharacters => "trailing characters"
  | .tooDeep => "recursion limit exceeded"

end WorkflowEngine.Json
