import Codegen.Text.Bytes

/-!
# Errors in YAML Text

Why a text is not YAML. The line that a message names is the one where the
construct at fault began, or else the one where it went wrong; the first line of
a text is not named.
-/

namespace Codegen.Yaml

/-- What went wrong. -/
inductive Cause where
  | controlCharacter
  | leadingOctet
  | trailingOctet
  | incompleteOctets
  | octetLength
  | invalidCharacter
  | incompleteUnit
  | incompletePair
  | strayLowHalf
  | missingLowHalf
  | cannotStart
  | valueNotAllowed
  | entryNotAllowed
  | keyNotAllowed
  | missingColon
  | tabIndentation
  | endOfStream
  | documentMarker
  | unknownEscape
  | escapeDigits
  | escapeCode
  | zeroIndentation
  | headerEnd
  | tabInBlock
  | anchorName
  | tagMark
  | tagAddress
  | tagBracket
  | tagEnd
  | addressOctet
  | addressLeadingOctet
  | addressTrailingOctet
  | directiveName
  | directiveLetter
  | unknownDirective
  | versionPoint
  | versionLength
  | versionNumber
  | shorthandSpace
  | tooDeep
  | documentStart
  | repeatedVersion
  | unknownVersion
  | repeatedShorthand
  | unknownShorthand
  | nodeContent
  | mappingKey
  | sequenceEntry
  | flowSequence
  | flowMapping
  | unknownAnchor (name : Bytes)
  | selfReference (name : Bytes)
  | mergeValue
  | binaryDigits
  | unreadable (found text wanted : Bytes)
  deriving DecidableEq, Repr

def Cause.text : Cause → Bytes
  | .controlCharacter => "control characters are not allowed"
  | .leadingOctet => "invalid leading UTF-8 octet"
  | .trailingOctet => "invalid trailing UTF-8 octet"
  | .incompleteOctets => "incomplete UTF-8 octet sequence"
  | .octetLength => "invalid length of a UTF-8 sequence"
  | .invalidCharacter => "invalid Unicode character"
  | .incompleteUnit => "incomplete UTF-16 character"
  | .incompletePair => "incomplete UTF-16 surrogate pair"
  | .strayLowHalf => "unexpected low surrogate area"
  | .missingLowHalf => "expected low surrogate area"
  | .cannotStart => "found character that cannot start any token"
  | .valueNotAllowed => "mapping values are not allowed in this context"
  | .entryNotAllowed => "block sequence entries are not allowed in this context"
  | .keyNotAllowed => "mapping keys are not allowed in this context"
  | .missingColon => "could not find expected ':'"
  | .tabIndentation => "found a tab character that violates indentation"
  | .endOfStream => "found unexpected end of stream"
  | .documentMarker => "found unexpected document indicator"
  | .unknownEscape => "found unknown escape character"
  | .escapeDigits => "did not find expected hexdecimal number"
  | .escapeCode => "found invalid Unicode character escape code"
  | .zeroIndentation => "found an indentation indicator equal to 0"
  | .headerEnd => "did not find expected comment or line break"
  | .tabInBlock => "found a tab character where an indentation space is expected"
  | .anchorName => "did not find expected alphabetic or numeric character"
  | .tagMark => "did not find expected '!'"
  | .tagAddress => "did not find expected tag URI"
  | .tagBracket => "did not find the expected '>'"
  | .tagEnd => "did not find expected whitespace or line break"
  | .addressOctet => "did not find URI escaped octet"
  | .addressLeadingOctet => "found an incorrect leading UTF-8 octet"
  | .addressTrailingOctet => "found an incorrect trailing UTF-8 octet"
  | .directiveName => "could not find expected directive name"
  | .directiveLetter => "found unexpected non-alphabetical character"
  | .unknownDirective => "found unknown directive name"
  | .versionPoint => "did not find expected digit or '.' character"
  | .versionLength => "found extremely long version number"
  | .versionNumber => "did not find expected version number"
  | .shorthandSpace => "did not find expected whitespace"
  | .tooDeep => "exceeded max depth of 10000"
  | .documentStart => "did not find expected <document start>"
  | .repeatedVersion => "found duplicate %YAML directive"
  | .unknownVersion => "found incompatible YAML document"
  | .repeatedShorthand => "found duplicate %TAG directive"
  | .unknownShorthand => "found undefined tag handle"
  | .nodeContent => "did not find expected node content"
  | .mappingKey => "did not find expected key"
  | .sequenceEntry => "did not find expected '-' indicator"
  | .flowSequence => "did not find expected ',' or ']'"
  | .flowMapping => "did not find expected ',' or '\x7d'"
  | .unknownAnchor name => "unknown anchor '" ++ name ++ "' referenced"
  | .selfReference name => "anchor '" ++ name ++ "' value contains itself"
  | .mergeValue => "map merge requires map or sequence of maps as the value"
  | .binaryDigits => "!!binary value contains invalid base64 data"
  | .unreadable found text wanted =>
    "cannot decode " ++ found ++ " `" ++ text ++ "` as a " ++ wanted

/-- An error, with the line that its message names. -/
structure Error where
  cause : Cause
  line : Option Nat := none
  deriving DecidableEq, Repr

namespace Error

/-- The first of two lines, counted from zero, that is not the first of the text. -/
def later? (start problem : Nat) : Option Nat :=
  if start != 0 then some start else if problem != 0 then some problem else none

/-- An error in a token that began on one line and went wrong on another. -/
def inToken (cause : Cause) (start problem : Nat) : Error :=
  { cause, line := (later? start problem).map (· + 1) }

/-- An error in a collection that began on one line and went wrong on another; the
    line that is named is the one before. -/
def inCollection (cause : Cause) (start problem : Nat) : Error :=
  { cause, line := later? start problem }

/-- The text of an error. -/
def message (e : Error) : Bytes :=
  let place : Bytes := match e.line with
    | some n => "line " ++ Bytes.ofNat n ++ ": "
    | none => []
  "yaml: " ++ place ++ e.cause.text

end Error

end Codegen.Yaml
