import Codegen.Text.Ascii
import Codegen.Text.Utf8

/-!
# Markup in Angle Brackets

Tags, comments and addresses in angle brackets. Within a line they stand for
themselves and hold no text. At the beginning of a line they can open a block in
which nothing else is looked for, up to a closing text or a blank line.
-/

namespace Codegen.Markdown

namespace Html

def isNameByte (b : UInt8) : Bool := Ascii.isLetter b || Ascii.isDigit b || b = Ascii.byte '-'

def name? (text : Bytes) : Option (Bytes × Bytes) :=
  match text with
  | b :: _ => if Ascii.isLetter b then some (text.span isNameByte) else none
  | [] => none

def isAttributeStart (b : UInt8) : Bool :=
  Ascii.isLetter b || b = Ascii.byte '_' || b = Ascii.byte ':'

def isAttributeByte (b : UInt8) : Bool :=
  isNameByte b || b = Ascii.byte '_' || b = Ascii.byte ':' || b = Ascii.byte '.'

/-- Whether a byte can be in a value without quotes. -/
def isBareByte (b : UInt8) : Bool :=
  0x20 < b.toNat && !(Bytes.ofString "\"'=<>`").contains b

def value? : Bytes → Option Bytes
  | [] => none
  | b :: rest =>
    if b = Ascii.byte '"' || b = Ascii.byte '\x27' then Bytes.after? [b] rest
    else if isBareByte b then some (rest.dropWhile isBareByte)
    else none

def optionalValue (text : Bytes) : Bytes :=
  match (Bytes.strip? "=" (Ascii.trimLeft text)).bind fun rest => value? (Ascii.trimLeft rest) with
  | some rest => rest
  | none => text

/-- What follows any number of attributes; the fuel bounds how many are read. -/
def attributes : Nat → Bytes → Bytes
  | 0, text => text
  | fuel + 1, text =>
    match Ascii.trimLeft text with
    | b :: rest =>
      if isAttributeStart b && (text.head?.map Ascii.isSpace).getD false then
        attributes fuel (optionalValue (rest.dropWhile isAttributeByte))
      else text
    | [] => text

/-- A text without leading spaces, tabs and line ends; a carriage return has to come
    before a line feed. -/
def skipGaps : Bytes → Bytes
  | [] => []
  | [b] => if Ascii.isSpace b && b != Ascii.byte '\r' then [] else [b]
  | b :: c :: rest =>
    if b = Ascii.byte '\r' then
      if c = Bytes.newline then skipGaps (c :: rest) else b :: c :: rest
    else if Ascii.isSpace b then skipGaps (c :: rest)
    else b :: c :: rest

def tagEnd? (text : Bytes) : Option Bytes := (Bytes.strip? ">" text).or (Bytes.strip? "/>" text)

/-- What follows an opening tag, given what follows its bracket. -/
def openTag? (text : Bytes) : Option Bytes :=
  (name? text).bind fun (_, rest) => tagEnd? (skipGaps (attributes rest.length rest))

/-- What follows a closing tag, given what follows its bracket and slash. -/
def closeTag? (text : Bytes) : Option Bytes :=
  (name? text).bind fun (_, rest) => Bytes.strip? ">" (skipGaps rest)

/-- The text before the first replacement character or stray byte. -/
def readable (text : Bytes) : Bytes :=
  Utf8.bytesOf ((Utf8.glyphs text).takeWhile fun g => g.code != Utf8.replacement)

/-- What follows a tag, which has to be readable, given what follows its bracket. -/
def tag? (text : Bytes) : Option Bytes :=
  let body := readable text
  let rest := match Bytes.strip? "/" body with
    | some inner => closeTag? inner
    | none => openTag? body
  rest.map fun rest => text.drop (body.length - rest.length)

/-- What follows a comment, given what follows its opening. -/
def comment? (text : Bytes) : Option Bytes :=
  ((Bytes.strip? ">" text).or (Bytes.strip? "->" text)).or (Bytes.after? "-->" text)

def startsCapital (text : Bytes) : Bool :=
  text.head?.any fun b => Ascii.isLetter b && Ascii.lower b != b

/-- What follows a piece of markup, given what follows its bracket. The question
    mark that opens an instruction can also close it. -/
def inline? (text : Bytes) : Option Bytes :=
  match Bytes.strip? "!--" text, Bytes.strip? "!" text with
  | some rest, _ => comment? rest
  | none, some rest =>
    if startsCapital rest then Bytes.after? ">" rest
    else if rest.startsWith "[CDATA[" then Bytes.after? "]]>" rest
    else none
  | none, none => if text.startsWith "?" then Bytes.after? "?>" text else tag? text

def isAddressByte (b : UInt8) : Bool :=
  0x20 < b.toNat && b != Ascii.byte '<' && b != Ascii.byte '>'

/-- What follows an address with a scheme, given what follows its bracket. -/
def schemeAddress? (text : Bytes) : Option Bytes :=
  match text with
  | b :: _ =>
    let (scheme, rest) := text.span fun c =>
      Ascii.isLetter c || Ascii.isDigit c || (Bytes.ofString "+.-").contains c
    if Ascii.isLetter b && 2 ≤ scheme.length && scheme.length ≤ 33 then
      (Bytes.strip? ":" rest).bind fun rest => Bytes.strip? ">" (rest.dropWhile isAddressByte)
    else none
  | [] => none

def isMailByte (b : UInt8) : Bool :=
  Ascii.isLetter b || Ascii.isDigit b || (Bytes.ofString ".!#$%&'*+/=?^_`\x7b|\x7d~-").contains b

def isHostLabel (label : Bytes) : Bool :=
  label.all isNameByte && !label.isEmpty && label.length ≤ 63
    && label.head? != some (Ascii.byte '-') && label.getLast? != some (Ascii.byte '-')

/-- What follows a mail address, given what follows its bracket. -/
def mailAddress? (text : Bytes) : Option Bytes :=
  let (user, rest) := text.span isMailByte
  (Bytes.strip? "@" rest).bind fun rest =>
    let (host, rest) := rest.span fun b => isNameByte b || b = Ascii.byte '.'
    if !user.isEmpty && (Bytes.splitOn (Ascii.byte '.') host).all isHostLabel then Bytes.strip? ">" rest
    else none

/-- What follows an address, given what follows its bracket. -/
def address? (text : Bytes) : Option Bytes := (mailAddress? text).or (schemeAddress? text)

/-- What ends a block of markup: a line with one of some texts, or a blank line. -/
inductive Ending where
  | closing (texts : List Bytes)
  | blank
  deriving DecidableEq, Repr

def small : Bytes → Bytes
  | [] => []
  | [b] => [Ascii.lower b]
  | b :: c :: rest =>
    if b.toNat = 0xC5 && c.toNat = 0xBF then Ascii.byte 's' :: small rest
    else Ascii.lower b :: small (c :: rest)

def Ending.within (ending : Ending) (line : Bytes) : Bool :=
  match ending with
  | .closing texts => texts.any fun text => (Bytes.after? text (small line)).isSome
  | .blank => false

def rawElements : List Bytes := ["script", "pre", "style", "textarea"]

def blockElements : List Bytes :=
  List.map Bytes.ofString
    ["address", "article", "aside", "base", "basefont", "blockquote", "body", "caption", "center",
     "col", "colgroup", "dd", "details", "dialog", "dir", "div", "dl", "dt", "fieldset",
     "figcaption", "figure", "footer", "form", "frame", "frameset", "h1", "h2", "h3", "h4", "h5",
     "h6", "head", "header", "hr", "html", "iframe", "legend", "li", "link", "main", "menu",
     "menuitem", "meta", "nav", "noframes", "ol", "optgroup", "option", "p", "param", "search",
     "section", "summary", "table", "tbody", "td", "tfoot", "th", "thead", "title", "tr", "track",
     "ul"]

def isLineEnd (text : Bytes) : Bool :=
  text.isEmpty || text = [Bytes.newline] || text = [Ascii.byte '\r', Bytes.newline]

def endsName (gap : UInt8 → Bool) (rest : Bytes) : Bool :=
  isLineEnd rest || rest.head?.any (fun b => gap b || b = Ascii.byte '>') || rest.startsWith "/>"

/-- Whether a text begins with the name of an element whose content is not markup. -/
def isRawElement (text : Bytes) : Bool :=
  let text := small text
  rawElements.any fun element => (Bytes.strip? element text).any
    (endsName fun b => Ascii.isSpace b || b = Ascii.byte '\x0c')

/-- The elements that do not make a block alone on a line. -/
def bareElements : List Bytes := ["script", "pre", "style"]

/-- A block that a tag opens, given what follows its bracket. Spaces can come between
    a slash and the name; a slash with none makes a closing tag, which has no
    attributes. -/
def elementBlock? (interrupting : Bool) (text : Bytes) : Option Ending :=
  let inner := ((Bytes.strip? "/" text).map fun rest => rest.dropWhile (· = Ascii.byte ' ')).getD text
  (name? inner).bind fun (name, rest) =>
    let element := Ascii.lowerAll name
    let isSpace := (· = Ascii.byte ' ')
    let tail := attributes rest.length rest
    let alone := (tagEnd? (tail.dropWhile isSpace)).any fun t => isLineEnd (t.dropWhile isSpace)
    let closing := text.length = inner.length + 1
    if blockElements.contains element then
      if alone || endsName isSpace rest then some .blank else none
    else if alone && !interrupting && !bareElements.contains element
        && !(closing && tail.length < rest.length) then some .blank
    else none

/-- A block that a line opens, given its text after at most three spaces. A lone tag
    of another element does not interrupt a paragraph. -/
def block? (interrupting : Bool) (content : Bytes) : Option Ending :=
  (Bytes.strip? "<" content).bind fun text =>
    if isRawElement text then some (.closing (rawElements.map fun e => "</" ++ e ++ ">"))
    else if text.startsWith "!--" then some (.closing ["-->"])
    else if text.startsWith "?" then some (.closing ["?>"])
    else match Bytes.strip? "!" text with
      | some rest =>
        if startsCapital rest then some (.closing [">"])
        else if rest.startsWith "[CDATA[" then some (.closing ["]]>"])
        else none
      | none => elementBlock? interrupting text

end Html

end Codegen.Markdown
