import TextTemplate.Path.Parser
import TextTemplate.Template.Piece

/-!
# The tokens of a template

A scanned template: its pieces with the paths in them read.  A literal keeps the place where it
stands, counted in bytes of UTF-8.  Scanning fails with the first path that cannot be read, that of
a placeholder before that of its specifier.
-/

namespace TextTemplate

/-- Where the specifier of a placeholder comes from. -/
inductive SpecifierSource where
  | inline (text : String)
  | lookup (path : Path)
  deriving DecidableEq, Repr

/-- A token of a template. -/
inductive Token where
  /-- Text that begins at byte `start`, its closing braces still doubled. -/
  | literal (start : Nat) (text : String)
  | leftBrace
  | placeholder (path : Path) (specifier : Option SpecifierSource)
  deriving DecidableEq, Repr

/-- The number of bytes of a text in UTF-8. -/
def byteLength (text : List Char) : Nat := (String.ofList text).utf8ByteSize

namespace SpecifierSource

/-- The source of the specifier that a text asks for. -/
def ofText? : SpecifierText → Except FormatError (Option SpecifierSource)
  | .absent => .ok none
  | .inline text => .ok (some (.inline (String.ofList text)))
  | .nested path => (Path.parse path).map (some ∘ .lookup)

end SpecifierSource

namespace Token

/-- The token of a piece that begins at byte `start`. -/
def ofPiece (start : Nat) : Piece → Except FormatError Token
  | .literal text => .ok (.literal start (String.ofList text))
  | .leftBrace => .ok .leftBrace
  | .placeholder identifier specifier => do
    let path ← Path.parse identifier
    let source ← SpecifierSource.ofText? specifier
    return .placeholder path source
  | .unclosed behind => do
    let path ← Path.parse behind.dropLast
    return .placeholder path none

/-- The tokens of pieces of which the first begins at byte `start`. -/
def ofPieces (start : Nat) : List Piece → Except FormatError (List Token)
  | [] => .ok []
  | piece :: rest => do
    let token ← ofPiece start piece
    let tokens ← ofPieces (start + byteLength piece.source) rest
    return token :: tokens

end Token

/-- The tokens of a template. -/
def scan (template : String) : Except FormatError (List Token) :=
  Token.ofPieces 0 (pieces template.toList)

end TextTemplate
