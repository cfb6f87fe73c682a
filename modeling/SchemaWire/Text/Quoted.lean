import SchemaWire.Text.Blank
/-!
# Quoted text

Messages quote a text as it was given. The quotation mark and the backslash are written with a
backslash in front, and so are tabulators and line ends by their letters; control characters and
the blank characters other than the space are written by their code point.
-/

namespace SchemaWire

namespace Text

/-- A character by its code point, in hexadecimal. -/
def codePoint (c : Char) : List Char :=
  "\\u\x7b".toList ++ Nat.toDigits 16 c.toNat ++ "\x7d".toList

/-- Whether a character shows as itself. -/
def isPlain (c : Char) : Bool :=
  c = ' ' || !(c.toNat < 0x20 || (0x7f ≤ c.toNat && c.toNat < 0xa0) || isBlank c)

/-- A character as it stands between quotation marks. -/
def quoteChar (c : Char) : List Char :=
  match c with
  | '"' => ['\\', '"']
  | '\\' => ['\\', '\\']
  | '\t' => ['\\', 't']
  | '\n' => ['\\', 'n']
  | '\r' => ['\\', 'r']
  | '\x00' => ['\\', '0']
  | c => if isPlain c then [c] else codePoint c

/-- A text between quotation marks. -/
def quote (s : String) : String :=
  String.ofList ('"' :: (s.toList.flatMap quoteChar ++ ['"']))

end Text

end SchemaWire
