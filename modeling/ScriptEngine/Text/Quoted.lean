import ScriptEngine.Text.Extender
import ScriptEngine.Text.Invisible

/-! Quoted texts: quotes around the text, and an escape for every character that could not be seen or
    would be misread. -/

namespace ScriptEngine.Text

/-- The code point of a character in an escape. -/
def codePointEscape (c : Char) : String :=
  "\\u\x7b" ++ String.ofList (Nat.toDigits 16 c.toNat) ++ "\x7d"

def needsCodePoint (c : Char) : Bool :=
  if c.toNat < 0x80 then c.toNat < 0x20 || c.toNat = 0x7F else isExtender c || isInvisible c

def quotedChar (c : Char) : String :=
  if c = '\x00' then "\\0"
  else if c = '\t' then "\\t"
  else if c = '\r' then "\\r"
  else if c = '\n' then "\\n"
  else if c = '"' then "\\\""
  else if c = '\\' then "\\\\"
  else if needsCodePoint c then codePointEscape c
  else c.toString

def quoted (s : String) : String := s.foldl (fun out c => out ++ quotedChar c) "\"" ++ "\""

end ScriptEngine.Text
