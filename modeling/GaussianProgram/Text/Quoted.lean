import GaussianProgram.Text.Hidden

/-! Quoted texts: a text between quotation marks in which quotation marks, backslashes and hidden
characters are escaped, so that the text can be read off unambiguously. -/
namespace GaussianProgram.Text

/-- A character as it stands between quotation marks. -/
def escape (c : Char) : String :=
  if c = '"' then "\\\""
  else if c = '\\' then "\\\\"
  else if c = '\n' then "\\n"
  else if c = '\r' then "\\r"
  else if c = '\t' then "\\t"
  else if c = '\x00' then "\\0"
  else if isHidden c then "\\u\x7b" ++ String.ofList (Nat.toDigits 16 c.toNat) ++ "\x7d"
  else c.toString

def quoted (text : String) : String :=
  "\"" ++ String.join (text.toList.map escape) ++ "\""

end GaussianProgram.Text
