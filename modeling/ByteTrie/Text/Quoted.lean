import ByteTrie.Text.Hex

/-!
# Text in quotes

A quote and a backslash are always escaped, and so are the characters that a
reader would not see, which are the argument `hidden`: the common controls by a
letter, all others by their number.
-/

namespace ByteTrie.Quoted

/-- The letter that stands for a character after a backslash. -/
def shortEscape? (c : Char) : Option Char :=
  if c = '\x00' then some '0'
  else if c = '\t' then some 't'
  else if c = '\n' then some 'n'
  else if c = '\r' then some 'r'
  else if c = '"' then some '"'
  else if c = '\\' then some '\\'
  else none

/-- A character as it stands in quotes. -/
def escape (hidden : Char → Bool) (c : Char) : List Char :=
  match shortEscape? c with
  | some letter => ['\\', letter]
  | none =>
      if hidden c then ['\\', 'u', '\x7b'] ++ Hex.number c.toNat ++ ['\x7d']
      else [c]

/-- A text in quotes. -/
def quote (hidden : Char → Bool) (text : List Char) : List Char :=
  '"' :: text.flatMap (escape hidden) ++ ['"']

@[simp] theorem quote_nil (hidden : Char → Bool) : quote hidden [] = ['"', '"'] := rfl

end ByteTrie.Quoted
