import ByteTrie.Key.Basic
import ByteTrie.Text.Hidden
import ByteTrie.Text.Quoted
import ByteTrie.Text.Utf8

/-!
# Keys and text

A key equals a text when its bytes are those of the text. In its debug text a key
that is text is written in quotes, with escapes; any other is written as bytes in
hexadecimal digits.
-/

namespace ByteTrie.Key

/-- A key is the bytes of a text. -/
def equalsText (key : Key) (content : List Char) : Bool := key == Utf8.encode content

/-- The debug text of a key, in which the given characters are escaped. -/
def text (hidden : Char → Bool) (key : Key) : List Char :=
  match Utf8.decode key with
  | .ok content => "Key(".toList ++ Quoted.quote hidden content ++ [')']
  | .error _ => "Key".toList ++ Hex.bracketed key

/-- The debug text of a key. -/
def debug (key : Key) : String := String.ofList (text Hidden.isHidden key)

end ByteTrie.Key
