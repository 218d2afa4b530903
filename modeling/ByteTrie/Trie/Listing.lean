import ByteTrie.Key.Text
import ByteTrie.Trie.Basic

/-!
# The debug text of a trie

The entries of a trie are listed in braces, each as the debug text of its key
and the text of its value: on one line, or with a line for each entry.
-/

namespace ByteTrie

namespace Trie

variable {V : Type}

/-- The text of an entry. -/
def entryText (valueText : V → String) (entry : Key × V) : String :=
  Key.debug entry.1 ++ ": " ++ valueText entry.2

/-- The entries on one line. -/
def listing (t : Trie V) (valueText : V → String) : String :=
  "\x7b" ++ String.intercalate ", " (t.toList.map (entryText valueText)) ++ "\x7d"

/-- The entries on lines of their own, if there are any. -/
def listingLines (t : Trie V) (valueText : V → String) : String :=
  if t.toList.isEmpty then "\x7b\x7d"
  else
    "\x7b\n" ++
      String.join (t.toList.map fun entry => "    " ++ entryText valueText entry ++ ",\n") ++
      "\x7d"

end Trie

end ByteTrie
