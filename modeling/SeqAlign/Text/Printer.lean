import SeqAlign.Item

/-!
# SeqAlign.Text.Printer

The written form of a sequence: its items between brackets, with semicolons between them.
-/

namespace SeqAlign.Text

def print (items : List (Item String)) : String :=
  "[" ++ renderJoined (Item.render id) items ++ "]"

end SeqAlign.Text
