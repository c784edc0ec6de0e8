/-!
# Sequences up to an item

A never-ending sequence is read up to the first item that ends it, that item included.
-/

namespace Diglot

/-- The items through the first one with a property, or all of them if none has it. -/
def upTo {α : Type} (stop : α → Bool) : List α → List α
  | [] => []
  | a :: as => if stop a then [a] else a :: upTo stop as

end Diglot
