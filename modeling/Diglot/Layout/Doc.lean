import Diglot.Error

/-!
# Documents

A document says what is to be written without saying where on the page it will stand: pieces of
text, fresh lines at whatever indentation holds there, and text that is wrapped only if it would
be too wide. A document can also hold the fault of a tree that cannot be printed; writing stops
there.

- `Doc`: documents, joined by `++`.
- `Doc.join`, `Doc.concat`: documents in a row.
- `Doc.laidOut`: items between brackets, one to a line unless there is at most one.
-/

namespace Diglot

/-- What is to be written; `Doc.run` writes it. -/
inductive Doc where
  /-- Nothing. -/
  | empty
  /-- A piece of text. -/
  | text (s : String)
  /-- A fresh line at the current indentation. Before anything has been written the first line
  counts as fresh. -/
  | freshLine
  /-- A line feed, unless nothing has been written. -/
  | lineFeed
  /-- A text, or a document in its place if the text would end past a column. -/
  | within (width : Nat) (inline : String) (wrapped : Doc)
  /-- A document whose fresh lines are indented further. -/
  | indented (extra : String) (d : Doc)
  /-- One document after the other. -/
  | seq (a b : Doc)
  /-- A tree that cannot be printed. -/
  | fault (e : Defect)

namespace Doc

instance : Append Doc := ⟨Doc.seq⟩

instance : Coe String Doc := ⟨Doc.text⟩

/-- A text that stands there only on a condition. -/
def when (condition : Bool) (s : String) : Doc :=
  if condition then text s else empty

/-- Documents in a row, with nothing between them; `join` puts a text there. -/
def concat : List Doc → Doc
  | [] => empty
  | d :: ds => d ++ concat ds

/-- Documents in a row with a text between each two. -/
def join (separator : String) : List Doc → Doc
  | [] => empty
  | [d] => d
  | d :: ds => d ++ text separator ++ join separator ds

/-- Further items of `laidOut`, each on a line of its own after a comma. -/
def commaLines : List Doc → Doc
  | [] => empty
  | d :: ds => freshLine ++ text ", " ++ indented "  " d ++ commaLines ds

/-- Items between brackets. Up to one of them stays on the line; more go one to a line, each but
the first after a comma (`commaLines`), and what an item wraps onto later lines stays under it. -/
def laidOut (opening closing : String) : List Doc → Doc
  | [] => text opening ++ text " " ++ text closing
  | [d] => text opening ++ text " " ++ d ++ text " " ++ text closing
  | d :: ds =>
    text opening
      ++ indented "  " (freshLine ++ text "  " ++ indented "  " d ++ commaLines ds)
      ++ freshLine ++ text closing

end Doc

end Diglot
