import Stimulus.Error

/-!
# Texts of documents

Documents and forests from texts. A text with a numeral that is too long is refused by a fault, and
any other text that is no document by an error of its format.
-/
namespace Stimulus.Document

/-- Why a text is not read; `name` is what the text is called in messages. -/
def unreadable (name : String) (error : Json.SyntaxError) : Error :=
  match error.flaw with
  | .longNumeral digits => .fault (.longNumeral digits)
  | _ => .format (.unreadable name error)

/-- Reads the text of a document; `name` is what the text is called in messages. -/
def read (name text : String) : Except Error Json := (Json.parse text).mapError (unreadable name)

/-- Text of a file, in which a carriage return with or without a line feed ends a line. -/
def joinLineEnds : List Char → List Char
  | '\r' :: '\n' :: rest => '\n' :: joinLineEnds rest
  | '\r' :: rest => '\n' :: joinLineEnds rest
  | c :: rest => c :: joinLineEnds rest
  | [] => []

/-- The forest of a file's text. -/
def loadForest (name text : String) : Except Error Forest := do
  let document ← read name (String.ofList (joinLineEnds text.toList))
  (decodeForest document).mapError .format

end Stimulus.Document
