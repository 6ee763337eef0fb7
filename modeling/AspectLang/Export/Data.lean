import AspectLang.Source.Span

/-! # Structured data

What other tools are to read is handed out as `Data`: labelled records, lists, texts, numbers
and truth values. -/

namespace AspectLang

/-- Structured data. -/
inductive Data where
  | null
  | bool (value : Bool)
  | number (value : Nat)
  | text (value : String)
  | list (values : List Data)
  | record (fields : List (String × Data))

namespace Data

variable {α : Type}

/-- A list of values, each as data. -/
def ofList (data : α → Data) (xs : List α) : Data := .list (xs.map data)

/-- A value as data, or nothing. -/
def ofOption (data : α → Data) : Option α → Data
  | some a => data a
  | none => .null

/-- A list of texts. -/
def texts (xs : List String) : Data := ofList .text xs

/-- A list of numbers. -/
def numbers (xs : List Nat) : Data := ofList .number xs

end Data

/-- Both ends of a range. -/
def Span.data (s : Span) : Data := .list [.number s.start, .number s.stop]

end AspectLang
