/-!
# TOML values

The values of a settings text. Only strings, integers, arrays and tables are told apart; other scalars
(booleans, numbers with a fraction, dates and times, and words that only have the form of an integer)
keep their text.
-/

namespace BlockDocument.Toml

/-- A value. -/
inductive Value where
  | string (s : String)
  | integer (n : Int)
  /-- A boolean, a number with a fraction, a date or a time, or what only has the form of an integer. -/
  | other (text : String)
  | array (items : List Value)
  /-- Entries by key, no key twice. -/
  | table (entries : List (String × Value))

end BlockDocument.Toml
