/-!
# Quoted texts

A string is written between quotes, and a quote inside it is written twice.
-/

namespace BlockScript.Quoted

/-- Reads each doubled quote as one. -/
def collapse : List Char → List Char
  | '"' :: '"' :: rest => '"' :: collapse rest
  | c :: rest => c :: collapse rest
  | [] => []

/-- What stands between an opening and a closing quote. -/
def inner? : List Char → Option (List Char)
  | '"' :: rest => if rest.getLast? = some '"' then some rest.dropLast else none
  | _ => none

/-- The text that a written string denotes.  Without both quotes it is taken as it stands. -/
def decode (token : List Char) : List Char :=
  collapse ((inner? token).getD token)

end BlockScript.Quoted
