import IndexedTyping.Decimal.Double

namespace IndexedTyping

inductive Json
  | null
  | bool (b : Bool)
  | int (n : Int)
  | float (x : Decimal.Double)
  | str (s : String)
  | list (items : List Json)
  | object (fields : List (String × Json))

namespace Json

def setField (fields : List (String × Json)) (k : String) (v : Json) : List (String × Json) :=
  if fields.any (·.1 == k) then fields.map fun f => if f.1 == k then (k, v) else f else fields ++ [(k, v)]

end Json

end IndexedTyping
