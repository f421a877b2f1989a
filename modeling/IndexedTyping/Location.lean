namespace IndexedTyping

structure Location where
  line : Int
  column : Int
  file : Option String
  deriving DecidableEq, Repr

def Location.render (l : Location) : String :=
  let place := toString l.line ++ ":" ++ toString l.column
  match l.file with
  | none | some "" => place
  | some f => f ++ ":" ++ place

end IndexedTyping
