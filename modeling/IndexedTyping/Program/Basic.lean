import IndexedTyping.Ty.Basic

namespace IndexedTyping

/-- `synonym` gives a type a name, `primitive` makes a name a type of its own, and `group` nests statements. -/
inductive Stmt
  | define (name : String) (ty : Ty) (body : Term)
  | fix (name : String) (ty : Ty) (body : Term)
  | assume (name : String) (ty : Ty)
  | synonym (name : String) (ty : Ty)
  | primitive (name : String)
  | group (name : String) (loc : Option Location) (body : List Stmt)
  deriving Repr

abbrev Program := List Stmt

def Stmt.render : Stmt → String
  | define n t e => "definition " ++ n ++ " : " ++ t.render ++ " := " ++ e.render ++ "."
  | fix n t e => "fix " ++ n ++ " : " ++ t.render ++ " := " ++ e.render ++ "."
  | assume n t => "assume " ++ n ++ " : " ++ t.render ++ "."
  | synonym n t => n ++ " := " ++ t.render ++ "."
  | primitive n => "primitive " ++ n ++ "."
  | group n _ _ => "module " ++ n ++ " ..."

def Program.render (p : Program) : String := "\n".intercalate (p.map Stmt.render)

end IndexedTyping
