namespace IndexedTyping.Text

structure Table where
  title : String
  header : String × String
  rows : List (String × String)

namespace Table

def width (t : Table) (column : String × String → String) : Nat :=
  t.rows.foldl (fun w r => max w (column r).length) (column t.header).length

def repeated (n : Nat) (c : Char) : String := String.ofList (List.replicate n c)

def padded (n : Nat) (s : String) : String := s ++ repeated (n - s.length) ' '

def centred (n : Nat) (s : String) : String :=
  -- a blank that cannot be shared out evenly goes to the right
  let left := (n - s.length) / 2
  padded n (repeated left ' ' ++ s)

def render (t : Table) : String :=
  let a := t.width (·.1)
  let b := t.width (·.2)
  let rule := fun (left middle right line : Char) =>
    left.toString ++ repeated (a + 2) line ++ middle.toString ++ repeated (b + 2) line ++ right.toString
  let row := fun (bar : String) (r : String × String) =>
    bar ++ " " ++ padded a r.1 ++ " " ++ bar ++ " " ++ padded b r.2 ++ " " ++ bar
  let lines := [centred (a + b + 7) t.title, rule '┏' '┳' '┓' '━', row "┃" t.header, rule '┡' '╇' '┩' '━'] ++
    t.rows.map (row "│") ++ [rule '└' '┴' '┘' '─']
  String.join (lines.map (· ++ "\n"))

end Table

end IndexedTyping.Text
