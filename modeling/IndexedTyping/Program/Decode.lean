import IndexedTyping.Json.Printer
import IndexedTyping.Json.Reader
import IndexedTyping.Report

namespace IndexedTyping

inductive ShapeError
  | notObject (v : Json)
  | missing (key : String) (kind : Option Json)
  | notName (key : String)
  | notList
  | unknownKind (what : String) (kind : Json)
  | unknownPrim (v : Json)
  | notLiteral (v : Json)
  | notIterable (v : Json)

def Json.scalarWord : Json → String
  | bool _ => "bool"
  | int _ => "int"
  | float _ => "float"
  | _ => "NoneType"

def ShapeError.kindText : Option Json → String
  | none => "node"
  | some (.str s) => s
  | some v => v.display

def ShapeError.message : ShapeError → String
  | notObject v => "expected an object, got " ++ v.display
  | missing key kind => "missing field '" ++ key ++ "' in " ++ kindText kind
  | notName key => "field '" ++ key ++ "' must be a non-empty string"
  | notList => "'statements' must be a list"
  | unknownKind what kind => "unknown " ++ what ++ " kind: " ++ kind.display
  | unknownPrim v => "unknown primitive type: " ++ v.display
  | notLiteral v => "unsupported literal: " ++ v.display
  | notIterable v => "'" ++ v.scalarWord ++ "' object is not iterable"

namespace Json

def field? (key : String) : List (String × Json) → Option Json
  | [] => none
  | (k, v) :: rest => if k == key then some v else field? key rest

theorem sizeOf_lt_of_field? {key : String} {fields : List (String × Json)} {v : Json}
    (h : field? key fields = some v) : sizeOf v < sizeOf fields := by
  induction fields with
  | nil => simp [field?] at h
  | cons f rest ih =>
    obtain ⟨k, w⟩ := f
    simp only [field?] at h
    split at h
    · cases h
      simp
      omega
    · have := ih h
      simp
      omega

abbrev Part (v : Json) := { w : Json // sizeOf w < sizeOf v }

def field (key : String) : (v : Json) → Except ShapeError (Part v)
  | object fields =>
    match h : field? key fields with
    | some w => .ok ⟨w, by have := sizeOf_lt_of_field? h; simp; omega⟩
    | none => .error (.missing key (field? "kind" fields))
  | v => .error (.notObject v)

def nameField (key : String) (v : Json) : Except ShapeError String := do
  match (← v.field key).1 with
  | str s => if s.isEmpty then throw (.notName key) else return s
  | _ => throw (.notName key)

def kind (v : Json) : Except ShapeError Json := return (← v.field "kind").1

end Json

def Literal.ofJson : Json → Except ShapeError Literal
  | .bool b => .ok (.bool b)
  | .int (.ofNat n) => .ok (.nat n)
  | .str s => .ok (.str s)
  | v => .error (.notLiteral v)

def Prim.ofJson (v : Json) : Except ShapeError Prim :=
  match v with
  | .str s =>
    match Prim.ofName? s with
    | some p => .ok p
    | none => .error (.unknownPrim v)
  | _ => .error (.unknownPrim v)

def Term.ofJson (v : Json) : Except ShapeError Term := do
  match ← v.kind with
  | .str "var" => return .var (← v.nameField "name") none
  | .str "literal" => return .lit (← Literal.ofJson (← v.field "value").1)
  | .str "lambda" =>
    let x ← v.nameField "param"
    let ⟨body, _⟩ ← v.field "body"
    return .lam x (← Term.ofJson body)
  | .str "app" =>
    let ⟨fn, _⟩ ← v.field "function"
    let f ← Term.ofJson fn
    let ⟨arg, _⟩ ← v.field "argument"
    return .app f (← Term.ofJson arg)
  | .str "rec" =>
    let f ← v.nameField "self"
    let x ← v.nameField "param"
    let ⟨body, _⟩ ← v.field "body"
    return .recur f x (← Term.ofJson body)
  | k => throw (.unknownKind "expression" k)
termination_by sizeOf v

def Ty.ofJson (v : Json) : Except ShapeError Ty := do
  match ← v.kind with
  | .str "name" => return .name (← v.nameField "name")
  | .str "function" =>
    let ⟨dom, _⟩ ← v.field "domain"
    let t ← Ty.ofJson dom
    let ⟨cod, _⟩ ← v.field "codomain"
    return .fn t (← Ty.ofJson cod)
  | .str "application" =>
    let ⟨head, _⟩ ← v.field "head"
    let t ← Ty.ofJson head
    let ⟨arg, _⟩ ← v.field "argument"
    return .app t (← Ty.ofJson arg)
  | .str "forall" =>
    let x ← v.nameField "bound"
    let ⟨body, _⟩ ← v.field "body"
    return .all x none (← Ty.ofJson body)
  | .str "indexed" =>
    let ⟨head, _⟩ ← v.field "head"
    let t ← Ty.ofJson head
    return .indexed t (← Term.ofJson (← v.field "index").1)
  | .str "primitive" => return .prim (← Prim.ofJson (← v.field "primitive").1)
  | k => throw (.unknownKind "type" k)
termination_by sizeOf v

def Json.groupBody : (v : Json) → Option (Json.Part v)
  | .object fields =>
    match h : Json.field? "statements" fields with
    | some w => some ⟨w, by have := Json.sizeOf_lt_of_field? h; simp; omega⟩
    | none => none
  | _ => none

mutual

def Stmt.ofJson (v : Json) : Except ShapeError Stmt := do
  match ← v.kind with
  | .str "definition" =>
    let n ← v.nameField "name"
    let t ← Ty.ofJson (← v.field "type").1
    return .define n t (← Term.ofJson (← v.field "body").1)
  | .str "fix" =>
    let n ← v.nameField "name"
    let t ← Ty.ofJson (← v.field "type").1
    return .fix n t (← Term.ofJson (← v.field "body").1)
  | .str "assume" =>
    let n ← v.nameField "name"
    return .assume n (← Ty.ofJson (← v.field "type").1)
  | .str "signature" =>
    let n ← v.nameField "name"
    return .synonym n (← Ty.ofJson (← v.field "type").1)
  | .str "primitive" => return .primitive (← v.nameField "name")
  | .str "module" =>
    let n ← v.nameField "name"
    match v.groupBody with
    | none => return .group n none []
    | some ⟨body, _⟩ => return .group n none (← Stmt.ofGroup body)
  | k => throw (.unknownKind "statement" k)
termination_by sizeOf v

/-- The body of a group. A text counts as the list of its characters, an object as that of its names, and none
of these is a statement. -/
def Stmt.ofGroup (v : Json) : Except ShapeError (List Stmt) :=
  match v with
  | .list items => Stmt.ofJsonAll items
  | .str s =>
    match s.toList with
    | [] => .ok []
    | c :: _ => .error (.notObject (.str (String.singleton c)))
  | .object [] => .ok []
  | .object ((k, _) :: _) => .error (.notObject (.str k))
  | v => .error (.notIterable v)
termination_by sizeOf v

def Stmt.ofJsonAll (items : List Json) : Except ShapeError (List Stmt) :=
  match items with
  | [] => .ok []
  | v :: rest => return (← Stmt.ofJson v) :: (← Stmt.ofJsonAll rest)
termination_by sizeOf items

end

def Program.ofJson (v : Json) : Except ShapeError Program := do
  match (← v.field "statements").1 with
  | .list items => Stmt.ofJsonAll items
  | _ => throw .notList

inductive LoadError
  | malformed (flaw : Json.Flaw) (line column offset : Nat)
  | tooDeep
  | tooLong (digits : Nat)
  | shape (e : ShapeError)

namespace LoadError

def ofRead (text : String) : Json.ReadError → LoadError
  | .malformed flaw offset =>
    let (line, column) := Json.lineColumn text offset
    .malformed flaw line column offset
  | .tooDeep => .tooDeep
  | .tooLong n => .tooLong n

def message : LoadError → String
  | malformed flaw line column offset =>
    "invalid JSON: " ++ flaw.message ++ ": line " ++ toString line ++ " column " ++ toString column ++
      " (char " ++ toString offset ++ ")"
  | tooDeep => "program is nested too deeply"
  | tooLong n =>
    "Exceeds the limit (" ++ toString Json.maxDigits ++ " digits) for integer string conversion: value has " ++
      toString n ++ " digits; use sys.set_int_max_str_digits() to increase the limit"
  | shape e => e.message

def isReported : LoadError → Bool
  | tooLong _ | shape (.notIterable _) => false
  | _ => true

def report (file : Option String) (e : LoadError) : Report :=
  .new e.message { Report.Details.empty with file := file, fault := some .format }

end LoadError

def Program.load (text : String) : Except LoadError Program :=
  match Json.read text with
  | .error e => .error (.ofRead text e)
  | .ok v =>
    match Program.ofJson v with
    | .error e => .error (.shape e)
    | .ok p => .ok p

end IndexedTyping
