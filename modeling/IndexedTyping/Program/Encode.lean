import IndexedTyping.Check
import IndexedTyping.Json.Basic

namespace IndexedTyping

def Literal.toJson : Literal → Json
  | .nat n => .int n
  | .bool b => .bool b
  | .str s => .str s

namespace Json

def node (kind : String) (fields : List (String × Json)) : Json := .object (("kind", .str kind) :: fields)

end Json

def Term.toJson : Term → Json
  | var x _ => .node "var" [("name", .str x)]
  | lit v => .node "literal" [("value", v.toJson)]
  | lam x b => .node "lambda" [("param", .str x), ("body", b.toJson)]
  | app f a => .node "app" [("function", f.toJson), ("argument", a.toJson)]
  | recur f x b => .node "rec" [("self", .str f), ("param", .str x), ("body", b.toJson)]

def Ty.toJson : Ty → Json
  | name x => .node "name" [("name", .str x)]
  | prim p => .node "primitive" [("primitive", .str p.render)]
  | fn t s => .node "function" [("domain", t.toJson), ("codomain", s.toJson)]
  | app t s => .node "application" [("head", t.toJson), ("argument", s.toJson)]
  | all x _ t => .node "forall" [("bound", .str x), ("body", t.toJson)]
  | indexed t e => .node "indexed" [("head", t.toJson), ("index", e.toJson)]

mutual

def Stmt.toJson : Stmt → Json
  | .define n t e => .node "definition" [("name", .str n), ("type", t.toJson), ("body", e.toJson)]
  | .fix n t e => .node "fix" [("name", .str n), ("type", t.toJson), ("body", e.toJson)]
  | .assume n t => .node "assume" [("name", .str n), ("type", t.toJson)]
  | .synonym n t => .node "signature" [("name", .str n), ("type", t.toJson)]
  | .primitive n => .node "primitive" [("name", .str n)]
  | .group n _ body => .node "module" [("name", .str n), ("statements", .list (Stmt.toJsonAll body))]

def Stmt.toJsonAll : List Stmt → List Json
  | [] => []
  | s :: rest => s.toJson :: Stmt.toJsonAll rest

end

def Program.toJson (p : Program) : Json := .object [("statements", .list (Stmt.toJsonAll p))]

def Context.resolved (c : Context) : Except CheckError (List (Term × OpenTy)) :=
  c.judgments.mapM fun j => return (j.term, ← c.store.resolve j.type)

def Context.toJson (c : Context) : Except CheckError Json := do
  let judgments ← c.resolved
  return .object [("ok", .bool true),
    ("declarations", .list (judgments.map fun (e, t) => .object [("expr", .str e.render), ("type", .str t.render)])),
    ("rewrites", .list (c.store.map fun b => .str b.render))]

def Diagnostic.toJson (d : Diagnostic) : Json :=
  .object [("ok", .bool false), ("diagnostic", .object [("kind", .str d.fault.tag), ("message", .str d.message),
    ("operands", .list (d.operands.map .str))])]

def Outcome.toJson (o : Outcome) : Except CheckError Json :=
  match o.error? with
  | some e => return e.diagnostic.toJson
  | none => o.context.toJson

end IndexedTyping
