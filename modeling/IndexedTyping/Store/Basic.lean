import IndexedTyping.Error

namespace IndexedTyping

abbrev Store := List Binding

namespace Store

def bindingsOf (s : Store) (x : String) : List Binding := s.filter (·.name == x)

/-- What `x` stands for, where `seen` are the unknowns on the way to it. Each of them has a binding of its own,
so a way longer than the store meets one of them again and `n = s.length + 1` never runs out. -/
def resolveName (s : Store) : Nat → List String → String → Except CheckError OpenTy
  | 0, _, x => .ok (.unknown x)
  | n + 1, seen, x =>
    match s.bindingsOf x with
    | [] => .ok (.unknown x)
    | [b] => if x ∈ seen then .error (.cyclic b) else b.value.bindM (s.resolveName n (x :: seen))
    | _ => .error (.ambiguous x)

def resolveUnknown (s : Store) (x : String) : Except CheckError OpenTy := s.resolveName (s.length + 1) [] x

def resolve (s : Store) (t : OpenTy) : Except CheckError OpenTy := t.bindM s.resolveUnknown

def resolveTy (s : Store) (t : Ty) : Except CheckError OpenTy := t.openM s.resolveUnknown

def binding (s : Store) (x : String) (t : OpenTy) : Except CheckError Binding := do
  let target ← s.resolve (.unknown x)
  let value ← s.resolve t
  match target with
  | .unknown y => return ⟨y, value⟩
  | _ => throw (.notUnknown x target)

/-- Whether a binding is refused because its unknown occurs in its value. Unless `strict`, a value in which that
one occurrence is the only unknown passes. -/
def refuses (strict : Bool) (b : Binding) : Bool :=
  b.value.unknowns.contains b.name && (strict || 1 < b.value.unknowns.length)

def insert (s : Store) (strict : Bool) (b : Binding) : Except CheckError Store :=
  if refuses strict b then throw (.cyclic b) else return s ++ [b]

end Store

end IndexedTyping
