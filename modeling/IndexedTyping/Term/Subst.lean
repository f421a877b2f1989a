import IndexedTyping.Term.Basic

namespace IndexedTyping

namespace Subst

def numbered (base : String) (i : Nat) : String := base ++ "'" ++ toString i

def freshFrom (base : String) (avoid : List String) : Nat → Nat → String
  | 0, i => numbered base i
  | n + 1, i => if numbered base i ∈ avoid then freshFrom base avoid n (i + 1) else numbered base i

/-- The first of `base'1`, `base'2`, … that is not in `avoid`: one of the first `avoid.length + 1` is not. -/
def fresh (base : String) (avoid : List String) : String := freshFrom base avoid avoid.length 1

end Subst

abbrev Subst := List (String × Term)

namespace Subst

def erase (σ : Subst) (x : String) : Subst := σ.filter (·.1 != x)

def bind (σ : Subst) (x : String) (e : Term) : Subst := (x, e) :: σ.erase x

def ofList (pairs : List (String × Term)) : Subst := pairs.foldl (fun σ p => σ.bind p.1 p.2) []

def names (σ : Subst) : List String := σ.map (·.1)

def incoming (σ : Subst) (body : Term) : List String :=
  (σ.filter (fun p => body.mentions p.1)).flatMap (·.2.freeVars)

def captures (σ : Subst) (body : Term) (x : String) : Bool :=
  σ.any fun p => body.mentions p.1 && p.2.mentions x

theorem captures_iff_mem_incoming {σ : Subst} {body : Term} {x : String} :
    σ.captures body x = true ↔ x ∈ σ.incoming body := by
  simp only [captures, incoming, List.any_eq_true, List.mem_flatMap, List.mem_filter, Bool.and_eq_true,
    Term.mentions_iff_mem_freeVars]
  exact ⟨fun ⟨p, h, hb, hx⟩ => ⟨p, ⟨h, hb⟩, hx⟩, fun ⟨p, ⟨h, hb⟩, hx⟩ => ⟨p, h, hb, hx⟩⟩

def enter (σ : Subst) (body : Term) (taken : List String) (x : String) : String × Subst :=
  if σ.captures body x then
    let x' := fresh x (σ.incoming body ++ body.freeVars ++ σ.names ++ taken)
    (x', σ.bind x (.var x' none))
  else (x, σ)

end Subst

namespace Term

def subst : Term → Subst → Term
  | var x l, σ => (σ.lookup x).getD (var x l)
  | lit v, _ => lit v
  | app f a, σ => app (f.subst σ) (a.subst σ)
  | lam x b, σ =>
    let p := (σ.erase x).enter b [] x
    lam p.1 (b.subst p.2)
  | recur f x b, σ =>
    let p := ((σ.erase f).erase x).enter b [] f
    let q := p.2.enter b [p.1] x
    recur p.1 q.1 (b.subst q.2)

end Term

end IndexedTyping
