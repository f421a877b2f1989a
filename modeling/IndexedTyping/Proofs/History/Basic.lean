import IndexedTyping.Proofs.Check.Action
import IndexedTyping.Proofs.Unify.Plan
import Mathlib.Data.List.Chain

/-!
Checking with everything put down that it goes through. The contexts between one action and the next are kept, those
inside of scopes that are closed by now as well, and so is every type that an action has given. Without all this it is
checking as before.
-/

namespace IndexedTyping

def Store.unknowns (s : Store) : List String := s.flatMap fun b => b.name :: b.value.unknowns

def Context.unknowns (c : Context) : List String :=
  c.store.unknowns ++ c.judgments.flatMap (·.type.unknowns) ++
    c.scopes.flatMap fun s => s.store.unknowns ++ s.judgments.flatMap (·.type.unknowns)

structure Moment where
  context : Context
  found : List OpenTy

def Moment.unknowns (m : Moment) : List String := m.context.unknowns ++ m.found.flatMap (·.unknowns)

inductive Context.Change (c : Context) : Context → Prop
  | trace (t : Trace) : Change c { c with trace := t }
  | count (t : Trace) : Change c { c with trace := t, counter := c.counter + 1 }
  | bind (t : Trace) (b : Binding) : Change c { c with trace := t, store := c.store ++ [b] }
  | judge (j : Judgment) : Change c { c with judgments := j :: c.judgments }
  | openScope (label : String) (binders : List String) : Change c (c.openScope label binders)
  | closeScope : Change c c.closeScope

structure History where
  now : Moment
  past : List Moment

namespace History

def start (c : Context) : History := ⟨⟨c, []⟩, []⟩

def moments (h : History) : List Moment := h.now :: h.past

def counter (h : History) : Nat := h.now.context.counter

def next (h : History) (c : Context) (types : List OpenTy) : History := ⟨⟨c, types ++ h.now.found⟩, h.moments⟩

def Linked (h : History) : Prop :=
  h.moments.IsChain fun m m' => m'.context.Change m.context ∧ m'.found <:+ m.found

end History

abbrev HistoryM := EStateM CheckError History

namespace HistoryM

variable {α : Type}

def forget : EStateM.Result CheckError History α → EStateM.Result CheckError Context α
  | .ok a h => .ok a h.now.context
  | .error e h => .error e h.now.context

def final : EStateM.Result CheckError History α → History
  | .ok _ h | .error _ h => h

def step (types : α → List OpenTy) (m : CheckM α) : HistoryM α := fun h =>
  match m h.now.context with
  | .ok a c => .ok a (h.next c (types a))
  | .error e c => .error e (h.next c [])

def act (m : CheckM Unit) : HistoryM Unit := step (fun _ => []) m

def find (m : CheckM OpenTy) : HistoryM OpenTy := step (fun t => [t]) m

def withScope (label : String) (binders : List String) (action : HistoryM α) : HistoryM α := fun h =>
  match action (h.next (h.now.context.openScope label binders) []) with
  | .ok a h => .ok a (h.next h.now.context.closeScope [])
  | .error e h => .error e (h.next h.now.context.closeScope [])

def carryOut (unify : OpenTy → OpenTy → HistoryM Unit) (a b : OpenTy) : Plan → HistoryM Unit
  | .bind x t => act (CheckM.bindUnknown x t)
  | .parts p q p' q' => do unify p q; unify p' q'
  | .quantified e f p q => do
    let r ← find (CheckM.typeOf e)
    let s ← find (CheckM.typeOf f)
    unify r s
    unify p q
  | .indexed p q e f => do
    unify p q
    let r ← find (CheckM.typeOf e)
    let s ← find (CheckM.typeOf f)
    unify r s
  | .swap => unify b a
  | .clash => throw (.mismatch a b)

def unifyWithin : Nat → OpenTy → OpenTy → HistoryM Unit
  | 0, a, b => throw (.tooDeep a b)
  | n + 1, a, b => do
    let a ← find (CheckM.resolve a)
    let b ← find (CheckM.resolve b)
    unless a.same (← get).now.context.options.budget b do
      let message := a.render ++ " <~> " ++ b.render
      act (CheckM.enter "Begin Unify" message)
      carryOut (unifyWithin n) a b (a.plan b)
      act (CheckM.leave "End Unify" message)

def unify (a b : OpenTy) : HistoryM Unit := do unifyWithin (← get).now.context.options.depth a b

def declare (e : Term) (t : OpenTy) : HistoryM Unit := do
  let t ← find (CheckM.resolve t)
  act (CheckM.emit "Declare" (e.render ++ " : " ++ t.render))
  match (← get).now.context.judgment? e with
  | some j => unify t j.type
  | none => act (modify fun c => { c with judgments := ⟨e, t⟩ :: c.judgments })

def judged (e : Term) (action : HistoryM Unit) : HistoryM OpenTy := do
  act (CheckM.enter "Begin Check" e.render)
  action
  let t ← find (CheckM.typeOf e)
  act (CheckM.leave "End Check" (e.render ++ " : " ++ t.render))
  return t

def checkVar (x : String) (l : Option Location) : HistoryM OpenTy :=
  judged (.var x l) do
    unless (← get).now.context.binds x do
      let _ ← find (CheckM.typeOf (.var x l))
    declare (.var x l) (← find CheckM.newUnknown)

def checkTerm : Term → HistoryM OpenTy
  | .var x l => checkVar x l
  | .lit v => judged (.lit v) (declare (.lit v) (.ground (.prim v.prim)))
  | .lam x body => judged (.lam x body) do
    let (a, b) ← withScope ("abstraction " ++ x) [x] do
      let b ← checkTerm body
      let a ← checkVar x none
      return (a, b)
    declare (.lam x body) (.fn a b)
  | .app f arg => judged (.app f arg) do
    let a ← checkTerm f
    let b ← checkTerm arg
    let c ← find CheckM.newUnknown
    unify a (.fn b c)
    declare (.app f arg) c
  | .recur f x body => judged (.recur f x body) do
    let (a, b, c) ← withScope ("recursion " ++ f) [f, x] do
      let b ← checkTerm body
      let a ← checkVar x none
      let c ← checkVar f none
      return (a, b, c)
    unify b c
    declare (.recur f x body) (.fn a b)

def checkStmtBody : Stmt → HistoryM Unit
  | .define n t e => do
    let t ← find (CheckM.resolveTy t)
    let s ← withScope ("definition " ++ n) [] (checkTerm e)
    unify t s
    declare (.var n none) t
  | .fix n t e => do
    let t ← find (CheckM.resolveTy t)
    declare (.var n none) t
    let s ← withScope ("fix " ++ n) [] (checkTerm e)
    unify t s
  | .assume n t => do declare (.var n none) (← find (CheckM.resolveTy t))
  | .synonym n t => do act (CheckM.bindUnknown n (← find (CheckM.resolveTy t)))
  | .primitive n => do
    act (CheckM.emit "Primitive" n)
    act (CheckM.bindUnknown n (.ground (.name n)))
  | .group n l body => throw (.unsupported (.group n l body))

def checkStmt (s : Stmt) : HistoryM Unit := do
  act (CheckM.enter "Begin Check" s.render)
  checkStmtBody s
  act (CheckM.leave "End Check" s.render)

def checkStmts : List Stmt → HistoryM Unit
  | [] => pure ()
  | s :: rest => do
    checkStmt s
    checkStmts rest

def checkAll (p : Program) : HistoryM Unit := do
  act (CheckM.enter "Begin Check" "Prgm ...")
  checkStmts p
  act (CheckM.leave "End Check" "Prgm ...")

def Follows (m' : HistoryM α) (m : CheckM α) : Prop := ∀ h, forget (m' h) = m h.now.context

namespace Follows

variable {β : Type} {m' : HistoryM α} {m : CheckM α}

theorem bind {k' : α → HistoryM β} {k : α → CheckM β} (hm : Follows m' m) (hk : ∀ a, Follows (k' a) (k a)) :
    Follows (m' >>= k') (m >>= k) := by
  intro h
  have hrun := hm h
  cases hr : m' h with
  | ok a h' =>
    rw [hr] at hrun
    rw [CheckM.bind_ok hr, CheckM.bind_ok hrun.symm]
    exact hk a h'
  | error e h' =>
    rw [hr] at hrun
    rw [CheckM.bind_error hr, CheckM.bind_error hrun.symm]
    rfl

theorem pure (a : α) : Follows (pure a) (pure a) := fun _ => rfl

theorem throw (e : CheckError) : Follows (α := α) (throw e) (throw e) := fun _ => rfl

theorem step (types : α → List OpenTy) (m : CheckM α) : Follows (step types m) m := by
  intro h
  rw [HistoryM.step]
  cases m h.now.context <;> rfl

theorem act (m : CheckM Unit) : Follows (act m) m := step _ m

theorem find (m : CheckM OpenTy) : Follows (find m) m := step _ m

theorem of_get {k' : History → HistoryM α} {k : Context → CheckM α}
    (hk : ∀ h, forget (k' h h) = k h.now.context h.now.context) : Follows (get >>= k') (get >>= k) :=
  hk

theorem ite {q : Context → Bool} {k' : HistoryM α} {k : CheckM α} (hm : Follows m' m) (hk : Follows k' k) :
    Follows (do if q (← get).now.context then m' else k') (do if q (← get) then m else k) := by
  refine .of_get fun h => ?_
  split
  · exact hm h
  · exact hk h

theorem withScope (hm : Follows m' m) (label : String) (binders : List String) :
    Follows (withScope label binders m') (CheckM.withScope label binders m) := by
  intro h
  have hrun := hm (h.next (h.now.context.openScope label binders) [])
  rw [HistoryM.withScope, CheckM.withScope_run]
  change _ = m (h.now.context.openScope label binders) at hrun
  rw [← hrun]
  cases m' (h.next (h.now.context.openScope label binders) []) <;> rfl

end Follows

theorem follows_carryOut {u' : OpenTy → OpenTy → HistoryM Unit} {u : OpenTy → OpenTy → CheckM Unit}
    (hu : ∀ a b, Follows (u' a b) (u a b)) (a b : OpenTy) (p : Plan) :
    Follows (carryOut u' a b p) (CheckM.carryOut u a b p) := by
  cases p with
  | bind x t => exact .act _
  | parts p q p' q' => exact (hu p q).bind fun _ => hu p' q'
  | quantified e f p q =>
    exact (Follows.find _).bind fun r => (Follows.find _).bind fun s => (hu r s).bind fun _ => hu p q
  | indexed p q e f => exact (hu p q).bind fun _ => (Follows.find _).bind fun r => (Follows.find _).bind fun s => hu r s
  | swap => exact hu b a
  | clash => exact .throw _

theorem follows_unifyWithin (n : Nat) (a b : OpenTy) : Follows (unifyWithin n a b) (CheckM.unifyWithin n a b) := by
  induction n generalizing a b with
  | zero => exact .throw _
  | succ n ih =>
    refine (Follows.find _).bind fun a => (Follows.find _).bind fun b => ?_
    refine .ite (q := fun c => a.same c.options.budget b) (.pure ()) ?_
    rw [CheckM.unifyStep_eq_carryOut]
    exact (Follows.act _).bind fun _ => (follows_carryOut ih a b _).bind fun _ => .act _

theorem follows_unify (a b : OpenTy) : Follows (unify a b) (CheckM.unify a b) :=
  fun h => follows_unifyWithin h.now.context.options.depth a b h

theorem follows_declare (e : Term) (t : OpenTy) : Follows (declare e t) (CheckM.declare e t) := by
  refine (Follows.find _).bind fun t => (Follows.act _).bind fun _ => .of_get fun h => ?_
  cases h.now.context.judgment? e with
  | some j => exact follows_unify t j.type h
  | none => rfl

theorem follows_judged (e : Term) {m' : HistoryM Unit} {m : CheckM Unit} (hm : Follows m' m) :
    Follows (judged e m') (CheckM.judged e m) :=
  (Follows.act _).bind fun _ => hm.bind fun _ => (Follows.find _).bind fun t => (Follows.act _).bind fun _ => .pure t

theorem follows_checkVar (x : String) (l : Option Location) : Follows (checkVar x l) (CheckM.checkVar x l) := by
  have hdeclare : Follows (do declare (.var x l) (← find CheckM.newUnknown))
      (do CheckM.declare (.var x l) (← CheckM.newUnknown)) := (Follows.find _).bind fun t => follows_declare _ t
  exact follows_judged _ (.ite (q := fun c => c.binds x) hdeclare ((Follows.find _).bind fun _ => hdeclare))

theorem follows_checkTerm (e : Term) : Follows (checkTerm e) (CheckM.checkTerm e) := by
  induction e with
  | var x l => exact follows_checkVar x l
  | lit v => exact follows_judged _ (follows_declare _ _)
  | lam x b ih =>
    refine follows_judged _ (.bind (.withScope ?_ _ _) fun _ => follows_declare _ _)
    exact ih.bind fun _ => (follows_checkVar x none).bind fun _ => .pure _
  | app f a ihf iha =>
    exact follows_judged _ (ihf.bind fun _ => iha.bind fun _ => (Follows.find _).bind fun _ =>
      (follows_unify _ _).bind fun _ => follows_declare _ _)
  | recur f x b ih =>
    refine follows_judged _ (.bind (.withScope ?_ _ _) fun _ => (follows_unify _ _).bind fun _ => follows_declare _ _)
    exact ih.bind fun _ => (follows_checkVar x none).bind fun _ => (follows_checkVar f none).bind fun _ => .pure _

theorem follows_checkStmtBody (s : Stmt) : Follows (checkStmtBody s) (CheckM.checkStmtBody s) := by
  cases s with
  | define n t e =>
    exact (Follows.find _).bind fun _ => ((follows_checkTerm e).withScope _ _).bind fun _ =>
      (follows_unify _ _).bind fun _ => follows_declare _ _
  | fix n t e =>
    exact (Follows.find _).bind fun _ => (follows_declare _ _).bind fun _ =>
      ((follows_checkTerm e).withScope _ _).bind fun _ => follows_unify _ _
  | assume n t => exact (Follows.find _).bind fun _ => follows_declare _ _
  | synonym n t => exact (Follows.find _).bind fun _ => .act _
  | primitive n => exact (Follows.act _).bind fun _ => .act _
  | group n l body => exact .throw _

theorem follows_checkStmts (p : Program) : Follows (checkStmts p) (CheckM.checkStmts p) := by
  induction p with
  | nil => exact .pure ()
  | cons s p ih =>
    have hstmt : Follows (checkStmt s) (CheckM.checkStmt s) :=
      (Follows.act _).bind fun _ => (follows_checkStmtBody s).bind fun _ => .act _
    exact hstmt.bind fun _ => ih

theorem follows_checkAll (p : Program) : Follows (checkAll p) (CheckM.checkAll p) :=
  (Follows.act _).bind fun _ => (follows_checkStmts p).bind fun _ => .act _

end HistoryM

end IndexedTyping
