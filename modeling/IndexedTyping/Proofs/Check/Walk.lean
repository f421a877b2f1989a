import IndexedTyping.Proofs.Check.Action
import IndexedTyping.Proofs.OpenTy.Substitution

namespace IndexedTyping

def Term.judged : Term → List Term
  | var x l => [var x l]
  | lit v => [lit v]
  | lam x b => b.judged ++ [var x none, lam x b]
  | app f a => f.judged ++ a.judged ++ [app f a]
  | recur f x b => b.judged ++ [var x none, var f none, recur f x b]

namespace Stmt

def judged : Stmt → List Term
  | define n _ e | fix n _ e => .var n none :: e.judged
  | assume n _ => [.var n none]
  | synonym .. | primitive _ | group .. => []

def opened : Stmt → List OpenTy
  | define _ t _ | fix _ t _ | assume _ t | synonym _ t => [t.embed]
  | primitive n => [.ground (.name n)]
  | group .. => []

end Stmt

namespace CheckM

structure PhasedWalk (P : ∀ {α : Type}, CheckM α → Prop) : Prop where
  pure {α : Type} (a : α) : P (Pure.pure a : CheckM α)
  bind {α β : Type} {m : CheckM α} {k : α → CheckM β} : P m → (∀ a, P (k a)) → P (m >>= k)
  unsupported (s : Stmt) : P (throw (.unsupported s) : CheckM Unit)
  newUnknown : P newUnknown
  resolveTy (t : Ty) : P (resolveTy t)
  typeOf (e : Term) : P (typeOf e)
  bindUnknown (x : String) (t : OpenTy) : P (bindUnknown x t)
  bindPrimitive (x : String) : P (bindPrimitive x)
  unify (a b : OpenTy) : P (unify a b)
  declare (e : Term) (t : OpenTy) : P (declare e t)
  ifBound {x : String} {m m' : CheckM Unit} : P m → P m' → P (do if (← get).binds x then m else m')
  withScope {α : Type} (label : String) (binders : List String) {m : CheckM α} : P m → P (withScope label binders m)
  judged (e : Term) {m : CheckM Unit} : P m → P (judged e m)
  phase (message : String) {m : CheckM Unit} : P m →
    P (do enter "Begin Check" message; m; leave "End Check" message)

namespace PhasedWalk

variable {P : ∀ {α : Type}, CheckM α → Prop} (W : PhasedWalk P)
include W

theorem checkVar (x : String) (l : Option Location) : P (checkVar x l) := by
  have hdeclare : P (do CheckM.declare (.var x l) (← CheckM.newUnknown)) :=
    W.bind W.newUnknown fun a => W.declare _ a
  exact W.judged _ (W.ifBound hdeclare (W.bind (W.typeOf (.var x l)) fun _ => hdeclare))

theorem checkTerm (e : Term) : P (checkTerm e) := by
  induction e with
  | var x l => exact W.checkVar x l
  | lit v => exact W.judged _ (W.declare _ _)
  | lam x b ih =>
    refine W.judged _ (W.bind (W.withScope _ _ ?_) fun _ => W.declare _ _)
    exact W.bind ih fun _ => W.bind (W.checkVar x none) fun _ => W.pure _
  | app f a ihf iha =>
    exact W.judged _ (W.bind ihf fun _ => W.bind iha fun _ => W.bind W.newUnknown fun _ =>
      W.bind (W.unify _ _) fun _ => W.declare _ _)
  | recur f x b ih =>
    refine W.judged _ (W.bind (W.withScope _ _ ?_) fun _ => W.bind (W.unify _ _) fun _ => W.declare _ _)
    exact W.bind ih fun _ => W.bind (W.checkVar x none) fun _ => W.bind (W.checkVar f none) fun _ => W.pure _

theorem checkStmt (s : Stmt) : P (checkStmt s) := by
  refine W.phase s.render ?_
  cases s with
  | define n t e =>
    exact W.bind (W.resolveTy t) fun _ => W.bind (W.withScope _ _ (W.checkTerm e)) fun _ =>
      W.bind (W.unify _ _) fun _ => W.declare _ _
  | fix n t e =>
    exact W.bind (W.resolveTy t) fun _ => W.bind (W.declare _ _) fun _ =>
      W.bind (W.withScope _ _ (W.checkTerm e)) fun _ => W.unify _ _
  | assume n t => exact W.bind (W.resolveTy t) fun _ => W.declare _ _
  | synonym n t => exact W.bind (W.resolveTy t) fun _ => W.bindUnknown _ _
  | primitive n => exact W.bindPrimitive n
  | group n l body => exact W.unsupported _

theorem checkStmts (p : Program) : P (checkStmts p) := by
  induction p with
  | nil => exact W.pure ()
  | cons s rest ih => exact W.bind (W.checkStmt s) fun _ => ih

theorem checkAll (p : Program) : P (checkAll p) := W.phase "Prgm ..." (W.checkStmts p)

end PhasedWalk

structure Walk (P : ∀ {α : Type}, CheckM α → Prop) : Prop where
  pure {α : Type} (a : α) : P (Pure.pure a : CheckM α)
  bind {α β : Type} {m : CheckM α} {k : α → CheckM β} : P m → (∀ a, P (k a)) → P (m >>= k)
  unsupported (s : Stmt) : P (throw (.unsupported s) : CheckM Unit)
  emit (phase message : String) : P (emit phase message)
  enter (phase message : String) : P (enter phase message)
  leave (phase message : String) : P (leave phase message)
  newUnknown : P newUnknown
  resolveTy (t : Ty) : P (resolveTy t)
  typeOf (e : Term) : P (typeOf e)
  bindUnknown (x : String) (t : OpenTy) : P (bindUnknown x t)
  unify (a b : OpenTy) : P (unify a b)
  declare (e : Term) (t : OpenTy) : P (declare e t)
  ifBound {x : String} {m m' : CheckM Unit} : P m → P m' → P (do if (← get).binds x then m else m')
  withScope {α : Type} (label : String) (binders : List String) {m : CheckM α} : P m → P (withScope label binders m)

namespace Walk

variable {P : ∀ {α : Type}, CheckM α → Prop} (W : Walk P)
include W

theorem phased : PhasedWalk P where
  pure := W.pure
  bind := W.bind
  unsupported := W.unsupported
  newUnknown := W.newUnknown
  resolveTy := W.resolveTy
  typeOf := W.typeOf
  bindUnknown := W.bindUnknown
  bindPrimitive _ := W.bind (W.emit _ _) fun _ => W.bindUnknown _ _
  unify := W.unify
  declare := W.declare
  ifBound := W.ifBound
  withScope := W.withScope
  judged e _ hm := W.bind (W.enter _ _) fun _ => W.bind hm fun _ => W.bind (W.typeOf e) fun t =>
    W.bind (W.leave _ _) fun _ => W.pure t
  phase _ _ hm := W.bind (W.enter _ _) fun _ => W.bind hm fun _ => W.leave _ _

theorem checkVar (x : String) (l : Option Location) : P (checkVar x l) := W.phased.checkVar x l

theorem checkTerm (e : Term) : P (checkTerm e) := W.phased.checkTerm e

theorem checkStmt (s : Stmt) : P (checkStmt s) := W.phased.checkStmt s

theorem checkStmts (p : Program) : P (checkStmts p) := W.phased.checkStmts p

theorem checkAll (p : Program) : P (checkAll p) := W.phased.checkAll p

end Walk

/-- A property of actions and of what they give that bears the ways in which checking puts them together, as long as
the terms it asks about satisfy `K` and the types that come up satisfy `T`. -/
structure TypedWalk (K : Term → Prop) (T : OpenTy → Prop) (P : ∀ {α : Type}, CheckM α → (α → Prop) → Prop) : Prop where
  prim (p : Prim) : T (.ground (.prim p))
  fn {a b : OpenTy} : T a → T b → T (.fn a b)
  pure {α : Type} {a : α} {φ : α → Prop} : φ a → P (Pure.pure a : CheckM α) φ
  bind {α β : Type} {m : CheckM α} {k : α → CheckM β} {φ : α → Prop} {ψ : β → Prop} : P m φ → (∀ a, φ a → P (k a) ψ) →
    P (m >>= k) ψ
  unsupported (s : Stmt) : P (throw (.unsupported s) : CheckM Unit) fun _ => True
  emit (phase message : String) : P (emit phase message) fun _ => True
  enter (phase message : String) : P (enter phase message) fun _ => True
  leave (phase message : String) : P (leave phase message) fun _ => True
  newUnknown : P newUnknown T
  resolveTy {t : Ty} : T t.embed → P (resolveTy t) T
  typeOf {e : Term} : K e → P (typeOf e) T
  bindUnknown (x : String) {t : OpenTy} : T t → P (bindUnknown x t) fun _ => True
  unify {a b : OpenTy} : T a → T b → P (unify a b) fun _ => True
  declare {e : Term} {t : OpenTy} : K e → T t → P (declare e t) fun _ => True
  ifBound {x : String} {m m' : CheckM Unit} : P m (fun _ => True) → P m' (fun _ => True) →
    P (do if (← get).binds x then m else m') fun _ => True
  withScope {α : Type} (label : String) (binders : List String) {m : CheckM α} {φ : α → Prop} : P m φ →
    P (withScope label binders m) φ

namespace TypedWalk

variable {K : Term → Prop} {T : OpenTy → Prop} {P : ∀ {α : Type}, CheckM α → (α → Prop) → Prop} (W : TypedWalk K T P)
include W

theorem judged {e : Term} (he : K e) {m : CheckM Unit} (hm : P m fun _ => True) : P (judged e m) T :=
  W.bind (W.enter _ _) fun _ _ => W.bind hm fun _ _ => W.bind (W.typeOf he) fun _ ht => W.bind (W.leave _ _) fun _ _ =>
    W.pure ht

theorem checkVar {x : String} {l : Option Location} (hx : K (.var x l)) : P (checkVar x l) T := by
  have hdeclare : P (do CheckM.declare (.var x l) (← CheckM.newUnknown)) fun _ => True :=
    W.bind W.newUnknown fun _ ha => W.declare hx ha
  exact W.judged hx (W.ifBound hdeclare (W.bind (W.typeOf hx) fun _ _ => hdeclare))

theorem checkTerm {e : Term} (he : ∀ f ∈ e.judged, K f) : P (checkTerm e) T := by
  induction e with
  | var x l => exact W.checkVar (he _ List.mem_cons_self)
  | lit v => exact W.judged (he _ List.mem_cons_self) (W.declare (he _ List.mem_cons_self) (W.prim _))
  | lam x b ih =>
    simp only [Term.judged, List.forall_mem_append, List.forall_mem_cons] at he
    obtain ⟨hb, hx, he, -⟩ := he
    have hbody : P (do let b ← CheckM.checkTerm b; let a ← CheckM.checkVar x none; return (a, b))
        fun p => T p.1 ∧ T p.2 :=
      W.bind (ih hb) fun _ hb => W.bind (W.checkVar hx) fun _ ha => W.pure ⟨ha, hb⟩
    exact W.judged he (W.bind (W.withScope _ _ hbody) fun _ h => W.declare he (W.fn h.1 h.2))
  | app f a ihf iha =>
    simp only [Term.judged, List.forall_mem_append, List.forall_mem_cons] at he
    obtain ⟨⟨hf, ha⟩, he, -⟩ := he
    exact W.judged he (W.bind (ihf hf) fun _ hf => W.bind (iha ha) fun _ ha => W.bind W.newUnknown fun _ hr =>
      W.bind (W.unify hf (W.fn ha hr)) fun _ _ => W.declare he hr)
  | recur f x b ih =>
    simp only [Term.judged, List.forall_mem_append, List.forall_mem_cons] at he
    obtain ⟨hb, hx, hf, he, -⟩ := he
    have hbody : P (do let b ← CheckM.checkTerm b; let a ← CheckM.checkVar x none; let c ← CheckM.checkVar f none
                       return (a, b, c)) fun p => T p.1 ∧ T p.2.1 ∧ T p.2.2 :=
      W.bind (ih hb) fun _ hb => W.bind (W.checkVar hx) fun _ ha => W.bind (W.checkVar hf) fun _ hc =>
        W.pure ⟨ha, hb, hc⟩
    exact W.judged he (W.bind (W.withScope _ _ hbody) fun _ h => W.bind (W.unify h.2.1 h.2.2) fun _ _ =>
      W.declare he (W.fn h.1 h.2.1))

theorem checkStmtBody {s : Stmt} (hK : ∀ e ∈ s.judged, K e) (hT : ∀ t ∈ s.opened, T t) :
    P (checkStmtBody s) fun _ => True := by
  cases s with
  | define n t e =>
    obtain ⟨hn, he⟩ := List.forall_mem_cons.mp hK
    exact W.bind (W.resolveTy (hT _ List.mem_cons_self)) fun _ ht => W.bind (W.withScope _ _ (W.checkTerm he))
      fun _ hs => W.bind (W.unify ht hs) fun _ _ => W.declare hn ht
  | fix n t e =>
    obtain ⟨hn, he⟩ := List.forall_mem_cons.mp hK
    exact W.bind (W.resolveTy (hT _ List.mem_cons_self)) fun _ ht => W.bind (W.declare hn ht) fun _ _ =>
      W.bind (W.withScope _ _ (W.checkTerm he)) fun _ hs => W.unify ht hs
  | assume n t =>
    exact W.bind (W.resolveTy (hT _ List.mem_cons_self)) fun _ ht => W.declare (hK _ List.mem_cons_self) ht
  | synonym n t => exact W.bind (W.resolveTy (hT _ List.mem_cons_self)) fun _ ht => W.bindUnknown n ht
  | primitive n => exact W.bind (W.emit _ _) fun _ _ => W.bindUnknown n (hT _ List.mem_cons_self)
  | group n l body => exact W.unsupported _

theorem checkStmt {s : Stmt} (hK : ∀ e ∈ s.judged, K e) (hT : ∀ t ∈ s.opened, T t) : P (checkStmt s) fun _ => True :=
  W.bind (W.enter _ _) fun _ _ => W.bind (W.checkStmtBody hK hT) fun _ _ => W.leave _ _

theorem checkStmts {p : Program} (hK : ∀ s ∈ p, ∀ e ∈ s.judged, K e) (hT : ∀ s ∈ p, ∀ t ∈ s.opened, T t) :
    P (checkStmts p) fun _ => True := by
  induction p with
  | nil => exact W.pure trivial
  | cons s rest ih =>
    obtain ⟨hKs, hKrest⟩ := List.forall_mem_cons.mp hK
    obtain ⟨hTs, hTrest⟩ := List.forall_mem_cons.mp hT
    exact W.bind (W.checkStmt hKs hTs) fun _ _ => ih hKrest hTrest

end TypedWalk

end CheckM

end IndexedTyping
