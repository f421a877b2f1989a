import IndexedTyping.Proofs.Check.Walk
import IndexedTyping.Proofs.Unify.Step

namespace IndexedTyping

def CheckError.Plain : CheckError → Prop
  | mismatch .. | unbound .. | unsupported .. | tooDeep .. => True
  | ambiguous .. | cyclic .. | notUnknown .. => False

/-- `R` relates the context before to the one after, and `E` tells which failures may come from a context. This much
has to do with binding unknowns alone. -/
structure BindingLaw (R : Context → Context → Prop) (E : Context → CheckError → Prop) : Prop where
  refl (c : Context) : R c c
  trans {c d e : Context} : R c d → R d e → R c e
  back {c d : Context} {e : CheckError} : R c d → E d e → E c e
  trace (c : Context) (t : Trace) : R c { c with trace := t }
  bind {c : Context} {x : String} {t : OpenTy} {b : Binding} {s : Store} : c.store.binding x t = .ok b →
    c.store.insert c.options.strictOccurs b = .ok s → R c { c with store := s }
  plain {c : Context} {e : CheckError} : e.Plain → E c e
  resolveError {c : Context} {t : OpenTy} {e : CheckError} : c.store.resolve t = .error e → E c e
  bindError {c : Context} {x : String} {t : OpenTy} {e : CheckError} : c.store.binding x t = .error e → E c e
  insertError {c : Context} {b : Binding} {e : CheckError} :
    c.store.insert c.options.strictOccurs b = .error e → E c e

structure Law (R : Context → Context → Prop) (E : Context → CheckError → Prop) : Prop extends BindingLaw R E where
  count (c : Context) : R c { c with counter := c.counter + 1 }
  judge {c : Context} {e : Term} {t a : OpenTy} : c.judgment? e = none → c.store.resolve t = .ok a →
    R c { c with judgments := ⟨e, a⟩ :: c.judgments }
  scope {c d : Context} {label : String} {binders : List String} : R (c.openScope label binders) d →
    R c d.closeScope
  scopeError {c : Context} {label : String} {binders : List String} {e : CheckError} :
    E (c.openScope label binders) e → E c e
  resolveTyError {c : Context} {t : Ty} {e : CheckError} : c.store.resolveTy t = .error e → E c e

namespace CheckM

variable {α β : Type} {R : Context → Context → Prop} {E : Context → CheckError → Prop}

def Obeys (R : Context → Context → Prop) (E : Context → CheckError → Prop) (m : CheckM α) : Prop :=
  ∀ c, Ends (m c) (fun _ d => R c d) fun e d => R c d ∧ E c e

theorem Obeys.of_ok {m : CheckM α} (hm : Obeys R E m) {c d : Context} {a : α} (h : m c = .ok a d) : R c d := by
  have hc := hm c
  rwa [h] at hc

end CheckM

namespace BindingLaw

open CheckM

variable {α β : Type} {R : Context → Context → Prop} {E : Context → CheckError → Prop} (L : BindingLaw R E)
include L

theorem obeys_pure (a : α) : Obeys R E (pure a : CheckM α) := fun c => L.refl c

theorem obeys_bind {m : CheckM α} {k : α → CheckM β} (hm : Obeys R E m) (hk : ∀ a, Obeys R E (k a)) :
    Obeys R E (m >>= k) := by
  intro c
  rw [ends_bind]
  refine (hm c).mono (fun a d hcd => ?_) fun e d h => h
  exact (hk a d).mono (fun _ _ hde => L.trans hcd hde) fun _ _ h => ⟨L.trans hcd h.1, L.back hcd h.2⟩

theorem obeys_throw {e : CheckError} (he : e.Plain) : Obeys R E (throw e : CheckM α) :=
  fun c => ⟨L.refl c, L.plain he⟩

theorem obeys_get : Obeys R E (get : CheckM Context) := fun c => L.refl c

theorem obeys_emit (phase message : String) : Obeys R E (emit phase message) := fun c => L.trace c _

theorem obeys_enter (phase message : String) : Obeys R E (enter phase message) := fun c => L.trace c _

theorem obeys_leave (phase message : String) : Obeys R E (leave phase message) := fun c => L.trace c _

theorem obeys_resolve (t : OpenTy) : Obeys R E (resolve t) := by
  intro c
  rw [resolve_run]
  cases h : c.store.resolve t with
  | ok a => exact L.refl c
  | error e => exact ⟨L.refl c, L.resolveError h⟩

theorem obeys_bindUnknown (x : String) (t : OpenTy) : Obeys R E (bindUnknown x t) := by
  intro c
  rw [bindUnknown_run]
  cases hb : c.store.binding x t with
  | error e => exact ⟨L.refl c, L.bindError hb⟩
  | ok b =>
    dsimp only
    cases hs : c.store.insert c.options.strictOccurs b with
    | error e => exact ⟨L.trace c _, L.insertError hs⟩
    | ok s => exact L.trans (L.bind hb hs) (L.trace _ _)

theorem obeys_bindPrimitive (x : String) : Obeys R E (bindPrimitive x) :=
  L.obeys_bind (L.obeys_emit _ _) fun _ => L.obeys_bindUnknown x _

theorem obeys_typeOf (e : Term) : Obeys R E (typeOf e) := by
  intro c
  rw [typeOf_run]
  cases c.judgment? e with
  | some j => exact L.obeys_resolve j.type c
  | none => exact ⟨L.refl c, L.plain trivial⟩

theorem congruence : Congruence (fun _ => True) (fun _ => True) fun m _ => Obeys R E m where
  mismatch _ _ := L.obeys_throw trivial
  bindUnknown _ _ := L.obeys_bindUnknown _ _
  seq hm hk := L.obeys_bind hm fun _ => hk
  typeOf _ hk := L.obeys_bind (L.obeys_typeOf _) fun t => hk t t.over_true
  resolve _ hk := L.obeys_bind (L.obeys_resolve _) fun t => hk t t.over_true
  differ hm := L.obeys_bind L.obeys_get fun c => by
    split
    · exact L.obeys_pure ()
    · exact hm
  enter := L.obeys_enter
  leave := L.obeys_leave

theorem obeys_unifyWithin (n : Nat) (a b : OpenTy) : Obeys R E (unifyWithin n a b) := by
  induction n generalizing a b with
  | zero => exact L.obeys_throw trivial
  | succ n ih => exact L.congruence.unifyWithin_succ n n (fun _ _ => ih _ _) a.over_true b.over_true

theorem obeys_unify (a b : OpenTy) : Obeys R E (unify a b) :=
  L.obeys_bind L.obeys_get fun _ => L.obeys_unifyWithin _ a b

end BindingLaw

theorem frame_law : BindingLaw (fun c d => d = { c with store := d.store, trace := d.trace }) fun _ _ => True where
  refl _ := rfl
  trans hcd hde := by
    rw [hde, hcd]
  back _ _ := trivial
  trace _ _ := rfl
  bind _ _ := rfl
  plain _ := trivial
  resolveError _ := trivial
  bindError _ := trivial
  insertError _ := trivial

namespace Law

open CheckM

variable {α β : Type} {R : Context → Context → Prop} {E : Context → CheckError → Prop} (L : Law R E)
include L

theorem obeys_newUnknown : Obeys R E newUnknown := fun c => L.trans (L.count c) (L.trace _ _)

theorem obeys_resolveTy (t : Ty) : Obeys R E (resolveTy t) := by
  intro c
  rw [resolveTy_run]
  cases h : c.store.resolveTy t with
  | ok a => exact L.refl c
  | error e => exact ⟨L.refl c, L.resolveTyError h⟩

theorem obeys_withScope (label : String) (binders : List String) {m : CheckM α} (hm : Obeys R E m) :
    Obeys R E (withScope label binders m) := by
  intro c
  have h := hm (c.openScope label binders)
  rw [withScope_run]
  cases hr : m (c.openScope label binders) with
  | ok a d => exact L.scope (hr ▸ h)
  | error e d =>
    rw [hr] at h
    exact ⟨L.scope h.1, L.scopeError h.2⟩

theorem obeys_declare (e : Term) (t : OpenTy) : Obeys R E (declare e t) := by
  intro c
  rw [declare_run]
  cases ht : c.store.resolve t with
  | error err => exact ⟨L.refl c, L.resolveError ht⟩
  | ok a =>
    dsimp only
    cases hj : c.judgment? e with
    | none => exact L.trans (L.judge hj ht) (L.trace _ _)
    | some j =>
      have hd := L.trace c (c.trace.emit "Declare" (e.render ++ " : " ++ a.render))
      exact (L.obeys_unify a j.type _).mono (fun _ _ h => L.trans hd h) fun _ _ h => ⟨L.trans hd h.1, L.back hd h.2⟩

theorem walk : Walk (Obeys R E) where
  pure := L.obeys_pure
  bind := L.obeys_bind
  unsupported _ := L.obeys_throw trivial
  emit := L.obeys_emit
  enter := L.obeys_enter
  leave := L.obeys_leave
  newUnknown := L.obeys_newUnknown
  resolveTy := L.obeys_resolveTy
  typeOf := L.obeys_typeOf
  bindUnknown := L.obeys_bindUnknown
  unify := L.obeys_unify
  declare := L.obeys_declare
  ifBound hm hm' := L.obeys_bind L.obeys_get fun c => by
    split
    · exact hm
    · exact hm'
  withScope := L.obeys_withScope

theorem obeys_checkVar (x : String) (l : Option Location) : Obeys R E (checkVar x l) := L.walk.checkVar x l

theorem obeys_checkTerm (e : Term) : Obeys R E (checkTerm e) := L.walk.checkTerm e

theorem obeys_infer (e : Term) : Obeys R E (infer e) := L.obeys_withScope _ _ (L.obeys_checkTerm e)

theorem obeys_checkStmt (s : Stmt) : Obeys R E (checkStmt s) := L.walk.checkStmt s

end Law

end IndexedTyping
