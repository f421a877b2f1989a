import IndexedTyping.Proofs.Check.Law
import IndexedTyping.Proofs.Store.Triangular

namespace IndexedTyping

inductive Operation
  | newUnknown
  | resolve (t : OpenTy)
  | resolveTy (t : Ty)
  | bindUnknown (x : String) (t : OpenTy)
  | bindPrimitive (x : String)
  | typeOf (e : Term)
  | declare (e : Term) (t : OpenTy)
  | unify (a b : OpenTy)
  | checkTerm (e : Term)
  | checkStmt (s : Stmt)
  | infer (e : Term)
  | openScope (label : String) (binders : List String)
  | closeScope

namespace Operation

def run : Operation → CheckM Unit
  | newUnknown => discard CheckM.newUnknown
  | resolve t => discard (CheckM.resolve t)
  | resolveTy t => discard (CheckM.resolveTy t)
  | bindUnknown x t => CheckM.bindUnknown x t
  | bindPrimitive x => CheckM.bindPrimitive x
  | typeOf e => discard (CheckM.typeOf e)
  | declare e t => CheckM.declare e t
  | unify a b => CheckM.unify a b
  | checkTerm e => discard (CheckM.checkTerm e)
  | checkStmt s => CheckM.checkStmt s
  | infer e => discard (CheckM.infer e)
  | openScope label binders => modify (·.openScope label binders)
  | closeScope => modify Context.closeScope

def after (op : Operation) (c : Context) : Context :=
  match op.run c with
  | .ok _ d => d
  | .error _ d => d

def isScope : Operation → Bool
  | openScope .. | closeScope => true
  | _ => false

theorem after_of_obeys {R : Context → Context → Prop} {E : Context → CheckError → Prop} {op : Operation}
    (h : CheckM.Obeys R E op.run) (c : Context) : R c (op.after c) := by
  have hrun := h c
  rw [after]
  cases hr : op.run c with
  | ok a d => rwa [hr] at hrun
  | error e d =>
    rw [hr] at hrun
    exact hrun.1

end Operation

theorem CheckM.Obeys.discard {α : Type} {R : Context → Context → Prop} {E : Context → CheckError → Prop} {m : CheckM α}
    (hm : Obeys R E m) : Obeys R E (discard m) := by
  intro c
  have h := hm c
  change Ends (EStateM.map (fun _ => ()) m c) _ _
  rw [EStateM.map]
  cases hr : m c with
  | ok a d => rwa [hr] at h
  | error e d => rwa [hr] at h

namespace Law

open CheckM

variable {R : Context → Context → Prop} {E : Context → CheckError → Prop} (L : Law R E)
include L

theorem obeys_run_of_not_isScope {op : Operation} (h : op.isScope = false) : Obeys R E op.run := by
  cases op with
  | newUnknown => exact L.obeys_newUnknown.discard
  | resolve t => exact (L.obeys_resolve t).discard
  | resolveTy t => exact (L.obeys_resolveTy t).discard
  | bindUnknown x t => exact L.obeys_bindUnknown x t
  | bindPrimitive x => exact L.obeys_bindPrimitive x
  | typeOf e => exact (L.obeys_typeOf e).discard
  | declare e t => exact L.obeys_declare e t
  | unify a b => exact L.obeys_unify a b
  | checkTerm e => exact (L.obeys_checkTerm e).discard
  | checkStmt s => exact L.obeys_checkStmt s
  | infer e => exact (L.obeys_infer e).discard
  | openScope | closeScope => cases h

theorem obeys_run (hopen : ∀ c label binders, R c (c.openScope label binders)) (hclose : ∀ c, R c c.closeScope)
    (op : Operation) : Obeys R E op.run := by
  cases op with
  | openScope label binders => exact fun c => hopen c label binders
  | closeScope => exact fun c => hclose c
  | _ => exact L.obeys_run_of_not_isScope rfl

end Law

inductive Reachable : Context → Prop
  | new (options : Options) (trace : Trace) : Reachable (.new options trace)
  | after (op : Operation) : Reachable c → Reachable (op.after c)

theorem Reachable.of_obeys {P : Context → Prop} {E : Context → CheckError → Prop}
    (hnew : ∀ options trace, P (.new options trace))
    (hrun : ∀ op : Operation, CheckM.Obeys (fun c d => P c → P d) E op.run) {c : Context} (h : Reachable c) : P c := by
  induction h with
  | new options trace => exact hnew options trace
  | after op _ ih => exact Operation.after_of_obeys (hrun op) _ ih

structure Context.Grown (c : Context) : Prop where
  store : c.store.Triangular c.options.strictOccurs
  scopes : ∀ s ∈ c.scopes, s.store.Triangular c.options.strictOccurs

namespace Context.Grown

theorem openScope {c : Context} (h : c.Grown) (label : String) (binders : List String) :
    (c.openScope label binders).Grown where
  store := h.store
  scopes s hs := by
    rcases List.mem_cons.mp hs with rfl | hs
    · exact h.store
    · exact h.scopes s hs

theorem closeScope {c : Context} (h : c.Grown) : c.closeScope.Grown := by
  obtain ⟨options, trace, counter, store, judgments, scopes⟩ := c
  cases scopes with
  | nil => exact h
  | cons s outer => exact ⟨h.scopes s List.mem_cons_self, fun r hr => h.scopes r (List.mem_cons_of_mem s hr)⟩

theorem law : Law (fun c d => c.Grown → d.Grown) fun c e => c.Grown → ∀ x, e ≠ .ambiguous x where
  refl c := id
  trans hcd hde h := hde (hcd h)
  back hcd he h := he (hcd h)
  trace c t h := ⟨h.store, h.scopes⟩
  count c h := ⟨h.store, h.scopes⟩
  bind hb hs h := ⟨h.store.of_insert hb hs, h.scopes⟩
  judge _ _ h := ⟨h.store, h.scopes⟩
  scope hd h := (hd (h.openScope _ _)).closeScope
  scopeError he h := he (h.openScope _ _)
  plain he _ x := by rintro rfl; exact he
  resolveError he h x := by rintro rfl; exact h.store.not_ambiguous x he
  resolveTyError he h x := by
    rintro rfl
    rw [Store.resolveTy_eq_resolve] at he
    exact h.store.not_ambiguous x he
  bindError he h x := by
    rintro rfl
    rcases Store.binding_eq_error he with he | he | ⟨a, -, -, he⟩
    · exact h.store.not_ambiguous x he
    · exact h.store.not_ambiguous x he
    · cases he
  insertError he h x := by
    rintro rfl
    cases (Store.insert_eq_error he).2

theorem obeys_run (op : Operation) :
    CheckM.Obeys (fun c d => c.Grown → d.Grown) (fun c e => c.Grown → ∀ x, e ≠ .ambiguous x) op.run :=
  law.obeys_run (fun _ label binders h => h.openScope label binders) (fun _ h => h.closeScope) op

theorem of_reachable {c : Context} (h : Reachable c) : c.Grown :=
  h.of_obeys (fun _ _ => ⟨.nil, by simp [Context.new]⟩) obeys_run

end Context.Grown

/-- In the store of a reachable context unknowns are bound once each, a value mentions none that was bound before it,
and its own only under the lenient occurs check and as its one unknown. So no operation ever meets two bindings of
one unknown, resolving fails just where it comes to a binding that loops, and under the strict check it never fails. -/
theorem reachable_triangular {c : Context} (h : Reachable c) :
    c.store.Triangular c.options.strictOccurs ∧
    (∀ (op : Operation) x d, op.run c ≠ .error (.ambiguous x) d) ∧
    (∀ t e, c.store.resolve t = .error e → ∃ b, e = .cyclic b) ∧
    (∀ t, (∃ b, c.store.resolve t = .error (.cyclic b)) ↔ ∃ b ∈ c.store, b.Loops ∧ c.store.Reaches t b.name) ∧
    (c.options.strictOccurs = true → ∀ t, ∃ r, c.store.resolve t = .ok r) := by
  have hgrown := Context.Grown.of_reachable h
  refine ⟨hgrown.store, fun op x d hrun => ?_, fun t e he => ?_, fun t => hgrown.store.resolve_fails_iff,
    fun hstrict t => ?_⟩
  · have hop := Context.Grown.obeys_run op c
    rw [hrun] at hop
    exact hop.2 hgrown x rfl
  · rcases Store.resolve_error he with hb | ⟨y, rfl, -⟩
    · exact hb
    · exact absurd he (hgrown.store.not_ambiguous y)
  · exact (hstrict ▸ hgrown.store).exists_resolve t

theorem reachable_triangular_loop :
    let c := (Operation.bindUnknown "a" (.fn (.unknown "a") (.ground (.prim .nat)))).after (.new {} (.new false))
    Reachable c ∧ c.store = [⟨"a", .fn (.unknown "a") (.ground (.prim .nat))⟩] ∧ c.store.Triangular false ∧
      ∃ b, c.store.resolve (.app (.unknown "b") (.unknown "a")) = .error (.cyclic b) := by
  intro c
  have hc : Reachable c := .after _ (.new _ _)
  have hstore : c.store = [⟨"a", .fn (.unknown "a") (.ground (.prim .nat))⟩] := by decide
  obtain ⟨htri, -, -, hfails, -⟩ := reachable_triangular hc
  refine ⟨hc, hstore, htri, (hfails _).mpr ?_⟩
  rw [hstore]
  exact ⟨_, List.mem_singleton_self _, List.mem_cons_self, "a", by simp [OpenTy.unknowns], .refl⟩

end IndexedTyping
