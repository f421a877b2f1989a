import IndexedTyping.Proofs.Check.Law
import IndexedTyping.Proofs.OpenTy.Agreement
import IndexedTyping.Proofs.Store.Resolution

namespace IndexedTyping

namespace Context

theorem judgment?_congr (c : Context) {e f : Term} (h : e.same f = true) : c.judgment? e = c.judgment? f := by
  rw [judgment?, judgment?]
  congr 1
  funext j
  rw [Bool.eq_iff_iff, Term.same_iff, Term.same_iff, Term.same_iff.mp h]

theorem judgment?_cons (c : Context) (j : Judgment) (e : Term) :
    judgment? { c with judgments := j :: c.judgments } e = if e.same j.term then some j else c.judgment? e := by
  simp only [judgment?, List.find?_cons]
  cases e.same j.term <;> rfl

structure Later (c d : Context) : Prop where
  options : d.options = c.options
  scopes : d.scopes = c.scopes
  counter : c.counter ≤ d.counter
  store : c.store <+: d.store
  judgments : ∀ e j, c.judgment? e = some j → d.judgment? e = some j

namespace Later

theorem judge {c : Context} {e : Term} {a : OpenTy} (h : c.judgment? e = none) :
    Later c { c with judgments := ⟨e, a⟩ :: c.judgments } where
  options := rfl
  scopes := rfl
  counter := Nat.le_refl _
  store := List.prefix_rfl
  judgments f j hf := by
    rw [judgment?_cons, if_neg, hf]
    intro hsame
    rw [c.judgment?_congr hsame, h] at hf
    cases hf

theorem closeScope {c d : Context} {label : String} {binders : List String} (h : Later (c.openScope label binders) d) :
    d.closeScope =
      { c with counter := if c.options.rollback then c.counter else d.counter, trace := d.closeScope.trace } := by
  obtain ⟨options, trace, counter, store, judgments, scopes⟩ := d
  obtain rfl : scopes = _ := h.scopes
  obtain rfl : options = _ := h.options
  rfl

theorem law : Law Later fun _ _ => True where
  refl c := ⟨rfl, rfl, Nat.le_refl _, List.prefix_rfl, fun _ _ h => h⟩
  trans hcd hde := ⟨hde.options.trans hcd.options, hde.scopes.trans hcd.scopes, Nat.le_trans hcd.counter hde.counter,
    hcd.store.trans hde.store, fun e j h => hde.judgments e j (hcd.judgments e j h)⟩
  back _ _ := trivial
  trace c t := ⟨rfl, rfl, Nat.le_refl _, List.prefix_rfl, fun _ _ h => h⟩
  bind _ hs := by
    obtain ⟨-, rfl⟩ := Store.insert_eq_ok hs
    exact ⟨rfl, rfl, Nat.le_refl _, List.prefix_append _ _, fun _ _ h => h⟩
  plain _ := trivial
  resolveError _ := trivial
  bindError _ := trivial
  insertError _ := trivial
  count c := ⟨rfl, rfl, Nat.le_succ _, List.prefix_rfl, fun _ _ h => h⟩
  judge hj _ := .judge hj
  scope {c d label binders} h := by
    rw [h.closeScope]
    refine ⟨rfl, rfl, ?_, List.prefix_rfl, fun _ _ h => h⟩
    dsimp only
    split
    · exact Nat.le_refl _
    · exact h.counter
  scopeError _ := trivial
  resolveTyError _ := trivial

end Later

end Context

namespace CheckM

open Context

theorem later_body (x : String) (b : Term) : Obeys Later (fun _ _ => True) (do
    let t ← checkTerm b
    let a ← checkVar x none
    return (a, t)) :=
  Later.law.obeys_bind (Later.law.obeys_checkTerm b) fun _ => Later.law.obeys_bind (Later.law.obeys_checkVar x none)
    fun _ => Later.law.obeys_pure _

theorem later_recBody (f x : String) (b : Term) : Obeys Later (fun _ _ => True) (do
    let t ← checkTerm b
    let a ← checkVar x none
    let s ← checkVar f none
    return (a, t, s)) :=
  Later.law.obeys_bind (Later.law.obeys_checkTerm b) fun _ => Later.law.obeys_bind (Later.law.obeys_checkVar x none)
    fun _ => Later.law.obeys_bind (Later.law.obeys_checkVar f none) fun _ => Later.law.obeys_pure _

end CheckM

end IndexedTyping
