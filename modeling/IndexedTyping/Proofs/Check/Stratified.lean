import IndexedTyping.Proofs.Unify.Circle

namespace IndexedTyping

def Ty.madeOf (S : List String) : Ty → Bool
  | name x => S.contains x
  | prim _ => true
  | fn t s | app t s => t.madeOf S && s.madeOf S
  | all .. | indexed .. => false

namespace Term

def isIndex (N : List String) : Term → Bool
  | lit _ => true
  | var x _ => N.contains x
  | lam .. | app .. | recur .. => false

def binders : Term → List String
  | var .. | lit _ => []
  | lam x b => x :: b.binders
  | app f a => f.binders ++ a.binders
  | recur f x b => f :: x :: b.binders

end Term

namespace Stmt

/-- Types are indexed by literals and the names of `N`. Those are not bound in a body, and have types made of `S`. -/
def stratified (N S : List String) : Stmt → Bool
  | define n t e | fix n t e =>
    t.keys.all (·.isIndex N) && (!N.contains n || t.madeOf S) && e.binders.all (!N.contains ·)
  | assume n t => t.keys.all (·.isIndex N) && (!N.contains n || t.madeOf S)
  | synonym _ t => t.keys.all (·.isIndex N)
  | primitive _ | group .. => true

def made (S : List String) : Stmt → List String
  | primitive n => n :: S
  | synonym n t => if t.madeOf S then n :: S else S
  | define .. | fix .. | assume .. | group .. => S

end Stmt

def Program.stratified (N : List String) : List String → Program → Bool
  | _, [] => true
  | S, s :: p => s.stratified N S && Program.stratified N (s.made S) p

namespace OpenTy

def Plain (t : OpenTy) : Prop := t.Over (fun _ => False) fun _ => False

theorem Plain.keys_eq {t : OpenTy} (h : t.Plain) : t.keys = [] := List.eq_nil_iff_forall_not_mem.mpr (over_iff.mp h).1

theorem Plain.unknowns_eq {t : OpenTy} (h : t.Plain) : t.unknowns = [] :=
  List.eq_nil_iff_forall_not_mem.mpr (over_iff.mp h).2

abbrev IndexedBy (N : List String) (t : OpenTy) : Prop := t.Over (fun e => e.isIndex N = true) fun _ => True

theorem over_embed_of_madeOf {S : List String} {t : Ty} (h : t.madeOf S = true) :
    t.embed.Over (fun _ => False) (· ∈ S) := by
  induction t with
  | name x => exact List.contains_iff_mem.mp h
  | prim p => trivial
  | fn t s iht ihs | app t s iht ihs =>
    rw [Ty.madeOf, Bool.and_eq_true] at h
    exact ⟨iht h.1, ihs h.2⟩
  | all | indexed => cases h

end OpenTy

namespace Store

/-- What `x` stands for is made of bound names all the way, and without keys. -/
inductive Grounds (s : Store) : String → Prop
  | intro {b : Binding} : b ∈ s → b.value.keys = [] → (∀ y ∈ b.value.unknowns, Grounds s y) → Grounds s b.name

theorem Grounds.mono {s s' : Store} (h : s ⊆ s') {x : String} (hx : s.Grounds x) : s'.Grounds x := by
  induction hx with
  | intro hb hkeys _ ih => exact .intro (h hb) hkeys ih

theorem Grounds.plain_of_resolveName {s : Store} {n : Nat} {seen : List String} {x : String} {r : OpenTy}
    (hx : s.Grounds x) (hf : s.Fits n seen) (h : s.resolveName n seen x = .ok r) : r.Plain := by
  induction hx generalizing n seen r with
  | @intro b hb hkeys _ ih =>
    have hmem : b ∈ s.bindingsOf b.name := mem_bindingsOf.mpr ⟨hb, rfl⟩
    obtain ⟨m, rfl, hcase⟩ := resolveName_cases hf b.name
    rcases hcase with ⟨hnil, -⟩ | ⟨_, _, _, herror⟩ | ⟨b', hb', _, hf', hr⟩ | ⟨_, herror⟩
    · rw [hnil] at hmem
      cases hmem
    · rw [herror] at h
      cases h
    · rw [hb', List.mem_singleton] at hmem
      subst hmem
      rw [hr] at h
      obtain ⟨hok, rfl⟩ := OpenTy.bindM_eq_ok_iff.mp h
      have hvalue : b.value.Over (fun _ => False) fun _ => True := OpenTy.over_iff.mpr (by simp [hkeys])
      exact hvalue.bind fun y hy => ih y hy hf' (hok y hy)
    · rw [herror] at h
      cases h

theorem plain_of_resolve {s : Store} {t r : OpenTy} (ht : t.Over (fun _ => False) s.Grounds) (h : s.resolve t = .ok r) :
    r.Plain := by
  obtain ⟨hok, rfl⟩ := OpenTy.bindM_eq_ok_iff.mp h
  exact ht.bind fun x hx => ((OpenTy.over_iff.mp ht).2 x hx).plain_of_resolveName (.start s) (hok x hx)

theorem grounds_of_resolveName {s : Store} {n : Nat} {seen : List String} {x : String} {b : Binding}
    (hb : b.value.Plain) (h : s.resolveName n seen x = .ok (.unknown b.name)) : Grounds (s ++ [b]) x := by
  have hend : Grounds (s ++ [b]) b.name :=
    .intro (List.mem_append_right s List.mem_cons_self) hb.keys_eq (by simp [hb.unknowns_eq])
  induction n generalizing seen x with
  | zero =>
    cases h
    exact hend
  | succ n ih =>
    rw [resolveName] at h
    split at h
    · cases h
      exact hend
    · next b' hb' =>
      split at h
      · cases h
      · obtain ⟨hok, hbind⟩ := OpenTy.bindM_eq_ok_iff.mp h
        obtain ⟨hmem, rfl⟩ := mem_bindingsOf.mp (hb' ▸ List.mem_singleton_self b' : b' ∈ s.bindingsOf x)
        cases hvalue : b'.value with
        | unknown z =>
          rw [hvalue] at hok hbind
          have hz : Grounds (s ++ [b]) z := ih ((hok z List.mem_cons_self).trans (congrArg Except.ok hbind.symm))
          refine .intro (List.mem_append_left _ hmem) (by rw [hvalue]; rfl) fun y hy => ?_
          rw [hvalue, OpenTy.unknowns, List.mem_singleton] at hy
          exact hy ▸ hz
        | _ => rw [hvalue] at hbind; cases hbind
    · cases h

end Store

/-- All keys are literals or among `N`, these are of plain types and not bound by a scope, and the names of `S` stand
for plain types. -/
structure Context.Stratified (N S : List String) (c : Context) : Prop where
  store : c.store.Over (fun e => e.isIndex N = true) fun _ => True
  judgments : ∀ j ∈ c.judgments, j.type.IndexedBy N
  plain : ∀ j ∈ c.judgments, j.term.isIndex N = true → j.type.Plain
  free : ∀ x ∈ N, c.binds x = false
  grounds : ∀ x ∈ S, c.store.Grounds x

namespace Context

variable {N S : List String} {c d : Context}

theorem isIndex_of_same {e f : Term} (h : e.same f = true) (he : e.isIndex N = true) : f.isIndex N = true := by
  cases e with
  | lit v =>
    cases f with
    | lit w => rfl
    | _ => cases h
  | var x l =>
    cases f with
    | var y k =>
      cases Term.same_iff.mp h
      exact he
    | _ => cases h
  | _ => cases he

namespace Stratified

theorem new (N : List String) (options : Options) (trace : Trace) : (Context.new options trace).Stratified N [] where
  store := by simp [Store.Over, Context.new]
  judgments := by simp [Context.new]
  plain := by simp [Context.new]
  free := by simp [binds, Context.new]
  grounds := by simp

theorem congr (h : c.Stratified N S) (hs : d.store = c.store) (hj : d.judgments = c.judgments)
    (hscopes : d.scopes = c.scopes) : d.Stratified N S := by
  obtain ⟨_, _, _, store, judgments, scopes⟩ := d
  cases hs
  cases hj
  cases hscopes
  exact ⟨h.store, h.judgments, h.plain, h.free, h.grounds⟩

theorem plain_of_sees (h : c.Stratified N S) {t : OpenTy} (ht : t.IndexedBy N) {j : Judgment} (hj : c.Sees t j) :
    j.type.Plain := by
  obtain ⟨e, he, hj⟩ := hj
  have hindex : e.isIndex N = true := by
    rcases he with he | ⟨b, hb, -, he⟩
    · exact (OpenTy.over_iff.mp ht).1 e he
    · exact (OpenTy.over_iff.mp (h.store b hb).2).1 e he
  have hsame : e.same j.term = true := List.find?_some (p := fun j : Judgment => e.same j.term) hj
  exact h.plain j (List.mem_of_find?_eq_some hj) (isIndex_of_same hsame hindex)

theorem not_circular (h : c.Stratified N S) : ¬c.Circular := by
  have blind : ∀ {t i}, t.Plain → ¬c.Sees t i := by
    rintro t i ht ⟨e, he | ⟨b, -, ⟨x, hx, -⟩, -⟩, -⟩
    · simp [ht.keys_eq] at he
    · simp [ht.unknowns_eq] at hx
  rintro ⟨j, i, hi, hij⟩
  have hmem : j ∈ c.judgments := by
    rcases hij.cases_tail with rfl | ⟨_, -, hj⟩
    · exact hi.mem
    · exact hj.mem
  have hplain := h.plain_of_sees (h.judgments j hmem) hi
  rcases hij.cases_head with rfl | ⟨_, hk, -⟩
  · exact blind hplain hi
  · exact blind hplain hk

theorem openScope (h : c.Stratified N S) (label : String) {binders : List String} (hb : ∀ x ∈ binders, x ∉ N) :
    (c.openScope label binders).Stratified N S where
  store := h.store
  judgments := h.judgments
  plain := h.plain
  free x hx := by
    have hfree := h.free x hx
    simp only [binds] at hfree
    simp only [binds, Context.openScope, List.any_cons, hfree, Bool.or_false]
    simpa using fun hmem => hb x hmem hx
  grounds := h.grounds

theorem judge (h : c.Stratified N S) {e : Term} {t : OpenTy} (ht : t.IndexedBy N)
    (he : e.isIndex N = true → t.Plain) (tr : Trace) :
    Stratified N S { c with trace := tr, judgments := ⟨e, t⟩ :: c.judgments } where
  store := h.store
  judgments j hj := by
    rcases List.mem_cons.mp hj with rfl | hj
    · exact ht
    · exact h.judgments j hj
  plain j hj hindex := by
    rcases List.mem_cons.mp hj with rfl | hj
    · exact he hindex
    · exact h.plain j hj hindex
  free := h.free
  grounds := h.grounds

theorem ground (h : c.Stratified N S) {x : String} (hx : c.store.Grounds x) : c.Stratified N (x :: S) where
  store := h.store
  judgments := h.judgments
  plain := h.plain
  free := h.free
  grounds := List.forall_mem_cons.mpr ⟨hx, h.grounds⟩

theorem extend (h : c.Stratified N S) (hlater : Later c d)
    (hs : d.store.Over (fun e => e.isIndex N = true) fun _ => True) (hj : d.judgments = c.judgments) :
    d.Stratified N S where
  store := hs
  judgments := hj ▸ h.judgments
  plain := hj ▸ h.plain
  free x hx := by
    rw [binds, hlater.scopes]
    exact h.free x hx
  grounds x hx := (h.grounds x hx).mono hlater.store.subset

end Stratified

end Context

end IndexedTyping
