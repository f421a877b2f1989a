import IndexedTyping.Proofs.Check.Flat
import IndexedTyping.Proofs.Typing.Program

namespace IndexedTyping

open OpenTy CheckM

namespace OpenTy

def Atomic : OpenTy → Prop
  | ground (.name _) | ground (.prim _) | unknown _ => True
  | fn a b | app a b => a.Atomic ∧ b.Atomic
  | ground (.fn ..) | ground (.app ..) | ground (.all ..) | ground (.indexed ..) | all .. | indexed .. => False

namespace Atomic

theorem firstOrder {a : OpenTy} (h : a.Atomic) : a.FirstOrder := by
  fun_induction Atomic a with
  | case4 a b iha ihb | case5 a b iha ihb => exact ⟨iha h.1, ihb h.2⟩
  | _ => trivial

theorem spread_eq {a : OpenTy} (h : a.Atomic) : a.spread = a := by
  fun_induction Atomic a with
  | case4 a b iha ihb | case5 a b iha ihb => simp [spread, iha h.1, ihb h.2]
  | case1 | case2 | case3 => rfl
  | _ => cases h

theorem eq_of_agree {a b : OpenTy} (ha : a.Atomic) (hb : b.Atomic) (h : Agree a b) : a = b := by
  rw [← ha.spread_eq, ← hb.spread_eq, h]

theorem hereditary : Hereditary Atomic where
  unknown _ := trivial
  prim _ := trivial
  fn ha hb := ⟨ha, hb⟩
  part {p a} ha hp := by
    fun_cases Atomic a with
    | case4 a b | case5 a b => rcases List.mem_pair.mp hp with rfl | rfl; exacts [ha.1, ha.2]
    | case1 | case2 | case3 => cases hp
    | _ => cases ha
  bind {t θ} ht hθ := by
    fun_induction Atomic t with
    | case4 a b iha ihb | case5 a b iha ihb =>
      simp only [unknowns, List.mem_append] at hθ
      exact ⟨iha ht.1 fun x hx => hθ x (.inl hx), ihb ht.2 fun x hx => hθ x (.inr hx)⟩
    | case3 x => exact hθ x List.mem_cons_self
    | case1 | case2 => trivial
    | _ => cases ht

end Atomic

end OpenTy

theorem Ty.FirstOrder.atomic_embed {t : Ty} (h : t.FirstOrder) : t.embed.Atomic := by
  induction t with
  | name x => trivial
  | prim p => trivial
  | fn t s iht ihs => exact ⟨iht h.1, ihs h.2⟩
  | app t s iht ihs => exact ⟨iht h.1, ihs h.2⟩
  | all x l t => exact h.elim
  | indexed t e => exact h.elim

namespace Stmt

def FirstOrder : Stmt → Prop
  | define _ t _ | fix _ t _ | assume _ t | synonym _ t => t.FirstOrder
  | primitive _ | group .. => True

def HoldsIn (c : Context) : Stmt → Prop
  | define n t _ | fix n t _ | assume n t => ∃ a, typeOf (.var n none) c = .ok a c ∧ c.store.resolveTy t = .ok a
  | synonym n t => ∃ a, c.store.resolve (.unknown n) = .ok a ∧ c.store.resolveTy t = .ok a
  | primitive n => c.store.resolve (.unknown n) = .ok (.ground (.name n))
  | group .. => False

def Equated (c : Context) : Stmt → Prop
  | define n t _ | fix n t _ | assume n t =>
    ∃ j, c.judgment? (.var n none) = some j ∧ c.store.apply j.type = c.store.apply t.embed
  | synonym n t => c.store.apply (.unknown n) = c.store.apply t.embed
  | primitive n => c.store.apply (.unknown n) = c.store.apply (.ground (.name n))
  | group .. => False

end Stmt

theorem Stmt.Equated.later {c d : Context} (h : c.Later d) {s : Stmt} (hs : s.Equated c) : s.Equated d := by
  cases s with
  | define | fix | assume =>
    obtain ⟨j, hj, heq⟩ := hs
    exact ⟨j, h.judgments _ j hj, Store.apply_eq_of_prefix h.store heq⟩
  | synonym | primitive => exact Store.apply_eq_of_prefix h.store hs
  | group => exact hs

structure Context.Simple (c : Context) : Prop where
  strict : c.options.strictOccurs = true
  grown : c.Grown
  atomic : c.Throughout Atomic

namespace Context.Simple

variable {c d : Context} {a b : OpenTy} {n : String}

theorem triangular (hc : c.Simple) : c.store.Triangular true := hc.strict ▸ hc.grown.store

theorem flat (hc : c.Simple) : c.Flat where
  strict := hc.strict
  grown := hc.grown
  firstOrder := ⟨fun b hb => (hc.atomic.store b hb).firstOrder, fun j hj => (hc.atomic.judgments j hj).firstOrder,
    fun s hs => ⟨fun b hb => ((hc.atomic.scopes s hs).1 b hb).firstOrder,
      fun j hj => ((hc.atomic.scopes s hs).2 j hj).firstOrder⟩⟩

theorem trace (hc : c.Simple) (t : Trace) : Simple { c with trace := t } :=
  ⟨hc.strict, ⟨hc.grown.store, hc.grown.scopes⟩, ⟨hc.atomic.store, hc.atomic.judgments, hc.atomic.scopes⟩⟩

theorem step {α : Type} {m : CheckM α} {φ : α → Prop} (hlater : Obeys Later (fun _ _ => True) m)
    (hgrown : Obeys (fun c d => c.Grown → d.Grown) (fun c e => c.Grown → ∀ x, e ≠ .ambiguous x) m)
    (hkeeps : Keeps Atomic m φ) (hc : c.Simple) {r : α} (h : m c = .ok r d) : c.Later d ∧ d.Simple ∧ φ r := by
  have hcd := hlater.of_ok h
  obtain ⟨hatomic, hr⟩ := hkeeps.of_ok hc.atomic h
  exact ⟨hcd, ⟨hcd.options ▸ hc.strict, hgrown.of_ok h hc.grown, hatomic⟩, hr⟩

theorem body (hc : c.Simple) {label : String} {e : Term} (h : withScope label [] (checkTerm e) c = .ok a d) :
    c.Later d ∧ d.Simple ∧ a.Atomic :=
  step (Later.law.obeys_withScope _ _ (Later.law.obeys_checkTerm e))
    (Grown.law.obeys_withScope _ _ (Grown.law.obeys_checkTerm e)) (Atomic.hereditary.keeps_body label e) hc h

theorem resolve (hc : c.Simple) (t : OpenTy) : c.store.resolve t = .ok (c.store.apply t) :=
  hc.triangular.resolve_eq_apply t

theorem resolveTy (hc : c.Simple) (t : Ty) : c.store.resolveTy t = .ok (c.store.apply t.embed) := by
  rw [Store.resolveTy_eq_resolve, hc.resolve]

theorem resolveTy_eq_ok (hc : c.Simple) {t : Ty} (ht : t.FirstOrder) (h : CheckM.resolveTy t c = .ok a d) :
    d = c ∧ a = c.store.apply t.embed ∧ a.Atomic := by
  rw [resolveTy_run, hc.resolveTy] at h
  cases h
  exact ⟨rfl, rfl, Atomic.hereditary.resolve hc.atomic.store ht.atomic_embed (hc.resolve _)⟩

theorem apply_apply_of_later (hc : c.Simple) (h : c.Later d) (t : OpenTy) :
    d.store.apply (c.store.apply t) = d.store.apply t :=
  hc.triangular.apply_apply_of_prefix h.store t

theorem eq_of_agree (hc : c.Simple) (ha : a.Atomic) (hb : b.Atomic)
    (h : Agree (c.store.apply a) (c.store.apply b)) : c.store.apply a = c.store.apply b := by
  have hatomic : ∀ {t}, t.Atomic → (c.store.apply t).Atomic := fun ht =>
    Atomic.hereditary.resolve hc.atomic.store ht (hc.resolve _)
  exact (hatomic ha).eq_of_agree (hatomic hb) h

theorem unify (hc : c.Simple) (ha : a.Atomic) (hb : b.Atomic) (h : CheckM.unify a b c = .ok () d) :
    c.Later d ∧ d.Simple ∧ d.store.apply a = d.store.apply b := by
  obtain ⟨hlater, hd, -⟩ :=
    step (Later.law.obeys_unify a b) (Grown.law.obeys_unify a b) (Atomic.hereditary.keeps_unify ha hb) hc h
  obtain ⟨-, -, hagree⟩ := hc.flat.unify ha.firstOrder hb.firstOrder h
  exact ⟨hlater, hd, hd.eq_of_agree ha hb hagree⟩

theorem declare (hc : c.Simple) (ha : a.Atomic) (h : CheckM.declare (.var n none) a c = .ok () d) :
    c.Later d ∧ d.Simple ∧ ∃ j, d.judgment? (.var n none) = some j ∧ d.store.apply j.type = d.store.apply a := by
  obtain ⟨hlater, hd, -⟩ :=
    step (Later.law.obeys_declare _ a) (Grown.law.obeys_declare _ a) (Atomic.hereditary.keeps_declare _ ha) hc h
  obtain ⟨-, -, j, hj, hagree⟩ := hc.flat.declare ha.firstOrder h
  have hjudged := hd.atomic.judgments j (List.mem_of_find?_eq_some hj)
  exact ⟨hlater, hd, j, hj, hd.eq_of_agree hjudged ha hagree⟩

theorem bindUnknown (hc : c.Simple) (ha : a.Atomic) (h : CheckM.bindUnknown n a c = .ok () d) :
    c.Later d ∧ d.Simple ∧ d.store.apply (.unknown n) = d.store.apply a := by
  obtain ⟨hlater, hd, -⟩ :=
    step (Later.law.obeys_bindUnknown n a) (Grown.law.obeys_bindUnknown n a) (Atomic.hereditary.keeps_bindUnknown n ha)
      hc h
  refine ⟨hlater, hd, ?_⟩
  obtain ⟨bd, s, tr, hbd, hs, rfl⟩ := bindUnknown_eq_ok h
  exact hc.triangular.apply_insert hbd (hc.strict ▸ hs)

theorem checkStmtBody (hc : c.Simple) {s : Stmt} (hs : s.FirstOrder) (h : CheckM.checkStmtBody s c = .ok () d) :
    c.Later d ∧ d.Simple ∧ s.Equated d := by
  have trans := @Later.law.trans
  cases s with
  | define n t e =>
    obtain ⟨a, _, hresolve, hrest⟩ := bind_eq_ok h
    obtain ⟨rfl, rfl, ha⟩ := hc.resolveTy_eq_ok hs hresolve
    obtain ⟨b, c₁, hbody, hrest⟩ := bind_eq_ok hrest
    obtain ⟨_, c₂, hunify, hdeclare⟩ := bind_eq_ok hrest
    obtain ⟨hlater₁, hc₁, hb⟩ := hc.body hbody
    obtain ⟨hlater₂, hc₂, -⟩ := hc₁.unify ha hb hunify
    obtain ⟨hlater₃, hd, j, hj, heq⟩ := hc₂.declare ha hdeclare
    have hlater := trans (trans hlater₁ hlater₂) hlater₃
    exact ⟨hlater, hd, j, hj, heq.trans (hc.apply_apply_of_later hlater _)⟩
  | fix n t e =>
    obtain ⟨a, _, hresolve, hrest⟩ := bind_eq_ok h
    obtain ⟨rfl, rfl, ha⟩ := hc.resolveTy_eq_ok hs hresolve
    obtain ⟨_, c₁, hdeclare, hrest⟩ := bind_eq_ok hrest
    obtain ⟨b, c₂, hbody, hunify⟩ := bind_eq_ok hrest
    obtain ⟨hlater₁, hc₁, j, hj, heq⟩ := hc.declare ha hdeclare
    obtain ⟨hlater₂, hc₂, hb⟩ := hc₁.body hbody
    obtain ⟨hlater₃, hd, -⟩ := hc₂.unify ha hb hunify
    have heq : (Stmt.fix n t e).Equated c₁ := ⟨j, hj, heq.trans (hc.apply_apply_of_later hlater₁ _)⟩
    exact ⟨trans (trans hlater₁ hlater₂) hlater₃, hd, heq.later (trans hlater₂ hlater₃)⟩
  | assume n t =>
    obtain ⟨a, _, hresolve, hdeclare⟩ := bind_eq_ok h
    obtain ⟨rfl, rfl, ha⟩ := hc.resolveTy_eq_ok hs hresolve
    obtain ⟨hlater, hd, j, hj, heq⟩ := hc.declare ha hdeclare
    exact ⟨hlater, hd, j, hj, heq.trans (hc.apply_apply_of_later hlater _)⟩
  | synonym n t =>
    obtain ⟨a, _, hresolve, hbind⟩ := bind_eq_ok h
    obtain ⟨rfl, rfl, ha⟩ := hc.resolveTy_eq_ok hs hresolve
    obtain ⟨hlater, hd, heq⟩ := hc.bindUnknown ha hbind
    exact ⟨hlater, hd, heq.trans (hc.apply_apply_of_later hlater _)⟩
  | primitive n =>
    obtain ⟨_, _, hemit, hbind⟩ := bind_eq_ok h
    cases hemit
    obtain ⟨hlater, hd, heq⟩ := (hc.trace _).bindUnknown (a := .ground (.name n)) trivial hbind
    exact ⟨trans (Later.law.trace c _) hlater, hd, heq⟩
  | group n l body => cases h

theorem checkStmts (hc : c.Simple) {p : Program} (hp : ∀ s ∈ p, s.FirstOrder) (h : CheckM.checkStmts p c = .ok () d) :
    c.Later d ∧ d.Simple ∧ ∀ s ∈ p, s.Equated d := by
  induction p generalizing c with
  | nil =>
    cases h
    exact ⟨Later.law.refl _, hc, by simp⟩
  | cons s p ih =>
    obtain ⟨hs, hp⟩ := List.forall_mem_cons.mp hp
    obtain ⟨_, _, hfirst, hrest⟩ := bind_eq_ok h
    obtain ⟨_, _, henter, hfirst⟩ := bind_eq_ok hfirst
    cases henter
    obtain ⟨_, c₁, hbody, hleave⟩ := bind_eq_ok hfirst
    cases hleave
    obtain ⟨hlater₁, hc₁, heq⟩ := (hc.trace _).checkStmtBody hs hbody
    obtain ⟨hlater₂, hd, hall⟩ := ih (hc₁.trace _) hp hrest
    have hlater₂ := Later.law.trans (Later.law.trace c₁ _) hlater₂
    have hlater := Later.law.trans (Later.law.trace c _) (Later.law.trans hlater₁ hlater₂)
    exact ⟨hlater, hd, List.forall_mem_cons.mpr ⟨heq.later hlater₂, hall⟩⟩

theorem holdsIn (hc : c.Simple) {s : Stmt} (hs : s.Equated c) : s.HoldsIn c := by
  cases s with
  | define n t | fix n t | assume n t =>
    obtain ⟨j, hj, heq⟩ := hs
    refine ⟨_, ?_, hc.resolveTy t⟩
    simp only [typeOf_run, hj, hc.resolve, heq]
    rfl
  | synonym n t => exact ⟨_, hc.resolve _, by rw [hc.resolveTy, ← hs]⟩
  | primitive n => rw [Stmt.HoldsIn, hc.resolve, hs, Store.apply_ground]
  | group => exact hs

end Context.Simple

/-- Under the strict occurs check, an accepted program without quantifiers and indices leaves a context in which every
name has the type of each of its declarations, and every name of a type stands for what each statement on it says. -/
theorem check_satisfies_statements {options : Options} {trace : Trace} {p : Program}
    (hstrict : options.strictOccurs = true) (hp : ∀ s ∈ p, s.FirstOrder) (h : (check options trace p).ok = true) :
    ∀ s ∈ p, s.HoldsIn (check options trace p).context := by
  obtain ⟨d, hall⟩ := exists_checkAll_of_ok h
  have hcontext : (check options trace p).context = d := by rw [check, hall]
  obtain ⟨_, _, henter, hrest⟩ := bind_eq_ok hall
  cases henter
  obtain ⟨_, c, hstmts, hleave⟩ := bind_eq_ok hrest
  cases hleave
  have hnew : (Context.new options trace).Simple := ⟨hstrict, ⟨.nil, by simp [Context.new]⟩, .new options trace⟩
  obtain ⟨-, hc, hequated⟩ := (hnew.trace _).checkStmts hp hstmts
  rw [hcontext]
  intro s hs
  exact (hc.trace _).holdsIn ((hequated s hs).later (Context.Later.law.trace c _))

theorem check_satisfies_statements_twice :
    let p : Program := [.assume "x" (.fn (.name "A") (.name "A")), .assume "x" (.name "F"), .synonym "A" (.name "B"),
      .define "y" (.name "F") (.lam "z" (.app (.var "x" none) (.var "z" none))), .primitive "B"]
    (∀ s ∈ p, s.FirstOrder) ∧ (check { strictOccurs := true } (.new false) p).ok = true ∧
      ∀ s ∈ p, s.HoldsIn (check { strictOccurs := true } (.new false) p).context := by
  intro p
  have hp : ∀ s ∈ p, s.FirstOrder := by simp [p, Stmt.FirstOrder, Ty.FirstOrder]
  have hok : (check { strictOccurs := true } (.new false) p).ok = true := by decide +kernel
  exact ⟨hp, hok, check_satisfies_statements rfl hp hok⟩

end IndexedTyping
