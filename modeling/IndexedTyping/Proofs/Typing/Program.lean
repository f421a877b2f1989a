import IndexedTyping.Proofs.Typing.Sound

namespace IndexedTyping

open OpenTy CheckM

/-- What the statements up to some point declare, with synonyms put in: names of types, and the types of terms. -/
structure Declarations where
  types : Env
  terms : Env

namespace Declarations

def empty : Declarations := ⟨fun _ => none, fun _ => none⟩

def expand (D : Declarations) : Ty → Ty
  | .name x => (D.types x).getD (.name x)
  | .prim p => .prim p
  | .fn t s => .fn (D.expand t) (D.expand s)
  | .app t s => .app (D.expand t) (D.expand s)
  | .all x l t => .all x l (D.expand t)
  | .indexed t e => .indexed (D.expand t) e

def add (D : Declarations) : Stmt → Declarations
  | .define n t _ | .fix n t _ | .assume n t => { D with terms := D.terms.assign n (D.expand t) }
  | .synonym n t => { D with types := D.types.assign n (D.expand t) }
  | .primitive n => { D with types := D.types.assign n (.name n) }
  | .group .. => D

def Knows (D : Declarations) : Ty → Prop
  | .name x => (D.types x).isSome
  | .prim _ => True
  | .fn t s => D.Knows t ∧ D.Knows s
  | .app t s => D.Knows t ∧ D.Knows s
  | .all .. | .indexed .. => False

/-- Types are known when they are used, their names are not those of unknowns, and bodies are free of recursion. -/
def Admits (D : Declarations) : Stmt → Prop
  | .define _ t e | .fix _ t e => D.Knows t ∧ e.Simple
  | .assume _ t => D.Knows t
  | .synonym n t => D.Knows t ∧ ∀ i, n ≠ unknownName i
  | .primitive n => ∀ i, n ≠ unknownName i
  | .group .. => True

def Types (D : Declarations) : Stmt → Prop
  | .define _ t e => LooselyTyped [] D.terms e (D.expand t) ∧ (e.SelfContained [] → HasType D.terms e (D.expand t))
  | .fix n t e =>
    let Γ := D.terms.assign n (D.expand t)
    LooselyTyped [] Γ e (D.expand t) ∧ (e.SelfContained [] → HasType Γ e (D.expand t))
  | .assume .. | .synonym .. | .primitive .. | .group .. => True

def Each (P : Declarations → Stmt → Prop) : Declarations → Program → Prop
  | _, [] => True
  | D, s :: p => P D s ∧ Each P (D.add s) p

end Declarations

namespace Sound

variable {Γ : Env} {c d : Context} {a t : OpenTy} {T : Ty} {e : Term} {n : String}

theorem checkBody (hc : Sound [] Γ c) (he : e.Simple) {label : String}
    (h : withScope label [] (CheckM.checkTerm e) c = .ok a d) :
    Sound [] Γ d ∧ a.Made d.counter ∧ c.Later d ∧ ∀ θ : Valuation, LooselyTyped [] Γ e (a.inst θ) := by
  have hlater := (Context.Later.law.obeys_withScope label [] (Context.Later.law.obeys_checkTerm e)).of_ok h
  obtain ⟨d', hrun, rfl⟩ := withScope_eq_ok h
  obtain ⟨hd', hgives⟩ := checks he (hc.openScope label []) hrun
  obtain ⟨hd, hcounter⟩ := hc.closeScope ((Context.Later.law.obeys_checkTerm e).of_ok hrun)
  refine ⟨hd, hcounter ▸ hd'.made_of_gives hgives, hlater, fun θ => ?_⟩
  obtain ⟨j, hj, rfl⟩ := hgives
  have henv : d'.env (d'.store.solve hd'.regular.firstOrder θ) = Γ := by
    funext x
    exact hd'.globals_solve θ (by simp)
  exact henv ▸ hd'.typed_apply hj θ

theorem declareGlobal (hc : Sound [] Γ c) (ht : t.Made c.counter) (hinst : ∀ θ, c.store.Models θ → t.inst θ = T)
    (h : CheckM.declare (.var n none) t c = .ok () d) : Sound [] (Γ.assign n T) d := by
  obtain ⟨a, tr, ha, ⟨j, hj, hunify⟩ | ⟨hj, rfl⟩⟩ := declare_eq_ok h
  · cases hc.resolve_eq ha
    obtain ⟨hd, hjoins⟩ := (hc.trace tr).unify (hc.made_apply ht) (hc.made _ j hj) hunify
    refine hd.globals_congr fun θ hθ x hx => ?_
    obtain ⟨hθc, heq⟩ := (hjoins.models_iff θ).mp hθ
    by_cases hxn : x = n
    · have hjd := ((Context.Later.law.obeys_unify _ _).of_ok hunify).judgments _ j hj
      rw [hθc.inst_apply, hinst θ hθc] at heq
      rw [hxn, Env.assign_self, heq]
      exact Option.map_eq_some_iff.mpr ⟨j, hjd, rfl⟩
    · rw [Env.assign_of_ne hxn]
      exact hd.globals θ hθ x hx
  · cases hc.resolve_eq ha
    refine (hc.trace tr).judge hj (hc.made_apply ht) (fun θ hθ x hx => ?_) fun θ hθ => ?_
    · rw [Context.env_judge_var, hθ.inst_apply, hinst θ hθ]
      by_cases hxn : x = n
      · rw [hxn, Env.assign_self, Env.assign_self]
      · rw [Env.assign_of_ne hxn, Env.assign_of_ne hxn]
        exact hc.globals θ hθ x hx
    · rw [Context.env_judge_var]
      exact .var (Env.assign_self _ _ _)

theorem bindUnknown (hc : Sound [] Γ c) (hn : (OpenTy.unknown n).Made c.counter) (ha : a.Made c.counter)
    (h : CheckM.bindUnknown n a c = .ok () d) :
    Sound [] Γ d ∧ ∀ θ : Valuation, d.store.Models θ → c.store.Models θ ∧ θ n = a.inst θ := by
  have hlater := (Context.Later.law.obeys_bindUnknown n a).of_ok h
  obtain ⟨b, s, tr, hb, hs, rfl⟩ := bindUnknown_eq_ok h
  have htriangular := hc.regular.triangular.of_insert hb (hc.regular.strict ▸ hs)
  obtain ⟨hname, hvalue⟩ := Store.binding_eq_ok hb
  have hname := hc.resolve_eq hname
  have hvalue := hc.resolve_eq hvalue
  obtain ⟨-, rfl⟩ := Store.insert_eq_ok hs
  have hnmade : (OpenTy.unknown b.name).Made c.counter := hname ▸ hc.made_apply hn
  have hvmade : b.value.Made c.counter := hvalue ▸ hc.made_apply ha
  have hmodels : ∀ θ : Valuation, Store.Models (c.store ++ [b]) θ → c.store.Models θ :=
    fun θ hθ => hθ.of_prefix hlater.store
  refine ⟨⟨⟨hc.regular.strict, htriangular, hc.regular.firstOrder.append hvmade.firstOrder⟩, hc.rollback, hc.binds,
    fun b' hb' => ?_, hc.made, fun θ hθ => hc.globals θ (hmodels θ hθ), fun θ hθ => hc.typed θ (hmodels θ hθ)⟩,
    fun θ hθ => ⟨hmodels θ hθ, ?_⟩⟩
  · rcases List.mem_append.mp hb' with hb' | hb'
    · exact hc.below b' hb'
    · cases List.mem_singleton.mp hb'
      exact ⟨hnmade.below _ List.mem_cons_self, hvmade.below⟩
  · calc θ n = (c.store.apply (.unknown n)).inst θ := ((hmodels θ hθ).inst_apply (.unknown n)).symm
      _ = θ b.name := by rw [← hname]; rfl
      _ = b.value.inst θ := hθ b (by simp)
      _ = a.inst θ := by rw [hvalue, (hmodels θ hθ).inst_apply]

end Sound

structure Declarations.Holds (D : Declarations) (c : Context) : Prop where
  sound : Sound [] D.terms c
  types : ∀ θ, c.store.Models θ → ∀ x t, D.types x = some t → θ x = t
  below : ∀ x t, D.types x = some t → ∀ k, x ∈ Below k

namespace Declarations.Holds

variable {D : Declarations} {c d : Context} {t : Ty} {n : String}

theorem empty (options : Options) (trace : Trace) (hstrict : options.strictOccurs = true)
    (hrollback : options.rollback = false) : Declarations.empty.Holds (.new options trace) where
  sound :=
    { regular := ⟨hstrict, .nil, by simp [Context.new, Store.FirstOrder]⟩
      rollback := hrollback
      binds := by simp [Context.new, Context.binds]
      below := by simp [Context.new, Store.Within]
      made := by simp [Context.new, Context.judgment?]
      globals := fun _ _ _ _ => rfl
      typed := by simp [Context.new, Context.judgment?] }
  types := by simp [Declarations.empty]
  below := by simp [Declarations.empty]

theorem trace (hc : D.Holds c) (tr : Trace) : D.Holds { c with trace := tr } := ⟨hc.sound.trace tr, hc.types, hc.below⟩

theorem later (hc : D.Holds c) (hcd : c.Later d) {Γ : Env} (hd : Sound [] Γ d) : Holds { D with terms := Γ } d :=
  ⟨hd, fun θ hθ => hc.types θ (hθ.of_prefix hcd.store), hc.below⟩

theorem made_embed (hc : D.Holds c) (ht : D.Knows t) (k : Nat) : t.embed.Made k := by
  induction t with
  | name x =>
    obtain ⟨s, hs⟩ := Option.isSome_iff_exists.mp ht
    exact ⟨trivial, fun y hy => List.mem_singleton.mp hy ▸ hc.below x s hs k⟩
  | prim p => exact .ground k (t := .prim p) trivial
  | fn t s iht ihs => exact (iht ht.1).fn (ihs ht.2)
  | app t s iht ihs => exact (iht ht.1).app (ihs ht.2)
  | all x l t => exact ht.elim
  | indexed t e => exact ht.elim

theorem inst_embed (hc : D.Holds c) (ht : D.Knows t) {θ : Valuation} (hθ : c.store.Models θ) :
    t.embed.inst θ = D.expand t := by
  induction t with
  | name x =>
    obtain ⟨s, hs⟩ := Option.isSome_iff_exists.mp ht
    rw [expand, hs]
    exact hc.types θ hθ x s hs
  | prim p => rfl
  | fn t s iht ihs => rw [Ty.embed, OpenTy.inst, iht ht.1, ihs ht.2, expand]
  | app t s iht ihs => rw [Ty.embed, OpenTy.inst, iht ht.1, ihs ht.2, expand]
  | all x l t => exact ht.elim
  | indexed t e => exact ht.elim

theorem resolveTy (hc : D.Holds c) (ht : D.Knows t) {a : OpenTy} (h : CheckM.resolveTy t c = .ok a d) :
    d = c ∧ a.Made c.counter ∧ ∀ θ : Valuation, c.store.Models θ → a.inst θ = D.expand t := by
  rw [resolveTy_run, Store.resolveTy_eq_resolve] at h
  obtain ⟨rfl, ha⟩ := resolve_eq_ok h
  cases hc.sound.resolve_eq ha
  refine ⟨rfl, hc.sound.made_apply (hc.made_embed ht _), fun θ hθ => ?_⟩
  rw [hθ.inst_apply]
  exact hc.inst_embed ht hθ

theorem bindUnknown (hc : D.Holds c) (hn : ∀ i, n ≠ unknownName i) {a : OpenTy} {T : Ty} (ha : a.Made c.counter)
    (hinst : ∀ θ : Valuation, c.store.Models θ → a.inst θ = T) (h : CheckM.bindUnknown n a c = .ok () d) :
    Holds { D with types := D.types.assign n T } d := by
  have hnmade : (OpenTy.unknown n).Made c.counter :=
    ⟨trivial, fun x hx => List.mem_singleton.mp hx ▸ fun i _ => hn i⟩
  obtain ⟨hd, hmodels⟩ := hc.sound.bindUnknown hnmade ha h
  refine ⟨hd, fun θ hθ x t (hx : D.types.assign n T x = some t) => ?_,
    fun x t (hx : D.types.assign n T x = some t) k => ?_⟩
  · obtain ⟨hθc, hθn⟩ := hmodels θ hθ
    by_cases hxn : x = n
    · rw [hxn, Env.assign_self] at hx
      rw [hxn, hθn, hinst θ hθc, Option.some.inj hx]
    · rw [Env.assign_of_ne hxn] at hx
      exact hc.types θ hθc x t hx
  · by_cases hxn : x = n
    · exact fun i _ => hxn ▸ hn i
    · rw [Env.assign_of_ne hxn] at hx
      exact hc.below x t hx k

theorem unifyBody {Γ : Env} (hc : Sound [] Γ c) {a b : OpenTy} {T : Ty} {e : Term} (ha : a.Made c.counter)
    (hb : b.Made c.counter) (hinst : ∀ θ : Valuation, c.store.Models θ → a.inst θ = T)
    (htyped : ∀ θ : Valuation, LooselyTyped [] Γ e (b.inst θ)) (h : CheckM.unify a b c = .ok () d) :
    Sound [] Γ d ∧ LooselyTyped [] Γ e T := by
  obtain ⟨hd, hjoins⟩ := hc.unify ha hb h
  -- any model of the store will do, and there is one
  have hθ := hd.regular.triangular.models_solve hd.regular.firstOrder ⟨fun _ => .prim .nat, fun _ => trivial⟩
  obtain ⟨hθc, heq⟩ := (hjoins.models_iff _).mp hθ
  rw [hinst _ hθc] at heq
  exact ⟨hd, heq ▸ htyped _⟩

theorem checkStmtBody (hc : D.Holds c) {s : Stmt} (hs : D.Admits s) (h : CheckM.checkStmtBody s c = .ok () d) :
    (D.add s).Holds d ∧ D.Types s := by
  cases s with
  | define n t e =>
    obtain ⟨a, _, hresolve, hrest⟩ := bind_eq_ok h
    obtain ⟨rfl, ha, hinst⟩ := hc.resolveTy hs.1 hresolve
    obtain ⟨b, c₁, hbody, hrest⟩ := bind_eq_ok hrest
    obtain ⟨_, c₂, hunify, hdeclare⟩ := bind_eq_ok hrest
    obtain ⟨hc₁, hb, hlater₁, htyped⟩ := hc.sound.checkBody hs.2 hbody
    obtain ⟨hc₂, he⟩ := unifyBody hc₁ (ha.mono hlater₁.counter) hb
      (fun θ hθ => hinst θ (hθ.of_prefix hlater₁.store)) htyped hunify
    have hlater₂ := Context.Later.law.trans hlater₁ ((Context.Later.law.obeys_unify a b).of_ok hunify)
    have hd := hc₂.declareGlobal (ha.mono hlater₂.counter) (fun θ hθ => hinst θ (hθ.of_prefix hlater₂.store)) hdeclare
    have hlater := Context.Later.law.trans hlater₂ ((Context.Later.law.obeys_declare _ _).of_ok hdeclare)
    exact ⟨hc.later hlater hd, he, he.hasType⟩
  | fix n t e =>
    obtain ⟨a, _, hresolve, hrest⟩ := bind_eq_ok h
    obtain ⟨rfl, ha, hinst⟩ := hc.resolveTy hs.1 hresolve
    obtain ⟨_, c₁, hdeclare, hrest⟩ := bind_eq_ok hrest
    obtain ⟨b, c₂, hbody, hunify⟩ := bind_eq_ok hrest
    have hc₁ := hc.sound.declareGlobal ha hinst hdeclare
    have hlater₁ := (Context.Later.law.obeys_declare _ _).of_ok hdeclare
    obtain ⟨hc₂, hb, hlater₂, htyped⟩ := hc₁.checkBody hs.2 hbody
    have hlater₂ := Context.Later.law.trans hlater₁ hlater₂
    obtain ⟨hd, he⟩ := unifyBody hc₂ (ha.mono hlater₂.counter) hb
      (fun θ hθ => hinst θ (hθ.of_prefix hlater₂.store)) htyped hunify
    have hlater := Context.Later.law.trans hlater₂ ((Context.Later.law.obeys_unify a b).of_ok hunify)
    exact ⟨hc.later hlater hd, he, he.hasType⟩
  | assume n t =>
    obtain ⟨a, _, hresolve, hdeclare⟩ := bind_eq_ok h
    obtain ⟨rfl, ha, hinst⟩ := hc.resolveTy hs hresolve
    have hlater := (Context.Later.law.obeys_declare _ _).of_ok hdeclare
    exact ⟨hc.later hlater (hc.sound.declareGlobal ha hinst hdeclare), trivial⟩
  | synonym n t =>
    obtain ⟨a, _, hresolve, hbind⟩ := bind_eq_ok h
    obtain ⟨rfl, ha, hinst⟩ := hc.resolveTy hs.1 hresolve
    exact ⟨hc.bindUnknown hs.2 ha hinst hbind, trivial⟩
  | primitive n =>
    obtain ⟨_, _, hemit, hbind⟩ := bind_eq_ok h
    cases hemit
    exact ⟨(hc.trace _).bindUnknown hs (.ground _ (t := .name n) trivial) (fun _ _ => rfl) hbind, trivial⟩
  | group n l body => cases h

theorem checkStmts (hc : D.Holds c) {p : Program} (hp : Each Admits D p) (h : CheckM.checkStmts p c = .ok () d) :
    Each Types D p := by
  induction p generalizing D c with
  | nil => trivial
  | cons s p ih =>
    obtain ⟨_, c₁, hs, hrest⟩ := bind_eq_ok h
    obtain ⟨_, _, henter, hs⟩ := bind_eq_ok hs
    cases henter
    obtain ⟨_, _, hbody, hleave⟩ := bind_eq_ok hs
    cases hleave
    obtain ⟨hc₁, htypes⟩ := (hc.trace _).checkStmtBody hp.1 hbody
    exact ⟨htypes, ih (hc₁.trace _) hp.2 hrest⟩

end Declarations.Holds

open Declarations

/-- Under the strict occurs check, in an accepted program whose types are known when they are used every body has its
declared type in the looser discipline, in the environment of the declarations before it. If none of its abstractions
mentions a parameter of another one around it, it has that type in the simply typed lambda calculus. -/
theorem check_types_bodies {options : Options} {trace : Trace} {p : Program} (hstrict : options.strictOccurs = true)
    (hrollback : options.rollback = false) (hp : Each Admits .empty p) (h : (check options trace p).ok = true) :
    Each Types .empty p := by
  obtain ⟨d, hall⟩ := exists_checkAll_of_ok h
  obtain ⟨_, _, henter, hrest⟩ := bind_eq_ok hall
  cases henter
  obtain ⟨_, c, hstmts, -⟩ := bind_eq_ok hrest
  exact ((Holds.empty options trace hstrict hrollback).trace _).checkStmts hp hstmts

theorem check_types_bodies_fix :
    let p : Program := [.primitive "A", .synonym "F" (.fn (.name "A") (.name "A")), .assume "g" (.name "F"),
      .fix "h" (.name "F") (.lam "x" (.app (.var "g" none) (.app (.var "h" none) (.var "x" none))))]
    let F : Ty := .fn (.name "A") (.name "A")
    Each Admits .empty p ∧ (check { strictOccurs := true } (.new false) p).ok = true ∧
      HasType (Env.assign (Env.assign (fun _ => none) "g" F) "h" F)
        (.lam "x" (.app (.var "g" none) (.app (.var "h" none) (.var "x" none)))) F := by
  intro p F
  have hnames : ∀ i, "A" ≠ unknownName i ∧ "F" ≠ unknownName i := by
    intro i
    constructor
    · intro h
      have := congrArg String.toList h
      simp [unknownName] at this
    · intro h
      have := congrArg String.toList h
      simp [unknownName] at this
  have hp : Each Admits .empty p :=
    ⟨fun i => (hnames i).1, ⟨⟨rfl, rfl⟩, fun i => (hnames i).2⟩, rfl, ⟨rfl, trivial, trivial, trivial⟩, trivial⟩
  have hok : (check { strictOccurs := true } (.new false) p).ok = true := by decide +kernel
  refine ⟨hp, hok, ?_⟩
  have htypes := check_types_bodies rfl rfl hp hok
  exact htypes.2.2.2.1.2 ⟨by simp, ⟨trivial, trivial, trivial⟩⟩

/-- Two accepted programs with a body that has not its declared type in the simply typed lambda calculus. In the first,
what the inner abstraction asks of `x` is forgotten with its scope. In the second, `A` and `B` are not yet declared when
they are taken to be the same. -/
theorem accepted_not_hasType :
    let nat : Ty := .prim .nat
    let apply : Term := .lam "x" (.lam "y" (.app (.var "x" none) (.var "y" none)))
    (check { strictOccurs := true } (.new false) [.define "f" (.fn nat (.fn nat nat)) apply]).ok = true ∧
      ¬HasType (fun _ => none) apply (.fn nat (.fn nat nat)) ∧
      (check { strictOccurs := true } (.new false)
        [.assume "x" (.name "A"), .assume "f" (.fn (.name "B") nat),
          .define "y" nat (.app (.var "f" none) (.var "x" none)), .primitive "A", .primitive "B"]).ok = true ∧
      ¬HasType (Env.assign (Env.assign (fun _ => none) "x" (.name "A")) "f" (.fn (.name "B") nat))
        (.app (.var "f" none) (.var "x" none)) nat := by
  refine ⟨by decide +kernel, fun h => ?_, by decide +kernel, fun h => ?_⟩
  · cases h with
    | lam h => cases h with
      | lam h => cases h with
        | app hx _ => cases hx with
          | var hx => cases hx
  · cases h with
    | app hf hx => cases hf with
      | var hf =>
        cases hf
        cases hx with
        | var hx => exact absurd hx (by decide)

end IndexedTyping
