import IndexedTyping.Proofs.Check.Assumptions
import IndexedTyping.Proofs.Check.Depth
import IndexedTyping.Proofs.Check.Judgments
import IndexedTyping.Proofs.Unify.Known

namespace IndexedTyping

open OpenTy CheckM

theorem CheckM.Ends.of_never_fails {α : Type} {r : EStateM.Result CheckError Context α} {Q : α → Context → Prop}
    {E : CheckError → Context → Prop} (h : Ends r Q fun _ _ => False) : Ends r Q E :=
  h.mono (fun _ _ hQ => hQ) fun _ _ hE => hE.elim

def Term.Applicative : Term → Prop
  | var .. | lit _ => True
  | app f a => f.Applicative ∧ a.Applicative
  | lam .. | recur .. => False

namespace HasType

variable {Γ : Env} {e f : Term} {t s : Ty}

theorem unique (he : e.Applicative) (h : HasType Γ e t) (h' : HasType Γ e s) : t = s := by
  induction h generalizing s with
  | var hx =>
    cases h' with
    | var hx' => exact Option.some.inj (hx.symm.trans hx')
  | lit =>
    cases h'
    rfl
  | lam => exact he.elim
  | app _ _ ihf _ =>
    cases h' with
    | app hf' _ => exact (Ty.fn.inj (ihf he.1 hf')).2

theorem of_same (h : HasType Γ e t) (he : f.same e = true) : HasType Γ f t := by
  induction h generalizing f with
  | var hx =>
    cases f <;> simp [Term.same] at he
    exact .var (he ▸ hx)
  | lit =>
    cases f <;> simp [Term.same] at he
    exact he ▸ .lit
  | lam _ ih =>
    cases f <;> simp [Term.same] at he
    exact he.1 ▸ .lam (ih he.2)
  | app _ _ ihf iha =>
    cases f <;> simp [Term.same] at he
    exact .app (ihf he.1) (iha he.2)

theorem induct {P : Ty → Prop} (hΓ : ∀ x t, Γ x = some t → P t) (hprim : ∀ p, P (.prim p))
    (hfn : ∀ t s, P (.fn t s) → P s) (he : e.Applicative) (h : HasType Γ e t) : P t := by
  induction h with
  | var hx => exact hΓ _ _ hx
  | lit => exact hprim _
  | lam => exact he.elim
  | app _ _ ihf _ => exact hfn _ _ (ihf hΓ he.1)

theorem outer (h : HasType Γ e t) (he : e.Applicative) (hf : f ∈ e.outer) : ∃ s, HasType Γ f s := by
  induction h with
  | var hx =>
    cases List.mem_singleton.mp hf
    exact ⟨_, .var hx⟩
  | lit =>
    cases List.mem_singleton.mp hf
    exact ⟨_, .lit⟩
  | lam => exact he.elim
  | app hg ha ihg iha =>
    simp only [Term.outer, List.mem_append, List.mem_singleton] at hf
    rcases hf with (hf | hf) | rfl
    · exact ihg he.1 hf
    · exact iha he.2 hf
    · exact ⟨_, .app hg ha⟩

end HasType

def Term.Fault : Term → CheckError → Prop
  | var x l, err => ∃ names, err = .unbound (.var x l) names
  | app .., err => ∃ a b, err = .mismatch a b
  | lit _, _ | lam .., _ | recur .., _ => False

def Term.FailsAtFirst (Γ : Env) (e : Term) (err : CheckError) : Prop :=
  ∃ before f after, e.outer = before ++ f :: after ∧ (∀ g ∈ before, ∃ t, HasType Γ g t) ∧
    (¬∃ t, HasType Γ f t) ∧ f.Fault err

namespace Term.FailsAtFirst

variable {Γ : Env} {f a : Term} {t : Ty} {err : CheckError}

theorem function (h : f.FailsAtFirst Γ err) (a : Term) : (app f a).FailsAtFirst Γ err := by
  obtain ⟨before, g, after, hsplit, hrest⟩ := h
  exact ⟨before, g, after ++ (a.outer ++ [app f a]), by simp [outer, hsplit], hrest⟩

theorem argument (hf : HasType Γ f t) (happ : f.Applicative) (h : a.FailsAtFirst Γ err) :
    (app f a).FailsAtFirst Γ err := by
  obtain ⟨before, g, after, hsplit, hbefore, hrest⟩ := h
  refine ⟨f.outer ++ before, g, after ++ [app f a], by simp [outer, hsplit], fun k hk => ?_, hrest⟩
  rcases List.mem_append.mp hk with hk | hk
  · exact hf.outer happ hk
  · exact hbefore k hk

theorem application {s : Ty} (hf : HasType Γ f t) (ha : HasType Γ a s) (happ : f.Applicative ∧ a.Applicative)
    (hne : ∀ r, t ≠ .fn s r) (herr : ∃ b c, err = .mismatch b c) : (app f a).FailsAtFirst Γ err := by
  refine ⟨f.outer ++ a.outer, app f a, [], by simp [outer], fun k hk => ?_, ?_, herr⟩
  · rcases List.mem_append.mp hk with hk | hk
    · exact hf.outer happ.1 hk
    · exact ha.outer happ.2 hk
  · rintro ⟨r, hr⟩
    cases hr with
    | app hf' ha' =>
      cases ha'.unique happ.2 ha
      exact hne r (hf.unique happ.1 hf')

theorem undeclared {x : String} {l : Option Location} {names : List String} (hx : Γ x = none) :
    (var x l).FailsAtFirst Γ (.unbound (.var x l) names) := by
  refine ⟨[], var x l, [], rfl, by simp, ?_, names, rfl⟩
  rintro ⟨t, ht⟩
  cases ht with
  | var h => cases hx.symm.trans h

end Term.FailsAtFirst

structure Env.Bounded (M : Nat) (Γ : Env) : Prop where
  pos : 0 < M
  types : ∀ x t, Γ x = some t → t.FirstOrder ∧ t.size ≤ M

theorem Env.Bounded.of_hasType {M : Nat} {Γ : Env} (h : Γ.Bounded M) {e : Term} {t : Ty} (he : e.Applicative)
    (ht : HasType Γ e t) : t.FirstOrder ∧ t.size ≤ M := by
  refine ht.induct h.types (fun p => ⟨trivial, h.pos⟩) (fun t s hfn => ⟨hfn.1.2, ?_⟩) he
  have := hfn.2
  rw [Ty.size] at this
  omega

/-- The types of all judgments are known, and are those that `Γ` gives to terms. Every name of `Γ` has a judgment, the
unknowns to come are not bound, and unification may go as deep as types of the size `M` take it. -/
structure Context.Exact (Γ : Env) (M : Nat) (c : Context) : Prop where
  grown : c.Grown
  depth : M + 2 ≤ c.options.depth
  binds : ∀ x, c.binds x = false
  fresh : ∀ i ≥ c.counter, c.store.Unbound (unknownName i)
  typed : ∀ e j, c.judgment? e = some j → ∃ t, HasType Γ e t ∧ c.store.resolve j.type = .ok t.spread
  judged : ∀ x t, Γ x = some t → ∃ j, c.judgment? (.var x none) = some j

namespace Context.Exact

variable {Γ : Env} {M : Nat} {c : Context} {e : Term} {t : Ty} {a : OpenTy}

theorem trace (hc : c.Exact Γ M) (tr : Trace) : Exact Γ M { c with trace := tr } :=
  ⟨⟨hc.grown.store, hc.grown.scopes⟩, hc.depth, hc.binds, hc.fresh, hc.typed, hc.judged⟩

theorem count (hc : c.Exact Γ M) : Exact Γ M { c with counter := c.counter + 1 } :=
  ⟨⟨hc.grown.store, hc.grown.scopes⟩, hc.depth, hc.binds, fun i hi => hc.fresh i (Nat.le_of_succ_le hi), hc.typed,
    hc.judged⟩

theorem know (hc : c.Exact Γ M) {i : Nat} (hi : i < c.counter) (hfree : c.store.Unbound (unknownName i)) (t : Ty) :
    Exact Γ M { c with store := c.store.know (unknownName i) t } where
  grown := ⟨hc.grown.store.know hfree t, hc.grown.scopes⟩
  depth := hc.depth
  binds := hc.binds
  fresh k hk b hb := by
    rcases List.mem_append.mp hb with hb | hb
    · exact hc.fresh k hk b hb
    · cases List.mem_singleton.mp hb
      exact fun h => Nat.ne_of_lt (Nat.lt_of_lt_of_le hi hk) (unknownName_injective h)
  typed e j hj := by
    obtain ⟨s, hs, hres⟩ := hc.typed e j hj
    exact ⟨s, hs, (hc.grown.store.know hfree t).resolve_append (by simp) hres (by simp)⟩
  judged := hc.judged

theorem judge (hc : c.Exact Γ M) (he : HasType Γ e t) :
    Exact Γ M { c with judgments := ⟨e, t.spread⟩ :: c.judgments } where
  grown := ⟨hc.grown.store, hc.grown.scopes⟩
  depth := hc.depth
  binds := hc.binds
  fresh := hc.fresh
  typed f j hj := by
    rw [judgment?_cons] at hj
    split at hj
    · next hsame =>
      cases hj
      exact ⟨t, he.of_same hsame, Store.resolve_spread _ t⟩
    · exact hc.typed f j hj
  judged x s hx := by
    rw [judgment?_cons]
    split
    · exact ⟨_, rfl⟩
    · exact hc.judged x s hx

theorem typeOf (hc : c.Exact Γ M) {j : Judgment} (hj : c.judgment? e = some j) :
    ∃ t, HasType Γ e t ∧ CheckM.typeOf e c = .ok t.spread c := by
  obtain ⟨t, ht, hres⟩ := hc.typed e j hj
  refine ⟨t, ht, ?_⟩
  rw [typeOf_run, hj]
  exact (resolve_run j.type c).trans (by rw [hres]; rfl)

theorem judgment?_eq_none (hc : c.Exact Γ M) {x : String} {l : Option Location}
    (h : c.judgment? (.var x l) = none) : Γ x = none := by
  cases hx : Γ x with
  | none => rfl
  | some t =>
    obtain ⟨j, hj⟩ := hc.judged x t hx
    rw [c.judgment?_congr (f := .var x none) (by simp [Term.same]), hj] at h
    cases h

theorem ends_judged {m : CheckM Unit} {F : CheckError → Prop}
    (h : ∀ tr, Ends (m { c with trace := tr }) (fun _ d => d.Exact Γ M ∧ ∃ j, d.judgment? e = some j)
      fun err _ => F err) :
    Ends (CheckM.judged e m c) (fun a d => d.Exact Γ M ∧ ∃ t, HasType Γ e t ∧ a = t.spread) fun err _ => F err := by
  refine ends_bind.mpr (ends_bind.mpr ((h _).mono ?_ fun _ _ he => he))
  rintro - d ⟨hd, j, hj⟩
  obtain ⟨t, ht, hrun⟩ := hd.typeOf hj
  refine ends_bind.mpr ?_
  rw [hrun]
  exact ⟨hd.trace _, t, ht, rfl⟩

theorem exists_depth (hc : c.Exact Γ M) : ∃ n, c.options.depth = n + 1 :=
  Nat.exists_eq_add_of_le' (Nat.le_trans (Nat.le_add_left 1 _) hc.depth)

theorem ends_declare (hc : c.Exact Γ M) (happ : e.Applicative) (he : HasType Γ e t)
    (ha : c.store.resolve a = .ok t.spread) :
    Ends (CheckM.declare e a c) (fun _ d => d.Exact Γ M ∧ ∃ j, d.judgment? e = some j) fun _ _ => False := by
  rw [declare_run, ha]
  dsimp only
  cases hj : c.judgment? e with
  | none =>
    refine ⟨(hc.judge he).trace _, ⟨e, t.spread⟩, ?_⟩
    exact (judgment?_cons c _ e).trans (if_pos (Term.same_iff.mpr rfl))
  | some j =>
    obtain ⟨s, hs, hres⟩ := hc.typed e j hj
    cases hs.unique happ he
    obtain ⟨n, hn⟩ := hc.exists_depth
    dsimp only
    rw [unify_run, hn]
    refine ends_unifyWithin (Q := fun d => d.Exact Γ M ∧ ∃ j, d.judgment? e = some j) (c.store.resolve_spread t) hres
      (fun _ => ⟨hc.trace _, j, hj⟩) fun h => absurd (same_refl _ _) h

theorem ends_declare_unknown (hc : c.Exact Γ M) {i : Nat} (hi : i < c.counter)
    (hfree : c.store.Unbound (unknownName i)) {j : Judgment} (hj : c.judgment? e = some j) :
    Ends (CheckM.declare e (.unknown (unknownName i)) c) (fun _ d => d.Exact Γ M ∧ ∃ j, d.judgment? e = some j)
      fun _ _ => False := by
  obtain ⟨t, -, hres⟩ := hc.typed e j hj
  obtain ⟨n, hn⟩ := hc.exists_depth
  rw [declare_run, Store.resolve_unknown hfree]
  simp only [hj]
  generalize c.trace.emit _ _ = tr
  rw [unify_run, hn]
  refine (ends_unify_unknown (c := { c with trace := tr }) hfree hres n).mono ?_ fun _ _ he => he
  rintro - - ⟨tr, rfl⟩
  exact ⟨(hc.know hi hfree t).trace tr, j, hj⟩

theorem ends_checkVar (hc : c.Exact Γ M) (x : String) (l : Option Location) :
    Ends (CheckM.checkVar x l c) (fun a d => d.Exact Γ M ∧ ∃ t, HasType Γ (.var x l) t ∧ a = t.spread)
      fun err _ => (Term.var x l).FailsAtFirst Γ err := by
  refine ends_judged fun tr => ?_
  have hc := hc.trace tr
  have hbinds := hc.binds x
  refine ends_bind.mpr ?_
  change Ends ((if Context.binds { c with trace := tr } x = true then _ else _ : CheckM Unit) _) _ _
  rw [hbinds]
  -- no scope binds the variable, so it has to have a judgment
  refine ends_bind.mpr ?_
  cases hj : Context.judgment? { c with trace := tr } (.var x l) with
  | none =>
    rw [typeOf_run, hj]
    exact .undeclared (hc.judgment?_eq_none hj)
  | some j =>
    obtain ⟨t, -, hrun⟩ := hc.typeOf hj
    rw [hrun]
    have hfree := hc.fresh c.counter (Nat.le_refl _)
    refine ends_bind.mpr ?_
    exact ((hc.count.trace _).ends_declare_unknown (Nat.lt_succ_self _) hfree hj).of_never_fails

theorem ends_apply (hc : c.Exact Γ M) (hΓ : Γ.Bounded M) {f x : Term} {s : Ty} (happ : (Term.app f x).Applicative)
    (hf : HasType Γ f t) (hx : HasType Γ x s) :
    Ends ((do
        let u ← CheckM.newUnknown
        CheckM.unify t.spread (.fn s.spread u)
        CheckM.declare (.app f x) u : CheckM Unit) c)
      (fun _ d => d.Exact Γ M ∧ ∃ j, d.judgment? (.app f x) = some j)
      fun err _ => (Term.app f x).FailsAtFirst Γ err := by
  obtain ⟨ht, hsize⟩ := hΓ.of_hasType happ.1 hf
  obtain ⟨hs, -⟩ := hΓ.of_hasType happ.2 hx
  have hfree := hc.fresh c.counter (Nat.le_refl _)
  have hdepth : t.size + 2 ≤ c.options.depth := Nat.le_trans (Nat.add_le_add_right hsize 2) hc.depth
  rw [bind_ok (newUnknown_run c), ends_bind, unify_run]
  generalize c.trace.emit _ _ = tr
  refine (ends_unify_arrow (c := { c with counter := c.counter + 1, trace := tr }) ht hs hfree hdepth).mono ?_ ?_
  · rintro - - ⟨r, tr, rfl, rfl⟩
    have hd := (hc.count.know (Nat.lt_succ_self _) hfree r).trace tr
    exact (hd.ends_declare happ (.app hf hx) (hc.grown.store.resolve_know hfree r)).of_never_fails
  · rintro err - ⟨hne, herr⟩
    exact .application hf hx happ hne herr

theorem ends_checkTerm (hc : c.Exact Γ M) (hΓ : Γ.Bounded M) (he : e.Applicative) :
    Ends (CheckM.checkTerm e c) (fun a d => d.Exact Γ M ∧ ∃ t, HasType Γ e t ∧ a = t.spread)
      fun err _ => e.FailsAtFirst Γ err := by
  induction e generalizing c with
  | var x l => exact hc.ends_checkVar x l
  | lit v =>
    refine ends_judged fun tr => ?_
    exact ((hc.trace tr).ends_declare he .lit (Store.resolve_spread _ (.prim v.prim))).of_never_fails
  | app f x ihf ihx =>
    refine ends_judged fun tr => ends_bind.mpr ?_
    refine (ihf (hc.trace tr) he.1).mono ?_ fun _ _ hfail => hfail.function x
    rintro - c₁ ⟨hc₁, t, hf, rfl⟩
    refine ends_bind.mpr ((ihx hc₁ he.2).mono ?_ fun _ _ hfail => .argument hf he.1 hfail)
    rintro - c₂ ⟨hc₂, s, hx, rfl⟩
    exact hc₂.ends_apply hΓ he hf hx
  | lam | recur => exact he.elim

theorem openScope (hc : c.Exact Γ M) (label : String) : (c.openScope label []).Exact Γ M where
  grown := hc.grown.openScope label []
  depth := hc.depth
  binds x := by simpa [Context.openScope, Context.binds] using hc.binds x
  fresh := hc.fresh
  typed := hc.typed
  judged := hc.judged

theorem ends_infer (hc : c.Exact Γ M) (hΓ : Γ.Bounded M) (he : e.Applicative) :
    Ends (CheckM.infer e c) (fun a _ => ∃ t, HasType Γ e t ∧ a = t.spread) fun err _ => e.FailsAtFirst Γ err := by
  have hbody := (hc.openScope ("infer " ++ e.render)).ends_checkTerm hΓ he
  rw [infer, withScope_run]
  cases hr : CheckM.checkTerm e (c.openScope ("infer " ++ e.render) []) with
  | ok a d =>
    rw [hr] at hbody
    exact hbody.2
  | error err d =>
    rw [hr] at hbody
    exact hbody

end Context.Exact

theorem frame_infer (e : Term) : Obeys (fun c d => ∃ k tr, d = { c with counter := k, trace := tr }) (fun _ _ => True)
    (Operation.infer e).run := by
  refine Obeys.discard fun c => ?_
  have hbody := Context.Later.law.obeys_checkTerm e (c.openScope ("infer " ++ e.render) [])
  rw [infer, withScope_run]
  cases hr : checkTerm e (c.openScope ("infer " ++ e.render) []) with
  | ok a d =>
    rw [hr] at hbody
    exact ⟨_, _, hbody.closeScope⟩
  | error err d =>
    rw [hr] at hbody
    exact ⟨⟨_, _, hbody.1.closeScope⟩, trivial⟩

def Stmt.assumed? (s : Store) (x : String) : Stmt → Option Ty
  | assume y t => if y = x then (s.resolveTy t).toOption.bind OpenTy.ground? else none
  | define .. | fix .. | synonym .. | primitive _ | group .. => none

def Program.assumed (s : Store) (p : Program) : Env := fun x => p.findSome? (Stmt.assumed? s x)

namespace Program

variable {s : Store} {p : Program} {x : String} {t r : Ty}

theorem exists_assume (h : p.assumed s x = some r) :
    ∃ t, .assume x t ∈ p ∧ (s.resolveTy t).toOption.bind OpenTy.ground? = some r := by
  obtain ⟨st, hmem, hst⟩ := List.exists_of_findSome?_eq_some h
  cases st with
  | assume y t =>
    obtain ⟨rfl, ht⟩ := (Option.ite_none_right_eq_some).mp hst
    exact ⟨t, hmem, ht⟩
  | _ => cases hst

theorem assumed_eq_some (hr : r.FirstOrder) (h : ∀ t, .assume x t ∈ p → s.resolveTy t = .ok r.spread)
    (hmem : .assume x t ∈ p) : p.assumed s x = some r := by
  cases hx : p.assumed s x with
  | none =>
    have hnone := List.findSome?_eq_none_iff.mp hx _ hmem
    simp [Stmt.assumed?, h t hmem, Except.toOption, Ty.ground?_spread hr] at hnone
  | some r' =>
    obtain ⟨u, hu, hr'⟩ := exists_assume hx
    rw [← hr', h u hu]
    exact Ty.ground?_spread hr

theorem exists_size_le (s : Store) (p : Program) : ∃ M, ∀ x r, p.assumed s x = some r → r.size ≤ M := by
  induction p with
  | nil => exact ⟨0, by simp [assumed]⟩
  | cons st p ih =>
    obtain ⟨M, hM⟩ := ih
    obtain ⟨K, hK⟩ : ∃ K, ∀ x r, st.assumed? s x = some r → r.size ≤ K := by
      cases st with
      | assume y t =>
        refine ⟨((s.resolveTy t).toOption.bind OpenTy.ground?).elim 0 Ty.size, fun x r hr => ?_⟩
        rw [(Option.ite_none_right_eq_some.mp hr).2]
        exact Nat.le_refl _
      | _ => exact ⟨0, by simp [Stmt.assumed?]⟩
    refine ⟨max K M, fun x r hr => ?_⟩
    rw [assumed, List.findSome?_cons] at hr
    split at hr
    · next hst => exact Nat.le_trans (hK x r (hst.trans hr)) (Nat.le_max_left K M)
    · exact Nat.le_trans (hM x r hr) (Nat.le_max_right K M)

end Program

namespace Context.Assumes

variable {U : Finset String} {p : Program} {c : Context} {n : String} {t s : Ty}

theorem exists_spread (hc : c.Assumes U p) (ht : t.FirstOrder)
    (hknown : ∀ x ∈ t.names, ∃ r, c.store.resolve (.unknown x) = .ok r ∧ r.unknowns = []) :
    ∃ s : Ty, s.FirstOrder ∧ c.store.resolve t.embed = .ok s.spread := by
  obtain ⟨a, ha⟩ : ∃ a, c.store.resolve t.embed = .ok a := by
    refine Store.exists_resolve_iff.mpr fun x hx => ?_
    obtain ⟨r, hr, -⟩ := hknown x (unknowns_embed t ▸ hx)
    exact Store.exists_resolve_iff.mp ⟨r, hr⟩ x List.mem_cons_self
  have hclosed : a.unknowns = [] := by
    refine List.eq_nil_iff_forall_not_mem.mpr fun y hy => ?_
    obtain ⟨hok, rfl⟩ := bindM_eq_ok_iff.mp ha
    obtain ⟨x, hx, hyx⟩ := mem_unknowns_bind.mp hy
    obtain ⟨r, hr, hnone⟩ := hknown x (unknowns_embed t ▸ hx)
    cases (hok x hx).symm.trans hr
    rw [hnone] at hyx
    cases hyx
  obtain ⟨s, hs, rfl⟩ := (Atomic.hereditary.resolve hc.atomic.store ht.atomic_embed ha).exists_spread hclosed
  exact ⟨s, hs, ha⟩

variable (hc : c.Assumes U p)
  (hknown : ∀ n t, .assume n t ∈ p → ∃ s : Ty, s.FirstOrder ∧ c.store.resolve t.embed = .ok s.spread)
include hc hknown

theorem resolve_judgment {j : Judgment} (hj : j ∈ c.judgments) :
    ∃ n t s, .assume n t ∈ p ∧ j.term = .var n none ∧ c.store.resolve t.embed = .ok (Ty.spread s) ∧
      c.store.resolve j.type = .ok s.spread := by
  obtain ⟨n, t, r, hmem, hterm, hr, ht⟩ := hc.sources j hj
  obtain ⟨s, hs, hres⟩ := hknown n t hmem
  exact ⟨n, t, s, hmem, hterm, hres, hc.grown.store.resolve_resolved hr ht hres⟩

theorem assumed_eq_some (hmem : .assume n t ∈ p) :
    ∃ s : Ty, s.FirstOrder ∧ c.store.resolve t.embed = .ok s.spread ∧ p.assumed c.store n = some s := by
  obtain ⟨s, hs, hres⟩ := hknown n t hmem
  obtain ⟨j, hj, hid⟩ := hc.agreed n t hmem
  obtain ⟨_, _, r, _, _, _, hr⟩ := hc.resolve_judgment hknown (List.mem_of_find?_eq_some hj)
  have hrs := hid c.store List.prefix_rfl hc.grown.store _ _ hres hr
  refine ⟨s, hs, hres, Program.assumed_eq_some hs (fun u hu => ?_) hmem⟩
  obtain ⟨s', -, hres'⟩ := hknown n u hu
  obtain ⟨j', hj', hid'⟩ := hc.agreed n u hu
  cases hj.symm.trans hj'
  rw [Store.resolveTy_eq_resolve, hres', hrs]
  exact congrArg _ (hid' c.store List.prefix_rfl hc.grown.store _ _ hres' hr)

theorem exists_bounded : ∃ M, (p.assumed c.store).Bounded M := by
  obtain ⟨M, hM⟩ := p.exists_size_le c.store
  refine ⟨M + 1, Nat.succ_pos M, fun x t hx => ⟨?_, Nat.le_succ_of_le (hM x t hx)⟩⟩
  obtain ⟨u, hu, -⟩ := Program.exists_assume hx
  obtain ⟨s, hs, -, hs'⟩ := hc.assumed_eq_some hknown hu
  cases hx.symm.trans hs'
  exact hs

theorem exact (hU : ∀ x ∈ U, ∀ i, x ≠ unknownName i) {M m : Nat} (hm : M + 2 ≤ m) :
    (c.withDepth m).Exact (p.assumed c.store) M where
  grown := ⟨hc.grown.store, hc.grown.scopes⟩
  depth := hm
  binds x := by simp [Context.binds, withDepth, hc.scopes]
  fresh i _ b hb := hU b.name (hc.within.store b hb).1 i
  typed e j hj := by
    obtain ⟨n, t, s, hmem, hterm, hres, hjres⟩ := hc.resolve_judgment hknown (List.mem_of_find?_eq_some hj)
    obtain ⟨s', -, hres', hn⟩ := hc.assumed_eq_some hknown hmem
    have hs : s.spread = s'.spread := Except.ok.inj (hres.symm.trans hres')
    refine ⟨s', ?_, hs ▸ hjres⟩
    rw [judgment?] at hj
    have hsame := List.find?_some hj
    exact HasType.of_same (.var hn) (hterm ▸ hsame)
  judged x t hx := by
    obtain ⟨u, hu, -⟩ := Program.exists_assume hx
    obtain ⟨j, hj, -⟩ := hc.agreed x u hu
    exact ⟨j, hj⟩

end Context.Assumes

/-- After a program without bodies, quantifiers and indices has been accepted, inference is exact on terms without
binders, if the names in assumptions stand for known types and no type has the name of an unknown. It finds the simple
type of a term if there is one, where a name has the type that all assumptions on it come to. Otherwise it fails at the
first subterm that has no type, parts before the whole: a variable is not known, or the types of an application do not
fit. Either way bindings, judgments and scopes stay as they are. -/
theorem infer_exact {options : Options} {trace : Trace} {p : Program} (hp : ∀ s ∈ p, s.Bodiless ∧ s.FirstOrder)
    (hok : (check options trace p).ok = true) (hnames : ∀ x ∈ p.typeNames, ∀ i, x ≠ unknownName i)
    (hknown : ∀ n t, .assume n t ∈ p → ∀ x ∈ t.names,
      ∃ r, (check options trace p).context.store.resolve (.unknown x) = .ok r ∧ r.unknowns = []) :
    let c := (check options trace p).context
    let Γ := p.assumed c.store
    (∀ n t, .assume n t ∈ p → ∃ s, Γ n = some s ∧ c.store.resolveTy t = .ok s.spread) ∧
    ∃ N, ∀ m ≥ N, ∀ e : Term, e.Applicative →
      (∀ t, (∃ d, infer e (c.withDepth m) = .ok t.spread d) ↔ HasType Γ e t) ∧
      ((¬∃ t, HasType Γ e t) → ∃ err d, infer e (c.withDepth m) = .error err d ∧ e.FailsAtFirst Γ err) ∧
      let d := (Operation.infer e).after (c.withDepth m)
      d.store = c.store ∧ d.judgments = c.judgments ∧ d.scopes = c.scopes := by
  intro c Γ
  have hc : c.Assumes p.typeNames.toFinset p := assumes_check hp hok
  have hspread : ∀ n t, .assume n t ∈ p → ∃ s : Ty, s.FirstOrder ∧ c.store.resolve t.embed = .ok s.spread :=
    fun n t hmem => hc.exists_spread (hp _ hmem).2 (hknown n t hmem)
  obtain ⟨M, hM⟩ := hc.exists_bounded hspread
  refine ⟨fun n t hmem => ?_, M + 2, fun m hm e he => ?_⟩
  · obtain ⟨s, -, hres, hn⟩ := hc.assumed_eq_some hspread hmem
    exact ⟨s, hn, (Store.resolveTy_eq_resolve _ t).trans hres⟩
  have hexact := (hc.exact hspread (by simpa using hnames) hm).ends_infer hM he
  refine ⟨fun t => ⟨?_, fun ht => ?_⟩, fun hnone => ?_, ?_⟩
  · rintro ⟨d, hrun⟩
    rw [hrun] at hexact
    obtain ⟨s, hs, heq⟩ := hexact
    -- nothing else is said of `t`, but it is spread to the same type as `s`
    have hsfirst := (hM.of_hasType he hs).1
    have htfirst : t.FirstOrder := Ty.atomic_spread.mp (heq ▸ Ty.atomic_spread.mpr hsfirst)
    rwa [Ty.spread_inj htfirst hsfirst heq]
  · cases hrun : infer e (c.withDepth m) with
    | ok a d =>
      rw [hrun] at hexact
      obtain ⟨s, hs, rfl⟩ := hexact
      exact ⟨d, by rw [hs.unique he ht]⟩
    | error err d =>
      rw [hrun] at hexact
      obtain ⟨before, f, after, hsplit, -, hf, -⟩ := hexact
      exact absurd (ht.outer he (by simp [hsplit])) hf
  · cases hrun : infer e (c.withDepth m) with
    | ok a d =>
      rw [hrun] at hexact
      obtain ⟨s, hs, -⟩ := hexact
      exact absurd ⟨s, hs⟩ hnone
    | error err d =>
      rw [hrun] at hexact
      exact ⟨err, d, rfl, hexact⟩
  · obtain ⟨k, tr, hafter⟩ := Operation.after_of_obeys (frame_infer e) (c.withDepth m)
    simp only [hafter]
    exact ⟨rfl, rfl, rfl⟩

theorem infer_exact_synonym :
    let p : Program := [.primitive "A", .synonym "F" (.fn (.name "A") (.name "A")), .assume "f" (.name "F"),
      .assume "f" (.fn (.name "A") (.name "A")), .assume "a" (.name "A"), .synonym "L" (.fn (.name "L") (.prim .nat))]
    let o := check {} (.new false) p
    let f := Term.var "f" none
    let a := Term.var "a" none
    o.ok = true ∧ (∃ b ∈ o.context.store, b.Loops) ∧ ∃ N, ∀ m ≥ N,
      (∃ d, infer (.app f (.app f a)) (o.context.withDepth m) = .ok (.ground (.name "A")) d) ∧
      ∃ t s d, infer (.app a a) (o.context.withDepth m) = .error (.mismatch t s) d := by
  intro p o f a
  have hok : o.ok = true := by decide +kernel
  have hstore : o.context.store = [⟨"A", .ground (.name "A")⟩,
      ⟨"F", .fn (.ground (.name "A")) (.ground (.name "A"))⟩, ⟨"L", .fn (.unknown "L") (.ground (.prim .nat))⟩] := by
    decide +kernel
  have hnames : ∀ x ∈ p.typeNames, ∀ i, x ≠ unknownName i := by
    have hfirst : ∀ x ∈ p.typeNames, x.toList.head? ≠ some 't' := by decide +kernel
    intro x hx i h
    refine hfirst x hx ?_
    simp [h, unknownName]
  have hresolve : ∀ x ∈ ["A", "F"], ∃ r, o.context.store.resolve (.unknown x) = .ok r ∧ r.unknowns = [] := by
    rw [hstore]
    exact List.forall_mem_cons.mpr ⟨⟨_, rfl, rfl⟩, List.forall_mem_singleton.mpr ⟨_, rfl, rfl⟩⟩
  have hassumed : ∀ n t, .assume n t ∈ p → ∀ x ∈ t.names, x ∈ ["A", "F"] := by
    intro n t hmem
    simp only [p, List.mem_cons, Stmt.assume.injEq, reduceCtorEq, List.not_mem_nil, false_or, or_false] at hmem
    rcases hmem with ⟨-, rfl⟩ | ⟨-, rfl⟩ | ⟨-, rfl⟩ <;> simp [Ty.names]
  obtain ⟨-, N, hN⟩ := infer_exact (by simp [p, Stmt.Bodiless, Stmt.FirstOrder, Ty.FirstOrder]) hok hnames
    fun n t hmem x hx => hresolve x (hassumed n t hmem x hx)
  have hf : HasType (p.assumed o.context.store) f (.fn (.name "A") (.name "A")) := .var (by rw [hstore]; rfl)
  have ha : HasType (p.assumed o.context.store) a (.name "A") := .var (by rw [hstore]; rfl)
  refine ⟨hok, ?_, N, fun m hm => ⟨?_, ?_⟩⟩
  · rw [hstore]
    exact ⟨_, List.mem_cons_of_mem _ (List.mem_cons_of_mem _ List.mem_cons_self), List.mem_cons_self⟩
  · exact ((hN m hm (.app f (.app f a)) ⟨trivial, trivial, trivial⟩).1 (.name "A")).mpr (.app hf (.app hf ha))
  · have hnone : ¬∃ t, HasType (p.assumed o.context.store) (.app a a) t := by
      rintro ⟨t, h⟩
      cases h with
      | app h _ => cases HasType.unique (e := a) trivial ha h
    obtain ⟨err, d, hrun, before, g, after, hsplit, -, hg, hfault⟩ := (hN m hm (.app a a) ⟨trivial, trivial⟩).2.1 hnone
    have hmem : g ∈ [a, a, .app a a] := (by simp [hsplit] : g ∈ (Term.app a a).outer)
    simp only [List.mem_cons, List.not_mem_nil, or_false, or_self_left] at hmem
    rcases hmem with rfl | rfl
    · exact absurd ⟨_, ha⟩ hg
    · obtain ⟨t, s, rfl⟩ := hfault
      exact ⟨t, s, d, hrun⟩

end IndexedTyping
