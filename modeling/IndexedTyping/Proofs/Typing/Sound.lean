import IndexedTyping.Proofs.Check.Later
import IndexedTyping.Proofs.Typing.Model
import IndexedTyping.Text.Integer

/-!
The judgments that checking makes are right in the looser discipline, whatever model of the store is taken.

The models of the store inside of a scope are not those outside of it, so a parameter of an abstraction outside has a
type of its own there. What comes out of a scope is a type with all bindings of the scope carried out, and that is
enough to find a model inside of the scope for each model outside.
-/

namespace IndexedTyping

open OpenTy CheckM

theorem unknownName_injective {i j : Nat} (h : unknownName i = unknownName j) : i = j :=
  Text.repr_injective ((String.append_right_inj "t").mp h)

def Below (k : Nat) : Set String := {x | ∀ i ≥ k, x ≠ unknownName i}

theorem Below.mono {k n : Nat} (h : k ≤ n) : Below k ⊆ Below n := fun _ hx i hi => hx i (Nat.le_trans h hi)

theorem unknownName_mem_below (k : Nat) : unknownName k ∈ Below (k + 1) := by
  intro i hi h
  exact absurd (unknownName_injective h) (Nat.ne_of_lt hi)

theorem unknownName_notMem_below (k : Nat) : unknownName k ∉ Below k := fun h => h k (Nat.le_refl k) rfl

structure OpenTy.Made (k : Nat) (t : OpenTy) : Prop where
  firstOrder : t.FirstOrder
  below : ∀ x ∈ t.unknowns, x ∈ Below k

theorem OpenTy.Made.mono {k n : Nat} {t : OpenTy} (ht : t.Made k) (h : k ≤ n) : t.Made n :=
  ⟨ht.firstOrder, fun x hx => Below.mono h (ht.below x hx)⟩

theorem OpenTy.Made.fn {k : Nat} {a b : OpenTy} (ha : a.Made k) (hb : b.Made k) : (OpenTy.fn a b).Made k :=
  ⟨⟨ha.firstOrder, hb.firstOrder⟩, fun x hx => (List.mem_append.mp hx).elim (ha.below x) (hb.below x)⟩

theorem OpenTy.Made.app {k : Nat} {a b : OpenTy} (ha : a.Made k) (hb : b.Made k) : (OpenTy.app a b).Made k :=
  ⟨⟨ha.firstOrder, hb.firstOrder⟩, fun x hx => (List.mem_append.mp hx).elim (ha.below x) (hb.below x)⟩

theorem OpenTy.Made.ground (k : Nat) {t : Ty} (ht : t.FirstOrder) : (OpenTy.ground t).Made k := ⟨ht, by simp [unknowns]⟩

theorem OpenTy.Made.unknown (k : Nat) : (OpenTy.unknown (unknownName k)).Made (k + 1) :=
  ⟨trivial, fun _ hx => List.mem_singleton.mp hx ▸ unknownName_mem_below k⟩

namespace Context

def env (c : Context) (θ : Valuation) : Env := fun x => (c.judgment? (.var x none)).map (·.type.inst θ)

theorem env_judge_var (c : Context) (θ : Valuation) (x : String) (l : Option Location) (a : OpenTy) :
    env { c with judgments := ⟨.var x l, a⟩ :: c.judgments } θ = (c.env θ).assign x (a.inst θ) := by
  funext y
  rw [env, judgment?_cons, Env.assign]
  by_cases hxy : y = x
  · simp [hxy, Term.same]
  · simp [hxy, Term.same, env]

theorem env_judge {c : Context} (θ : Valuation) {e : Term} (he : ∀ x l, e ≠ .var x l) (a : OpenTy) :
    env { c with judgments := ⟨e, a⟩ :: c.judgments } θ = c.env θ := by
  funext y
  rw [env, judgment?_cons, if_neg, env]
  cases e with
  | var x l => exact absurd rfl (he x l)
  | _ => simp [Term.same]

theorem Later.env {c d : Context} (h : c.Later d) {θ : Valuation} {x : String} {t : Ty} (hx : c.env θ x = some t) :
    d.env θ x = some t := by
  obtain ⟨j, hj, rfl⟩ := Option.map_eq_some_iff.mp hx
  exact Option.map_eq_some_iff.mpr ⟨j, h.judgments _ j hj, rfl⟩

end Context

/-- `ps` are the parameters of the scopes that are open, and `Γ` has the types of all other names. -/
structure Sound (ps : List String) (Γ : Env) (c : Context) : Prop where
  regular : c.Regular
  rollback : c.options.rollback = false
  binds : ∀ x, c.binds x = true ↔ x ∈ ps
  below : c.store.Within (Below c.counter)
  made : ∀ e j, c.judgment? e = some j → j.type.Made c.counter
  globals : ∀ θ, c.store.Models θ → ∀ x, x ∉ ps → c.env θ x = Γ x
  typed : ∀ θ, c.store.Models θ → ∀ e j, c.judgment? e = some j → LooselyTyped ps (c.env θ) e (j.type.inst θ)

namespace Sound

variable {ps : List String} {Γ Γ' : Env} {c d : Context} {a b t : OpenTy} {e : Term} {x : String}

theorem made_apply (hc : Sound ps Γ c) (ht : t.Made c.counter) : (c.store.apply t).Made c.counter :=
  ⟨hc.regular.firstOrder.apply ht.firstOrder, hc.below.mem_apply ht.below⟩

theorem resolve_eq (hc : Sound ps Γ c) (h : c.store.resolve t = .ok a) : a = c.store.apply t := by
  rw [hc.regular.triangular.resolve_eq_apply] at h
  exact (Except.ok.inj h).symm

theorem trace (hc : Sound ps Γ c) (tr : Trace) : Sound ps Γ { c with trace := tr } :=
  ⟨hc.regular.copy rfl rfl, hc.rollback, hc.binds, hc.below, hc.made, hc.globals, hc.typed⟩

theorem count (hc : Sound ps Γ c) {n : Nat} (hn : c.counter ≤ n) : Sound ps Γ { c with counter := n } :=
  ⟨hc.regular.copy rfl rfl, hc.rollback, hc.binds, hc.below.mono (Below.mono hn),
    fun e j hj => (hc.made e j hj).mono hn, hc.globals, hc.typed⟩

theorem globals_congr (hc : Sound ps Γ c) (hΓ : ∀ θ, c.store.Models θ → ∀ x, x ∉ ps → c.env θ x = Γ' x) :
    Sound ps Γ' c :=
  ⟨hc.regular, hc.rollback, hc.binds, hc.below, hc.made, hΓ, hc.typed⟩

theorem joins (hc : Sound ps Γ c) (ha : a.Made c.counter) (hb : b.Made c.counter) (h : Joins a b c d) :
    Sound ps Γ d := by
  obtain ⟨new, hnew, hwithin⟩ := h.grows
  have hmodels : ∀ θ, d.store.Models θ → c.store.Models θ := fun θ hθ => ((h.models_iff θ).mp hθ).1
  have hbelow : d.store.Within (Below c.counter) := by
    rw [hnew]
    intro bd hbd
    rcases List.mem_append.mp hbd with hbd | hbd
    · exact hc.below bd hbd
    · refine hwithin.mono (fun x hx => ?_) bd hbd
      exact hx.elim ((hc.made_apply ha).below x) ((hc.made_apply hb).below x)
  have hregular := h.regular
  rw [h.frame] at hregular ⊢
  exact ⟨hregular, hc.rollback, hc.binds, hbelow, hc.made,
    fun θ hθ => hc.globals θ (hmodels θ hθ), fun θ hθ => hc.typed θ (hmodels θ hθ)⟩

theorem unify (hc : Sound ps Γ c) (ha : a.Made c.counter) (hb : b.Made c.counter) (h : CheckM.unify a b c = .ok () d) :
    Sound ps Γ d ∧ Joins a b c d := by
  have hjoins := joins_of_unify hc.regular ha.firstOrder hb.firstOrder h
  exact ⟨hc.joins ha hb hjoins, hjoins⟩

theorem judge (hc : Sound ps Γ c) (hj : c.judgment? e = none) (ha : a.Made c.counter)
    (hglobals : ∀ θ, c.store.Models θ → ∀ x, x ∉ ps →
      Context.env { c with judgments := ⟨e, a⟩ :: c.judgments } θ x = Γ' x)
    (htyped : ∀ θ, c.store.Models θ →
      LooselyTyped ps (Context.env { c with judgments := ⟨e, a⟩ :: c.judgments } θ) e (a.inst θ)) :
    Sound ps Γ' { c with judgments := ⟨e, a⟩ :: c.judgments } where
  regular := hc.regular.copy rfl rfl
  rollback := hc.rollback
  binds := hc.binds
  below := hc.below
  made f j hf := by
    rw [Context.judgment?_cons] at hf
    split at hf
    · cases hf
      exact ha
    · exact hc.made f j hf
  globals := hglobals
  typed θ hθ f j hf := by
    rw [Context.judgment?_cons] at hf
    split at hf
    · next hsame =>
      cases hf
      exact (htyped θ hθ).of_same hsame
    · exact (hc.typed θ hθ f j hf).weaken fun x t hx => (Context.Later.judge hj).env hx

theorem openScope (hc : Sound ps Γ c) (label : String) (binders : List String) :
    Sound (binders ++ ps) Γ (c.openScope label binders) where
  regular := hc.regular.copy rfl rfl
  rollback := hc.rollback
  binds x := by
    have hx := hc.binds x
    rw [Context.binds] at hx
    rw [Context.binds, Context.openScope, List.any_cons, Bool.or_eq_true, hx, List.mem_append, List.contains_iff_mem]
  below := hc.below
  made := hc.made
  globals θ hθ x hx := hc.globals θ hθ x fun hmem => hx (List.mem_append_right _ hmem)
  typed θ hθ e j hj := (hc.typed θ hθ e j hj).mono fun x hx => List.mem_append_right _ hx

theorem closeScope (hc : Sound ps Γ c) {label : String} {binders : List String}
    (h : Context.Later (c.openScope label binders) d) : Sound ps Γ d.closeScope ∧ d.closeScope.counter = d.counter := by
  rw [h.closeScope, if_neg (by simp [hc.rollback])]
  exact ⟨(hc.count h.counter).trace _, rfl⟩

theorem typed_apply (hc : Sound ps Γ c) {j : Judgment} (hj : c.judgment? e = some j) (θ : Valuation) :
    LooselyTyped ps (c.env (c.store.solve hc.regular.firstOrder θ)) e ((c.store.apply j.type).inst θ) := by
  have htyped := hc.typed _ (hc.regular.triangular.models_solve hc.regular.firstOrder θ) e j hj
  rwa [Store.inst_solve] at htyped

theorem globals_solve (hc : Sound ps Γ c) (θ : Valuation) (hx : x ∉ ps) :
    c.env (c.store.solve hc.regular.firstOrder θ) x = Γ x :=
  hc.globals _ (hc.regular.triangular.models_solve hc.regular.firstOrder θ) x hx

theorem declare (hc : Sound ps Γ c) (ht : t.Made c.counter) (he : ∀ x l, e ≠ .var x l)
    (htyped : ∀ θ, c.store.Models θ → LooselyTyped ps (c.env θ) e (t.inst θ)) (h : CheckM.declare e t c = .ok () d) :
    Sound ps Γ d := by
  obtain ⟨a, tr, ha, ⟨j, hj, hunify⟩ | ⟨hj, rfl⟩⟩ := declare_eq_ok h
  · cases hc.resolve_eq ha
    exact ((hc.trace tr).unify (hc.made_apply ht) (hc.made e j hj) hunify).1
  · cases hc.resolve_eq ha
    refine (hc.trace tr).judge hj (hc.made_apply ht) (fun θ hθ x hx => ?_) fun θ hθ => ?_
    · rw [Context.env_judge θ he]
      exact hc.globals θ hθ x hx
    · rw [Context.env_judge θ he, hθ.inst_apply]
      exact htyped θ hθ

theorem apply_next (hc : Sound ps Γ c) :
    c.store.apply (.unknown (unknownName c.counter)) = .unknown (unknownName c.counter) := by
  refine Store.apply_of_notMem fun hmem => unknownName_notMem_below c.counter ?_
  obtain ⟨b, hb, hname⟩ := List.mem_map.mp hmem
  exact hname ▸ (hc.below b hb).1

theorem declare_next (hc : Sound ps Γ c) {l : Option Location}
    (hx : x ∈ ps ∨ ∃ j, c.judgment? (.var x l) = some j)
    (h : (do CheckM.declare (.var x l) (← newUnknown)) c = .ok () d) :
    Sound ps Γ d ∧ ∀ t : OpenTy, t.Made c.counter → d.store.apply t = c.store.apply t := by
  rw [bind_ok (newUnknown_run c)] at h
  have hc' := (hc.count (Nat.le_succ c.counter)).trace (c.trace.emit "FreeName" (unknownName c.counter))
  have hmade := OpenTy.Made.unknown c.counter
  obtain ⟨a, tr, ha, ⟨j, hj, hunify⟩ | ⟨hj, rfl⟩⟩ := declare_eq_ok h
  · obtain rfl : a = .unknown (unknownName c.counter) := (hc'.resolve_eq ha).trans hc.apply_next
    refine ⟨((hc'.trace tr).unify hmade (hc'.made _ j hj) hunify).1, fun t ht => ?_⟩
    -- the one binding that is added is that of the new unknown, which no earlier type has
    have hnext : ∀ t : OpenTy, t.Made c.counter → unknownName c.counter ∉ (c.store.apply t).unknowns := fun t ht hmem =>
      unknownName_notMem_below c.counter ((hc.made_apply ht).below _ hmem)
    rw [store_of_unify_unknown (hc'.trace tr).regular hc.apply_next (hnext _ (hc.made _ j hj)) hunify,
      Store.apply_append]
    exact Binding.replace_of_notMem (hnext t ht)
  · obtain rfl : a = .unknown (unknownName c.counter) := (hc'.resolve_eq ha).trans hc.apply_next
    -- without a judgment so far, the variable can only be a parameter
    have hx : x ∈ ps := hx.elim id fun ⟨j, hj'⟩ => absurd (hj.symm.trans hj') (by simp)
    refine ⟨(hc'.trace tr).judge hj hmade (fun θ hθ y hy => ?_) fun θ hθ => ?_, fun t _ => rfl⟩
    · have hyx : y ≠ x := fun hyx => hy (hyx ▸ hx)
      rw [Context.env_judge_var, Env.assign_of_ne hyx]
      exact hc'.globals θ hθ y hy
    · rw [Context.env_judge_var]
      exact .var (Env.assign_self _ _ _)

def Gives (d : Context) (e : Term) (a : OpenTy) : Prop := ∃ j, d.judgment? e = some j ∧ a = d.store.apply j.type

theorem gives_of_typeOf (hd : Sound ps Γ d) (h : typeOf e d = .ok a d) : Gives d e a := by
  obtain ⟨-, j, hj, ha⟩ := typeOf_eq_ok h
  exact ⟨j, hj, hd.resolve_eq ha⟩

theorem judged {m : CheckM Unit} (h : CheckM.judged e m c = .ok a d)
    (hm : ∀ tr d', m { c with trace := tr } = .ok () d' → Sound ps Γ d') : Sound ps Γ d ∧ Gives d e a := by
  obtain ⟨tr, tr', d', hrun, htype, rfl⟩ := judged_eq_ok h
  have hd := hm tr d' hrun
  exact ⟨hd.trace tr', hd.gives_of_typeOf htype⟩

theorem checkVar (hc : Sound ps Γ c) {l : Option Location} (h : CheckM.checkVar x l c = .ok a d) :
    Sound ps Γ d ∧ Gives d (.var x l) a ∧ ∀ t : OpenTy, t.Made c.counter → d.store.apply t = c.store.apply t := by
  obtain ⟨tr, tr', d', hrun, htype, rfl⟩ := judged_eq_ok h
  have hc' := hc.trace tr
  have hdeclare : Sound ps Γ d' ∧ ∀ t : OpenTy, t.Made c.counter → d'.store.apply t = c.store.apply t := by
    obtain ⟨_, _, hget, hrest⟩ := bind_eq_ok hrun
    cases hget
    dsimp only at hrest
    split at hrest
    · next hbinds => exact hc'.declare_next (.inl ((hc'.binds x).mp hbinds)) hrest
    · obtain ⟨_, _, hlook, hrest⟩ := bind_eq_ok hrest
      obtain ⟨rfl, j, hj, -⟩ := typeOf_eq_ok hlook
      exact hc'.declare_next (.inr ⟨j, hj⟩) hrest
  exact ⟨hdeclare.1.trace tr', hdeclare.1.gives_of_typeOf htype, hdeclare.2⟩

theorem made_of_gives (hd : Sound ps Γ d) (h : Gives d e a) : a.Made d.counter := by
  obtain ⟨j, hj, rfl⟩ := h
  exact hd.made_apply (hd.made e j hj)

theorem Gives.later (h : Gives c e a) (hd : c.Later d) {θ : Valuation} (hθ : d.store.Models θ) :
    ∃ j, d.judgment? e = some j ∧ j.type.inst θ = a.inst θ := by
  obtain ⟨j, hj, rfl⟩ := h
  exact ⟨j, hd.judgments e j hj, ((hθ.of_prefix hd.store).inst_apply j.type).symm⟩

theorem typed_of_gives (hd : Sound ps Γ d) (h : Gives c e a) (hcd : c.Later d) {θ : Valuation} (hθ : d.store.Models θ) :
    LooselyTyped ps (d.env θ) e (a.inst θ) := by
  obtain ⟨j, hj, hinst⟩ := h.later hcd hθ
  exact hinst ▸ hd.typed θ hθ e j hj

theorem typed_lam (hc : Sound ps Γ c) (hd : Sound (x :: ps) Γ d) {body : Term} (hbody : Gives d body b)
    (hparam : Gives d (.var x none) a) {θ : Valuation} (hθ : c.store.Models θ) :
    LooselyTyped ps (c.env θ) (.lam x body) (.fn (a.inst θ) (b.inst θ)) := by
  obtain ⟨jx, hjx, rfl⟩ := hparam
  obtain ⟨jb, hjb, rfl⟩ := hbody
  let inner := d.env (d.store.solve hd.regular.firstOrder θ)
  have hx : inner x = some ((d.store.apply jx.type).inst θ) := by
    rw [← Store.inst_solve hd.regular.firstOrder]
    exact Option.map_eq_some_iff.mpr ⟨jx, hjx, rfl⟩
  -- outside of the body, the parameter is what it was
  let outer : Env := fun y => if y = x then c.env θ x else inner y
  have hinner : outer.assign x ((d.store.apply jx.type).inst θ) = inner := by
    funext y
    by_cases hyx : y = x
    · rw [hyx, Env.assign_self, hx]
    · rw [Env.assign_of_ne hyx]
      exact if_neg hyx
  refine .lam (Δ := outer) (fun y hy => ?_) (hinner ▸ hd.typed_apply hjb θ)
  by_cases hyx : y = x
  · rw [hyx]
    exact if_pos rfl
  · have hy' : y ∉ x :: ps := fun hmem => (List.mem_cons.mp hmem).elim hyx hy
    exact (if_neg hyx).trans ((hd.globals_solve θ hy').trans (hc.globals θ hθ y hy).symm)

def Checks (Γ : Env) (e : Term) : Prop :=
  ∀ ⦃ps c a d⦄, Sound ps Γ c → CheckM.checkTerm e c = .ok a d → Sound ps Γ d ∧ Gives d e a

theorem checks_var (x : String) (l : Option Location) : Checks Γ (.var x l) := by
  intro ps c a d hc h
  obtain ⟨hd, ha, -⟩ := hc.checkVar h
  exact ⟨hd, ha⟩

theorem checks_lit (v : Literal) : Checks Γ (.lit v) := by
  intro ps c a d hc h
  refine judged h fun tr d' hrun => ?_
  exact (hc.trace tr).declare (.ground _ (t := .prim v.prim) trivial) (by simp) (fun θ _ => .lit) hrun

theorem checks_lam {body : Term} (ih : Checks Γ body) : Checks Γ (.lam x body) := by
  intro ps c a d hc h
  refine judged h fun tr d' hrun => ?_
  obtain ⟨_, _, hscope, hdeclare⟩ := bind_eq_ok hrun
  obtain ⟨c₂, hinner, rfl⟩ := withScope_eq_ok hscope
  obtain ⟨q, c₁, hbody, hrest⟩ := bind_eq_ok hinner
  obtain ⟨p, _, hparam, hpair⟩ := bind_eq_ok hrest
  cases hpair
  obtain ⟨hc₁, hq⟩ := ih ((hc.trace tr).openScope _ [x]) hbody
  obtain ⟨hc₂, hp, hkeep⟩ := hc₁.checkVar hparam
  have hlater₁ := (Context.Later.law.obeys_checkTerm body).of_ok hbody
  have hlater₂ := (Context.Later.law.obeys_checkVar x none).of_ok hparam
  have hq : Gives c₂ body q := by
    obtain ⟨j, hj, rfl⟩ := hq
    exact ⟨j, hlater₂.judgments _ j hj, (hkeep _ (hc₁.made _ j hj)).symm⟩
  -- the scope is given up with all its judgments, and only the types `p` and `q` come out of it
  obtain ⟨hclosed, hcounter⟩ := (hc.trace tr).closeScope (Context.Later.law.trans hlater₁ hlater₂)
  have hmade := (hc₂.made_of_gives hp).fn (hc₂.made_of_gives hq)
  exact hclosed.declare (hcounter ▸ hmade) (by simp) (fun θ hθ => hclosed.typed_lam hc₂ hq hp hθ) hdeclare

theorem checks_app {f arg : Term} (ihf : Checks Γ f) (iha : Checks Γ arg) : Checks Γ (.app f arg) := by
  intro ps c a d hc h
  refine judged h fun tr d' hrun => ?_
  obtain ⟨p, c₁, hf, hrest⟩ := bind_eq_ok hrun
  obtain ⟨q, c₂, harg, hrest⟩ := bind_eq_ok hrest
  rw [bind_ok (newUnknown_run c₂)] at hrest
  obtain ⟨_, c₃, hunify, hdeclare⟩ := bind_eq_ok hrest
  obtain ⟨hc₁, hp⟩ := ihf (hc.trace tr) hf
  obtain ⟨hc₂, hq⟩ := iha hc₁ harg
  have hnew := (hc₂.count (Nat.le_succ _)).trace (c₂.trace.emit "FreeName" (unknownName c₂.counter))
  have hlater₂ := (Context.Later.law.obeys_checkTerm arg).of_ok harg
  have hunified := (Context.Later.law.obeys_unify p _).of_ok hunify
  have hlater₃ := Context.Later.law.trans (Context.Later.law.obeys_newUnknown.of_ok (newUnknown_run c₂)) hunified
  have hpmade := (hc₁.made_of_gives hp).mono (Nat.le_succ_of_le hlater₂.counter)
  have hqmade := ((hc₂.made_of_gives hq).mono (Nat.le_succ _)).fn (.unknown c₂.counter)
  obtain ⟨hc₃, hjoins⟩ := hnew.unify hpmade hqmade hunify
  refine hc₃.declare ((OpenTy.Made.unknown _).mono hunified.counter) (by simp) (fun θ hθ => ?_) hdeclare
  have hfn := hc₃.typed_of_gives hp (Context.Later.law.trans hlater₂ hlater₃) hθ
  rw [((hjoins.models_iff θ).mp hθ).2] at hfn
  exact .app hfn (hc₃.typed_of_gives hq hlater₃ hθ)

theorem checks (he : e.Simple) : Checks Γ e := by
  induction e with
  | var x l => exact checks_var x l
  | lit v => exact checks_lit v
  | lam x body ih => exact checks_lam (ih he)
  | app f arg ihf iha => exact checks_app (ihf he.1) (iha he.2)
  | recur f x body => exact he.elim

end Sound

end IndexedTyping
