import IndexedTyping.Proofs.Check.Satisfaction
import IndexedTyping.Proofs.Check.TypeNames
import IndexedTyping.Proofs.Store.Lenient
import IndexedTyping.Proofs.Unify.Termination

namespace IndexedTyping

open OpenTy CheckM

/-- No later store tells the two types apart by what they resolve to. -/
def Store.Identifies (strict : Bool) (s : Store) (a b : OpenTy) : Prop :=
  ∀ r : Store, s <+: r → r.Triangular strict → ∀ a' b', r.resolve a = .ok a' → r.resolve b = .ok b' → a' = b'

namespace Store.Identifies

variable {strict : Bool} {s r : Store} {a b a' b' p q p' q' : OpenTy}

theorem refl (a : OpenTy) : s.Identifies strict a a := fun _ _ _ _ _ ha hb => Except.ok.inj (ha.symm.trans hb)

theorem symm (h : s.Identifies strict a b) : s.Identifies strict b a :=
  fun r hr htri _ _ hb ha => (h r hr htri _ _ ha hb).symm

theorem mono (h : s.Identifies strict a b) (hr : s <+: r) : r.Identifies strict a b :=
  fun q hq => h q (hr.trans hq)

theorem of_resolved (h : r.Identifies strict a' b) (hs : s <+: r) (ha : s.resolve a = .ok a') :
    r.Identifies strict a b :=
  fun q hq htri _ _ hqa hqb => h q hq htri _ _ (htri.resolve_resolved (hs.trans hq) ha hqa) hqb

theorem fn (h : s.Identifies strict p q) (h' : s.Identifies strict p' q') :
    s.Identifies strict (.fn p p') (.fn q q') := by
  intro r hr htri _ _ ha hb
  obtain ⟨_, _, hp, hp', rfl⟩ := bind₂_eq_ok ha
  obtain ⟨_, _, hq, hq', rfl⟩ := bind₂_eq_ok hb
  rw [h r hr htri _ _ hp hq, h' r hr htri _ _ hp' hq']

theorem app (h : s.Identifies strict p q) (h' : s.Identifies strict p' q') :
    s.Identifies strict (.app p p') (.app q q') := by
  intro r hr htri _ _ ha hb
  obtain ⟨_, _, hp, hp', rfl⟩ := bind₂_eq_ok ha
  obtain ⟨_, _, hq, hq', rfl⟩ := bind₂_eq_ok hb
  rw [h r hr htri _ _ hp hq, h' r hr htri _ _ hp' hq']

theorem insert {x : String} {bd : Binding} (hb : s.binding x a = .ok bd) (hr : s.insert strict bd = .ok r) :
    r.Identifies strict (.unknown x) a := by
  obtain ⟨hname, hvalue⟩ := binding_eq_ok hb
  obtain ⟨-, rfl⟩ := insert_eq_ok hr
  have hs := List.prefix_append s [bd]
  have hbound : Identifies strict (s ++ [bd]) (.unknown bd.name) bd.value := fun q hq htri _ _ hqa hqb =>
    Except.ok.inj ((htri.resolve_value (hq.subset (by simp)) hqa).symm.trans hqb)
  exact ((hbound.of_resolved hs hname).symm.of_resolved hs hvalue).symm

end Store.Identifies

theorem OpenTy.Atomic.plan_cases {a b : OpenTy} (ha : a.Atomic) (hb : b.Atomic) :
    (∃ x, a = .unknown x ∧ a.plan b = .bind x b) ∨ (∃ x, b = .unknown x ∧ a.plan b = .bind x a) ∨
      (∃ p p' q q', a = .fn p p' ∧ b = .fn q q' ∧ a.plan b = .parts p q p' q') ∨
      (∃ p p' q q', a = .app p p' ∧ b = .app q q' ∧ a.plan b = .parts p q p' q') ∨
      a.plan b = .swap ∨ a.plan b = .clash := by
  cases a with
  | unknown x => exact .inl ⟨x, rfl, plan_unknown x b⟩
  | ground t =>
    cases b with
    | unknown x => exact .inr (.inl ⟨x, rfl, rfl⟩)
    | _ => cases t <;> simp_all [plan, isComposite, Atomic]
  | fn | app => cases b <;> simp [plan, isComposite]
  | all | indexed => exact ha.elim

def IdentifiesWithin (n : Nat) : Prop :=
  ∀ {a b : OpenTy} {c d : Context}, c.Grown → c.Throughout Atomic → a.Atomic → b.Atomic →
    unifyWithin n a b c = .ok () d → d.store.Identifies c.options.strictOccurs a b

theorem IdentifiesWithin.parts {n : Nat} (hn : IdentifiesWithin n) {p q p' q' : OpenTy} {c d : Context} (hg : c.Grown)
    (hc : c.Throughout Atomic) (hp : p.Atomic ∧ p'.Atomic) (hq : q.Atomic ∧ q'.Atomic)
    (h : (do unifyWithin n p q; unifyWithin n p' q' : CheckM Unit) c = .ok () d) :
    d.store.Identifies c.options.strictOccurs p q ∧ d.store.Identifies c.options.strictOccurs p' q' := by
  obtain ⟨_, c₁, hfirst, hsecond⟩ := bind_eq_ok h
  have hlater := (Context.Later.law.obeys_unifyWithin n p q).of_ok hfirst
  have hg₁ := (Context.Grown.law.obeys_unifyWithin n p q).of_ok hfirst hg
  obtain ⟨hc₁, -⟩ := (Atomic.hereditary.keeps_unifyWithin n hp.1 hq.1).of_ok hc hfirst
  have hstore := ((Context.Later.law.obeys_unifyWithin n p' q').of_ok hsecond).store
  exact ⟨(hn hg hc hp.1 hq.1 hfirst).mono hstore, hlater.options ▸ hn hg₁ hc₁ hp.2 hq.2 hsecond⟩

theorem IdentifiesWithin.carryOut {n : Nat} (hn : IdentifiesWithin n) {a b : OpenTy} {c d : Context} (hg : c.Grown)
    (hc : c.Throughout Atomic) (ha : a.Atomic) (hb : b.Atomic)
    (h : CheckM.carryOut (unifyWithin n) a b (a.plan b) c = .ok () d) :
    d.store.Identifies c.options.strictOccurs a b := by
  rcases ha.plan_cases hb with ⟨x, rfl, hplan⟩ | ⟨x, rfl, hplan⟩ | ⟨p, p', q, q', rfl, rfl, hplan⟩ |
      ⟨p, p', q, q', rfl, rfl, hplan⟩ | hplan | hplan
  · rw [hplan] at h
    obtain ⟨bd, s, tr, hbd, hs, rfl⟩ := bindUnknown_eq_ok h
    exact .insert hbd hs
  · rw [hplan] at h
    obtain ⟨bd, s, tr, hbd, hs, rfl⟩ := bindUnknown_eq_ok h
    exact (Store.Identifies.insert hbd hs).symm
  · rw [hplan] at h
    obtain ⟨hpq, hpq'⟩ := hn.parts hg hc ha hb h
    exact hpq.fn hpq'
  · rw [hplan] at h
    obtain ⟨hpq, hpq'⟩ := hn.parts hg hc ha hb h
    exact hpq.app hpq'
  · rw [hplan] at h
    exact (hn hg hc hb ha h).symm
  · rw [hplan] at h
    cases h

theorem identifiesWithin (n : Nat) : IdentifiesWithin n := by
  induction n with
  | zero =>
    intro a b c d _ _ _ _ h
    cases h
  | succ n ih =>
    intro a b c d hg hc ha hb h
    have hstore := ((Context.Later.law.obeys_unifyWithin (n + 1) a b).of_ok h).store
    obtain ⟨a', b', hra, hrb, hend⟩ := unifyWithin_eq_ok h
    have ha' := Atomic.hereditary.resolve hc.store ha hra
    have hb' := Atomic.hereditary.resolve hc.store hb hrb
    have hid : d.store.Identifies c.options.strictOccurs a' b' := by
      rcases hend with ⟨hsame, rfl⟩ | ⟨-, t, t', d', hrun, rfl⟩
      · rw [(same_iff ha'.firstOrder).mp hsame]
        exact .refl b'
      · exact ih.carryOut (c := { c with trace := t }) (d := d') ⟨hg.store, hg.scopes⟩
          ⟨hc.store, hc.judgments, hc.scopes⟩ ha' hb' hrun
    exact ((hid.of_resolved hstore hra).symm.of_resolved hstore hrb).symm

def Stmt.Bodiless : Stmt → Prop
  | assume .. | synonym .. | primitive _ => True
  | define .. | fix .. | group .. => False

structure Context.Assumes (U : Finset String) (p : Program) (c : Context) : Prop where
  grown : c.Grown
  atomic : c.Throughout Atomic
  within : c.Within (fun _ => True) U
  counter : c.counter = 0
  scopes : c.scopes = []
  sources : ∀ j ∈ c.judgments, ∃ (n : String) (t : Ty) (s : Store), .assume n t ∈ p ∧ j.term = .var n none ∧
    s <+: c.store ∧ s.resolve t.embed = .ok j.type
  agreed : ∀ n t, .assume n t ∈ p → ∃ j, c.judgment? (.var n none) = some j ∧
    c.store.Identifies c.options.strictOccurs t.embed j.type

namespace Context.Assumes

variable {U : Finset String} {p q : Program} {c d : Context} {n : String} {t : Ty} {a : OpenTy}

theorem new (options : Options) (trace : Trace) : (Context.new options trace).Assumes U [] where
  grown := ⟨.nil, by simp [Context.new]⟩
  atomic := .new options trace
  within := ⟨by simp [Context.new, Store.Over], by simp [Context.new]⟩
  counter := rfl
  scopes := rfl
  sources := by simp [Context.new]
  agreed := by simp

theorem trace (hc : c.Assumes U p) (tr : Trace) : Assumes U p { c with trace := tr } :=
  ⟨⟨hc.grown.store, hc.grown.scopes⟩, ⟨hc.atomic.store, hc.atomic.judgments, hc.atomic.scopes⟩,
    ⟨hc.within.store, hc.within.judgments⟩, hc.counter, hc.scopes, hc.sources, hc.agreed⟩

theorem grow (hc : c.Assumes U p) (hframe : d = { c with store := d.store, trace := d.trace })
    (hstore : c.store <+: d.store) (hgrown : d.Grown) (hatomic : d.Throughout Atomic)
    (hwithin : d.Within (fun _ => True) U) : d.Assumes U p where
  grown := hgrown
  atomic := hatomic
  within := hwithin
  counter := by rw [hframe]; exact hc.counter
  scopes := by rw [hframe]; exact hc.scopes
  sources := by
    have hjudgments : d.judgments = c.judgments := by rw [hframe]
    intro j hj
    obtain ⟨n, t, s, hmem, hterm, hs, ht⟩ := hc.sources j (hjudgments ▸ hj)
    exact ⟨n, t, s, hmem, hterm, hs.trans hstore, ht⟩
  agreed n t hmem := by
    obtain ⟨j, hj, hid⟩ := hc.agreed n t hmem
    have hoptions : d.options = c.options := by rw [hframe]
    have hjudgment : d.judgment? (.var n none) = c.judgment? (.var n none) := by rw [hframe]; rfl
    exact ⟨j, hjudgment.trans hj, hoptions ▸ hid.mono hstore⟩

theorem unify {b : OpenTy} (hc : c.Assumes U p) (ha : a.Atomic) (hb : b.Atomic) (hU : a.Over (fun _ => True) (· ∈ U))
    (hU' : b.Over (fun _ => True) (· ∈ U)) (h : CheckM.unify a b c = .ok () d) :
    d.Assumes U p ∧ c.store <+: d.store ∧ d.store.Identifies c.options.strictOccurs a b := by
  have hstore := ((Later.law.obeys_unify a b).of_ok h).store
  have hatomic := ((Atomic.hereditary.keeps_unify ha hb).of_ok hc.atomic h).1
  have hgrown := (Grown.law.obeys_unify a b).of_ok h hc.grown
  have hwithin := (hc.within.binds_of_unifyWithin hU hU' h).within
  exact ⟨hc.grow ((frame_law.obeys_unify a b).of_ok h) hstore hgrown hatomic hwithin, hstore,
    identifiesWithin _ hc.grown hc.atomic ha hb h⟩

theorem bindUnknown (hc : c.Assumes U p) (hn : n ∈ U) (ha : a.Atomic) (hU : a.Over (fun _ => True) (· ∈ U))
    (h : CheckM.bindUnknown n a c = .ok () d) : d.Assumes U p := by
  have hstore := ((Later.law.obeys_bindUnknown n a).of_ok h).store
  have hatomic := ((Atomic.hereditary.keeps_bindUnknown n ha).of_ok hc.atomic h).1
  have hgrown := (Grown.law.obeys_bindUnknown n a).of_ok h hc.grown
  have hbinds := bindsWithin_bindUnknown hn hU c hc.within
  rw [h] at hbinds
  exact hc.grow ((frame_law.obeys_bindUnknown n a).of_ok h) hstore hgrown hatomic hbinds.within

theorem resolveTy_eq_ok (hc : c.Assumes U p) (ht : t.FirstOrder) (hU : ∀ x ∈ t.names, x ∈ U)
    (h : CheckM.resolveTy t c = .ok a d) :
    d = c ∧ c.store.resolve t.embed = .ok a ∧ a.Atomic ∧ a.Over (fun _ => True) (· ∈ U) := by
  rw [resolveTy_run, Store.resolveTy_eq_resolve] at h
  obtain ⟨rfl, ha⟩ := resolve_eq_ok h
  have hembed : t.embed.Over (fun _ => True) (· ∈ U) := over_iff.mpr ⟨by simp, by simpa using hU⟩
  exact ⟨rfl, ha, Atomic.hereditary.resolve hc.atomic.store ht.atomic_embed ha,
    hc.within.store.resolve hembed ha⟩

theorem snoc (hc : c.Assumes U p) {s : Stmt} (hs : ∀ n t, s = .assume n t →
    ∃ j, c.judgment? (.var n none) = some j ∧ c.store.Identifies c.options.strictOccurs t.embed j.type) :
    c.Assumes U (p ++ [s]) where
  grown := hc.grown
  atomic := hc.atomic
  within := hc.within
  counter := hc.counter
  scopes := hc.scopes
  sources i hi := by
    obtain ⟨m, u, r, hmem, hrest⟩ := hc.sources i hi
    exact ⟨m, u, r, List.mem_append_left _ hmem, hrest⟩
  agreed m u hmem := by
    rcases List.mem_append.mp hmem with hmem | hmem
    · exact hc.agreed m u hmem
    · exact hs m u (List.mem_singleton.mp hmem).symm

theorem judge (hc : c.Assumes U p) (hj : c.judgment? (.var n none) = none) (ht : c.store.resolve t.embed = .ok a)
    (ha : a.Atomic) (hU : a.Over (fun _ => True) (· ∈ U)) :
    Assumes U (p ++ [.assume n t]) { c with judgments := ⟨.var n none, a⟩ :: c.judgments } where
  grown := ⟨hc.grown.store, hc.grown.scopes⟩
  atomic := ⟨hc.atomic.store, List.forall_mem_cons.mpr ⟨ha, hc.atomic.judgments⟩, hc.atomic.scopes⟩
  within := ⟨hc.within.store, List.forall_mem_cons.mpr ⟨hU, hc.within.judgments⟩⟩
  counter := hc.counter
  scopes := hc.scopes
  sources := by
    refine List.forall_mem_cons.mpr ⟨⟨n, t, c.store, by simp, rfl, List.prefix_rfl, ht⟩, fun i hi => ?_⟩
    obtain ⟨m, u, r, hmem, hrest⟩ := hc.sources i hi
    exact ⟨m, u, r, List.mem_append_left _ hmem, hrest⟩
  agreed m u hmem := by
    rcases List.mem_append.mp hmem with hmem | hmem
    · obtain ⟨j, hm, hid⟩ := hc.agreed m u hmem
      exact ⟨j, (Later.judge hj).judgments _ j hm, hid⟩
    · cases List.mem_singleton.mp hmem
      exact ⟨⟨.var n none, a⟩, by simp [judgment?, Term.same], (Store.Identifies.refl a).of_resolved List.prefix_rfl ht⟩

theorem declare (hc : c.Assumes U p) (ht : c.store.resolve t.embed = .ok a) (ha : a.Atomic)
    (hU : a.Over (fun _ => True) (· ∈ U)) (h : CheckM.declare (.var n none) a c = .ok () d) :
    d.Assumes U (p ++ [.assume n t]) := by
  obtain ⟨a', tr, ha', hend⟩ := declare_eq_ok h
  obtain rfl : a = a' :=
    Except.ok.inj ((Store.resolve_eq_self fun x hx => Store.unbound_of_resolve ht hx).symm.trans ha')
  rcases hend with ⟨j, hj, hunify⟩ | ⟨hj, rfl⟩
  · have hmem := List.mem_of_find?_eq_some hj
    obtain ⟨hd, hstore, hid⟩ :=
      (hc.trace tr).unify ha (hc.atomic.judgments j hmem) hU (hc.within.judgments j hmem) hunify
    have hlater := (Later.law.obeys_unify _ _).of_ok hunify
    refine hd.snoc fun m u hmu => ?_
    cases hmu
    exact ⟨j, hlater.judgments _ j hj, hlater.options ▸ hid.of_resolved hstore ht⟩
  · exact (hc.judge hj ht ha hU).trace tr

theorem checkStmtBody (hc : c.Assumes U p) {s : Stmt} (hs : s.Bodiless) (hfirst : s.FirstOrder)
    (hU : ∀ x ∈ s.typeNames, x ∈ U) (h : CheckM.checkStmtBody s c = .ok () d) : d.Assumes U (p ++ [s]) := by
  cases s with
  | assume n t =>
    obtain ⟨a, _, hresolve, hdeclare⟩ := bind_eq_ok h
    obtain ⟨rfl, ht, ha, haU⟩ := hc.resolveTy_eq_ok hfirst hU hresolve
    exact hc.declare ht ha haU hdeclare
  | synonym n t =>
    obtain ⟨hn, hU⟩ := List.forall_mem_cons.mp hU
    obtain ⟨a, _, hresolve, hbind⟩ := bind_eq_ok h
    obtain ⟨rfl, -, ha, haU⟩ := hc.resolveTy_eq_ok hfirst hU hresolve
    exact (hc.bindUnknown hn ha haU hbind).snoc fun _ _ h => by cases h
  | primitive n =>
    obtain ⟨_, _, hemit, hbind⟩ := bind_eq_ok h
    cases hemit
    have hn : n ∈ U := hU n List.mem_cons_self
    exact ((hc.trace _).bindUnknown hn (a := .ground (.name n)) trivial trivial hbind).snoc fun _ _ h => by cases h
  | define | fix | group => exact hs.elim

theorem checkStmts (hc : c.Assumes U p) (hq : ∀ s ∈ q, s.Bodiless ∧ s.FirstOrder)
    (hU : ∀ x ∈ Program.typeNames q, x ∈ U) (h : CheckM.checkStmts q c = .ok () d) : d.Assumes U (p ++ q) := by
  induction q generalizing c p with
  | nil =>
    cases h
    rwa [List.append_nil]
  | cons s q ih =>
    obtain ⟨hs, hq⟩ := List.forall_mem_cons.mp hq
    simp only [Program.typeNames, List.mem_append, or_imp, forall_and] at hU
    obtain ⟨_, _, hfirst, hrest⟩ := bind_eq_ok h
    obtain ⟨_, _, henter, hfirst⟩ := bind_eq_ok hfirst
    cases henter
    obtain ⟨_, c₁, hbody, hleave⟩ := bind_eq_ok hfirst
    cases hleave
    have hd := ih (((hc.trace _).checkStmtBody hs.1 hs.2 hU.1 hbody).trace _) hq hU.2 hrest
    rwa [List.append_assoc] at hd

end Context.Assumes

theorem assumes_check {options : Options} {trace : Trace} {p : Program} (hp : ∀ s ∈ p, s.Bodiless ∧ s.FirstOrder)
    (h : (check options trace p).ok = true) : (check options trace p).context.Assumes p.typeNames.toFinset p := by
  obtain ⟨t, t', d, hstmts, hcontext⟩ := exists_checkStmts_of_ok h
  rw [hcontext]
  exact (((Context.Assumes.new options trace).trace t).checkStmts hp (by simp) hstmts).trace t'

end IndexedTyping
