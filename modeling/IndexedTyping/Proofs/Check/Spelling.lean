import IndexedTyping.Proofs.Check.Later
import IndexedTyping.Proofs.Check.Lockstep
import IndexedTyping.Proofs.Nameless.Comparison
import Mathlib.Data.List.Forall2

namespace IndexedTyping

abbrev Pairing := List (Term × Term)

theorem Term.mem_iff_of_sameReference {env : List (String × String)} {x y : String}
    (h : sameReference env x y = true) : x ∈ env.map (·.1) ↔ y ∈ env.map (·.2) := by
  induction env with
  | nil => simp
  | cons p env ih =>
    rw [sameReference] at h
    split at h
    · simp only [Bool.and_eq_true, beq_iff_eq] at h
      simp [h]
    · next hp =>
      simp only [Bool.or_eq_true, beq_iff_eq, not_or] at hp
      simp only [List.map_cons, List.mem_cons, ih h, Ne.symm hp.1, Ne.symm hp.2, false_or]

namespace Pairing

def add (V : Pairing) (e f : Term) : Option Pairing :=
  if V.all fun v => e.same v.1 == f.same v.2 then some ((e, f) :: V) else none

/-- Pairs up the subterms of two terms in the order in which they are judged, those in the scope of a binder only until
it ends. There has to be the same to see on both sides whenever a term is compared with those judged before it. -/
def extend (V : Pairing) : Term → Term → Option Pairing
  | .var x l, .var y k => V.add (.var x l) (.var y k)
  | .lit v, .lit w => V.add (.lit v) (.lit w)
  | .lam x b, .lam y c => do
    let W ← V.extend b c
    let _ ← W.add (.var x none) (.var y none)
    V.add (.lam x b) (.lam y c)
  | .app f a, .app g b => do
    let W ← V.extend f g
    let W ← W.extend a b
    W.add (.app f a) (.app g b)
  | .recur f x b, .recur g y c => do
    let W ← V.extend b c
    let W ← W.add (.var x none) (.var y none)
    let _ ← W.add (.var f none) (.var g none)
    V.add (.recur f x b) (.recur g y c)
  | _, _ => none

def diagonal (K : List Term) : Pairing := K.map fun e => (e, e)

structure Fair (K : List Term) (V : Pairing) : Prop where
  alike : ∀ v ∈ V, ∀ w ∈ V, v.1.same w.1 = v.2.same w.2
  known : ∀ e ∈ K, (e, e) ∈ V

theorem add_eq_some {V W : Pairing} {e f : Term} (h : V.add e f = some W) :
    (∀ v ∈ V, e.same v.1 = f.same v.2) ∧ W = (e, f) :: V := by
  rw [add] at h
  split at h
  · next hV =>
    cases h
    exact ⟨by simpa using hV, rfl⟩
  · cases h

theorem fair_diagonal (K : List Term) : Fair K (diagonal K) where
  alike v hv w hw := by
    obtain ⟨e, -, rfl⟩ := List.mem_map.mp hv
    obtain ⟨f, -, rfl⟩ := List.mem_map.mp hw
    rfl
  known e he := List.mem_map.mpr ⟨e, he, rfl⟩

namespace Fair

variable {K : List Term} {V W : Pairing} {e f : Term}

theorem add (hV : Fair K V) (h : V.add e f = some W) : Fair K W := by
  obtain ⟨hnew, rfl⟩ := add_eq_some h
  have hcomm : ∀ e f : Term, e.same f = f.same e := fun e f => by
    rw [Bool.eq_iff_iff, Term.same_iff, Term.same_iff, eq_comm]
  have hself : ∀ e : Term, e.same e = true := fun e => Term.same_iff.mpr rfl
  refine ⟨fun v hv w hw => ?_, fun e he => List.mem_cons_of_mem _ (hV.known e he)⟩
  rcases List.mem_cons.mp hv with rfl | hv <;> rcases List.mem_cons.mp hw with rfl | hw
  · rw [hself, hself]
  · exact hnew w hw
  · rw [hcomm v.1, hcomm v.2]
    exact hnew v hv
  · exact hV.alike v hv w hw

end Fair

theorem subset_of_add {V W : Pairing} {e f : Term} (h : V.add e f = some W) : V ⊆ W := by
  rw [(add_eq_some h).2]
  exact List.subset_cons_self _ _

theorem mem_of_add {V W : Pairing} {e f : Term} (h : V.add e f = some W) : (e, f) ∈ W := by
  rw [(add_eq_some h).2]
  exact List.mem_cons_self

theorem Fair.extend {K : List Term} {V W : Pairing} {e f : Term} (hV : Fair K V) (h : V.extend e f = some W) :
    Fair K W ∧ V ⊆ W ∧ (e, f) ∈ W := by
  induction e generalizing V W f with
  | var x l =>
    cases f with
    | var y k => exact ⟨hV.add h, subset_of_add h, mem_of_add h⟩
    | _ => cases h
  | lit v =>
    cases f with
    | lit w => exact ⟨hV.add h, subset_of_add h, mem_of_add h⟩
    | _ => cases h
  | lam x b ih =>
    cases f with
    | lam y c =>
      simp only [Pairing.extend, Option.bind_eq_bind, Option.bind_eq_some_iff] at h
      obtain ⟨_, -, _, -, h⟩ := h
      exact ⟨hV.add h, subset_of_add h, mem_of_add h⟩
    | _ => cases h
  | app e a ihe iha =>
    cases f with
    | app g b =>
      simp only [Pairing.extend, Option.bind_eq_bind, Option.bind_eq_some_iff] at h
      obtain ⟨U, hfn, X, harg, h⟩ := h
      obtain ⟨hU, hVU, -⟩ := ihe hV hfn
      obtain ⟨hX, hUX, -⟩ := iha hU harg
      exact ⟨hX.add h, List.Subset.trans hVU (List.Subset.trans hUX (subset_of_add h)), mem_of_add h⟩
    | _ => cases h
  | recur g x b ih =>
    cases f with
    | recur g' y c =>
      simp only [Pairing.extend, Option.bind_eq_bind, Option.bind_eq_some_iff] at h
      obtain ⟨_, -, _, -, _, -, h⟩ := h
      exact ⟨hV.add h, subset_of_add h, mem_of_add h⟩
    | _ => cases h

end Pairing

open Pairing

def Shared (K : List Term) (a b : OpenTy) : Prop := b = a ∧ a.Over (· ∈ K) fun _ => True

theorem Shared.mono {K L : List Term} {a b : OpenTy} (h : Shared K a b) (hK : K ⊆ L) : Shared L a b :=
  ⟨h.1, h.2.mono hK fun _ => id⟩

/-- Two contexts that differ in their traces and in the terms judged: these are paired by `V`. The names that are bound
are paired by `env`. -/
structure Context.Alike (K : List Term) (V : Pairing) (env : List (String × String)) (c d : Context) : Prop where
  options : d.options = c.options
  counter : d.counter = c.counter
  store : d.store = c.store
  keys : c.store.Over (· ∈ K) fun _ => True
  judgments : List.Forall₂ (fun i j => (i.term, j.term) ∈ V ∧ Shared K i.type j.type) c.judgments d.judgments
  left : ∀ x, c.binds x = true ↔ x ∈ env.map (·.1)
  right : ∀ x, d.binds x = true ↔ x ∈ env.map (·.2)

namespace Context.Alike

variable {K : List Term} {V W : Pairing} {env : List (String × String)} {c d : Context} {e f : Term}

theorem mono {L : List Term} (h : Alike K V env c d) (hK : K ⊆ L) (hV : V ⊆ W) : Alike L W env c d :=
  { h with
    keys := h.keys.mono hK fun _ => id
    judgments := h.judgments.imp fun _ _ hj => ⟨hV hj.1, hj.2.mono hK⟩ }

theorem trace (h : Alike K V env c d) (t t' : Trace) : Alike K V env { c with trace := t } { d with trace := t' } :=
  { h with }

theorem judgment? (h : Alike K V env c d) (hV : Fair K V) (hef : (e, f) ∈ V) :
    c.judgment? e = none ∧ d.judgment? f = none ∨
      ∃ i j, c.judgment? e = some i ∧ d.judgment? f = some j ∧ Shared K i.type j.type := by
  have hj := h.judgments
  rw [Context.judgment?, Context.judgment?]
  generalize c.judgments = is at hj
  generalize d.judgments = js at hj
  induction hj with
  | nil => exact .inl ⟨rfl, rfl⟩
  | @cons i j is js hij _ ih =>
    have hsame : e.same i.term = f.same j.term := hV.alike _ hef _ hij.1
    rw [List.find?_cons, List.find?_cons, ← hsame]
    cases e.same i.term with
    | true => exact .inr ⟨i, j, rfl, rfl, hij.2⟩
    | false => exact ih

end Context.Alike

namespace CheckM

open Context

variable {K : List Term} {V W : Pairing} {env : List (String × String)} {e f : Term}

theorem lockstep_emit {p m p' m' : String} :
    Lockstep (Alike K V env) (Alike K V env) (fun _ _ => True) (emit p m) (emit p' m') :=
  fun _ _ h => ⟨trivial, h.trace _ _⟩

theorem lockstep_enter {p m p' m' : String} :
    Lockstep (Alike K V env) (Alike K V env) (fun _ _ => True) (enter p m) (enter p' m') :=
  fun _ _ h => ⟨trivial, h.trace _ _⟩

theorem lockstep_leave {p m p' m' : String} :
    Lockstep (Alike K V env) (Alike K V env) (fun _ _ => True) (leave p m) (leave p' m') :=
  fun _ _ h => ⟨trivial, h.trace _ _⟩

theorem lockstep_get : Lockstep (Alike K V env) (Alike K V env) (Alike K V env) get get := fun _ _ h => ⟨h, h⟩

theorem lockstep_resolve {t : OpenTy} (ht : t.Over (· ∈ K) fun _ => True) :
    Lockstep (Alike K V env) (Alike K V env) (Shared K) (resolve t) (resolve t) := by
  intro c d h
  rw [resolve_run, resolve_run, h.store]
  cases hr : c.store.resolve t with
  | ok a => exact ⟨⟨rfl, h.keys.resolve ht hr⟩, h⟩
  | error err => trivial

theorem lockstep_resolveTy {L : List Term} (hK : K ⊆ L) {t : Ty} (ht : t.keys ⊆ L) :
    Lockstep (Alike K V env) (Alike K V env) (Shared L) (resolveTy t) (resolveTy t) := by
  intro c d h
  rw [resolveTy_run, resolveTy_run, h.store, Store.resolveTy_eq_resolve]
  cases hr : c.store.resolve t.embed with
  | ok a => exact ⟨⟨rfl, (h.keys.mono hK fun _ => id).resolve (OpenTy.over_embed (Ty.over_iff.mpr ht)) hr⟩, h⟩
  | error err => trivial

theorem lockstep_bindUnknown (x : String) {t : OpenTy} (ht : t.Over (· ∈ K) fun _ => True) :
    Lockstep (Alike K V env) (Alike K V env) (fun _ _ => True) (bindUnknown x t) (bindUnknown x t) := by
  intro c d h
  rw [bindUnknown_run, bindUnknown_run, h.store, h.options]
  cases hb : c.store.binding x t with
  | error err => trivial
  | ok b =>
    dsimp only
    cases hs : c.store.insert c.options.strictOccurs b with
    | error err => trivial
    | ok s => exact ⟨trivial, { h with options := rfl, store := rfl, keys := h.keys.insert trivial ht hb hs }⟩

theorem lockstep_typeOf (hV : Fair K V) (hef : (e, f) ∈ V) :
    Lockstep (Alike K V env) (Alike K V env) (Shared K) (typeOf e) (typeOf f) := by
  intro c d h
  rw [typeOf_run, typeOf_run]
  rcases h.judgment? hV hef with ⟨hc, hd⟩ | ⟨i, j, hc, hd, htype, hkeys⟩
  · simp only [hc, hd]
    trivial
  · simp only [hc, hd, htype]
    exact lockstep_resolve hkeys c d h

theorem lockstep_newUnknown : Lockstep (Alike K V env) (Alike K V env) (Shared K) newUnknown newUnknown := by
  intro c d h
  rw [newUnknown_run, newUnknown_run, h.counter]
  exact ⟨⟨rfl, trivial⟩, { h with counter := rfl }⟩

theorem lockstep_congruence (hV : Fair K V) :
    Congruence (· ∈ K) (fun _ => True) (Lockstep (Alike K V env) (Alike K V env) fun _ _ => True) where
  mismatch _ _ := .throw
  bindUnknown _ ht := lockstep_bindUnknown _ ht
  seq hm hk := hm.bind fun _ _ _ => hk
  typeOf he hk := (lockstep_typeOf hV (hV.known _ he)).bind fun t _ ht => ht.1 ▸ hk t ht.2
  resolve ht hk := (lockstep_resolve ht).bind fun t _ ht => ht.1 ▸ hk t ht.2
  differ hm := lockstep_get.bind fun c d hcd => by
    rw [hcd.options]
    split
    · exact .pure trivial
    · exact hm
  enter _ _ := lockstep_enter
  leave _ _ := lockstep_leave

theorem lockstep_unify (hV : Fair K V) {a b : OpenTy} (ha : a.Over (· ∈ K) fun _ => True)
    (hb : b.Over (· ∈ K) fun _ => True) :
    Lockstep (Alike K V env) (Alike K V env) (fun _ _ => True) (unify a b) (unify a b) := by
  refine lockstep_get.bind fun c d hcd => ?_
  rw [hcd.options]
  generalize c.options.depth = n
  induction n generalizing a b with
  | zero => exact .throw
  | succ n ih => exact (lockstep_congruence hV).unifyWithin_succ n n ih ha hb

theorem lockstep_declare (hV : Fair K V) (hef : (e, f) ∈ V) {t : OpenTy} (ht : t.Over (· ∈ K) fun _ => True) :
    Lockstep (Alike K V env) (Alike K V env) (fun _ _ => True) (declare e t) (declare f t) := by
  intro c d h
  have hstore : d.store.resolve t = c.store.resolve t := by rw [h.store]
  rw [declare_run, declare_run, hstore]
  cases hr : c.store.resolve t with
  | error err => trivial
  | ok a =>
    have ha := h.keys.resolve ht hr
    rcases h.judgment? hV hef with ⟨hc, hd⟩ | ⟨i, j, hc, hd, htype, hkeys⟩
    · simp only [hc, hd]
      exact ⟨trivial, { h with judgments := .cons ⟨hef, rfl, ha⟩ h.judgments }⟩
    · simp only [hc, hd, htype]
      exact lockstep_unify hV ha hkeys _ _ (h.trace _ _)

theorem lockstep_judged (hW : Fair K W) (hef : (e, f) ∈ W) {m m' : CheckM Unit}
    (hm : Lockstep (Alike K V env) (Alike K W env) (fun _ _ => True) m m') :
    Lockstep (Alike K V env) (Alike K W env) (Shared K) (judged e m) (judged f m') := by
  refine lockstep_enter.bind fun _ _ _ => hm.bind fun _ _ _ => (lockstep_typeOf hW hef).bind fun a b hab => ?_
  exact lockstep_leave.bind fun _ _ _ => .pure hab

theorem lockstep_checkVar (hV : Fair K V) {x y : String} {l k : Option Location}
    (hxy : x ∈ env.map (·.1) ↔ y ∈ env.map (·.2)) (hW : V.add (.var x l) (.var y k) = some W) :
    Lockstep (Alike K V env) (Alike K W env) (Shared K) (checkVar x l) (checkVar y k) := by
  have hfair := hV.add hW
  have hmem := mem_of_add hW
  refine Lockstep.pre ?_ fun c d h => h.mono (List.Subset.refl K) (subset_of_add hW)
  refine lockstep_judged hfair hmem (lockstep_get.bind fun c d h => ?_)
  have hdeclare : Lockstep (Alike K W env) (Alike K W env) (fun _ _ => True) (do declare (.var x l) (← newUnknown))
      (do declare (.var y k) (← newUnknown)) := by
    refine lockstep_newUnknown.bind ?_
    rintro a _ ⟨rfl, ha⟩
    exact lockstep_declare hfair hmem ha
  have hbinds : c.binds x = d.binds y := by rw [Bool.eq_iff_iff, h.left, h.right, hxy]
  rw [hbinds]
  split
  · exact hdeclare
  · exact (lockstep_typeOf hfair hmem).bind fun _ _ _ => hdeclare

theorem lockstep_withScope {α α' : Type} {Q : α → α' → Prop} {E E' : Context → CheckError → Prop}
    {label label' : String} {bs bs' : List String} {env' : List (String × String)} {m : CheckM α} {m' : CheckM α'}
    (hleft : ∀ x, x ∈ env'.map (·.1) ↔ x ∈ bs ∨ x ∈ env.map (·.1))
    (hright : ∀ x, x ∈ env'.map (·.2) ↔ x ∈ bs' ∨ x ∈ env.map (·.2))
    (hm : Obeys Later E m) (hm' : Obeys Later E' m') (h : Lockstep (Alike K V env') (Alike K W env') Q m m') :
    Lockstep (Alike K V env) (Alike K V env) Q (withScope label bs m) (withScope label' bs' m') := by
  intro c d hcd
  have hbinds : ∀ (c : Context) label bs x, (c.openScope label bs).binds x = true ↔ x ∈ bs ∨ c.binds x = true := by
    simp [Context.openScope, Context.binds]
  have hopen : Alike K V env' (c.openScope label bs) (d.openScope label' bs') :=
    { hcd with
      left := fun x => by rw [hbinds, hcd.left, hleft]
      right := fun x => by rw [hbinds, hcd.right, hright] }
  have hboth := h _ _ hopen
  rw [withScope_run, withScope_run]
  cases hc : m (c.openScope label bs) with
  | error err c' =>
    cases hd : m' (d.openScope label' bs') with
    | error err' d' => trivial
    | ok b d' =>
      rw [hc, hd] at hboth
      exact hboth.elim
  | ok a c' =>
    cases hd : m' (d.openScope label' bs') with
    | error err' d' =>
      rw [hc, hd] at hboth
      exact hboth.elim
    | ok b d' =>
      rw [hc, hd] at hboth
      refine ⟨hboth.1, ?_⟩
      rw [(hm.of_ok hc).closeScope, (hm'.of_ok hd).closeScope, hcd.options, hcd.counter, hboth.2.counter]
      exact { hcd with options := rfl, counter := rfl }

theorem lockstep_checkTerm (hV : Fair K V) (hα : Term.alphaEqIn env e f = true) (hW : V.extend e f = some W) :
    Lockstep (Alike K V env) (Alike K W env) (Shared K) (checkTerm e) (checkTerm f) := by
  induction e generalizing f V W env with
  | var x l =>
    cases f with
    | var y k => exact lockstep_checkVar hV (Term.mem_iff_of_sameReference hα) hW
    | _ => cases hW
  | lit v =>
    cases f with
    | lit w =>
      cases of_decide_eq_true hα
      refine lockstep_judged (hV.add hW) (mem_of_add hW) ?_
      refine Lockstep.pre ?_ fun c d h => h.mono (List.Subset.refl K) (subset_of_add hW)
      exact lockstep_declare (hV.add hW) (mem_of_add hW) trivial
    | _ => cases hW
  | lam x b ih =>
    cases f with
    | lam y c =>
      simp only [Pairing.extend, Option.bind_eq_bind, Option.bind_eq_some_iff] at hW
      obtain ⟨U, hbody, X, hparam, hW⟩ := hW
      have hscope : Lockstep (Alike K V ((x, y) :: env)) (Alike K X ((x, y) :: env))
          (fun p q => Shared K p.1 q.1 ∧ Shared K p.2 q.2)
          (do let b ← checkTerm b; let a ← checkVar x none; return (a, b))
          (do let b ← checkTerm c; let a ← checkVar y none; return (a, b)) :=
        (ih hV hα hbody).bind fun _ _ ht => (lockstep_checkVar (hV.extend hbody).1 (by simp) hparam).bind
          fun _ _ ha => .pure ⟨ha, ht⟩
      refine lockstep_judged (hV.add hW) (mem_of_add hW) (Lockstep.bind
        (lockstep_withScope (by simp) (by simp) (later_body x b) (later_body y c) hscope) ?_)
      rintro ⟨a, t⟩ ⟨_, _⟩ ⟨⟨rfl, ha⟩, rfl, ht⟩
      refine Lockstep.pre ?_ fun c d h => h.mono (List.Subset.refl K) (subset_of_add hW)
      exact lockstep_declare (hV.add hW) (mem_of_add hW) ⟨ha, ht⟩
    | _ => cases hW
  | app g a ihg iha =>
    cases f with
    | app g' b =>
      simp only [Pairing.extend, Option.bind_eq_bind, Option.bind_eq_some_iff] at hW
      obtain ⟨U, hfn, X, harg, hW⟩ := hW
      simp only [Term.alphaEqIn, Bool.and_eq_true] at hα
      have hU := (hV.extend hfn).1
      have hX := (hU.extend harg).1
      refine lockstep_judged (hX.add hW) (mem_of_add hW) ((ihg hV hα.1 hfn).bind ?_)
      rintro s _ ⟨rfl, hs⟩
      refine (iha hU hα.2 harg).bind ?_
      rintro t _ ⟨rfl, ht⟩
      refine lockstep_newUnknown.bind ?_
      rintro r _ ⟨rfl, hr⟩
      have hfn : OpenTy.Over (· ∈ K) (fun _ => True) (.fn _ _) := ⟨ht, hr⟩
      refine (lockstep_unify hX hs hfn).bind fun _ _ _ => ?_
      refine Lockstep.pre ?_ fun c d h => h.mono (List.Subset.refl K) (subset_of_add hW)
      exact lockstep_declare (hX.add hW) (mem_of_add hW) hr
    | _ => cases hW
  | recur g x b ih =>
    cases f with
    | recur g' y c =>
      simp only [Pairing.extend, Option.bind_eq_bind, Option.bind_eq_some_iff] at hW
      obtain ⟨U, hbody, X, hparam, Y, hself, hW⟩ := hW
      have hU := (hV.extend hbody).1
      have hscope : Lockstep (Alike K V ((x, y) :: (g, g') :: env)) (Alike K Y ((x, y) :: (g, g') :: env))
          (fun p q => Shared K p.1 q.1 ∧ Shared K p.2.1 q.2.1 ∧ Shared K p.2.2 q.2.2)
          (do let b ← checkTerm b; let a ← checkVar x none; let c ← checkVar g none; return (a, b, c))
          (do let b ← checkTerm c; let a ← checkVar y none; let c ← checkVar g' none; return (a, b, c)) :=
        (ih hV hα hbody).bind fun _ _ ht => (lockstep_checkVar hU (by simp) hparam).bind
          fun _ _ ha => (lockstep_checkVar (hU.add hparam) (by simp) hself).bind fun _ _ hs => .pure ⟨ha, ht, hs⟩
      refine lockstep_judged (hV.add hW) (mem_of_add hW) (Lockstep.bind
        (lockstep_withScope (by simp [or_assoc, or_left_comm]) (by simp [or_assoc, or_left_comm])
          (later_recBody g x b) (later_recBody g' y c) hscope) ?_)
      rintro ⟨a, t, s⟩ ⟨_, _, _⟩ ⟨⟨rfl, ha⟩, ⟨rfl, ht⟩, rfl, hs⟩
      refine (lockstep_unify hV ht hs).bind fun _ _ _ => ?_
      refine Lockstep.pre ?_ fun c d h => h.mono (List.Subset.refl K) (subset_of_add hW)
      exact lockstep_declare (hV.add hW) (mem_of_add hW) ⟨ha, ht⟩
    | _ => cases hW

end CheckM

end IndexedTyping
