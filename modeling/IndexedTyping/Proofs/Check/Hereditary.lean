import IndexedTyping.Proofs.Check.Walk
import IndexedTyping.Proofs.Unify.Step

namespace IndexedTyping

structure OpenTy.Hereditary (P : OpenTy → Prop) : Prop where
  unknown (x : String) : P (.unknown x)
  prim (p : Prim) : P (.ground (.prim p))
  fn {a b : OpenTy} : P a → P b → P (.fn a b)
  part {p a : OpenTy} : P a → p ∈ a.parts → P p
  bind {t : OpenTy} {θ : String → OpenTy} : P t → (∀ x ∈ t.unknowns, P (θ x)) → P (t.bind θ)

/-- All bindings and judgments have the property, those to which an open scope will return included. -/
structure Context.Throughout (P : OpenTy → Prop) (c : Context) : Prop where
  store : ∀ b ∈ c.store, P b.value
  judgments : ∀ j ∈ c.judgments, P j.type
  scopes : ∀ s ∈ c.scopes, (∀ b ∈ s.store, P b.value) ∧ ∀ j ∈ s.judgments, P j.type

namespace Context.Throughout

variable {P : OpenTy → Prop} {c : Context}

theorem new (options : Options) (trace : Trace) : (Context.new options trace).Throughout P := by
  constructor <;> simp [Context.new]

theorem openScope (hc : c.Throughout P) (label : String) (binders : List String) :
    (c.openScope label binders).Throughout P :=
  ⟨hc.store, hc.judgments, List.forall_mem_cons.mpr ⟨⟨hc.store, hc.judgments⟩, hc.scopes⟩⟩

theorem closeScope (hc : c.Throughout P) : c.closeScope.Throughout P := by
  obtain ⟨options, trace, counter, store, judgments, scopes⟩ := c
  cases scopes with
  | nil => exact hc
  | cons s outer =>
    obtain ⟨hs, houter⟩ := List.forall_mem_cons.mp hc.scopes
    exact ⟨hs.1, hs.2, houter⟩

end Context.Throughout

namespace OpenTy.Hereditary

variable {P : OpenTy → Prop} (hP : Hereditary P)
include hP

theorem resolveName {s : Store} (hs : ∀ b ∈ s, P b.value) {n : Nat} {seen : List String} {x : String} {r : OpenTy}
    (h : s.resolveName n seen x = .ok r) : P r := by
  induction n generalizing seen x r with
  | zero =>
    cases h
    exact hP.unknown x
  | succ n ih =>
    rw [Store.resolveName] at h
    split at h
    · cases h
      exact hP.unknown x
    · next b hb =>
      split at h
      · cases h
      · obtain ⟨hok, rfl⟩ := bindM_eq_ok_iff.mp h
        have hmem : b ∈ s.bindingsOf x := hb ▸ List.mem_singleton_self b
        exact hP.bind (hs b (Store.mem_bindingsOf.mp hmem).1) fun y hy => ih (hok y hy)
    · cases h

theorem resolve {s : Store} (hs : ∀ b ∈ s, P b.value) {t r : OpenTy} (ht : P t) (h : s.resolve t = .ok r) : P r := by
  obtain ⟨hok, rfl⟩ := bindM_eq_ok_iff.mp h
  exact hP.bind ht fun x hx => hP.resolveName hs (hok x hx)

end OpenTy.Hereditary

namespace CheckM

variable {α β : Type} {P : OpenTy → Prop}

def Keeps (P : OpenTy → Prop) (m : CheckM α) (φ : α → Prop) : Prop :=
  ∀ c, c.Throughout P → Ends (m c) (fun a d => d.Throughout P ∧ φ a) fun _ d => d.Throughout P

namespace Keeps

variable {m : CheckM α} {φ : α → Prop}

theorem bind {k : α → CheckM β} {ψ : β → Prop} (hm : Keeps P m φ) (hk : ∀ a, φ a → Keeps P (k a) ψ) :
    Keeps P (m >>= k) ψ := by
  intro c hc
  rw [ends_bind]
  exact (hm c hc).mono (fun a d h => hk a h.2 d h.1) fun _ _ h => h

theorem of_ok (hm : Keeps P m φ) {c d : Context} {a : α} (hc : c.Throughout P) (h : m c = .ok a d) :
    d.Throughout P ∧ φ a := by
  have hd := hm c hc
  rwa [h] at hd

theorem pure {a : α} (h : φ a) : Keeps P (pure a) φ := fun _ hc => ⟨hc, h⟩

theorem throw (e : CheckError) : Keeps P (throw e) φ := fun _ hc => hc

theorem withScope (hm : Keeps P m φ) (label : String) (binders : List String) :
    Keeps P (withScope label binders m) φ := by
  intro c hc
  have hd := hm _ (hc.openScope label binders)
  rw [withScope_run]
  cases hr : m (c.openScope label binders) with
  | ok a d =>
    rw [hr] at hd
    exact ⟨hd.1.closeScope, hd.2⟩
  | error e d =>
    rw [hr] at hd
    exact Context.Throughout.closeScope hd

end Keeps

theorem keeps_get : Keeps P get fun _ => True := fun _ hc => ⟨hc, trivial⟩

theorem keeps_emit (phase message : String) : Keeps P (emit phase message) fun _ => True :=
  fun _ hc => ⟨⟨hc.store, hc.judgments, hc.scopes⟩, trivial⟩

theorem keeps_enter (phase message : String) : Keeps P (enter phase message) fun _ => True :=
  fun _ hc => ⟨⟨hc.store, hc.judgments, hc.scopes⟩, trivial⟩

theorem keeps_leave (phase message : String) : Keeps P (leave phase message) fun _ => True :=
  fun _ hc => ⟨⟨hc.store, hc.judgments, hc.scopes⟩, trivial⟩

end CheckM

namespace OpenTy.Hereditary

open CheckM

variable {P : OpenTy → Prop} (hP : Hereditary P)
include hP

theorem keeps_newUnknown : Keeps P newUnknown P :=
  fun _ hc => ⟨⟨hc.store, hc.judgments, hc.scopes⟩, hP.unknown _⟩

theorem keeps_resolve {t : OpenTy} (ht : P t) : Keeps P (CheckM.resolve t) P := by
  intro c hc
  rw [resolve_run]
  cases h : c.store.resolve t with
  | ok a => exact ⟨hc, hP.resolve hc.store ht h⟩
  | error e => exact hc

theorem keeps_resolveTy {t : Ty} (ht : P t.embed) : Keeps P (CheckM.resolveTy t) P := by
  intro c hc
  rw [resolveTy_run, Store.resolveTy_eq_resolve]
  exact hP.keeps_resolve ht c hc

theorem keeps_bindUnknown (x : String) {t : OpenTy} (ht : P t) : Keeps P (bindUnknown x t) fun _ => True := by
  intro c hc
  rw [bindUnknown_run]
  cases hb : c.store.binding x t with
  | error e => exact hc
  | ok b =>
    dsimp only
    cases hs : c.store.insert c.options.strictOccurs b with
    | error e => exact ⟨hc.store, hc.judgments, hc.scopes⟩
    | ok s =>
      obtain ⟨-, rfl⟩ := Store.insert_eq_ok hs
      have hvalue := hP.resolve hc.store ht (Store.binding_eq_ok hb).2
      refine ⟨⟨?_, hc.judgments, hc.scopes⟩, trivial⟩
      simpa [or_imp, forall_and] using ⟨hc.store, hvalue⟩

theorem keeps_typeOf (e : Term) : Keeps P (typeOf e) P := by
  intro c hc
  rw [typeOf_run]
  cases hj : c.judgment? e with
  | some j => exact hP.keeps_resolve (hc.judgments j (List.mem_of_find?_eq_some hj)) c hc
  | none => exact hc

theorem keeps_move {u : OpenTy → OpenTy → CheckM Unit} (hu : ∀ {a b}, P a → P b → Keeps P (u a b) fun _ => True)
    {a b : OpenTy} (ha : P a) (hb : P b) {m : (OpenTy → OpenTy → CheckM Unit) → CheckM Unit} (hm : Move a b m) :
    Keeps P (m u) fun _ => True := by
  have part : ∀ {p q}, p ∈ a.parts → q ∈ b.parts → Keeps P (u p q) fun _ => True := fun hp hq =>
    hu (hP.part ha hp) (hP.part hb hq)
  cases hm with
  | left => exact hP.keeps_bindUnknown _ hb
  | right => exact hP.keeps_bindUnknown _ ha
  | parts hp hq hp' hq' => exact (part hp hq).bind fun _ _ => part hp' hq'
  | quantified _ _ hp hq =>
    exact (hP.keeps_typeOf _).bind fun _ hr => (hP.keeps_typeOf _).bind fun _ hs => (hu hr hs).bind fun _ _ =>
      part hp hq
  | indexed _ _ hp hq =>
    exact (part hp hq).bind fun _ _ => (hP.keeps_typeOf _).bind fun _ hr => (hP.keeps_typeOf _).bind fun _ hs =>
      hu hr hs
  | swap => exact hu hb ha
  | clash => exact .throw _

theorem keeps_unifyWithin (n : Nat) {a b : OpenTy} (ha : P a) (hb : P b) :
    Keeps P (unifyWithin n a b) fun _ => True := by
  induction n generalizing a b with
  | zero => exact .throw _
  | succ n ih =>
    refine (hP.keeps_resolve ha).bind fun a ha => (hP.keeps_resolve hb).bind fun b hb => keeps_get.bind fun c _ => ?_
    split
    · exact .pure trivial
    · refine (keeps_enter _ _).bind fun _ _ => ?_
      exact (hP.keeps_move ih ha hb (unifyStep_move a b)).bind fun _ _ => keeps_leave _ _

theorem keeps_unify {a b : OpenTy} (ha : P a) (hb : P b) : Keeps P (unify a b) fun _ => True :=
  keeps_get.bind fun _ _ => hP.keeps_unifyWithin _ ha hb

theorem keeps_declare (e : Term) {t : OpenTy} (ht : P t) : Keeps P (declare e t) fun _ => True := by
  intro c hc
  rw [declare_run]
  cases hr : c.store.resolve t with
  | error err => exact hc
  | ok a =>
    dsimp only
    have ha := hP.resolve hc.store ht hr
    cases hj : c.judgment? e with
    | some j =>
      exact hP.keeps_unify ha (hc.judgments j (List.mem_of_find?_eq_some hj)) _ ⟨hc.store, hc.judgments, hc.scopes⟩
    | none => exact ⟨⟨hc.store, List.forall_mem_cons.mpr ⟨ha, hc.judgments⟩, hc.scopes⟩, trivial⟩

theorem typedWalk : TypedWalk (fun _ => True) P (Keeps P) where
  prim := hP.prim
  fn := hP.fn
  pure := .pure
  bind := .bind
  unsupported _ := .throw _
  emit := keeps_emit
  enter := keeps_enter
  leave := keeps_leave
  newUnknown := hP.keeps_newUnknown
  resolveTy := hP.keeps_resolveTy
  typeOf _ := hP.keeps_typeOf _
  bindUnknown := hP.keeps_bindUnknown
  unify := hP.keeps_unify
  declare _ := hP.keeps_declare _
  ifBound hm hm' := keeps_get.bind fun c _ => by
    split
    · exact hm
    · exact hm'
  withScope label binders _ _ hm := hm.withScope label binders

theorem keeps_checkTerm (e : Term) : Keeps P (checkTerm e) P := hP.typedWalk.checkTerm fun _ _ => trivial

theorem keeps_body (label : String) (e : Term) : Keeps P (withScope label [] (checkTerm e)) P :=
  (hP.keeps_checkTerm e).withScope label []

end OpenTy.Hereditary

namespace CheckM

variable {α β : Type} {P : OpenTy → Prop}

def Blames (P : OpenTy → Prop) (m : CheckM α) : Prop :=
  ∀ c, c.Throughout P → Ends (m c) (fun _ _ => True) fun e _ => ∀ a b, e = .mismatch a b → P a ∧ P b

theorem Blames.bind {m : CheckM α} {k : α → CheckM β} {φ : α → Prop} (hm : Blames P m) (hkeeps : Keeps P m φ)
    (hk : ∀ a, φ a → Blames P (k a)) : Blames P (m >>= k) := by
  intro c hc
  have he := hm c hc
  rw [ends_bind]
  cases hr : m c with
  | ok a d =>
    obtain ⟨hd, ha⟩ := hkeeps.of_ok hc hr
    exact hk a ha d hd
  | error e d => rwa [hr] at he

theorem blames_resolve (t : OpenTy) : Blames P (resolve t) := by
  intro c _
  rw [resolve_run]
  cases h : c.store.resolve t with
  | ok a => trivial
  | error e =>
    rintro a b rfl
    rcases Store.resolve_error h with ⟨_, he⟩ | ⟨_, he, -⟩ <;> cases he

theorem blames_bindUnknown (x : String) (t : OpenTy) : Blames P (bindUnknown x t) := by
  intro c hc
  rw [bindUnknown_run]
  cases hb : c.store.binding x t with
  | error e =>
    rintro a b rfl
    rcases Store.binding_eq_error hb with he | he | ⟨_, -, -, he⟩
    · rcases Store.resolve_error he with ⟨_, he⟩ | ⟨_, he, -⟩ <;> cases he
    · rcases Store.resolve_error he with ⟨_, he⟩ | ⟨_, he, -⟩ <;> cases he
    · cases he
  | ok b =>
    dsimp only
    cases hs : c.store.insert c.options.strictOccurs b with
    | error e =>
      rintro a b rfl
      cases (Store.insert_eq_error hs).2
    | ok s => trivial

theorem blames_typeOf (e : Term) : Blames P (typeOf e) := by
  intro c hc
  rw [typeOf_run]
  cases hj : c.judgment? e with
  | some j => exact blames_resolve j.type c hc
  | none =>
    intro a b he
    cases he

end CheckM

namespace OpenTy.Hereditary

open CheckM

variable {P : OpenTy → Prop} (hP : Hereditary P)
include hP

theorem blames_move {u : OpenTy → OpenTy → CheckM Unit} (hu : ∀ {a b}, P a → P b → Blames P (u a b))
    (hkeeps : ∀ {a b}, P a → P b → Keeps P (u a b) fun _ => True) {a b : OpenTy} (ha : P a) (hb : P b)
    {m : (OpenTy → OpenTy → CheckM Unit) → CheckM Unit} (hm : Move a b m) : Blames P (m u) := by
  have part : ∀ {p q}, p ∈ a.parts → q ∈ b.parts → P p ∧ P q := fun hp hq => ⟨hP.part ha hp, hP.part hb hq⟩
  have types : ∀ {e f : Term} {k : OpenTy → OpenTy → CheckM Unit}, (∀ r s, P r → P s → Blames P (k r s)) →
      Blames P (do let r ← typeOf e; let s ← typeOf f; k r s) := fun hk =>
    (blames_typeOf _).bind (hP.keeps_typeOf _) fun r hr =>
      (blames_typeOf _).bind (hP.keeps_typeOf _) fun s hs => hk r s hr hs
  cases hm with
  | left => exact blames_bindUnknown _ b
  | right => exact blames_bindUnknown _ a
  | parts hp hq hp' hq' =>
    obtain ⟨hp, hq⟩ := part hp hq
    obtain ⟨hp', hq'⟩ := part hp' hq'
    exact (hu hp hq).bind (hkeeps hp hq) fun _ _ => hu hp' hq'
  | quantified _ _ hp hq =>
    obtain ⟨hp, hq⟩ := part hp hq
    exact types fun _ _ hr hs => (hu hr hs).bind (hkeeps hr hs) fun _ _ => hu hp hq
  | indexed _ _ hp hq =>
    obtain ⟨hp, hq⟩ := part hp hq
    exact (hu hp hq).bind (hkeeps hp hq) fun _ _ => types fun _ _ => hu
  | swap => exact hu hb ha
  | clash =>
    intro c _ p q h
    cases h
    exact ⟨ha, hb⟩

theorem blames_unifyWithin (n : Nat) {a b : OpenTy} (ha : P a) (hb : P b) : Blames P (unifyWithin n a b) := by
  induction n generalizing a b with
  | zero =>
    intro c _ p q h
    cases h
  | succ n ih =>
    refine (blames_resolve a).bind (hP.keeps_resolve ha) fun a ha => ?_
    refine (blames_resolve b).bind (hP.keeps_resolve hb) fun b hb => ?_
    refine Blames.bind (fun _ _ => trivial) keeps_get fun c _ => ?_
    split
    · exact fun _ _ => trivial
    · have hmove := unifyStep_move a b
      have hkeeps := hP.keeps_move (hP.keeps_unifyWithin n) ha hb hmove
      refine Blames.bind (fun _ _ => trivial) (keeps_enter _ _) fun _ _ => ?_
      exact (hP.blames_move ih (hP.keeps_unifyWithin n) ha hb hmove).bind hkeeps fun _ _ _ _ => trivial

end OpenTy.Hereditary

end IndexedTyping
