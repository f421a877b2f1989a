import IndexedTyping.Proofs.Check.Law
import IndexedTyping.Proofs.Typing.Simple
import IndexedTyping.Proofs.Unify.MostGeneral

namespace IndexedTyping

open OpenTy CheckM

structure Valuation where
  ty : String → Ty
  firstOrder : ∀ x, (ty x).FirstOrder

instance : CoeFun Valuation fun _ => String → Ty := ⟨Valuation.ty⟩

namespace OpenTy

def inst (θ : String → Ty) : OpenTy → Ty
  | ground t => t
  | unknown x => θ x
  | fn a b => .fn (a.inst θ) (b.inst θ)
  | app a b => .app (a.inst θ) (b.inst θ)
  | all x l a => .all x l (a.inst θ)
  | indexed a e => .indexed (a.inst θ) e

theorem inst_bind (σ : String → OpenTy) (θ : String → Ty) (t : OpenTy) :
    (t.bind σ).inst θ = t.inst fun x => (σ x).inst θ := by
  induction t with
  | ground t => rfl
  | unknown x => rfl
  | fn a b iha ihb => simp [OpenTy.bind, inst, iha, ihb]
  | app a b iha ihb => simp [OpenTy.bind, inst, iha, ihb]
  | all x l a ih => simp [OpenTy.bind, inst, ih]
  | indexed a e ih => simp [OpenTy.bind, inst, ih]

theorem inst_congr {θ η : String → Ty} {t : OpenTy} (h : ∀ x ∈ t.unknowns, θ x = η x) : t.inst θ = t.inst η := by
  induction t with
  | ground t => rfl
  | unknown x => exact h x List.mem_cons_self
  | fn a b iha ihb =>
    simp only [unknowns, List.mem_append] at h
    rw [inst, inst, iha fun x hx => h x (.inl hx), ihb fun x hx => h x (.inr hx)]
  | app a b iha ihb =>
    simp only [unknowns, List.mem_append] at h
    rw [inst, inst, iha fun x hx => h x (.inl hx), ihb fun x hx => h x (.inr hx)]
  | all x l a ih => rw [inst, inst, ih h]
  | indexed a e ih => rw [inst, inst, ih h]

theorem FirstOrder.inst (θ : Valuation) {a : OpenTy} (ha : a.FirstOrder) : (a.inst θ).FirstOrder := by
  induction a with
  | ground t => exact ha
  | unknown x => exact θ.firstOrder x
  | fn a b iha ihb => exact ⟨iha ha.1, ihb ha.2⟩
  | app a b iha ihb => exact ⟨iha ha.1, ihb ha.2⟩
  | all x l a => exact ha.elim
  | indexed a e => exact ha.elim

theorem spread_inst (θ : String → Ty) {a : OpenTy} (ha : a.FirstOrder) :
    (a.inst θ).spread = (a.bind fun x => .ground (θ x)).spread := by
  induction a with
  | ground t => rfl
  | unknown x => rfl
  | fn a b iha ihb => simp [OpenTy.inst, OpenTy.bind, spread, Ty.spread, iha ha.1, ihb ha.2]
  | app a b iha ihb => simp [OpenTy.inst, OpenTy.bind, spread, Ty.spread, iha ha.1, ihb ha.2]
  | all x l a => exact ha.elim
  | indexed a e => exact ha.elim

theorem agree_iff_inst_eq (θ : Valuation) {a b : OpenTy} (ha : a.FirstOrder) (hb : b.FirstOrder) :
    Agree (a.bind fun x => .ground (θ x)) (b.bind fun x => .ground (θ x)) ↔ a.inst θ = b.inst θ := by
  rw [Agree, ← spread_inst θ ha, ← spread_inst θ hb]
  exact ⟨Ty.spread_inj (ha.inst θ) (hb.inst θ), congrArg Ty.spread⟩

end OpenTy

namespace Store

def Models (s : Store) (θ : Valuation) : Prop := ∀ b ∈ s, θ b.name = b.value.inst θ

theorem models_iff_solvedBy {s : Store} (hs : s.FirstOrder) (θ : Valuation) :
    s.Models θ ↔ s.SolvedBy fun x => .ground (θ x) :=
  forall₂_congr fun b hb => (agree_iff_inst_eq (a := .unknown b.name) θ trivial (hs b hb)).symm

theorem Models.inst_apply {s : Store} {θ : Valuation} (h : s.Models θ) (t : OpenTy) :
    (s.apply t).inst θ = t.inst θ := by
  induction s generalizing t with
  | nil => rfl
  | cons b s ih =>
    rw [apply_cons, ih fun c hc => h c (List.mem_cons_of_mem b hc), Binding.replace, inst_bind]
    refine inst_congr fun x _ => ?_
    split
    · next hx => rw [hx, h b List.mem_cons_self]
    · rfl

theorem Models.of_prefix {s r : Store} {θ : Valuation} (h : r.Models θ) (hs : s <+: r) : s.Models θ :=
  fun b hb => h b (hs.subset hb)

def solve (s : Store) (hs : s.FirstOrder) (θ : Valuation) : Valuation where
  ty x := (s.apply (.unknown x)).inst θ
  firstOrder x := (hs.apply (t := .unknown x) trivial).inst θ

theorem inst_solve {s : Store} (hs : s.FirstOrder) (θ : Valuation) (t : OpenTy) :
    t.inst (s.solve hs θ) = (s.apply t).inst θ := by
  rw [apply_eq_bind, inst_bind]
  rfl

theorem Triangular.models_solve {s : Store} (h : Triangular true s) (hs : s.FirstOrder) (θ : Valuation) :
    s.Models (s.solve hs θ) := by
  intro b hb
  rw [inst_solve, ← h.apply_name hb]
  rfl

end Store

/-- What unification does if it succeeds: it adds bindings about the unknowns of the two types, and its models are the
models from before that make them equal. -/
structure Joins (a b : OpenTy) (c d : Context) : Prop where
  frame : d = { c with store := d.store, trace := d.trace }
  regular : d.Regular
  grows : ∃ new : Store, d.store = c.store ++ new ∧
    new.Within {x | x ∈ (c.store.apply a).unknowns ∨ x ∈ (c.store.apply b).unknowns}
  models_iff : ∀ θ, d.store.Models θ ↔ c.store.Models θ ∧ a.inst θ = b.inst θ

theorem joins_of_unify {a b : OpenTy} {c d : Context} (hc : c.Regular) (ha : a.FirstOrder) (hb : b.FirstOrder)
    (h : unify a b c = .ok () d) : Joins a b c d := by
  have hnarrows := (decides_unifyWithin hc ha hb).ends_unifyWithin c.options.depth
  rw [← unify_run, h] at hnarrows
  refine ⟨(frame_law.obeys_unify a b).of_ok h, hnarrows.regular, ?_, fun θ => ?_⟩
  · obtain ⟨new, hnew, hwithin⟩ := hnarrows.grows
    exact ⟨new, hnew, hwithin.mono fun x hx => by simpa using hx⟩
  · rw [Store.models_iff_solvedBy hnarrows.regular.firstOrder, hnarrows.solvedBy_iff,
      Store.models_iff_solvedBy hc.firstOrder, agree_iff_inst_eq θ ha hb]

theorem store_of_unify_unknown {x : String} {b : OpenTy} {c d : Context} (hc : c.Regular)
    (hx : c.store.apply (.unknown x) = .unknown x) (hocc : x ∉ (c.store.apply b).unknowns)
    (h : unify (.unknown x) b c = .ok () d) : d.store = c.store ++ [⟨x, c.store.apply b⟩] := by
  rw [unify_run] at h
  cases hn : c.options.depth with
  | zero =>
    rw [hn] at h
    cases h
  | succ n =>
    have hdiffer : ¬(OpenTy.unknown x).same c.options.budget (c.store.apply b) = true := by
      intro hsame
      rw [← (same_iff (a := .unknown x) trivial).mp hsame] at hocc
      exact hocc List.mem_cons_self
    rw [hn, hc.unifyWithin_succ, hx] at h
    dsimp only at h
    rw [if_neg hdiffer] at h
    obtain ⟨_, _, henter, hrest⟩ := bind_eq_ok h
    cases henter
    obtain ⟨_, _, hstep, hleave⟩ := bind_eq_ok hrest
    cases hleave
    obtain ⟨bd, s, tr, hbd, hs, rfl⟩ := bindUnknown_eq_ok hstep
    obtain ⟨hname, hvalue⟩ := Store.binding_eq_ok hbd
    obtain ⟨-, rfl⟩ := Store.insert_eq_ok hs
    obtain ⟨y, value⟩ := bd
    cases hname.symm.trans ((hc.triangular.resolve_eq_apply _).trans (congrArg _ hx))
    cases hvalue.symm.trans ((hc.triangular.resolve_eq_apply _).trans (congrArg _ (hc.triangular.apply_apply b)))
    rfl

end IndexedTyping
