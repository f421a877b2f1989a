import IndexedTyping.Proofs.Check.Spelling
import Mathlib.Logic.Equiv.Basic

/-!
When a program may be renamed. Since judgments go by spelling, a bound name can meet a declared one, a name in the type
of another statement, or another bound name, and whether a program is accepted can then depend on it. It does not if the
renaming keeps apart what was apart, and together what was together.
-/

namespace IndexedTyping

namespace Stmt

def known : Stmt → List Term
  | define n t _ | fix n t _ | assume n t => .var n none :: t.keys
  | synonym _ t => t.keys
  | primitive _ | group .. => []

/-- The statements differ at most in bound names of their bodies, and if the terms of `K` are known before, then in each
body the same is spelled alike. -/
inductive Renamed (K : List Term) : Stmt → Stmt → Prop
  | define : e.alphaEq f = true → ((Pairing.diagonal K).extend e f).isSome = true →
    Renamed K (define n t e) (define n t f)
  | fix : e.alphaEq f = true → ((Pairing.diagonal (.var n none :: t.keys ++ K)).extend e f).isSome = true →
    Renamed K (fix n t e) (fix n t f)
  | assume : Renamed K (assume n t) (assume n t)
  | synonym : Renamed K (synonym n t) (synonym n t)
  | primitive : Renamed K (primitive n) (primitive n)
  | group : Renamed K (group n l p) (group n l q)

end Stmt

inductive Program.Renamed : List Term → Program → Program → Prop
  | nil : Renamed K [] []
  | cons : s.Renamed K s' → Renamed (s.known ++ K) p q → Renamed K (s :: p) (s' :: q)

namespace CheckM

open Context Pairing

variable {K : List Term}

theorem diagonal_subset {L : List Term} (h : K ⊆ L) : diagonal K ⊆ diagonal L := List.map_subset _ h

theorem lockstep_body {e f : Term} {label label' : String} (hα : e.alphaEq f = true)
    (h : ((diagonal K).extend e f).isSome = true) :
    Lockstep (Alike K (diagonal K) []) (Alike K (diagonal K) []) (Shared K) (withScope label [] (checkTerm e))
      (withScope label' [] (checkTerm f)) := by
  obtain ⟨W, hW⟩ := Option.isSome_iff_exists.mp h
  exact lockstep_withScope (by simp) (by simp) (Later.law.obeys_checkTerm e) (Later.law.obeys_checkTerm f)
    (lockstep_checkTerm (fair_diagonal K) (Term.alphaEq_eq_alphaEqIn e f ▸ hα) hW)

theorem lockstep_checkStmtBody {s s' : Stmt} (h : s.Renamed K s') :
    Lockstep (Alike K (diagonal K) []) (Alike (s.known ++ K) (diagonal (s.known ++ K)) []) (fun _ _ => True)
      (checkStmtBody s) (checkStmtBody s') := by
  have hK : K ⊆ s.known ++ K := List.subset_append_right _ _
  have hgrow : ∀ c d, Alike K (diagonal K) [] c d → Alike (s.known ++ K) (diagonal (s.known ++ K)) [] c d :=
    fun c d h => h.mono hK (diagonal_subset hK)
  have hfair := fair_diagonal (s.known ++ K)
  have hkeys : ∀ (n : String) (t : Ty), t.keys ⊆ .var n none :: (t.keys ++ K) := fun n t =>
    List.subset_cons_of_subset _ (List.subset_append_left _ _)
  cases h with
  | @define e f n t hα hbody =>
    -- the body is checked before its own statement makes anything known
    refine (lockstep_resolveTy hK (hkeys n t)).bind ?_
    rintro a _ ⟨rfl, ha⟩
    refine (lockstep_body hα hbody).bind ?_
    rintro b _ ⟨rfl, hb⟩
    refine Lockstep.pre ?_ hgrow
    refine (lockstep_unify hfair ha (hb.mono hK fun _ => id)).bind fun _ _ _ => ?_
    exact lockstep_declare hfair (hfair.known _ List.mem_cons_self) ha
  | @fix e f n t hα hbody =>
    refine Lockstep.pre ((lockstep_resolveTy (List.Subset.refl _) (hkeys n t)).bind ?_) hgrow
    rintro a _ ⟨rfl, ha⟩
    refine (lockstep_declare hfair (hfair.known _ List.mem_cons_self) ha).bind fun _ _ _ => ?_
    refine (lockstep_body hα hbody).bind ?_
    rintro b _ ⟨rfl, hb⟩
    exact lockstep_unify hfair ha hb
  | @assume n t =>
    refine Lockstep.pre ((lockstep_resolveTy (List.Subset.refl _) (hkeys n t)).bind ?_) hgrow
    rintro a _ ⟨rfl, ha⟩
    exact lockstep_declare hfair (hfair.known _ List.mem_cons_self) ha
  | @synonym n t =>
    refine Lockstep.pre ((lockstep_resolveTy (List.Subset.refl _) (List.subset_append_left _ _)).bind ?_) hgrow
    rintro a _ ⟨rfl, ha⟩
    exact lockstep_bindUnknown n ha
  | @primitive n => exact lockstep_emit.bind fun _ _ _ => lockstep_bindUnknown n trivial
  | group => exact .throw

theorem lockstep_checkStmt {s s' : Stmt} (h : s.Renamed K s') :
    Lockstep (Alike K (diagonal K) []) (Alike (s.known ++ K) (diagonal (s.known ++ K)) []) (fun _ _ => True)
      (checkStmt s) (checkStmt s') :=
  lockstep_enter.bind fun _ _ _ => (lockstep_checkStmtBody h).bind fun _ _ _ => lockstep_leave

theorem lockstep_checkStmts {p q : Program} (h : Program.Renamed K p q) :
    Lockstep (Alike K (diagonal K) []) (fun _ _ => True) (fun _ _ => True) (checkStmts p) (checkStmts q) := by
  induction h with
  | nil => exact fun _ _ _ => ⟨trivial, trivial⟩
  | cons hs _ ih => exact (lockstep_checkStmt hs).bind fun _ _ _ => ih

end CheckM

theorem Program.Renamed.ok_eq {p q : Program} (h : Renamed [] p q) (options : Options) (trace : Trace) :
    (check options trace p).ok = (check options trace q).ok := by
  have hnew : Context.Alike [] (Pairing.diagonal []) [] (.new options trace) (.new options trace) :=
    ⟨rfl, rfl, rfl, by simp [Store.Over, Context.new], .nil, by simp [Context.binds, Context.new],
      by simp [Context.binds, Context.new]⟩
  have hall : CheckM.Lockstep (Context.Alike [] (Pairing.diagonal []) []) (fun _ _ => True) (fun _ _ => True)
      (CheckM.checkAll p) (CheckM.checkAll q) :=
    CheckM.lockstep_enter.bind fun _ _ _ => (CheckM.lockstep_checkStmts h).bind fun _ _ _ _ _ _ => ⟨trivial, trivial⟩
  exact check_ok_eq_of_both (hall _ _ hnew)

def Term.mapNames (ρ : String → String) : Term → Term
  | var x l => var (ρ x) l
  | lit v => lit v
  | lam x b => lam (ρ x) (b.mapNames ρ)
  | app f a => app (f.mapNames ρ) (a.mapNames ρ)
  | recur f x b => recur (ρ f) (ρ x) (b.mapNames ρ)

namespace Stmt

def mapBody (f : Term → Term) : Stmt → Stmt
  | define n t e => define n t (f e)
  | fix n t e => fix n t (f e)
  | s => s

def FixedBy (ρ : String → String) (s : Stmt) : Prop :=
  (∀ e ∈ s.known, e.mapNames ρ = e) ∧
    match s with
    | define _ _ e | fix _ _ e => ∀ x ∈ e.freeVars, ρ x = x
    | _ => True

end Stmt

def Pairing.Along (ρ : String → String) (V : Pairing) : Prop := ∀ v ∈ V, v.2 = v.1.mapNames ρ

section

variable {ρ : String → String} (hρ : Function.Injective ρ)
include hρ

namespace Term

theorem same_mapNames (e f : Term) : (e.mapNames ρ).same (f.mapNames ρ) = e.same f := by
  rw [Bool.eq_iff_iff]
  induction e generalizing f <;> cases f <;> simp_all [mapNames, same, hρ.eq_iff]

theorem sameReference_mapNames {bs : List String} {x : String} (h : x ∉ bs → ρ x = x) :
    sameReference (bs.map fun y => (y, ρ y)) x (ρ x) = true := by
  induction bs with
  | nil => simpa [sameReference] using (h List.not_mem_nil).symm
  | cons y bs ih =>
    by_cases hxy : y = x
    · simp [sameReference, hxy]
    · simp only [List.map_cons, sameReference, beq_eq_false_iff_ne.mpr hxy, beq_eq_false_iff_ne.mpr (hρ.ne hxy)]
      exact ih fun hx => h (by simp [hx, Ne.symm hxy])

theorem alphaEqIn_mapNames (bs : List String) {e : Term} (h : ∀ x ∈ e.freeVars, x ∉ bs → ρ x = x) :
    alphaEqIn (bs.map fun y => (y, ρ y)) e (e.mapNames ρ) = true := by
  induction e generalizing bs with
  | var x l => exact sameReference_mapNames hρ (h x List.mem_cons_self)
  | lit v => simp [mapNames, alphaEqIn]
  | lam x b ih => exact ih (x :: bs) fun y hy hb => h y (by simp_all [freeVars]) (by simp_all)
  | app f a ihf iha =>
    simp only [freeVars, List.mem_append] at h
    simp [mapNames, alphaEqIn, ihf bs fun x hx => h x (.inl hx), iha bs fun x hx => h x (.inr hx)]
  | recur f x b ih => exact ih (x :: f :: bs) fun y hy hb => h y (by simp_all [freeVars]) (by simp_all)

end Term

namespace Pairing

theorem Along.add {V : Pairing} (hV : V.Along ρ) (e : Term) :
    ∃ W, V.add e (e.mapNames ρ) = some W ∧ W.Along ρ := by
  have hall : ∀ v ∈ V, e.same v.1 = (e.mapNames ρ).same v.2 := fun v hv => by rw [hV v hv, Term.same_mapNames hρ]
  refine ⟨(e, e.mapNames ρ) :: V, by simpa [Pairing.add] using hall, ?_⟩
  simpa [Along] using hV

theorem Along.extend {V : Pairing} (hV : V.Along ρ) (e : Term) :
    ∃ W, V.extend e (e.mapNames ρ) = some W ∧ W.Along ρ := by
  induction e generalizing V with
  | var x l => exact hV.add hρ _
  | lit v => exact hV.add hρ _
  | lam x b ih =>
    obtain ⟨W, hW, hbody⟩ := ih hV
    obtain ⟨X, hX, -⟩ := hbody.add hρ (.var x none)
    obtain ⟨Y, hY, hlam⟩ := hV.add hρ (.lam x b)
    refine ⟨Y, ?_, hlam⟩
    simp_all [Pairing.extend, Term.mapNames]
  | app f a ihf iha =>
    obtain ⟨W, hW, hfn⟩ := ihf hV
    obtain ⟨X, hX, harg⟩ := iha hfn
    obtain ⟨Y, hY, happ⟩ := harg.add hρ (.app f a)
    refine ⟨Y, ?_, happ⟩
    simp_all [Pairing.extend, Term.mapNames]
  | recur f x b ih =>
    obtain ⟨W, hW, hbody⟩ := ih hV
    obtain ⟨X, hX, hparam⟩ := hbody.add hρ (.var x none)
    obtain ⟨Y, hY, -⟩ := hparam.add hρ (.var f none)
    obtain ⟨Z, hZ, hrec⟩ := hV.add hρ (.recur f x b)
    refine ⟨Z, ?_, hrec⟩
    simp_all [Pairing.extend, Term.mapNames]

end Pairing

theorem Stmt.renamed_mapBody {K : List Term} {s : Stmt} (hK : ∀ e ∈ K, e.mapNames ρ = e) (hs : s.FixedBy ρ) :
    s.Renamed K (s.mapBody (·.mapNames ρ)) := by
  have hpair : ∀ {L : List Term} {e : Term}, (∀ k ∈ L, k.mapNames ρ = k) →
      ((Pairing.diagonal L).extend e (e.mapNames ρ)).isSome = true := by
    intro L e hL
    have hV : (Pairing.diagonal L).Along ρ := by
      intro v hv
      obtain ⟨k, hk, rfl⟩ := List.mem_map.mp hv
      exact (hL k hk).symm
    obtain ⟨W, hW, -⟩ := hV.extend hρ e
    rw [hW]
    rfl
  have hα : ∀ {e : Term}, (∀ x ∈ e.freeVars, ρ x = x) → e.alphaEq (e.mapNames ρ) = true :=
    fun h => (Term.alphaEq_eq_alphaEqIn _ _).trans (Term.alphaEqIn_mapNames hρ [] fun x hx _ => h x hx)
  cases s with
  | define n t e => exact .define (hα hs.2) (hpair hK)
  | fix n t e =>
    refine .fix (hα hs.2) (hpair fun k hk => ?_)
    rcases List.mem_append.mp hk with hk | hk
    · exact hs.1 k hk
    · exact hK k hk
  | assume n t => exact .assume
  | synonym n t => exact .synonym
  | primitive n => exact .primitive
  | group n l p => exact .group

theorem Program.renamed_mapBody {K : List Term} {p : Program} (hK : ∀ e ∈ K, e.mapNames ρ = e)
    (hp : ∀ s ∈ p, s.FixedBy ρ) : Renamed K p (p.map (·.mapBody (·.mapNames ρ))) := by
  induction p generalizing K with
  | nil => exact .nil
  | cons s p ih =>
    have hs := hp s List.mem_cons_self
    refine .cons (Stmt.renamed_mapBody hρ hK hs) (ih (fun e he => ?_) fun r hr => hp r (List.mem_cons_of_mem s hr))
    rcases List.mem_append.mp he with he | he
    · exact hs.1 e he
    · exact hK e he

end

/-- Whether a program is accepted does not depend on the bound names of its bodies as long as the same terms are spelled
alike where they are judged. So it is if all names are renamed at once by an injective map that leaves alone those
that are declared, that are free in a body, and that stand in the keys of a type. -/
theorem check_ok_renaming (options : Options) (trace : Trace) :
    (∀ p q, Program.Renamed [] p q → (check options trace p).ok = (check options trace q).ok) ∧
      ∀ ρ p, Function.Injective ρ → (∀ s ∈ p, s.FixedBy ρ) →
        (check options trace p).ok = (check options trace (p.map (·.mapBody (·.mapNames ρ)))).ok :=
  ⟨fun _ _ h => h.ok_eq options trace,
    fun _ _ hρ hp => (Program.renamed_mapBody hρ (by simp) hp).ok_eq options trace⟩

theorem check_ok_renaming_apart :
    let nat : Ty := .prim .nat
    let twice (x : String) : Term := .lam x (.app (.var "s" none) (.app (.var "s" none) (.var x none)))
    let once (x : String) : Term := .lam x (.app (.var "s" none) (.var x none))
    let p (x : String) : Program := [.assume "s" (.fn nat nat), .assume "k" (.fn (.fn nat nat) (.fn (.fn nat nat) nat)),
      .define "n" nat (.app (.app (.var "k" none) (once "x")) (twice x))]
    let r := Equiv.swap "y" "z"
    Program.Renamed [] (p "x") (p "y") ∧ (check {} (.new false) (p "y")).ok = true ∧
      (check {} (.new false) (p "x")).ok = true ∧
      Function.Injective r ∧ (∀ s ∈ p "y", s.FixedBy r) ∧ (p "y").map (·.mapBody (·.mapNames r)) = p "z" ∧
      (check {} (.new false) (p "z")).ok = true := by
  intro nat twice once p r
  have hp : Program.Renamed [] (p "x") (p "y") :=
    .cons .assume (.cons .assume (.cons (.define (by decide +kernel) (by decide)) .nil))
  have hy : (check {} (.new false) (p "y")).ok = true := by decide +kernel
  have hfixed : ∀ s ∈ p "y", s.FixedBy r := by
    simp [p, r, nat, once, twice, Stmt.FixedBy, Stmt.known, Ty.keys, Term.mapNames, Term.freeVars, Equiv.swap_apply_def]
  have hz : (p "y").map (·.mapBody (·.mapNames r)) = p "z" := by
    simp [p, r, once, twice, Stmt.mapBody, Term.mapNames, Equiv.swap_apply_def]
  refine ⟨hp, hy, ((check_ok_renaming {} (.new false)).1 _ _ hp).trans hy, r.injective, hfixed, hz, ?_⟩
  rw [← hz, ← (check_ok_renaming {} (.new false)).2 r (p "y") r.injective hfixed]
  exact hy

/-- In the first program the bound name meets one that is declared with another type. In the second, two abstractions
of different types are spelled alike. -/
theorem bound_name_decides :
    let nat : Ty := .prim .nat
    let bool : Ty := .prim .bool
    let id (x : String) : Term := .lam x (.var x none)
    let body (x : String) : Term := .app (.app (.var "g" none) (id "x")) (id x)
    let p (x : String) : Program := [.assume "x" nat, .define "f" (.fn bool bool) (id x)]
    let q (x : String) : Program :=
      [.assume "g" (.fn (.fn nat nat) (.fn (.fn bool bool) nat)), .define "h" nat (body x)]
    (id "x").alphaEq (id "y") = true ∧ (body "x").alphaEq (body "y") = true ∧
      (check {} (.new false) (p "x")).ok = false ∧ (check {} (.new false) (p "y")).ok = true ∧
      (check {} (.new false) (q "x")).ok = false ∧ (check {} (.new false) (q "y")).ok = true := by
  decide +kernel

end IndexedTyping
