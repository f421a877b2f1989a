import IndexedTyping.Proofs.Check.OccursCheck
import IndexedTyping.Proofs.OpenTy.Names
import IndexedTyping.Proofs.Store.Substitution
import Mathlib.Data.List.Pairwise

namespace IndexedTyping

open CheckM

def Stmt.namedType? : Stmt → Option String
  | .synonym n _ | .primitive n => some n
  | .define .. | .fix .. | .assume .. | .group .. => none

namespace Program

def namedTypes (p : Program) : List String := p.filterMap Stmt.namedType?

structure NamesTypes (p : Program) : Prop where
  only : ∀ s ∈ p, s.namedType?.isSome = true
  nodup : p.namedTypes.Nodup

def Mentions (p : Program) (x y : String) : Prop := ∃ t, .synonym x t ∈ p ∧ y ∈ t.names

def DependsOn (p : Program) (x y : String) : Prop := p.Mentions x y ∧ y ∈ p.namedTypes

/-- The type with all synonyms put in, down to names that are types of their own or that have no meaning. -/
inductive Expands (p : Program) : Ty → OpenTy → Prop
  | synonym : .synonym x t ∈ p → Expands p t r → Expands p (.name x) r
  | primitive : .primitive x ∈ p → Expands p (.name x) (.ground (.name x))
  | unnamed : x ∉ p.namedTypes → Expands p (.name x) (.unknown x)
  | prim : Expands p (.prim q) (.ground (.prim q))
  | fn : Expands p t a → Expands p s b → Expands p (.fn t s) (.fn a b)
  | app : Expands p t a → Expands p s b → Expands p (.app t s) (.app a b)
  | all : Expands p t a → Expands p (.all x l t) (.all x l a)
  | indexed : Expands p t a → Expands p (.indexed t e) (.indexed a e)

variable {p q : Program} {x y : String} {s : Stmt} {t : Ty} {r : OpenTy}

theorem mem_namedTypes : x ∈ p.namedTypes ↔ ∃ s ∈ p, s.namedType? = some x := List.mem_filterMap

theorem namedTypes_append (p q : Program) : namedTypes (p ++ q) = p.namedTypes ++ q.namedTypes := List.filterMap_append

theorem Mentions.mem_namedTypes (h : p.Mentions x y) : x ∈ p.namedTypes := by
  obtain ⟨t, hs, -⟩ := h
  exact Program.mem_namedTypes.mpr ⟨_, hs, rfl⟩

theorem mentions_mono (hpq : p ⊆ q) : p.Mentions ≤ q.Mentions := by
  rintro x y ⟨t, hs, hy⟩
  exact ⟨t, hpq hs, hy⟩

theorem mentions_perm (hpq : p.Perm q) : p.Mentions = q.Mentions := by
  funext x y
  simp only [Mentions, hpq.mem_iff]

theorem dependsOn_of_mentions (h : Relation.TransGen p.Mentions x y) (hy : y ∈ p.namedTypes) :
    Relation.TransGen p.DependsOn x y := by
  induction h with
  | single hxy => exact .single ⟨hxy, hy⟩
  | tail _ hyz ih => exact .tail (ih hyz.mem_namedTypes) ⟨hyz, hy⟩

theorem circle_iff : Relation.TransGen p.DependsOn x x ↔ Relation.TransGen p.Mentions x x := by
  constructor
  · exact Relation.TransGen.mono (fun _ _ h => h.1) x x
  · intro h
    obtain ⟨y, hxy, -⟩ := Relation.TransGen.head'_iff.mp h
    exact dependsOn_of_mentions h hxy.mem_namedTypes

theorem eq_of_namedType? (hp : p.namedTypes.Nodup) {s' : Stmt} (hs : s ∈ p) (hs' : s' ∈ p)
    (hx : s.namedType? = some x) (hx' : s'.namedType? = some x) : s = s' := by
  by_contra hne
  have hpair := List.pairwise_filterMap.mp hp
  have hsymm : Std.Symm fun s s' : Stmt => ∀ x, s.namedType? = some x → ∀ y, s'.namedType? = some y → x ≠ y :=
    ⟨fun _ _ h y hy x hx => (h x hx y hy).symm⟩
  exact hpair.forall hs hs' hne x hx x hx' rfl

namespace Expands

theorem of_perm (h : p.Expands t r) (hpq : p.Perm q) : q.Expands t r := by
  induction h with
  | synonym hs _ ih => exact .synonym (hpq.mem_iff.mp hs) ih
  | primitive hs => exact .primitive (hpq.mem_iff.mp hs)
  | unnamed hx => exact .unnamed fun h => hx ((hpq.filterMap _).mem_iff.mpr h)
  | prim => exact .prim
  | fn _ _ iht ihs => exact .fn iht ihs
  | app _ _ iht ihs => exact .app iht ihs
  | all _ ih => exact .all ih
  | indexed _ ih => exact .indexed ih

theorem unique (hp : p.namedTypes.Nodup) {r' : OpenTy} (h : p.Expands t r) (h' : p.Expands t r') : r = r' := by
  induction h generalizing r' with
  | synonym hs _ ih =>
    cases h' with
    | synonym hs' h' =>
      cases eq_of_namedType? hp hs hs' rfl rfl
      exact ih h'
    | primitive hs' => cases eq_of_namedType? hp hs hs' rfl rfl
    | unnamed hx => exact absurd (mem_namedTypes.mpr ⟨_, hs, rfl⟩) hx
  | primitive hs =>
    cases h' with
    | synonym hs' _ => cases eq_of_namedType? hp hs hs' rfl rfl
    | primitive _ => rfl
    | unnamed hx => exact absurd (mem_namedTypes.mpr ⟨_, hs, rfl⟩) hx
  | unnamed hx =>
    cases h' with
    | synonym hs' _ => exact absurd (mem_namedTypes.mpr ⟨_, hs', rfl⟩) hx
    | primitive hs' => exact absurd (mem_namedTypes.mpr ⟨_, hs', rfl⟩) hx
    | unnamed _ => rfl
  | prim =>
    cases h'
    rfl
  | fn _ _ iht ihs =>
    cases h' with
    | fn ht hs => rw [iht ht, ihs hs]
  | app _ _ iht ihs =>
    cases h' with
    | app ht hs => rw [iht ht, ihs hs]
  | all _ ih =>
    cases h' with
    | all ht => rw [ih ht]
  | indexed _ ih =>
    cases h' with
    | indexed ht => rw [ih ht]

theorem not_transGen_of_not_mentions (h : ∀ z, ¬p.Mentions x z) (hxy : Relation.ReflTransGen p.Mentions x y) :
    ¬Relation.TransGen p.Mentions y y := by
  cases (Relation.reflTransGen_iff_eq h).mp hxy
  intro hcircle
  obtain ⟨z, hyz, -⟩ := Relation.TransGen.head'_iff.mp hcircle
  exact h z hyz

theorem not_transGen (hp : p.namedTypes.Nodup) (h : p.Expands t r) (hx : x ∈ t.names)
    (hxy : Relation.ReflTransGen p.Mentions x y) : ¬Relation.TransGen p.Mentions y y := by
  induction h generalizing x with
  | @synonym u r z hs _ ih =>
    cases List.mem_singleton.mp hx
    -- what `z` mentions, its synonym mentions
    have hstep {w : String} (hw : p.Mentions z w) : w ∈ u.names := by
      obtain ⟨u', hs', hw⟩ := hw
      cases eq_of_namedType? hp hs hs' rfl rfl
      exact hw
    rcases hxy.cases_head with rfl | ⟨w, hzw, hwy⟩
    · intro hcircle
      obtain ⟨w, hzw, hwz⟩ := Relation.TransGen.head'_iff.mp hcircle
      exact ih (hstep hzw) hwz hcircle
    · exact ih (hstep hzw) hwy
  | @primitive z hs =>
    cases List.mem_singleton.mp hx
    have hnone (w : String) : ¬p.Mentions z w := by
      rintro ⟨u, hs', -⟩
      cases eq_of_namedType? hp hs hs' rfl rfl
    exact not_transGen_of_not_mentions hnone hxy
  | @unnamed z hz =>
    cases List.mem_singleton.mp hx
    exact not_transGen_of_not_mentions (fun _ h => hz h.mem_namedTypes) hxy
  | prim => cases hx
  | fn _ _ iht ihs | app _ _ iht ihs => exact (List.mem_append.mp hx).elim (iht · hxy) (ihs · hxy)
  | all _ ih | indexed _ ih => exact ih hx hxy

theorem exists_reflTransGen (h : p.Expands t r) (hy : y ∈ r.unknowns) :
    ∃ x ∈ t.names, Relation.ReflTransGen p.Mentions x y := by
  induction h with
  | @synonym u r z hs _ ih =>
    obtain ⟨w, hw, hwy⟩ := ih hy
    exact ⟨z, List.mem_singleton_self z, .head ⟨u, hs, hw⟩ hwy⟩
  | primitive _ | prim => cases hy
  | unnamed _ =>
    cases List.mem_singleton.mp hy
    exact ⟨y, List.mem_singleton_self y, .refl⟩
  | fn _ _ iht ihs | app _ _ iht ihs =>
    rcases List.mem_append.mp hy with hy | hy
    · obtain ⟨w, hw, hwy⟩ := iht hy
      exact ⟨w, List.mem_append_left _ hw, hwy⟩
    · obtain ⟨w, hw, hwy⟩ := ihs hy
      exact ⟨w, List.mem_append_right _ hw, hwy⟩
  | all _ ih | indexed _ ih => exact ih hy

theorem append (h : p.Expands t r) (hs : s.namedType? = some x) {v : OpenTy}
    (hv : x ∈ r.unknowns → Expands (p ++ [s]) (.name x) v) : Expands (p ++ [s]) t (Binding.replace ⟨x, v⟩ r) := by
  induction h with
  | synonym hmem _ ih => exact .synonym (List.mem_append_left _ hmem) (ih hv)
  | primitive hmem => exact .primitive (List.mem_append_left _ hmem)
  | @unnamed y hy =>
    by_cases hyx : y = x
    · subst hyx
      rw [Binding.replace_self ⟨y, v⟩]
      exact hv (List.mem_singleton_self y)
    · rw [Binding.replace_of_notMem (by simpa [OpenTy.unknowns] using Ne.symm hyx)]
      refine .unnamed ?_
      rw [namedTypes_append, List.mem_append]
      rintro (hmem | hmem)
      · exact hy hmem
      · obtain ⟨s', hs', hy'⟩ := Program.mem_namedTypes.mp hmem
        cases List.mem_singleton.mp hs'
        exact hyx (Option.some.inj (hy'.symm.trans hs))
  | prim => exact .prim
  | fn _ _ iht ihs =>
    exact .fn (iht fun h => hv (List.mem_append_left _ h)) (ihs fun h => hv (List.mem_append_right _ h))
  | app _ _ iht ihs =>
    exact .app (iht fun h => hv (List.mem_append_left _ h)) (ihs fun h => hv (List.mem_append_right _ h))
  | all _ ih => exact .all (ih hv)
  | indexed _ ih => exact .indexed (ih hv)

end Expands

structure Built (p : Program) (c : Context) : Prop where
  strict : c.options.strictOccurs = true
  triangular : c.store.Triangular true
  names : c.store.names = p.namedTypes
  expands : ∀ t, p.Expands t (c.store.apply t.embed)

namespace Built

variable {c : Context}

theorem nil (hstrict : c.options.strictOccurs = true) (hstore : c.store = []) : Built [] c where
  strict := hstrict
  triangular := hstore ▸ .nil
  names := by rw [hstore]; rfl
  expands t := by
    rw [hstore, Store.apply_nil]
    induction t with
    | name x => exact .unnamed List.not_mem_nil
    | prim q => exact .prim
    | fn t s iht ihs => exact .fn iht ihs
    | app t s iht ihs => exact .app iht ihs
    | all x l t ih => exact .all ih
    | indexed t e ih => exact .indexed ih

theorem resolveTy (h : p.Built c) (t : Ty) : c.store.resolveTy t = .ok (c.store.apply t.embed) := by
  rw [Store.resolveTy_eq_resolve, h.triangular.resolve_eq_apply]

theorem not_transGen (h : p.Built c) (hp : p.namedTypes.Nodup) : ¬Relation.TransGen p.Mentions x x :=
  (h.expands (.name x)).not_transGen hp (List.mem_singleton_self x) .refl

theorem trace (h : p.Built c) (tr : Trace) : p.Built { c with trace := tr } :=
  ⟨h.strict, h.triangular, h.names, h.expands⟩

theorem bindUnknown (h : p.Built c) (hs : s.namedType? = some x) (hx : x ∉ p.namedTypes) {a : OpenTy}
    (hv : x ∉ (c.store.apply a).unknowns → Expands (p ++ [s]) (.name x) (c.store.apply a)) :
    Ends (bindUnknown x a c) (fun _ d => Built (p ++ [s]) d)
      fun e _ => e.fault = .cyclic ∧ x ∈ (c.store.apply a).unknowns := by
  have hbinding := h.triangular.binding_eq (h.names ▸ hx) a
  rw [bindUnknown_run, hbinding, h.strict]
  dsimp only
  by_cases hrefuses : Store.refuses true ⟨x, c.store.apply a⟩ = true
  · rw [Store.insert, if_pos hrefuses]
    exact ⟨rfl, Store.refuses_strict.mp hrefuses⟩
  · have hinsert : c.store.insert true ⟨x, c.store.apply a⟩ = .ok (c.store ++ [⟨x, c.store.apply a⟩]) := if_neg hrefuses
    have hopen : x ∉ (c.store.apply a).unknowns := fun hmem => hrefuses (Store.refuses_strict.mpr hmem)
    rw [hinsert]
    refine ⟨h.strict, h.triangular.of_insert hbinding hinsert, ?_, fun t => ?_⟩
    · rw [namedTypes_append, ← h.names]
      simp [Store.names, namedTypes, hs]
    · rw [Store.apply_append]
      exact (h.expands t).append hs fun _ => hv hopen

theorem checkStmtBody (h : p.Built c) (hs : s.namedType? = some x) (hx : x ∉ p.namedTypes) :
    Ends (checkStmtBody s c) (fun _ d => Built (p ++ [s]) d)
      fun e _ => e.fault = .cyclic ∧ Relation.TransGen (Mentions (p ++ [s])) x x := by
  cases s with
  | define | fix | assume | group => cases hs
  | synonym n t =>
    cases hs
    have hmem : Stmt.synonym x t ∈ p ++ [.synonym x t] := List.mem_append_right _ (List.mem_singleton_self _)
    have hrun : CheckM.checkStmtBody (.synonym x t) c = CheckM.bindUnknown x (c.store.apply t.embed) c :=
      bind_ok (by rw [resolveTy_run, h.resolveTy]; rfl)
    -- the type is resolved once more when it is bound, to no effect
    have hexpands := h.expands t
    rw [← h.triangular.apply_apply t.embed] at hexpands
    rw [hrun]
    refine (h.bindUnknown rfl hx fun hopen => ?_).mono (fun _ _ hd => hd) fun e _ he => ⟨he.1, ?_⟩
    · have happend := hexpands.append (s := .synonym x t) (v := .unknown x) rfl fun hmem => absurd hmem hopen
      rw [Binding.replace_of_notMem hopen] at happend
      exact .synonym hmem happend
    · -- the name is left open by its own type, so the new statement closes a circle
      obtain ⟨y, hy, hyx⟩ := hexpands.exists_reflTransGen he.2
      exact .head' ⟨t, hmem, hy⟩ (Relation.ReflTransGen.mono (mentions_mono (List.subset_append_left _ _)) y x hyx)
  | primitive n =>
    cases hs
    have hprimitive : Expands (p ++ [.primitive x]) (.name x) (.ground (.name x)) :=
      .primitive (List.mem_append_right _ (List.mem_singleton_self _))
    have hrun : CheckM.checkStmtBody (.primitive x) c =
        CheckM.bindUnknown x (.ground (.name x)) { c with trace := c.trace.emit "Primitive" x } := rfl
    rw [hrun]
    refine ((h.trace _).bindUnknown rfl hx fun _ => ?_).mono (fun _ _ hd => hd) fun e _ he => ?_
    · rw [Store.apply_ground]
      exact hprimitive
    · rw [Store.apply_ground] at he
      cases he.2

theorem checkStmt (h : p.Built c) (hs : s.namedType? = some x) (hx : x ∉ p.namedTypes) :
    Ends (checkStmt s c) (fun _ d => Built (p ++ [s]) d)
      fun e _ => e.fault = .cyclic ∧ ∃ y, Relation.TransGen (Mentions (p ++ [s])) y y := by
  have hrun : CheckM.checkStmt s c = (CheckM.checkStmtBody s >>= fun _ => leave "End Check" s.render)
      { c with trace := c.trace.enter "Begin Check" s.render } := rfl
  rw [hrun, ends_bind]
  refine ((h.trace _).checkStmtBody hs hx).mono (fun _ d hd => ?_) fun e _ he => ⟨he.1, x, he.2⟩
  exact hd.trace _

theorem checkStmts (h : p.Built c) (hq : ∀ s ∈ q, s.namedType?.isSome = true)
    (hnodup : (namedTypes (p ++ q)).Nodup) :
    Ends (checkStmts q c) (fun _ d => Built (p ++ q) d)
      fun e _ => e.fault = .cyclic ∧ ∃ y, Relation.TransGen (Mentions (p ++ q)) y y := by
  induction q generalizing p c with
  | nil =>
    rw [List.append_nil]
    exact h
  | cons s q ih =>
    obtain ⟨x, hs⟩ := Option.isSome_iff_exists.mp (hq s List.mem_cons_self)
    have happend : p ++ s :: q = (p ++ [s]) ++ q := List.append_cons p s q
    have hx : x ∉ p.namedTypes := by
      rw [happend, namedTypes_append, namedTypes_append] at hnodup
      have hdisjoint := (List.nodup_append'.mp (List.nodup_append'.mp hnodup).1).2.2
      exact fun hmem => hdisjoint hmem (Program.mem_namedTypes.mpr ⟨s, List.mem_singleton_self s, hs⟩)
    rw [happend] at hnodup ⊢
    refine ends_bind.mpr ((h.checkStmt hs hx).mono (fun _ d hd => ?_) ?_)
    · exact ih hd (fun s' hs' => hq s' (List.mem_cons_of_mem s hs')) hnodup
    · rintro e - ⟨he, y, hy⟩
      exact ⟨he, y, Relation.TransGen.mono (mentions_mono (List.subset_append_left _ _)) y y hy⟩

end Built

namespace NamesTypes

variable {options : Options}

theorem of_perm (hp : p.NamesTypes) (hpq : p.Perm q) : q.NamesTypes where
  only s hs := hp.only s (hpq.mem_iff.mpr hs)
  nodup := (hpq.filterMap _).nodup_iff.mp hp.nodup

theorem built_or_circle (hp : p.NamesTypes) (hstrict : options.strictOccurs = true) (trace : Trace) :
    ((check options trace p).ok = true ∧ p.Built (check options trace p).context) ∨
      (check options trace p).error?.map CheckError.fault = some .cyclic ∧
        ∃ x, Relation.TransGen p.Mentions x x := by
  have hnil : Built [] (.new options (trace.enter "Begin Check" "Prgm ...")) := .nil hstrict rfl
  have hrun : checkAll p (.new options trace) = (checkStmts p >>= fun _ => leave "End Check" "Prgm ...")
      (.new options (trace.enter "Begin Check" "Prgm ...")) := rfl
  have hends := hnil.checkStmts hp.only hp.nodup
  rw [List.nil_append] at hends
  rw [check, hrun]
  cases hr : checkStmts p (.new options (trace.enter "Begin Check" "Prgm ...")) with
  | ok _ d =>
    rw [hr] at hends
    rw [bind_ok hr]
    exact .inl ⟨rfl, Built.trace hends _⟩
  | error e d =>
    rw [hr] at hends
    rw [bind_error hr]
    exact .inr ⟨congrArg some hends.1, hends.2⟩

theorem ok_iff (hp : p.NamesTypes) (hstrict : options.strictOccurs = true) (trace : Trace) :
    (check options trace p).ok = true ↔ ∀ x, ¬Relation.TransGen p.Mentions x x := by
  rcases hp.built_or_circle hstrict trace with ⟨hok, hbuilt⟩ | ⟨herror, x, hx⟩
  · exact iff_of_true hok fun x => hbuilt.not_transGen hp.nodup
  · refine iff_of_false (fun hok => ?_) fun h => h x hx
    rw [Outcome.ok, Option.isNone_iff_eq_none] at hok
    rw [hok] at herror
    cases herror

theorem built (hp : p.NamesTypes) (hstrict : options.strictOccurs = true) {trace : Trace}
    (hok : (check options trace p).ok = true) : p.Built (check options trace p).context := by
  rcases hp.built_or_circle hstrict trace with ⟨-, hbuilt⟩ | ⟨-, x, hx⟩
  · exact hbuilt
  · exact absurd hx ((hp.ok_iff hstrict trace).mp hok x)

end NamesTypes

end Program

/-- A program that only names types is accepted just if no name depends on itself. Then every type resolves to its one
expansion, and for all of this the order of the statements does not matter. -/
theorem check_namesTypes_perm (options : Options) (trace : Trace) {p : Program}
    (hstrict : options.strictOccurs = true) (hp : p.NamesTypes) :
    ((check options trace p).ok = true ↔ ∀ x, ¬Relation.TransGen p.DependsOn x x) ∧
      ((check options trace p).ok = false →
        (check options trace p).error?.map CheckError.fault = some .cyclic) ∧
      ((check options trace p).ok = true → ∀ t, ∃ r, (check options trace p).context.store.resolveTy t = .ok r ∧
        ∀ r', p.Expands t r' ↔ r' = r) ∧
      ∀ q, q.Perm p → (check options trace q).ok = (check options trace p).ok ∧
        ((check options trace p).ok = true → ∀ t, (check options trace q).context.store.resolveTy t =
          (check options trace p).context.store.resolveTy t) := by
  refine ⟨(hp.ok_iff hstrict trace).trans (forall_congr' fun _ => not_congr Program.circle_iff.symm), ?_, ?_, ?_⟩
  · intro hfails
    rcases hp.built_or_circle hstrict trace with ⟨hok, -⟩ | ⟨herror, -⟩
    · cases hfails.symm.trans hok
    · exact herror
  · intro hok t
    have hexpands := (hp.built hstrict hok).expands t
    refine ⟨_, (hp.built hstrict hok).resolveTy t, fun r => ⟨fun h => h.unique hp.nodup hexpands, ?_⟩⟩
    rintro rfl
    exact hexpands
  · intro q hqp
    have hq : q.NamesTypes := hp.of_perm hqp.symm
    have hok_eq : (check options trace q).ok = (check options trace p).ok := by
      rw [Bool.eq_iff_iff, hq.ok_iff hstrict, hp.ok_iff hstrict, Program.mentions_perm hqp]
    refine ⟨hok_eq, fun hok t => ?_⟩
    have hbuilt := hp.built hstrict hok
    have hbuilt' := hq.built hstrict (hok_eq.trans hok)
    rw [hbuilt.resolveTy, hbuilt'.resolveTy, ((hbuilt'.expands t).of_perm hqp).unique hp.nodup (hbuilt.expands t)]

theorem check_namesTypes_perm_reverse :
    let row : Stmt := .synonym "Row" (.fn (.name "Item") (.app (.name "List") (.name "Item")))
    let list : Ty := .app (.name "List") (.prim .nat)
    let circle : Ty := .app (.name "List") (.name "Row")
    let p (item : Ty) : Program := [row, .synonym "Item" item, .primitive "List"]
    let strict : Options := { strictOccurs := true }
    (∀ t, (check strict (.new false) (p list).reverse).context.store.resolveTy t =
        (check strict (.new false) (p list)).context.store.resolveTy t) ∧
      (check strict (.new false) (p circle).reverse).ok = false := by
  intro row list circle p strict
  have hp (item : Ty) : (p item).NamesTypes := ⟨by simp [p, row, Stmt.namedType?], by
    simp [p, row, Program.namedTypes, Stmt.namedType?]⟩
  have hlist := check_namesTypes_perm strict (.new false) rfl (hp list)
  have hcircle := check_namesTypes_perm strict (.new false) rfl (hp circle)
  refine ⟨(hlist.2.2.2 _ (List.reverse_perm _)).2 (by decide +kernel), ?_⟩
  rw [(hcircle.2.2.2 _ (List.reverse_perm _)).1]
  decide +kernel

end IndexedTyping
