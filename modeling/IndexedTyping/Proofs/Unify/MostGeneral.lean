import IndexedTyping.Proofs.Check.Reachable
import IndexedTyping.Proofs.Unify.Solution

/-!
Unification of first-order types ends, and finds the most general solution if there is any.

Every call either binds an unknown, after which there is one unknown less to be bound, or is about smaller types. Two
types are compared as they are resolved at that time, so the second of two parts is judged after what the first has
bound.
-/

namespace IndexedTyping

open OpenTy CheckM

/-- A call in which composite types have to change sides counts more than the call after. -/
def OpenTy.weight (a b : OpenTy) : Nat := 2 * (a.size + b.size) + (a.isComposite && !b.isComposite).toNat

theorem OpenTy.weight_lt {a b a' b' : OpenTy} (h : a.size + b.size < a'.size + b'.size) :
    a.weight b < a'.weight b' := by
  have := Bool.toNat_le (a.isComposite && !b.isComposite)
  rw [weight, weight]
  omega

theorem OpenTy.weight_lt_of_swap {a b : OpenTy} (ha : a.isComposite = true) (hb : b.isComposite = false) :
    b.weight a < a.weight b := by
  simp only [weight, ha, hb, Bool.not_true, Bool.not_false, Bool.and_false, Bool.and_true, Bool.toNat_true,
    Bool.toNat_false]
  omega

structure Resolved (V : Finset String) (s : Store) (a : OpenTy) : Prop where
  firstOrder : a.FirstOrder
  fixed : s.apply a = a
  mem : ∀ x ∈ a.unknowns, x ∈ V

namespace Resolved

variable {V : Finset String} {s : Store} {a b : OpenTy} {t : Ty}

theorem of_fn (h : Resolved V s (.fn a b)) : Resolved V s a ∧ Resolved V s b := by
  have hfixed := h.fixed
  rw [Store.apply_fn, OpenTy.fn.injEq] at hfixed
  exact ⟨⟨h.firstOrder.1, hfixed.1, fun x hx => h.mem x (List.mem_append_left _ hx)⟩,
    ⟨h.firstOrder.2, hfixed.2, fun x hx => h.mem x (List.mem_append_right _ hx)⟩⟩

theorem of_app (h : Resolved V s (.app a b)) : Resolved V s a ∧ Resolved V s b := by
  have hfixed := h.fixed
  rw [Store.apply_app, OpenTy.app.injEq] at hfixed
  exact ⟨⟨h.firstOrder.1, hfixed.1, fun x hx => h.mem x (List.mem_append_left _ hx)⟩,
    ⟨h.firstOrder.2, hfixed.2, fun x hx => h.mem x (List.mem_append_right _ hx)⟩⟩

theorem ground (ht : t.FirstOrder) : Resolved V s (.ground t) := ⟨ht, Store.apply_ground s t, by simp [unknowns]⟩

end Resolved

theorem Context.Regular.unifyWithin_succ {c : Context} (hc : c.Regular) (n : Nat) (a b : OpenTy) :
    unifyWithin (n + 1) a b c =
      let a := c.store.apply a
      let b := c.store.apply b
      let message := a.render ++ " <~> " ++ b.render
      if a.same c.options.budget b then .ok () c
      else
        (do enter "Begin Unify" message; unifyStep (unifyWithin n) a b; leave "End Unify" message : CheckM Unit) c :=
  hc.triangular.unifyWithin_succ n a b

structure Equation where
  context : Context
  left : OpenTy
  right : OpenTy
  unknowns : Finset String
  regular : context.Regular
  firstOrder_left : left.FirstOrder
  firstOrder_right : right.FirstOrder
  mem_left : ∀ x ∈ (context.store.apply left).unknowns, x ∈ unknowns
  mem_right : ∀ x ∈ (context.store.apply right).unknowns, x ∈ unknowns

namespace Equation

def weight (q : Equation) : Nat := (q.context.store.apply q.left).weight (q.context.store.apply q.right)

def Decided (q : Equation) : Prop :=
  Decides q.unknowns (fun θ => Agree (q.left.bind θ) (q.right.bind θ)) (fun n => unifyWithin n q.left q.right) q.context

def DecidedBelow (k w : Nat) : Prop :=
  ∀ q : Equation, q.unknowns.card < k ∨ q.unknowns.card = k ∧ q.weight < w → q.Decided

variable {V : Finset String} {w : Nat} {c : Context}

theorem DecidedBelow.decides (ih : DecidedBelow V.card w) (hc : c.Regular) {a b : OpenTy} (ha : Resolved V c.store a)
    (hb : Resolved V c.store b) (hw : a.weight b < w) :
    Decides V (fun θ => Agree (a.bind θ) (b.bind θ)) (fun n => unifyWithin n a b) c := by
  refine ih ⟨c, a, b, V, hc, ha.firstOrder, hb.firstOrder, ?_, ?_⟩ (.inr ⟨rfl, ?_⟩)
  · rw [ha.fixed]
    exact ha.mem
  · rw [hb.fixed]
    exact hb.mem
  · simpa only [weight, ha.fixed, hb.fixed] using hw

theorem decides_parts (ih : DecidedBelow V.card w) (hc : c.Regular) {a b a' b' : OpenTy}
    (ha : Resolved V c.store a) (hb : Resolved V c.store b) (ha' : Resolved V c.store a') (hb' : Resolved V c.store b')
    (hw : a.weight b < w) (hw' : a'.weight b' < w) :
    Decides V (fun θ => Agree (a.bind θ) (b.bind θ) ∧ Agree (a'.bind θ) (b'.bind θ))
      (fun n => do unifyWithin n a b; unifyWithin n a' b') c := by
  refine (ih.decides hc ha hb hw).seq fun d hd => ?_
  obtain ⟨new, hnew, hwithin⟩ := hd.grows
  have later : ∀ t, Resolved V c.store t → d.store.apply t = new.apply t := fun t ht => by
    rw [hnew, Store.apply_append, ht.fixed]
  have mem : ∀ t, Resolved V c.store t → ∀ x ∈ (d.store.apply t).unknowns, x ∈ V := fun t ht => by
    rw [later t ht]
    exact hwithin.mem_apply ht.mem
  -- either the first part binds nothing and the second is as light as before, or an unknown is gone
  cases new with
  | nil =>
    refine ih ⟨d, a', b', V, hd.regular, ha'.firstOrder, hb'.firstOrder, mem a' ha', mem b' hb'⟩ (.inr ⟨rfl, ?_⟩)
    simpa only [weight, later a' ha', later b' hb', Store.apply_nil] using hw'
  | cons bd new =>
    have hV : bd.name ∈ V := (hwithin bd List.mem_cons_self).1
    have mem' : ∀ t, Resolved V c.store t → ∀ x ∈ (d.store.apply t).unknowns, x ∈ V.erase bd.name := by
      intro t ht x hx
      refine Finset.mem_erase.mpr ⟨fun hxb => ?_, mem t ht x hx⟩
      exact hd.regular.triangular.unbound_of_mem_apply hx bd (by simp [hnew]) hxb.symm
    have second := ih ⟨d, a', b', V.erase bd.name, hd.regular, ha'.firstOrder, hb'.firstOrder, mem' a' ha', mem' b' hb'⟩
      (.inl (Finset.card_erase_lt_of_mem hV))
    exact second.mono (Finset.erase_subset _ _)

theorem decides_bindUnknown (hc : c.Regular) {x : String} {t : OpenTy} (hx : Resolved V c.store (.unknown x))
    (ht : Resolved V c.store t) (hne : t ≠ .unknown x) :
    Decides V (fun θ => Agree (θ x) (t.bind θ)) (fun _ => bindUnknown x t) c := by
  have hb : c.store.binding x t = .ok ⟨x, t⟩ := by
    rw [Store.binding, hc.triangular.resolve_eq_apply, hc.triangular.resolve_eq_apply, hx.fixed, ht.fixed]
    rfl
  apply settles_of_ends
  rw [bindUnknown_run, hb]
  dsimp only
  cases hs : c.store.insert c.options.strictOccurs ⟨x, t⟩ with
  | error e =>
    obtain ⟨hrefuses, rfl⟩ := Store.insert_eq_error hs
    rw [Store.refuses, Bool.and_eq_true] at hrefuses
    have hocc : x ∈ t.unknowns := List.contains_iff_mem.mp hrefuses.1
    exact ⟨.inr ⟨_, rfl⟩, fun θ _ => not_agree_bind_of_mem θ hocc hne⟩
  | ok s =>
    have htri := hc.triangular.of_insert hb (hc.strict ▸ hs)
    obtain ⟨-, rfl⟩ := Store.insert_eq_ok hs
    refine ⟨⟨hc.strict, htri, hc.firstOrder.append ht.firstOrder⟩, fun θ => Store.solvedBy_append, [⟨x, t⟩], rfl, ?_⟩
    intro b hb
    cases List.mem_singleton.mp hb
    exact ⟨hx.mem x List.mem_cons_self, ht.mem⟩

theorem decides_unifyStep {a b : OpenTy} (ih : DecidedBelow V.card (a.weight b)) (hc : c.Regular)
    (ha : Resolved V c.store a) (hb : Resolved V c.store b) (hne : a ≠ b) :
    Decides V (fun θ => Agree (a.bind θ) (b.bind θ)) (fun n => unifyStep (unifyWithin n) a b) c := by
  have hafo := ha.firstOrder
  have hbfo := hb.firstOrder
  cases a with
  | ground t =>
    cases b with
    | ground s =>
      refine decides_of_clash (.inl ⟨_, _, rfl⟩) fun θ h => hne ?_
      rw [Ty.spread_inj hafo hbfo h]
    | unknown x => exact (decides_bindUnknown hc hb ha hne).congr fun θ _ => ⟨.symm, .symm⟩
    | fn b b' =>
      cases t with
      | fn t t' =>
        refine (decides_parts ih hc (.ground hafo.1) hb.of_fn.1 (.ground hafo.2) hb.of_fn.2 ?_ ?_).congr
          fun θ _ => agree_ground_fn.symm
        · exact weight_lt (by simp only [size, Ty.size]; omega)
        · exact weight_lt (by simp only [size, Ty.size]; omega)
      | _ => exact decides_of_clash (.inl ⟨_, _, rfl⟩) fun θ h => by cases h
    | app b b' =>
      cases t with
      | app t t' =>
        refine (decides_parts ih hc (.ground hafo.1) hb.of_app.1 (.ground hafo.2) hb.of_app.2 ?_ ?_).congr
          fun θ _ => agree_ground_app.symm
        · exact weight_lt (by simp only [size, Ty.size]; omega)
        · exact weight_lt (by simp only [size, Ty.size]; omega)
      | _ => exact decides_of_clash (.inl ⟨_, _, rfl⟩) fun θ h => by cases h
    | all y l b => exact hbfo.elim
    | indexed b e => exact hbfo.elim
  | unknown x => exact decides_bindUnknown hc ha hb hne.symm
  | fn a a' =>
    cases b with
    -- the two sides change places, which the weight counts as progress
    | ground s => exact (ih.decides hc hb ha (weight_lt_of_swap rfl rfl)).congr fun θ _ => ⟨.symm, .symm⟩
    | unknown x => exact (ih.decides hc hb ha (weight_lt_of_swap rfl rfl)).congr fun θ _ => ⟨.symm, .symm⟩
    | fn b b' =>
      refine (decides_parts ih hc ha.of_fn.1 hb.of_fn.1 ha.of_fn.2 hb.of_fn.2 ?_ ?_).congr fun θ _ => agree_fn.symm
      · exact weight_lt (by simp only [size]; omega)
      · exact weight_lt (by simp only [size]; omega)
    | app b b' => exact decides_of_clash (.inl ⟨_, _, rfl⟩) fun θ h => by cases h
    | all y l b => exact hbfo.elim
    | indexed b e => exact hbfo.elim
  | app a a' =>
    cases b with
    | ground s => exact (ih.decides hc hb ha (weight_lt_of_swap rfl rfl)).congr fun θ _ => ⟨.symm, .symm⟩
    | unknown x => exact (ih.decides hc hb ha (weight_lt_of_swap rfl rfl)).congr fun θ _ => ⟨.symm, .symm⟩
    | fn b b' => exact decides_of_clash (.inl ⟨_, _, rfl⟩) fun θ h => by cases h
    | app b b' =>
      refine (decides_parts ih hc ha.of_app.1 hb.of_app.1 ha.of_app.2 hb.of_app.2 ?_ ?_).congr fun θ _ => agree_app.symm
      · exact weight_lt (by simp only [size]; omega)
      · exact weight_lt (by simp only [size]; omega)
    | all y l b => exact hbfo.elim
    | indexed b e => exact hbfo.elim
  | all x l a => exact hafo.elim
  | indexed a e => exact hafo.elim

theorem decided_of_decidedBelow (q : Equation) (ih : DecidedBelow q.unknowns.card q.weight) : q.Decided := by
  have hstore := q.regular.firstOrder
  have ha : Resolved q.unknowns q.context.store (q.context.store.apply q.left) :=
    ⟨hstore.apply q.firstOrder_left, q.regular.triangular.apply_apply _, q.mem_left⟩
  have hb : Resolved q.unknowns q.context.store (q.context.store.apply q.right) :=
    ⟨hstore.apply q.firstOrder_right, q.regular.triangular.apply_apply _, q.mem_right⟩
  have hsame : (q.context.store.apply q.left).same q.context.options.budget (q.context.store.apply q.right) = true ↔
      q.context.store.apply q.left = q.context.store.apply q.right := same_iff ha.firstOrder
  have hrun := fun n => q.regular.unifyWithin_succ n q.left q.right
  by_cases heq : q.context.store.apply q.left = q.context.store.apply q.right
  · refine Settles.of_succ (decides_of_agree q.regular fun θ hθ => ?_) fun n => ?_
    · have hright := hθ.agree_apply q.right
      rw [← heq] at hright
      exact (hθ.agree_apply q.left).symm.trans hright
    · exact (hrun n).trans (if_pos (hsame.mpr heq))
  · have step := Decides.traced (fun t => decides_unifyStep (c := { q.context with trace := t }) ih
      (q.regular.copy rfl rfl) ha hb heq) "Begin Unify" "End Unify"
    refine Settles.of_succ ((step _).congr fun θ hθ => ?_) fun n => (hrun n).trans (if_neg (mt hsame.mp heq))
    -- an assignment that satisfies the store does not tell a type from the resolved one
    have hleft := hθ.agree_apply q.left
    have hright := hθ.agree_apply q.right
    exact ⟨fun h => hleft.symm.trans (h.trans hright), fun h => hleft.trans (h.trans hright.symm)⟩

theorem decided (q : Equation) : q.Decided :=
  q.decided_of_decidedBelow fun q' _ => q'.decided
termination_by (q.unknowns.card, q.weight)
decreasing_by
  rw [Prod.lex_def]
  assumption

end Equation

def Unifies (c : Context) (a b : OpenTy) (θ : String → OpenTy) : Prop :=
  c.store.SolvedBy θ ∧ Agree (a.bind θ) (b.bind θ)

theorem decides_unifyWithin {c : Context} {a b : OpenTy} (hc : c.Regular) (ha : a.FirstOrder) (hb : b.FirstOrder) :
    Decides ((c.store.apply a).unknowns ++ (c.store.apply b).unknowns).toFinset
      (fun θ => Agree (a.bind θ) (b.bind θ)) (fun n => unifyWithin n a b) c :=
  Equation.decided ⟨c, a, b, _, hc, ha, hb, fun x hx => by simp [hx], fun x hx => by simp [hx]⟩

theorem Context.regular_of_reachable {c : Context} (hc : Reachable c) (hstrict : c.options.strictOccurs = true)
    (hstore : c.store.FirstOrder) : c.Regular :=
  ⟨hstrict, hstrict ▸ (Context.Grown.of_reachable hc).store, hstore⟩

/-- Under the strict occurs check, unification of first-order types comes to an end whatever the store: from some depth
on its answer is the same, and within a smaller depth it is that answer or cut off. It succeeds just if the two types
have a unifier at all. Then they resolve to the same type, and the new store asks no more of an assignment than to be a
unifier. -/
theorem unify_most_general {c : Context} {a b : OpenTy} (hc : Reachable c) (hstrict : c.options.strictOccurs = true)
    (hstore : c.store.FirstOrder) (ha : a.FirstOrder) (hb : b.FirstOrder) :
    ∃ N answer, (∀ n ≥ N, unifyWithin n a b c = answer) ∧
      (unify a b c = answer ∨ ∃ l r d, unify a b c = .error (.tooDeep l r) d) ∧
      match answer with
      | .ok _ d => (∃ θ, Unifies c a b θ) ∧
          (∃ a' b', d.store.resolve a = .ok a' ∧ d.store.resolve b = .ok b' ∧ Agree a' b') ∧
          ∀ θ, d.store.SolvedBy θ ↔ Unifies c a b θ
      | .error e _ => (¬∃ θ, Unifies c a b θ) ∧ ((∃ l r, e = .mismatch l r) ∨ ∃ b, e = .cyclic b) := by
  obtain ⟨N, answer, hN, hend⟩ := decides_unifyWithin (Context.regular_of_reachable hc hstrict hstore) ha hb
  refine ⟨N, answer, hN, ?_, ?_⟩
  · rcases deepens_unifyWithin (Nat.le_max_right N c.options.depth) a b c with hdeep | hdeep
    · exact .inl (hdeep.symm.trans (hN _ (Nat.le_max_left N _)))
    · exact .inr hdeep
  · cases answer with
    | ok _ d =>
      have hsolved := hend.regular.triangular.solvedBy_apply
      have hunifies := (hend.solvedBy_iff _).mp hsolved
      refine ⟨⟨_, hunifies⟩, ⟨_, _, hend.regular.triangular.resolve_eq_apply a,
        hend.regular.triangular.resolve_eq_apply b, ?_⟩, hend.solvedBy_iff⟩
      rw [d.store.apply_eq_bind, d.store.apply_eq_bind b]
      exact hunifies.2
    | error e d =>
      exact ⟨fun ⟨θ, hsolved, hagree⟩ => hend.unsolvable θ hsolved hagree, hend.clash⟩

theorem unify_most_general_bound :
    let c := (Operation.unify (.unknown "p") (.fn (.unknown "q") (.unknown "q"))).after
      (.new { strictOccurs := true } (.new false))
    let b := OpenTy.ground (.fn (.prim .nat) (.prim .nat))
    Reachable c ∧ c.store = [⟨"p", .fn (.unknown "q") (.unknown "q")⟩] ∧
      ∃ N d, (∀ n ≥ N, unifyWithin n (.unknown "p") b c = .ok () d) ∧
        ∀ θ, d.store.SolvedBy θ ↔ Unifies c (.unknown "p") b θ := by
  intro c b
  have hc : Reachable c := .after _ (.new _ _)
  have hstore : c.store = [⟨"p", .fn (.unknown "q") (.unknown "q")⟩] := by decide
  have hfirst : c.store.FirstOrder := by
    rw [hstore]
    exact List.forall_mem_singleton.mpr ⟨trivial, trivial⟩
  refine ⟨hc, hstore, ?_⟩
  obtain ⟨N, answer, hN, -, hanswer⟩ :=
    unify_most_general (a := .unknown "p") (b := b) hc (by decide) hfirst trivial ⟨trivial, trivial⟩
  cases answer with
  | ok _ d => exact ⟨N, d, hN, hanswer.2.2⟩
  | error e d =>
    refine absurd ⟨fun x => if x = "p" then b else .ground (.prim .nat), ?_, by decide⟩ hanswer.1
    rw [hstore]
    exact List.forall_mem_singleton.mpr (by decide)

end IndexedTyping
