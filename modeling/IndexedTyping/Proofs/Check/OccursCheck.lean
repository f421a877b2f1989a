import IndexedTyping.Proofs.Check.Walk
import IndexedTyping.Proofs.Store.Triangular
import IndexedTyping.Proofs.Unify.Step

/-!
The strict occurs check beside the lenient one. Two runs that differ in this option go through the same contexts, until
the strict one meets a binding whose value has the bound unknown as its only one.
-/

namespace IndexedTyping

def CheckError.Loops (e : CheckError) : Prop := ∃ b, e = .cyclic b ∧ b.value.unknowns = [b.name]

namespace Store

theorem refuses_strict {b : Binding} : refuses true b = true ↔ b.Loops := by
  simp [refuses, Binding.Loops]

theorem refuses_of_lenient {b : Binding} (h : refuses false b = true) : refuses true b = true := by
  rw [refuses, Bool.and_eq_true] at h
  exact refuses_strict.mpr (List.contains_iff_mem.mp h.1)

end Store

namespace Context

def lenient (c : Context) : Context := { c with options := { c.options with strictOccurs := false } }

@[simp] theorem store_lenient (c : Context) : c.lenient.store = c.store := rfl

@[simp] theorem strictOccurs_lenient (c : Context) : c.lenient.options.strictOccurs = false := rfl

@[simp] theorem judgment?_lenient (c : Context) (e : Term) : c.lenient.judgment? e = c.judgment? e := rfl

theorem lenient_closeScope (c : Context) : c.closeScope.lenient = c.lenient.closeScope := by
  obtain ⟨_, _, _, _, _, scopes⟩ := c
  cases scopes <;> rfl

theorem strictOccurs_closeScope (c : Context) : c.closeScope.options.strictOccurs = c.options.strictOccurs := by
  obtain ⟨_, _, _, _, _, scopes⟩ := c
  cases scopes <;> rfl

end Context

namespace CheckM

variable {α β : Type}

def UpToLoops (m : CheckM α) : Prop :=
  ∀ c, c.options.strictOccurs = true →
    Ends (m c) (fun a d => d.options.strictOccurs = true ∧ m c.lenient = .ok a d.lenient)
      fun e d => m c.lenient = .error e d.lenient ∨ e.Loops

namespace UpToLoops

theorem pure (a : α) : UpToLoops (pure a) := fun _ hc => ⟨hc, rfl⟩

theorem throw (e : CheckError) : UpToLoops (throw e : CheckM α) := fun _ _ => .inl rfl

theorem bind {m : CheckM α} {k : α → CheckM β} (hm : UpToLoops m) (hk : ∀ a, UpToLoops (k a)) :
    UpToLoops (m >>= k) := by
  intro c hc
  rw [ends_bind]
  refine (hm c hc).mono (fun a d hd => ?_) fun e d h => h.imp_left bind_error
  have hrun : (m >>= k) c.lenient = k a d.lenient := bind_ok hd.2
  rw [hrun]
  exact hk a d hd.1

theorem emit (phase message : String) : UpToLoops (emit phase message) := fun _ hc => ⟨hc, rfl⟩

theorem enter (phase message : String) : UpToLoops (enter phase message) := fun _ hc => ⟨hc, rfl⟩

theorem leave (phase message : String) : UpToLoops (leave phase message) := fun _ hc => ⟨hc, rfl⟩

theorem ofExcept (r : Except CheckError α) : UpToLoops (ofExcept r) := by
  cases r with
  | ok a => exact .pure a
  | error e => exact .throw e

theorem ite {q : Context → Bool} (hq : ∀ c, q c.lenient = q c) {m m' : CheckM α} (hm : UpToLoops m)
    (hm' : UpToLoops m') : UpToLoops (do if q (← get) then m else m') := by
  intro c hc
  have hrun (d : Context) : (do if q (← get) then m else m' : CheckM α) d = if q d then m d else m' d := by
    change (if q d then m else m' : CheckM α) d = _
    split <;> rfl
  simp only [hrun, hq]
  split
  · exact hm c hc
  · exact hm' c hc

theorem resolve (t : OpenTy) : UpToLoops (resolve t) := fun c => ofExcept (c.store.resolve t) c

theorem resolveTy (t : Ty) : UpToLoops (resolveTy t) := fun c => ofExcept (c.store.resolveTy t) c

theorem typeOf (e : Term) : UpToLoops (typeOf e) := by
  intro c hc
  simp only [typeOf_run, Context.judgment?_lenient]
  cases c.judgment? e with
  | some j => exact resolve j.type c hc
  | none => exact .inl rfl

theorem bindUnknown (x : String) (t : OpenTy) : UpToLoops (bindUnknown x t) := by
  intro c hc
  simp only [bindUnknown_run, Context.store_lenient, Context.strictOccurs_lenient, hc]
  cases c.store.binding x t with
  | error e => exact .inl rfl
  | ok b =>
    simp only [Store.insert]
    cases hstrict : Store.refuses true b <;> cases hlenient : Store.refuses false b
    · exact ⟨hc, rfl⟩
    · rw [Store.refuses_of_lenient hlenient] at hstrict
      cases hstrict
    · exact .inr ⟨b, rfl, (Store.loops_of_not_refuses hlenient (Store.refuses_strict.mp hstrict)).2⟩
    · exact .inl rfl

theorem congruence : Congruence (fun _ => True) (fun _ => True) fun m _ => UpToLoops m where
  mismatch _ _ := .throw _
  bindUnknown _ _ := .bindUnknown _ _
  seq hm hk := hm.bind fun _ => hk
  typeOf _ hk := (UpToLoops.typeOf _).bind fun t => hk t t.over_true
  resolve _ hk := (UpToLoops.resolve _).bind fun t => hk t t.over_true
  differ hm := .ite (fun _ => rfl) (.pure ()) hm
  enter := .enter
  leave := .leave

theorem unifyWithin (n : Nat) (a b : OpenTy) : UpToLoops (unifyWithin n a b) := by
  induction n generalizing a b with
  | zero => exact .throw _
  | succ n ih => exact congruence.unifyWithin_succ n n (fun _ _ => ih _ _) a.over_true b.over_true

theorem unify (a b : OpenTy) : UpToLoops (unify a b) := fun c => unifyWithin c.options.depth a b c

theorem declare (e : Term) (t : OpenTy) : UpToLoops (declare e t) := by
  intro c hc
  simp only [declare_run, Context.store_lenient, Context.judgment?_lenient]
  cases c.store.resolve t with
  | error err => exact .inl rfl
  | ok a =>
    dsimp only
    cases c.judgment? e with
    | some j => exact unify a j.type { c with trace := c.trace.emit "Declare" (e.render ++ " : " ++ a.render) } hc
    | none => exact ⟨hc, rfl⟩

theorem withScope (label : String) (binders : List String) {m : CheckM α} (hm : UpToLoops m) :
    UpToLoops (withScope label binders m) := by
  intro c hc
  have hrun := hm (c.openScope label binders) hc
  have hlenient : (c.openScope label binders).lenient = c.lenient.openScope label binders := rfl
  rw [hlenient] at hrun
  simp only [withScope_run]
  cases hr : m (c.openScope label binders) with
  | ok a d =>
    rw [hr] at hrun
    obtain ⟨hd, hrun⟩ := hrun
    rw [hrun]
    exact ⟨d.strictOccurs_closeScope.trans hd, congrArg _ d.lenient_closeScope.symm⟩
  | error e d =>
    rw [hr] at hrun
    refine hrun.imp_left fun hrun => ?_
    rw [hrun]
    exact congrArg _ d.lenient_closeScope.symm

theorem walk : Walk UpToLoops where
  pure := .pure
  bind := .bind
  unsupported _ := .throw _
  emit := .emit
  enter := .enter
  leave := .leave
  newUnknown := fun _ hc => ⟨hc, rfl⟩
  resolveTy := .resolveTy
  typeOf := .typeOf
  bindUnknown := .bindUnknown
  unify := .unify
  declare := .declare
  ifBound hm hm' := .ite (fun _ => rfl) hm hm'
  withScope := .withScope

end UpToLoops

end CheckM

/-- The strict occurs check refuses nothing but loops: a program has the same error under both checks and the same
context but for the options, or the strict one fails on a binding whose value has the bound unknown as its only one. -/
theorem check_strict_eq_or_loops (options : Options) (trace : Trace) (p : Program) :
    let strict := check { options with strictOccurs := true } trace p
    let lenient := check { options with strictOccurs := false } trace p
    strict.error? = lenient.error? ∧ strict.context = { lenient.context with options := strict.context.options } ∨
      ∃ b, strict.error? = some (.cyclic b) ∧ b.value.unknowns = [b.name] := by
  have hrun := CheckM.UpToLoops.walk.checkAll p (.new { options with strictOccurs := true } trace) rfl
  have hnew : (Context.new { options with strictOccurs := true } trace).lenient =
      .new { options with strictOccurs := false } trace := rfl
  rw [hnew] at hrun
  simp only [check]
  cases hr : CheckM.checkAll p (.new { options with strictOccurs := true } trace) with
  | ok a d =>
    rw [hr] at hrun
    rw [hrun.2]
    exact .inl ⟨rfl, rfl⟩
  | error e d =>
    rw [hr] at hrun
    rcases hrun with hrun | ⟨b, rfl, hb⟩
    · rw [hrun]
      exact .inl ⟨rfl, rfl⟩
    · exact .inr ⟨b, rfl, hb⟩

-- a name that is made a synonym of itself
example :
    let p : Program := [.synonym "A" (.name "A")]
    (check {} (.new false) p).ok = true ∧ (check { strictOccurs := true } (.new false) p).ok = false := by
  decide +kernel

end IndexedTyping
