import IndexedTyping.Check
import IndexedTyping.Proofs.Store.Resolution

namespace IndexedTyping

namespace CheckM

variable {α β : Type}

/-- What holds of the result and the context of an action, if it succeeds, or of its failure and the context. -/
def Ends (r : EStateM.Result CheckError Context α) (Q : α → Context → Prop) (E : CheckError → Context → Prop) :
    Prop :=
  match r with
  | .ok a c => Q a c
  | .error e c => E e c

theorem Ends.mono {r : EStateM.Result CheckError Context α} {Q Q' : α → Context → Prop}
    {E E' : CheckError → Context → Prop} (h : Ends r Q E) (hQ : ∀ a c, Q a c → Q' a c) (hE : ∀ e c, E e c → E' e c) :
    Ends r Q' E' := by
  cases r with
  | ok a c => exact hQ a c h
  | error e c => exact hE e c h

theorem ends_bind {m : CheckM α} {k : α → CheckM β} {c : Context} {Q : β → Context → Prop}
    {E : CheckError → Context → Prop} :
    Ends ((m >>= k) c) Q E ↔ Ends (m c) (fun a d => Ends (k a d) Q E) E := by
  simp only [bind, EStateM.bind]
  cases m c with
  | ok a d => exact Iff.rfl
  | error e d => exact Iff.rfl

section

-- also for states other than a context
variable {σ : Type} {m : EStateM CheckError σ α} {k : α → EStateM CheckError σ β} {c d : σ}

theorem bind_ok {a : α} (h : m c = .ok a d) : (m >>= k) c = k a d := by
  simp only [bind, EStateM.bind, h]

theorem bind_error {e : CheckError} (h : m c = .error e d) : (m >>= k) c = .error e d := by
  simp only [bind, EStateM.bind, h]

theorem bind_eq_ok {b : β} (h : (m >>= k) c = .ok b d) : ∃ a c', m c = .ok a c' ∧ k a c' = .ok b d := by
  cases hm : m c with
  | ok a c' => exact ⟨a, c', rfl, (bind_ok hm).symm.trans h⟩
  | error e c' => cases (bind_error hm).symm.trans h

end

theorem bind_congr {m m' : CheckM α} {c d : Context} (h : m c = m' d) (k : α → CheckM β) :
    (m >>= k) c = (m' >>= k) d := by
  simp only [bind, EStateM.bind, h]

theorem exists_ok_of_isSome {m : CheckM α} {c : Context} (h : (m.run' c).isSome = true) : ∃ a d, m c = .ok a d := by
  cases hr : m c with
  | ok a d => exact ⟨a, d, rfl⟩
  | error e d =>
    delta EStateM.run' EStateM.run at h
    rw [hr] at h
    cases h

@[simp] theorem ofExcept_ok (a : α) (c : Context) : ofExcept (.ok a) c = .ok a c := rfl

theorem resolve_run (t : OpenTy) (c : Context) : resolve t c = ofExcept (c.store.resolve t) c := rfl

theorem resolveTy_run (t : Ty) (c : Context) : resolveTy t c = ofExcept (c.store.resolveTy t) c := rfl

theorem newUnknown_run (c : Context) :
    newUnknown c = .ok (.unknown (unknownName c.counter))
      { c with counter := c.counter + 1, trace := c.trace.emit "FreeName" (unknownName c.counter) } :=
  rfl

theorem bindUnknown_run (x : String) (t : OpenTy) (c : Context) :
    bindUnknown x t c = match c.store.binding x t with
      | .error e => .error e c
      | .ok b => match c.store.insert c.options.strictOccurs b with
        | .error e => .error e { c with trace := c.trace.emit "Rewrite" b.render }
        | .ok s => .ok () { c with trace := c.trace.emit "Rewrite" b.render, store := s } := by
  have hrun : bindUnknown x t c = (ofExcept (c.store.binding x t) >>= fun b => do
      emit "Rewrite" b.render
      let d ← get
      set { d with store := ← ofExcept (d.store.insert d.options.strictOccurs b) }) c := rfl
  rw [hrun]
  cases c.store.binding x t with
  | error e => rfl
  | ok b =>
    rw [bind_ok (ofExcept_ok b c)]
    change (ofExcept (c.store.insert c.options.strictOccurs b) >>= _) _ = _
    dsimp only
    cases c.store.insert c.options.strictOccurs b <;> rfl

theorem typeOf_run (e : Term) (c : Context) :
    typeOf e c = match c.judgment? e with
      | some j => ofExcept (c.store.resolve j.type) c
      | none => .error (.unbound e (match e with
        | .var x _ => Text.similarNames x c.judgedNames Text.suggested
        | _ => [])) c := by
  have hrun : typeOf e c = (match c.judgment? e with
      | some j => resolve j.type
      | none => match e with
        | .var x _ => throw (.unbound e (Text.similarNames x c.judgedNames Text.suggested))
        | _ => throw (.unbound e []) : CheckM OpenTy) c := rfl
  rw [hrun]
  cases c.judgment? e with
  | some j => rfl
  | none => cases e <;> rfl

theorem declare_run (e : Term) (t : OpenTy) (c : Context) :
    declare e t c = match c.store.resolve t with
      | .error err => .error err c
      | .ok a =>
        let d := { c with trace := c.trace.emit "Declare" (e.render ++ " : " ++ a.render) }
        match c.judgment? e with
        | some j => unify a j.type d
        | none => .ok () { d with judgments := ⟨e, a⟩ :: c.judgments } := by
  have hrun : declare e t c = (ofExcept (c.store.resolve t) >>= fun a => do
      emit "Declare" (e.render ++ " : " ++ a.render)
      let d ← get
      match d.judgment? e with
      | some j => unify a j.type
      | none => set { d with judgments := ⟨e, a⟩ :: d.judgments }) c := rfl
  rw [hrun]
  cases c.store.resolve t with
  | error err => rfl
  | ok a =>
    rw [bind_ok (ofExcept_ok a c)]
    change (match c.judgment? e with
      | some j => unify a j.type
      | none => set { c with trace := _, judgments := ⟨e, a⟩ :: c.judgments } : CheckM Unit) _ = _
    cases c.judgment? e <;> rfl

theorem unify_run (a b : OpenTy) (c : Context) : unify a b c = unifyWithin c.options.depth a b c := rfl

theorem withScope_run (label : String) (binders : List String) (m : CheckM α) (c : Context) :
    withScope label binders m c = match m (c.openScope label binders) with
      | .ok a d => .ok a d.closeScope
      | .error e d => .error e d.closeScope :=
  rfl

theorem withScope_eq_ok {label : String} {binders : List String} {m : CheckM α} {c d : Context} {a : α}
    (h : withScope label binders m c = .ok a d) : ∃ e, m (c.openScope label binders) = .ok a e ∧ d = e.closeScope := by
  rw [withScope_run] at h
  cases hm : m (c.openScope label binders) with
  | ok b e =>
    rw [hm] at h
    cases h
    exact ⟨e, rfl, rfl⟩
  | error err e =>
    rw [hm] at h
    cases h

theorem resolve_eq_ok {t a : OpenTy} {c d : Context} (h : resolve t c = .ok a d) :
    d = c ∧ c.store.resolve t = .ok a := by
  rw [resolve_run] at h
  cases hr : c.store.resolve t with
  | ok b =>
    rw [hr] at h
    cases h
    exact ⟨rfl, rfl⟩
  | error err =>
    rw [hr] at h
    cases h

theorem bindUnknown_eq_ok {x : String} {t : OpenTy} {c d : Context} (h : bindUnknown x t c = .ok () d) :
    ∃ b s tr, c.store.binding x t = .ok b ∧ c.store.insert c.options.strictOccurs b = .ok s ∧
      d = { c with trace := tr, store := s } := by
  rw [bindUnknown_run] at h
  cases hb : c.store.binding x t with
  | error err =>
    rw [hb] at h
    cases h
  | ok b =>
    simp only [hb] at h
    cases hs : c.store.insert c.options.strictOccurs b with
    | error err =>
      rw [hs] at h
      cases h
    | ok s =>
      rw [hs] at h
      cases h
      exact ⟨b, s, _, rfl, hs, rfl⟩

theorem bindUnknown_eq_error {x : String} {t : OpenTy} {c d : Context} {e : CheckError}
    (h : bindUnknown x t c = .error e d) :
    (∃ tr, d = { c with trace := tr }) ∧ (c.store.binding x t = .error e ∨
      ∃ b, c.store.binding x t = .ok b ∧ c.store.insert c.options.strictOccurs b = .error e) := by
  rw [bindUnknown_run] at h
  cases hb : c.store.binding x t with
  | error err =>
    rw [hb] at h
    cases h
    exact ⟨⟨_, rfl⟩, .inl rfl⟩
  | ok b =>
    simp only [hb] at h
    cases hs : c.store.insert c.options.strictOccurs b with
    | ok s =>
      rw [hs] at h
      cases h
    | error err =>
      rw [hs] at h
      cases h
      exact ⟨⟨_, rfl⟩, .inr ⟨b, rfl, hs⟩⟩

theorem typeOf_eq_ok {e : Term} {a : OpenTy} {c d : Context} (h : typeOf e c = .ok a d) :
    d = c ∧ ∃ j, c.judgment? e = some j ∧ c.store.resolve j.type = .ok a := by
  rw [typeOf_run] at h
  cases hj : c.judgment? e with
  | some j =>
    rw [hj] at h
    obtain ⟨hd, hr⟩ := resolve_eq_ok h
    exact ⟨hd, j, rfl, hr⟩
  | none =>
    rw [hj] at h
    cases h

theorem judged_eq_ok {e : Term} {m : CheckM Unit} {a : OpenTy} {c d : Context} (h : judged e m c = .ok a d) :
    ∃ t t' d', m { c with trace := t } = .ok () d' ∧ typeOf e d' = .ok a d' ∧ d = { d' with trace := t' } := by
  obtain ⟨_, _, henter, hrest⟩ := bind_eq_ok h
  cases henter
  obtain ⟨_, d', hm, hrest⟩ := bind_eq_ok hrest
  obtain ⟨b, _, htype, hleave⟩ := bind_eq_ok hrest
  obtain ⟨rfl, -⟩ := typeOf_eq_ok htype
  cases hleave
  exact ⟨_, _, _, hm, htype, rfl⟩

theorem declare_eq_ok {e : Term} {t : OpenTy} {c d : Context} (h : declare e t c = .ok () d) :
    ∃ a tr, c.store.resolve t = .ok a ∧
      ((∃ j, c.judgment? e = some j ∧ unify a j.type { c with trace := tr } = .ok () d) ∨
        c.judgment? e = none ∧ d = { c with trace := tr, judgments := ⟨e, a⟩ :: c.judgments }) := by
  rw [declare_run] at h
  cases hr : c.store.resolve t with
  | error err =>
    rw [hr] at h
    cases h
  | ok a =>
    rw [hr] at h
    refine ⟨a, c.trace.emit "Declare" (e.render ++ " : " ++ a.render), rfl, ?_⟩
    cases hj : c.judgment? e with
    | some j =>
      simp only [hj] at h
      exact .inl ⟨j, rfl, h⟩
    | none =>
      simp only [hj] at h
      cases h
      exact .inr ⟨rfl, rfl⟩

theorem resolve_embed_eq {c : Context} (hs : c.store = []) (t : Ty) : c.store.resolve t.embed = .ok t.embed :=
  Store.resolve_eq_self fun x _ => by simp [hs, Store.Unbound]

theorem resolve_embed {c : Context} (hs : c.store = []) (t : Ty) : resolve t.embed c = .ok t.embed c := by
  rw [resolve_run, resolve_embed_eq hs]
  rfl

theorem checkStmt_assume_run {c : Context} (hs : c.store = []) (n : String) (t : Ty) :
    ∃ tr, checkStmt (.assume n t) c = (do
      declare (.var n none) t.embed
      leave "End Check" (Stmt.assume n t).render : CheckM Unit) { c with trace := tr } := by
  let d : Context := { c with trace := c.trace.enter "Begin Check" (Stmt.assume n t).render }
  have hresolve : resolveTy t d = .ok t.embed d := by
    rw [resolveTy_run, Store.resolveTy_eq_resolve]
    exact resolve_embed (c := d) hs t
  have hbody : checkStmtBody (.assume n t) d = declare (.var n none) t.embed d := bind_ok hresolve
  exact ⟨d.trace, bind_congr hbody _⟩

theorem checkStmt_assume {c : Context} (hs : c.store = []) {n : String} (t : Ty)
    (hn : c.judgment? (.var n none) = none) : ∃ tr, checkStmt (.assume n t) c =
      .ok () { c with trace := tr, judgments := ⟨.var n none, t.embed⟩ :: c.judgments } := by
  obtain ⟨tr, hrun⟩ := checkStmt_assume_run hs n t
  have hdeclare := declare_run (.var n none) t.embed { c with trace := tr }
  have hnone : Context.judgment? { c with trace := tr } (.var n none) = none := hn
  simp only [resolve_embed_eq hs, hnone] at hdeclare
  exact ⟨_, hrun.trans (bind_ok hdeclare)⟩

theorem checkStmts_append_eq_ok {p q : Program} {c d : Context} (h : checkStmts (p ++ q) c = .ok () d) :
    ∃ e, checkStmts p c = .ok () e ∧ checkStmts q e = .ok () d := by
  induction p generalizing c with
  | nil => exact ⟨c, rfl, h⟩
  | cons s p ih =>
    obtain ⟨_, c₁, hfirst, hrest⟩ := bind_eq_ok h
    obtain ⟨e, hp, hq⟩ := ih hrest
    exact ⟨e, (bind_ok hfirst).trans hp, hq⟩

end CheckM

theorem exists_checkAll_of_ok {options : Options} {trace : Trace} {p : Program}
    (h : (check options trace p).ok = true) :
    ∃ d, CheckM.checkAll p (.new options trace) = .ok () d := by
  rw [check] at h
  cases hr : CheckM.checkAll p (.new options trace) with
  | ok _ d => exact ⟨d, rfl⟩
  | error e d =>
    rw [hr] at h
    cases h

theorem exists_checkStmts_of_ok {options : Options} {trace : Trace} {p : Program}
    (h : (check options trace p).ok = true) :
    ∃ t t' d, CheckM.checkStmts p { Context.new options trace with trace := t } = .ok () d ∧
      (check options trace p).context = { d with trace := t' } := by
  obtain ⟨d, hall⟩ := exists_checkAll_of_ok h
  have hcontext : (check options trace p).context = d := by rw [check, hall]
  obtain ⟨_, _, henter, hrest⟩ := CheckM.bind_eq_ok hall
  cases henter
  obtain ⟨_, c, hstmts, hleave⟩ := CheckM.bind_eq_ok hrest
  cases hleave
  exact ⟨_, _, c, hstmts, hcontext⟩

end IndexedTyping
