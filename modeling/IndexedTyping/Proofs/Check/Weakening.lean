import IndexedTyping.Proofs.Check.Hereditary

/-!
One more assumption in front of a program. Judgments are found by their terms, so a judgment on a name that the program
has no use for is never found: it stays behind all others, in every scope, and checking goes on as if it were not there.
-/

namespace IndexedTyping

def Term.names : Term → List String
  | var x _ => [x]
  | lit _ => []
  | lam x b => x :: b.names
  | app f a => f.names ++ a.names
  | recur f x b => f :: x :: b.names

def Ty.termNames : Ty → List String
  | name _ | prim _ => []
  | fn t s | app t s => t.termNames ++ s.termNames
  | all x _ t => x :: t.termNames
  | indexed t e => t.termNames ++ e.names

mutual

def Stmt.termNames : Stmt → List String
  | .define n t e | .fix n t e => n :: (t.termNames ++ e.names)
  | .assume n t => n :: t.termNames
  | .synonym _ t => t.termNames
  | .primitive _ => []
  | .group _ _ body => Program.termNames body

def Program.termNames : Program → List String
  | [] => []
  | s :: rest => s.termNames ++ Program.termNames rest

end

theorem Program.termNames_subset_of_mem {p : Program} {s : Stmt} (hs : s ∈ p) : s.termNames ⊆ p.termNames := by
  induction p with
  | nil => cases hs
  | cons r p ih =>
    rw [Program.termNames]
    rcases List.mem_cons.mp hs with rfl | hs
    · exact List.subset_append_left _ _
    · exact List.subset_append_of_subset_right _ (ih hs)

namespace Term

theorem names_subset_of_mem_judged {e f : Term} (h : f ∈ e.judged) : f.names ⊆ e.names := by
  induction e with
  | var x l | lit v =>
    cases List.mem_singleton.mp h
    exact List.Subset.refl _
  | lam x b ih =>
    rcases List.mem_append.mp h with h | h
    · exact List.subset_cons_of_subset x (ih h)
    · rcases List.mem_pair.mp h with rfl | rfl <;> simp [names]
  | app g a ihg iha =>
    simp only [judged, List.mem_append, List.mem_singleton] at h
    rcases h with (h | h) | rfl
    · exact List.subset_append_of_subset_left _ (ihg h)
    · exact List.subset_append_of_subset_right _ (iha h)
    · exact List.Subset.refl _
  | recur g x b ih =>
    simp only [judged, List.mem_append, List.mem_cons, List.not_mem_nil, or_false] at h
    rcases h with h | rfl | rfl | rfl
    · exact List.subset_cons_of_subset g (List.subset_cons_of_subset x (ih h))
    all_goals simp [names]

theorem same_var_of_notMem {n : String} {e : Term} (h : n ∉ e.names) : e.same (.var n none) = false := by
  cases e with
  | var x l => exact beq_false_of_ne fun hx => h (hx ▸ List.mem_singleton_self _)
  | _ => rfl

end Term

theorem Ty.names_subset_of_mem_keys {t : Ty} {e : Term} (h : e ∈ t.keys) : e.names ⊆ t.termNames := by
  induction t with
  | name x => cases h
  | prim p => cases h
  | fn t s iht ihs | app t s iht ihs =>
    rcases List.mem_append.mp h with h | h
    · exact List.subset_append_of_subset_left _ (iht h)
    · exact List.subset_append_of_subset_right _ (ihs h)
  | all x l t ih =>
    rcases List.mem_cons.mp h with rfl | h
    · simp [Term.names, termNames]
    · exact List.subset_cons_of_subset _ (ih h)
  | indexed t f ih =>
    rcases List.mem_cons.mp h with rfl | h
    · exact List.subset_append_right _ _
    · exact List.subset_append_of_subset_left _ (ih h)

theorem CheckError.diagnostic_unbound (e : Term) (xs ys : List String) :
    (unbound e xs).diagnostic = (unbound e ys).diagnostic := by
  cases e <;> rfl

def OpenTy.Aside (j : Judgment) (t : OpenTy) : Prop := t.Over (fun e => e.same j.term = false) fun _ => True

theorem OpenTy.Aside.hereditary (j : Judgment) : Hereditary (Aside j) where
  unknown _ := trivial
  prim _ := trivial
  fn ha hb := ⟨ha, hb⟩
  part ha hp := Over.of_mem_parts ha hp
  bind ht hθ := Over.bind ht hθ

namespace Context

structure Weakened (j : Judgment) (c d : Context) : Prop where
  options : d.options = c.options
  counter : d.counter = c.counter
  store : d.store = c.store
  judgments : d.judgments = c.judgments ++ [j]
  scopes : d.scopes = c.scopes.map fun s => { s with judgments := s.judgments ++ [j] }

namespace Weakened

variable {j : Judgment} {c d : Context}

theorem trace (h : c.Weakened j d) (t t' : Trace) : Weakened j { c with trace := t } { d with trace := t' } :=
  { h with }

theorem judgment? (h : c.Weakened j d) {e : Term} (he : e.same j.term = false) : d.judgment? e = c.judgment? e := by
  rw [Context.judgment?, Context.judgment?, h.judgments, List.find?_append]
  simp [he]

theorem binds (h : c.Weakened j d) (x : String) : d.binds x = c.binds x := by
  rw [Context.binds, h.scopes, List.any_map]
  rfl

theorem openScope (h : c.Weakened j d) (label : String) (binders : List String) :
    Weakened j (c.openScope label binders) (d.openScope label binders) :=
  { h with scopes := by simp [Context.openScope, h.scopes, h.store, h.judgments, h.counter] }

theorem closeScope (h : c.Weakened j d) : Weakened j c.closeScope d.closeScope := by
  have hscopes := h.scopes
  rw [Context.closeScope, Context.closeScope]
  cases hc : c.scopes with
  | nil => simpa [hscopes, hc] using h
  | cons s outer =>
    rw [hscopes, hc]
    exact ⟨h.options, by simp [h.options, h.counter], rfl, rfl, rfl⟩

end Weakened

end Context

namespace CheckM

open Context

variable {α β : Type} {j : Judgment}

inductive SameResult (R : Context → Context → Prop) :
    EStateM.Result CheckError Context α → EStateM.Result CheckError Context α → Prop
  | ok : R c d → SameResult R (.ok a c) (.ok a d)
  | error : e'.diagnostic = e.diagnostic → R c d → SameResult R (.error e c) (.error e' d)

structure Ignores (j : Judgment) (m : CheckM α) (φ : α → Prop) : Prop where
  keeps : Keeps (OpenTy.Aside j) m φ
  run {c d : Context} : c.Throughout (OpenTy.Aside j) → c.Weakened j d → SameResult (Weakened j) (m c) (m d)

namespace Ignores

variable {m : CheckM α} {φ : α → Prop}

theorem bind {k : α → CheckM β} {ψ : β → Prop} (hm : Ignores j m φ) (hk : ∀ a, φ a → Ignores j (k a) ψ) :
    Ignores j (m >>= k) ψ where
  keeps := hm.keeps.bind fun a ha => (hk a ha).keeps
  run {c d} hc h := by
    have hrun := hm.run hc h
    generalize hr : m c = r, hr' : m d = r' at hrun
    cases hrun with
    | ok hcd =>
      obtain ⟨hc', ha⟩ := hm.keeps.of_ok hc hr
      rw [bind_ok hr, bind_ok hr']
      exact (hk _ ha).run hc' hcd
    | error he hcd =>
      rw [bind_error hr, bind_error hr']
      exact .error he hcd

theorem pure {a : α} (h : φ a) : Ignores j (pure a) φ := ⟨.pure h, fun _ h => .ok h⟩

theorem throw (e : CheckError) : Ignores j (throw e) φ := ⟨.throw e, fun _ h => .error rfl h⟩

theorem read {q : Context → β} (hq : ∀ c d, c.Weakened j d → q d = q c) {k : β → CheckM α}
    (hk : ∀ b, Ignores j (k b) φ) : Ignores j (do k (q (← get))) φ where
  keeps := keeps_get.bind fun c _ => (hk (q c)).keeps
  run {c d} hc h := by
    change SameResult _ (k (q c) c) (k (q d) d)
    rw [hq c d h]
    exact (hk (q c)).run hc h

theorem withScope (label : String) (binders : List String) (hm : Ignores j m φ) :
    Ignores j (withScope label binders m) φ where
  keeps := hm.keeps.withScope label binders
  run {c d} hc h := by
    have hrun := hm.run (hc.openScope label binders) (h.openScope label binders)
    rw [withScope_run, withScope_run]
    generalize m (c.openScope label binders) = r, m (d.openScope label binders) = r' at hrun ⊢
    cases hrun with
    | ok hcd => exact .ok hcd.closeScope
    | error he hcd => exact .error he hcd.closeScope

theorem emit (phase message : String) : Ignores j (emit phase message) fun _ => True :=
  ⟨keeps_emit _ _, fun _ h => .ok (h.trace _ _)⟩

theorem enter (phase message : String) : Ignores j (enter phase message) fun _ => True :=
  ⟨keeps_enter _ _, fun _ h => .ok (h.trace _ _)⟩

theorem leave (phase message : String) : Ignores j (leave phase message) fun _ => True :=
  ⟨keeps_leave _ _, fun _ h => .ok (h.trace _ _)⟩

theorem newUnknown : Ignores j newUnknown (OpenTy.Aside j) where
  keeps := (OpenTy.Aside.hereditary j).keeps_newUnknown
  run {c d} _ h := by
    rw [newUnknown_run, newUnknown_run, h.counter]
    exact .ok { h with counter := rfl }

theorem ofExcept {c d : Context} (h : c.Weakened j d) (r : Except CheckError α) :
    SameResult (Weakened j) (ofExcept r c) (ofExcept r d) := by
  cases r with
  | ok a => exact .ok h
  | error e => exact .error rfl h

theorem resolve {t : OpenTy} (ht : t.Aside j) : Ignores j (resolve t) (OpenTy.Aside j) where
  keeps := (OpenTy.Aside.hereditary j).keeps_resolve ht
  run {c d} _ h := by
    rw [resolve_run, resolve_run, h.store]
    exact ofExcept h _

theorem resolveTy {t : Ty} (ht : t.embed.Aside j) : Ignores j (resolveTy t) (OpenTy.Aside j) where
  keeps := (OpenTy.Aside.hereditary j).keeps_resolveTy ht
  run {c d} _ h := by
    rw [resolveTy_run, resolveTy_run, h.store]
    exact ofExcept h _

theorem typeOf {e : Term} (he : e.same j.term = false) : Ignores j (typeOf e) (OpenTy.Aside j) where
  keeps := (OpenTy.Aside.hereditary j).keeps_typeOf e
  run {c d} _ h := by
    rw [typeOf_run, typeOf_run, h.judgment? he, h.store]
    cases c.judgment? e with
    | some i => exact ofExcept h _
    | none => exact .error (CheckError.diagnostic_unbound e _ _) h

theorem bindUnknown (x : String) {t : OpenTy} (ht : t.Aside j) : Ignores j (bindUnknown x t) fun _ => True where
  keeps := (OpenTy.Aside.hereditary j).keeps_bindUnknown x ht
  run {c d} _ h := by
    rw [bindUnknown_run, bindUnknown_run, h.store, h.options]
    cases c.store.binding x t with
    | error e => exact .error rfl h
    | ok b =>
      dsimp only
      cases c.store.insert c.options.strictOccurs b with
      | error e => exact .error rfl { h with options := rfl, store := rfl }
      | ok s => exact .ok { h with options := rfl, store := rfl }

theorem congruence (j : Judgment) : Congruence (fun e => e.same j.term = false) (fun _ => True)
    fun m _ => Ignores j m fun _ => True where
  mismatch _ _ := .throw _
  bindUnknown _ ht := .bindUnknown _ ht
  seq hm hk := hm.bind fun _ _ => hk
  typeOf he hk := (typeOf he).bind hk
  resolve ht hk := (resolve ht).bind hk
  differ {a b m _} hm := read (j := j) (q := fun c => a.same c.options.budget b) (k := fun same => unless same do m)
    (fun _ _ h => by rw [h.options]) fun same => by
      cases same with
      | true => exact .pure trivial
      | false => exact hm
  enter := .enter
  leave := .leave

theorem unifyWithin (n : Nat) {a b : OpenTy} (ha : a.Aside j) (hb : b.Aside j) :
    Ignores j (unifyWithin n a b) fun _ => True := by
  induction n generalizing a b with
  | zero => exact .throw _
  | succ n ih => exact (congruence j).unifyWithin_succ n n ih ha hb

theorem unify {a b : OpenTy} (ha : a.Aside j) (hb : b.Aside j) : Ignores j (unify a b) fun _ => True :=
  read (j := j) (q := fun c => c.options.depth) (fun _ _ h => by rw [h.options]) fun n => unifyWithin n ha hb

theorem declare {e : Term} {t : OpenTy} (he : e.same j.term = false) (ht : t.Aside j) :
    Ignores j (declare e t) fun _ => True where
  keeps := (OpenTy.Aside.hereditary j).keeps_declare e ht
  run {c d} hc h := by
    rw [declare_run, declare_run, h.store, h.judgment? he]
    cases hr : c.store.resolve t with
    | error err => exact .error rfl h
    | ok a =>
      dsimp only
      cases hj : c.judgment? e with
      | some i =>
        have ha := (OpenTy.Aside.hereditary j).resolve hc.store ht hr
        have hi := hc.judgments i (List.mem_of_find?_eq_some hj)
        exact (unify ha hi).run ⟨hc.store, hc.judgments, hc.scopes⟩ { h with store := rfl }
      | none => exact .ok { h with store := rfl, judgments := by simp [h.judgments] }

theorem walk (j : Judgment) : TypedWalk (fun e => e.same j.term = false) (OpenTy.Aside j) (Ignores j) where
  prim := (OpenTy.Aside.hereditary j).prim
  fn := (OpenTy.Aside.hereditary j).fn
  pure := .pure
  bind := .bind
  unsupported _ := .throw _
  emit := .emit
  enter := .enter
  leave := .leave
  newUnknown := .newUnknown
  resolveTy := .resolveTy
  typeOf := .typeOf
  bindUnknown := .bindUnknown
  unify := .unify
  declare := .declare
  ifBound {x m m'} hm hm' := read (j := j) (q := fun c => c.binds x) (k := fun bound => if bound then m else m')
    (fun _ _ h => h.binds x) fun bound => by
      cases bound with
      | true => exact hm
      | false => exact hm'
  withScope label binders _ _ hm := hm.withScope label binders

end Ignores

end CheckM

namespace Stmt

theorem names_subset_of_mem_judged {s : Stmt} {e : Term} (h : e ∈ s.judged) : e.names ⊆ s.termNames := by
  cases s with
  | define n t f | fix n t f =>
    rcases List.mem_cons.mp h with rfl | h
    · simp [Term.names, termNames]
    · exact List.subset_cons_of_subset n
        (List.subset_append_of_subset_right _ (Term.names_subset_of_mem_judged h))
  | assume n t =>
    cases List.mem_singleton.mp h
    simp [Term.names, termNames]
  | synonym | primitive | group => cases h

theorem names_subset_of_mem_keys {s : Stmt} {t : OpenTy} (ht : t ∈ s.opened) {e : Term} (h : e ∈ t.keys) :
    e.names ⊆ s.termNames := by
  cases s with
  | define n u f | fix n u f =>
    cases List.mem_singleton.mp ht
    exact List.subset_cons_of_subset n
      (List.subset_append_of_subset_left _ (Ty.names_subset_of_mem_keys (OpenTy.keys_embed u ▸ h)))
  | assume n u =>
    cases List.mem_singleton.mp ht
    exact List.subset_cons_of_subset n (Ty.names_subset_of_mem_keys (OpenTy.keys_embed u ▸ h))
  | synonym n u =>
    cases List.mem_singleton.mp ht
    exact Ty.names_subset_of_mem_keys (OpenTy.keys_embed u ▸ h)
  | primitive n =>
    cases List.mem_singleton.mp ht
    cases h
  | group => cases ht

end Stmt

theorem CheckM.Ignores.checkStmts {p : Program} {n : String} (t : OpenTy) (h : n ∉ p.termNames) :
    Ignores ⟨.var n none, t⟩ (checkStmts p) fun _ => True := by
  have haside {s : Stmt} (hs : s ∈ p) {e : Term} (he : e.names ⊆ s.termNames) : e.same (.var n none) = false :=
    Term.same_var_of_notMem fun hn => h (Program.termNames_subset_of_mem hs (he hn))
  refine (walk _).checkStmts (fun s hs e he => haside hs (Stmt.names_subset_of_mem_judged he)) fun s hs u hu => ?_
  exact OpenTy.over_iff.mpr ⟨fun e he => haside hs (Stmt.names_subset_of_mem_keys hu he), fun _ _ => trivial⟩

/-- An assumption about a name that the program does not mention, put in front of it, changes nothing: the same fault is
told, or the program is accepted as before, and in either case the assumption is one more judgment behind the others. -/
theorem check_assume_unused (options : Options) (trace : Trace) {p : Program} {n : String} (t : Ty)
    (h : n ∉ p.termNames) :
    let without := check options trace p
    let weakened := check options trace (.assume n t :: p)
    weakened.error?.map CheckError.diagnostic = without.error?.map CheckError.diagnostic ∧
      weakened.context.store = without.context.store ∧ weakened.context.counter = without.context.counter ∧
      weakened.context.judgments = without.context.judgments ++ [⟨.var n none, t.embed⟩] := by
  let c : Context := .new options (trace.enter "Begin Check" "Prgm ...")
  obtain ⟨tr, hassume⟩ := CheckM.checkStmt_assume (c := c) (n := n) rfl t rfl
  let d : Context := { c with trace := tr, judgments := [⟨.var n none, t.embed⟩] }
  have hweakened : c.Weakened ⟨.var n none, t.embed⟩ d := ⟨rfl, rfl, rfl, rfl, rfl⟩
  have hchecks : CheckM.Ignores ⟨.var n none, t.embed⟩ (do CheckM.checkStmts p; CheckM.leave "End Check" "Prgm ...")
      fun _ => True := (CheckM.Ignores.checkStmts t.embed h).bind fun _ _ => .leave _ _
  have hstmts : CheckM.checkStmts (.assume n t :: p) c = CheckM.checkStmts p d := CheckM.bind_ok hassume
  have hwithout : CheckM.checkAll p (.new options trace) =
      (do CheckM.checkStmts p; CheckM.leave "End Check" "Prgm ..." : CheckM Unit) c := rfl
  have hwith : CheckM.checkAll (.assume n t :: p) (.new options trace) =
      (do CheckM.checkStmts p; CheckM.leave "End Check" "Prgm ..." : CheckM Unit) d := CheckM.bind_congr hstmts _
  have hrun := hchecks.run (c := c) (.new options _) hweakened
  rw [← hwithout, ← hwith] at hrun
  simp only [check]
  generalize CheckM.checkAll p (.new options trace) = r, CheckM.checkAll (.assume n t :: p) (.new options trace) = r'
    at hrun ⊢
  cases hrun with
  | ok hcd => exact ⟨rfl, hcd.store, hcd.counter, hcd.judgments⟩
  | error he hcd => exact ⟨congrArg some he, hcd.store, hcd.counter, hcd.judgments⟩

theorem check_assume_unused_vector :
    let vec (e : Term) : Ty := .indexed (.name "Vec") e
    let p : Program := [.primitive "Vec", .assume "k" (.prim .nat),
      .assume "f" (.fn (vec (.var "k" none)) (.prim .nat)),
      .define "g" (.fn (vec (.var "k" none)) (.prim .nat)) (.lam "x" (.app (.var "f" none) (.var "x" none)))]
    "n" ∉ p.termNames ∧ (check {} (.new false) p).ok = true ∧
      (check {} (.new false) (.assume "n" (vec (.var "n" none)) :: p)).context.judgments =
        (check {} (.new false) p).context.judgments ++ [⟨.var "n" none, (vec (.var "n" none)).embed⟩] := by
  intro vec p
  have hn : "n" ∉ p.termNames := by decide
  exact ⟨hn, by decide +kernel, (check_assume_unused {} (.new false) (vec (.var "n" none)) hn).2.2.2⟩

end IndexedTyping
