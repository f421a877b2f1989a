import IndexedTyping.Proofs.Check.Judgments

namespace IndexedTyping

def Stmt.declared : Stmt → List String
  | .define n _ _ | .fix n _ _ | .assume n _ => [n]
  | .synonym .. | .primitive _ | .group .. => []

def Program.declared (p : Program) : List String := p.flatMap Stmt.declared

theorem Program.declared_append (p q : Program) : Program.declared (p ++ q) = p.declared ++ q.declared :=
  List.flatMap_append

def Stmt.ScopedIn (known : List String) : Stmt → Prop
  | .define _ _ e => ∀ x ∈ e.freeVars, x ∈ known
  | .fix n _ e => ∀ x ∈ e.freeVars, x ∈ known ∨ x = n
  | .assume .. | .synonym .. | .primitive _ | .group .. => True

namespace Term

theorem adjoin_var (xs : List String) (x : String) :
    adjoin (xs.map (var · none)) (var x none) =
      if x ∈ xs then xs.map (var · none) else var x none :: xs.map (var · none) := by
  simp [adjoin, same]

theorem foldl_adjoin_var (xs ys : List String) :
    (ys.map (var · none)).foldl adjoin (xs.eraseDups.reverse.map (var · none)) =
      (xs ++ ys).eraseDups.reverse.map (var · none) := by
  induction ys generalizing xs with
  | nil => simp
  | cons y ys ih =>
    have hstep : adjoin (xs.eraseDups.reverse.map (var · none)) (var y none) =
        (xs ++ [y]).eraseDups.reverse.map (var · none) := by
      rw [adjoin_var, List.eraseDups_append]
      by_cases hy : y ∈ xs <;> simp [hy, List.removeAll, List.eraseDups_cons]
    rw [List.map_cons, List.foldl_cons, hstep, ih, List.append_assoc]
    rfl

theorem mem_freeVars_of_mem_outer {e : Term} {x : String} {l : Option Location} (h : var x l ∈ e.outer) :
    x ∈ e.freeVars := by
  induction e with
  | var y k => simp_all [outer, freeVars]
  | lit v => simp [outer] at h
  | lam y b => simp [outer] at h
  | app f a ihf iha =>
    simp only [outer, List.mem_append, List.mem_singleton, reduceCtorEq, or_false] at h
    exact List.mem_append.mpr (h.imp ihf iha)
  | recur f y b => simp [outer] at h

end Term

namespace Context

variable {c d : Context} {x : String}

theorem mem_judgedNames : x ∈ c.judgedNames ↔ ∃ l, .var x l ∈ c.terms := by
  simp only [judgedNames, terms, List.mem_filterMap, List.mem_map]
  constructor
  · rintro ⟨⟨e, t⟩, hj, h⟩
    cases e <;> cases h
    exact ⟨_, _, hj, rfl⟩
  · rintro ⟨l, ⟨e, t⟩, hj, rfl⟩
    exact ⟨_, hj, rfl⟩

theorem mem_judgedNames_of_judgment? {l : Option Location} {j : Judgment} (h : c.judgment? (.var x l) = some j) :
    x ∈ c.judgedNames := by
  rw [judgment?] at h
  have hmem := List.mem_map_of_mem (f := Judgment.term) (List.mem_of_find?_eq_some h)
  have hsame := List.find?_some h
  obtain ⟨e, t⟩ := j
  cases e with
  | var y k =>
    cases beq_iff_eq.mp hsame
    exact mem_judgedNames.mpr ⟨k, hmem⟩
  | _ => cases hsame

def Knows (c : Context) (x : String) : Prop := c.binds x = true ∨ x ∈ c.judgedNames

theorem knows_openScope {label : String} {binders : List String} :
    (c.openScope label binders).Knows x ↔ x ∈ binders ∨ c.Knows x := by
  simp [Knows, binds, openScope, judgedNames, or_assoc]

theorem Knows.of_terms {es : List Term} (h : d.Knows x) (hscopes : d.scopes = c.scopes)
    (hterms : d.terms = es.foldl Term.adjoin c.terms) : c.Knows x ∨ ∃ l, .var x l ∈ es := by
  rcases h with hbinds | hjudged
  · rw [binds, hscopes] at hbinds
    exact .inl (.inl hbinds)
  · obtain ⟨l, hl⟩ := mem_judgedNames.mp hjudged
    rw [hterms] at hl
    rcases Term.mem_of_mem_foldl_adjoin hl with hl | hl
    · exact .inl (.inr (mem_judgedNames.mpr ⟨l, hl⟩))
    · exact .inr ⟨l, hl⟩

end Context

namespace CheckM

open Context

theorem knows_of_checkVar {x : String} {l : Option Location} {a : OpenTy} {c d : Context}
    (h : checkVar x l c = .ok a d) : c.Knows x := by
  obtain ⟨t, _, _, hm, -, -⟩ := judged_eq_ok h
  change (if c.binds x then (do declare (.var x l) (← newUnknown))
    else (do let _ ← typeOf (.var x l); declare (.var x l) (← newUnknown)) : CheckM Unit) _ = _ at hm
  split at hm
  · next hbinds => exact .inl hbinds
  · obtain ⟨_, _, htype, -⟩ := bind_eq_ok hm
    obtain ⟨-, j, hj, -⟩ := typeOf_eq_ok htype
    exact .inr (mem_judgedNames_of_judgment? hj)

theorem knows_of_withScope {α : Type} {m : CheckM α} {x : String}
    (hm : ∀ {a c d}, m c = .ok a d → c.Knows x) {label : String} {binders : List String} {a : α} {c d : Context}
    (h : withScope label binders m c = .ok a d) : x ∈ binders ∨ c.Knows x := by
  obtain ⟨_, hrun, -⟩ := withScope_eq_ok h
  exact knows_openScope.mp (hm hrun)

theorem knows_of_checkTerm {e : Term} {a : OpenTy} {c d : Context} (h : checkTerm e c = .ok a d) :
    ∀ x ∈ e.freeVars, c.Knows x := by
  induction e generalizing a c d with
  | var y l =>
    intro x hx
    cases List.mem_singleton.mp hx
    exact knows_of_checkVar h
  | lit v => exact fun x hx => absurd hx List.not_mem_nil
  | lam y b ih =>
    intro x hx
    simp only [Term.freeVars, List.mem_filter, bne_iff_ne] at hx
    obtain ⟨t, _, _, hm, -, -⟩ := judged_eq_ok h
    obtain ⟨_, _, hscope, -⟩ := bind_eq_ok hm
    refine (knows_of_withScope (fun hrun => ?_) hscope).resolve_left (by simpa using hx.2)
    obtain ⟨_, _, hbody, -⟩ := bind_eq_ok hrun
    exact ih hbody x hx.1
  | app f arg ihf iharg =>
    intro x hx
    obtain ⟨t, _, _, hm, -, -⟩ := judged_eq_ok h
    obtain ⟨_, d, hf, hrest⟩ := bind_eq_ok hm
    obtain ⟨_, _, harg, -⟩ := bind_eq_ok hrest
    have hfirst := ihf hf
    rcases List.mem_append.mp hx with hx | hx
    · exact hfirst x hx
    · -- names that `f` has made known are names of `f`, which were known already
      have hscopes := ((Later.law.obeys_checkTerm f).of_ok hf).scopes
      rcases (iharg harg x hx).of_terms hscopes ((adds_checkTerm f).of_ok hf) with hknows | ⟨l, hl⟩
      · exact hknows
      · exact hfirst x (Term.mem_freeVars_of_mem_outer hl)
  | recur f y b ih =>
    intro x hx
    simp only [Term.freeVars, List.mem_filter, Bool.and_eq_true, bne_iff_ne] at hx
    obtain ⟨t, _, _, hm, -, -⟩ := judged_eq_ok h
    obtain ⟨_, _, hscope, -⟩ := bind_eq_ok hm
    refine (knows_of_withScope (fun hrun => ?_) hscope).resolve_left (by simpa using hx.2)
    obtain ⟨_, _, hbody, -⟩ := bind_eq_ok hrun
    exact ih hbody x hx.1

theorem knows_of_body {label : String} {e : Term} {a : OpenTy} {c d : Context}
    (h : withScope label [] (checkTerm e) c = .ok a d) : ∀ x ∈ e.freeVars, c.Knows x :=
  fun x hx => (knows_of_withScope (fun hrun => knows_of_checkTerm hrun x hx) h).resolve_left List.not_mem_nil

theorem adds_body (label : String) (e : Term) : Adds [] (withScope label [] (checkTerm e)) :=
  .withScope (Later.law.obeys_checkTerm e) label []

theorem adds_checkStmt (s : Stmt) : Adds (s.declared.map (.var · none)) (checkStmt s) := by
  refine (adds_enter _ _).bind fun _ => Adds.andThen ?_ fun _ => adds_leave _ _
  cases s with
  | define n t e =>
    exact (adds_resolveTy t).bind fun _ => (adds_body _ e).bind fun _ => (adds_unify _ _).bind fun _ => adds_declare _ _
  | fix n t e =>
    exact (adds_resolveTy t).bind fun _ => (adds_declare _ _).bind fun _ => (adds_body _ e).bind fun _ => adds_unify _ _
  | assume n t => exact (adds_resolveTy t).bind fun _ => adds_declare _ _
  | synonym n t => exact (adds_resolveTy t).bind fun _ => adds_bindUnknown _ _
  | primitive n => exact (adds_emit _ _).bind fun _ => adds_bindUnknown _ _
  | group n l body => exact fun _ => trivial

theorem adds_checkStmts (p : Program) : Adds (p.declared.map (.var · none)) (checkStmts p) := by
  induction p with
  | nil => exact adds_pure ()
  | cons s p ih =>
    rw [Program.declared, List.flatMap_cons, List.map_append]
    exact (adds_checkStmt s).bind fun _ => ih

end CheckM

structure Program.Declares (p : Program) (c : Context) : Prop where
  scopes : c.scopes = []
  terms : c.terms = p.declared.eraseDups.reverse.map (.var · none)

namespace Program.Declares

open Context CheckM

variable {p q : Program} {c d : Context}

theorem new (options : Options) (trace : Trace) : Declares [] (.new options trace) := ⟨rfl, rfl⟩

theorem trace (h : p.Declares c) (t : Trace) : p.Declares { c with trace := t } := ⟨h.scopes, h.terms⟩

theorem checkStmts (hc : q.Declares c) (h : checkStmts p c = .ok () d) : Declares (q ++ p) d where
  scopes := ((Later.law.walk.checkStmts p).of_ok h).scopes.trans hc.scopes
  terms := by
    rw [(adds_checkStmts p).of_ok h, hc.terms, Term.foldl_adjoin_var, declared_append]

theorem mem_declared (hc : p.Declares c) {x : String} (h : c.Knows x) : x ∈ p.declared := by
  rcases h with hbinds | hjudged
  · rw [binds, hc.scopes] at hbinds
    cases hbinds
  · obtain ⟨l, hl⟩ := mem_judgedNames.mp hjudged
    rw [hc.terms] at hl
    obtain ⟨y, hy, heq⟩ := List.mem_map.mp hl
    cases heq
    exact List.mem_eraseDups.mp (List.mem_reverse.mp hy)

theorem resolveTy (hc : p.Declares c) {t : Ty} {a : OpenTy} (h : resolveTy t c = .ok a d) : p.Declares d where
  scopes := ((Later.law.obeys_resolveTy t).of_ok h).scopes.trans hc.scopes
  terms := ((adds_resolveTy t).of_ok h).trans hc.terms

theorem scopedIn (hc : p.Declares c) {s : Stmt} (h : checkStmt s c = .ok () d) : s.ScopedIn p.declared := by
  obtain ⟨_, _, henter, h⟩ := bind_eq_ok h
  cases henter
  obtain ⟨_, _, h, -⟩ := bind_eq_ok h
  cases s with
  | define n t e =>
    intro x hx
    obtain ⟨_, c₁, hresolve, hrest⟩ := bind_eq_ok h
    obtain ⟨_, _, hbody, -⟩ := bind_eq_ok hrest
    exact ((hc.trace _).resolveTy hresolve).mem_declared (knows_of_body hbody x hx)
  | fix n t e =>
    intro x hx
    obtain ⟨a, c₁, hresolve, hrest⟩ := bind_eq_ok h
    obtain ⟨_, c₂, hdeclare, hrest⟩ := bind_eq_ok hrest
    obtain ⟨_, _, hbody, -⟩ := bind_eq_ok hrest
    have hscopes := ((Later.law.obeys_declare (.var n none) a).of_ok hdeclare).scopes
    rcases (knows_of_body hbody x hx).of_terms hscopes ((adds_declare _ a).of_ok hdeclare) with hknows | ⟨l, hl⟩
    · exact .inl (((hc.trace _).resolveTy hresolve).mem_declared hknows)
    · cases List.mem_singleton.mp hl
      exact .inr rfl
  | assume | synonym | primitive | group => trivial

end Program.Declares

/-- An accepted program leaves judgments on the names it declares and on nothing else: one on each, the name that is
declared first at the end. No scope is left open. -/
theorem check_judges_declared {options : Options} {trace : Trace} {p : Program}
    (h : (check options trace p).ok = true) :
    (check options trace p).context.judgments.map (·.term) = p.declared.eraseDups.reverse.map (.var · none) ∧
      (check options trace p).context.scopes = [] := by
  obtain ⟨t, t', d, hrun, hcontext⟩ := exists_checkStmts_of_ok h
  have hd : p.Declares d := ((Program.Declares.new options trace).trace t).checkStmts hrun
  rw [hcontext]
  exact ⟨hd.terms, hd.scopes⟩

theorem check_judges_declared_again :
    let nat : Ty := .prim .nat
    let p : Program := [.assume "f" (.fn nat nat),
      .fix "g" (.fn nat nat) (.lam "x" (.app (.var "f" none) (.var "x" none))),
      .define "f" (.fn nat nat) (.var "g" none)]
    (check {} (.new false) p).ok = true ∧
      (check {} (.new false) p).context.judgments.map (·.term) = [.var "g" none, .var "f" none] := by
  intro nat p
  have hok : (check {} (.new false) p).ok = true := by decide +kernel
  exact ⟨hok, (check_judges_declared hok).1⟩

/-- Accepted programs are well scoped: a body mentions only names that are declared before it, and its own if it is
recursive. In any context, a term that checks mentions only names that an open scope binds or that are judged. -/
theorem check_scoped :
    (∀ options trace (p : Program), (check options trace p).ok = true → ∀ q s r, p = q ++ s :: r →
      s.ScopedIn (Program.declared q)) ∧
    ∀ c e a d, CheckM.checkTerm e c = .ok a d → ∀ x ∈ e.freeVars, c.binds x = true ∨ x ∈ c.judgedNames := by
  refine ⟨fun options trace p hok q s r hp => ?_, fun c e a d h => CheckM.knows_of_checkTerm h⟩
  obtain ⟨t, _, d, hrun, -⟩ := exists_checkStmts_of_ok hok
  rw [hp] at hrun
  obtain ⟨c, hbefore, hrest⟩ := CheckM.checkStmts_append_eq_ok hrun
  obtain ⟨_, _, hstmt, -⟩ := CheckM.bind_eq_ok hrest
  have hc : Program.Declares q c := ((Program.Declares.new options trace).trace t).checkStmts hbefore
  exact hc.scopedIn hstmt

theorem check_scoped_recursive :
    let nat : Ty := .prim .nat
    let s : Stmt :=
      .fix "g" (.fn nat nat) (.lam "x" (.app (.var "g" none) (.app (.var "f" none) (.var "x" none))))
    let p : Program := [.assume "f" (.fn nat nat), s]
    let c := (Context.new {} (.new false)).openScope "abstraction x" ["x"]
    let e : Term := .lam "y" (.app (.var "x" none) (.var "y" none))
    (check {} (.new false) p).ok = true ∧ s.ScopedIn ["f"] ∧
      ∃ a d, CheckM.checkTerm e c = .ok a d ∧ ∀ x ∈ e.freeVars, c.binds x = true ∨ x ∈ c.judgedNames := by
  intro nat s p c e
  have hok : (check {} (.new false) p).ok = true := by decide +kernel
  refine ⟨hok, check_scoped.1 _ _ p hok [.assume "f" (.fn nat nat)] s [] rfl, ?_⟩
  obtain ⟨a, d, hrun⟩ : ∃ a d, CheckM.checkTerm e c = .ok a d := CheckM.exists_ok_of_isSome (by decide +kernel)
  exact ⟨a, d, hrun, check_scoped.2 c e a d hrun⟩

end IndexedTyping
