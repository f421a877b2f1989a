import IndexedTyping.Proofs.Check.Depth
import IndexedTyping.Proofs.Check.Stratified
import IndexedTyping.Proofs.Reduction.Machine
import IndexedTyping.Proofs.Nameless.Comparison

namespace IndexedTyping

namespace CheckM

open Context OpenTy

variable {N S : List String} {α : Type}

theorem completes_enter (phase message : String) :
    Completes (Stratified N S) (enter phase message) fun _ d => d.Stratified N S :=
  .of_oblivious (fun _ _ => rfl) fun _ hc => hc.congr rfl rfl rfl

theorem completes_leave (phase message : String) :
    Completes (Stratified N S) (leave phase message) fun _ d => d.Stratified N S :=
  .of_oblivious (fun _ _ => rfl) fun _ hc => hc.congr rfl rfl rfl

theorem completes_emit (phase message : String) :
    Completes (Stratified N S) (emit phase message) fun _ d => d.Stratified N S :=
  .of_oblivious (fun _ _ => rfl) fun _ hc => hc.congr rfl rfl rfl

theorem completes_resolveTy {t : Ty} (ht : t.keys.all (·.isIndex N) = true) :
    Completes (Stratified N S) (resolveTy t) fun a d =>
      d.Stratified N S ∧ a.IndexedBy N ∧ (t.madeOf S = true → a.Plain) := by
  refine .of_oblivious (.resolveTy t) fun c hc => ?_
  rw [resolveTy_run, Store.resolveTy_eq_resolve]
  cases hr : c.store.resolve t.embed with
  | error e => exact proper_of_resolve hr
  | ok a =>
    have hkeys : t.Over fun e => e.isIndex N = true := Ty.over_iff.mpr (by simpa using ht)
    refine ⟨hc, hc.store.resolve (over_embed hkeys) hr, fun hmade => ?_⟩
    exact Store.plain_of_resolve ((over_embed_of_madeOf hmade).mono (fun _ => id) hc.grounds) hr

theorem completes_typeOf (e : Term) : Completes (Stratified N S) (typeOf e) fun a d =>
    (d.Stratified N S ∧ ∃ j, d.judgment? e = some j) ∧ a.IndexedBy N := by
  refine .of_oblivious (.typeOf e) fun c hc => ?_
  cases hr : typeOf e c with
  | error err d => exact proper_of_typeOf hr
  | ok a d =>
    obtain ⟨rfl, j, hj, ha⟩ := typeOf_eq_ok hr
    exact ⟨⟨hc, j, hj⟩, hc.store.resolve (hc.judgments j (List.mem_of_find?_eq_some hj)) ha⟩

theorem completes_bindUnknown {x : String} {t : OpenTy} (ht : t.IndexedBy N) :
    Completes (Stratified N S) (bindUnknown x t) fun _ d => d.Stratified N S ∧ (t.Plain → d.store.Grounds x) := by
  refine .of_oblivious (.bindUnknown x t) fun c hc => ?_
  cases hr : bindUnknown x t c with
  | error err d => exact proper_of_bindUnknown hr
  | ok _ d =>
    have hlater := Later.law.obeys_bindUnknown x t |>.of_ok hr
    obtain ⟨b, s, tr, hb, hs, rfl⟩ := bindUnknown_eq_ok hr
    refine ⟨hc.extend hlater (hc.store.insert trivial ht hb hs) rfl, fun hplain => ?_⟩
    obtain ⟨hname, hvalue⟩ := Store.binding_eq_ok hb
    obtain ⟨-, rfl⟩ := Store.insert_eq_ok hs
    rw [Store.resolve_eq_self (by simp [hplain.unknowns_eq])] at hvalue
    cases hvalue
    exact Store.grounds_of_resolveName hplain hname

theorem completes_unify {a b : OpenTy} (ha : a.IndexedBy N) (hb : b.IndexedBy N) :
    Completes (Stratified N S) (unify a b) fun _ d => d.Stratified N S := by
  intro c hc
  -- a limit that is exceeded leaves a context that is stratified as well, so there is no circle
  have hstrat : ∀ n, Ends (unifyWithin n a b c) (fun _ d => d.Stratified N S) fun _ d => d.Stratified N S := by
    intro n
    obtain ⟨U, hU, haU, hbU⟩ := exists_within hc.store hc.judgments ha hb
    have hbinds := bindsWithin_unifyWithin n haU hbU c hU
    have hlater := Later.law.obeys_unifyWithin n a b c
    cases hr : unifyWithin n a b c with
    | ok _ d =>
      rw [hr] at hbinds hlater
      exact hc.extend hlater (hbinds.within.store.mono (fun _ => id) fun _ _ => trivial) hbinds.judgments
    | error e d =>
      rw [hr] at hbinds hlater
      exact hc.extend hlater.1 (hbinds.within.store.mono (fun _ => id) fun _ _ => trivial) hbinds.judgments
  rcases settles_unifyWithin a b c with ⟨M, r, hr, hend⟩ | ⟨M, hcut⟩
  · beta_reduce at hr
    refine ⟨M, r, ?_, fun n hn => ?_⟩
    · have hM := hstrat M
      rw [hr M (Nat.le_refl M)] at hM
      cases r with
      | ok _ d => exact hM
      | error e d => exact hend
    · change unifyWithin n a b (c.withDepth n) = _
      rw [Oblivious.unifyWithin, hr n hn]
  · obtain ⟨l, r, d, hd, hcircle⟩ := hcut M (Nat.le_refl M)
    beta_reduce at hd
    have hM := hstrat M
    rw [hd] at hM
    exact absurd hcircle hM.not_circular

theorem completes_declare {e : Term} {t : OpenTy} (ht : t.IndexedBy N) :
    Completes (fun c => c.Stratified N S ∧ (e.isIndex N = true → t.Plain ∨ ∃ j, c.judgment? e = some j))
      (declare e t) fun _ d => d.Stratified N S := by
  rintro c ⟨hc, he⟩
  cases hr : c.store.resolve t with
  | error err =>
    refine ⟨0, .error err c, proper_of_resolve hr, fun n _ => ?_⟩
    simp only [declare_run, store_withDepth, hr]
    rfl
  | ok a =>
    have ha : a.IndexedBy N := hc.store.resolve ht hr
    let tr := c.trace.emit "Declare" (e.render ++ " : " ++ a.render)
    cases hj : c.judgment? e with
    | none =>
      have hplain : e.isIndex N = true → a.Plain := by
        intro hindex
        rcases he hindex with hp | ⟨j, hsome⟩
        · rw [Store.resolve_eq_self (by simp [hp.unknowns_eq])] at hr
          cases hr
          exact hp
        · rw [hj] at hsome
          cases hsome
      let d : Context := { c with trace := tr, judgments := ⟨e, a⟩ :: c.judgments }
      refine ⟨0, .ok () d, hc.judge ha hplain tr, fun n _ => ?_⟩
      simp only [declare_run, store_withDepth, judgment?_withDepth, hr, hj]
      rfl
    | some j =>
      have hjudgment := hc.judgments j (List.mem_of_find?_eq_some hj)
      obtain ⟨M, r, hend, hunify⟩ := completes_unify ha hjudgment { c with trace := tr } (hc.congr rfl rfl rfl)
      refine ⟨M, r, hend, fun n hn => ?_⟩
      simp only [declare_run, store_withDepth, judgment?_withDepth, hr, hj]
      exact hunify n hn

theorem completes_newUnknown {P : Context → Prop} (hP : ∀ c k tr, P c → P { c with counter := k, trace := tr }) :
    Completes P newUnknown fun a d => P d ∧ a.IndexedBy N :=
  .of_oblivious (fun _ _ => rfl) fun c hc => ⟨hP c _ _ hc, trivial⟩

theorem completes_withScope {φ : α → Prop} {E : Context → CheckError → Prop} {m : CheckM α} (label : String)
    {binders : List String} (hb : ∀ x ∈ binders, x ∉ N) (hlater : Obeys Later E m)
    (hm : Completes (Stratified N S) m fun a _ => φ a) :
    Completes (Stratified N S) (withScope label binders m) fun a d => d.Stratified N S ∧ φ a := by
  intro c hc
  obtain ⟨M, r, hend, hr⟩ := hm _ (hc.openScope label hb)
  have hopen : ∀ n, (c.withDepth n).openScope label binders = (c.openScope label binders).withDepth n := fun _ => rfl
  cases r with
  | ok a d =>
    have hscopes : d.scopes = (c.openScope label binders).scopes := by
      have h : Later ((c.openScope label binders).withDepth M) (d.withDepth M) := hlater.of_ok (hr M (Nat.le_refl M))
      exact h.scopes
    have hclosed : d.closeScope.Stratified N S := by
      refine hc.congr ?_ ?_ ?_ <;> rw [Context.closeScope, hscopes] <;> rfl
    refine ⟨M, .ok a d.closeScope, ⟨hclosed, hend⟩, fun n hn => ?_⟩
    rw [withScope_run, hopen, hr n hn]
    exact congrArg (EStateM.Result.ok a) (closeScope_withDepth n d)
  | error e d =>
    refine ⟨M, .error e d.closeScope, hend, fun n hn => ?_⟩
    rw [withScope_run, hopen, hr n hn]
    exact congrArg (EStateM.Result.error e) (closeScope_withDepth n d)

theorem completes_judged (e : Term) {m : CheckM Unit}
    (hm : Completes (Stratified N S) m fun _ d => d.Stratified N S) :
    Completes (Stratified N S) (judged e m) fun a d => d.Stratified N S ∧ a.IndexedBy N := by
  refine (completes_enter _ _).bind fun _ => hm.bind fun _ => (completes_typeOf e).andThen fun t ht => ?_
  refine ((completes_leave _ _).pre fun _ h => h.1).bind fun _ => ?_
  exact .of_oblivious (fun _ _ => rfl) fun _ hc => ⟨hc, ht⟩

theorem completes_checkVar (x : String) (l : Option Location) :
    Completes (Stratified N S) (checkVar x l) fun a d => d.Stratified N S ∧ a.IndexedBy N := by
  let Judged (c : Context) : Prop :=
    c.Stratified N S ∧ ((Term.var x l).isIndex N = true → ∃ j, c.judgment? (.var x l) = some j)
  have hdeclare : Completes Judged (do declare (.var x l) (← newUnknown)) fun _ d => d.Stratified N S := by
    refine (completes_newUnknown (N := N) fun c _ _ hc => ⟨hc.1.congr rfl rfl rfl, hc.2⟩).andThen fun a ha => ?_
    exact (completes_declare ha).pre fun c hc => ⟨hc.1, fun h => .inr (hc.2 h)⟩
  refine completes_judged _ (.get_bind (fun d => ?_) fun _ _ => rfl)
  dsimp only
  split
  · next hbinds =>
    -- what a scope binds is not a key
    refine hdeclare.pre ?_
    rintro c ⟨hc, rfl⟩
    refine ⟨hc, fun hindex => ?_⟩
    rw [hc.free x (List.contains_iff_mem.mp hindex)] at hbinds
    cases hbinds
  · refine Completes.pre ?_ fun c h => h.1
    exact (completes_typeOf _).andThen fun _ _ => hdeclare.pre fun c h => ⟨h.1, fun _ => h.2⟩

theorem completes_declare_of_not_isIndex {e : Term} {t : OpenTy} (ht : t.IndexedBy N) (he : e.isIndex N = false) :
    Completes (Stratified N S) (declare e t) fun _ d => d.Stratified N S :=
  (completes_declare ht).pre fun c hc => ⟨hc, fun h => by rw [he] at h; cases h⟩

theorem completes_checkTerm {e : Term} (he : ∀ x ∈ e.binders, x ∉ N) :
    Completes (Stratified N S) (checkTerm e) fun a d => d.Stratified N S ∧ a.IndexedBy N := by
  induction e with
  | var x l => exact completes_checkVar x l
  | lit v =>
    have hprim : (OpenTy.ground (.prim v.prim)).Plain := trivial
    have hdeclare := completes_declare (N := N) (S := S) (e := .lit v) (t := .ground (.prim v.prim)) trivial
    exact completes_judged _ (hdeclare.pre fun c hc => ⟨hc, fun _ => .inl hprim⟩)
  | lam x b ih =>
    rw [Term.binders, List.forall_mem_cons] at he
    have hbody : Completes (Stratified N S) (do let s ← checkTerm b; let t ← checkVar x none; return (t, s)) fun p _ =>
        p.1.IndexedBy N ∧ p.2.IndexedBy N :=
      (ih he.2).andThen fun s hs => (completes_checkVar x none).andThen fun t ht =>
        .of_oblivious (fun _ _ => rfl) fun _ _ => ⟨ht, hs⟩
    refine completes_judged _ ((completes_withScope _ ?_ (later_body x b) hbody).andThen fun p hp => ?_)
    · simpa using he.1
    · exact completes_declare_of_not_isIndex hp rfl
  | app f a ihf iha =>
    simp only [Term.binders, List.forall_mem_append] at he
    refine completes_judged _ ((ihf he.1).andThen fun t ht => (iha he.2).andThen fun s hs => ?_)
    refine (completes_newUnknown (N := N) fun _ _ _ hc => hc.congr rfl rfl rfl).andThen fun r hr => ?_
    have hfn : (OpenTy.fn s r).IndexedBy N := ⟨hs, hr⟩
    exact (completes_unify ht hfn).bind fun _ => completes_declare_of_not_isIndex hr rfl
  | recur f x b ih =>
    rw [Term.binders, List.forall_mem_cons, List.forall_mem_cons] at he
    have hbody : Completes (Stratified N S)
        (do let s ← checkTerm b; let t ← checkVar x none; let r ← checkVar f none; return (t, s, r)) fun p _ =>
        p.1.IndexedBy N ∧ p.2.1.IndexedBy N ∧ p.2.2.IndexedBy N :=
      (ih he.2.2).andThen fun s hs => (completes_checkVar x none).andThen fun t ht =>
        (completes_checkVar f none).andThen fun r hr => .of_oblivious (fun _ _ => rfl) fun _ _ => ⟨ht, hs, hr⟩
    refine completes_judged _ ((completes_withScope _ ?_ (later_recBody f x b) hbody).andThen fun p hp => ?_)
    · simpa using ⟨he.1, he.2.1⟩
    · have hfn : (OpenTy.fn p.1 p.2.1).IndexedBy N := ⟨hp.1, hp.2.1⟩
      exact (completes_unify hp.2.1 hp.2.2).bind fun _ => completes_declare_of_not_isIndex hfn rfl

theorem completes_declare_name {n : String} {t : OpenTy} (ht : t.IndexedBy N) (hn : N.contains n = true → t.Plain) :
    Completes (Stratified N S) (declare (.var n none) t) fun _ d => d.Stratified N S :=
  (completes_declare ht).pre fun _ hc => ⟨hc, fun h => .inl (hn h)⟩

theorem completes_body {e : Term} (he : e.binders.all (!N.contains ·) = true) (label : String) :
    Completes (Stratified N S) (withScope label [] (checkTerm e)) fun a d => d.Stratified N S ∧ a.IndexedBy N := by
  refine completes_withScope label (by simp) (Later.law.obeys_checkTerm e) ?_
  exact (completes_checkTerm (by simpa using he)).post fun _ _ h => h.2

theorem completes_checkStmtBody {s : Stmt} (hs : s.stratified N S = true) :
    Completes (Stratified N S) (checkStmtBody s) fun _ d => d.Stratified N (s.made S) := by
  have ofName : ∀ {n : String} {t : Ty} {a : OpenTy}, (!N.contains n || t.madeOf S) = true →
      (t.madeOf S = true → a.Plain) → N.contains n = true → a.Plain := by
    intro n t a h hplain hn
    rw [hn] at h
    exact hplain h
  cases s with
  | define n t e =>
    simp only [Stmt.stratified, Bool.and_eq_true] at hs
    refine (completes_resolveTy hs.1.1).andThen fun a ha => (completes_body hs.2 _).andThen fun b hb => ?_
    exact (completes_unify ha.1 hb).bind fun _ => completes_declare_name ha.1 (ofName hs.1.2 ha.2)
  | fix n t e =>
    simp only [Stmt.stratified, Bool.and_eq_true] at hs
    refine (completes_resolveTy hs.1.1).andThen fun a ha => ?_
    refine (completes_declare_name ha.1 (ofName hs.1.2 ha.2)).bind fun _ => ?_
    exact (completes_body hs.2 _).andThen fun b hb => completes_unify ha.1 hb
  | assume n t =>
    simp only [Stmt.stratified, Bool.and_eq_true] at hs
    exact (completes_resolveTy hs.1).andThen fun a ha => completes_declare_name ha.1 (ofName hs.2 ha.2)
  | synonym n t =>
    refine (completes_resolveTy hs).andThen fun a ha => (completes_bindUnknown ha.1).post fun _ d hd => ?_
    rw [Stmt.made]
    split
    · next hmade => exact hd.1.ground (hd.2 (ha.2 hmade))
    · exact hd.1
  | primitive n =>
    have hplain : (OpenTy.ground (.name n)).Plain := trivial
    have hname : (OpenTy.ground (.name n)).IndexedBy N := trivial
    refine (completes_emit _ _).bind fun _ => (completes_bindUnknown (x := n) hname).post fun _ d hd => ?_
    exact hd.1.ground (hd.2 hplain)
  | group n l body =>
    refine .of_oblivious (fun _ _ => rfl) fun c _ => ?_
    change CheckError.Proper _
    simp [CheckError.Proper, CheckError.fault]

theorem completes_checkStmts {p : Program} (hp : Program.stratified N S p = true) :
    Completes (Stratified N S) (checkStmts p) fun _ _ => True := by
  induction p generalizing S with
  | nil => exact .of_oblivious (fun _ _ => rfl) fun _ _ => trivial
  | cons s p ih =>
    rw [Program.stratified, Bool.and_eq_true] at hp
    refine Completes.bind ?_ fun _ => ih hp.2
    exact (completes_enter _ _).bind fun _ => (completes_checkStmtBody hp.1).bind fun _ => completes_leave _ _

theorem completes_checkAll {p : Program} (hp : Program.stratified N S p = true) :
    Completes (Stratified N S) (checkAll p) fun _ _ => True := by
  refine (completes_enter _ _).bind fun _ => (completes_checkStmts hp).bind fun _ => ?_
  exact .of_oblivious (fun _ _ => rfl) fun _ _ => trivial

end CheckM

/-- Unification ends in every context, unless it comes to judgments that lead round in a circle. Checking ends for every
program that is stratified, whatever the options: from some depth on the outcome is the same, and an error is about the
program. -/
theorem check_ends_unless_circular (options : Options) (trace : Trace) (p : Program) (a b : OpenTy) (c : Context) :
    ((∃ N r, CheckM.Ends r (fun _ _ => True) (fun e _ => e.Proper) ∧ ∀ n ≥ N, CheckM.unifyWithin n a b c = r) ∨
      ∃ N, ∀ n ≥ N, ∃ l r d, CheckM.unifyWithin n a b c = .error (.tooDeep l r) d ∧ d.Circular) ∧
    ∀ names, Program.stratified names [] p = true → ∃ (N : Nat) (o : Outcome), (∀ e, o.error? = some e → e.Proper) ∧
      ∀ n ≥ N, check { options with depth := n } trace p = { o with context := o.context.withDepth n } := by
  refine ⟨?_, fun names hp => ?_⟩
  · rcases CheckM.settles_unifyWithin a b c with ⟨N, r, hr, hend⟩ | h
    · exact .inl ⟨N, r, hend, hr⟩
    · exact .inr h
  · obtain ⟨N, r, hend, hr⟩ := CheckM.completes_checkAll hp (.new options trace) (.new names options trace)
    cases r with
    | ok _ d =>
      refine ⟨N, ⟨none, d⟩, by simp, fun n hn => ?_⟩
      have hrun : CheckM.checkAll p (.new { options with depth := n } trace) = .ok () (d.withDepth n) := hr n hn
      rw [check, hrun]
    | error e d =>
      refine ⟨N, ⟨some e, { d with trace := d.trace.unwind }⟩, ?_, fun n hn => ?_⟩
      · rintro _ ⟨⟩
        exact hend
      · have hrun : CheckM.checkAll p (.new { options with depth := n } trace) = .error e (d.withDepth n) := hr n hn
        rw [check, hrun]
        rfl

def Ty.vec (x : String) : Ty := .indexed (.name "Vec") (.var x none)

def Program.vectors : Program :=
  [.primitive "Nat", .primitive "Vec", .assume "k" (.name "Nat"), .assume "j" (.name "Nat"), .assume "v" (.vec "k"),
    .define "w" (.vec "j") (.var "v" none)]

theorem check_vectors_ends : Program.stratified ["k", "j"] [] Program.vectors = true ∧
    ∃ (N : Nat) (o : Outcome), (∀ e, o.error? = some e → e.Proper) ∧
      ∀ n ≥ N, check { depth := n } (.new false) Program.vectors = { o with context := o.context.withDepth n } := by
  have hp : Program.stratified ["k", "j"] [] Program.vectors = true := by decide
  exact ⟨hp, (check_ends_unless_circular {} (.new false) Program.vectors (.unknown "a") (.unknown "b")
    (.new {} (.new false))).2 ["k", "j"] hp⟩

namespace CheckM

theorem vec_differ {x y : String} (h : x ≠ y) (budget : Nat) :
    (Ty.vec x).embed.same budget (Ty.vec y).embed = false := by
  have hnormal : ∀ z, ((Term.var z none).normalize budget).term = .var z none := fun z =>
    Term.term_normalize_of_normal (e := .var z none) trivial budget
  simp [Ty.vec, Ty.embed, OpenTy.same, Term.sameIndex, Term.convertible, hnormal, Term.same, Term.alphaEq_eq_alphaEqIn,
    Term.alphaEqIn, Term.sameReference, h]

theorem typeOf_embed {c : Context} (hs : c.store = []) {e f : Term} {t : Ty} (h : c.judgment? e = some ⟨f, t.embed⟩) :
    typeOf e c = .ok t.embed c := by
  rw [typeOf_run, h]
  exact resolve_embed hs t

theorem unifyWithin_vec_head {c : Context} (hs : c.store = []) (n : Nat) :
    unifyWithin (n + 1) (.unknown "Vec") (.unknown "Vec") c = .ok () c := by
  have hname : resolve (.unknown "Vec") c = .ok (.unknown "Vec") c := resolve_embed hs (.name "Vec")
  rw [unifyWithin, bind_ok hname, bind_ok hname]
  simp only [OpenTy.same, beq_self_eq_true, if_true]
  rfl

theorem unifyWithin_vec {x y : String} (hxy : x ≠ y) {e f : Term} {c : Context} (hs : c.store = [])
    (hx : c.judgment? (.var x none) = some ⟨e, (Ty.vec x).embed⟩)
    (hy : c.judgment? (.var y none) = some ⟨f, (Ty.vec y).embed⟩) (n : Nat) :
    ∃ l r d, unifyWithin n (Ty.vec x).embed (Ty.vec y).embed c = .error (.tooDeep l r) d := by
  induction n generalizing c with
  | zero => exact ⟨_, _, _, rfl⟩
  | succ n ih =>
    let message := (Ty.vec x).embed.render ++ " <~> " ++ (Ty.vec y).embed.render
    let d : Context := { c with trace := c.trace.enter "Begin Unify" message }
    have hstep : unifyWithin (n + 1) (Ty.vec x).embed (Ty.vec y).embed c =
        (do unifyStep (unifyWithin n) (Ty.vec x).embed (Ty.vec y).embed; leave "End Unify" message) d := by
      rw [unifyWithin, bind_ok (resolve_embed hs _), bind_ok (resolve_embed hs _)]
      change (if (Ty.vec x).embed.same c.options.budget (Ty.vec y).embed then pure () else _ : CheckM Unit) c = _
      rw [vec_differ hxy]
      rfl
    have hfail : ∃ l r d', unifyStep (unifyWithin n) (Ty.vec x).embed (Ty.vec y).embed d =
        .error (.tooDeep l r) d' := by
      cases n with
      | zero => exact ⟨_, _, _, rfl⟩
      | succ n =>
        obtain ⟨l, r, d', h⟩ := ih (c := d) hs hx hy
        refine ⟨l, r, d', ?_⟩
        change (do unifyWithin (n + 1) (.unknown "Vec") (.unknown "Vec"); let p ← typeOf (.var x none)
                   let q ← typeOf (.var y none); unifyWithin (n + 1) p q : CheckM Unit) d = _
        rw [bind_ok (unifyWithin_vec_head (c := d) hs n), bind_ok (typeOf_embed (c := d) hs hx),
          bind_ok (typeOf_embed (c := d) hs hy), h]
    obtain ⟨l, r, d', h⟩ := hfail
    exact ⟨l, r, d', hstep.trans (bind_error h)⟩

theorem checkStmt_assume_tooDeep {c : Context} (hs : c.store = []) {n : String} {t : Ty} {j : Judgment}
    (hj : c.judgment? (.var n none) = some j)
    (h : ∀ tr, ∃ l r d, unify t.embed j.type { c with trace := tr } = .error (.tooDeep l r) d) :
    ∃ l r d, checkStmt (.assume n t) c = .error (.tooDeep l r) d := by
  obtain ⟨tr, hrun⟩ := checkStmt_assume_run hs n t
  have hdeclare := declare_run (.var n none) t.embed { c with trace := tr }
  have hsome : Context.judgment? { c with trace := tr } (.var n none) = some j := hj
  simp only [resolve_embed_eq hs, hsome] at hdeclare
  obtain ⟨l, r, d, herror⟩ := h _
  exact ⟨l, r, d, hrun.trans (bind_error (hdeclare.trans herror))⟩

end CheckM

/-- Two names that are assumed to have types about themselves, and one more assumption that makes the types meet. -/
def Program.circle : Program := [.assume "n" (.vec "n"), .assume "m" (.vec "m"), .assume "n" (.vec "m")]

open CheckM in
theorem check_circle_never_ends : (check {} (.new false) (Program.circle.take 2)).ok = true ∧
    ∀ (options : Options) (trace : Trace), ∃ a b,
      (check options trace Program.circle).error? = some (.tooDeep a b) := by
  refine ⟨by decide +kernel, fun options trace => ?_⟩
  let c : Context := { Context.new options trace with trace := trace.enter "Begin Check" "Prgm ..." }
  obtain ⟨tr, hfirst⟩ := checkStmt_assume (c := c) (n := "n") rfl (.vec "n") rfl
  let d : Context := { c with trace := tr, judgments := [⟨.var "n" none, (Ty.vec "n").embed⟩] }
  obtain ⟨tr', hsecond⟩ := checkStmt_assume (c := d) (n := "m") rfl (.vec "m") rfl
  let e : Context := { d with trace := tr', judgments := ⟨.var "m" none, (Ty.vec "m").embed⟩ :: d.judgments }
  obtain ⟨a, b, f, hthird⟩ := checkStmt_assume_tooDeep (c := e) (n := "n") (t := .vec "m") rfl rfl fun tr'' =>
    unifyWithin_vec (c := { e with trace := tr'' }) (by decide) rfl rfl rfl options.depth
  have hstmts : checkStmts Program.circle c = .error (.tooDeep a b) f :=
    (bind_ok hfirst).trans ((bind_ok hsecond).trans (bind_error hthird))
  have hall : checkAll Program.circle (.new options trace) =
      (do checkStmts Program.circle; leave "End Check" "Prgm ..." : CheckM Unit) c := rfl
  exact ⟨a, b, by rw [check, hall, bind_error hstmts]⟩

end IndexedTyping
