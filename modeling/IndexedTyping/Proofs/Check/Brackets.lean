import IndexedTyping.Proofs.Check.Later

namespace IndexedTyping

inductive Phase
  | check
  | unify
  | scope
  deriving DecidableEq

namespace Phase

def opening : Phase → String
  | check => "Begin Check"
  | unify => "Begin Unify"
  | scope => "Open Scope"

def closing : Phase → String
  | check => "End Check"
  | unify => "End Unify"
  | scope => "Close Scope"

def singles : List String := ["FreeName", "Rewrite", "Primitive", "Declare"]

theorem notMem_singles (k : Phase) : k.opening ∉ singles ∧ k.closing ∉ singles := by
  cases k <;> decide

theorem opening_ne_closing (k l : Phase) : k.opening ≠ l.closing := by
  cases k <;> cases l <;> decide

end Phase

namespace Event

def Opens (e : Event) : Prop := ∃ k : Phase, e.phase = k.opening

def Closes (e : Event) : Prop := ∃ k : Phase, e.phase = k.closing

/-- The end of a check may tell more than its beginning, namely the type that was found. -/
def EndedBy (e f : Event) : Prop :=
  ∃ k : Phase, e.phase = k.opening ∧ f.phase = k.closing ∧ f.depth = e.depth ∧ (k ≠ .check → f.message = e.message)

theorem EndedBy.opens {e f : Event} (h : e.EndedBy f) : e.Opens := h.imp fun _ hk => hk.1

theorem EndedBy.closes {e f : Event} (h : e.EndedBy f) : f.Closes := h.imp fun _ hk => hk.2.1

theorem Opens.not_closes {e : Event} (h : e.Opens) : ¬e.Closes := by
  rintro ⟨l, hl⟩
  obtain ⟨k, hk⟩ := h
  exact k.opening_ne_closing l (hk.symm.trans hl)

end Event

/-- Each event that opens a phase has its end behind it and each that closes one has its beginning before it, with
nothing in between but deeper events. -/
structure WellBracketed (es : List Event) : Prop where
  opened : ∀ {before e after}, es = before ++ e :: after → e.Opens →
    ∃ inside f rest, after = inside ++ f :: rest ∧ e.EndedBy f ∧ ∀ g ∈ inside, e.depth < g.depth
  closed : ∀ {before f after}, es = before ++ f :: after → f.Closes →
    ∃ rest e inside, before = rest ++ e :: inside ∧ e.EndedBy f ∧ ∀ g ∈ inside, e.depth < g.depth

inductive Bracketed : Nat → List Event → Prop
  | nil : Bracketed d []
  | single : e.depth = d → ¬e.Opens → ¬e.Closes → Bracketed d [e]
  | append : Bracketed d es → Bracketed d fs → Bracketed d (es ++ fs)
  | phase : e.depth = d → e.EndedBy f → Bracketed (d + 1) es → Bracketed d (e :: (es ++ [f]))

namespace Bracketed

theorem le_depth {d : Nat} {es : List Event} (h : Bracketed d es) : ∀ e ∈ es, d ≤ e.depth := by
  induction h with
  | nil => simp
  | single hd => simp [hd]
  | append _ _ ih ih' => exact fun e he => (List.mem_append.mp he).elim (ih e) (ih' e)
  | phase hd hf _ ih =>
    obtain ⟨k, -, -, hdepth, -⟩ := hf
    simp only [List.mem_cons, List.mem_append, List.not_mem_nil, or_false]
    rintro g (rfl | hg | rfl)
    · exact Nat.le_of_eq hd.symm
    · exact Nat.le_of_succ_le (ih g hg)
    · exact Nat.le_of_eq (hdepth.trans hd).symm

end Bracketed

namespace WellBracketed

variable {es fs : List Event} {e f : Event}

theorem append (hes : WellBracketed es) (hfs : WellBracketed fs) : WellBracketed (es ++ fs) where
  opened {before e after} h he := by
    rcases List.append_eq_append_iff.mp h with ⟨mid, rfl, hmid⟩ | ⟨mid, hmid, hafter⟩
    · exact hfs.opened hmid he
    · rcases List.cons_eq_append_iff.mp hafter with ⟨rfl, hfs'⟩ | ⟨mid, rfl, rfl⟩
      · have hfirst : fs = [] ++ e :: after := hfs'
        exact hfs.opened hfirst he
      · obtain ⟨inside, f, rest, rfl, hf⟩ := hes.opened hmid he
        exact ⟨inside, f, rest ++ fs, by simp, hf⟩
  closed {before f after} h hf := by
    rcases List.append_eq_append_iff.mp h with ⟨mid, rfl, hmid⟩ | ⟨mid, hmid, hafter⟩
    · obtain ⟨rest, e, inside, rfl, he⟩ := hfs.closed hmid hf
      exact ⟨es ++ rest, e, inside, by simp, he⟩
    · rcases List.cons_eq_append_iff.mp hafter with ⟨rfl, hfs'⟩ | ⟨mid, rfl, rfl⟩
      · have hfirst : fs = [] ++ f :: after := hfs'
        obtain ⟨rest, e, inside, heq, -⟩ := hfs.closed hfirst hf
        simp at heq
      · exact hes.closed hmid hf

theorem eq_of_phase {g : Event} {before after : List Event} (h : e :: (es ++ [f]) = before ++ g :: after) :
    before = [] ∧ g = e ∧ after = es ++ [f] ∨
      (∃ before' after', before = e :: before' ∧ after = after' ++ [f] ∧ es = before' ++ g :: after') ∨
      before = e :: es ∧ g = f ∧ after = [] := by
  rcases List.cons_eq_append_iff.mp h with ⟨rfl, hg⟩ | ⟨before, rfl, hes⟩
  · cases hg
    exact .inl ⟨rfl, rfl, rfl⟩
  · rcases List.append_eq_append_iff.mp hes with ⟨mid, rfl, hmid⟩ | ⟨mid, rfl, hmid⟩
    · cases mid with
      | nil =>
        cases hmid
        exact .inr (.inr ⟨by simp, rfl, rfl⟩)
      | cons x mid => simp at hmid
    · rcases List.cons_eq_append_iff.mp hmid with ⟨rfl, hf⟩ | ⟨after, rfl, rfl⟩
      · cases hf
        exact .inr (.inr ⟨by simp, rfl, rfl⟩)
      · exact .inr (.inl ⟨before, after, rfl, rfl, rfl⟩)

theorem phase (hef : e.EndedBy f) (hes : WellBracketed es) (hdeep : ∀ g ∈ es, e.depth < g.depth) :
    WellBracketed (e :: (es ++ [f])) where
  opened h hg := by
    rcases eq_of_phase h with ⟨rfl, rfl, rfl⟩ | ⟨before, after, rfl, rfl, heq⟩ | ⟨rfl, rfl, rfl⟩
    · exact ⟨es, f, [], rfl, hef, hdeep⟩
    · obtain ⟨inside, f', rest, rfl, hf'⟩ := hes.opened heq hg
      exact ⟨inside, f', rest ++ [f], by simp, hf'⟩
    · exact absurd hef.closes hg.not_closes
  closed h hg := by
    rcases eq_of_phase h with ⟨rfl, rfl, rfl⟩ | ⟨before, after, rfl, rfl, heq⟩ | ⟨rfl, rfl, rfl⟩
    · exact absurd hg hef.opens.not_closes
    · obtain ⟨rest, e', inside, rfl, he'⟩ := hes.closed heq hg
      exact ⟨e :: rest, e', inside, rfl, he'⟩
    · exact ⟨[], e, es, rfl, hef, hdeep⟩

theorem single (hopens : ¬e.Opens) (hcloses : ¬e.Closes) : WellBracketed [e] := by
  have hmem : ∀ {before g after}, [e] = before ++ g :: after → g = e := fun h =>
    List.mem_singleton.mp (h ▸ List.mem_append_right _ List.mem_cons_self)
  exact ⟨fun h hg => absurd (hmem h ▸ hg) hopens, fun h hg => absurd (hmem h ▸ hg) hcloses⟩

end WellBracketed

theorem Bracketed.wellBracketed {d : Nat} {es : List Event} (h : Bracketed d es) : WellBracketed es := by
  induction h with
  | nil => exact ⟨by simp, by simp⟩
  | single _ hopens hcloses => exact .single hopens hcloses
  | append _ _ ih ih' => exact ih.append ih'
  | phase hd hef hes ih =>
    exact .phase hef ih fun g hg => Nat.lt_of_lt_of_le (hd ▸ Nat.lt_succ_self _) (hes.le_depth g hg)

namespace Trace

def Records (t : Trace) : Prop := t.enabled = true ∧ t.discards = false

def extend (t : Trace) (es : List Event) : Trace := { t with events := t.events ++ es.toArray }

def Returns (t u : Trace) : Prop := ∃ es, Bracketed t.depth es ∧ u = t.extend es

variable {t u v : Trace}

theorem Records.emit (h : t.Records) (phase message : String) :
    t.emit phase message = t.extend [⟨phase, message, t.depth⟩] := by
  simp [Trace.emit, extend, h.1, h.2]

theorem Records.enter (h : t.Records) (phase message : String) : (t.enter phase message).Records := by
  rw [Trace.enter, h.emit]
  exact h

namespace Returns

theorem refl (t : Trace) : t.Returns t := ⟨[], .nil, by simp [extend]⟩

theorem records (h : t.Returns u) (ht : t.Records) : u.Records := by
  obtain ⟨es, -, rfl⟩ := h
  exact ht

theorem trans (htu : t.Returns u) (huv : u.Returns v) : t.Returns v := by
  obtain ⟨es, hes, rfl⟩ := htu
  obtain ⟨fs, hfs, rfl⟩ := huv
  exact ⟨es ++ fs, hes.append hfs, by simp [extend]⟩

theorem emit (ht : t.Records) {phase message : String} (h : phase ∈ Phase.singles) :
    t.Returns (t.emit phase message) := by
  refine ⟨_, .single rfl ?_ ?_, ht.emit _ _⟩
  · rintro ⟨k, hk⟩
    exact (k.notMem_singles).1 (hk ▸ h)
  · rintro ⟨k, hk⟩
    exact (k.notMem_singles).2 (hk ▸ h)

theorem phase (ht : t.Records) (k : Phase) {message message' : String} (h : (t.enter k.opening message).Returns u)
    (hmessage : k ≠ .check → message' = message) : t.Returns (u.leave k.closing message') := by
  obtain ⟨es, hes, rfl⟩ := h
  let e : Event := ⟨k.opening, message, t.depth⟩
  let f : Event := ⟨k.closing, message', t.depth⟩
  have henter : t.enter k.opening message = { t.extend [e] with depth := t.depth + 1 } := by
    rw [enter, ht.emit]
    rfl
  rw [henter] at hes ⊢
  refine ⟨e :: (es ++ [f]), .phase rfl ⟨k, rfl, rfl, rfl, hmessage⟩ hes, ?_⟩
  have hrecords : Records { t.extend (e :: es) with depth := t.depth } := ht
  have hleave := hrecords.emit k.closing message'
  simpa [leave, extend, e, f] using hleave

end Returns

end Trace

namespace CheckM

open Context

variable {α β : Type}

structure Brackets (m : CheckM α) : Prop where
  later : Obeys Later (fun _ _ => True) m
  run {c d : Context} {a : α} : c.trace.Records → m c = .ok a d → c.trace.Returns d.trace

namespace Brackets

variable {m : CheckM α}

theorem bind {k : α → CheckM β} (hm : Brackets m) (hk : ∀ a, Brackets (k a)) : Brackets (m >>= k) where
  later := Later.law.obeys_bind hm.later fun a => (hk a).later
  run hc h := by
    obtain ⟨a, e, hfirst, hrest⟩ := bind_eq_ok h
    have hce := hm.run hc hfirst
    exact hce.trans ((hk a).run (hce.records hc) hrest)

theorem pure (a : α) : Brackets (pure a) where
  later := Later.law.obeys_pure a
  run _ h := by
    cases h
    exact .refl _

theorem throw {e : CheckError} (he : e.Plain) : Brackets (throw e : CheckM α) where
  later := Later.law.obeys_throw he
  run _ h := by cases h

theorem get : Brackets (get : CheckM Context) where
  later := Later.law.obeys_get
  run _ h := by
    cases h
    exact .refl _

theorem emit {phase message : String} (h : phase ∈ Phase.singles) : Brackets (emit phase message) where
  later := Later.law.obeys_emit _ _
  run hc hrun := by
    cases hrun
    exact .emit hc h

theorem resolve (t : OpenTy) : Brackets (resolve t) where
  later := Later.law.obeys_resolve t
  run _ h := by
    cases (resolve_eq_ok h).1
    exact .refl _

theorem resolveTy (t : Ty) : Brackets (resolveTy t) where
  later := Later.law.obeys_resolveTy t
  run {c d a} _ h := by
    rw [resolveTy_run, Store.resolveTy_eq_resolve] at h
    cases (resolve_eq_ok h).1
    exact .refl _

theorem typeOf (e : Term) : Brackets (typeOf e) where
  later := Later.law.obeys_typeOf e
  run _ h := by
    cases (typeOf_eq_ok h).1
    exact .refl _

theorem newUnknown : Brackets newUnknown where
  later := Later.law.obeys_newUnknown
  run hc h := by
    cases h
    exact .emit hc (by decide)

theorem bindUnknown (x : String) (t : OpenTy) : Brackets (bindUnknown x t) where
  later := Later.law.obeys_bindUnknown x t
  run {c d a} hc h := by
    rw [bindUnknown_run] at h
    cases hb : c.store.binding x t with
    | error e =>
      rw [hb] at h
      cases h
    | ok b =>
      simp only [hb] at h
      cases hs : c.store.insert c.options.strictOccurs b with
      | error e =>
        rw [hs] at h
        cases h
      | ok s =>
        rw [hs] at h
        cases h
        exact .emit hc (by decide)

theorem phase (k : Phase) (message : String) {m : CheckM Unit} (hm : Brackets m) :
    Brackets (do enter k.opening message; m; leave k.closing message) where
  later := Later.law.obeys_bind (Later.law.obeys_enter _ _) fun _ => Later.law.obeys_bind hm.later fun _ =>
    Later.law.obeys_leave _ _
  run hc h := by
    obtain ⟨_, _, henter, hrest⟩ := bind_eq_ok h
    cases henter
    obtain ⟨_, d, hbody, hleave⟩ := bind_eq_ok hrest
    cases hleave
    exact .phase hc k (hm.run (hc.enter _ _) hbody) fun _ => rfl

theorem judged (e : Term) {m : CheckM Unit} (hm : Brackets m) : Brackets (judged e m) where
  later := Later.law.walk.phased.judged e hm.later
  run hc h := by
    obtain ⟨_, _, henter, hrest⟩ := bind_eq_ok h
    cases henter
    obtain ⟨_, d, hbody, hrest⟩ := bind_eq_ok hrest
    obtain ⟨t, _, htype, hleave⟩ := bind_eq_ok hrest
    obtain ⟨rfl, -⟩ := typeOf_eq_ok htype
    cases hleave
    exact .phase hc .check (hm.run (hc.enter _ _) hbody) fun h => absurd rfl h

theorem withScope (label : String) (binders : List String) (hm : Brackets m) :
    Brackets (withScope label binders m) where
  later := Later.law.obeys_withScope label binders hm.later
  run {c d a} hc h := by
    obtain ⟨e, hrun, rfl⟩ := withScope_eq_ok h
    have hlater := hm.later.of_ok hrun
    have htrace : e.closeScope.trace = e.trace.leave "Close Scope" label := by
      rw [closeScope, hlater.scopes]
      rfl
    rw [htrace]
    exact .phase hc .scope (hm.run (c := c.openScope label binders) (hc.enter _ _) hrun) fun _ => rfl

theorem move {u : OpenTy → OpenTy → CheckM Unit} (hu : ∀ a b, Brackets (u a b)) {a b : OpenTy}
    {m : (OpenTy → OpenTy → CheckM Unit) → CheckM Unit} (hm : Move a b m) : Brackets (m u) := by
  cases hm with
  | left | right => exact bindUnknown _ _
  | parts => exact (hu _ _).bind fun _ => hu _ _
  | quantified =>
    exact (typeOf _).bind fun _ => (typeOf _).bind fun _ => (hu _ _).bind fun _ => hu _ _
  | indexed => exact (hu _ _).bind fun _ => (typeOf _).bind fun _ => (typeOf _).bind fun _ => hu _ _
  | swap => exact hu _ _
  | clash => exact .throw trivial

theorem unifyWithin (n : Nat) (a b : OpenTy) : Brackets (unifyWithin n a b) := by
  induction n generalizing a b with
  | zero => exact .throw trivial
  | succ n ih =>
    refine (resolve a).bind fun a => (resolve b).bind fun b => get.bind fun c => ?_
    split
    · exact .pure ()
    · exact phase .unify _ (move ih (unifyStep_move a b))

theorem unify (a b : OpenTy) : Brackets (unify a b) := get.bind fun _ => unifyWithin _ a b

theorem declare (e : Term) (t : OpenTy) : Brackets (declare e t) where
  later := Later.law.obeys_declare e t
  run {c d a} hc h := by
    rw [declare_run] at h
    cases hr : c.store.resolve t with
    | error err =>
      rw [hr] at h
      cases h
    | ok a =>
      rw [hr] at h
      have hemit : c.trace.Returns (c.trace.emit "Declare" (e.render ++ " : " ++ a.render)) := .emit hc (by decide)
      cases hj : c.judgment? e with
      | some j =>
        simp only [hj] at h
        exact hemit.trans ((unify a j.type).run (hemit.records hc) h)
      | none =>
        simp only [hj] at h
        cases h
        exact hemit

theorem walk : PhasedWalk Brackets where
  pure := .pure
  bind := .bind
  unsupported _ := .throw trivial
  newUnknown := .newUnknown
  resolveTy := .resolveTy
  typeOf := .typeOf
  bindUnknown := .bindUnknown
  bindPrimitive x := (emit (by decide)).bind fun _ => .bindUnknown x _
  unify := .unify
  declare := .declare
  ifBound hm hm' := get.bind fun c => by
    split
    · exact hm
    · exact hm'
  withScope label binders _ hm := hm.withScope label binders
  judged := .judged
  phase := phase .check

end Brackets

end CheckM

/-- The events of an accepted program, from whatever depth the trace starts at, are well bracketed and none of them is
above that depth, to which the trace returns. After a program that is not accepted all phases count as closed. -/
theorem check_trace_wellBracketed (options : Options) (trace : Trace) (p : Program) :
    ((check options trace p).ok = true → trace.Records →
      ∃ es, (check options trace p).context.trace = trace.extend es ∧ WellBracketed es ∧
        ∀ e ∈ es, trace.depth ≤ e.depth) ∧
    ((check options trace p).ok = false → (check options trace p).context.trace.depth = 0) := by
  refine ⟨fun hok htrace => ?_, fun hok => ?_⟩
  · obtain ⟨d, hrun⟩ := exists_checkAll_of_ok hok
    obtain ⟨es, hes, hd⟩ := (CheckM.Brackets.walk.checkAll p).run htrace hrun
    refine ⟨es, ?_, hes.wellBracketed, hes.le_depth⟩
    rw [check, hrun]
    exact hd
  · rw [check] at hok ⊢
    cases hr : CheckM.checkAll p (.new options trace) with
    | ok a d =>
      rw [hr] at hok
      cases hok
    | error e d => rfl

theorem check_trace_wellBracketed_application :
    let nat : Ty := .prim .nat
    let trace : Trace := ⟨true, false, 3, #[]⟩
    let p : Program := [.assume "f" (.fn nat nat),
      .define "g" (.fn nat nat) (.lam "x" (.app (.var "f" none) (.var "x" none)))]
    let q : Program := [.assume "f" (.fn nat nat), .define "h" nat (.var "f" none)]
    (check {} trace p).ok = true ∧ trace.Records ∧
      (∃ es, (check {} trace p).context.trace = trace.extend es ∧ WellBracketed es ∧ ∀ e ∈ es, 3 ≤ e.depth) ∧
      (check {} trace q).ok = false ∧ (check {} trace q).context.trace.depth = 0 := by
  intro nat trace p q
  have hp : (check {} trace p).ok = true := by decide +kernel
  have hq : (check {} trace q).ok = false := by decide +kernel
  have htrace : trace.Records := ⟨rfl, rfl⟩
  refine ⟨hp, htrace, ?_, hq, ?_⟩
  · exact (check_trace_wellBracketed {} trace p).1 hp htrace
  · exact (check_trace_wellBracketed {} trace q).2 hq

end IndexedTyping
