import IndexedTyping.Proofs.Store.Lenient

namespace IndexedTyping

namespace Store

/-- What becomes of a type, where `seen` are the unknowns on the way to it. The second part of a type is looked at only
if the first could be resolved. -/
inductive Resolves (s : Store) : List String → OpenTy → Except CheckError OpenTy → Prop
  | ground : Resolves s seen (.ground t) (.ok (.ground t))
  | free : s.bindingsOf x = [] → Resolves s seen (.unknown x) (.ok (.unknown x))
  | twice : 1 < (s.bindingsOf x).length → Resolves s seen (.unknown x) (.error (.ambiguous x))
  | again : s.bindingsOf x = [b] → x ∈ seen → Resolves s seen (.unknown x) (.error (.cyclic b))
  | bound : s.bindingsOf x = [b] → x ∉ seen → Resolves s (x :: seen) b.value r → Resolves s seen (.unknown x) r
  | fn : Resolves s seen a (.ok a') → Resolves s seen b r → Resolves s seen (.fn a b) (do return .fn a' (← r))
  | fnFails : Resolves s seen a (.error e) → Resolves s seen (.fn a b) (.error e)
  | app : Resolves s seen a (.ok a') → Resolves s seen b r → Resolves s seen (.app a b) (do return .app a' (← r))
  | appFails : Resolves s seen a (.error e) → Resolves s seen (.app a b) (.error e)
  | all : Resolves s seen a r → Resolves s seen (.all x l a) (do return .all x l (← r))
  | indexed : Resolves s seen a r → Resolves s seen (.indexed a i) (do return .indexed (← r) i)

section

variable {s : Store}

theorem resolves_bindM {seen : List String} {f : String → Except CheckError OpenTy} {t : OpenTy}
    (h : ∀ x ∈ t.unknowns, s.Resolves seen (.unknown x) (f x)) : s.Resolves seen t (t.bindM f) := by
  induction t with
  | ground t => exact .ground
  | unknown x => exact h x List.mem_cons_self
  | fn a b iha ihb =>
    have ha := iha fun x hx => h x (List.mem_append_left _ hx)
    have hb := ihb fun x hx => h x (List.mem_append_right _ hx)
    rw [OpenTy.bindM]
    cases hr : a.bindM f with
    | error e => exact .fnFails (hr ▸ ha)
    | ok a' => exact .fn (hr ▸ ha) hb
  | app a b iha ihb =>
    have ha := iha fun x hx => h x (List.mem_append_left _ hx)
    have hb := ihb fun x hx => h x (List.mem_append_right _ hx)
    rw [OpenTy.bindM]
    cases hr : a.bindM f with
    | error e => exact .appFails (hr ▸ ha)
    | ok a' => exact .app (hr ▸ ha) hb
  | all x l a ih => exact .all (ih h)
  | indexed a i ih => exact .indexed (ih h)

theorem resolves_resolveName {n : Nat} {seen : List String} (hf : s.Fits n seen) (x : String) :
    s.Resolves seen (.unknown x) (s.resolveName n seen x) := by
  induction n generalizing seen x with
  | zero => exact hf.not_zero.elim
  | succ n ih =>
    obtain ⟨m, hm, ⟨hb, h⟩ | ⟨b, hb, hx, h⟩ | ⟨b, hb, hx, hfit, h⟩ | ⟨hlen, h⟩⟩ := resolveName_cases hf x
    · exact h ▸ .free hb
    · exact h ▸ .again hb hx
    · cases hm
      exact h ▸ .bound hb hx (resolves_bindM fun y _ => ih hfit y)
    · exact h ▸ .twice hlen

theorem resolves_resolve (s : Store) (t : OpenTy) : s.Resolves [] t (s.resolve t) :=
  resolves_bindM fun x _ => resolves_resolveName (.start s) x

theorem Resolves.unique {seen : List String} {t : OpenTy} {r r' : Except CheckError OpenTy}
    (h : s.Resolves seen t r) (k : s.Resolves seen t r') : r = r' := by
  induction h generalizing r' with
  | ground => cases k; rfl
  | free hb => cases k <;> simp_all
  | twice hlen => cases k <;> simp_all
  | again hb hx => cases k <;> simp_all
  | bound hb hx h ih =>
    cases k with
    | bound hb' _ k =>
      cases hb.symm.trans hb'
      exact ih k
    | _ => simp_all
  | fn _ _ iha ihb =>
    cases k with
    | fn ka kb =>
      cases iha ka
      rw [ihb kb]
    | fnFails ka => cases iha ka
  | fnFails _ ih =>
    cases k with
    | fn ka _ => cases ih ka
    | fnFails ka => cases ih ka; rfl
  | app _ _ iha ihb =>
    cases k with
    | app ka kb =>
      cases iha ka
      rw [ihb kb]
    | appFails ka => cases iha ka
  | appFails _ ih =>
    cases k with
    | app ka _ => cases ih ka
    | appFails ka => cases ih ka; rfl
  | all _ ih =>
    cases k with
    | all k => rw [ih k]
  | indexed _ ih =>
    cases k with
    | indexed k => rw [ih k]

@[simp] theorem reaches_fn {a b : OpenTy} {x : String} : s.Reaches (.fn a b) x ↔ s.Reaches a x ∨ s.Reaches b x := by
  simp only [Reaches, OpenTy.unknowns, List.mem_append, or_and_right, exists_or]

@[simp] theorem reaches_app {a b : OpenTy} {x : String} : s.Reaches (.app a b) x ↔ s.Reaches a x ∨ s.Reaches b x := by
  simp only [Reaches, OpenTy.unknowns, List.mem_append, or_and_right, exists_or]

theorem reaches_self (x : String) : s.Reaches (.unknown x) x := ⟨x, List.mem_singleton_self x, .refl⟩

theorem reaches_unknown {x y : String} {b : Binding} (hb : s.bindingsOf x = [b]) :
    s.Reaches (.unknown x) y ↔ y = x ∨ s.Reaches b.value y := by
  constructor
  · rintro ⟨z, hz, hzy⟩
    cases List.mem_singleton.mp hz
    rcases hzy.cases_head with rfl | ⟨w, hxw, hwy⟩
    · exact .inl rfl
    · exact .inr ⟨w, mem_unknowns_of_leads hb hxw, hwy⟩
  · rintro (rfl | ⟨w, hw, hwy⟩)
    · exact reaches_self y
    · exact ⟨x, List.mem_singleton_self x, .head (leads_of_bindingsOf hb hw) hwy⟩

inductive Obstructs (s : Store) (t : OpenTy) : CheckError → Prop
  | twice : s.Reaches t x → 1 < (s.bindingsOf x).length → Obstructs s t (.ambiguous x)
  | circle : s.Reaches t b.name → s.bindingsOf b.name = [b] → Relation.TransGen s.Leads b.name b.name →
      Obstructs s t (.cyclic b)

theorem Obstructs.mono {t u : OpenTy} {e : CheckError} (h : s.Obstructs t e)
    (htu : ∀ x, s.Reaches t x → s.Reaches u x) : s.Obstructs u e := by
  cases h with
  | twice hx hlen => exact .twice (htu _ hx) hlen
  | circle hx hb hc => exact .circle (htu _ hx) hb hc

theorem Resolves.obstructs {seen : List String} {t : OpenTy} {r : Except CheckError OpenTy} {e : CheckError}
    (h : s.Resolves seen t r) (hseen : ∀ y ∈ seen, ∀ x ∈ t.unknowns, Relation.TransGen s.Leads y x)
    (he : r = .error e) : s.Obstructs t e := by
  induction h with
  | ground => cases he
  | free _ => cases he
  | twice hlen => cases he; exact .twice (reaches_self _) hlen
  | @again x b seen hb hx =>
    cases he
    obtain ⟨-, rfl⟩ := mem_bindingsOf.mp (hb ▸ List.mem_singleton_self b : b ∈ s.bindingsOf x)
    exact .circle (reaches_self _) hb (hseen _ hx _ (List.mem_singleton_self _))
  | @bound x b seen r hb hx _ ih =>
    refine (ih (fun y hy z hz => ?_) he).mono fun y hy => (reaches_unknown hb).mpr (.inr hy)
    -- `x` is on the way from here on, and all that was on it leads to `z` through `x`
    have hxz := leads_of_bindingsOf hb hz
    rcases List.mem_cons.mp hy with rfl | hy
    · exact .single hxz
    · exact (hseen y hy x (List.mem_singleton_self x)).tail hxz
  | fn _ _ _ ihb =>
    have hb := ihb (fun y hy x hx => hseen y hy x (List.mem_append_right _ hx)) (OpenTy.bind₁_eq_error he)
    exact hb.mono fun x hx => reaches_fn.mpr (.inr hx)
  | fnFails _ ih =>
    have ha := ih (fun y hy x hx => hseen y hy x (List.mem_append_left _ hx)) he
    exact ha.mono fun x hx => reaches_fn.mpr (.inl hx)
  | app _ _ _ ihb =>
    have hb := ihb (fun y hy x hx => hseen y hy x (List.mem_append_right _ hx)) (OpenTy.bind₁_eq_error he)
    exact hb.mono fun x hx => reaches_app.mpr (.inr hx)
  | appFails _ ih =>
    have ha := ih (fun y hy x hx => hseen y hy x (List.mem_append_left _ hx)) he
    exact ha.mono fun x hx => reaches_app.mpr (.inl hx)
  | all _ ih => exact (ih hseen (OpenTy.bind₁_eq_error he)).mono fun _ hx => hx
  | indexed _ ih => exact (ih hseen (OpenTy.bind₁_eq_error he)).mono fun _ hx => hx

theorem Resolves.mem_unknowns {seen : List String} {t a : OpenTy} {r : Except CheckError OpenTy} {x : String}
    (h : s.Resolves seen t r) (hr : r = .ok a) (hx : s.Reaches t x) (hfree : s.Unbound x) : x ∈ a.unknowns := by
  induction h generalizing a with
  | ground =>
    obtain ⟨y, hy, -⟩ := hx
    cases hy
  | @free y seen hb =>
    cases hr
    obtain ⟨z, hz, hzx⟩ := hx
    cases List.mem_singleton.mp hz
    rcases hzx.cases_head with rfl | ⟨w, hw, -⟩
    · exact List.mem_singleton_self y
    · exact absurd hw (bindingsOf_eq_nil.mp hb).not_leads
  | twice _ => cases hr
  | again _ _ => cases hr
  | bound hb _ _ ih =>
    rcases (reaches_unknown hb).mp hx with rfl | hx
    · cases hb.symm.trans (bindingsOf_eq_nil.mpr hfree)
    · exact ih hr hx
  | fn _ _ iha ihb =>
    obtain ⟨v, rfl, rfl⟩ := OpenTy.bind₁_eq_ok hr
    exact List.mem_append.mpr ((reaches_fn.mp hx).imp (iha rfl) (ihb rfl))
  | app _ _ iha ihb =>
    obtain ⟨v, rfl, rfl⟩ := OpenTy.bind₁_eq_ok hr
    exact List.mem_append.mpr ((reaches_app.mp hx).imp (iha rfl) (ihb rfl))
  | fnFails _ _ => cases hr
  | appFails _ _ => cases hr
  | all _ ih =>
    obtain ⟨v, rfl, rfl⟩ := OpenTy.bind₁_eq_ok hr
    change x ∈ v.unknowns
    exact ih rfl hx
  | indexed _ ih =>
    obtain ⟨v, rfl, rfl⟩ := OpenTy.bind₁_eq_ok hr
    change x ∈ v.unknowns
    exact ih rfl hx

end

/-- Resolving has an outcome for every store and type, by rules that know no bound, and it is the one computed. It
succeeds just if no unknown that can be reached has two bindings or lies on a circle, and the error that it ends in
otherwise names such an unknown. -/
theorem resolve_terminates (s : Store) (t : OpenTy) :
    (∀ r, s.Resolves [] t r ↔ r = s.resolve t) ∧
    ((∃ a, s.resolve t = .ok a) ↔
      ∀ x, s.Reaches t x → (s.bindingsOf x).length ≤ 1 ∧ ¬Relation.TransGen s.Leads x x) ∧
    ∀ e, s.resolve t = .error e → s.Obstructs t e := by
  refine ⟨fun r => ⟨fun h => h.unique (resolves_resolve s t), fun h => h ▸ resolves_resolve s t⟩, ?_,
    fun e he => (resolves_resolve s t).obstructs (by simp) he⟩
  rw [exists_resolve_iff]
  constructor
  · rintro h x ⟨y, hy, hyx⟩
    exact h y hy x hyx
  · intro h y hy x hyx
    exact h x ⟨y, hy, hyx⟩

/-- What is left in a type that was resolved are just the unknowns that can be reached and stand for nothing, so
resolving it once more changes nothing. -/
theorem resolve_idempotent {s : Store} {t a : OpenTy} (h : s.resolve t = .ok a) :
    (∀ x, x ∈ a.unknowns ↔ s.Reaches t x ∧ s.Unbound x) ∧ s.resolve a = .ok a := by
  refine ⟨fun x => ⟨fun hx => ⟨reaches_of_resolve h hx, unbound_of_resolve h hx⟩, fun hx => ?_⟩,
    resolve_eq_self fun x hx => unbound_of_resolve h hx⟩
  exact (resolves_resolve s t).mem_unknowns h hx.1 hx.2

theorem resolve_idempotent_beside_circle :
    let s : Store := [⟨"a", .fn (.unknown "b") (.unknown "b")⟩, ⟨"c", .unknown "d"⟩, ⟨"d", .unknown "c"⟩,
      ⟨"e", .unknown "a"⟩, ⟨"e", .unknown "b"⟩, ⟨"b", .app (.unknown "f") (.ground (.prim .nat))⟩]
    let v : OpenTy := .app (.unknown "f") (.ground (.prim .nat))
    s.resolve (.unknown "a") = .ok (.fn v v) ∧ s.resolve (.fn v v) = .ok (.fn v v) ∧ s.Unbound "f" := by
  intro s v
  have h : s.resolve (.unknown "a") = .ok (.fn v v) := rfl
  obtain ⟨hleft, hagain⟩ := resolve_idempotent h
  exact ⟨h, hagain, ((hleft "f").mp (by decide)).2⟩

end Store

end IndexedTyping
