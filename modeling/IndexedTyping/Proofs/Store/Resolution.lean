import IndexedTyping.Store.Basic
import IndexedTyping.Proofs.OpenTy.Substitution
import Mathlib.Data.List.Perm.Subperm
import Mathlib.Logic.Relation

namespace IndexedTyping

namespace Store

def Leads (s : Store) (x y : String) : Prop := ∃ b ∈ s, b.name = x ∧ y ∈ b.value.unknowns

def Reaches (s : Store) (t : OpenTy) (y : String) : Prop :=
  ∃ x ∈ t.unknowns, Relation.ReflTransGen s.Leads x y

def Unbound (s : Store) (x : String) : Prop := ∀ b ∈ s, b.name ≠ x

def Clear (s : Store) (x : String) : Prop :=
  ∀ y, Relation.ReflTransGen s.Leads x y → (s.bindingsOf y).length ≤ 1 ∧ ¬Relation.TransGen s.Leads y y

@[simp] theorem mem_bindingsOf {s : Store} {x : String} {b : Binding} : b ∈ s.bindingsOf x ↔ b ∈ s ∧ b.name = x := by
  simp [bindingsOf]

theorem bindingsOf_eq_nil {s : Store} {x : String} : s.bindingsOf x = [] ↔ s.Unbound x := by
  simp [bindingsOf, Unbound]

theorem Unbound.not_leads {s : Store} {x y : String} (h : s.Unbound x) : ¬s.Leads x y := by
  rintro ⟨b, hb, hx, -⟩
  exact h b hb hx

/-- The unknowns on the way, each of which has a binding, are too many for another one. -/
structure Fits (s : Store) (n : Nat) (seen : List String) : Prop where
  nodup : seen.Nodup
  bound : ∀ x ∈ seen, ∃ b ∈ s, b.name = x
  length : s.length < n + seen.length

theorem Fits.start (s : Store) : s.Fits (s.length + 1) [] :=
  ⟨List.nodup_nil, by simp, by simp⟩

theorem Fits.not_zero {s : Store} {seen : List String} (h : s.Fits 0 seen) : False := by
  have hsub : seen ⊆ s.map (·.name) := by
    intro x hx
    obtain ⟨b, hb, hbx⟩ := h.bound x hx
    exact List.mem_map.mpr ⟨b, hb, hbx⟩
  have hle := (h.nodup.subperm hsub).length_le
  have hlt := h.length
  simp only [List.length_map] at hle
  omega

theorem Fits.visit {s : Store} {n : Nat} {seen : List String} {x : String} {b : Binding} (h : s.Fits (n + 1) seen)
    (hb : s.bindingsOf x = [b]) (hx : x ∉ seen) : s.Fits n (x :: seen) where
  nodup := List.nodup_cons.mpr ⟨hx, h.nodup⟩
  bound y hy := by
    rcases List.mem_cons.mp hy with rfl | hy
    · exact ⟨b, mem_bindingsOf.mp (hb ▸ List.mem_singleton_self b)⟩
    · exact h.bound y hy
  length := by
    have := h.length
    simp only [List.length_cons]
    omega

theorem one_lt_length {bs : List Binding} (hnil : bs ≠ []) (hone : ∀ b, bs ≠ [b]) : 1 < bs.length := by
  match bs with
  | [] => exact absurd rfl hnil
  | [b] => exact absurd rfl (hone b)
  | _ :: _ :: _ => simp

theorem resolveName_cases {s : Store} {n : Nat} {seen : List String} (h : s.Fits n seen) (x : String) :
    ∃ m, n = m + 1 ∧
      (s.bindingsOf x = [] ∧ s.resolveName n seen x = .ok (.unknown x) ∨
      (∃ b, s.bindingsOf x = [b] ∧ x ∈ seen ∧ s.resolveName n seen x = .error (.cyclic b)) ∨
      (∃ b, s.bindingsOf x = [b] ∧ x ∉ seen ∧ s.Fits m (x :: seen) ∧
        s.resolveName n seen x = b.value.bindM (s.resolveName m (x :: seen))) ∨
      1 < (s.bindingsOf x).length ∧ s.resolveName n seen x = .error (.ambiguous x)) := by
  cases n with
  | zero => exact h.not_zero.elim
  | succ m =>
    refine ⟨m, rfl, ?_⟩
    rw [resolveName]
    split
    · next hb => exact .inl ⟨hb, rfl⟩
    · next b hb =>
      by_cases hx : x ∈ seen
      · exact .inr (.inl ⟨b, hb, hx, by simp [hx]⟩)
      · exact .inr (.inr (.inl ⟨b, hb, hx, h.visit hb hx, by simp [hx]⟩))
    · next hnil hone =>
      exact .inr (.inr (.inr ⟨one_lt_length hnil hone, rfl⟩))

theorem leads_of_bindingsOf {s : Store} {x y : String} {b : Binding} (hb : s.bindingsOf x = [b])
    (hy : y ∈ b.value.unknowns) : s.Leads x y := by
  obtain ⟨hmem, hname⟩ := mem_bindingsOf.mp (hb ▸ List.mem_singleton_self b : b ∈ s.bindingsOf x)
  exact ⟨b, hmem, hname, hy⟩

theorem mem_unknowns_of_leads {s : Store} {x y : String} {b : Binding} (hb : s.bindingsOf x = [b])
    (h : s.Leads x y) : y ∈ b.value.unknowns := by
  obtain ⟨c, hc, hname, hy⟩ := h
  have : c ∈ s.bindingsOf x := mem_bindingsOf.mpr ⟨hc, hname⟩
  rw [hb, List.mem_singleton] at this
  exact this ▸ hy

theorem Clear.of_leads {s : Store} {x y : String} (h : s.Clear x) (hxy : s.Leads x y) : s.Clear y :=
  fun z hz => h z (.head hxy hz)

theorem exists_resolveName {s : Store} {n : Nat} {seen : List String} {x : String} (hf : s.Fits n seen)
    (hseen : ∀ y ∈ seen, Relation.TransGen s.Leads y x) (hx : s.Clear x) : ∃ r, s.resolveName n seen x = .ok r := by
  induction n generalizing seen x with
  | zero => exact hf.not_zero.elim
  | succ n ih =>
    obtain ⟨m, hm, h | ⟨b, hb, hmem, -⟩ | ⟨b, hb, -, hfit, h⟩ | ⟨hlen, -⟩⟩ := resolveName_cases hf x
    · exact ⟨_, h.2⟩
    -- all that is on the way leads to `x`, so to meet `x` there is a circle
    · exact absurd (hseen x hmem) (hx x .refl).2
    · cases hm
      rw [h]
      have hall : ∀ y ∈ b.value.unknowns, ∃ r, s.resolveName n (x :: seen) y = .ok r := by
        intro y hy
        have hxy := leads_of_bindingsOf hb hy
        refine ih hfit (fun z hz => ?_) (hx.of_leads hxy)
        rcases List.mem_cons.mp hz with rfl | hz
        · exact .single hxy
        · exact (hseen z hz).tail hxy
      exact ⟨_, OpenTy.bindM_of_ok fun y hy => OpenTy.eq_ok_valuesOf (hall y hy)⟩
    · exact absurd (hx x .refl).1 (Nat.not_le_of_lt hlen)

theorem clear_of_resolveName {s : Store} {n : Nat} {seen : List String} {x : String} {r : OpenTy}
    (hf : s.Fits n seen) (h : s.resolveName n seen x = .ok r) :
    s.Clear x ∧ ∀ y ∈ seen, Relation.ReflTransGen s.Leads x y → s.Unbound y := by
  induction n generalizing seen x r with
  | zero => exact hf.not_zero.elim
  | succ n ih =>
    obtain ⟨m, hm, ⟨hb, -⟩ | ⟨b, -, -, herr⟩ | ⟨b, hb, hnot, hfit, hbind⟩ | ⟨-, herr⟩⟩ := resolveName_cases hf x
    · have hx := bindingsOf_eq_nil.mp hb
      have stays : ∀ {y}, Relation.ReflTransGen s.Leads x y → y = x := by
        intro y hy
        rcases hy.cases_head with rfl | ⟨z, hz, -⟩
        · rfl
        · exact absurd hz hx.not_leads
      refine ⟨fun y hy => ?_, fun y _ hy => stays hy ▸ hx⟩
      cases stays hy
      refine ⟨by simp [hb], fun hc => ?_⟩
      obtain ⟨z, hz, -⟩ := Relation.TransGen.head'_iff.mp hc
      exact hx.not_leads hz
    · cases herr.symm.trans h
    · cases hm
      have parts : ∀ y, s.Leads x y → s.Clear y ∧
          ∀ z ∈ x :: seen, Relation.ReflTransGen s.Leads y z → s.Unbound z := by
        intro y hy
        obtain ⟨v, hv⟩ := OpenTy.exists_ok_of_bindM (hbind.symm.trans h) y (mem_unknowns_of_leads hb hy)
        exact ih hfit hv
      have hbound : ¬s.Unbound x := fun hx => by simp [bindingsOf_eq_nil.mpr hx] at hb
      refine ⟨fun y hy => ?_, fun y hys hy => ?_⟩
      · rcases hy.cases_head with rfl | ⟨z, hxz, hzy⟩
        · refine ⟨by simp [hb], fun hc => ?_⟩
          obtain ⟨z, hxz, hzx⟩ := Relation.TransGen.head'_iff.mp hc
          -- what `x` leads to was resolved with `x` on the way, and did not come back to it
          exact hbound ((parts z hxz).2 x List.mem_cons_self hzx)
        · exact (parts z hxz).1 y hzy
      · rcases hy.cases_head with rfl | ⟨z, hxz, hzy⟩
        · exact absurd hys hnot
        · exact (parts z hxz).2 y (List.mem_cons_of_mem x hys) hzy
    · cases herr.symm.trans h

theorem unbound_of_resolveName {s : Store} {n : Nat} {seen : List String} {x y : String} {r : OpenTy}
    (hf : s.Fits n seen) (h : s.resolveName n seen x = .ok r) (hy : y ∈ r.unknowns) : s.Unbound y := by
  induction n generalizing seen x r with
  | zero => exact hf.not_zero.elim
  | succ n ih =>
    obtain ⟨m, hm, ⟨hb, hok⟩ | ⟨b, -, -, herr⟩ | ⟨b, -, -, hfit, hbind⟩ | ⟨-, herr⟩⟩ := resolveName_cases hf x
    · cases hok.symm.trans h
      rw [OpenTy.unknowns, List.mem_singleton] at hy
      exact hy ▸ bindingsOf_eq_nil.mp hb
    · cases herr.symm.trans h
    · cases hm
      obtain ⟨hok, rfl⟩ := OpenTy.bindM_eq_ok_iff.mp (hbind.symm.trans h)
      obtain ⟨z, hz, hyz⟩ := OpenTy.mem_unknowns_bind.mp hy
      exact ih hfit (hok z hz) hyz
    · cases herr.symm.trans h

theorem resolveName_error {s : Store} {n : Nat} {seen : List String} {x : String} {e : CheckError}
    (h : s.resolveName n seen x = .error e) :
    (∃ b, e = .cyclic b) ∨ ∃ y, e = .ambiguous y ∧ 1 < (s.bindingsOf y).length := by
  induction n generalizing seen x with
  | zero => cases h
  | succ n ih =>
    rw [resolveName] at h
    split at h
    · cases h
    · next b _ =>
      split at h
      · cases h
        exact .inl ⟨b, rfl⟩
      · obtain ⟨y, -, hy⟩ := OpenTy.exists_error_of_bindM h
        exact ih hy
    · next hnil hone =>
      cases h
      exact .inr ⟨x, rfl, one_lt_length hnil hone⟩

theorem exists_resolve_iff {s : Store} {t : OpenTy} : (∃ r, s.resolve t = .ok r) ↔ ∀ x ∈ t.unknowns, s.Clear x := by
  constructor
  · rintro ⟨r, hr⟩ x hx
    obtain ⟨v, hv⟩ := OpenTy.exists_ok_of_bindM hr x hx
    exact (clear_of_resolveName (.start s) hv).1
  · intro h
    refine ⟨_, OpenTy.bindM_of_ok fun x hx => OpenTy.eq_ok_valuesOf ?_⟩
    exact exists_resolveName (.start s) (by simp) (h x hx)

theorem unbound_of_resolve {s : Store} {t r : OpenTy} {y : String} (h : s.resolve t = .ok r) (hy : y ∈ r.unknowns) :
    s.Unbound y := by
  obtain ⟨hok, rfl⟩ := OpenTy.bindM_eq_ok_iff.mp h
  obtain ⟨x, hx, hyx⟩ := OpenTy.mem_unknowns_bind.mp hy
  exact unbound_of_resolveName (.start s) (hok x hx) hyx

theorem resolve_eq_self {s : Store} {t : OpenTy} (h : ∀ x ∈ t.unknowns, s.Unbound x) : s.resolve t = .ok t := by
  have hname : ∀ x ∈ t.unknowns, s.resolveUnknown x = .ok (.unknown x) := fun x hx => by
    rw [resolveUnknown, resolveName, bindingsOf_eq_nil.mpr (h x hx)]
  rw [resolve, OpenTy.bindM_of_ok hname, OpenTy.bind_unknown]

theorem resolve_error {s : Store} {t : OpenTy} {e : CheckError} (h : s.resolve t = .error e) :
    (∃ b, e = .cyclic b) ∨ ∃ y, e = .ambiguous y ∧ 1 < (s.bindingsOf y).length := by
  obtain ⟨x, -, hx⟩ := OpenTy.exists_error_of_bindM h
  exact resolveName_error hx

theorem resolveTy_eq_resolve (s : Store) (t : Ty) : s.resolveTy t = s.resolve t.embed := t.openM_eq_bindM _

theorem binding_eq_ok {s : Store} {x : String} {t : OpenTy} {b : Binding} (h : s.binding x t = .ok b) :
    s.resolve (.unknown x) = .ok (.unknown b.name) ∧ s.resolve t = .ok b.value := by
  rw [binding] at h
  cases htarget : s.resolve (.unknown x) with
  | error e => rw [htarget] at h; cases h
  | ok target =>
    cases hvalue : s.resolve t with
    | error e => rw [htarget, hvalue] at h; cases h
    | ok value =>
      rw [htarget, hvalue] at h
      cases target with
      | unknown y => cases h; exact ⟨rfl, rfl⟩
      | _ => cases h

theorem binding_eq_error {s : Store} {x : String} {t : OpenTy} {e : CheckError} (h : s.binding x t = .error e) :
    s.resolve (.unknown x) = .error e ∨ s.resolve t = .error e ∨
      ∃ a, s.resolve (.unknown x) = .ok a ∧ (∀ y, a ≠ .unknown y) ∧ e = .notUnknown x a := by
  rw [binding] at h
  cases htarget : s.resolve (.unknown x) with
  | error e => rw [htarget] at h; cases h; exact .inl rfl
  | ok target =>
    cases hvalue : s.resolve t with
    | error e => rw [htarget, hvalue] at h; cases h; exact .inr (.inl rfl)
    | ok value =>
      rw [htarget, hvalue] at h
      cases target with
      | unknown y => cases h
      | _ => cases h; exact .inr (.inr ⟨_, rfl, by simp, rfl⟩)

theorem insert_eq_ok {s s' : Store} {strict : Bool} {b : Binding} (h : s.insert strict b = .ok s') :
    refuses strict b = false ∧ s' = s ++ [b] := by
  rw [insert] at h
  split at h
  · cases h
  · next hb => cases h; exact ⟨by simpa using hb, rfl⟩

theorem insert_eq_error {s : Store} {strict : Bool} {b : Binding} {e : CheckError} (h : s.insert strict b = .error e) :
    refuses strict b = true ∧ e = .cyclic b := by
  rw [insert] at h
  split at h
  · next hb => cases h; exact ⟨hb, rfl⟩
  · cases h

end Store

end IndexedTyping
