import IndexedTyping.Proofs.Store.Substitution

namespace IndexedTyping

namespace Store

variable {s r : Store}

theorem Leads.of_prefix (h : s <+: r) {x y : String} (hl : s.Leads x y) : r.Leads x y := by
  obtain ⟨b, hb, hx, hy⟩ := hl
  exact ⟨b, h.subset hb, hx, hy⟩

theorem Clear.of_reflTransGen {x y : String} (h : s.Clear x) (hxy : Relation.ReflTransGen s.Leads x y) : s.Clear y :=
  fun z hz => h z (hxy.trans hz)

theorem reflTransGen_of_resolveName {n : Nat} {seen : List String} {x y : String} {t : OpenTy}
    (h : s.resolveName n seen x = .ok t) (hy : y ∈ t.unknowns) : Relation.ReflTransGen s.Leads x y := by
  induction n generalizing seen x t with
  | zero =>
    cases h
    cases List.mem_singleton.mp hy
    exact .refl
  | succ n ih =>
    rw [resolveName] at h
    split at h
    · cases h
      cases List.mem_singleton.mp hy
      exact .refl
    · next b hb =>
      split at h
      · cases h
      · obtain ⟨hok, rfl⟩ := OpenTy.bindM_eq_ok_iff.mp h
        obtain ⟨z, hz, hyz⟩ := OpenTy.mem_unknowns_bind.mp hy
        exact .head (leads_of_bindingsOf hb hz) (ih (hok z hz) hyz)
    · cases h

theorem reaches_of_resolve {t a : OpenTy} (h : s.resolve t = .ok a) {y : String} (hy : y ∈ a.unknowns) :
    s.Reaches t y := by
  obtain ⟨hok, rfl⟩ := OpenTy.bindM_eq_ok_iff.mp h
  obtain ⟨x, hx, hxy⟩ := OpenTy.mem_unknowns_bind.mp hy
  exact ⟨x, hx, reflTransGen_of_resolveName (hok x hx) hxy⟩

namespace Triangular

variable {strict : Bool} {t a b : OpenTy}

theorem of_prefix (h : Triangular strict r) (hs : s <+: r) : Triangular strict s where
  nodup := h.nodup.sublist (hs.sublist.map _)
  forward := h.forward.sublist hs.sublist
  loops b hb := h.loops b (hs.subset hb)

theorem resolve_resolved (h : Triangular strict r) (hs : s <+: r) (ha : s.resolve t = .ok a)
    (hb : r.resolve t = .ok b) : r.resolve a = .ok b := by
  have hclear := exists_resolve_iff.mp ⟨b, hb⟩
  obtain ⟨b', hb'⟩ : ∃ b', r.resolve a = .ok b' := by
    refine exists_resolve_iff.mpr fun y hy => ?_
    obtain ⟨x, hx, hxy⟩ := reaches_of_resolve ha hy
    exact (hclear x hx).of_reflTransGen (Relation.ReflTransGen.mono (fun _ _ => Leads.of_prefix hs) _ _ hxy)
  have happly : r.apply a = r.apply t := by
    refine apply_eq_of_prefix hs ?_
    rw [(h.of_prefix hs).apply_of_resolve ha]
    exact apply_eq_self fun y hy => unbound_of_resolve ha hy
  rw [hb', ← h.apply_of_resolve hb', ← h.apply_of_resolve hb, happly]

theorem resolve_value (h : Triangular strict s) {bd : Binding} (hbd : bd ∈ s)
    (ha : s.resolve (.unknown bd.name) = .ok a) : s.resolve bd.value = .ok a := by
  have hclear := exists_resolve_iff.mp ⟨a, ha⟩ bd.name List.mem_cons_self
  have hloop : ¬bd.Loops := fun hl => h.clear_iff.mp hclear bd hbd hl .refl
  obtain ⟨b, hb⟩ : ∃ b, s.resolve bd.value = .ok b :=
    exists_resolve_iff.mpr fun y hy => hclear.of_leads ⟨bd, hbd, rfl, hy⟩
  rw [hb, ← h.apply_of_resolve hb, ← h.apply_of_resolve ha, h.apply_name_of_not_loops hbd hloop]

theorem resolve_append {bd : Binding} (h : Triangular strict (s ++ [bd])) (hbd : bd.value.unknowns = [])
    (ha : s.resolve t = .ok a) (hknown : a.unknowns = []) : resolve (s ++ [bd]) t = .ok a := by
  have hprefix := List.prefix_append s [bd]
  have hleads : ∀ {x y}, Leads (s ++ [bd]) x y → s.Leads x y := by
    rintro x y ⟨b, hb, hx, hy⟩
    rcases List.mem_append.mp hb with hb | hb
    · exact ⟨b, hb, hx, hy⟩
    · cases List.mem_singleton.mp hb
      rw [hbd] at hy
      cases hy
  obtain ⟨b, hb⟩ : ∃ b, resolve (s ++ [bd]) t = .ok b := by
    refine exists_resolve_iff.mpr fun x hx => h.clear_iff.mpr fun c hc hl hreach => ?_
    have hclear := exists_resolve_iff.mp ⟨a, ha⟩ x hx
    have hreach := Relation.ReflTransGen.mono (fun _ _ => hleads) _ _ hreach
    exact (hclear c.name hreach).2 (.single (hleads ⟨c, hc, rfl, hl⟩))
  rw [hb, ← h.apply_of_resolve hb, apply_append, (h.of_prefix hprefix).apply_of_resolve ha]
  exact congrArg _ (apply_eq_self (by simp [hknown]))

end Triangular

end Store

end IndexedTyping
