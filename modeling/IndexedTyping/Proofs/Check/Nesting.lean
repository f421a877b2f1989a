import IndexedTyping.Proofs.Check.Hereditary
import IndexedTyping.Proofs.Check.Reachable

namespace IndexedTyping

namespace Scope

structure Within (s : Scope) (store : Store) (judgments : List Judgment) : Prop where
  store : s.store ⊆ store
  judgments : s.judgments ⊆ judgments

theorem Within.mono {s : Scope} {store store' : Store} {js js' : List Judgment} (h : s.Within store js)
    (hstore : store ⊆ store') (hjs : js ⊆ js') : s.Within store' js' :=
  ⟨List.Subset.trans h.store hstore, List.Subset.trans h.judgments hjs⟩

end Scope

structure Context.Nested (c : Context) : Prop where
  within : ∀ s ∈ c.scopes, s.Within c.store c.judgments
  scopes : c.scopes.Pairwise fun s r => r.Within s.store s.judgments

namespace Context.Nested

variable {c : Context}

theorem openScope (h : c.Nested) (label : String) (binders : List String) : (c.openScope label binders).Nested where
  within := List.forall_mem_cons.mpr ⟨⟨List.Subset.refl _, List.Subset.refl _⟩, h.within⟩
  scopes := List.pairwise_cons.mpr ⟨h.within, h.scopes⟩

theorem closeScope (h : c.Nested) : c.closeScope.Nested := by
  obtain ⟨options, trace, counter, store, judgments, scopes⟩ := c
  cases scopes with
  | nil => exact h
  | cons s outer =>
    obtain ⟨hs, houter⟩ := List.pairwise_cons.mp h.scopes
    exact ⟨hs, houter⟩

theorem law : Law (fun c d => c.Nested → d.Nested) fun _ _ => True where
  refl c := id
  trans hcd hde h := hde (hcd h)
  back _ _ := trivial
  trace c t h := ⟨h.within, h.scopes⟩
  count c h := ⟨h.within, h.scopes⟩
  bind hb hs h := by
    obtain ⟨-, rfl⟩ := Store.insert_eq_ok hs
    exact ⟨fun s hs => (h.within s hs).mono (List.subset_append_left _ _) (List.Subset.refl _), h.scopes⟩
  judge _ _ h := ⟨fun s hs => (h.within s hs).mono (List.Subset.refl _) (List.subset_cons_self _ _), h.scopes⟩
  scope hd h := (hd (h.openScope _ _)).closeScope
  scopeError _ := trivial
  plain _ := trivial
  resolveError _ := trivial
  resolveTyError _ := trivial
  bindError _ := trivial
  insertError _ := trivial

theorem of_reachable (h : Reachable c) : c.Nested :=
  h.of_obeys (fun _ _ => ⟨by simp [Context.new], .nil⟩)
    (law.obeys_run (fun _ label binders h => h.openScope label binders) fun _ h => h.closeScope)

end Context.Nested

theorem Context.Throughout.of_reachable {P : OpenTy → Prop} {c : Context} (h : Reachable c)
    (hstore : ∀ b ∈ c.store, P b.value) (hjudgments : ∀ j ∈ c.judgments, P j.type) : c.Throughout P where
  store := hstore
  judgments := hjudgments
  scopes s hs := by
    have hwithin := (Context.Nested.of_reachable h).within s hs
    exact ⟨fun b hb => hstore b (hwithin.store hb), fun j hj => hjudgments j (hwithin.judgments hj)⟩

end IndexedTyping
