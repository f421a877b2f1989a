import IndexedTyping.Proofs.Check.Later
import Mathlib.Data.Finset.Card

namespace IndexedTyping

open Relation

namespace Store

def Mentions (s : Store) (t : OpenTy) (e : Term) : Prop :=
  e ∈ t.keys ∨ ∃ b ∈ s, s.Reaches t b.name ∧ e ∈ b.value.keys

theorem Reaches.mono {s s' : Store} (h : s <+: s') {t : OpenTy} {y : String} (hy : s.Reaches t y) : s'.Reaches t y := by
  obtain ⟨x, hx, hxy⟩ := hy
  refine ⟨x, hx, ReflTransGen.mono (fun y z => ?_) _ _ hxy⟩
  rintro ⟨b, hb, hyz⟩
  exact ⟨b, h.subset hb, hyz⟩

theorem Mentions.mono {s s' : Store} (h : s <+: s') {t : OpenTy} {e : Term} (he : s.Mentions t e) :
    s'.Mentions t e := by
  rcases he with he | ⟨b, hb, hreach, he⟩
  · exact .inl he
  · exact .inr ⟨b, h.subset hb, hreach.mono h, he⟩

theorem Mentions.of_mem_parts {s : Store} {p t : OpenTy} (h : p ∈ t.parts) {e : Term} (he : s.Mentions p e) :
    s.Mentions t e := by
  rcases he with he | ⟨b, hb, ⟨x, hx, hreach⟩, he⟩
  · exact .inl (OpenTy.keys_subset_of_mem_parts h he)
  · exact .inr ⟨b, hb, ⟨x, OpenTy.unknowns_subset_of_mem_parts h hx, hreach⟩, he⟩

theorem reaches_of_resolveName {s : Store} {n : Nat} {seen : List String} {x : String} {r : OpenTy}
    (h : s.resolveName n seen x = .ok r) {e : Term} (he : e ∈ r.keys) :
    ∃ b ∈ s, ReflTransGen s.Leads x b.name ∧ e ∈ b.value.keys := by
  induction n generalizing seen x r with
  | zero =>
    cases h
    cases he
  | succ n ih =>
    rw [resolveName] at h
    split at h
    · cases h
      cases he
    · next b hb =>
      split at h
      · cases h
      · obtain ⟨hok, rfl⟩ := OpenTy.bindM_eq_ok_iff.mp h
        obtain ⟨hmem, rfl⟩ := mem_bindingsOf.mp (hb ▸ List.mem_singleton_self b : b ∈ s.bindingsOf x)
        rcases OpenTy.mem_keys_bind.mp he with he | ⟨y, hy, he⟩
        · exact ⟨b, hmem, .refl, he⟩
        · obtain ⟨b', hb', hreach, he⟩ := ih (hok y hy) he
          exact ⟨b', hb', .head (leads_of_bindingsOf hb hy) hreach, he⟩
    · cases h

theorem mentions_of_resolve {s : Store} {t r : OpenTy} (h : s.resolve t = .ok r) {e : Term} (he : s.Mentions r e) :
    s.Mentions t e := by
  rcases he with he | ⟨b, hb, ⟨x, hx, hxb⟩, -⟩
  · obtain ⟨hok, rfl⟩ := OpenTy.bindM_eq_ok_iff.mp h
    rcases OpenTy.mem_keys_bind.mp he with he | ⟨x, hx, he⟩
    · exact .inl he
    · obtain ⟨b, hb, hreach, he⟩ := reaches_of_resolveName (hok x hx) he
      exact .inr ⟨b, hb, ⟨x, hx, hreach⟩, he⟩
  -- nothing that is left in a resolved type leads anywhere
  · have hunbound := unbound_of_resolve h hx
    rcases hxb.cases_head with rfl | ⟨z, hz, -⟩
    · exact absurd rfl (hunbound b hb)
    · exact absurd hz hunbound.not_leads

end Store

namespace Context

def Sees (c : Context) (t : OpenTy) (j : Judgment) : Prop := ∃ e, c.store.Mentions t e ∧ c.judgment? e = some j

/-- A judgment that is before `t`: on a key of it, or of the type of one that is before it. -/
def Faces (c : Context) (t : OpenTy) (j : Judgment) : Prop :=
  ∃ i, c.Sees t i ∧ ReflTransGen (fun i j => c.Sees i.type j) i j

def Circular (c : Context) : Prop := ∃ j, c.Faces j.type j

theorem Sees.mem {c : Context} {t : OpenTy} {j : Judgment} (h : c.Sees t j) : j ∈ c.judgments := by
  obtain ⟨e, -, he⟩ := h
  exact List.mem_of_find?_eq_some he

theorem Sees.later {c d : Context} (h : Later c d) {t : OpenTy} {j : Judgment} (hj : c.Sees t j) : d.Sees t j := by
  obtain ⟨e, he, hj⟩ := hj
  exact ⟨e, he.mono h.store, h.judgments e j hj⟩

theorem Circular.later {c d : Context} (h : Later c d) (hc : c.Circular) : d.Circular := by
  obtain ⟨j, i, hi, hij⟩ := hc
  exact ⟨j, i, hi.later h, ReflTransGen.mono (fun _ _ => Sees.later h) _ _ hij⟩

open Classical in
noncomputable def outlook (c : Context) (t : OpenTy) : Finset Judgment := c.judgments.toFinset.filter (c.Faces t)

theorem mem_outlook {c : Context} {t : OpenTy} {j : Judgment} : j ∈ c.outlook t ↔ c.Faces t j := by
  simp only [outlook, Finset.mem_filter, List.mem_toFinset, and_iff_right_iff_imp]
  rintro ⟨i, hi, hij⟩
  rcases hij.cases_tail with rfl | ⟨k, -, hk⟩
  · exact hi.mem
  · exact hk.mem

theorem outlook_congr {c d : Context} (hs : d.store = c.store) (hj : d.judgments = c.judgments) (t : OpenTy) :
    d.outlook t = c.outlook t := by
  obtain ⟨_, _, _, store, judgments, _⟩ := d
  cases hs
  cases hj
  rfl

theorem outlook_subset {c : Context} {t t' : OpenTy} (h : ∀ e, c.store.Mentions t' e → c.store.Mentions t e) :
    c.outlook t' ⊆ c.outlook t := by
  intro j hj
  obtain ⟨i, ⟨e, he, hi⟩, hij⟩ := mem_outlook.mp hj
  exact mem_outlook.mpr ⟨i, ⟨e, h e he, hi⟩, hij⟩

theorem outlook_ssubset {c : Context} (hc : ¬c.Circular) {t : OpenTy} {j : Judgment} (hj : c.Sees t j) :
    c.outlook j.type ⊂ c.outlook t := by
  refine Finset.ssubset_iff_subset_ne.mpr ⟨fun k hk => ?_, fun heq => hc ⟨j, ?_⟩⟩
  · obtain ⟨i, hi, hik⟩ := mem_outlook.mp hk
    exact mem_outlook.mpr ⟨j, hj, .head hi hik⟩
  · rw [← mem_outlook, heq, mem_outlook]
    exact ⟨j, hj, .refl⟩

theorem card_outlook_lt {c : Context} (hc : ¬c.Circular) {t r : OpenTy} {e : Term} {j : Judgment} (he : e ∈ t.keys)
    (hj : c.judgment? e = some j) (hr : c.store.resolve j.type = .ok r) : (c.outlook r).card < (c.outlook t).card := by
  have hle := Finset.card_le_card (outlook_subset fun f => Store.mentions_of_resolve (e := f) hr)
  exact Nat.lt_of_le_of_lt hle (Finset.card_lt_card (outlook_ssubset hc ⟨e, .inl he, hj⟩))

end Context

end IndexedTyping
