import IndexedTyping.Proofs.Store.Resolution
import Mathlib.Data.List.Nodup

/-!
The stores that come about by binding one unknown after the other. A value mentions no unknown that was bound before
it, so resolving only ever moves on to later bindings, and the one way to go around in a circle is a binding that
mentions its own unknown.
-/

namespace IndexedTyping

def Binding.Loops (b : Binding) : Prop := b.name ∈ b.value.unknowns

namespace Store

def names (s : Store) : List String := s.map (·.name)

structure Triangular (strict : Bool) (s : Store) : Prop where
  nodup : s.names.Nodup
  forward : s.Pairwise fun b c => b.name ∉ c.value.unknowns
  loops : ∀ b ∈ s, b.Loops → strict = false ∧ b.value.unknowns = [b.name]

theorem unbound_iff {s : Store} {x : String} : s.Unbound x ↔ x ∉ s.names := by
  simp [Unbound, names]

theorem loops_of_refuses {strict : Bool} {b : Binding} (hb : refuses strict b = true) : b.Loops :=
  List.contains_iff_mem.mp (Bool.and_eq_true_iff.mp hb).1

theorem loops_of_not_refuses {strict : Bool} {b : Binding} (hb : refuses strict b = false) (hl : b.Loops) :
    strict = false ∧ b.value.unknowns = [b.name] := by
  have hmem : b.value.unknowns.contains b.name = true := List.contains_iff_mem.mpr hl
  rw [refuses, hmem, Bool.true_and, Bool.or_eq_false_iff, decide_eq_false_iff_not] at hb
  refine ⟨hb.1, ?_⟩
  match hu : b.value.unknowns with
  | [] => simp [hu] at hmem
  | [x] => simp [hu] at hmem; rw [hmem]
  | _ :: _ :: _ => simp [hu] at hb

namespace Triangular

variable {strict : Bool} {s : Store}

theorem nil : Triangular strict [] := ⟨.nil, .nil, by simp⟩

theorem append {b : Binding} (h : Triangular strict s) (hname : s.Unbound b.name)
    (hvalue : ∀ y ∈ b.value.unknowns, s.Unbound y) (hb : refuses strict b = false) : Triangular strict (s ++ [b]) where
  nodup := by
    rw [names, List.map_append]
    exact h.nodup.append (List.nodup_singleton _) (by simpa using unbound_iff.mp hname)
  forward := by
    refine List.pairwise_append.mpr ⟨h.forward, List.pairwise_singleton _ _, fun c hc d hd => ?_⟩
    cases List.mem_singleton.mp hd
    exact fun hmem => hvalue c.name hmem c hc rfl
  loops c hc hl := by
    rcases List.mem_append.mp hc with hc | hc
    · exact h.loops c hc hl
    · cases List.mem_singleton.mp hc
      exact loops_of_not_refuses hb hl

theorem length_bindingsOf_le (h : Triangular strict s) (x : String) : (s.bindingsOf x).length ≤ 1 := by
  have hp : (s.bindingsOf x).Pairwise fun b c => b.name ≠ c.name := (List.pairwise_map.mp h.nodup).filter _
  have hname : ∀ b ∈ s.bindingsOf x, b.name = x := fun b hb => (mem_bindingsOf.mp hb).2
  generalize s.bindingsOf x = bs at hp hname
  match bs with
  | [] => simp
  | [b] => simp
  | b :: c :: _ =>
    have hbc := List.rel_of_pairwise_cons hp List.mem_cons_self
    exact absurd ((hname b (by simp)).trans (hname c (by simp)).symm) hbc

theorem name_notMem (h : Triangular strict s) {pre post : Store} {b : Binding} (hs : s = pre ++ b :: post) :
    b.name ∉ pre.names := by
  have hd := h.nodup
  rw [hs, names, List.map_append, List.map_cons] at hd
  exact fun hmem => (List.nodup_append'.mp hd).2.2 hmem List.mem_cons_self

theorem lt_of_leads (h : Triangular strict s) {x y : String} (hl : s.Leads x y) :
    x = y ∨ s.names.idxOf x < s.names.idxOf y := by
  obtain ⟨b, hb, rfl, hy⟩ := hl
  obtain ⟨pre, post, rfl⟩ := List.append_of_mem hb
  have hnames : names (pre ++ b :: post) = names pre ++ b.name :: names post := by simp [names]
  have hx : b.name ∉ names pre := h.name_notMem rfl
  have hy' : y ∉ names pre := by
    intro hmem
    obtain ⟨c, hc, rfl⟩ := List.mem_map.mp hmem
    exact (List.pairwise_append.mp h.forward).2.2 c hc b List.mem_cons_self hy
  rw [hnames, List.idxOf_append_of_notMem hx, List.idxOf_append_of_notMem hy', List.idxOf_cons_self]
  by_cases hxy : b.name = y
  · exact .inl hxy
  · rw [List.idxOf_cons_ne _ hxy]
    exact .inr (by omega)

theorem le_of_reflTransGen (h : Triangular strict s) {x y : String} (hl : Relation.ReflTransGen s.Leads x y) :
    s.names.idxOf x ≤ s.names.idxOf y := by
  induction hl with
  | refl => exact Nat.le_refl _
  | tail _ hyz ih =>
    rcases h.lt_of_leads hyz with rfl | hlt
    · exact ih
    · exact Nat.le_trans ih (Nat.le_of_lt hlt)

theorem leads_self_of_transGen (h : Triangular strict s) {x : String} (hc : Relation.TransGen s.Leads x x) :
    s.Leads x x := by
  obtain ⟨y, hxy, hyx⟩ := Relation.TransGen.head'_iff.mp hc
  rcases h.lt_of_leads hxy with rfl | hlt
  · exact hxy
  · exact absurd (h.le_of_reflTransGen hyx) (Nat.not_le_of_lt hlt)

theorem clear_iff (h : Triangular strict s) {x : String} :
    s.Clear x ↔ ∀ b ∈ s, b.Loops → ¬Relation.ReflTransGen s.Leads x b.name := by
  constructor
  · intro hx b hb hl hreach
    exact (hx b.name hreach).2 (.single ⟨b, hb, rfl, hl⟩)
  · intro hx y hy
    refine ⟨h.length_bindingsOf_le y, fun hc => ?_⟩
    obtain ⟨b, hb, rfl, hl⟩ := h.leads_self_of_transGen hc
    exact hx b hb hl hy

theorem not_ambiguous (h : Triangular strict s) {t : OpenTy} (x : String) : s.resolve t ≠ .error (.ambiguous x) := by
  intro hr
  rcases resolve_error hr with ⟨b, hb⟩ | ⟨y, -, hy⟩
  · cases hb
  · exact absurd (h.length_bindingsOf_le y) (Nat.not_le_of_lt hy)

theorem resolve_fails_iff (h : Triangular strict s) {t : OpenTy} :
    (∃ b, s.resolve t = .error (.cyclic b)) ↔ ∃ b ∈ s, b.Loops ∧ s.Reaches t b.name := by
  constructor
  · rintro ⟨b, hb⟩
    by_contra hno
    obtain ⟨r, hr⟩ : ∃ r, s.resolve t = .ok r := by
      refine exists_resolve_iff.mpr fun x hx => h.clear_iff.mpr fun c hc hl hreach => ?_
      exact hno ⟨c, hc, hl, x, hx, hreach⟩
    cases hb.symm.trans hr
  · rintro ⟨b, hb, hl, x, hx, hreach⟩
    cases hr : s.resolve t with
    | ok r => exact absurd hreach (h.clear_iff.mp (exists_resolve_iff.mp ⟨r, hr⟩ x hx) b hb hl)
    | error e =>
      rcases resolve_error hr with ⟨c, rfl⟩ | ⟨y, rfl, -⟩
      · exact ⟨c, rfl⟩
      · exact absurd hr (h.not_ambiguous y)

theorem exists_resolve (h : Triangular true s) (t : OpenTy) : ∃ r, s.resolve t = .ok r := by
  refine exists_resolve_iff.mpr fun x _ => h.clear_iff.mpr fun b hb hl => ?_
  exact absurd (h.loops b hb hl).1 (by decide)

theorem of_insert {x : String} {t : OpenTy} {b : Binding} {s' : Store} (h : Triangular strict s)
    (hb : s.binding x t = .ok b) (hs : s.insert strict b = .ok s') : Triangular strict s' := by
  obtain ⟨hname, hvalue⟩ := binding_eq_ok hb
  obtain ⟨hrefuses, rfl⟩ := insert_eq_ok hs
  refine h.append (unbound_of_resolve hname ?_) (fun y hy => unbound_of_resolve hvalue hy) hrefuses
  exact List.mem_singleton_self b.name

end Triangular

end Store

end IndexedTyping
