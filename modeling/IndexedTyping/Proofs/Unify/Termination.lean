import IndexedTyping.Proofs.Store.Triangular
import IndexedTyping.Proofs.Unify.Circle
import IndexedTyping.Proofs.Unify.Depth
import Mathlib.Data.Prod.Lex

/-!
Unification comes to an end, unless it comes to judgments that lead round in a circle.

Every call binds an unknown, of which there are finitely many, or goes to judgments with fewer before them, or is about
parts of the types. Only with a circle there is nothing that gets less.
-/

namespace IndexedTyping

def CheckError.Proper (e : CheckError) : Prop :=
  e.fault ∈ [Fault.mismatch, .unbound, .ambiguous, .cyclic, .notUnknown, .unsupported]

theorem CheckError.proper_or_tooDeep (e : CheckError) : e.Proper ∨ ∃ a b, e = .tooDeep a b := by
  cases e <;> simp [Proper, fault]

namespace CheckM

variable {α β : Type}

def CutOff (r : EStateM.Result CheckError Context α) : Prop := ∃ a b d, r = .error (.tooDeep a b) d ∧ d.Circular

def SettlesOrCircles (m : Nat → CheckM α) (c : Context) : Prop :=
  Settles m c (fun _ _ => True) (fun e _ => e.Proper) ∨ ∃ N, ∀ n ≥ N, CutOff (m n c)

namespace SettlesOrCircles

variable {m : Nat → CheckM α} {c : Context}

theorem of_const {m : CheckM α} (h : ∀ e d, m c = .error e d → e.Proper) : SettlesOrCircles (fun _ => m) c := by
  refine .inl (settles_of_ends ?_)
  cases hr : m c with
  | ok a d => trivial
  | error e d => exact h e d hr

theorem bind {k : Nat → α → CheckM β} (hm : SettlesOrCircles m c)
    (hk : ∀ n a d, m n c = .ok a d → SettlesOrCircles (fun i => k i a) d) :
    SettlesOrCircles (fun n => m n >>= k n) c := by
  rcases hm with ⟨N, r, hr, hend⟩ | ⟨N, hcut⟩
  · cases r with
    | error e d => exact .inl ⟨N, .error e d, fun n hn => bind_error (hr n hn), hend⟩
    | ok a d =>
      rcases hk N a d (hr N (Nat.le_refl N)) with hsettles | ⟨N', hcut⟩
      · exact .inl (Settles.bind ⟨N, .ok a d, hr, hsettles⟩)
      · refine .inr ⟨max N N', fun n hn => ?_⟩
        change CutOff ((m n >>= k n) c)
        rw [bind_ok (hr n (Nat.le_trans (Nat.le_max_left N N') hn))]
        exact hcut n (Nat.le_trans (Nat.le_max_right N N') hn)
  · refine .inr ⟨N, fun n hn => ?_⟩
    obtain ⟨a, b, d, h, hd⟩ := hcut n hn
    exact ⟨a, b, d, bind_error h, hd⟩

theorem of_succ {m' : Nat → CheckM α} (h : SettlesOrCircles m' c) (hm : ∀ n, m (n + 1) c = m' n c) :
    SettlesOrCircles m c := by
  rcases h with h | ⟨N, hcut⟩
  · exact .inl (h.of_succ hm)
  · refine .inr ⟨N + 1, fun n hn => ?_⟩
    cases n with
    | zero => exact absurd hn (Nat.not_succ_le_zero N)
    | succ n => exact hm n ▸ hcut n (Nat.le_of_succ_le_succ hn)

theorem of_circular (hc : c.Circular) (a b : OpenTy) : SettlesOrCircles (fun n => unifyWithin n a b) c := by
  by_cases h : ∃ n, ∀ l r d, unifyWithin n a b c ≠ .error (.tooDeep l r) d
  · obtain ⟨n, hn⟩ := h
    refine .inl ⟨n, unifyWithin n a b c, fun i hi => ?_, ?_⟩
    · refine (deepens_unifyWithin hi a b c).resolve_right ?_
      rintro ⟨l, r, d, hd⟩
      exact hn l r d hd
    · cases hr : unifyWithin n a b c with
      | ok _ d => trivial
      | error e d =>
        refine e.proper_or_tooDeep.resolve_right ?_
        rintro ⟨l, r, rfl⟩
        exact hn l r d hr
  · simp only [not_exists, not_forall, not_not] at h
    refine .inr ⟨0, fun n _ => ?_⟩
    obtain ⟨l, r, d, hd⟩ := h n
    have hlater := Context.Later.law.obeys_unifyWithin n a b c
    rw [hd] at hlater
    exact ⟨l, r, d, hd, hc.later hlater.1⟩

end SettlesOrCircles

theorem settles_get (c : Context) : SettlesOrCircles (fun _ => get) c := .of_const fun _ _ h => by cases h

theorem settles_enter (phase message : String) (c : Context) : SettlesOrCircles (fun _ => enter phase message) c :=
  .of_const fun _ _ h => by cases h

theorem settles_leave (phase message : String) (c : Context) : SettlesOrCircles (fun _ => leave phase message) c :=
  .of_const fun _ _ h => by cases h

theorem proper_of_resolve {s : Store} {t : OpenTy} {e : CheckError} (h : s.resolve t = .error e) : e.Proper := by
  rcases Store.resolve_error h with ⟨b, rfl⟩ | ⟨y, rfl, -⟩ <;> simp [CheckError.Proper, CheckError.fault]

theorem proper_of_resolve_run {t : OpenTy} {c d : Context} {e : CheckError} (h : resolve t c = .error e d) :
    e.Proper := by
  rw [resolve_run] at h
  cases hr : c.store.resolve t with
  | ok r => rw [hr] at h; cases h
  | error err => rw [hr] at h; cases h; exact proper_of_resolve hr

theorem proper_of_typeOf {f : Term} {c d : Context} {e : CheckError} (h : typeOf f c = .error e d) : e.Proper := by
  rw [typeOf_run] at h
  cases hj : c.judgment? f with
  | none =>
    rw [hj] at h
    cases h
    simp [CheckError.Proper, CheckError.fault]
  | some j =>
    rw [hj] at h
    exact proper_of_resolve_run h

theorem proper_of_bindUnknown {x : String} {t : OpenTy} {c d : Context} {e : CheckError}
    (h : bindUnknown x t c = .error e d) : e.Proper := by
  obtain ⟨-, hb | ⟨b, -, hs⟩⟩ := bindUnknown_eq_error h
  · rcases Store.binding_eq_error hb with hr | hr | ⟨a, -, -, rfl⟩
    · exact proper_of_resolve hr
    · exact proper_of_resolve hr
    · simp [CheckError.Proper, CheckError.fault]
  · obtain ⟨-, rfl⟩ := Store.insert_eq_error hs
    simp [CheckError.Proper, CheckError.fault]

theorem settles_resolve (t : OpenTy) (c : Context) : SettlesOrCircles (fun _ => resolve t) c :=
  .of_const fun _ _ => proper_of_resolve_run

theorem settles_typeOf (f : Term) (c : Context) : SettlesOrCircles (fun _ => typeOf f) c :=
  .of_const fun _ _ => proper_of_typeOf

theorem settles_bindUnknown (x : String) (t : OpenTy) (c : Context) : SettlesOrCircles (fun _ => bindUnknown x t) c :=
  .of_const fun _ _ => proper_of_bindUnknown

end CheckM

structure Context.Within (K : Term → Prop) (U : Finset String) (c : Context) : Prop where
  store : c.store.Over K (· ∈ U)
  judgments : ∀ j ∈ c.judgments, j.type.Over K (· ∈ U)

def Store.unbound (U : Finset String) (s : Store) : Finset String := U.filter (· ∉ s.names)

structure Binds (K : Term → Prop) (U : Finset String) (c d : Context) : Prop where
  within : d.Within K U
  judgments : d.judgments = c.judgments
  store : d.store = c.store ∨ (d.store.unbound U).card < (c.store.unbound U).card

namespace Binds

variable {K : Term → Prop} {U : Finset String} {c d e : Context}

theorem refl (hc : c.Within K U) : Binds K U c c := ⟨hc, rfl, .inl rfl⟩

theorem trans (h : Binds K U c d) (h' : Binds K U d e) : Binds K U c e where
  within := h'.within
  judgments := h'.judgments.trans h.judgments
  store := by
    rcases h.store with hcd | hcd <;> rcases h'.store with hde | hde
    · exact .inl (hde.trans hcd)
    · exact .inr (hcd ▸ hde)
    · exact .inr (hde ▸ hcd)
    · exact .inr (hde.trans hcd)

end Binds

namespace CheckM

variable {K : Term → Prop} {U : Finset String}

def BindsWithin (K : Term → Prop) (U : Finset String) (m : CheckM Unit) : Prop :=
  ∀ c, c.Within K U → Ends (m c) (fun _ d => Binds K U c d) fun _ d => Binds K U c d

theorem bindsWithin_seq {m k : CheckM Unit} (hm : BindsWithin K U m) (hk : BindsWithin K U k) :
    BindsWithin K U (do m; k) := by
  intro c hc
  rw [ends_bind]
  refine (hm c hc).mono (fun _ d hd => ?_) fun _ _ h => h
  exact (hk d hd.within).mono (fun _ _ he => hd.trans he) fun _ _ he => hd.trans he

theorem bindsWithin_bindUnknown {x : String} {t : OpenTy} (hx : x ∈ U) (ht : t.Over K (· ∈ U)) :
    BindsWithin K U (bindUnknown x t) := by
  intro c hc
  rw [bindUnknown_run]
  cases hb : c.store.binding x t with
  | error err => exact .refl hc
  | ok b =>
    dsimp only
    cases hs : c.store.insert c.options.strictOccurs b with
    | error err => exact ⟨⟨hc.store, hc.judgments⟩, rfl, .inl rfl⟩
    | ok s =>
      refine ⟨⟨hc.store.insert hx ht hb hs, hc.judgments⟩, rfl, .inr (Finset.card_lt_card ?_)⟩
      have hname := (Store.binding_eq_ok hb).1
      have hU : b.name ∈ U := hc.store.resolve (t := .unknown x) hx hname
      have hfree : b.name ∉ c.store.names := Store.unbound_iff.mp (Store.unbound_of_resolve hname List.mem_cons_self)
      obtain ⟨-, rfl⟩ := Store.insert_eq_ok hs
      have hnames : ∀ y, y ∈ Store.names (c.store ++ [b]) ↔ y ∈ c.store.names ∨ y = b.name := by
        simp [Store.names]
      refine Finset.ssubset_iff_subset_ne.mpr ⟨fun y hy => ?_, fun heq => ?_⟩
      · simp only [Store.unbound, Finset.mem_filter, hnames, not_or] at hy ⊢
        exact ⟨hy.1, hy.2.1⟩
      · have hmem : b.name ∈ c.store.unbound U := Finset.mem_filter.mpr ⟨hU, hfree⟩
        rw [← heq, Store.unbound, Finset.mem_filter, hnames] at hmem
        exact hmem.2 (.inr rfl)

theorem ends_resolve {c : Context} (hc : c.Within K U) {t : OpenTy} (ht : t.Over K (· ∈ U)) :
    Ends (resolve t c) (fun r d => d = c ∧ r.Over K (· ∈ U)) fun _ d => d = c := by
  rw [resolve_run]
  cases hr : c.store.resolve t with
  | ok r => exact ⟨rfl, hc.store.resolve ht hr⟩
  | error e => rfl

theorem ends_typeOf {c : Context} (hc : c.Within K U) (e : Term) :
    Ends (typeOf e c) (fun r d => d = c ∧ r.Over K (· ∈ U)) fun _ d => d = c := by
  rw [typeOf_run]
  cases hj : c.judgment? e with
  | some j => exact ends_resolve hc (hc.judgments j (List.mem_of_find?_eq_some hj))
  | none => rfl

theorem bindsWithin_congruence : Congruence K (· ∈ U) fun m _ => BindsWithin K U m where
  mismatch _ _ _ hc := .refl hc
  bindUnknown := bindsWithin_bindUnknown
  seq := bindsWithin_seq
  typeOf {e k _} _ hk c hc := by
    rw [ends_bind]
    refine (ends_typeOf hc e).mono ?_ fun _ _ h => by rw [h]; exact .refl hc
    rintro r _ ⟨rfl, hr⟩
    exact hk r hr _ hc
  resolve {t k _} ht hk c hc := by
    rw [ends_bind]
    refine (ends_resolve hc ht).mono ?_ fun _ _ h => by rw [h]; exact .refl hc
    rintro r _ ⟨rfl, hr⟩
    exact hk r hr _ hc
  differ {a b m _} hm c hc := by
    rw [ends_bind]
    change Ends ((if a.same c.options.budget b then pure () else m : CheckM Unit) c) _ _
    split
    · exact .refl hc
    · exact hm c hc
  enter _ _ c hc := ⟨⟨hc.store, hc.judgments⟩, rfl, .inl rfl⟩
  leave _ _ c hc := ⟨⟨hc.store, hc.judgments⟩, rfl, .inl rfl⟩

theorem bindsWithin_unifyWithin (n : Nat) {a b : OpenTy} (ha : a.Over K (· ∈ U))
    (hb : b.Over K (· ∈ U)) : BindsWithin K U (unifyWithin n a b) := by
  induction n generalizing a b with
  | zero => exact fun _ hc => .refl hc
  | succ n ih => exact bindsWithin_congruence.unifyWithin_succ n n ih ha hb

end CheckM

namespace Context.Within

variable {K : Term → Prop} {U : Finset String} {c d : Context}

theorem over_of_typeOf (hc : c.Within K U) {e : Term} {a : OpenTy} (h : CheckM.typeOf e c = .ok a d) :
    a.Over K (· ∈ U) := by
  have hends := CheckM.ends_typeOf hc e
  rw [h] at hends
  exact hends.2

theorem binds_of_unifyWithin (hc : c.Within K U) {n : Nat} {a b : OpenTy} (ha : a.Over K (· ∈ U))
    (hb : b.Over K (· ∈ U)) (h : CheckM.unifyWithin n a b c = .ok () d) : Binds K U c d := by
  have hends := CheckM.bindsWithin_unifyWithin n ha hb c hc
  rwa [h] at hends

end Context.Within

/-- A step between composite types counts as much as one that leaves them at their side. -/
noncomputable def OpenTy.span (a b : OpenTy) : Nat := 2 * (sizeOf a + sizeOf b) + a.isComposite.toNat

theorem OpenTy.span_lt {a b a' b' : OpenTy} (h : sizeOf a' < sizeOf a) (h' : sizeOf b' < sizeOf b) :
    a'.span b' < a.span b := by
  have := Bool.toNat_le a'.isComposite
  rw [span, span]
  omega

structure Encounter (K : Term → Prop) (U : Finset String) where
  context : Context
  left : OpenTy
  right : OpenTy
  within : context.Within K U
  over_left : left.Over K (· ∈ U)
  over_right : right.Over K (· ∈ U)
  unbound_left : ∀ x ∈ left.unknowns, context.store.Unbound x
  unbound_right : ∀ x ∈ right.unknowns, context.store.Unbound x

def Context.Within.encounter {K : Term → Prop} {U : Finset String} {c : Context} (hc : c.Within K U)
    {a b a' b' : OpenTy} (ha : a.Over K (· ∈ U)) (hb : b.Over K (· ∈ U)) (ha' : c.store.resolve a = .ok a')
    (hb' : c.store.resolve b = .ok b') (t : Trace) : Encounter K U where
  context := { c with trace := t }
  left := a'
  right := b'
  within := ⟨hc.store, hc.judgments⟩
  over_left := hc.store.resolve ha ha'
  over_right := hc.store.resolve hb hb'
  unbound_left _ := Store.unbound_of_resolve ha'
  unbound_right _ := Store.unbound_of_resolve hb'

namespace Encounter

open CheckM OpenTy

variable {K : Term → Prop} {U : Finset String}

noncomputable def rank (U : Finset String) (c : Context) (a b : OpenTy) : Nat ×ₗ Nat ×ₗ Nat :=
  toLex ((c.store.unbound U).card, toLex ((c.outlook a).card + (c.outlook b).card, a.span b))

def Concludes (q : Encounter K U) : Prop :=
  SettlesOrCircles (fun n => unifyStep (unifyWithin n) q.left q.right) q.context

theorem settles_call {c : Context} {a b : OpenTy}
    (h : ∀ a' b', c.store.resolve a = .ok a' → c.store.resolve b = .ok b' → ∀ t,
      SettlesOrCircles (fun n => unifyStep (unifyWithin n) a' b') { c with trace := t }) :
    SettlesOrCircles (fun n => unifyWithin n a b) c := by
  refine SettlesOrCircles.of_succ ?_ fun n => rfl
  refine SettlesOrCircles.bind (settles_resolve a c) fun _ a' _ ha => ?_
  obtain ⟨rfl, ha⟩ := resolve_eq_ok ha
  refine SettlesOrCircles.bind (settles_resolve b _) fun _ b' d hb => ?_
  obtain ⟨rfl, hb⟩ := resolve_eq_ok hb
  refine SettlesOrCircles.bind (settles_get d) fun _ _ _ hget => ?_
  cases hget
  by_cases hsame : a'.same d.options.budget b' = true
  · simp only [hsame, if_true]
    exact .of_const fun _ _ h => by cases h
  · simp only [hsame]
    refine SettlesOrCircles.bind (settles_enter _ _ d) fun _ _ _ henter => ?_
    cases henter
    exact SettlesOrCircles.bind (h a' b' ha hb _) fun _ _ _ _ => settles_leave _ _ _

theorem concludes_call {r : Nat ×ₗ Nat ×ₗ Nat}
    (ih : ∀ q : Encounter K U, rank U q.context q.left q.right < r → q.Concludes) {c : Context} (hc : c.Within K U)
    {a b : OpenTy} (ha : a.Over K (· ∈ U)) (hb : b.Over K (· ∈ U))
    (hrank : ∀ a' b', c.store.resolve a = .ok a' → c.store.resolve b = .ok b' → rank U c a' b' < r) :
    SettlesOrCircles (fun n => unifyWithin n a b) c :=
  settles_call fun a' b' ha' hb' t => ih (hc.encounter ha hb ha' hb' t) (hrank a' b' ha' hb')

theorem rank_lt_of_store {c d : Context} (h : (d.store.unbound U).card < (c.store.unbound U).card)
    (a b a' b' : OpenTy) : rank U d a' b' < rank U c a b :=
  Prod.Lex.toLex_lt_toLex.mpr (.inl h)

theorem rank_lt_of_outlook {c d : Context} (hs : d.store = c.store) {a b a' b' : OpenTy}
    (h : (d.outlook a').card + (d.outlook b').card < (c.outlook a).card + (c.outlook b).card) :
    rank U d a' b' < rank U c a b := by
  refine Prod.Lex.toLex_lt_toLex.mpr (.inr ⟨by rw [hs], ?_⟩)
  exact Prod.Lex.toLex_lt_toLex.mpr (.inl h)

theorem rank_lt_of_span {c d : Context} (hs : d.store = c.store) {a b a' b' : OpenTy}
    (h : (d.outlook a').card + (d.outlook b').card ≤ (c.outlook a).card + (c.outlook b).card)
    (hspan : a'.span b' < a.span b) : rank U d a' b' < rank U c a b := by
  rcases Nat.lt_or_eq_of_le h with h | h
  · exact rank_lt_of_outlook hs h
  · refine Prod.Lex.toLex_lt_toLex.mpr (.inr ⟨by rw [hs], ?_⟩)
    exact Prod.Lex.toLex_lt_toLex.mpr (.inr ⟨h, hspan⟩)

section

variable {q : Encounter K U}
  (ih : ∀ r : Encounter K U, rank U r.context r.left r.right < rank U q.context q.left q.right → r.Concludes)
include ih

theorem concludes_part {d : Context} (hd : Binds K U q.context d) {a b : OpenTy} (ha : a ∈ q.left.parts)
    (hb : b ∈ q.right.parts) : SettlesOrCircles (fun n => unifyWithin n a b) d := by
  refine concludes_call ih hd.within (q.over_left.of_mem_parts ha) (q.over_right.of_mem_parts hb) ?_
  intro a' b' ha' hb'
  rcases hd.store with hs | hs
  · rw [hs, Store.resolve_eq_self fun x hx => q.unbound_left x (unknowns_subset_of_mem_parts ha hx)] at ha'
    rw [hs, Store.resolve_eq_self fun x hx => q.unbound_right x (unknowns_subset_of_mem_parts hb hx)] at hb'
    cases ha'
    cases hb'
    refine rank_lt_of_span hs ?_ (span_lt (sizeOf_lt_of_mem_parts ha) (sizeOf_lt_of_mem_parts hb))
    rw [Context.outlook_congr hs hd.judgments, Context.outlook_congr hs hd.judgments]
    exact Nat.add_le_add (Finset.card_le_card (Context.outlook_subset fun _ => Store.Mentions.of_mem_parts ha))
      (Finset.card_le_card (Context.outlook_subset fun _ => Store.Mentions.of_mem_parts hb))
  · exact rank_lt_of_store hs _ _ _ _

theorem concludes_types {d : Context} (hd : Binds K U q.context d) {e f : Term} (he : e ∈ q.left.keys)
    (hf : f ∈ q.right.keys) {a b : OpenTy} (ha : typeOf e d = .ok a d) (hb : typeOf f d = .ok b d) :
    SettlesOrCircles (fun n => unifyWithin n a b) d := by
  by_cases hcircle : d.Circular
  · exact .of_circular hcircle a b
  obtain ⟨-, i, hi, hia⟩ := typeOf_eq_ok ha
  obtain ⟨-, j, hj, hjb⟩ := typeOf_eq_ok hb
  refine concludes_call ih hd.within (hd.within.over_of_typeOf ha) (hd.within.over_of_typeOf hb) fun a' b' ha' hb' => ?_
  rcases hd.store with hs | hs
  · rw [Store.resolve_eq_self fun x => Store.unbound_of_resolve hia] at ha'
    rw [Store.resolve_eq_self fun x => Store.unbound_of_resolve hjb] at hb'
    cases ha'
    cases hb'
    apply rank_lt_of_outlook hs
    rw [← Context.outlook_congr hs hd.judgments q.left, ← Context.outlook_congr hs hd.judgments q.right]
    exact Nat.add_lt_add (Context.card_outlook_lt hcircle he hi hia) (Context.card_outlook_lt hcircle hf hj hjb)
  · exact rank_lt_of_store hs _ _ _ _

theorem concludes_swap (hl : q.left.isComposite = true) (hr : q.right.isComposite = false) :
    SettlesOrCircles (fun n => unifyWithin n q.right q.left) q.context := by
  refine concludes_call ih q.within q.over_right q.over_left fun a' b' ha' hb' => ?_
  rw [Store.resolve_eq_self q.unbound_right] at ha'
  rw [Store.resolve_eq_self q.unbound_left] at hb'
  cases ha'
  cases hb'
  refine rank_lt_of_span rfl (Nat.le_of_eq (Nat.add_comm _ _)) ?_
  simp only [span, hl, hr, Bool.toNat_true, Bool.toNat_false]
  omega

theorem concludes_move {m : (OpenTy → OpenTy → CheckM Unit) → CheckM Unit} (hm : Move q.left q.right m) :
    SettlesOrCircles (fun n => m (unifyWithin n)) q.context := by
  have start : Binds K U q.context q.context := .refl q.within
  have after : ∀ {n a b d}, a ∈ q.left.parts → b ∈ q.right.parts → unifyWithin n a b q.context = .ok () d →
      Binds K U q.context d := fun ha hb =>
    q.within.binds_of_unifyWithin (q.over_left.of_mem_parts ha) (q.over_right.of_mem_parts hb)
  cases hm with
  | left => exact settles_bindUnknown _ _ _
  | right => exact settles_bindUnknown _ _ _
  | parts hp hq hp' hq' =>
    refine (concludes_part ih start hp hq).bind fun n _ d hd => ?_
    exact concludes_part ih (after hp hq hd) hp' hq'
  | quantified he hf hp hq =>
    refine (settles_typeOf _ _).bind fun _ r _ hr => ?_
    obtain ⟨rfl, -⟩ := typeOf_eq_ok hr
    refine (settles_typeOf _ _).bind fun _ s _ hs => ?_
    obtain ⟨rfl, -⟩ := typeOf_eq_ok hs
    refine (concludes_types ih start he hf hr hs).bind fun n _ d hd => ?_
    have hbinds := q.within.binds_of_unifyWithin (q.within.over_of_typeOf hr) (q.within.over_of_typeOf hs) hd
    exact concludes_part ih hbinds hp hq
  | indexed he hf hp hq =>
    refine (concludes_part ih start hp hq).bind fun n _ d hd => ?_
    refine (settles_typeOf _ d).bind fun _ r _ hr => ?_
    obtain ⟨rfl, -⟩ := typeOf_eq_ok hr
    refine (settles_typeOf _ _).bind fun _ s _ hs => ?_
    obtain ⟨rfl, -⟩ := typeOf_eq_ok hs
    exact concludes_types ih (after hp hq hd) he hf hr hs
  | swap hl hr => exact concludes_swap ih hl hr
  | clash =>
    refine .of_const fun e d h => ?_
    cases h
    simp [CheckError.Proper, CheckError.fault]

end

theorem concludes (q : Encounter K U) : q.Concludes := by
  have hwf := InvImage.wf (fun q : Encounter K U => rank U q.context q.left q.right) wellFounded_lt
  induction q using hwf.induction with
  | _ q ih => exact concludes_move ih (unifyStep_move q.left q.right)

end Encounter

theorem Context.exists_within {K : Term → Prop} {c : Context} {a b : OpenTy} (hs : c.store.Over K fun _ => True)
    (hj : ∀ j ∈ c.judgments, j.type.Over K fun _ => True) (ha : a.Over K fun _ => True) (hb : b.Over K fun _ => True) :
    ∃ U, c.Within K U ∧ a.Over K (· ∈ U) ∧ b.Over K (· ∈ U) := by
  let U := (c.store.flatMap (fun b => b.name :: b.value.unknowns) ++ c.judgments.flatMap (·.type.unknowns) ++
    (a.unknowns ++ b.unknowns)).toFinset
  have hU : ∀ x, x ∈ U ↔ ((∃ b ∈ c.store, x = b.name ∨ x ∈ b.value.unknowns) ∨
      ∃ j ∈ c.judgments, x ∈ j.type.unknowns) ∨ x ∈ a.unknowns ∨ x ∈ b.unknowns := by
    simp [U, or_assoc]
  have hover : ∀ {t : OpenTy}, t.Over K (fun _ => True) → (∀ x ∈ t.unknowns, x ∈ U) → t.Over K (· ∈ U) := fun ht hx =>
    OpenTy.over_iff.mpr ⟨(OpenTy.over_iff.mp ht).1, hx⟩
  refine ⟨U, ⟨fun b hb => ⟨?_, hover (hs b hb).2 fun x hx => ?_⟩, fun j h => hover (hj j h) fun x hx => ?_⟩,
    hover ha fun x hx => ?_, hover hb fun x hx => ?_⟩
  · exact (hU _).mpr (.inl (.inl ⟨b, hb, .inl rfl⟩))
  · exact (hU x).mpr (.inl (.inl ⟨b, hb, .inr hx⟩))
  · exact (hU x).mpr (.inl (.inr ⟨j, h, hx⟩))
  · exact (hU x).mpr (.inr (.inl hx))
  · exact (hU x).mpr (.inr (.inr hx))

theorem CheckM.settles_unifyWithin (a b : OpenTy) (c : Context) : SettlesOrCircles (fun n => unifyWithin n a b) c := by
  obtain ⟨U, hc, ha, hb⟩ := c.exists_within (fun b _ => ⟨trivial, b.value.over_true⟩) (fun j _ => j.type.over_true)
    a.over_true b.over_true
  exact Encounter.settles_call fun a' b' ha' hb' t => (hc.encounter ha hb ha' hb' t).concludes

end IndexedTyping
