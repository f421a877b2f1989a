import IndexedTyping.Proofs.Store.Triangular

namespace IndexedTyping

namespace Binding

def replace (b : Binding) (t : OpenTy) : OpenTy := t.bind fun x => if x = b.name then b.value else .unknown x

theorem replace_of_notMem {b : Binding} {t : OpenTy} (h : b.name ∉ t.unknowns) : b.replace t = t := by
  apply OpenTy.bind_eq_self
  intro x hx
  rw [if_neg]
  rintro rfl
  exact h hx

theorem replace_self (b : Binding) : b.replace (.unknown b.name) = b.value := if_pos rfl

end Binding

namespace Store

def apply (s : Store) (t : OpenTy) : OpenTy := s.foldl (fun t b => b.replace t) t

@[simp] theorem apply_nil (t : OpenTy) : apply [] t = t := rfl

@[simp] theorem apply_cons (b : Binding) (s : Store) (t : OpenTy) : apply (b :: s) t = apply s (b.replace t) := rfl

theorem apply_append (s r : Store) (t : OpenTy) : apply (s ++ r) t = apply r (apply s t) := List.foldl_append

theorem apply_eq_bind (s : Store) (t : OpenTy) : s.apply t = t.bind fun x => s.apply (.unknown x) := by
  induction s generalizing t with
  | nil => exact (OpenTy.bind_unknown t).symm
  | cons b s ih =>
    rw [apply_cons, ih, Binding.replace, OpenTy.bind_bind]
    congr 1
    funext x
    rw [apply_cons, ih (b.replace _)]
    rfl

@[simp] theorem apply_ground (s : Store) (t : Ty) : s.apply (.ground t) = .ground t := by rw [apply_eq_bind]; rfl

@[simp] theorem apply_fn (s : Store) (a b : OpenTy) : s.apply (.fn a b) = .fn (s.apply a) (s.apply b) := by
  rw [apply_eq_bind, apply_eq_bind s a, apply_eq_bind s b]
  rfl

@[simp] theorem apply_app (s : Store) (a b : OpenTy) : s.apply (.app a b) = .app (s.apply a) (s.apply b) := by
  rw [apply_eq_bind, apply_eq_bind s a, apply_eq_bind s b]
  rfl

@[simp] theorem apply_all (s : Store) (x : String) (l : Option Location) (a : OpenTy) :
    s.apply (.all x l a) = .all x l (s.apply a) := by
  rw [apply_eq_bind, apply_eq_bind s a]
  rfl

@[simp] theorem apply_indexed (s : Store) (a : OpenTy) (e : Term) :
    s.apply (.indexed a e) = .indexed (s.apply a) e := by
  rw [apply_eq_bind, apply_eq_bind s a]
  rfl

theorem apply_eq_of_prefix {s r : Store} (h : s <+: r) {a b : OpenTy} (hab : s.apply a = s.apply b) :
    r.apply a = r.apply b := by
  obtain ⟨new, rfl⟩ := h
  rw [apply_append, apply_append, hab]

theorem apply_eq_self {s : Store} {t : OpenTy} (h : ∀ x ∈ t.unknowns, s.Unbound x) : s.apply t = t := by
  induction s with
  | nil => rfl
  | cons b s ih =>
    rw [apply_cons, Binding.replace_of_notMem fun hx => h b.name hx b List.mem_cons_self rfl]
    exact ih fun x hx c hc => h x hx c (List.mem_cons_of_mem b hc)

theorem apply_of_notMem {s : Store} {x : String} (h : x ∉ s.names) : s.apply (.unknown x) = .unknown x := by
  apply apply_eq_self
  intro y hy
  cases List.mem_singleton.mp hy
  exact unbound_iff.mpr h

theorem exists_unknown_of_apply {s : Store} {x : String} {t : OpenTy} (h : s.apply t = .unknown x) :
    ∃ y, t = .unknown y := by
  cases t with
  | unknown y => exact ⟨y, rfl⟩
  | _ => simp at h

def Satisfies (s r : Store) : Prop := ∀ b ∈ r, s.apply (.unknown b.name) = s.apply b.value

namespace Satisfies

variable {s r q : Store}

theorem apply_apply (h : s.Satisfies r) (t : OpenTy) : s.apply (r.apply t) = s.apply t := by
  induction r generalizing t with
  | nil => rfl
  | cons b r ih =>
    obtain ⟨hb, hr⟩ := List.forall_mem_cons.mp h
    rw [apply_cons, ih hr, Binding.replace, s.apply_eq_bind, OpenTy.bind_bind, s.apply_eq_bind t]
    congr 1
    funext x
    split
    · next hx => rw [hx, hb, ← s.apply_eq_bind]
    · rfl

theorem trans (hqs : q.Satisfies s) (hsr : s.Satisfies r) : q.Satisfies r := fun b hb => by
  rw [← hqs.apply_apply, hsr b hb, hqs.apply_apply]

theorem of_prefix (h : s.Satisfies r) (hq : s <+: q) : q.Satisfies r := fun b hb => apply_eq_of_prefix hq (h b hb)

end Satisfies

namespace Triangular

variable {strict : Bool} {s : Store}

theorem bindingsOf_eq_singleton (h : Triangular strict s) {b : Binding} (hb : b ∈ s) : s.bindingsOf b.name = [b] := by
  have hmem : b ∈ s.bindingsOf b.name := mem_bindingsOf.mpr ⟨hb, rfl⟩
  have hlen := h.length_bindingsOf_le b.name
  match hbs : s.bindingsOf b.name with
  | [] => simp [hbs] at hmem
  | [c] => rw [hbs, List.mem_singleton] at hmem; rw [hmem]
  | _ :: _ :: _ => simp [hbs] at hlen

theorem notMem_names (h : Triangular strict s) {pre post : Store} {b : Binding} (hs : s = pre ++ b :: post)
    (hb : ¬b.Loops) {y : String} (hy : y ∈ b.value.unknowns) : y ∉ (pre ++ [b]).names := by
  intro hmem
  subst hs
  obtain ⟨c, hc, rfl⟩ := List.mem_map.mp hmem
  rcases List.mem_append.mp hc with hc | hc
  · exact (List.pairwise_append.mp h.forward).2.2 c hc b List.mem_cons_self hy
  · cases List.mem_singleton.mp hc
    exact hb hy

theorem apply_of_resolveName (h : Triangular strict s) {n : Nat} {pre suf : Store} (hs : s = pre ++ suf)
    {seen : List String} (hf : s.Fits n seen) {x : String} {r : OpenTy} (hx : x ∉ pre.names)
    (hr : s.resolveName n seen x = .ok r) : suf.apply (.unknown x) = r := by
  induction n generalizing pre suf seen x r with
  | zero => exact hf.not_zero.elim
  | succ n ih =>
    have hclear := h.clear_iff.mp (clear_of_resolveName hf hr).1
    obtain ⟨m, hm, ⟨hb, hok⟩ | ⟨b, -, -, herr⟩ | ⟨b, hb, -, hfit, hbind⟩ | ⟨-, herr⟩⟩ := resolveName_cases hf x
    · cases hok.symm.trans hr
      refine apply_of_notMem fun hmem => unbound_iff.mp (bindingsOf_eq_nil.mp hb) ?_
      rw [hs, names, List.map_append]
      exact List.mem_append_right _ hmem
    · cases herr.symm.trans hr
    · cases hm
      obtain ⟨hbs, rfl⟩ := mem_bindingsOf.mp (hb ▸ List.mem_singleton_self b : b ∈ s.bindingsOf x)
      have hloop : ¬b.Loops := fun hl => hclear b hbs hl .refl
      have hsuf : b ∈ suf := by
        rw [hs] at hbs
        exact (List.mem_append.mp hbs).resolve_left fun hpre => hx (List.mem_map_of_mem hpre)
      obtain ⟨mid, post, rfl⟩ := List.append_of_mem hsuf
      have hs' : s = (pre ++ mid) ++ b :: post := by simp [hs]
      have hmid : b.name ∉ names mid := by
        have hpre := h.name_notMem hs'
        rw [names, List.map_append] at hpre
        exact fun hmem => hpre (List.mem_append_right _ hmem)
      obtain ⟨hok, rfl⟩ := OpenTy.bindM_eq_ok_iff.mp (hbind.symm.trans hr)
      rw [apply_append, apply_of_notMem hmid, apply_cons, Binding.replace_self, apply_eq_bind]
      -- the value mentions nothing that `mid` or `b` itself binds, so the rest of the store is enough for it
      refine OpenTy.bind_congr fun y hy => ?_
      exact ih (by simp [hs] : s = (pre ++ mid ++ [b]) ++ post) hfit (h.notMem_names hs' hloop hy) (hok y hy)
    · cases herr.symm.trans hr

theorem apply_of_resolve (h : Triangular strict s) {t r : OpenTy} (hr : s.resolve t = .ok r) : s.apply t = r := by
  obtain ⟨hok, rfl⟩ := OpenTy.bindM_eq_ok_iff.mp hr
  rw [apply_eq_bind]
  refine OpenTy.bind_congr fun x hx => ?_
  exact h.apply_of_resolveName (List.nil_append s).symm (.start s) (by simp [names]) (hok x hx)

theorem apply_name_of_not_loops (h : Triangular strict s) {b : Binding} (hb : b ∈ s) (hloop : ¬b.Loops) :
    s.apply (.unknown b.name) = s.apply b.value := by
  obtain ⟨pre, post, rfl⟩ := List.append_of_mem hb
  have hname : b.name ∉ names pre := h.name_notMem rfl
  have hvalue : apply (pre ++ [b]) b.value = b.value :=
    apply_eq_self fun y hy => unbound_iff.mpr (h.notMem_names rfl hloop hy)
  rw [apply_append, apply_of_notMem hname, apply_cons, Binding.replace_self,
    List.append_cons, apply_append _ post, hvalue]

theorem resolve_eq_apply (h : Triangular true s) (t : OpenTy) : s.resolve t = .ok (s.apply t) := by
  obtain ⟨r, hr⟩ := h.exists_resolve t
  rw [hr, h.apply_of_resolve hr]

theorem unbound_of_mem_apply (h : Triangular true s) {t : OpenTy} {x : String} (hx : x ∈ (s.apply t).unknowns) :
    s.Unbound x :=
  unbound_of_resolve (h.resolve_eq_apply t) hx

@[simp] theorem apply_apply (h : Triangular true s) (t : OpenTy) : s.apply (s.apply t) = s.apply t :=
  apply_eq_self fun _ hx => h.unbound_of_mem_apply hx

theorem apply_apply_of_prefix (h : Triangular true s) {r : Store} (hr : s <+: r) (t : OpenTy) :
    r.apply (s.apply t) = r.apply t :=
  apply_eq_of_prefix hr (h.apply_apply t)

theorem apply_name (h : Triangular true s) {b : Binding} (hb : b ∈ s) :
    s.apply (.unknown b.name) = s.apply b.value :=
  h.apply_name_of_not_loops hb fun hl => absurd (h.loops b hb hl).1 (by decide)

theorem satisfies (h : Triangular true s) : s.Satisfies s := fun _ hb => h.apply_name hb

theorem apply_insert (h : Triangular true s) {x : String} {t : OpenTy} {b : Binding} {s' : Store}
    (hb : s.binding x t = .ok b) (hs : s.insert true b = .ok s') : s'.apply (.unknown x) = s'.apply t := by
  have htriangular := h.of_insert hb hs
  obtain ⟨hname, hvalue⟩ := binding_eq_ok hb
  obtain ⟨-, rfl⟩ := insert_eq_ok hs
  have hname : s.apply (.unknown x) = .unknown b.name := Except.ok.inj ((h.resolve_eq_apply _).symm.trans hname)
  have hvalue : s.apply t = b.value := Except.ok.inj ((h.resolve_eq_apply _).symm.trans hvalue)
  have happly : ∀ a, apply (s ++ [b]) (s.apply a) = apply (s ++ [b]) a :=
    h.apply_apply_of_prefix (List.prefix_append s [b])
  calc apply (s ++ [b]) (.unknown x) = apply (s ++ [b]) (.unknown b.name) := by rw [← happly, hname]
    _ = apply (s ++ [b]) b.value := htriangular.apply_name (by simp)
    _ = apply (s ++ [b]) t := by rw [← happly t, hvalue]

theorem binding_eq (h : Triangular true s) {x : String} (hx : x ∉ s.names) (t : OpenTy) :
    s.binding x t = .ok ⟨x, s.apply t⟩ := by
  rw [binding, h.resolve_eq_apply, h.resolve_eq_apply, apply_of_notMem hx]
  rfl

end Triangular

end Store

end IndexedTyping
