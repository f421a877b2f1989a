import IndexedTyping.Program.Decode
import IndexedTyping.Program.Encode
import IndexedTyping.Proofs.Json.RoundTrip

namespace IndexedTyping

def Term.Written (L : Literal → Prop) : Term → Prop
  | var x l => x ≠ "" ∧ l = none
  | lit v => L v
  | lam x b => x ≠ "" ∧ b.Written L
  | app f a => f.Written L ∧ a.Written L
  | recur f x b => f ≠ "" ∧ x ≠ "" ∧ b.Written L

def Ty.Written (L : Literal → Prop) : Ty → Prop
  | name x => x ≠ ""
  | prim _ => True
  | fn t s | app t s => t.Written L ∧ s.Written L
  | all x l t => x ≠ "" ∧ l = none ∧ t.Written L
  | indexed t e => t.Written L ∧ e.Written L

mutual

def Stmt.Written (L : Literal → Prop) : Stmt → Prop
  | .define n t e | .fix n t e => n ≠ "" ∧ t.Written L ∧ e.Written L
  | .assume n t | .synonym n t => n ≠ "" ∧ t.Written L
  | .primitive n => n ≠ ""
  | .group n l body => n ≠ "" ∧ l = none ∧ Program.Written L body

def Program.Written (L : Literal → Prop) : Program → Prop
  | [] => True
  | s :: rest => s.Written L ∧ Program.Written L rest

end

namespace Json

theorem sizeOf_lt_object {key : String} {fields : List (String × Json)} {v : Json} (h : field? key fields = some v) :
    sizeOf v < sizeOf (object fields) := by
  have := sizeOf_lt_of_field? h
  simp
  omega

theorem field_object {key : String} {fields : List (String × Json)} {v : Json} (h : field? key fields = some v) :
    (object fields).field key = .ok ⟨v, sizeOf_lt_object h⟩ := by
  simp only [field]
  split
  · next w hw =>
    rw [hw] at h
    cases h
    rfl
  · next hw =>
    rw [hw] at h
    cases h

theorem groupBody_object {fields : List (String × Json)} {v : Json} (h : field? "statements" fields = some v) :
    (object fields).groupBody = some ⟨v, sizeOf_lt_object h⟩ := by
  simp only [groupBody]
  split
  · next w hw =>
    rw [hw] at h
    cases h
    rfl
  · next hw =>
    rw [hw] at h
    cases h

theorem kind_node (k : String) (fields : List (String × Json)) : (node k fields).kind = .ok (.str k) := by
  rw [kind, node, field_object rfl]
  rfl

theorem nameField_object {key x : String} {fields : List (String × Json)} (h : field? key fields = some (.str x))
    (hx : x ≠ "") : (object fields).nameField key = .ok x := by
  rw [nameField, field_object h]
  simp [bind, Except.bind, pure, Except.pure, hx]

end Json

open Json

theorem Term.ofJson_toJson {L : Literal → Prop} {e : Term} (h : e.Written L) : Term.ofJson e.toJson = .ok e := by
  induction e with
  | var x l =>
    obtain ⟨hx, rfl⟩ := h
    rw [Term.ofJson, Term.toJson, kind_node]
    simp [node, nameField_object, field?, hx, bind, Except.bind, pure, Except.pure]
  | lit v =>
    have hv : Literal.ofJson v.toJson = .ok v := by cases v <;> rfl
    rw [Term.ofJson, Term.toJson, kind_node]
    simp [node, field_object, field?, hv, bind, Except.bind, pure, Except.pure]
  | lam x b ih =>
    rw [Term.ofJson, Term.toJson, kind_node]
    simp [node, field_object, nameField_object, field?, h.1, ih h.2, bind, Except.bind, pure, Except.pure]
  | app f a ihf iha =>
    rw [Term.ofJson, Term.toJson, kind_node]
    simp [node, field_object, field?, ihf h.1, iha h.2, bind, Except.bind, pure, Except.pure]
  | recur f x b ih =>
    rw [Term.ofJson, Term.toJson, kind_node]
    simp [node, field_object, nameField_object, field?, h.1, h.2.1, ih h.2.2, bind, Except.bind, pure, Except.pure]

theorem Ty.ofJson_toJson {L : Literal → Prop} {t : Ty} (h : t.Written L) : Ty.ofJson t.toJson = .ok t := by
  induction t with
  | name x =>
    rw [Ty.Written] at h
    rw [Ty.ofJson, Ty.toJson, kind_node]
    simp [node, nameField_object, field?, h, bind, Except.bind, pure, Except.pure]
  | prim p =>
    have hp : Prim.ofJson (.str p.render) = .ok p := by cases p <;> rfl
    rw [Ty.ofJson, Ty.toJson, kind_node]
    simp [node, field_object, field?, hp, bind, Except.bind, pure, Except.pure]
  | fn t s iht ihs | app t s iht ihs =>
    rw [Ty.ofJson, Ty.toJson, kind_node]
    simp [node, field_object, field?, iht h.1, ihs h.2, bind, Except.bind, pure, Except.pure]
  | all x l t ih =>
    obtain ⟨hx, rfl, ht⟩ := h
    rw [Ty.ofJson, Ty.toJson, kind_node]
    simp [node, field_object, nameField_object, field?, hx, ih ht, bind, Except.bind, pure, Except.pure]
  | indexed t e ih =>
    rw [Ty.ofJson, Ty.toJson, kind_node]
    simp [node, field_object, field?, ih h.1, Term.ofJson_toJson h.2, bind, Except.bind, pure, Except.pure]

mutual

theorem Stmt.ofJson_toJson {L : Literal → Prop} : ∀ {s : Stmt}, s.Written L → Stmt.ofJson s.toJson = .ok s
  | .define n t e, h | .fix n t e, h => by
    rw [Stmt.ofJson, Stmt.toJson, kind_node]
    simp [node, field_object, nameField_object, field?, h.1, Ty.ofJson_toJson h.2.1,
      Term.ofJson_toJson h.2.2, bind, Except.bind, pure, Except.pure]
  | .assume n t, h | .synonym n t, h => by
    rw [Stmt.ofJson, Stmt.toJson, kind_node]
    simp [node, field_object, nameField_object, field?, h.1, Ty.ofJson_toJson h.2, bind,
      Except.bind, pure, Except.pure]
  | .primitive n, h => by
    rw [Stmt.Written] at h
    rw [Stmt.ofJson, Stmt.toJson, kind_node]
    simp [node, nameField_object, field?, h, bind, Except.bind, pure, Except.pure]
  | .group n l body, h => by
    obtain ⟨hn, rfl, hbody⟩ := h
    rw [Stmt.ofJson, Stmt.toJson, kind_node]
    simp [node, nameField_object, groupBody_object, field?, hn, Stmt.ofGroup,
      Stmt.ofJsonAll_toJsonAll hbody, bind, Except.bind, pure, Except.pure]

theorem Stmt.ofJsonAll_toJsonAll {L : Literal → Prop} : ∀ {p : Program}, p.Written L →
    Stmt.ofJsonAll (Stmt.toJsonAll p) = .ok p
  | [], _ => by rw [Stmt.toJsonAll, Stmt.ofJsonAll]
  | s :: rest, h => by
    rw [Stmt.toJsonAll, Stmt.ofJsonAll, Stmt.ofJson_toJson h.1, Stmt.ofJsonAll_toJsonAll h.2]
    rfl

end

theorem Program.ofJson_toJson {L : Literal → Prop} {p : Program} (h : p.Written L) :
    Program.ofJson p.toJson = .ok p := by
  rw [Program.ofJson, Program.toJson, field_object rfl]
  exact Stmt.ofJsonAll_toJsonAll h

def Literal.Short : Literal → Prop
  | nat n => (toString n).length ≤ Json.maxDigits
  | bool _ | str _ => True

theorem Literal.readable_toJson {v : Literal} (h : v.Short) : v.toJson.Readable := by
  cases v with
  | nat n =>
    rw [Literal.toJson, Readable, Int.natAbs_natCast, ← Nat.toList_repr, String.length_toList]
    exact h
  | bool b => trivial
  | str s => trivial

theorem Term.readable_toJson {e : Term} (h : e.Written Literal.Short) : e.toJson.Readable := by
  induction e with
  | var x l => simp [Term.toJson, node, Readable, ReadableFields]
  | lit v => simp [Term.toJson, node, Readable, ReadableFields, Literal.readable_toJson h]
  | lam x b ih => simp [Term.toJson, node, Readable, ReadableFields, ih h.2]
  | app f a ihf iha => simp [Term.toJson, node, Readable, ReadableFields, ihf h.1, iha h.2]
  | recur f x b ih => simp [Term.toJson, node, Readable, ReadableFields, ih h.2.2]

theorem Ty.readable_toJson {t : Ty} (h : t.Written Literal.Short) : t.toJson.Readable := by
  induction t with
  | name x | prim p => simp [Ty.toJson, node, Readable, ReadableFields]
  | fn t s iht ihs | app t s iht ihs =>
    simp [Ty.toJson, node, Readable, ReadableFields, iht h.1, ihs h.2]
  | all x l t ih => simp [Ty.toJson, node, Readable, ReadableFields, ih h.2.2]
  | indexed t e ih =>
    simp [Ty.toJson, node, Readable, ReadableFields, ih h.1, Term.readable_toJson h.2]

mutual

theorem Stmt.readable_toJson : ∀ {s : Stmt}, s.Written Literal.Short → s.toJson.Readable
  | .define n t e, h | .fix n t e, h => by
    simp [Stmt.toJson, node, Readable, ReadableFields, Ty.readable_toJson h.2.1,
      Term.readable_toJson h.2.2]
  | .assume n t, h | .synonym n t, h => by
    simp [Stmt.toJson, node, Readable, ReadableFields, Ty.readable_toJson h.2]
  | .primitive n, h => by simp [Stmt.toJson, node, Readable, ReadableFields]
  | .group n l body, h => by
    simp [Stmt.toJson, node, Readable, ReadableFields, Stmt.readable_toJsonAll h.2.2]

theorem Stmt.readable_toJsonAll : ∀ {p : Program}, p.Written Literal.Short → Json.ReadableItems (Stmt.toJsonAll p)
  | [], _ => by simp [Stmt.toJsonAll, ReadableItems]
  | s :: rest, h => by
    simp [Stmt.toJsonAll, ReadableItems, Stmt.readable_toJson h.1, Stmt.readable_toJsonAll h.2]

end

/-- A program is loaded from its own text, if all its names are there without places, its numbers are not too long, and
its text does not nest too deep. -/
theorem Program.load_render {p : Program} (hp : p.Written Literal.Short) (hdepth : p.toJson.depth ≤ Json.maxDepth) :
    Program.load p.toJson.render = .ok p := by
  have hreadable : p.toJson.Readable := by
    simp [Program.toJson, Readable, ReadableFields, Stmt.readable_toJsonAll hp]
  rw [Program.load, Json.read_render hreadable hdepth]
  simp only [Program.ofJson_toJson hp]

theorem Program.load_render_nested :
    let p : Program := [.group "m" none [.group "\"\\/\n\x00é 😀" none []],
      .define "f" (.all "n" none (.indexed (.app (.name "Vec") (.prim .nat)) (.lit (.nat 120))))
        (.recur "f" "x" (.lam "y" (.app (.var "f" none) (.lit (.str "")))))]
    p.toJson.depth = 7 ∧ Program.load p.toJson.render = .ok p := by
  intro p
  have hdepth : p.toJson.depth = 7 := by rfl
  refine ⟨hdepth, Program.load_render ?_ ?_⟩
  · simp [p, Program.Written, Stmt.Written, Ty.Written, Term.Written, Literal.Short, Json.maxDigits]
    decide
  · rw [hdepth]
    decide

end IndexedTyping
