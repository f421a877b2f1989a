import IndexedTyping.Proofs.Program.RoundTrip

namespace IndexedTyping

open Json

inductive Category
  | name
  | literal
  | prim
  | term
  | type
  | stmt
  | statements
  | body
  deriving DecidableEq, Repr

structure FieldRule where
  key : String
  category : Category
  required : Bool
  deriving DecidableEq, Repr

namespace Category

def rules? : Category → String → Option (List FieldRule)
  | term, "var" => some [⟨"name", name, true⟩]
  | term, "literal" => some [⟨"value", literal, true⟩]
  | term, "lambda" => some [⟨"param", name, true⟩, ⟨"body", term, true⟩]
  | term, "app" => some [⟨"function", term, true⟩, ⟨"argument", term, true⟩]
  | term, "rec" => some [⟨"self", name, true⟩, ⟨"param", name, true⟩, ⟨"body", term, true⟩]
  | type, "name" => some [⟨"name", name, true⟩]
  | type, "function" => some [⟨"domain", type, true⟩, ⟨"codomain", type, true⟩]
  | type, "application" => some [⟨"head", type, true⟩, ⟨"argument", type, true⟩]
  | type, "forall" => some [⟨"bound", name, true⟩, ⟨"body", type, true⟩]
  | type, "indexed" => some [⟨"head", type, true⟩, ⟨"index", term, true⟩]
  | type, "primitive" => some [⟨"primitive", prim, true⟩]
  | stmt, "definition" => some [⟨"name", name, true⟩, ⟨"type", type, true⟩, ⟨"body", term, true⟩]
  | stmt, "fix" => some [⟨"name", name, true⟩, ⟨"type", type, true⟩, ⟨"body", term, true⟩]
  | stmt, "assume" => some [⟨"name", name, true⟩, ⟨"type", type, true⟩]
  | stmt, "signature" => some [⟨"name", name, true⟩, ⟨"type", type, true⟩]
  | stmt, "primitive" => some [⟨"name", name, true⟩]
  | stmt, "module" => some [⟨"name", name, true⟩, ⟨"statements", body, false⟩]
  | _, _ => none

def IsNode (c : Category) : Prop := c = term ∨ c = type ∨ c = stmt

def word : Category → String
  | term => "expression"
  | type => "type"
  | _ => "statement"

end Category

inductive Matches : Category → Json → Prop
  | name : s ≠ "" → Matches .name (.str s)
  | bool : Matches .literal (.bool b)
  | nat (n : Nat) : Matches .literal (.int n)
  | str : Matches .literal (.str s)
  | prim (p : Prim) : Matches .prim (.str p.render)
  | node : field? "kind" fields = some (.str k) → c.rules? k = some rules →
    (∀ r ∈ rules, r.required = true → (field? r.key fields).isSome = true) →
    (∀ r ∈ rules, ∀ v, field? r.key fields = some v → Matches r.category v) → Matches c (.object fields)
  | statements : (∀ v ∈ items, Matches .stmt v) → Matches .statements (.list items)
  | body : (∀ v ∈ items, Matches .stmt v) → Matches .body (.list items)
  | noText : Matches .body (.str "")
  | noFields : Matches .body (.object [])

def Json.IsProgram (v : Json) : Prop :=
  ∃ fields w, v = .object fields ∧ field? "statements" fields = some w ∧ Matches .statements w

/-- All that is wrong with the value of the field `key`, in the order in which it is read, if it should be of the
category `c`. -/
def offences (c : Category) (key : String) (v : Json) : List ShapeError :=
  match c, v with
  | .name, .str s => if s = "" then [.notName key] else []
  | .name, _ => [.notName key]
  | .literal, .bool _ | .literal, .int (.ofNat _) | .literal, .str _ => []
  | .literal, v => [.notLiteral v]
  | .prim, .str s => if (Prim.ofName? s).isSome then [] else [.unknownPrim (.str s)]
  | .prim, v => [.unknownPrim v]
  | .statements, .list items => items.flatMap fun v => offences .stmt key v
  | .statements, _ => [.notList]
  | .body, .list items => items.flatMap fun v => offences .stmt key v
  | .body, .str s => s.toList.map fun c => .notObject (.str (String.singleton c))
  | .body, .object fields => fields.map fun f => .notObject (.str f.1)
  | .body, v => [.notIterable v]
  | c, .object fields =>
    match field? "kind" fields with
    | none => [.missing "kind" none]
    | some (.str k) =>
      match c.rules? k with
      | some rules => rules.flatMap fun r =>
        match _h : field? r.key fields with
        | some w => offences r.category r.key w
        | none => if r.required then [.missing r.key (some (.str k))] else []
      | none => [.unknownKind c.word (.str k)]
    | some k => [.unknownKind c.word k]
  | _, v => [.notObject v]
termination_by sizeOf v
decreasing_by
  iterate 2
    · have := List.sizeOf_lt_of_mem (by assumption)
      simp
      omega
  · exact sizeOf_lt_object (by assumption)

def fieldOffences (fields : List (String × Json)) (r : FieldRule) : List ShapeError :=
  match field? r.key fields with
  | some w => offences r.category r.key w
  | none => if r.required then [.missing r.key (field? "kind" fields)] else []

def programOffences : Json → List ShapeError
  | .object fields => fieldOffences fields ⟨"statements", .statements, true⟩
  | v => [.notObject v]

theorem offences_node {c : Category} {k : String} {rules : List FieldRule} {fields : List (String × Json)}
    (hkind : field? "kind" fields = some (.str k)) (hrules : c.rules? k = some rules) (key : String) :
    offences c key (.object fields) = rules.flatMap (fieldOffences fields) := by
  cases c with
  | term | type | stmt =>
    simp only [offences, hkind, hrules]
    congr 1
    funext r
    simp only [fieldOffences, hkind]
    split <;> simp_all
  | _ => cases hrules

theorem offences_unknown {c : Category} (hc : c.IsNode) {k : Json} {fields : List (String × Json)}
    (hkind : field? "kind" fields = some k) (hrules : ∀ s, k = .str s → c.rules? s = none) (key : String) :
    offences c key (.object fields) = [.unknownKind c.word k] := by
  cases k with
  | str s => rcases hc with rfl | rfl | rfl <;> simp [offences, hkind, hrules s rfl]
  | _ => rcases hc with rfl | rfl | rfl <;> simp [offences, hkind]

theorem offences_eq_nil {c : Category} {v : Json} (h : Matches c v) (key : String) : offences c key v = [] := by
  induction h generalizing key with
  | name hs => simp [offences, hs]
  | bool | str | noText | noFields => simp [offences]
  | nat n =>
    change offences .literal key (.int (.ofNat n)) = []
    rw [offences]
  | prim p => cases p <;> simp [offences, Prim.ofName?, Prim.render]
  | @node fields k c rules hkind hrules hthere _ ih =>
    rw [offences_node hkind hrules, List.flatMap_eq_nil_iff]
    intro r hr
    rw [fieldOffences]
    cases hw : field? r.key fields with
    | some w => exact ih r hr w hw r.key
    | none =>
      have hrequired := hthere r hr
      simp_all
  | statements _ ih | body _ ih =>
    rw [offences, List.flatMap_eq_nil_iff]
    exact fun v hv => ih v hv key

theorem Prim.render_of_ofName? {s : String} {p : Prim} (h : Prim.ofName? s = some p) : p.render = s := by
  simpa using List.find?_some h

theorem matches_of_offences {c : Category} {key : String} {v : Json} (h : offences c key v = []) : Matches c v := by
  fun_induction offences c key v with
  | case2 _ _ hs => exact .name hs
  | case4 => exact .bool
  | case5 _ n => exact .nat n
  | case6 => exact .str
  | case8 _ s hs =>
    obtain ⟨p, hp⟩ := Option.isSome_iff_exists.mp hs
    rw [← Prim.render_of_ofName? hp]
    exact .prim p
  | case11 _ items ih => exact .statements fun v hv => ih v hv (List.flatMap_eq_nil_iff.mp h v hv)
  | case13 _ items ih => exact .body fun v hv => ih v hv (List.flatMap_eq_nil_iff.mp h v hv)
  | case14 _ s =>
    obtain rfl : s = "" := by simpa using h
    exact .noText
  | case15 _ fields =>
    obtain rfl : fields = [] := by simpa using h
    exact .noFields
  | case18 key c fields _ _ _ _ _ k hkind rules hrules ih =>
    have hfield (r : FieldRule) (hr : r ∈ rules) : fieldOffences fields r = [] := by
      have hnone := List.flatMap_eq_nil_iff.mp h r hr
      rw [fieldOffences, hkind]
      split at hnone
      · next w hw => rwa [hw]
      · next hw => rwa [hw]
    refine .node hkind hrules (fun r hr hrequired => ?_) fun r hr w hw => ih r w hw ?_
    · cases hw : field? r.key fields with
      | some w => rfl
      | none => simpa [fieldOffences, hw, hrequired] using hfield r hr
    · simpa [fieldOffences, hw] using hfield r hr
  | _ => cases h

theorem Json.field_missing {key : String} {fields : List (String × Json)} (h : field? key fields = none) :
    (object fields).field key = .error (.missing key (field? "kind" fields)) := by
  simp only [field]
  split
  · next w hw =>
    rw [hw] at h
    cases h
  · rfl

theorem Json.groupBody_missing {fields : List (String × Json)} (h : field? "statements" fields = none) :
    (object fields).groupBody = none := by
  simp only [groupBody]
  split
  · next w hw =>
    rw [hw] at h
    cases h
  · rfl

inductive Decodes {α : Type} (P : α → Prop) : Except ShapeError α → List ShapeError → Prop
  | ok {a : α} : P a → Decodes P (.ok a) []
  | error (e : ShapeError) (rest : List ShapeError) : Decodes P (.error e) (e :: rest)

namespace Decodes

variable {α β : Type} {P : α → Prop} {Q : β → Prop} {m : Except ShapeError α} {l l' : List ShapeError}
  {fields : List (String × Json)}

theorem bind {k : α → Except ShapeError β} (hm : Decodes P m l) (hk : ∀ a, P a → Decodes Q (k a) l') :
    Decodes Q (m >>= k) (l ++ l') := by
  cases hm with
  | ok ha => exact hk _ ha
  | error e rest => exact .error e (rest ++ l')

theorem last {f : α → β} (hm : Decodes P m l) (hf : ∀ a, P a → Q (f a)) :
    Decodes Q (do return f (← m)) (l ++ []) :=
  hm.bind fun a ha => .ok (hf a ha)

theorem field {key : String} {c : Category} {k : Part (.object fields) → Except ShapeError β}
    (hk : ∀ w, Decodes Q (k w) (offences c key w.1 ++ l)) :
    Decodes Q ((object fields).field key >>= k) (fieldOffences fields ⟨key, c, true⟩ ++ l) := by
  rw [fieldOffences]
  cases hw : field? key fields with
  | some w =>
    rw [field_object hw]
    exact hk ⟨w, _⟩
  | none =>
    rw [field_missing hw]
    exact .error _ _

theorem kind {c : Category} (hc : c.IsNode) {key : String} {v : Json} {k : Json → Except ShapeError α}
    (hk : ∀ fields j, v = .object fields → field? "kind" fields = some j → Decodes P (k j) (offences c key v)) :
    Decodes P (v.kind >>= k) (offences c key v) := by
  cases v with
  | object fields =>
    cases hkind : field? "kind" fields with
    | some j =>
      rw [Json.kind, field_object hkind]
      exact hk fields j rfl hkind
    | none =>
      have hmissing : offences c key (.object fields) = [.missing "kind" none] := by
        rcases hc with rfl | rfl | rfl <;> simp [offences, hkind]
      have hfield := Json.field_missing hkind
      rw [hkind] at hfield
      rw [Json.kind, hfield, hmissing]
      exact .error _ []
  | _ =>
    rcases hc with rfl | rfl | rfl <;> rw [offences] <;> first | exact .error _ [] | simp

theorem nameField (fields : List (String × Json)) (key : String) :
    Decodes (· ≠ "") ((object fields).nameField key) (fieldOffences fields ⟨key, .name, true⟩) := by
  rw [← List.append_nil (fieldOffences _ _)]
  refine .field fun ⟨w, _⟩ => ?_
  rw [List.append_nil]
  cases w with
  | str s =>
    by_cases hs : s = ""
    · simp only [hs, offences]
      exact .error _ []
    · have hempty : s.isEmpty = false := by simpa using hs
      simp only [offences, if_neg hs, hempty]
      exact .ok hs
  | _ =>
    simp only [offences]
    exact .error _ []

theorem node {c : Category} {k : String} {rules : List FieldRule} {key : String}
    (hkind : field? "kind" fields = some (.str k)) (hrules : c.rules? k = some rules)
    (hm : Decodes P m (rules.flatMap (fieldOffences fields))) : Decodes P m (offences c key (.object fields)) := by
  rwa [offences_node hkind hrules]

theorem unknownKind {c : Category} (hc : c.IsNode) {k : Json} (hkind : field? "kind" fields = some k)
    (hrules : ∀ s, k = .str s → c.rules? s = none) (key : String) :
    Decodes P (.error (.unknownKind c.word k)) (offences c key (.object fields)) := by
  rw [offences_unknown hc hkind hrules]
  exact .error _ []

end Decodes

theorem decodes_literal (key : String) (v : Json) :
    Decodes (fun _ => True) (Literal.ofJson v) (offences .literal key v) := by
  unfold Literal.ofJson
  split
  iterate 3
    · rw [offences]
      exact .ok trivial
  · rw [offences]
    · exact .error _ []
    all_goals assumption

theorem decodes_prim (key : String) (v : Json) :
    Decodes (fun _ => True) (Prim.ofJson v) (offences .prim key v) := by
  unfold Prim.ofJson
  split
  · next s =>
    rw [offences]
    cases Prim.ofName? s with
    | some p => exact .ok trivial
    | none => exact .error _ []
  · rw [offences]
    · exact .error _ []
    · assumption

theorem decodes_term (key : String) (v : Json) :
    Decodes (Term.Written fun _ => True) (Term.ofJson v) (offences .term key v) := by
  rw [Term.ofJson]
  refine .kind (.inl rfl) fun fields k hv hkind => ?_
  subst hv
  split
  · exact .node hkind rfl ((Decodes.nameField fields "name").last fun x hx => ⟨hx, rfl⟩)
  · exact .node hkind rfl (.field fun w => (decodes_literal "value" w).last fun v hv => hv)
  · exact .node hkind rfl ((Decodes.nameField fields "param").bind fun x hx => .field fun ⟨w, _⟩ =>
      (decodes_term "body" w).last fun b hb => ⟨hx, hb⟩)
  · exact .node hkind rfl (.field fun ⟨w, _⟩ => (decodes_term "function" w).bind fun f hf => .field fun ⟨w', _⟩ =>
      (decodes_term "argument" w').last fun a ha => ⟨hf, ha⟩)
  · exact .node hkind rfl ((Decodes.nameField fields "self").bind fun f hf =>
      (Decodes.nameField fields "param").bind fun x hx => .field fun ⟨w, _⟩ =>
      (decodes_term "body" w).last fun b hb => ⟨hf, hx, hb⟩)
  · refine .unknownKind (.inl rfl) hkind (fun s hs => ?_) key
    subst hs
    simp_all [Category.rules?]
termination_by sizeOf v

theorem decodes_type (key : String) (v : Json) :
    Decodes (Ty.Written fun _ => True) (Ty.ofJson v) (offences .type key v) := by
  rw [Ty.ofJson]
  refine .kind (.inr (.inl rfl)) fun fields k hv hkind => ?_
  subst hv
  split
  · exact .node hkind rfl ((Decodes.nameField fields "name").last fun x hx => hx)
  · exact .node hkind rfl (.field fun ⟨w, _⟩ => (decodes_type "domain" w).bind fun t ht => .field fun ⟨w', _⟩ =>
      (decodes_type "codomain" w').last fun s hs => ⟨ht, hs⟩)
  · exact .node hkind rfl (.field fun ⟨w, _⟩ => (decodes_type "head" w).bind fun t ht => .field fun ⟨w', _⟩ =>
      (decodes_type "argument" w').last fun s hs => ⟨ht, hs⟩)
  · exact .node hkind rfl ((Decodes.nameField fields "bound").bind fun x hx => .field fun ⟨w, _⟩ =>
      (decodes_type "body" w).last fun t ht => ⟨hx, rfl, ht⟩)
  · exact .node hkind rfl (.field fun ⟨w, _⟩ => (decodes_type "head" w).bind fun t ht => .field fun w' =>
      (decodes_term "index" w').last fun e he => ⟨ht, he⟩)
  · exact .node hkind rfl (.field fun w => (decodes_prim "primitive" w).last fun p hp => hp)
  · refine .unknownKind (.inr (.inl rfl)) hkind (fun s hs => ?_) key
    subst hs
    simp_all [Category.rules?]
termination_by sizeOf v

mutual

theorem decodes_stmt (key : String) (v : Json) :
    Decodes (Stmt.Written fun _ => True) (Stmt.ofJson v) (offences .stmt key v) := by
  rw [Stmt.ofJson]
  refine .kind (.inr (.inr rfl)) fun fields k hv hkind => ?_
  subst hv
  split
  iterate 2
    · exact .node hkind rfl ((Decodes.nameField fields "name").bind fun n hn => .field fun w =>
        (decodes_type "type" w).bind fun t ht => .field fun w' =>
        (decodes_term "body" w').last fun e he => ⟨hn, ht, he⟩)
  iterate 2
    · exact .node hkind rfl ((Decodes.nameField fields "name").bind fun n hn => .field fun w =>
        (decodes_type "type" w).last fun t ht => ⟨hn, ht⟩)
  · exact .node hkind rfl ((Decodes.nameField fields "name").last fun n hn => hn)
  · refine .node hkind rfl ((Decodes.nameField fields "name").bind fun n hn => ?_)
    change Decodes _ _ (fieldOffences fields ⟨"statements", .body, false⟩ ++ [])
    rw [fieldOffences]
    cases hbody : field? "statements" fields with
    | some w =>
      have hlt := sizeOf_lt_object hbody
      rw [groupBody_object hbody]
      exact (decodes_body "statements" w).last fun p hp => ⟨hn, rfl, hp⟩
    | none =>
      rw [groupBody_missing hbody]
      exact .ok ⟨hn, rfl, trivial⟩
  · refine .unknownKind (.inr (.inr rfl)) hkind (fun s hs => ?_) key
    subst hs
    simp_all [Category.rules?]
termination_by sizeOf v

theorem decodes_body (key : String) (v : Json) :
    Decodes (Program.Written fun _ => True) (Stmt.ofGroup v) (offences .body key v) := by
  cases v with
  | list items =>
    rw [Stmt.ofGroup, offences]
    exact decodes_statements key items
  | str s =>
    rw [Stmt.ofGroup, offences]
    cases s.toList with
    | nil => exact .ok trivial
    | cons c cs => exact .error _ _
  | object fields =>
    rw [offences]
    cases fields with
    | nil =>
      rw [Stmt.ofGroup]
      exact .ok trivial
    | cons f fs =>
      rw [Stmt.ofGroup]
      exact .error _ _
  | _ =>
    rw [Stmt.ofGroup, offences] <;> first | exact .error _ [] | simp
termination_by sizeOf v

theorem decodes_statements (key : String) (items : List Json) :
    Decodes (Program.Written fun _ => True) (Stmt.ofJsonAll items) (items.flatMap (offences .stmt key)) := by
  cases items with
  | nil =>
    rw [Stmt.ofJsonAll]
    exact .ok trivial
  | cons v rest =>
    rw [Stmt.ofJsonAll, List.flatMap_cons, ← List.append_nil (rest.flatMap _)]
    exact (decodes_stmt key v).bind fun s hs => (decodes_statements key rest).last fun p hp => ⟨hs, hp⟩
termination_by sizeOf items

end

theorem decodes_program (v : Json) :
    Decodes (Program.Written fun _ => True) (Program.ofJson v) (programOffences v) := by
  cases v with
  | object fields =>
    rw [Program.ofJson, programOffences, ← List.append_nil (fieldOffences _ _)]
    refine .field fun w => ?_
    obtain ⟨w, hw⟩ := w
    rw [List.append_nil]
    cases w with
    | list items =>
      rw [offences]
      exact decodes_statements "statements" items
    | _ => rw [offences] <;> first | exact .error _ [] | simp
  | _ => exact .error _ []

theorem programOffences_eq_nil_iff {v : Json} : programOffences v = [] ↔ v.IsProgram := by
  constructor
  · intro h
    cases v with
    | object fields =>
      rw [programOffences, fieldOffences] at h
      cases hw : field? "statements" fields with
      | some w =>
        rw [hw] at h
        exact ⟨fields, w, rfl, hw, matches_of_offences h⟩
      | none => simp [hw] at h
    | _ => cases h
  · rintro ⟨fields, w, rfl, hw, hmatch⟩
    simp [programOffences, fieldOffences, hw, offences_eq_nil hmatch]

def Json.IsScalar : Json → Prop
  | null | bool _ | int _ | float _ => True
  | str _ | list _ | object _ => False

theorem isScalar_of_notIterable {c : Category} {key : String} {v body : Json}
    (h : .notIterable body ∈ offences c key v) : body.IsScalar := by
  fun_induction offences c key v with
  | case11 _ items ih | case13 _ items ih =>
    obtain ⟨w, hw, hmem⟩ := List.mem_flatMap.mp h
    exact ih w hw hmem
  | case16 _ v hlist hstr hobject =>
    obtain rfl : body = v := by simpa using h
    cases body with
    | str s => exact hstr s rfl
    | list items => exact hlist items rfl
    | object fields => exact hobject fields rfl
    | _ => trivial
  | case18 key c fields _ _ _ _ _ k hkind rules hrules ih =>
    obtain ⟨r, hr, hmem⟩ := List.mem_flatMap.mp h
    split at hmem
    · next w hw => exact ih r w hw hmem
    · split at hmem <;> simp at hmem
  | _ => simp at h

theorem isScalar_of_programOffences {v body : Json} (h : .notIterable body ∈ programOffences v) : body.IsScalar := by
  cases v with
  | object fields =>
    rw [programOffences, fieldOffences] at h
    split at h
    · exact isScalar_of_notIterable h
    · simp at h
  | _ => simp [programOffences] at h

theorem isReported_shape_iff (e : ShapeError) :
    (LoadError.shape e).isReported = false ↔ ∃ body, e = .notIterable body := by
  cases e <;> simp [LoadError.isReported]

/-- A value is read as a program just if it matches the grammar. The program has all its names, and is read again from
its own value. Otherwise the first offence is the error, and it ends the run just if it is a group whose statements are
null, a number or a truth value. -/
theorem Program.ofJson_grammar (v : Json) :
    ((∃ p, Program.ofJson v = .ok p) ↔ v.IsProgram) ∧
      (∀ p, Program.ofJson v = .ok p → p.Written (fun _ => True) ∧ Program.ofJson p.toJson = .ok p) ∧
      (¬v.IsProgram → ∃ e, Program.ofJson v = .error e ∧ (programOffences v).head? = some e) ∧
      ∀ e, Program.ofJson v = .error e → ((LoadError.shape e).isReported = false ↔
        ∃ body, body.IsScalar ∧ (programOffences v).head? = some (.notIterable body)) := by
  have hdecodes := decodes_program v
  have hgrammar := programOffences_eq_nil_iff (v := v)
  generalize Program.ofJson v = r, hl : programOffences v = l at hdecodes hgrammar ⊢
  cases hdecodes with
  | @ok p hp =>
    have hv := hgrammar.mp rfl
    refine ⟨⟨fun _ => hv, fun _ => ⟨p, rfl⟩⟩, fun q hq => ?_, fun hn => absurd hv hn,
      fun e he => by cases he⟩
    cases hq
    exact ⟨hp, Program.ofJson_toJson hp⟩
  | error e rest =>
    have hv : ¬v.IsProgram := fun h => by cases hgrammar.mpr h
    refine ⟨⟨fun ⟨p, hp⟩ => (by cases hp), fun h => absurd h hv⟩, fun p hp => (by cases hp), fun _ => ⟨e, rfl, rfl⟩,
      fun e' he' => ?_⟩
    cases he'
    rw [isReported_shape_iff]
    constructor
    · rintro ⟨body, rfl⟩
      exact ⟨body, isScalar_of_programOffences (hl ▸ List.mem_cons_self), rfl⟩
    · rintro ⟨body, -, hbody⟩
      exact ⟨body, Option.some.inj hbody⟩

end IndexedTyping
