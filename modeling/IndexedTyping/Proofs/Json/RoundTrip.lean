import IndexedTyping.Json.Printer
import IndexedTyping.Json.Reader

namespace IndexedTyping.Json

theorem hexValue?_digitChar : ∀ n < 16, hexValue? (Nat.digitChar n) = some n := by decide

theorem hexValue?_hexDigit (n : Nat) : hexValue? (Text.hexDigit n) = some (n % 16) :=
  hexValue?_digitChar _ (Nat.mod_lt _ (by decide))

theorem unit?_hexDigit {n : Nat} (h : n < 0x10000) :
    unit? (Text.hexDigit (n / 16 / 16 / 16)) (Text.hexDigit (n / 16 / 16)) (Text.hexDigit (n / 16)) (Text.hexDigit n) =
      some n := by
  simp only [unit?, hexValue?_hexDigit, Option.bind_eq_bind, Option.bind_some, Option.pure_def, Option.some.injEq]
  omega

theorem readPair?_eq_none {n : Nat} (h : isHigh n = false) (cs : List Char) : readPair? n cs = none := by
  unfold readPair?
  split
  · simp [Option.bind_eq_none_iff, pairChar?, h]
  · rfl

theorem readPair?_unitEscape {high low : Nat} (h : low < 0x10000) {rest : List Char} (hrest : rest ≠ []) :
    readPair? high (unitEscape low ++ rest) = pairChar? high low := by
  obtain ⟨e, rest, rfl⟩ := List.exists_cons_of_ne_nil hrest
  simp only [unitEscape, Text.hex, List.nil_append, List.cons_append, readPair?, unit?_hexDigit h, Option.bind_some]

theorem readEscape_unit {n : Nat} (h : n < 0x10000) {rest : List Char} (hrest : rest ≠ [])
    (hpair : readPair? n rest = none) : readEscape ('u' :: Text.hex 4 n ++ rest) = .char (unitChar n) 5 := by
  obtain ⟨e, rest, rfl⟩ := List.exists_cons_of_ne_nil hrest
  simp only [Text.hex, List.nil_append, List.cons_append, readEscape, unit?_hexDigit h, hpair]

theorem readEscape_pair {n : Nat} (h : n < 0x10000) {rest : List Char} (hrest : rest ≠ []) {c : Char}
    (hpair : readPair? n rest = some c) : readEscape ('u' :: Text.hex 4 n ++ rest) = .char c 11 := by
  obtain ⟨e, rest, rfl⟩ := List.exists_cons_of_ne_nil hrest
  simp only [Text.hex, List.nil_append, List.cons_append, readEscape, unit?_hexDigit h, hpair]

theorem readString_skip (acc : List Char) (offset : Nat) (skipped rest : List Char) :
    readString acc offset skipped.length (skipped ++ rest) = readString acc (offset + skipped.length) 0 rest := by
  induction skipped generalizing offset with
  | nil => rfl
  | cons c cs ih =>
    rw [List.length_cons, List.cons_append, readString, ih, Nat.add_assoc, Nat.add_comm 1]

theorem readString_backslash (acc : List Char) (offset : Nat) {c : Char} {escape rest : List Char}
    (h : readEscape (escape ++ rest) = .char c escape.length) :
    readString acc offset 0 ('\\' :: escape ++ rest) = readString (c :: acc) (offset + (escape.length + 1)) 0 rest := by
  rw [List.cons_append, readString, if_neg (by decide), if_pos rfl, h]
  dsimp only
  rw [readString_skip, Nat.add_assoc, Nat.add_comm 1]

theorem toNat_scalar (c : Char) : c.toNat < 0xd800 ∨ 0xdfff < c.toNat ∧ c.toNat < 0x110000 := c.valid

theorem isHigh_toNat (c : Char) : isHigh c.toNat = false := by
  have := toNat_scalar c
  simp only [isHigh, Bool.and_eq_false_iff, decide_eq_false_iff_not]
  omega

theorem unitChar_toNat (c : Char) : unitChar c.toNat = c := by
  have := toNat_scalar c
  rw [unitChar, if_neg, Char.ofNat_toNat]
  simp only [isHigh, isLow, Bool.or_eq_true, Bool.and_eq_true, decide_eq_true_eq]
  omega

theorem pairChar?_toNat {c : Char} (h : 0x10000 ≤ c.toNat) :
    pairChar? (0xd800 + (c.toNat - 0x10000) / 0x400) (0xdc00 + (c.toNat - 0x10000) % 0x400) = some c := by
  have := toNat_scalar c
  have hsum : 0x10000 + (0xd800 + (c.toNat - 0x10000) / 0x400 - 0xd800) * 0x400 +
      (0xdc00 + (c.toNat - 0x10000) % 0x400 - 0xdc00) = c.toNat := by omega
  rw [pairChar?, if_pos]
  · rw [hsum, Char.ofNat_toNat]
  · simp only [isHigh, isLow, Bool.and_eq_true, decide_eq_true_eq]
    omega

theorem readString_escapeChar (acc : List Char) (offset : Nat) (c : Char) {rest : List Char} (hrest : rest ≠ []) :
    readString acc offset 0 (escapeChar c ++ rest) =
      readString (c :: acc) (offset + (escapeChar c).length) 0 rest := by
  have := toNat_scalar c
  unfold escapeChar
  -- the escapes of one letter
  iterate 7 (split; · subst c; exact readString_backslash acc offset rfl)
  split
  · next hquote hbackslash _ _ _ _ _ hplain =>
    simp only [Bool.and_eq_true, decide_eq_true_eq] at hplain
    rw [List.cons_append, readString, if_neg hquote, if_neg hbackslash, if_neg (Nat.not_lt_of_le hplain.1)]
    rfl
  split
  · next hunit =>
    have hescape := readEscape_unit hunit hrest (readPair?_eq_none (isHigh_toNat c) rest)
    rw [unitChar_toNat] at hescape
    exact readString_backslash acc offset hescape
  · next hunit =>
    have hpair := pairChar?_toNat (Nat.le_of_not_lt hunit)
    rw [← readPair?_unitEscape (by omega) hrest] at hpair
    have hescape := readEscape_pair (by omega) (by simp [unitEscape]) hpair
    rw [← List.append_assoc] at hescape
    exact readString_backslash acc offset hescape

theorem readString_text (acc : List Char) (offset : Nat) (s rest : List Char) :
    readString acc offset 0 (s.flatMap escapeChar ++ '"' :: rest) =
      .done (acc.reverse ++ s) (offset + (s.flatMap escapeChar).length + 1) := by
  induction s generalizing acc offset with
  | nil => simp [readString]
  | cons c s ih =>
    rw [List.flatMap_cons, List.append_assoc, readString_escapeChar _ _ _ (by simp), ih]
    simp [Nat.add_assoc]

theorem writeString_eq (s : String) (rest : List Char) :
    writeString s rest = '"' :: (s.toList.flatMap escapeChar ++ '"' :: rest) := by
  rw [writeString]
  congr 1
  induction s.toList with
  | nil => rfl
  | cons c cs ih => rw [List.foldr_cons, ih, List.flatMap_cons, List.append_assoc]

theorem readToken_quote (s : String) (rest : List Char) :
    readToken '"' (s.toList.flatMap escapeChar ++ '"' :: rest) =
      (.text s, (s.toList.flatMap escapeChar ++ ['"']).length) := by
  rw [readToken]
  simp [readString_text]

/-- What may follow a value: nothing at all, or a character that no number goes on with. -/
def Delimited (rest : List Char) : Prop := ∀ c ∈ rest.head?, c = ',' ∨ c = '\n'

theorem readPlaces_delimited {rest : List Char} (h : Delimited rest) : readPlaces rest = [] := by
  unfold readPlaces
  split
  · exact absurd (h '.' rfl) (by decide)
  · rfl

theorem readExponent?_delimited {rest : List Char} (h : Delimited rest) : readExponent? rest = none := by
  cases rest with
  | nil => rfl
  | cons c rest => rcases h c rfl with rfl | rfl <;> rfl

theorem takeWhile_digits {ds rest : List Char} (hds : ∀ c ∈ ds, c.isDigit = true) (h : Delimited rest) :
    (ds ++ rest).takeWhile Char.isDigit = ds := by
  rw [List.takeWhile_append_of_pos hds]
  cases rest with
  | nil => simp
  | cons c rest => rcases h c rfl with rfl | rfl <;> simp [Char.isDigit]

theorem toDigits_cons {n : Nat} (h : 0 < n) : ∃ d ds, Nat.toDigits 10 n = d :: ds ∧ d ≠ '0' := by
  induction n using Nat.strongRecOn with
  | ind n ih =>
    rw [Nat.toDigits_eq_if (by decide)]
    split
    · next hlt =>
      refine ⟨_, _, rfl, ?_⟩
      have hdigit : ∀ k < 10, 0 < k → Nat.digitChar k ≠ '0' := by decide
      exact hdigit n hlt h
    · obtain ⟨d, ds, hds, hd⟩ := ih (n / 10) (by omega) (by omega)
      exact ⟨d, ds ++ [(n % 10).digitChar], by rw [hds, List.cons_append], hd⟩

theorem readWhole_toDigits (n : Nat) {rest : List Char} (h : Delimited rest) :
    readWhole (Nat.toDigits 10 n ++ rest) = Nat.toDigits 10 n := by
  have hdigits : (Nat.toDigits 10 n ++ rest).takeWhile Char.isDigit = Nat.toDigits 10 n :=
    takeWhile_digits (fun c hc => Nat.isDigit_of_mem_toDigits (by decide) (by decide) hc) h
  rcases Nat.eq_zero_or_pos n with rfl | hn
  · rfl
  · obtain ⟨d, ds, hds, hd⟩ := toDigits_cons hn
    rw [hds] at hdigits ⊢
    rw [List.cons_append] at hdigits ⊢
    unfold readWhole
    split
    · next heq =>
      cases heq
      exact absurd rfl hd
    · exact hdigits

theorem readNumber_toDigits (neg : Bool) {n : Nat} (hn : (Nat.toDigits 10 n).length ≤ maxDigits) {rest : List Char}
    (h : Delimited rest) :
    readNumber neg (Nat.toDigits 10 n ++ rest) =
      (.scalar (.int (if neg then -n else n)), (Nat.toDigits 10 n).length) := by
  have hvalue : natOfDigits (Nat.toDigits 10 n) = n := Nat.ofDigitChars_toDigits (by decide) (by decide)
  simp [readNumber, readWhole_toDigits n h, readPlaces_delimited h, readExponent?_delimited h, hvalue,
    Nat.toDigits_ne_nil, Nat.not_lt_of_le hn]

theorem ne_of_isDigit {c d : Char} (hc : c.isDigit = true) (hd : d.isDigit = false) : c ≠ d := by
  rintro rfl
  rw [hc] at hd
  cases hd

theorem words_digit {c : Char} (hc : c.isDigit = true) (cs : List Char) :
    (words.find? fun w => w.1.isPrefixOf (c :: cs)) = none := by
  have hne {d : Char} (hd : d.isDigit = false) : (d == c) = false := by
    simpa using (ne_of_isDigit hc hd).symm
  simp [words, List.isPrefixOf, hne]

theorem words_minus {c : Char} (hc : c.isDigit = true) (cs : List Char) :
    (words.find? fun w => w.1.isPrefixOf ('-' :: c :: cs)) = none := by
  have hne {d : Char} (hd : d.isDigit = false) : (d == c) = false := by
    simpa using (ne_of_isDigit hc hd).symm
  simp [words, List.isPrefixOf, hne]

theorem readToken_digit {c : Char} (hc : c.isDigit = true) (cs : List Char) :
    readToken c cs = ((readNumber false (c :: cs)).1, (readNumber false (c :: cs)).2 - 1) := by
  rw [readToken, words_digit hc]
  simp [ne_of_isDigit hc]

theorem readToken_minus {c : Char} (hc : c.isDigit = true) (cs : List Char) :
    readToken '-' (c :: cs) = readNumber true (c :: cs) := by
  rw [readToken, words_minus hc]
  simp

mutual

/-- What can be read back: integers are not too long, there are no other numbers, and no name is twice in an object. -/
def Readable : Json → Prop
  | null | bool _ | str _ => True
  | int n => (Nat.toDigits 10 n.natAbs).length ≤ maxDigits
  | float _ => False
  | list items => ReadableItems items
  | object fields => (fields.map Prod.fst).Nodup ∧ ReadableFields fields

def ReadableItems : List Json → Prop
  | [] => True
  | v :: vs => v.Readable ∧ ReadableItems vs

def ReadableFields : List (String × Json) → Prop
  | [] => True
  | (_, v) :: fs => v.Readable ∧ ReadableFields fs

end

mutual

def depth : Json → Nat
  | list items => depthItems items + 1
  | object fields => depthFields fields + 1
  | _ => 0

def depthItems : List Json → Nat
  | [] => 0
  | v :: vs => max v.depth (depthItems vs)

def depthFields : List (String × Json) → Nat
  | [] => 0
  | (_, v) :: fs => max v.depth (depthFields fs)

end

def Reads (s : ReadState) (cs : List Char) (s' : ReadState) (cs' : List Char) : Prop :=
  ∀ pos, ∃ pos', readFrom s pos 0 cs = readFrom s' pos' 0 cs'

namespace Reads

variable {s s' s'' : ReadState} {cs cs' cs'' rest : List Char}

theorem refl : Reads s cs s cs := fun pos => ⟨pos, rfl⟩

theorem trans (h : Reads s cs s' cs') (h' : Reads s' cs' s'' cs'') : Reads s cs s'' cs'' := by
  intro pos
  obtain ⟨pos', hpos'⟩ := h pos
  obtain ⟨pos'', hpos''⟩ := h' pos'
  exact ⟨pos'', hpos'.trans hpos''⟩

theorem blank {c : Char} (hc : isBlank c = true) (h : Reads s cs s' cs') : Reads s (c :: cs) s' cs' := by
  intro pos
  obtain ⟨pos', hpos'⟩ := h (pos + 1)
  exact ⟨pos', by rw [readFrom, if_pos hc, hpos']⟩

theorem line (level : Nat) (h : Reads s cs s' cs') : Reads s (writeLine level cs) s' cs' := by
  refine blank rfl ?_
  induction 2 * level with
  | zero => exact h
  | succ n ih => exact blank rfl ih

end Reads

theorem readFrom_skip (s : ReadState) (pos : Nat) (skipped rest : List Char) :
    readFrom s pos skipped.length (skipped ++ rest) = readFrom s (pos + skipped.length) 0 rest := by
  induction skipped generalizing pos with
  | nil => rfl
  | cons c cs ih => rw [List.length_cons, List.cons_append, readFrom, ih, Nat.add_assoc, Nat.add_comm 1]

theorem Reads.token {s s' : ReadState} {c : Char} (cs : List Char) {rest : List Char} {t : Token}
    (hc : isBlank c = false) (htoken : readToken c (cs ++ rest) = (t, cs.length))
    (hstep : ∀ pos, s.step pos t = .ok s') :
    Reads s (c :: (cs ++ rest)) s' rest := by
  intro pos
  refine ⟨pos + 1 + cs.length, ?_⟩
  rw [readFrom, if_neg (by simp [hc]), htoken]
  simp only [hstep, readFrom_skip]

theorem Reads.text {s s' : ReadState} (t : String) (rest : List Char) (hstep : ∀ pos, s.step pos (.text t) = .ok s') :
    Reads s (writeString t rest) s' rest := by
  have htoken := readToken_quote t rest
  rw [List.append_cons] at htoken
  rw [writeString_eq, List.append_cons]
  exact .token _ rfl htoken hstep

theorem setField_of_notMem {fields : List (String × Json)} {k : String} (v : Json) (h : k ∉ fields.map Prod.fst) :
    setField fields k v = fields ++ [(k, v)] := by
  rw [setField, if_neg]
  simpa using h

theorem notMem_of_nodup {fields fs : List (String × Json)} {k : String} {v : Json}
    (h : ((fields ++ (k, v) :: fs).map Prod.fst).Nodup) : k ∉ fields.map Prod.fst := by
  rw [List.map_append, List.map_cons, List.nodup_append] at h
  exact fun hk => h.2.2 k hk k List.mem_cons_self rfl

def ReadState.TakesValue (s : ReadState) : Prop := ∀ pos t, t ≠ .closeList → s.step pos t = s.beginValue pos t

theorem ReadState.takesValue_value (outer : List Container) : TakesValue ⟨.value, outer⟩ := fun _ _ _ => rfl

theorem ReadState.takesValue_itemOrClose (outer : List Container) : TakesValue ⟨.itemOrClose, outer⟩ := by
  intro pos t ht
  cases t with
  | closeList => exact absurd rfl ht
  | _ => rfl

theorem ReadState.TakesValue.scalar {s : ReadState} (hs : s.TakesValue) (v : Json) (pos : Nat) :
    s.step pos (.scalar v) = .ok ⟨.after v, s.outer⟩ :=
  hs pos _ (by simp)

theorem ReadState.TakesValue.openList {s : ReadState} (hs : s.TakesValue) (h : s.outer.length < maxDepth) (pos : Nat) :
    s.step pos .openList = .ok ⟨.itemOrClose, .list [] :: s.outer⟩ :=
  (hs pos .openList (by simp)).trans (if_neg (Nat.not_le_of_lt h))

theorem ReadState.TakesValue.openObject {s : ReadState} (hs : s.TakesValue) (h : s.outer.length < maxDepth)
    (pos : Nat) : s.step pos .openObject = .ok ⟨.keyOrClose, s.outer⟩ :=
  (hs pos .openObject (by simp)).trans (if_neg (Nat.not_le_of_lt h))

theorem Reads.int {s : ReadState} (hs : s.TakesValue) {n : Int} (hn : (int n).Readable) {rest : List Char}
    (hrest : Delimited rest) : Reads s ((toString n).toList ++ rest) ⟨.after (.int n), s.outer⟩ rest := by
  have hdigit {m : Nat} {c : Char} {cs : List Char} (h : Nat.toDigits 10 m = c :: cs) : c.isDigit = true :=
    Nat.isDigit_of_mem_toDigits (b := 10) (n := m) (by decide) (by decide) (by simp [h])
  cases n with
  | ofNat m =>
    have hnumber := readNumber_toDigits false hn hrest
    have htext : (toString (Int.ofNat m)).toList = Nat.toDigits 10 m := Nat.toList_repr
    rw [htext]
    obtain ⟨c, cs, hcs⟩ := List.exists_cons_of_ne_nil (Nat.toDigits_ne_nil (n := m) (b := 10))
    simp only [Int.natAbs_ofNat', hcs, List.cons_append] at hnumber ⊢
    have hc := hdigit hcs
    refine .token cs ?_ ((readToken_digit hc _).trans (by rw [hnumber]; rfl)) (hs.scalar _)
    simp [isBlank, ne_of_isDigit hc]
  | negSucc m =>
    have hnumber := readNumber_toDigits true hn hrest
    have htext : (toString (Int.negSucc m)).toList = '-' :: Nat.toDigits 10 (m + 1) := by
      rw [← Nat.toList_repr]
      exact String.toList_append
    rw [htext]
    obtain ⟨c, cs, hcs⟩ := List.exists_cons_of_ne_nil (Nat.toDigits_ne_nil (n := m + 1) (b := 10))
    simp only [Int.natAbs_negSucc, hcs, List.cons_append] at hnumber ⊢
    exact .token (c :: cs) rfl ((readToken_minus (hdigit hcs) _).trans hnumber) (hs.scalar _)

theorem delimited_writeItems (level n : Nat) (vs : List Json) (rest : List Char) :
    Delimited (writeItems level vs (writeLine n rest)) := by
  cases vs <;> simp [Delimited, writeItems, writeLine]

theorem delimited_writeFields (level n : Nat) (fs : List (String × Json)) (rest : List Char) :
    Delimited (writeFields level fs (writeLine n rest)) := by
  cases fs <;> simp [Delimited, writeFields, writeLine]

theorem Reads.key {s : ReadState} {fields : List (String × Json)} {k : String} (rest : List Char)
    (hstep : ∀ pos, s.step pos (.text k) = .ok ⟨.colon fields k, s.outer⟩) :
    Reads s (writeString k (':' :: ' ' :: rest)) ⟨.value, .object fields k :: s.outer⟩ rest := by
  refine .trans (.text k _ hstep) ?_
  exact .trans (.token [] rfl rfl fun _ => rfl) (.blank rfl .refl)

mutual

theorem reads_write : ∀ (v : Json) (level : Nat) {s : ReadState} {rest : List Char}, v.Readable → s.TakesValue →
    s.outer.length + v.depth ≤ maxDepth → Delimited rest → Reads s (write level v rest) ⟨.after v, s.outer⟩ rest
  | null, _, _, _, _, hs, _, _ | bool true, _, _, _, _, hs, _, _ | bool false, _, _, _, _, hs, _, _ =>
    .token _ rfl rfl (hs.scalar _)
  | int _, _, _, _, hv, hs, _, hrest => .int hs hv hrest
  | str t, _, _, rest, _, hs, _, _ => .text t rest fun pos => hs pos _ (by simp)
  | list [], _, s, rest, _, hs, hdepth, _ => by
    rw [depth] at hdepth
    refine .trans (.token [] rfl rfl (hs.openList (by omega))) ?_
    exact .token [] rfl rfl fun _ => rfl
  | list (v :: vs), level, s, rest, hv, hs, hdepth, _ => by
    simp only [depth, depthItems] at hdepth
    refine .trans (.token [] rfl rfl (hs.openList (by omega))) (.line _ ?_)
    have hfirst := reads_write v (level + 1) hv.1 (ReadState.takesValue_itemOrClose (.list [] :: s.outer))
      (by simp only [List.length_cons]; omega) (delimited_writeItems (level + 1) level vs (']' :: rest))
    exact hfirst.trans (reads_writeItems vs (level + 1) level hv.2 (by omega))
  | object [], _, s, rest, _, hs, hdepth, _ => by
    rw [depth] at hdepth
    refine .trans (.token [] rfl rfl (hs.openObject (by omega))) ?_
    exact .token [] rfl rfl fun _ => rfl
  | object ((k, v) :: fs), level, s, rest, hv, hs, hdepth, _ => by
    simp only [depth, depthFields] at hdepth
    refine .trans (.token [] rfl rfl (hs.openObject (by omega))) (.line _ (.trans (.key _ fun _ => rfl) ?_))
    have hfirst := reads_write v (level + 1) hv.2.1 (ReadState.takesValue_value (.object [] k :: s.outer))
      (by simp only [List.length_cons]; omega) (delimited_writeFields (level + 1) level fs ('\x7d' :: rest))
    exact hfirst.trans (reads_writeFields fs (level + 1) level hv.1 hv.2.2 (by omega))

theorem reads_writeItems : ∀ (vs : List Json) (level n : Nat) {v : Json} {items : List Json} {outer : List Container}
    {rest : List Char}, ReadableItems vs → outer.length + 1 + depthItems vs ≤ maxDepth →
    Reads ⟨.after v, .list items :: outer⟩ (writeItems level vs (writeLine n (']' :: rest)))
      ⟨.after (.list (items.reverse ++ v :: vs)), outer⟩ rest
  | [], level, n, v, items, outer, rest, _, _ => by
    rw [writeItems]
    refine .line _ (.token [] rfl rfl fun _ => ?_)
    simp [ReadState.step, ReadState.continueAfter]
  | w :: vs, level, n, v, items, outer, rest, hvs, hdepth => by
    rw [depthItems] at hdepth
    rw [writeItems]
    refine .trans (.token [] rfl rfl fun _ => rfl) (.line _ ?_)
    have hfirst := reads_write w level hvs.1 (ReadState.takesValue_value (.list (v :: items) :: outer))
      (by simp only [List.length_cons]; omega) (delimited_writeItems level n vs (']' :: rest))
    have hitems : items.reverse ++ v :: w :: vs = (v :: items).reverse ++ w :: vs := by simp
    rw [hitems]
    exact hfirst.trans (reads_writeItems vs level n hvs.2 (by omega))

theorem reads_writeFields : ∀ (fs : List (String × Json)) (level n : Nat) {k : String} {v : Json}
    {fields : List (String × Json)} {outer : List Container} {rest : List Char},
    ((fields ++ (k, v) :: fs).map Prod.fst).Nodup → ReadableFields fs →
    outer.length + 1 + depthFields fs ≤ maxDepth →
    Reads ⟨.after v, .object fields k :: outer⟩ (writeFields level fs (writeLine n ('\x7d' :: rest)))
      ⟨.after (.object (fields ++ (k, v) :: fs)), outer⟩ rest
  | [], level, n, k, v, fields, outer, rest, hkeys, _, _ => by
    rw [writeFields]
    refine .line _ (.token [] rfl rfl fun _ => ?_)
    simp [ReadState.step, ReadState.continueAfter, setField_of_notMem v (notMem_of_nodup hkeys)]
  | (k', w) :: fs, level, n, k, v, fields, outer, rest, hkeys, hfs, hdepth => by
    rw [depthFields] at hdepth
    rw [writeFields]
    refine .trans (.token [] rfl rfl fun _ => rfl) (.line _ (.trans (.key _ fun _ => rfl) ?_))
    rw [setField_of_notMem v (notMem_of_nodup hkeys)]
    have hfirst := reads_write w level hfs.1 (ReadState.takesValue_value (.object (fields ++ [(k, v)]) k' :: outer))
      (by simp only [List.length_cons]; omega) (delimited_writeFields level n fs ('\x7d' :: rest))
    have hfields : fields ++ (k, v) :: (k', w) :: fs = fields ++ [(k, v)] ++ (k', w) :: fs := by simp
    rw [hfields] at hkeys ⊢
    exact hfirst.trans (reads_writeFields fs level n hkeys hfs.2 (by omega))

end

theorem readFrom_mark (cs : List Char) : readFrom .start 0 0 ('\ufeff' :: cs) = .error (.malformed .value 0) := by
  simp [readFrom, isBlank, readToken, words, List.isPrefixOf, readNumber, readWhole, Char.isDigit, ReadState.start,
    ReadState.step, ReadState.beginValue]

theorem read_render {v : Json} (hv : v.Readable) (hdepth : v.depth ≤ maxDepth) : read v.render = .ok v := by
  have hreads : Reads .start (v.write 0 []) ⟨.after v, []⟩ [] :=
    reads_write v 0 hv (ReadState.takesValue_value []) (by simpa [ReadState.start] using hdepth) (by simp [Delimited])
  obtain ⟨pos, hpos⟩ := hreads 0
  have hok : readFrom .start 0 0 (v.write 0 []) = .ok v := hpos
  rw [read, render, String.toList_ofList]
  split
  · next heq =>
    rw [heq, readFrom_mark] at hok
    cases hok
  · exact hok

end IndexedTyping.Json
