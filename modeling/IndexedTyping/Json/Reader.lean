import IndexedTyping.Json.Basic

/-!
Reading a value from text.

The reader goes over the characters once, from left to right, and keeps what it waits for and the lists and objects
that are open. So the first fault in the text is the one reported.
-/

namespace IndexedTyping.Json

inductive Flaw
  | value
  | name
  | colon
  | comma
  | extra
  | unterminated
  | control
  | escape
  | unit
  | mark
  deriving DecidableEq, Repr

def Flaw.message : Flaw → String
  | value => "Expecting value"
  | name => "Expecting property name enclosed in double quotes"
  | colon => "Expecting ':' delimiter"
  | comma => "Expecting ',' delimiter"
  | extra => "Extra data"
  | unterminated => "Unterminated string starting at"
  | control => "Invalid control character at"
  | escape => "Invalid \\escape"
  | unit => "Invalid \\uXXXX escape"
  | mark => "Unexpected UTF-8 BOM (decode using utf-8-sig)"

inductive ReadError
  | malformed (flaw : Flaw) (offset : Nat)
  | tooDeep
  | tooLong (digits : Nat)
  deriving DecidableEq, Repr

def maxDepth : Nat := 2000

def maxDigits : Nat := 4300

def isBlank (c : Char) : Bool := c = ' ' || c = '\t' || c = '\n' || c = '\r'

/-- A string after its opening quote, or what is wrong and how far after that quote. `unterminated` is the fault
of the whole string and has no offset of its own. -/
inductive StringResult
  | done (s : List Char) (length : Nat)
  | flawed (flaw : Flaw) (offset : Nat)
  deriving DecidableEq, Repr

def hexValue? (c : Char) : Option Nat :=
  if '0' ≤ c && c ≤ '9' then some (c.toNat - '0'.toNat)
  else if 'a' ≤ c && c ≤ 'f' then some (c.toNat - 'a'.toNat + 10)
  else if 'A' ≤ c && c ≤ 'F' then some (c.toNat - 'A'.toNat + 10)
  else none

def unit? (a b c d : Char) : Option Nat := do
  return (((← hexValue? a) * 16 + (← hexValue? b)) * 16 + (← hexValue? c)) * 16 + (← hexValue? d)

def simpleEscape? : Char → Option Char
  | '"' => some '"'
  | '\\' => some '\\'
  | '/' => some '/'
  | 'b' => some '\x08'
  | 'f' => some '\x0c'
  | 'n' => some '\n'
  | 'r' => some '\r'
  | 't' => some '\t'
  | _ => none

def isHigh (n : Nat) : Bool := 0xd800 ≤ n && n < 0xdc00

def isLow (n : Nat) : Bool := 0xdc00 ≤ n && n < 0xe000

def unitChar (n : Nat) : Char :=
  -- half of a pair alone stands for no character
  if isHigh n || isLow n then '\ufffd' else Char.ofNat n

def pairChar? (high low : Nat) : Option Char :=
  if isHigh high && isLow low then some (Char.ofNat (0x10000 + (high - 0xd800) * 0x400 + (low - 0xdc00))) else none

def readPair? (high : Nat) : List Char → Option Char
  | '\\' :: 'u' :: a :: b :: c :: d :: _ :: _ => (unit? a b c d).bind (pairChar? high)
  | _ => none

inductive EscapeResult
  | char (c : Char) (length : Nat)
  | flawed (flaw : Flaw) (offset : Nat)
  deriving DecidableEq, Repr

/-- Reads what follows a backslash. The escape of a unit counts only if the text goes on after it. -/
def readEscape : List Char → EscapeResult
  | [] => .flawed .unterminated 0
  | 'u' :: a :: b :: c :: d :: e :: rest =>
    match unit? a b c d with
    | none => .flawed .unit 1
    | some n =>
      match readPair? n (e :: rest) with
      | some p => .char p 11
      | none => .char (unitChar n) 5
  | 'u' :: _ => .flawed .unit 1
  | c :: _ =>
    match simpleEscape? c with
    | some c' => .char c' 1
    | none => .flawed .escape 0

/-- Reads up to the closing quote; `acc` holds the characters so far, last first. The next `skip` characters belong
to an escape that was read already. -/
def readString (acc : List Char) (offset skip : Nat) : List Char → StringResult
  | [] => .flawed .unterminated 0
  | c :: cs =>
    match skip with
    | n + 1 => readString acc (offset + 1) n cs
    | 0 =>
      if c = '"' then .done acc.reverse (offset + 1)
      else if c = '\\' then
        match readEscape cs with
        | .char c' n => readString (c' :: acc) (offset + 1) n cs
        | .flawed f n => .flawed f (offset + n)
      else if c.toNat < 0x20 then .flawed .control offset
      else readString (c :: acc) (offset + 1) 0 cs

def digitValue (c : Char) : Nat := c.toNat - '0'.toNat

def natOfDigits (ds : List Char) : Nat := ds.foldl (fun n d => 10 * n + digitValue d) 0

def readPlaces : List Char → List Char
  | '.' :: rest => rest.takeWhile Char.isDigit
  | _ => []

def readExponent? : List Char → Option (Int × Nat)
  | e :: rest =>
    if e = 'e' || e = 'E' then
      let (sign, skipped, rest) : Int × Nat × List Char :=
        match rest with
        | '+' :: r => (1, 1, r)
        | '-' :: r => (-1, 1, r)
        | r => (1, 0, r)
      let ds := rest.takeWhile Char.isDigit
      if ds.isEmpty then none else some (sign * natOfDigits ds, 1 + skipped + ds.length)
    else none
  | [] => none

inductive Token
  | openList
  | closeList
  | openObject
  | closeObject
  | comma
  | colon
  | scalar (v : Json)
  | text (s : String)
  | broken (flaw : Flaw) (offset : Nat)
  | long (digits : Nat)
  | stray

def readWhole : List Char → List Char
  | '0' :: _ => ['0']
  | cs => cs.takeWhile Char.isDigit

/-- A number and the count of its characters after its sign. A point or an exponent without digits is not
part of it. -/
def readNumber (neg : Bool) (cs : List Char) : Token × Nat :=
  let whole := readWhole cs
  let rest := cs.drop whole.length
  let places := readPlaces rest
  let fraction := if places.isEmpty then 0 else places.length + 1
  if whole.isEmpty then (.stray, 0)
  else
    match readExponent? (rest.drop fraction) with
    | some (e, n) =>
      (.scalar (.float (.ofDecimal neg (natOfDigits (whole ++ places)) (e - places.length))),
        whole.length + fraction + n)
    | none =>
      if !places.isEmpty then
        (.scalar (.float (.ofDecimal neg (natOfDigits (whole ++ places)) (-places.length))), whole.length + fraction)
      else if maxDigits < whole.length then (.long whole.length, whole.length)
      else (.scalar (.int (if neg then -natOfDigits whole else natOfDigits whole)), whole.length)

def words : List (List Char × Json) :=
  [("null".toList, .null), ("true".toList, .bool true), ("false".toList, .bool false),
    ("NaN".toList, .float .nan), ("Infinity".toList, .float (.infinity false)),
    ("-Infinity".toList, .float (.infinity true))]

def readToken (c : Char) (cs : List Char) : Token × Nat :=
  if c = '[' then (.openList, 0)
  else if c = ']' then (.closeList, 0)
  else if c = '\x7b' then (.openObject, 0)
  else if c = '\x7d' then (.closeObject, 0)
  else if c = ',' then (.comma, 0)
  else if c = ':' then (.colon, 0)
  else if c = '"' then
    match readString [] 0 0 cs with
    | .done s n => (.text (String.ofList s), n)
    | .flawed .unterminated _ => (.broken .unterminated 0, 0)
    | .flawed f n => (.broken f (n + 1), 0)
  else
    match words.find? fun w => w.1.isPrefixOf (c :: cs) with
    | some (w, v) => (.scalar v, w.length - 1)
    | none =>
      if c = '-' then readNumber true cs
      else
        let (t, n) := readNumber false (c :: cs)
        (t, n - 1)

inductive Container
  | list (items : List Json)
  | object (fields : List (String × Json)) (key : String)

inductive Want
  | value
  | itemOrClose
  | key (fields : List (String × Json))
  | keyOrClose
  | colon (fields : List (String × Json)) (key : String)
  | after (v : Json)

structure ReadState where
  want : Want
  outer : List Container

namespace ReadState

def start : ReadState := ⟨.value, []⟩

def opened (s : ReadState) (want : Want) (outer : List Container) : Except ReadError ReadState :=
  if maxDepth ≤ s.outer.length then .error .tooDeep else .ok ⟨want, outer⟩

def beginValue (s : ReadState) (pos : Nat) : Token → Except ReadError ReadState
  | .openList => s.opened .itemOrClose (.list [] :: s.outer)
  | .openObject => s.opened .keyOrClose s.outer
  | .scalar v => .ok ⟨.after v, s.outer⟩
  | .text t => .ok ⟨.after (.str t), s.outer⟩
  | .broken f n => .error (.malformed f (pos + n))
  | .long n => .error (.tooLong n)
  | _ => .error (.malformed .value pos)

def beginKey (s : ReadState) (pos : Nat) (fields : List (String × Json)) : Token → Except ReadError ReadState
  | .text k => .ok ⟨.colon fields k, s.outer⟩
  | .broken f n => .error (.malformed f (pos + n))
  | _ => .error (.malformed .name pos)

def continueAfter (v : Json) (pos : Nat) : List Container → Token → Except ReadError ReadState
  | .list items :: outer, .comma => .ok ⟨.value, .list (v :: items) :: outer⟩
  | .list items :: outer, .closeList => .ok ⟨.after (.list (v :: items).reverse), outer⟩
  | .object fields k :: outer, .comma => .ok ⟨.key (setField fields k v), outer⟩
  | .object fields k :: outer, .closeObject => .ok ⟨.after (.object (setField fields k v)), outer⟩
  | _ :: _, _ => .error (.malformed .comma pos)
  | [], _ => .error (.malformed .extra pos)

def step (s : ReadState) (pos : Nat) (t : Token) : Except ReadError ReadState :=
  match s.want with
  | .value => s.beginValue pos t
  | .itemOrClose =>
    match t, s.outer with
    | .closeList, _ :: outer => .ok ⟨.after (.list []), outer⟩
    | t, _ => s.beginValue pos t
  | .key fields => s.beginKey pos fields t
  | .keyOrClose =>
    match t with
    | .closeObject => .ok ⟨.after (.object []), s.outer⟩
    | t => s.beginKey pos [] t
  | .colon fields k =>
    match t with
    | .colon => .ok ⟨.value, .object fields k :: s.outer⟩
    | _ => .error (.malformed .colon pos)
  | .after v => continueAfter v pos s.outer t

def finish (s : ReadState) (pos : Nat) : Except ReadError Json :=
  match s.want, s.outer with
  | .after v, [] => .ok v
  | .after _, _ => .error (.malformed .comma pos)
  | .value, _ | .itemOrClose, _ => .error (.malformed .value pos)
  | .key _, _ | .keyOrClose, _ => .error (.malformed .name pos)
  | .colon .., _ => .error (.malformed .colon pos)

end ReadState

def readFrom (s : ReadState) (pos skip : Nat) : List Char → Except ReadError Json
  | [] => s.finish pos
  | c :: cs =>
    match skip with
    | n + 1 => readFrom s (pos + 1) n cs
    | 0 =>
      if isBlank c then readFrom s (pos + 1) 0 cs
      else
        let (t, n) := readToken c cs
        match s.step pos t with
        | .ok s' => readFrom s' (pos + 1) n cs
        | .error e => .error e

def read (text : String) : Except ReadError Json :=
  match text.toList with
  | '\ufeff' :: _ => .error (.malformed .mark 0)
  | cs => readFrom .start 0 0 cs

def lineColumn (text : String) (offset : Nat) : Nat × Nat :=
  let before := text.toList.take offset
  (before.count '\n' + 1, (before.reverse.takeWhile (· != '\n')).length + 1)

end IndexedTyping.Json
