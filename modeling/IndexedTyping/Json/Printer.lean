import IndexedTyping.Json.Basic
import IndexedTyping.Decimal.Shortest
import IndexedTyping.Text.Quoted

namespace IndexedTyping.Json

def unitEscape (n : Nat) : List Char := '\\' :: 'u' :: Text.hex 4 n

def escapeChar (c : Char) : List Char :=
  if c = '"' then ['\\', '"']
  else if c = '\\' then ['\\', '\\']
  else if c = '\n' then ['\\', 'n']
  else if c = '\r' then ['\\', 'r']
  else if c = '\t' then ['\\', 't']
  else if c = '\x0c' then ['\\', 'f']
  else if c = '\x08' then ['\\', 'b']
  else if 0x20 ≤ c.toNat && c.toNat < 0x7f then [c]
  else if c.toNat < 0x10000 then unitEscape c.toNat
  else
    let n := c.toNat - 0x10000
    unitEscape (0xd800 + n / 0x400) ++ unitEscape (0xdc00 + n % 0x400)

def writeString (s : String) (rest : List Char) : List Char :=
  '"' :: s.toList.foldr (fun c r => escapeChar c ++ r) ('"' :: rest)

def renderFloat : Decimal.Double → String
  | .nan => "NaN"
  | .infinity neg => if neg then "-Infinity" else "Infinity"
  | x => x.render

def writeLine (level : Nat) (rest : List Char) : List Char := '\n' :: (List.replicate (2 * level) ' ' ++ rest)

mutual

def write (level : Nat) : Json → List Char → List Char
  | null, rest => "null".toList ++ rest
  | bool b, rest => (if b then "true" else "false").toList ++ rest
  | int n, rest => (toString n).toList ++ rest
  | float x, rest => (renderFloat x).toList ++ rest
  | str s, rest => writeString s rest
  | list [], rest => '[' :: ']' :: rest
  | list (v :: vs), rest =>
    '[' :: writeLine (level + 1) (write (level + 1) v (writeItems (level + 1) vs (writeLine level (']' :: rest))))
  | object [], rest => '\x7b' :: '\x7d' :: rest
  | object ((k, v) :: fs), rest =>
    '\x7b' :: writeLine (level + 1) (writeString k (':' :: ' ' :: write (level + 1) v
      (writeFields (level + 1) fs (writeLine level ('\x7d' :: rest)))))

def writeItems (level : Nat) : List Json → List Char → List Char
  | [], rest => rest
  | v :: vs, rest => ',' :: writeLine level (write level v (writeItems level vs rest))

def writeFields (level : Nat) : List (String × Json) → List Char → List Char
  | [], rest => rest
  | (k, v) :: fs, rest =>
    ',' :: writeLine level (writeString k (':' :: ' ' :: write level v (writeFields level fs rest)))

end

def render (j : Json) : String := String.ofList (j.write 0 [])

mutual

def display : Json → String
  | null => "None"
  | bool b => if b then "True" else "False"
  | int n => toString n
  | float x => x.render
  | str s => Text.quoted s
  | list items => "[" ++ ", ".intercalate (displayItems items) ++ "]"
  | object fields => "\x7b" ++ ", ".intercalate (displayFields fields) ++ "\x7d"

def displayItems : List Json → List String
  | [] => []
  | v :: vs => v.display :: displayItems vs

def displayFields : List (String × Json) → List String
  | [] => []
  | (k, v) :: fs => (Text.quoted k ++ ": " ++ v.display) :: displayFields fs

end

end IndexedTyping.Json
