import EdgeCache.Time
import Mathlib.Data.List.DropRight

/-!
JSON values, and the operations of the language on them and on strings that the HTTP
layer uses: conversion to text, `JSON.stringify`, `Object.keys`, `trim` and `parseInt`. A
parsed query holds the same values, without numbers.
-/
namespace EdgeCache

/-- A number comes with the text `String(x)` gives of it. -/
inductive Json where
  | null
  | bool (b : Bool)
  | number (x : JsNumber) (text : String)
  | string (s : String)
  | array (items : List Json)
  | object (fields : List (String × Json))

namespace Json

mutual

/-- `String(x)`. A property `toString` hides the inherited method and is no function, so
that the conversion throws. -/
def toText : Json → Option String
  | .null => some "null"
  | .bool b => some (if b then "true" else "false")
  | .number _ text => some text
  | .string s => some s
  | .array items => (itemTexts items).map (String.intercalate ",")
  | .object fields =>
    if fields.any fun (name, _) => name = "toString" then none else some "[object Object]"

/-- `join` writes nothing for null. -/
def itemTexts : List Json → Option (List String)
  | [] => some []
  | .null :: rest => (itemTexts rest).map ("" :: ·)
  | item :: rest =>
    (toText item).bind fun text => (itemTexts rest).map (text :: ·)

end

def escape (c : Char) : String :=
  match c.toNat with
  | 0x08 => "\\b"
  | 0x09 => "\\t"
  | 0x0A => "\\n"
  | 0x0C => "\\f"
  | 0x0D => "\\r"
  | 0x22 => "\\\""
  | 0x5C => "\\\\"
  | n => if n < 0x20 then "\\u00" ++ String.ofList [(n / 16).digitChar, (n % 16).digitChar]
    else c.toString

def quote (s : String) : String := "\"" ++ String.join (s.toList.map escape) ++ "\""

mutual

/-- `JSON.stringify(x)`; a number that is not finite is written as null. -/
def stringify : Json → String
  | .null => "null"
  | .bool b => if b then "true" else "false"
  | .number (.finite _) text => text
  | .number _ _ => "null"
  | .string s => quote s
  | .array items => "[" ++ String.intercalate "," (stringifyItems items) ++ "]"
  | .object fields => "\x7b" ++ String.intercalate "," (stringifyFields fields) ++ "\x7d"

def stringifyItems : List Json → List String
  | [] => []
  | item :: rest => stringify item :: stringifyItems rest

def stringifyFields : List (String × Json) → List String
  | [] => []
  | (name, item) :: rest => (quote name ++ ":" ++ stringify item) :: stringifyFields rest

end

/-- Whether `typeof x === 'object'` of a value that is not null. -/
def isObject : Json → Bool
  | .array _ | .object _ => true
  | _ => false

end Json

/-! ### Strings -/

/-- `s.length`, in units of UTF-16. -/
def utf16Length (s : String) : ℕ :=
  (s.toList.map fun c => if c.toNat < 0x10000 then 1 else 2).sum

/-- What `trim` and `parseInt` take for white space. -/
def isSpace (c : Char) : Bool :=
  let n := c.toNat
  (0x9 ≤ n && n ≤ 0xD) || n = 0x20 || n = 0xA0 || n = 0x1680 || (0x2000 ≤ n && n ≤ 0x200A) ||
    n = 0x2028 || n = 0x2029 || n = 0x202F || n = 0x205F || n = 0x3000 || n = 0xFEFF

def trim (s : String) : String :=
  String.ofList ((s.toList.dropWhile isSpace).rdropWhile isSpace)

/-- `Object.keys(x).length`, which throws of null. -/
def Json.keyCount : Json → Option ℕ
  | .null => none
  | .string s => some (utf16Length s)
  | .array items => some items.length
  | .object fields => some fields.length
  | _ => some 0

/-! ### Numbers -/

/-- The number nearest to an integer; from half a unit above the largest number on it is
infinite. -/
def JsNumber.ofInt (n : ℤ) : JsNumber :=
  if 2 ^ 1024 - 2 ^ 970 ≤ n then .infinity
  else if n ≤ -(2 ^ 1024 - 2 ^ 970) then .negInfinity
  else .finite (double n)

/-- The digit a letter or decimal digit stands for. -/
def digitOf (c : Char) : Option ℕ :=
  if c.isDigit then some (c.toNat - '0'.toNat)
  else if c.isLower then some (c.toNat - 'a'.toNat + 10)
  else if c.isUpper then some (c.toNat - 'A'.toNat + 10)
  else none

/-- The digits of a radix that the characters begin with. -/
def leadingDigits (radix : ℕ) : List Char → List ℕ
  | [] => []
  | c :: rest =>
    match digitOf c with
    | some d => if d < radix then d :: leadingDigits radix rest else []
    | none => []

def digitsValue (radix : ℕ) (digits : List ℕ) : ℕ := digits.foldl (fun n d => radix * n + d) 0

def parseDigits (sign : ℤ) (cs : List Char) : JsNumber :=
  let (radix, cs) : ℕ × List Char := match cs with
    | '0' :: 'x' :: rest => (16, rest)
    | '0' :: 'X' :: rest => (16, rest)
    | _ => (10, cs)
  match leadingDigits radix cs with
  | [] => .nan
  | digits => .ofInt (sign * digitsValue radix digits)

/-- `parseInt(s)` -/
def parseInt (s : String) : JsNumber :=
  match s.toList.dropWhile isSpace with
  | '-' :: rest => parseDigits (-1) rest
  | '+' :: rest => parseDigits 1 rest
  | cs => parseDigits 1 cs

end EdgeCache
