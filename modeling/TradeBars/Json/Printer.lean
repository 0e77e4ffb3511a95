import TradeBars.Decimal.Digits
import TradeBars.Decimal.Shortest
import TradeBars.Json.Value

/-! Compact JSON text: no spaces, each key of an object once and in the order of
its code points, strings escaped only where JSON demands it. -/
namespace TradeBars.Json

def hexDigit (n : Nat) : Char :=
  if n < 10 then Char.ofNat (48 + n) else Char.ofNat (87 + n)

/-- The short escapes where there is one, `\u00xx` for the other control characters. -/
def escape (c : Char) : List Char :=
  match c with
  | '"' => ['\\', '"']
  | '\\' => ['\\', '\\']
  | '\x08' => ['\\', 'b']
  | '\x0c' => ['\\', 'f']
  | '\n' => ['\\', 'n']
  | '\r' => ['\\', 'r']
  | '\t' => ['\\', 't']
  | _ =>
    if c.toNat < 0x20 then
      ['\\', 'u', '0', '0', hexDigit (c.toNat / 16), hexDigit (c.toNat % 16)]
    else [c]

def quote (s : String) : List Char := '"' :: s.toList.flatMap escape ++ ['"']

/-- The digits of a coefficient without its trailing zeros, but at least one. -/
def significant (ds : List Char) : List Char :=
  match (ds.reverse.dropWhile (· == '0')).reverse with
  | [] => ['0']
  | ds => ds

/-- Lays out `d.ddd * 10 ^ e`: with a point and at least one digit after it while
`-5 ≤ e < 16`, else with an exponent that always has a sign. -/
def layout (ds : List Char) (e : Int) : List Char :=
  if 0 ≤ e ∧ e < 16 then
    let whole := ds.take (e.toNat + 1) ++ List.replicate (e.toNat + 1 - ds.length) '0'
    let fraction := ds.drop (e.toNat + 1)
    whole ++ '.' :: (if fraction.isEmpty then ['0'] else fraction)
  else if -5 ≤ e ∧ e < 0 then
    ['0', '.'] ++ List.replicate (-e - 1).toNat '0' ++ ds
  else
    let tail := 'e' :: (if e < 0 then '-' else '+') :: Decimal.digits e.natAbs
    match ds with
    | d :: more@(_ :: _) => d :: '.' :: more ++ tail
    | ds => ds ++ tail

/-- A finite value by its shortest decimal that reads back; JSON has no others. -/
def floatText (x : Float) : List Char :=
  match Float.Model.UnpackedFloat.unpack Float.Model.Format.binary64 x.toBits.toBitVec with
  | .zero .positive => "0.0".toList
  | .zero .negative => "-0.0".toList
  | .finite sign m q _ =>
    let (c, e) := Decimal.shortest m q
    let ds := Decimal.digits c
    let text := layout (significant ds) (e + ds.length - 1)
    match sign with
    | .positive => text
    | .negative => '-' :: text
  | _ => "null".toList

def Number.text : Number → List Char
  | .int n => Decimal.ofInt n
  | .float x => floatText x

/-- Puts a member in its place among others that are sorted by key, over one with
the same key. -/
def insertMember (key : String) (text : List Char) :
    List (String × List Char) → List (String × List Char)
  | [] => [(key, text)]
  | (k, t) :: rest =>
    if key < k then (key, text) :: (k, t) :: rest
    else if key == k then (key, text) :: rest
    else (k, t) :: insertMember key text rest

def bracketed (first last : Char) (parts : List (List Char)) : List Char :=
  first :: (parts.intersperse [',']).flatten ++ [last]

mutual

def chars : Json → List Char
  | .null => "null".toList
  | .bool true => "true".toList
  | .bool false => "false".toList
  | .num n => n.text
  | .str s => quote s
  | .arr items => bracketed '[' ']' (itemChars items)
  | .obj members =>
    let sorted := (memberChars members).foldl (fun done (k, t) => insertMember k t done) []
    bracketed '{' '}' (sorted.map fun (k, t) => quote k ++ ':' :: t)
  | .unpaired => quote "\ufffd"

def itemChars : List Json → List (List Char)
  | [] => []
  | v :: rest => chars v :: itemChars rest

def memberChars : List (String × Json) → List (String × List Char)
  | [] => []
  | (k, v) :: rest => (k, chars v) :: memberChars rest

end

def text (v : Json) : String := String.ofList v.chars

end TradeBars.Json
