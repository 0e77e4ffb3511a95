import TradeBars.Binary64

/-! JSON values as a reader finds them. Numbers keep the difference between
integers and fractions, and objects keep all their members in order. -/
namespace TradeBars

/-- A number literal: an integer of 64 bits, signed or unsigned, or else a binary64
value, which is infinite for a literal out of range. -/
inductive Json.Number where
  | int (n : Int)
  | float (x : Float)

inductive Json where
  | null
  | bool (b : Bool)
  | num (n : Json.Number)
  | str (s : String)
  | arr (items : List Json)
  | obj (members : List (String × Json))
  /-- A string, or an object with a key, whose escapes leave a surrogate unpaired:
  well-formed text that stands for no Unicode string. -/
  | unpaired

namespace Json

/-- The value under a key; of several members with the key the last one counts,
and what is no object has none. -/
def get? (v : Json) (key : String) : Option Json :=
  match v with
  | .obj members => members.reverse.lookup key
  | _ => none

/-- An integer literal between the two bounds. -/
def intIn? (low high : Int) : Json → Option Int
  | .num (.int n) => if low ≤ n ∧ n ≤ high then some n else none
  | _ => none

/-- An integer literal of 64 bits, signed. -/
def int64? (v : Json) : Option Int := v.intIn? (-0x8000000000000000) 0x7fffffffffffffff

def uint64? (v : Json) : Option UInt64 := (v.intIn? 0 0xffffffffffffffff).map (·.toNat.toUInt64)

def uint32? (v : Json) : Option UInt32 := (v.intIn? 0 0xffffffff).map (·.toNat.toUInt32)

/-- The binary64 value nearest to a number of either kind. -/
def Number.toFloat : Number → Float
  | .int n => Binary64.ofInt n
  | .float x => x

/-- Any number that is finite in binary64. -/
def float? : Json → Option Float
  | .num n => some n.toFloat |>.filter Float.isFinite
  | _ => none

def string? : Json → Option String
  | .str s => some s
  | _ => none

end Json

end TradeBars
