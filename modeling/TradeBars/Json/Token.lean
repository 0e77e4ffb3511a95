import TradeBars.Decimal.Numeral
import TradeBars.Json.Value

/-! The lexical tokens of JSON text. Escapes are checked here for their form;
whether they make up Unicode text is kept as part of the token, since a value that
nobody decodes need not. -/
namespace TradeBars.Json

/-- The text between two quotes, or `none` where a surrogate stays unpaired. -/
abbrev Text := Option String

inductive Token where
  | openArray
  | closeArray
  | openObject
  | closeObject
  | comma
  | colon
  | text (t : Text)
  | scalar (v : Json)

/-- A piece of quoted text: a character, or the 16-bit unit of a `\u` escape. -/
inductive Piece where
  | char (c : Char)
  | unit (n : Nat)

def hexValue? (c : Char) : Option Nat :=
  if c.isDigit then some (c.toNat - 48)
  else if 'a' ≤ c ∧ c ≤ 'f' then some (c.toNat - 87)
  else if 'A' ≤ c ∧ c ≤ 'F' then some (c.toNat - 55)
  else none

/-- The character of a one-letter escape. -/
def escaped? (c : Char) : Option Char :=
  match c with
  | '"' | '\\' | '/' => some c
  | 'b' => some '\x08'
  | 'f' => some '\x0c'
  | 'n' => some '\n'
  | 'r' => some '\r'
  | 't' => some '\t'
  | _ => none

/-- The pieces up to the closing quote, and what follows it. -/
def pieces? : List Char → Option (List Piece × List Char)
  | '"' :: rest => some ([], rest)
  | '\\' :: 'u' :: a :: b :: c :: d :: rest => do
    let n := (← hexValue? a) * 4096 + (← hexValue? b) * 256 + (← hexValue? c) * 16 + (← hexValue? d)
    let (ps, rest) ← pieces? rest
    return (.unit n :: ps, rest)
  | '\\' :: c :: rest => do
    let c ← escaped? c
    let (ps, rest) ← pieces? rest
    return (.char c :: ps, rest)
  | c :: rest =>
    if c.toNat < 0x20 || c == '\\' then none
    else do
      let (ps, rest) ← pieces? rest
      return (.char c :: ps, rest)
  | [] => none

def isHighSurrogate (n : Nat) : Bool := 0xd800 ≤ n && n < 0xdc00

def isLowSurrogate (n : Nat) : Bool := 0xdc00 ≤ n && n < 0xe000

/-- The characters that the pieces spell: a high surrogate takes the low one that
must follow it. -/
def joined? : List Piece → Option (List Char)
  | [] => some []
  | .char c :: ps => (joined? ps).map (c :: ·)
  | .unit high :: .unit low :: ps =>
    if isHighSurrogate high then
      if isLowSurrogate low then
        (joined? ps).map (Char.ofNat (0x10000 + (high - 0xd800) * 1024 + (low - 0xdc00)) :: ·)
      else none
    else if isLowSurrogate high then none
    else (joined? (.unit low :: ps)).map (Char.ofNat high :: ·)
  | .unit n :: ps =>
    if isHighSurrogate n || isLowSurrogate n then none
    else (joined? ps).map (Char.ofNat n :: ·)

/-- Text after its opening quote. -/
def quoted? (cs : List Char) : Option (Text × List Char) :=
  (pieces? cs).map fun (ps, rest) => ((joined? ps).map String.ofList, rest)

def isSpace (c : Char) : Bool := c == ' ' || c == '\t' || c == '\n' || c == '\r'

def isNumberChar (c : Char) : Bool :=
  c.isDigit || c == '-' || c == '+' || c == '.' || c == 'e' || c == 'E'

/-- The integers that keep their exact value. -/
def fitsWord (n : Int) : Bool := -0x8000000000000000 ≤ n && n < 0x10000000000000000

/-- A number literal: no leading zero, no plus sign, digits on both sides of a
point. Negative zero is no integer, as it would lose its sign. Very long digits are
abridged, so that one whose whole part ends in hundreds of zeros rounds up from a midpoint. -/
def number? (cs : List Char) : Option Number :=
  let (negative, rest) := match cs with
    | '-' :: rest => (true, rest)
    | rest => (false, rest)
  match Decimal.Spelling.read? rest with
  | none => none
  | some s =>
    let wholeOk := match s.whole with
      | [] => false
      | c :: more => c != '0' || more.isEmpty
    if !wholeOk || s.fraction == some [] then none
    else
      let magnitude : Int := Decimal.value s.whole
      let n := if negative then -magnitude else magnitude
      if s.fraction.isNone && s.exponent.isNone && fitsWord n && !(negative && n == 0) then
        some (.int n)
      else some (.float (s.abridgedNumeral negative).toFloat)

def word? (cs : List Char) : Option Json :=
  if cs == "true".toList then some (.bool true)
  else if cs == "false".toList then some (.bool false)
  else if cs == "null".toList then some .null
  else none

theorem length_dropWhile_le {α : Type} (p : α → Bool) (xs : List α) :
    (xs.dropWhile p).length ≤ xs.length :=
  (List.dropWhile_sublist p).length_le

theorem length_of_pieces? {cs rest : List Char} {ps : List Piece}
    (h : pieces? cs = some (ps, rest)) : rest.length < cs.length := by
  fun_induction pieces? cs generalizing ps rest with
  | case1 => simp_all
  | case2 a b c d cs ih =>
    simp only [Option.bind_eq_bind, Option.bind_eq_some_iff, Option.pure_def,
      Option.some.injEq, Prod.mk.injEq] at h
    obtain ⟨_, _, _, _, _, _, _, _, ⟨_, tail⟩, read, _, rfl⟩ := h
    have := ih read
    simp only [List.length_cons]
    omega
  | case3 c cs _ ih =>
    simp only [Option.bind_eq_bind, Option.bind_eq_some_iff, Option.pure_def,
      Option.some.injEq, Prod.mk.injEq] at h
    obtain ⟨_, _, ⟨_, tail⟩, read, _, rfl⟩ := h
    have := ih read
    simp only [List.length_cons]
    omega
  | case4 => simp at h
  | case5 c cs _ _ _ _ ih =>
    simp only [Option.bind_eq_bind, Option.bind_eq_some_iff, Option.pure_def,
      Option.some.injEq, Prod.mk.injEq] at h
    obtain ⟨⟨_, tail⟩, read, _, rfl⟩ := h
    have := ih read
    simp only [List.length_cons]
    omega
  | case6 => simp at h

theorem length_of_quoted? {cs rest : List Char} {t : Text} (h : quoted? cs = some (t, rest)) :
    rest.length < cs.length := by
  simp only [quoted?, Option.map_eq_some_iff, Prod.mk.injEq] at h
  obtain ⟨⟨ps, tail⟩, read, _, rfl⟩ := h
  exact length_of_pieces? read

/-- The tokens of a whole text. -/
def tokens? : List Char → Option (List Token)
  | [] => some []
  | c :: cs =>
    if isSpace c then tokens? cs
    else if c == '"' then
      match _read : quoted? cs with
      | some (t, rest) => (tokens? rest).map (.text t :: ·)
      | none => none
    else if c.isAlpha then
      match word? (c :: cs.takeWhile Char.isAlpha) with
      | some v => (tokens? (cs.dropWhile Char.isAlpha)).map (.scalar v :: ·)
      | none => none
    else if isNumberChar c then
      match number? (c :: cs.takeWhile isNumberChar) with
      | some n => (tokens? (cs.dropWhile isNumberChar)).map (.scalar (.num n) :: ·)
      | none => none
    else
      let symbol : Option Token := match c with
        | '[' => some .openArray
        | ']' => some .closeArray
        | '{' => some .openObject
        | '}' => some .closeObject
        | ',' => some .comma
        | ':' => some .colon
        | _ => none
      match symbol with
      | some t => (tokens? cs).map (t :: ·)
      | none => none
termination_by cs => cs.length
decreasing_by
  all_goals simp only [List.length_cons]
  · omega
  · have := length_of_quoted? _read; omega
  · have := length_dropWhile_le Char.isAlpha cs; omega
  · have := length_dropWhile_le isNumberChar cs; omega
  · omega

end TradeBars.Json
