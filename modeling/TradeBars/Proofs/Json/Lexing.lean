import Mathlib.Data.List.TakeWhile
import TradeBars.Json.Printer
import TradeBars.Json.Reader
import TradeBars.Proofs.Text.Amounts

/-! The tokens of printed JSON. A quoted text and a symbol end by themselves; a number or a word
goes on until a character that cannot be part of it. -/
namespace TradeBars

namespace Decimal

theorem Spelling.read?_of_digits {ds : List Char} (digits : ∀ c ∈ ds, c.isDigit = true) :
    read? ds = some ⟨ds, none, none⟩ := by
  have taken := List.takeWhile_eq_self_iff.mpr digits
  have dropped := List.dropWhile_eq_nil_iff.mpr digits
  simp [read?, taken, dropped]

/-- Only zero itself is written with a zero in front. -/
theorem eq_nil_of_digits {n : Nat} {cs : List Char} (text : digits n = '0' :: cs) : cs = [] := by
  fun_induction digits n generalizing cs with
  | case1 n small => exact (List.cons.inj text).2.symm
  | case2 n large ih =>
    obtain ⟨c, more, front⟩ := List.exists_cons_of_ne_nil (digits_ne_nil (n / 10))
    rw [front, List.cons_append] at text
    obtain ⟨rfl, -⟩ := List.cons.inj text
    have zero : value (digits (n / 10)) = 0 := by
      rw [front, ih front]
      rfl
    rw [value_digits] at zero
    omega

end Decimal

namespace Json

section Quoted

/-- A piece in front of those that are read. -/
def ahead (p : Piece) (read : Option (List Piece × List Char)) :
    Option (List Piece × List Char) := do
  let (ps, rest) ← read
  return (p :: ps, rest)

theorem pieces?_of_escaped {c d : Char} (short : escaped? c = some d) (cs : List Char) :
    pieces? ('\\' :: c :: cs) = ahead (.char d) (pieces? cs) := by
  have noUnit : c ≠ 'u' := by
    rintro rfl
    contradiction
  simp [pieces?, noUnit, short, ahead]

theorem hexValue?_hexDigit : ∀ n < 16, hexValue? (hexDigit n) = some n := by decide

theorem pieces?_of_unit {n : Nat} (small : n < 0x20) (cs : List Char) :
    pieces? ('\\' :: 'u' :: '0' :: '0' :: hexDigit (n / 16) :: hexDigit (n % 16) :: cs) =
      ahead (.unit n) (pieces? cs) := by
  have zero : hexValue? '0' = some 0 := rfl
  have whole : n / 16 * 16 + n % 16 = n := Nat.div_add_mod' n 16
  simp [pieces?, zero, hexValue?_hexDigit (n / 16) (by omega),
    hexValue?_hexDigit (n % 16) (by omega), whole, ahead]

theorem pieces?_of_plain {c : Char} (large : ¬ c.toNat < 0x20) (noQuote : c ≠ '"')
    (noSlash : c ≠ '\\') (cs : List Char) : pieces? (c :: cs) = ahead (.char c) (pieces? cs) := by
  simp [pieces?, noSlash, large, ahead]

/-- A unit that is no surrogate is a character of its own. -/
theorem joined?_unit {n : Nat} (small : n < 0xd800) (ps : List Piece) :
    joined? (.unit n :: ps) = (joined? ps).map (Char.ofNat n :: ·) := by
  have high : isHighSurrogate n = false := by simp [isHighSurrogate, small]
  have low : isLowSurrogate n = false := by
    simp [isLowSurrogate]
    omega
  rcases ps with _ | ⟨_ | _, ps⟩ <;> simp [joined?, high, low]

/-- Whatever a character is escaped to, it is one piece, which spells that character. -/
theorem exists_piece (c : Char) : ∃ p : Piece,
    (∀ cs, pieces? (escape c ++ cs) = ahead p (pieces? cs)) ∧
      ∀ ps, joined? (p :: ps) = (joined? ps).map (c :: ·) := by
  unfold escape
  split
  case h_8 noQuote noSlash _ _ _ _ _ =>
    split
    · next small =>
      refine ⟨.unit c.toNat, pieces?_of_unit small, fun ps => ?_⟩
      rw [joined?_unit (by omega), Char.ofNat_toNat]
    · next large =>
      exact ⟨.char c, pieces?_of_plain large noQuote noSlash, fun ps => by rw [joined?]⟩
  all_goals exact ⟨.char _, pieces?_of_escaped rfl, fun ps => by rw [joined?]⟩

theorem pieces?_escaped (cs rest : List Char) : ∃ ps,
    pieces? (cs.flatMap escape ++ '"' :: rest) = some (ps, rest) ∧ joined? ps = some cs := by
  induction cs with
  | nil => exact ⟨[], rfl, rfl⟩
  | cons c cs ih =>
    obtain ⟨p, read, spelled⟩ := exists_piece c
    obtain ⟨ps, read', spelled'⟩ := ih
    refine ⟨p :: ps, ?_, ?_⟩
    · rw [List.flatMap_cons, List.append_assoc, read, read']
      rfl
    · rw [spelled, spelled']
      rfl

theorem quoted?_escaped (s : String) (rest : List Char) :
    quoted? (s.toList.flatMap escape ++ '"' :: rest) = some (some s, rest) := by
  obtain ⟨ps, read, spelled⟩ := pieces?_escaped s.toList rest
  simp [quoted?, read, spelled]

end Quoted

section Numbers

variable {m : Nat}

theorem exists_digits (m : Nat) : ∃ c cs, Decimal.digits m = c :: cs ∧ c.isDigit = true ∧
    (∀ d ∈ cs, d.isDigit = true) ∧ (c = '0' → cs = []) := by
  obtain ⟨c, cs, text⟩ := List.exists_cons_of_ne_nil (Decimal.digits_ne_nil m)
  have digits : ∀ d ∈ c :: cs, d.isDigit = true := fun d member =>
    Decimal.isDigit_of_mem_digits (text ▸ member)
  refine ⟨c, cs, text, digits c List.mem_cons_self, fun d member =>
    digits d (List.mem_cons_of_mem _ member), ?_⟩
  rintro rfl
  exact Decimal.eq_nil_of_digits text

theorem number?_digits (word : fitsWord m = true) : number? (Decimal.digits m) = some (.int m) := by
  have read := Decimal.Spelling.read?_of_digits fun c => Decimal.isDigit_of_mem_digits (n := m)
  have value := Decimal.value_digits m
  obtain ⟨c, cs, text, digit, -, noZeros⟩ := exists_digits m
  rw [text] at read value ⊢
  unfold number?
  split
  next negative rest sign =>
  split at sign
  · next minus =>
    have isMinus := (List.cons.inj minus).1
    rw [isMinus] at digit
    exact absurd digit (by decide)
  · cases sign
    simpa [read, value, word] using noZeros

theorem number?_minus (word : fitsWord (-m) = true) (positive : 0 < m) :
    number? ('-' :: Decimal.digits m) = some (.int (-m)) := by
  have read := Decimal.Spelling.read?_of_digits fun c => Decimal.isDigit_of_mem_digits (n := m)
  have value := Decimal.value_digits m
  obtain ⟨c, cs, text, -, -, noZeros⟩ := exists_digits m
  rw [text] at read value ⊢
  unfold number?
  simpa [read, value, word, positive.ne'] using noZeros

theorem number?_ofInt {n : Int} (word : fitsWord n = true) :
    number? (Decimal.ofInt n) = some (.int n) := by
  obtain ⟨m, rfl | rfl⟩ := n.eq_nat_or_neg
  · rw [Decimal.ofInt, if_neg (by omega), Int.natAbs_natCast]
    exact number?_digits word
  · rcases Nat.eq_zero_or_pos m with rfl | positive
    · exact number?_digits word
    · rw [Decimal.ofInt, if_pos (by omega), Int.natAbs_neg, Int.natAbs_natCast]
      exact number?_minus word positive

end Numbers

/-- Text that no number or word goes on into. -/
def CutsOff (cs : List Char) : Prop := ∀ c ∈ cs.head?, isNumberChar c = false ∧ c.isAlpha = false

theorem CutsOff.append {cs ds : List Char} (one : CutsOff cs) (other : CutsOff ds) :
    CutsOff (cs ++ ds) := by
  cases cs with
  | nil => exact other
  | cons c cs => exact one

section Tokens

variable {c : Char} {cs rest : List Char}

/-- A character of a kind that has neither spaces nor the quote. -/
theorem not_isSpace_of {kind : Char → Bool} (isKind : kind c = true)
    (others : [' ', '\t', '\n', '\r', '"'].any kind = false) :
    isSpace c = false ∧ (c == '"') = false := by
  simp only [isSpace, Bool.or_eq_false_iff, beq_eq_false_iff_ne]
  refine ⟨⟨⟨⟨?_, ?_⟩, ?_⟩, ?_⟩, ?_⟩
  all_goals
    rintro rfl
    exact List.any_eq_false.mp others _ (by simp) isKind

/-- The characters that are tokens by themselves. -/
def symbol? : Char → Option Token
  | '[' => some .openArray
  | ']' => some .closeArray
  | '{' => some .openObject
  | '}' => some .closeObject
  | ',' => some .comma
  | ':' => some .colon
  | _ => none

theorem tokens?_symbol {t : Token} (symbol : symbol? c = some t) (rest : List Char) :
    tokens? (c :: rest) = (tokens? rest).map (t :: ·) := by
  unfold symbol? at symbol
  split at symbol <;> cases symbol <;> simp [tokens?, isSpace, isNumberChar]

theorem tokens?_quote (s : String) (rest : List Char) :
    tokens? (quote s ++ rest) = (tokens? rest).map (.text (some s) :: ·) := by
  have text : quote s ++ rest = '"' :: (s.toList.flatMap escape ++ '"' :: rest) := by simp [quote]
  rw [text, tokens?.eq_def]
  dsimp only
  rw [if_neg (by decide), if_pos (by decide)]
  split
  · next read =>
    cases (quoted?_escaped s rest).symm.trans read
    rfl
  · next unread => cases (quoted?_escaped s rest).symm.trans unread

theorem tokens?_number {n : Number} (first : c.isDigit = true ∨ c = '-')
    (more : ∀ d ∈ cs, d.isDigit = true) (read : number? (c :: cs) = some n) (cut : CutsOff rest) :
    tokens? (c :: cs ++ rest) = (tokens? rest).map (.scalar (.num n) :: ·) := by
  have isNumber : isNumberChar c = true := by
    rcases first with digit | rfl
    · simp [isNumberChar, digit]
    · rfl
  have noAlpha : c.isAlpha = false := by
    rcases first with digit | rfl
    · rw [← Bool.not_eq_true, Text.isAlpha_iff_toNat]
      rw [Char.isDigit_iff_toNat] at digit
      change 48 ≤ c.toNat ∧ c.toNat ≤ 57 at digit
      omega
    · rfl
  have more : ∀ d ∈ cs, isNumberChar d = true := fun d member => by
    simp [isNumberChar, more d member]
  obtain ⟨noSpace, noQuote⟩ := not_isSpace_of isNumber rfl
  obtain ⟨taken, dropped⟩ := Text.span_append more fun d head => (cut d head).1
  rw [List.cons_append, tokens?.eq_def]
  simp only [noSpace, noQuote, noAlpha, isNumber, Bool.false_eq_true, if_true, if_false, taken,
    dropped, read]

theorem tokens?_word {v : Json} (first : c.isAlpha = true) (more : ∀ d ∈ cs, d.isAlpha = true)
    (read : word? (c :: cs) = some v) (cut : CutsOff rest) :
    tokens? (c :: cs ++ rest) = (tokens? rest).map (.scalar v :: ·) := by
  obtain ⟨noSpace, noQuote⟩ := not_isSpace_of first rfl
  obtain ⟨taken, dropped⟩ := Text.span_append more fun d head => (cut d head).2
  rw [List.cons_append, tokens?.eq_def]
  simp only [noSpace, noQuote, first, Bool.false_eq_true, if_true, if_false, taken, dropped, read]

theorem tokens?_ofInt {n : Int} (word : fitsWord n = true) (cut : CutsOff rest) :
    tokens? (Decimal.ofInt n ++ rest) = (tokens? rest).map (.scalar (.num (.int n)) :: ·) := by
  have read := number?_ofInt word
  unfold Decimal.ofInt at read ⊢
  split at read
  · next negative =>
    rw [if_pos negative]
    exact tokens?_number (.inr rfl) (fun c => Decimal.isDigit_of_mem_digits) read cut
  · next negative =>
    obtain ⟨c, cs, text, digit, digits, -⟩ := exists_digits n.natAbs
    rw [if_neg negative]
    rw [text] at read ⊢
    exact tokens?_number (.inl digit) digits read cut

end Tokens

end Json

end TradeBars
