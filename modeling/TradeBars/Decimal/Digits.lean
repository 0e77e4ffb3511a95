/-! Natural numbers and their ASCII decimal digits. -/
namespace TradeBars.Decimal

def digit (n : Nat) : Char := Char.ofNat (48 + n)

def digitValue (c : Char) : Nat := c.toNat - 48

/-- The number that a run of digits spells; leading zeros are allowed. -/
def value (cs : List Char) : Nat := cs.foldl (fun n c => 10 * n + digitValue c) 0

/-- The decimal text of a number, without leading zeros. -/
def digits (n : Nat) : List Char :=
  if n < 10 then [digit n] else digits (n / 10) ++ [digit (n % 10)]

theorem value_append_singleton (cs : List Char) (c : Char) :
    value (cs ++ [c]) = 10 * value cs + digitValue c := by
  simp [value, List.foldl_append]

theorem digitValue_digit {n : Nat} (h : n < 10) : digitValue (digit n) = n := by
  match n, h with
  | 0, _ | 1, _ | 2, _ | 3, _ | 4, _ | 5, _ | 6, _ | 7, _ | 8, _ | 9, _ => rfl

theorem isDigit_digit {n : Nat} (h : n < 10) : (digit n).isDigit = true := by
  match n, h with
  | 0, _ | 1, _ | 2, _ | 3, _ | 4, _ | 5, _ | 6, _ | 7, _ | 8, _ | 9, _ => rfl

/-- Reading the digits of a number gives the number back. -/
theorem value_digits (n : Nat) : value (digits n) = n := by
  fun_induction digits n with
  | case1 n h => simp [value, digitValue_digit h]
  | case2 n h ih =>
    rw [value_append_singleton, ih, digitValue_digit (Nat.mod_lt _ (by omega))]
    omega

theorem isDigit_of_mem_digits {n : Nat} {c : Char} (h : c ∈ digits n) : c.isDigit = true := by
  fun_induction digits n with
  | case1 n small => simp only [List.mem_singleton] at h; exact h ▸ isDigit_digit small
  | case2 n large ih =>
    rcases List.mem_append.mp h with h | h
    · exact ih h
    · simp only [List.mem_singleton] at h; exact h ▸ isDigit_digit (Nat.mod_lt _ (by omega))

theorem digits_ne_nil (n : Nat) : digits n ≠ [] := by
  fun_induction digits n <;> simp

/-- The text of an integer: a minus sign for a negative one, then the digits. -/
def ofInt (n : Int) : List Char :=
  if n < 0 then '-' :: digits n.natAbs else digits n.natAbs

end TradeBars.Decimal
