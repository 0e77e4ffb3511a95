/-! White space as the Unicode property White_Space lists it, and text without
the white space around it. The classes of `Char` know ASCII only, hence the table. -/
namespace TradeBars.Text

/-- The characters with the property White_Space, as inclusive ranges of code points. -/
def blankRanges : List (Nat × Nat) :=
  [(0x09, 0x0d), (0x20, 0x20), (0x85, 0x85), (0xa0, 0xa0), (0x1680, 0x1680), (0x2000, 0x200a),
    (0x2028, 0x2029), (0x202f, 0x202f), (0x205f, 0x205f), (0x3000, 0x3000)]

def isBlank (c : Char) : Bool :=
  blankRanges.any fun (first, last) => first ≤ c.toNat && c.toNat ≤ last

def dropBlank (cs : List Char) : List Char := cs.dropWhile isBlank

/-- The text without the blanks at either end. -/
def strip (cs : List Char) : List Char := (dropBlank (dropBlank cs).reverse).reverse

theorem dropBlank_cons_of_not {c : Char} (h : isBlank c = false) (cs : List Char) :
    dropBlank (c :: cs) = c :: cs := by
  simp [dropBlank, h]

theorem dropBlank_eq_self_of_all_not {cs : List Char} (h : ∀ c ∈ cs, isBlank c = false) :
    dropBlank cs = cs := by
  cases cs with
  | nil => rfl
  | cons c cs => exact dropBlank_cons_of_not (h c (by simp)) cs

/-- Text without any blank is its own strip. -/
theorem strip_eq_self_of_all_not {cs : List Char} (h : ∀ c ∈ cs, isBlank c = false) :
    strip cs = cs := by
  rw [strip, dropBlank_eq_self_of_all_not h,
    dropBlank_eq_self_of_all_not (fun c hc => h c (by simpa using hc)), List.reverse_reverse]

end TradeBars.Text
