import TradeBars.Text.Blank

/-! Text between blanks. Trimming takes away all that is blank at either end and nothing else, so
that text which neither begins nor ends with a blank is what is left of it, whatever blanks are put
around it. -/
namespace TradeBars

/-- Text that begins with no blank, and text that ends with none. -/
def Begins (cs : List Char) : Prop := ∃ c, cs.head? = some c ∧ Text.isBlank c = false

def Ends (cs : List Char) : Prop := ∃ c, cs.getLast? = some c ∧ Text.isBlank c = false

variable {cs : List Char}

theorem Begins.append (begins : Begins cs) (rest : List Char) : Begins (cs ++ rest) := by
  obtain ⟨c, head, dark⟩ := begins
  exact ⟨c, by simp [List.head?_append, head], dark⟩

theorem Ends.append (ends : Ends cs) (front : List Char) : Ends (front ++ cs) := by
  obtain ⟨c, last, dark⟩ := ends
  exact ⟨c, by simp [List.getLast?_append, last], dark⟩

theorem Ends.cons (ends : Ends cs) (c : Char) : Ends (c :: cs) := ends.append [c]

theorem edges_of_all_not (nonempty : cs ≠ []) (dark : ∀ c ∈ cs, Text.isBlank c = false) :
    Begins cs ∧ Ends cs :=
  ⟨⟨cs.head nonempty, List.head?_eq_some_head nonempty, dark _ (List.head_mem nonempty)⟩,
    cs.getLast nonempty, List.getLast?_eq_some_getLast nonempty, dark _ (List.getLast_mem nonempty)⟩

namespace Text

theorem isBlank_of_isDigit {c : Char} (digit : c.isDigit = true) : isBlank c = false := by
  rw [Char.isDigit_iff_toNat] at digit
  change 48 ≤ c.toNat ∧ c.toNat ≤ 57 at digit
  simp [isBlank, blankRanges]
  omega

theorem isAlpha_iff_toNat {c : Char} : c.isAlpha = true ↔
    65 ≤ c.toNat ∧ c.toNat ≤ 90 ∨ 97 ≤ c.toNat ∧ c.toNat ≤ 122 := by
  have upper : c.isUpper = true ↔ 65 ≤ c.toNat ∧ c.toNat ≤ 90 := decide_eq_true_iff
  have lower : c.isLower = true ↔ 97 ≤ c.toNat ∧ c.toNat ≤ 122 :=
    Bool.and_eq_true_iff.trans (and_congr decide_eq_true_iff decide_eq_true_iff)
  exact Bool.or_eq_true_iff.trans (or_congr upper lower)

theorem dropBlank_append {before : List Char} (isBefore : ∀ c ∈ before, isBlank c = true)
    (rest : List Char) : dropBlank (before ++ rest) = dropBlank rest :=
  List.dropWhile_append_of_pos isBefore

theorem strip_around {before after : List Char} (isBefore : ∀ c ∈ before, isBlank c = true)
    (isAfter : ∀ c ∈ after, isBlank c = true) (begins : Begins cs) (ends : Ends cs) :
    strip (before ++ cs ++ after) = cs := by
  obtain ⟨c, head, dark⟩ := begins
  obtain ⟨rest, rfl⟩ := List.head?_eq_some_iff.mp head
  obtain ⟨d, last, dark'⟩ := ends
  obtain ⟨front, split⟩ := List.getLast?_eq_some_iff.mp last
  have backwards : ∀ c ∈ after.reverse, isBlank c = true := by simpa using isAfter
  rw [strip, List.append_assoc, dropBlank_append isBefore, List.cons_append,
    dropBlank_cons_of_not dark, ← List.cons_append, List.reverse_append,
    dropBlank_append backwards, split, List.reverse_concat, dropBlank_cons_of_not dark',
    ← List.reverse_concat, List.reverse_reverse]

theorem exists_dropBlank (cs : List Char) :
    ∃ before, (∀ c ∈ before, isBlank c = true) ∧ cs = before ++ dropBlank cs :=
  ⟨cs.takeWhile isBlank, List.all_eq_true.mp List.all_takeWhile,
    List.takeWhile_append_dropWhile.symm⟩

theorem exists_strip (cs : List Char) : ∃ before after, (∀ c ∈ before, isBlank c = true) ∧
    (∀ c ∈ after, isBlank c = true) ∧ cs = before ++ strip cs ++ after := by
  obtain ⟨before, isBefore, front⟩ := exists_dropBlank cs
  obtain ⟨behind, isBehind, back⟩ := exists_dropBlank (dropBlank cs).reverse
  refine ⟨before, behind.reverse, isBefore, by simpa using isBehind, ?_⟩
  have split : dropBlank cs = strip cs ++ behind.reverse := by
    simpa only [strip, List.reverse_append, List.reverse_reverse] using congrArg List.reverse back
  rw [List.append_assoc, ← split]
  exact front

end Text

end TradeBars
