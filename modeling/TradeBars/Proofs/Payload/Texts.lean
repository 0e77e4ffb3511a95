import TradeBars.Payload
import TradeBars.Proofs.Time.Reader

/-! Texts that stand for values in a payload. No text is both a date and a numeral: a date has a
dash right behind its year, where a numeral has a point, an exponent or its end. Neither of them
names a side. -/
namespace TradeBars

/-- A character that no numeral begins with. -/
def Foreign (c : Char) : Prop := c.isDigit = false ∧ c ∉ ['+', '-', '.', 'e', 'E']

theorem foreign_of_isBlank {c : Char} (blank : Text.isBlank c = true) : Foreign c := by
  constructor
  · rw [← Bool.not_eq_true]
    intro digit
    rw [Text.isBlank_of_isDigit digit] at blank
    contradiction
  · intro member
    simp only [List.mem_cons, List.not_mem_nil, or_false] at member
    rcases member with rfl | rfl | rfl | rfl | rfl <;> contradiction

namespace Decimal

variable {cs rest : List Char} {c : Char}

/-- Where the digits of a numeral end, there is a point, an exponent or nothing. -/
theorem Spelling.read?_eq_none {ds : List Char} (digits : ∀ d ∈ ds, d.isDigit = true)
    (noDigit : c.isDigit = false) (noMark : c ∉ ['.', 'e', 'E']) :
    Spelling.read? (ds ++ c :: rest) = none := by
  have ends : (ds ++ c :: rest).dropWhile Char.isDigit = c :: rest := by
    rw [List.dropWhile_append_of_pos digits, List.dropWhile_cons_of_neg (by simp [noDigit])]
  simp only [List.mem_cons, List.not_mem_nil, or_false, not_or] at noMark
  simp [Spelling.read?, ends, noMark]

theorem Numeral.read?_of_sign (sign : c = '+' ∨ c = '-') (unread : Spelling.read? cs = none) :
    Numeral.read? (c :: cs) = none := by
  rcases sign with rfl | rfl <;> simp [Numeral.read?, unread]

theorem Numeral.read?_of_plain (plus : c ≠ '+') (minus : c ≠ '-')
    (unread : Spelling.read? (c :: cs) = none) : Numeral.read? (c :: cs) = none := by
  simp [Numeral.read?, plus, minus, unread]

theorem Numeral.read?_of_foreign (foreign : Foreign c) : Numeral.read? (c :: cs) = none := by
  obtain ⟨noDigit, other⟩ := foreign
  simp only [List.mem_cons, List.not_mem_nil, or_false, not_or] at other
  obtain ⟨plus, minus, noMark⟩ := other
  have unread : Spelling.read? ([] ++ c :: cs) = none :=
    Spelling.read?_eq_none (by simp) noDigit (by simpa)
  exact read?_of_plain plus minus unread

theorem Numeral.read?_of_dated (dated : Time.Dated cs) : Numeral.read? cs = none := by
  obtain ⟨front, ds, rest, isFront, ⟨nonempty, digits⟩, rfl⟩ := dated
  have dash : Spelling.read? (ds ++ '-' :: rest) = none :=
    Spelling.read?_eq_none digits rfl (by decide)
  rcases isFront with rfl | rfl | rfl | ⟨blank, front, rfl, isBlank⟩
  · obtain ⟨d, more, rfl⟩ := List.exists_cons_of_ne_nil nonempty
    have digit := digits d List.mem_cons_self
    apply read?_of_plain _ _ dash
    · rintro rfl
      contradiction
    · rintro rfl
      contradiction
  · exact read?_of_sign (.inl rfl) dash
  · exact read?_of_sign (.inr rfl) dash
  · exact read?_of_foreign (foreign_of_isBlank isBlank)

/-- A text that is read as a date is not read as a number. -/
theorem finite?_of_date {t : Instant} (date : Instant.read? cs = some t) : finite? cs = none := by
  rw [finite?, Numeral.read?_of_dated (.of_read? date)]
  rfl

end Decimal

namespace Payload

theorem isAlpha_of_toLower {c : Char} (letter : c.toLower.isLower = true) : c.isAlpha = true := by
  unfold Char.toLower at letter
  split at letter
  · next upper =>
    have isUpper : c.isUpper = true := decide_eq_true upper
    exact Bool.or_eq_true_iff.mpr (.inl isUpper)
  · exact Bool.or_eq_true_iff.mpr (.inr letter)

theorem isBlank_of_isAlpha {c : Char} (letter : c.isAlpha = true) : Text.isBlank c = false := by
  rw [Text.isAlpha_iff_toNat] at letter
  simp [Text.isBlank, Text.blankRanges]
  omega

theorem foreign_of_isAlpha {c : Char} (letter : c.isAlpha = true) (other : c.toLower ≠ 'e') :
    Foreign c := by
  constructor
  · rw [Text.isAlpha_iff_toNat] at letter
    rw [← Bool.not_eq_true, Char.isDigit_iff_toNat]
    change ¬ (48 ≤ c.toNat ∧ c.toNat ≤ 57)
    omega
  · intro member
    simp only [List.mem_cons, List.not_mem_nil, or_false] at member
    rcases member with rfl | rfl | rfl | rfl | rfl <;> contradiction

/-- A word for a side has letters only, and does not begin like an exponent. -/
theorem letters_of_word {s : String} {side : Side} (word : sideOfWord? s = some side) :
    (∃ c rest, s.toList = c :: rest ∧ c.toLower ≠ 'e') ∧ ∀ c ∈ s.toList, c.isAlpha = true := by
  have spelled : s.toList.map Char.toLower = ['b', 'u', 'y'] ∨
      s.toList.map Char.toLower = ['s', 'e', 'l', 'l'] := by
    unfold sideOfWord? at word
    dsimp only at word
    split at word
    · exact .inl ‹_›
    · split at word
      · exact .inr ‹_›
      · contradiction
  constructor
  · cases text : s.toList with
    | nil => simp [text] at spelled
    | cons c rest =>
      refine ⟨c, rest, rfl, ?_⟩
      rw [text] at spelled
      intro same
      simp [same] at spelled
  · intro c member
    apply isAlpha_of_toLower
    have lower : c.toLower ∈ s.toList.map Char.toLower := List.mem_map_of_mem member
    have all : (s.toList.map Char.toLower).all Char.isLower = true := by
      rcases spelled with buy | sell
      · rw [buy]
        rfl
      · rw [sell]
        rfl
    exact List.all_eq_true.mp all _ lower

/-- A text that names a side is read neither as a date nor as a number. -/
theorem unread_of_word {s : String} {side : Side} (word : sideOfWord? s = some side) :
    Instant.read? (Text.strip s.toList) = none ∧ Decimal.finite? (Text.strip s.toList) = none := by
  obtain ⟨⟨c, rest, text, other⟩, letters⟩ := letters_of_word word
  rw [Text.strip_eq_self_of_all_not fun c member => isBlank_of_isAlpha (letters c member), text]
  have letter := letters c (text ▸ List.mem_cons_self)
  have foreign := foreign_of_isAlpha letter other
  constructor
  · rw [Option.eq_none_iff_forall_ne_some]
    intro t date
    rcases (Time.Dated.of_read? date).head with rfl | rfl | blank | digit
    · contradiction
    · contradiction
    · rw [isBlank_of_isAlpha letter] at blank
      contradiction
    · rw [foreign.1] at digit
      contradiction
  · rw [Decimal.finite?, Decimal.Numeral.read?_of_foreign foreign]
    rfl

end Payload

end TradeBars
