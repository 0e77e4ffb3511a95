import TradeBars.Time.Reader
import TradeBars.Proofs.Text.Trimming

/-! How a reader goes through a text. It takes what it reads from the front, and leaves the rest to
the next one. -/
namespace TradeBars

namespace Time

variable {α β : Type} {cs : List Char}

theorem of_bind {x : Reader α} {f : α → Reader β} {result : β × List Char}
    (read : (x >>= f) cs = some result) :
    ∃ a rest, x cs = some (a, rest) ∧ f a rest = some result := by
  obtain ⟨⟨a, rest⟩, first, next⟩ := Option.bind_eq_some_iff.mp read
  exact ⟨a, rest, first, next⟩

theorem of_orElse {x y : Reader α} {result : α × List Char}
    (read : (x <|> y) cs = some result) : x cs = some result ∨ y cs = some result := by
  change (x cs).orElse (fun _ => y cs) = some result at read
  cases first : x cs with
  | none => rw [first] at read; exact .inr read
  | some => rw [first] at read; exact .inl read

/-- Whatever a reader gives has the property. -/
def Yields (r : Reader α) (property : α → Prop) : Prop :=
  ∀ cs x rest, r cs = some (x, rest) → property x

theorem Yields.bind {r : Reader β} {f : β → Reader α} {property : α → Prop}
    (each : ∀ x, Yields (f x) property) : Yields (r >>= f) property := by
  intro cs x rest read
  obtain ⟨y, middle, -, read⟩ := of_bind read
  exact each y middle x rest read

theorem Yields.orElse {first second : Reader α} {property : α → Prop}
    (left : Yields first property) (right : Yields second property) :
    Yields (first <|> second) property := by
  intro cs x rest read
  exact (of_orElse read).elim (left cs x rest) (right cs x rest)

theorem of_discard {x : Reader α} {result : Unit × List Char}
    (read : discard x cs = some result) : ∃ a, x cs = some (a, result.2) := by
  obtain ⟨⟨a, rest⟩, first, done⟩ := Option.bind_eq_some_iff.mp read
  cases done
  exact ⟨a, first⟩

theorem of_satisfying {p : Char → Bool} {result : Char × List Char}
    (read : Reader.satisfying p cs = some result) :
    p result.1 = true ∧ cs = result.1 :: result.2 := by
  cases cs with
  | nil => contradiction
  | cons c rest =>
    obtain ⟨passes, rfl⟩ : p c = true ∧ (c, rest) = result := by
      simpa [Reader.satisfying] using read
    exact ⟨passes, rfl⟩

theorem of_literal {c : Char} {result : Unit × List Char}
    (read : Reader.literal c cs = some result) : cs = c :: result.2 := by
  obtain ⟨first, found⟩ := of_discard read
  obtain ⟨same, split⟩ := of_satisfying found
  exact split.trans (congrArg (· :: _) (eq_of_beq same))

/-- At least one character, and digits only. -/
structure Digits (ds : List Char) : Prop where
  nonempty : ds ≠ []
  digits : ∀ c ∈ ds, c.isDigit = true

theorem of_number {most : Nat} {result : Nat × List Char}
    (read : Reader.number most cs = some result) : ∃ ds, Digits ds ∧ cs = ds ++ result.2 := by
  let ds := (cs.take most).takeWhile Char.isDigit
  have front : ds <+: cs := (List.takeWhile_prefix _).trans (List.take_prefix _ _)
  obtain ⟨nonempty, rfl⟩ : ds.isEmpty = false ∧ (Decimal.value ds, cs.drop ds.length) = result := by
    simpa [Reader.number, ds] using read
  refine ⟨ds, ⟨by simpa using nonempty, ?_⟩, (List.prefix_iff_eq_append.mp front).symm⟩
  exact List.all_eq_true.mp List.all_takeWhile

theorem of_fixed {count : Nat} {result : Nat × List Char} (positive : 0 < count)
    (read : Reader.fixed count cs = some result) : ∃ ds, Digits ds ∧ cs = ds ++ result.2 := by
  unfold Reader.fixed at read
  dsimp only at read
  obtain ⟨⟨size, digits⟩, done⟩ := Option.ite_none_right_eq_some.mp read
  cases done
  refine ⟨cs.take count, ⟨?_, by simpa using digits⟩, (List.take_append_drop count cs).symm⟩
  rintro empty
  rw [empty] at size
  exact Nat.ne_of_gt positive size.symm

/-- What may stand in front of the digits of a year: a sign, or blanks, maybe with a sign behind
them. -/
def Front (front : List Char) : Prop :=
  front = [] ∨ front = ['+'] ∨ front = ['-'] ∨ ∃ c rest, front = c :: rest ∧ Text.isBlank c = true

theorem of_signed {c : Char} {f : Nat → Int} {result : Int × List Char}
    (read : (do Reader.literal c; return f (← Reader.unbounded) : Reader Int) cs = some result) :
    ∃ ds, Digits ds ∧ cs = [c] ++ ds ++ result.2 := by
  obtain ⟨⟨⟩, rest, sign, read⟩ := of_bind read
  obtain ⟨_, rest', number, done⟩ := of_bind read
  cases done
  obtain ⟨ds, digits, rfl⟩ := of_number number
  exact ⟨ds, digits, of_literal sign⟩

theorem of_year {result : Int × List Char} (read : year cs = some result) :
    ∃ front ds, Front front ∧ Digits ds ∧ cs = front ++ ds ++ result.2 := by
  obtain ⟨⟨⟩, rest, blanks, read⟩ := of_bind read
  cases blanks
  obtain ⟨sign, ds, isSign, digits, split⟩ : ∃ sign ds,
      (sign = [] ∨ sign = ['+'] ∨ sign = ['-']) ∧ Digits ds ∧
        Text.dropBlank cs = sign ++ ds ++ result.2 := by
    obtain plus | read := of_orElse read
    · obtain ⟨ds, digits, split⟩ := of_signed plus
      exact ⟨_, ds, .inr (.inl rfl), digits, split⟩
    obtain minus | plain := of_orElse read
    · obtain ⟨ds, digits, split⟩ := of_signed minus
      exact ⟨_, ds, .inr (.inr rfl), digits, split⟩
    · obtain ⟨_, rest, number, done⟩ := of_bind plain
      cases done
      obtain ⟨ds, digits, split⟩ := of_number number
      exact ⟨[], ds, .inl rfl, digits, split⟩
  refine ⟨cs.takeWhile Text.isBlank ++ sign, ds, ?_, digits, ?_⟩
  · cases blanks : cs.takeWhile Text.isBlank with
    | nil => rcases isSign with rfl | rfl | rfl <;> simp [Front]
    | cons c more =>
      have all := List.all_eq_true.mp (List.all_takeWhile (p := Text.isBlank) (l := cs))
      exact .inr (.inr (.inr ⟨c, more ++ sign, rfl, all c (blanks ▸ List.mem_cons_self)⟩))
  · rw [List.append_assoc, List.append_assoc, ← List.append_assoc sign, ← split]
    exact List.takeWhile_append_dropWhile.symm

/-- The digits of a year in front of a dash. -/
def Dated (cs : List Char) : Prop :=
  ∃ front ds rest, Front front ∧ Digits ds ∧ cs = front ++ ds ++ '-' :: rest

theorem Dated.of_looseDate {result : Date × List Char}
    (read : looseDate (pure ()) cs = some result) : Dated cs := by
  obtain ⟨year, rest, found, read⟩ := of_bind read
  obtain ⟨⟨⟩, rest', gap, read⟩ := of_bind read
  cases gap
  obtain ⟨⟨⟩, rest', dash, -⟩ := of_bind read
  obtain ⟨front, ds, isFront, digits, rfl⟩ := of_year found
  exact ⟨front, ds, rest', isFront, digits, congrArg (front ++ ds ++ ·) (of_literal dash)⟩

theorem Dated.of_strict {result : Instant × List Char} (read : strict cs = some result) :
    Dated cs := by
  obtain ⟨year, rest, found, read⟩ := of_bind read
  obtain ⟨⟨⟩, rest', dash, -⟩ := of_bind read
  obtain ⟨ds, digits, rfl⟩ := of_fixed (by decide) found
  exact ⟨[], ds, rest', .inl rfl, digits, congrArg (ds ++ ·) (of_literal dash)⟩

theorem Dated.of_read? {t : Instant} (read : Instant.read? cs = some t) : Dated cs := by
  obtain ⟨result, found, -⟩ := Option.map_eq_some_iff.mp read
  obtain strict | found := of_orElse found
  · exact .of_strict strict
  obtain naive | midnight := of_orElse found
  · obtain ⟨date, rest, loose, -⟩ := of_bind naive
    exact .of_looseDate loose
  · obtain ⟨date, rest, loose, -⟩ := of_bind midnight
    exact .of_looseDate loose

theorem Dated.head {c : Char} (dated : Dated (c :: cs)) :
    c = '+' ∨ c = '-' ∨ Text.isBlank c = true ∨ c.isDigit = true := by
  obtain ⟨front, ds, rest, isFront, ⟨nonempty, digits⟩, split⟩ := dated
  obtain ⟨d, more, rfl⟩ := List.exists_cons_of_ne_nil nonempty
  rcases isFront with rfl | rfl | rfl | ⟨blank, front, rfl, isBlank⟩
  all_goals
    obtain ⟨rfl, -⟩ := List.cons.inj split
  · exact .inr (.inr (.inr (digits c List.mem_cons_self)))
  · exact .inl rfl
  · exact .inr (.inl rfl)
  · exact .inr (.inr (.inl isBlank))

end Time

end TradeBars
