import Mathlib.Data.List.Perm.Basic
import TradeBars.Proofs.Json.Lexing
import TradeBars.Proofs.Json.Reordered
import TradeBars.Proofs.Outcomes

/-! Printed JSON is read back. The reader is followed through the text of each value, which takes it
from waiting for a value to having it, whatever containers are open around it. The printer puts
members in order, so that a document comes back reordered. -/
namespace TradeBars.Json

/-- The tokens of a text, wherever it stands, take the reader from one state to another. -/
def Leads (cs : List Char) (s s' : State) : Prop :=
  ∃ ts : List Token, ts.foldlM State.next? s = some s' ∧
    ∀ rest, CutsOff rest → tokens? (cs ++ rest) = (tokens? rest).map (ts ++ ·)

/-- A text that stands for a value in any container. -/
def Spells (cs : List Char) (v : Json) : Prop :=
  ∀ stack, Leads cs (.value stack) (.put v stack)

section Leads

variable {cs ds : List Char} {s s' s'' : State}

theorem Leads.nil (s : State) : Leads [] s s :=
  ⟨[], rfl, fun rest _ => by simp⟩

/-- Nothing has to stand behind a token that ends by itself. -/
theorem Leads.token {t : Token}
    (lexed : ∀ rest, tokens? (cs ++ rest) = (tokens? rest).map (t :: ·))
    (next : s.next? t = some s') (leads : Leads ds s' s'') : Leads (cs ++ ds) s s'' := by
  obtain ⟨ts, run, lexed'⟩ := leads
  refine ⟨t :: ts, ?_, fun rest cut => ?_⟩
  · rw [List.foldlM_cons, next]
    exact run
  · rw [List.append_assoc, lexed, lexed' rest cut, Option.map_map]
    rfl

theorem Leads.symbol {c : Char} {t : Token} (symbol : symbol? c = some t)
    (next : s.next? t = some s') (leads : Leads cs s' s'') : Leads (c :: cs) s s'' := by
  have lexed : ∀ rest, tokens? ([c] ++ rest) = (tokens? rest).map (t :: ·) := tokens?_symbol symbol
  exact .token lexed next leads

theorem Leads.append (one : Leads cs s s') (other : Leads ds s' s'') (cut : CutsOff ds) :
    Leads (cs ++ ds) s s'' := by
  obtain ⟨ts, run, lexed⟩ := one
  obtain ⟨ts', run', lexed'⟩ := other
  refine ⟨ts ++ ts', ?_, fun rest cut' => ?_⟩
  · rw [List.foldlM_append, run]
    exact run'
  · rw [List.append_assoc, lexed _ (cut.append cut'), lexed' rest cut', Option.map_map]
    simp [Function.comp_def]

end Leads

section Scalars

theorem spells_of_scalar {cs : List Char} {v : Json} (lexed : ∀ rest, CutsOff rest →
    tokens? (cs ++ rest) = (tokens? rest).map (.scalar v :: ·)) : Spells cs v :=
  fun _ => ⟨[.scalar v], rfl, lexed⟩

theorem spells_null : Spells (chars .null) .null :=
  spells_of_scalar fun _ => tokens?_word rfl (List.all_eq_true.mp rfl) rfl

theorem spells_bool (b : Bool) : Spells (chars (.bool b)) (.bool b) := by
  cases b with
  | true => exact spells_of_scalar fun _ => tokens?_word rfl (List.all_eq_true.mp rfl) rfl
  | false => exact spells_of_scalar fun _ => tokens?_word rfl (List.all_eq_true.mp rfl) rfl

theorem spells_int {n : Int} (word : fitsWord n = true) :
    Spells (Decimal.ofInt n) (.num (.int n)) :=
  spells_of_scalar fun _ => tokens?_ofInt word

theorem spells_quote (s : String) : Spells (quote s) (.str s) :=
  fun _ => ⟨[.text (some s)], rfl, fun rest _ => tokens?_quote s rest⟩

end Scalars

section Containers

variable {cs : List Char} {v : Json}

theorem cutsOff_parts {last : Char} (closes : isNumberChar last = false ∧ last.isAlpha = false)
    (parts : List (List Char)) : CutsOff (parts.flatMap (',' :: ·) ++ [last]) := by
  cases parts with
  | nil =>
    rintro _ ⟨⟩
    exact closes
  | cons part parts =>
    rintro _ ⟨⟩
    decide

theorem bracketed_cons (first last : Char) (part : List Char) (parts : List (List Char)) :
    bracketed first last (part :: parts) =
      first :: (part ++ (parts.flatMap (',' :: ·) ++ [last])) := by
  have joined : ((part :: parts).intersperse [',']).flatten = part ++ parts.flatMap (',' :: ·) := by
    induction parts generalizing part with
    | nil => simp
    | cons next parts ih =>
      rw [List.intersperse_cons_cons, List.flatten_cons, List.flatten_cons, ih]
      rfl
  rw [bracketed, joined, List.cons_append, List.append_assoc]

/-- The first item of an array is read like any other value. -/
theorem Spells.firstItem (spells : Spells cs v) (stack : List Frame) :
    Leads cs (.firstItem stack) (.afterItem [v] stack) := by
  obtain ⟨ts, run, lexed⟩ := spells (.array [] :: stack)
  refine ⟨ts, ?_, lexed⟩
  cases ts with
  | nil => cases run
  | cons t ts =>
    rw [List.foldlM_cons] at run ⊢
    cases t with
    | closeArray => cases run
    | _ => exact run

/-- With some items read, the others are read up to the end of the array. -/
theorem leads_items {parts : List (List Char)} {items : List Json}
    (each : List.Forall₂ Spells parts items) (done : List Json) (stack : List Frame) :
    Leads (parts.flatMap (',' :: ·) ++ [']']) (.afterItem done stack)
      (.put (.arr (done.reverse ++ items)) stack) := by
  induction each generalizing done with
  | nil =>
    rw [List.append_nil]
    exact .symbol rfl rfl (.nil _)
  | @cons part v parts items one _ ih =>
    have others := ih (v :: done)
    rw [List.reverse_cons, List.append_assoc] at others
    rw [List.flatMap_cons, List.cons_append, List.cons_append, List.append_assoc]
    exact .symbol rfl rfl ((one _).append others (cutsOff_parts (by decide) parts))

theorem spells_array {parts : List (List Char)} {items : List Json}
    (each : List.Forall₂ Spells parts items) : Spells (bracketed '[' ']' parts) (.arr items) := by
  intro stack
  cases each with
  | nil => exact .symbol rfl rfl (.symbol rfl rfl (.nil _))
  | @cons part v parts items one others =>
    rw [bracketed_cons]
    exact .symbol rfl rfl ((one.firstItem stack).append (leads_items others [v] stack)
      (cutsOff_parts (by decide) parts))

/-- A key, a colon and the value. -/
def memberText (m : String × List Char) : List Char := quote m.1 ++ ':' :: m.2

/-- The members of an object as the reader keeps them while it is open. -/
def kept (members : List (String × Json)) : List (Text × Json) :=
  (members.map fun (key, v) => (some key, v)).reverse

theorem ofMembers_kept (members : List (String × Json)) :
    ofMembers (kept members) = .obj members := by
  have read : (members.map fun (key, v) => (some key, v)).mapM
      (fun (key, v) => key.map fun key => (key, v)) = some members := by
    induction members with
    | nil => rfl
    | cons member members ih =>
      rw [List.map_cons, List.mapM_cons, ih]
      rfl
  rw [ofMembers, kept, List.reverse_reverse, read]

theorem Spells.member {key : String} {s : State} {done : List (Text × Json)} {stack : List Frame}
    (spells : Spells cs v)
    (next : s.next? (.text (some key)) = some (.colon done (some key) stack)) :
    Leads (memberText (key, cs)) s (.afterMember ((some key, v) :: done) stack) :=
  .token (tokens?_quote key) next (.symbol rfl rfl (spells _))

/-- With some members read, the others are read up to the end of the object. -/
theorem leads_members {parts : List (String × List Char)} {members : List (String × Json)}
    (each : List.Forall₂ (SameKey Spells) parts members) (done : List (String × Json))
    (stack : List Frame) :
    Leads ((parts.map memberText).flatMap (',' :: ·) ++ ['}']) (.afterMember (kept done) stack)
      (.put (.obj (done ++ members)) stack) := by
  induction each generalizing done with
  | nil =>
    rw [List.append_nil, ← ofMembers_kept]
    exact .symbol rfl rfl (.nil _)
  | @cons _ _ parts members one _ ih =>
    obtain @⟨key, part, v, one⟩ := one
    have others := ih (done ++ [(key, v)])
    rw [kept, List.map_append, List.reverse_append, List.append_assoc] at others
    rw [List.map_cons, List.flatMap_cons, List.cons_append, List.cons_append, List.append_assoc]
    exact .symbol rfl rfl ((one.member rfl).append others (cutsOff_parts (by decide) _))

theorem spells_object {parts : List (String × List Char)} {members : List (String × Json)}
    (each : List.Forall₂ (SameKey Spells) parts members) :
    Spells (bracketed '{' '}' (parts.map memberText)) (.obj members) := by
  intro stack
  cases each with
  | nil => exact .symbol rfl rfl (.symbol rfl rfl (.nil _))
  | @cons _ _ parts members one others =>
    obtain @⟨key, part, v, one⟩ := one
    rw [List.map_cons, bracketed_cons]
    exact .symbol rfl rfl ((one.member rfl).append (leads_members others [(key, v)] stack)
      (cutsOff_parts (by decide) _))

end Containers

/-- A document that its text gives in full: its numbers are integers of 64 bits, no key of an object
occurs twice, and no surrogate is unpaired. -/
inductive Lossless : Json → Prop where
  | null : Lossless .null
  | bool (b : Bool) : Lossless (.bool b)
  | int {n : Int} : fitsWord n = true → Lossless (.num (.int n))
  | str (s : String) : Lossless (.str s)
  | arr {items : List Json} : (∀ v ∈ items, Lossless v) → Lossless (.arr items)
  | obj {members : List (String × Json)} : (∀ m ∈ members, Lossless m.2) →
      (members.map (·.1)).Nodup → Lossless (.obj members)

section Order

theorem insertMember_perm {key : String} {text : List Char} {members : List (String × List Char)}
    (unused : key ∉ members.map (·.1)) :
    (insertMember key text members).Perm ((key, text) :: members) := by
  fun_induction insertMember key text members with
  | case1 => rfl
  | case2 => rfl
  | case3 k t rest _ same => simp_all
  | case4 k t rest _ _ ih =>
    rw [List.map_cons, List.mem_cons, not_or] at unused
    exact ((ih unused.2).cons (k, t)).trans (.swap ..)

/-- Putting members in order loses none of them, as long as no key occurs twice. -/
theorem foldl_insertMember_perm {members done : List (String × List Char)}
    (distinct : ((members ++ done).map (·.1)).Nodup) :
    (members.foldl (fun done (k, t) => insertMember k t done) done).Perm (members ++ done) := by
  induction members generalizing done with
  | nil => rfl
  | cons member members ih =>
    have inserted : (members ++ insertMember member.1 member.2 done).Perm
        (member :: members ++ done) := by
      have unused : member.1 ∉ done.map (·.1) := by simp_all
      exact ((insertMember_perm unused).append_left members).trans List.perm_middle
    exact (ih ((inserted.map _).nodup_iff.mpr distinct)).trans inserted

theorem sorted_perm {members : List (String × List Char)}
    (distinct : (members.map (·.1)).Nodup) :
    (members.foldl (fun done (k, t) => insertMember k t done) []).Perm members := by
  have sorted := foldl_insertMember_perm (List.append_nil members ▸ distinct)
  rwa [List.append_nil] at sorted

end Order

theorem itemChars_eq (items : List Json) : itemChars items = items.map chars := by
  induction items with
  | nil => rfl
  | cons v items ih => rw [itemChars, ih, List.map_cons]

theorem memberChars_eq (members : List (String × Json)) :
    memberChars members = members.map fun (key, v) => (key, v.chars) := by
  induction members with
  | nil => rfl
  | cons member members ih => rw [memberChars, ih, List.map_cons]

/-- The printed text of a document spells it, with its members in another order. -/
theorem exists_spelled {v : Json} (lossless : Lossless v) :
    ∃ w, Spells v.chars w ∧ Reordered v w := by
  induction lossless with
  | null => exact ⟨_, spells_null, .refl _⟩
  | bool b => exact ⟨_, spells_bool b, .refl _⟩
  | int word => exact ⟨_, spells_int word, .refl _⟩
  | str s => exact ⟨_, spells_quote s, .refl _⟩
  | @arr items _ ih =>
    obtain ⟨items', each⟩ := exists_forall₂_iff.mpr ih
    refine ⟨.arr items', ?_, .arr (each.imp fun _ _ both => both.2)⟩
    rw [chars, itemChars_eq]
    exact spells_array (List.forall₂_map_left_iff.mpr (each.imp fun _ _ both => both.1))
  | @obj members _ distinct ih =>
    have spelled : ∀ m ∈ members,
        ∃ n, SameKey Spells (m.1, m.2.chars) n ∧ SameKey Reordered m n := by
      rintro ⟨key, v⟩ member
      obtain ⟨w, spells, same⟩ := ih _ member
      exact ⟨(key, w), .value spells, .value same⟩
    obtain ⟨between, each⟩ := exists_forall₂_iff.mpr spelled
    have parts : List.Forall₂ (SameKey Spells) (memberChars members) between := by
      rw [memberChars_eq]
      exact List.forall₂_map_left_iff.mpr (each.imp fun _ _ both => both.1)
    have keys : (memberChars members).map (·.1) = members.map (·.1) := by
      rw [memberChars_eq, List.map_map]
      rfl
    -- the values follow their texts, which are put in order
    obtain ⟨members', printed, moved⟩ := List.perm_comp_forall₂
      (sorted_perm (keys ▸ distinct)) parts
    exact ⟨.obj members', spells_object printed,
      .obj (each.imp fun _ _ both => both.2) moved.symm⟩

theorem Spells.read? {text : String} {v : Json} (spells : Spells text.toList v) :
    Json.read? text = some v := by
  obtain ⟨ts, run, lexed⟩ := spells []
  have read := lexed [] nofun
  have atEnd : tokens? [] = some [] := by simp [tokens?]
  rw [List.append_nil, atEnd] at read
  simp [Json.read?, read, run, State.put]

theorem exists_read?_text {v : Json} (lossless : Lossless v) :
    ∃ w, read? v.text = some w ∧ Reordered v w := by
  obtain ⟨w, spells, same⟩ := exists_spelled lossless
  rw [← String.toList_ofList (l := v.chars)] at spells
  exact ⟨w, spells.read?, same⟩

end TradeBars.Json
