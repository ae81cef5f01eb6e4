import NestedRegex.Proofs.Pattern.Flaws

namespace NestedRegex.Pattern

variable {p q : Pattern} {s : Step} {path : Path} {items : List Pattern} {name : String}

theorem capturesOfItems_eq_append {i : Nat} (hi : items[i]? = some q) : ∃ back,
    capturesOfItems items = capturesOfItems (items.take i) ++ (captures q ++ back) := by
  induction items generalizing i with
  | nil => cases hi
  | cons p ps ih =>
    cases i with
    | zero =>
      obtain rfl := Option.some.inj hi
      exact ⟨_, rfl⟩
    | succ i =>
      obtain ⟨back, he⟩ := ih hi
      refine ⟨back, ?_⟩
      rw [capturesOfItems, he, ← List.append_assoc]
      rfl

/-- The names captured in front of a part inside another are that of the other one, and those
captured to the left. -/
theorem captures_eq_append (hs : p.step? s = some q) : ∃ front back,
    captures p = front ++ (captures q ++ back) ∧ ∀ name ∈ front,
      (∃ inner, p = .named name inner) ∨
        ∃ t r, t.Before s ∧ p.step? t = some r ∧ name ∈ captures r := by
  cases p with
  | sequence items =>
    cases s with
    | item i =>
      obtain ⟨back, he⟩ := capturesOfItems_eq_append hs
      refine ⟨_, back, he, fun name hn => ?_⟩
      obtain ⟨j, r, hj, hr, hn⟩ := mem_capturesOfItems_take.1 hn
      exact .inr ⟨.item j, r, hj, hr, hn⟩
    | alternative _ | body => cases hs
  | named other items =>
    cases s with
    | item i =>
      obtain ⟨back, he⟩ := capturesOfItems_eq_append hs
      refine ⟨other :: capturesOfItems (items.take i), back, congrArg (other :: ·) he,
        fun name hn => ?_⟩
      rcases List.mem_cons.1 hn with rfl | hn
      · exact .inl ⟨items, rfl⟩
      · obtain ⟨j, r, hj, hr, hn⟩ := mem_capturesOfItems_take.1 hn
        exact .inr ⟨.item j, r, hj, hr, hn⟩
    | alternative _ | body => cases hs
  | choice alternatives =>
    cases s with
    | alternative i =>
      obtain ⟨back, he⟩ := capturesOfItems_eq_append hs
      refine ⟨_, back, he, fun name hn => ?_⟩
      obtain ⟨j, r, hj, hr, hn⟩ := mem_capturesOfItems_take.1 hn
      exact .inr ⟨.alternative j, r, hj, hr, hn⟩
    | item _ | body => cases hs
  | oneOrMore body =>
    cases s with
    | body =>
      obtain rfl := Option.some.inj hs
      exact ⟨[], [], (List.append_nil _).symm, fun name hn => by cases hn⟩
    | item _ | alternative _ => cases hs
  | literal _ | any | backRef _ | check _ _ | atEnd => cases s <;> cases hs

/-- A capture has its place among all captures, behind those of earlier parts. -/
theorem captures_eq_append_cons {inner : List Pattern}
    (part : p.part? path = some (.named name inner)) : ∃ front back,
    captures p = front ++ name :: back ∧ ∀ other ∈ front, ∃ earlier inner',
      p.part? earlier = some (.named other inner') ∧ Before earlier path := by
  induction path generalizing p with
  | nil =>
    obtain rfl := Option.some.inj part
    exact ⟨[], _, rfl, fun other hn => by cases hn⟩
  | cons s path ih =>
    obtain ⟨q, hs, hq⟩ := Option.bind_eq_some_iff.1 part
    obtain ⟨left, right, he, hleft⟩ := captures_eq_append hs
    obtain ⟨front, back, heq, hfront⟩ := ih hq
    refine ⟨left ++ front, back ++ right, by rw [he, heq]; simp, fun other hn => ?_⟩
    rcases List.mem_append.1 hn with hn | hn
    · rcases hleft other hn with ⟨inner', rfl⟩ | ⟨t, r, ht, hr, hn⟩
      · exact ⟨[], inner', rfl, before_nil_cons⟩
      · obtain ⟨inner', rest, hrest⟩ := (mem_captures r).1 hn
        exact ⟨t :: rest, inner', (part?_cons hr).trans hrest, before_cons_iff.2 (.inl ht)⟩
    · obtain ⟨earlier, inner', hearlier, before⟩ := hfront other hn
      exact ⟨s :: earlier, inner', (part?_cons hs).trans hearlier,
        before_cons_iff.2 (.inr ⟨rfl, before⟩)⟩

/-- Of two names the one captured first comes first. -/
theorem pairwise_names (items : List Pattern) : (names items).Pairwise fun a b =>
    ∀ path inner, (sequence items).part? path = some (.named b inner) → ∃ earlier inner',
      (sequence items).part? earlier = some (.named a inner') ∧ Before earlier path := by
  refine (List.pairwise_eraseDups (capturesOfItems items)).imp fun {a b} first path inner part => ?_
  obtain ⟨front, back, he, hfront⟩ := captures_eq_append_cons part
  exact hfront a (first front back he)

end NestedRegex.Pattern
