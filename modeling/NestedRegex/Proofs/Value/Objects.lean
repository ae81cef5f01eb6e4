import Mathlib.Data.List.Lex
import NestedRegex.Value.Json

namespace NestedRegex

namespace Json

/-- What indices lead to in arrays, the index in the outermost array first. -/
def at? : Json → List Nat → Option Json
  | document, [] => some document
  | .array items, index :: path => items[index]?.bind fun item => item.at? path
  | _, _ :: _ => none

/-- The path leads to an object. -/
def ObjectAt (document : Json) (path : List Nat) : Prop :=
  ∃ fields, document.at? path = some (.object fields)

/-- The place that the one path leads to comes before that of the other. -/
def Before (path other : List Nat) : Prop :=
  List.Lex (· < ·) path other

/-- The path leads to an object, and no object comes before it. -/
structure FirstObject (objects : List Nat → Prop) (path : List Nat) : Prop where
  there : objects path
  first : ∀ other, objects other → other = path ∨ Before path other

/-- The objects in items that stand in an array from an index on. -/
def ObjectsFrom (index : Nat) (items : List Json) (path : List Nat) : Prop :=
  ∃ i item rest, items[i]? = some item ∧ path = (index + i) :: rest ∧ item.ObjectAt rest

/-- What is read at a place fails just if there are objects below, with the path of the first
one. -/
inductive Finds {α : Type} (base : List Nat) (objects : List Nat → Prop) :
    Except Value.ParseError α → Prop
  | clean {a} (none : ∀ path, ¬objects path) : Finds base objects (.ok a)
  | object {path} (first : FirstObject objects path) :
    Finds base objects (.error (.object (base.reverse ++ path)))

variable {α β : Type} {base path other : List Nat} {index : Nat} {item document : Json}
  {items : List Json} {objects : List Nat → Prop}

theorem FirstObject.unique (h : FirstObject objects path) (h' : FirstObject objects other) :
    path = other := by
  rcases h.first other h'.there with he | hlt
  · exact he.symm
  · rcases h'.first path h.there with he | hgt
    · exact he
    · exact absurd hgt (Std.Asymm.asymm (r := List.Lex (· < ·)) path other hlt)

theorem objectAt_object_iff {fields : List (String × Json)} :
    (object fields).ObjectAt path ↔ path = [] := by
  cases path with
  | nil => exact iff_of_true ⟨fields, rfl⟩ rfl
  | cons index path => exact iff_of_false nofun nofun

theorem objectAt_array_iff : (array items).ObjectAt path ↔ ObjectsFrom 0 items path := by
  constructor
  · intro ⟨fields, h⟩
    cases path with
    | nil => cases h
    | cons i rest =>
      obtain ⟨item, hitem, h⟩ := Option.bind_eq_some_iff.1 h
      exact ⟨i, item, rest, hitem, by rw [Nat.zero_add], fields, h⟩
  · intro ⟨i, item, rest, hitem, hpath, fields, h⟩
    rw [hpath, Nat.zero_add]
    exact ⟨fields, Option.bind_eq_some_iff.2 ⟨item, hitem, h⟩⟩

theorem not_objectsFrom_nil : ¬ObjectsFrom index [] path :=
  nofun

theorem objectsFrom_cons_iff : ObjectsFrom index (item :: items) path ↔
    (∃ rest, path = index :: rest ∧ item.ObjectAt rest) ∨ ObjectsFrom (index + 1) items path := by
  constructor
  · intro ⟨i, found, rest, hitem, hpath, h⟩
    cases i with
    | zero =>
      obtain rfl := Option.some.inj hitem
      exact .inl ⟨rest, hpath, h⟩
    | succ i => exact .inr ⟨i, found, rest, hitem, by rw [hpath, Nat.add_right_comm]; rfl, h⟩
  · rintro (⟨rest, hpath, h⟩ | ⟨i, found, rest, hitem, hpath, h⟩)
    · exact ⟨0, item, rest, rfl, hpath, h⟩
    · exact ⟨i + 1, found, rest, hitem, by rw [hpath, Nat.add_right_comm]; rfl, h⟩

theorem Finds.map {run : Except Value.ParseError α} (h : Finds base objects run) (f : α → β) :
    Finds base objects (f <$> run) := by
  cases h with
  | clean none => exact .clean none
  | object first => exact .object first

/-- The first object in items is the first one in the first item, or else the first one in the
others. -/
theorem Finds.cons {first : Except Value.ParseError α} {others : Except Value.ParseError (List α)}
    (h : Finds (index :: base) item.ObjectAt first)
    (hs : Finds base (ObjectsFrom (index + 1) items) others) :
    Finds base (ObjectsFrom index (item :: items)) (do return (← first) :: (← others)) := by
  cases h with
  | @object path h =>
    have hpath : (index :: base).reverse ++ path = base.reverse ++ (index :: path) := by
      rw [List.reverse_cons, List.append_assoc, List.singleton_append]
    rw [hpath]
    refine .object ⟨objectsFrom_cons_iff.2 (.inl ⟨path, rfl, h.there⟩), fun other hother => ?_⟩
    rcases objectsFrom_cons_iff.1 hother with ⟨rest, rfl, hrest⟩ | ⟨i, _, rest, -, rfl, -⟩
    · exact (h.first rest hrest).imp (congrArg (index :: ·)) .cons
    · exact .inr (.rel (by omega))
  | clean none =>
    have later : ObjectsFrom index (item :: items) = ObjectsFrom (index + 1) items := by
      funext path
      refine propext (objectsFrom_cons_iff.trans (or_iff_right ?_))
      intro ⟨rest, _, hrest⟩
      exact none rest hrest
    rw [later]
    exact hs.map _

end Json

open Json

namespace Value

mutual

theorem finds_ofJsonAt :
    ∀ (document : Json) (base : List Nat), Finds base document.ObjectAt (ofJsonAt base document)
  | .null, _ | .bool _, _ | .number _, _ | .string _, _ => by
    rw [ofJsonAt]
    exact .clean fun path h => by cases path <;> exact nomatch h
  | .object fields, base => by
    rw [ofJsonAt, ← List.append_nil base.reverse]
    exact .object ⟨objectAt_object_iff.2 rfl, fun other h => .inl (objectAt_object_iff.1 h)⟩
  | .array items, base => by
    have same : (Json.array items).ObjectAt = ObjectsFrom 0 items :=
      funext fun path => propext objectAt_array_iff
    rw [ofJsonAt, same]
    exact (finds_ofJsonItems items base 0).map Value.seq

theorem finds_ofJsonItems : ∀ (items : List Json) (base : List Nat) (index : Nat),
    Finds base (ObjectsFrom index items) (ofJsonItems base index items)
  | [], _, _ => by
    rw [ofJsonItems]
    exact .clean fun path => not_objectsFrom_nil
  | item :: items, base, index => by
    rw [ofJsonItems]
    exact (finds_ofJsonAt item (index :: base)).cons (finds_ofJsonItems items base (index + 1))

end

/-- A document has no value just if arrays alone lead to an object in it. The error then has a path
that leads to the first of these objects, and no other error is possible. -/
theorem ofJson_error_iff (document : Json) :
    ((∃ e, ofJson document = .error e) ↔ ∃ path, document.ObjectAt path) ∧
    ∀ e, ofJson document = .error e ↔
      ∃ path, e = .object path ∧ FirstObject document.ObjectAt path := by
  have found := finds_ofJsonAt document []
  rw [ofJson]
  generalize ofJsonAt [] document = run at found ⊢
  cases found with
  | clean none =>
    have nowhere : ¬∃ path, document.ObjectAt path := fun ⟨path, h⟩ => none path h
    exact ⟨iff_of_false nofun nowhere, fun e =>
      iff_of_false nofun fun ⟨path, _, h⟩ => none path h.there⟩
  | @object path h =>
    refine ⟨iff_of_true ⟨_, rfl⟩ ⟨path, h.there⟩, fun e => ?_⟩
    constructor
    · intro he
      exact ⟨path, (Except.error.inj he).symm, h⟩
    · intro ⟨other, he, hother⟩
      rw [he, h.unique hother]
      rfl

/-- Arrays beside and before the object leave nothing behind in its path, and a later object that
is less deep does not matter. -/
example : ofJson (.array [.array [.array []], .array [.null, .array [.bool true, .object []]],
    .object []]) = .error (.object [1, 1, 1]) := by
  rfl

end Value

end NestedRegex
