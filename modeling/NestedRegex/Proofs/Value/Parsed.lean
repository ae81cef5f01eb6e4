import NestedRegex.Proofs.Value.Depth
import NestedRegex.Value.Json

namespace NestedRegex

open Json

variable {α : Type} {item : Reader α} {close c : Char} {turns d : Nat} {cs rest : List Char}
  {before xs : List α} {path : List Nat} {index : Nat} {document : Json} {documents : List Json}
  {v : Value} {vs : List Value}

namespace Json

/-- What holds of all that the reader of items can read holds of the items that are read with it. -/
theorem forall_mem_of_readMore {P : α → Prop} (hitem : ∀ cs x rest, item cs = some (x, rest) → P x)
    (hbefore : ∀ x ∈ before, P x) (h : readMore item close turns before cs = some (xs, rest)) :
    ∀ x ∈ xs, P x := by
  induction turns generalizing before cs with
  | zero => cases h
  | succ turns ih =>
    rw [readMore] at h
    split at h
    · cases h
    · split at h
      · cases h
        exact fun x hx => hbefore x (List.mem_reverse.1 hx)
      · split at h
        · obtain ⟨⟨x, rest'⟩, hx, h⟩ := Option.bind_eq_some_iff.1 h
          exact ih (List.forall_mem_cons.2 ⟨hitem _ x rest' hx, hbefore⟩) h
        · cases h

theorem forall_mem_of_readItems {P : α → Prop}
    (hitem : ∀ cs x rest, item cs = some (x, rest) → P x)
    (h : readItems item close cs = some (xs, rest)) : ∀ x ∈ xs, P x := by
  rw [readItems] at h
  split at h
  · cases h
  · split at h
    · cases h
      exact nofun
    · obtain ⟨⟨x, rest'⟩, hx, h⟩ := Option.bind_eq_some_iff.1 h
      exact forall_mem_of_readMore hitem (List.forall_mem_singleton.2 (hitem _ x rest' hx)) h

theorem exists_scalar_of_readScalar (h : readScalar c cs = some (document, rest)) :
    ∃ s, ∀ path, Value.ofJsonAt path document = .ok (.scalar s) := by
  have word : ∀ {word document'}, readWord word document' cs = some (document, rest) →
      document' = document := by
    intro word document' h
    rw [readWord] at h
    split at h <;> cases h
    rfl
  rw [readScalar] at h
  split at h
  · obtain ⟨⟨s, _⟩, -, h⟩ := Option.bind_eq_some_iff.1 h
    cases h
    exact ⟨.string s, fun path => by rw [Value.ofJsonAt]⟩
  split at h
  · exact ⟨.null, fun path => by rw [← word h, Value.ofJsonAt]⟩
  split at h
  · exact ⟨.bool true, fun path => by rw [← word h, Value.ofJsonAt]⟩
  split at h
  · exact ⟨.bool false, fun path => by rw [← word h, Value.ofJsonAt]⟩
  obtain ⟨⟨n, _⟩, -, h⟩ := Option.bind_eq_some_iff.1 h
  cases h
  exact ⟨n.scalar, fun path => by rw [Value.ofJsonAt]⟩

end Json

namespace Value

theorem forall_mem_of_ofJsonItems {P : Value → Prop}
    (hitem : ∀ x ∈ documents, ∀ path v, ofJsonAt path x = .ok v → P v)
    (h : ofJsonItems path index documents = .ok vs) : ∀ v ∈ vs, P v := by
  induction documents generalizing index vs with
  | nil =>
    rw [ofJsonItems] at h
    cases h
    exact List.forall_mem_nil P
  | cons x xs ih =>
    rw [List.forall_mem_cons] at hitem
    rw [ofJsonItems] at h
    cases hv : ofJsonAt (index :: path) x with
    | error e =>
      rw [hv] at h
      cases h
    | ok v =>
      cases hvs : ofJsonItems path (index + 1) xs with
      | error e =>
        rw [hv, hvs] at h
        cases h
      | ok vs' =>
        rw [hv, hvs] at h
        cases h
        exact List.forall_mem_cons.2 ⟨hitem.1 _ v hv, ih hitem.2 hvs⟩

/-- The value of an array is the sequence of the values of its items. -/
theorem forall_mem_of_array {P : Value → Prop}
    (hitem : ∀ x ∈ documents, ∀ path v, ofJsonAt path x = .ok v → P v)
    (h : ofJsonAt path (.array documents) = .ok v) : ∃ vs, v = .seq vs ∧ ∀ w ∈ vs, P w := by
  rw [ofJsonAt] at h
  cases hvs : ofJsonItems path 0 documents with
  | error e =>
    rw [hvs] at h
    cases h
  | ok vs =>
    rw [hvs] at h
    cases h
    exact ⟨vs, rfl, forall_mem_of_ofJsonItems hitem hvs⟩

theorem depth_eq_zero_of_readScalar (h : readScalar c cs = some (document, rest))
    (hv : ofJsonAt path document = .ok v) : v.depth = 0 := by
  obtain ⟨s, hs⟩ := exists_scalar_of_readScalar h
  rw [hs path] at hv
  cases hv
  rfl

/-- A document that was read with some depth to spare has a value that nests no deeper. -/
theorem depth_le_of_readValue (h : readValue d cs = some (document, rest))
    (hv : ofJsonAt path document = .ok v) : v.depth ≤ d := by
  induction d generalizing cs document rest path v with
  | zero =>
    cases cs with
    | nil => cases h
    | cons c cs => exact Nat.le_of_eq (depth_eq_zero_of_readScalar h hv)
  | succ d ih =>
    cases cs with
    | nil => cases h
    | cons c cs =>
      rw [readValue] at h
      split at h
      · obtain ⟨⟨items, _⟩, hitems, h⟩ := Option.bind_eq_some_iff.1 h
        cases h
        obtain ⟨vs, rfl, hvs⟩ := forall_mem_of_array (P := fun w => w.depth ≤ d)
          (forall_mem_of_readItems (fun cs x rest hx path w hw => ih hx hw) hitems) hv
        exact Nat.succ_le_succ (depthOfItems_le_iff.2 hvs)
      split at h
      · obtain ⟨⟨fields, _⟩, -, h⟩ := Option.bind_eq_some_iff.1 h
        cases h
        rw [ofJsonAt] at hv
        cases hv
      rw [depth_eq_zero_of_readScalar h hv]
      exact Nat.zero_le _

/-- No value is read that nests deeper than what is read. -/
theorem depth_le_of_parse {text : String} (h : parse text = .ok v) : v.depth ≤ maxDepth := by
  rw [parse] at h
  split at h
  · next document hread =>
    obtain ⟨⟨document', rest⟩, hvalue, hread⟩ := Option.bind_eq_some_iff.1 hread
    change (if skipBlanks rest = [] then some document' else none) = some document at hread
    split at hread
    · cases hread
      exact depth_le_of_readValue hvalue h
    · cases hread
  · cases h

end Value

end NestedRegex
