import NestedRegex.Proofs.Forest.Sequences

namespace NestedRegex.Forest

open Relation

/-- The nodes were loaded into `f`, which made it `g`. Each added sequence stands behind those below
it, and each is named: by one of the nodes, or in a sequence. -/
structure Added (f g : Forest) (nodes : List Node) : Prop extends Loaded f g nodes where
  falls : ∀ a b, f.contains a = false → g.Child a b → f.contains b = false ∧ b.index < a.index
  named : ∀ id, f.contains id = false → g.contains id = true →
    .seq id ∈ nodes ∨ ∃ parent, g.Child parent id

/-- A value was loaded into `f`, which made it `g`, and the node stands for the value there. -/
structure Holding (f : Forest) (v : Value) (n : Node) (g : Forest) : Prop where
  /-- The old sequences and the root are what they were. -/
  kept : Extends g f
  size : g.size = f.size + v.sequences.length
  /-- A new sequence comes behind all that are below it. -/
  behind : ∀ id below, f.contains id = false → TransGen g.Child id below → below.index < id.index
  /-- A new sequence has one place, if the node counts as one. -/
  once : ∀ id, f.contains id = false → g.contains id = true →
    g.places id + [n].count (.seq id) = 1
  /-- The place of a new sequence is in a new sequence. -/
  apart : ∀ parent id, f.contains id = false → g.Child parent id → f.contains parent = false
  reads : g.read n = .ok v

variable {f g h : Forest} {a b id : SeqName} {nodes more : List Node}

theorem Extends.child (hg : Extends g f) (hc : f.Child a b) : g.Child a b := by
  obtain ⟨nodes, hn, hb⟩ := hc
  exact ⟨nodes, hg.children hn, hb⟩

/-- The children of an old sequence are what they were. -/
theorem Extends.child_iff (hg : Extends g f) (ha : f.contains a = true) :
    g.Child a b ↔ f.Child a b := by
  refine ⟨fun ⟨nodes, hn, hb⟩ => ?_, hg.child⟩
  obtain ⟨old, ho⟩ := contains_iff.1 ha
  obtain rfl := Option.some.inj ((hg.children ho).symm.trans hn)
  exact ⟨old, ho, hb⟩

theorem Extends.not_contains (hg : Extends g f) (hid : g.contains id = false) :
    f.contains id = false := by
  cases hf : f.contains id with
  | false => rfl
  | true =>
    rw [hg.contains hf] at hid
    cases hid

namespace Added

theorem nil (hf : f.Closed) : Added f f [] where
  toLoaded := .nil hf
  falls a b ha hc := by
    rw [hc.contains] at ha
    cases ha
  named id hnew hid := by
    rw [hnew] at hid
    cases hid

theorem scalar (hf : f.Closed) (s : Scalar) : Added f f [.scalar s] where
  toLoaded := .scalar hf s
  falls := (nil hf).falls
  named id hnew hid := by
    rw [hnew] at hid
    cases hid

theorem append (hg : Added f g nodes) (hh : Added g h more) : Added f h (nodes ++ more) where
  toLoaded := hg.toLoaded.append hh.toLoaded
  falls a b ha hc := by
    cases hin : g.contains a with
    | true => exact hg.falls a b ha ((hh.grows.child_iff hin).1 hc)
    | false =>
      obtain ⟨hb, hlt⟩ := hh.falls a b hin hc
      exact ⟨hg.grows.not_contains hb, hlt⟩
  named id hnew hid := by
    cases hin : g.contains id with
    | true =>
      rcases hg.named id hnew hin with hm | ⟨parent, hc⟩
      · exact .inl (List.mem_append_left more hm)
      · exact .inr ⟨parent, hh.grows.child hc⟩
    | false => exact (hh.named id hin hid).imp_left (List.mem_append_right nodes)

/-- A new sequence of the loaded nodes. -/
theorem alloc (hg : Added f g nodes) : Added f (g.alloc nodes).2 [.seq (g.alloc nodes).1] where
  toLoaded := hg.toLoaded.alloc
  falls a b ha hc := by
    cases hin : g.contains a with
    | true => exact hg.falls a b ha (((extends_alloc g nodes).child_iff hin).1 hc)
    | false =>
      obtain ⟨children, hn, hb⟩ := hc
      rw [children?_alloc] at hn
      split at hn
      · next e =>
        obtain rfl := Option.some.inj hn
        have hlt : b.index < g.size := contains_iff_lt.1 (hg.holds b hb)
        exact ⟨hg.fresh b ⟨b, hb, .refl⟩, e ▸ hlt⟩
      · rw [contains_iff.2 ⟨children, hn⟩] at hin
        cases hin
  named id hnew hid := by
    cases hin : g.contains id with
    | true =>
      rcases hg.named id hnew hin with hm | ⟨parent, hc⟩
      · exact .inr ⟨(g.alloc nodes).1, nodes, children?_alloc_self, hm⟩
      · exact .inr ⟨parent, (extends_alloc g nodes).child hc⟩
    | false =>
      obtain ⟨children, hn⟩ := contains_iff.1 hid
      rw [children?_alloc] at hn
      split at hn
      · next e => exact .inl (e ▸ List.mem_singleton_self _)
      · rw [contains_iff.2 ⟨children, hn⟩] at hin
        cases hin

end Added

mutual

theorem added_load : ∀ (v : Value) {f : Forest}, f.Closed → Added f (f.load v).2 [(f.load v).1]
  | .scalar s, _, hf => .scalar hf s
  | .seq vs, _, hf => (added_loadItems vs hf).alloc

theorem added_loadItems : ∀ (vs : List Value) {f : Forest}, f.Closed →
    Added f (f.loadItems vs).2 (f.loadItems vs).1
  | [], _, hf => .nil hf
  | v :: vs, _, hf => (added_load v hf).append (added_loadItems vs (added_load v hf).closed)

end

mutual

theorem size_load : ∀ (v : Value) (f : Forest), (f.load v).2.size = f.size + v.sequences.length
  | .scalar s, f => rfl
  | .seq vs, f => by
    have items := size_loadItems vs f
    have one : (f.load (.seq vs)).2.size = (f.loadItems vs).2.size + 1 := Array.size_push _
    rw [one, items, Value.sequences, List.length_cons, Nat.add_assoc]

theorem size_loadItems : ∀ (vs : List Value) (f : Forest),
    (f.loadItems vs).2.size = f.size + (Value.sequencesOfItems vs).length
  | [], f => rfl
  | v :: vs, f => by
    have first := size_load v f
    have others := size_loadItems vs (f.load v).2
    rw [first] at others
    rw [Value.sequencesOfItems, List.length_append, ← Nat.add_assoc]
    exact others

end

mutual

/-- What a node shows is read down through no more sequences than it is shown in. -/
theorem Shows.readWithin {f : Forest} {v : Value} {n : Node} {names : List SeqName} {depth : Nat}
    (h : Shows f v n names) (hd : names.length ≤ depth) : f.readWithin depth n = .ok v := by
  match h with
  | .scalar s => cases depth <;> rfl
  | .seq hc hi _ =>
    obtain ⟨depth, rfl⟩ := Nat.exists_eq_succ_of_ne_zero (Nat.ne_zero_of_lt hd)
    rw [readWithin_seq hc, hi.readWithin (Nat.le_of_succ_le_succ hd)]
    rfl

theorem ShowsItems.readWithin {f : Forest} {vs : List Value} {nodes : List Node}
    {names : List SeqName} {depth : Nat} (h : ShowsItems f vs nodes names)
    (hd : names.length ≤ depth) : nodes.mapM (f.readWithin depth) = .ok vs := by
  match h with
  | .nil => rfl
  | .cons hi hs _ =>
    rw [List.length_append] at hd
    rw [List.mapM_cons, hi.readWithin (by omega), hs.readWithin (by omega)]
    rfl

end

/-- A value is shown in no more sequences than there are. -/
theorem Shows.length_le {v : Value} {n : Node} {names : List SeqName} (h : Shows f v n names) :
    names.length ≤ f.size := by
  have nodup : (names.map SeqName.index).Nodup :=
    h.nodup.map fun ⟨_⟩ ⟨_⟩ e => congrArg SeqName.mk e
  have bounded : names.map SeqName.index ⊆ List.range f.size := by
    intro i hi
    obtain ⟨x, hx, rfl⟩ := List.mem_map.1 hi
    exact List.mem_range.2 (contains_iff_lt.1 (h.contains hx))
  simpa using nodup.length_le_of_subset bounded

/-- What a node shows is what is read there, whatever else the forest holds. -/
theorem Shows.read {v : Value} {n : Node} {names : List SeqName} (h : Shows f v n names) :
    f.read n = .ok v :=
  h.readWithin (Nat.le_succ_of_le h.length_le)

/-- In a closed forest, with cycles or without, loading a value keeps all sequences and the root,
adds as many sequences as the value has, each with a greater name than all sequences below it and in
one place only, which is a new one, and answers with a node that reads back as the value. A forest
made of a value reads back as the value, or as the sequence of a value that is a scalar. -/
theorem load_holds (v : Value) :
    (∀ f : Forest, f.Closed → Holding f v (f.load v).1 (f.load v).2) ∧
    (ofValue v).toValue = .ok v.rooted := by
  constructor
  · intro f hf
    have added := added_load v hf
    obtain ⟨names, shown, -⟩ := shows_load v hf
    refine ⟨added.grows, size_load v f, fun id below hnew hbelow => ?_, fun id hnew hid => ?_,
      fun parent id hnew hc => ?_, shown.read⟩
    · exact (index_lt_of_transGen added.falls hnew hbelow).2
    · -- Nothing named the sequence before, so it has at most one place; as it is named, it has one.
      have most := added.once id
      rw [places_eq_zero hf hnew, hnew, if_neg Bool.false_ne_true] at most
      have least : 0 < (f.load v).2.places id + [(f.load v).1].count (.seq id) := by
        rcases added.named id hnew hid with hm | ⟨parent, hc⟩
        · exact Nat.add_pos_right _ (List.count_pos_iff.2 hm)
        · exact Nat.add_pos_left (places_pos_of_child hc) _
      omega
    · cases hin : f.contains parent with
      | false => rfl
      | true =>
        rw [hf.child ((added.grows.child_iff hin).1 hc)] at hnew
        cases hnew
  · obtain ⟨names, shown⟩ := shows_ofValue v
    exact shown.read

/-- A value with an empty sequence in it, loaded into a forest whose only sequence holds itself. -/
theorem load_holds_besides_loop :
    let f : Forest := ⟨#[#[.seq ⟨0⟩]], ⟨0⟩⟩
    let v : Value := .seq [.seq [.scalar .null], .seq []]
    f.Closed ∧ ¬f.Acyclic ∧ Holding f v (.seq ⟨3⟩) (f.load v).2 := by
  intro f v
  have hclosed : f.Closed := by decide
  have hloop : ¬f.Acyclic := fun ha => ha ⟨0⟩ (.single ⟨_, rfl, List.mem_cons_self⟩)
  exact ⟨hclosed, hloop, (load_holds v).1 f hclosed⟩

end NestedRegex.Forest
