import NestedRegex.Proofs.Forest.Load
import NestedRegex.Proofs.Forest.Values
import NestedRegex.Proofs.Value.Rewriting

namespace NestedRegex

/-- A value as a root has it: a scalar is its only item. -/
def Value.rooted : Value → Value
  | .scalar s => .seq [.scalar s]
  | .seq vs => .seq vs

namespace Forest

mutual

/-- A node shows a value in the sequences of some names, the topmost first. -/
inductive Shows (f : Forest) : Value → Node → List SeqName → Prop
  | scalar (s : Scalar) : Shows f (.scalar s) (.scalar s) []
  | seq {vs id nodes names} (children : f.children? id = some nodes)
    (items : ShowsItems f vs nodes names) (apart : id ∉ names) :
    Shows f (.seq vs) (.seq id) (id :: names)

/-- Nodes show values one by one, each in sequences of its own. -/
inductive ShowsItems (f : Forest) : List Value → List Node → List SeqName → Prop
  | nil : ShowsItems f [] [] []
  | cons {v vs n nodes xs ys} (item : Shows f v n xs) (items : ShowsItems f vs nodes ys)
    (apart : ∀ x ∈ xs, x ∉ ys) : ShowsItems f (v :: vs) (n :: nodes) (xs ++ ys)

end

section Sequences

variable {f g : Forest} {x : SeqName}

mutual

/-- A node shows the same where its sequences are the same. -/
theorem Shows.congr {v : Value} {n : Node} {names : List SeqName}
    (h : Shows f v n names)
    (same : ∀ x ∈ names, ∀ nodes, f.children? x = some nodes → g.children? x = some nodes) :
    Shows g v n names := by
  match h with
  | .scalar s => exact .scalar s
  | .seq hc hi ha =>
    have hhere := same _ List.mem_cons_self _ hc
    exact .seq hhere (hi.congr fun x hx => same x (List.mem_cons_of_mem _ hx)) ha

theorem ShowsItems.congr {vs : List Value} {nodes : List Node} {names : List SeqName}
    (h : ShowsItems f vs nodes names)
    (same : ∀ x ∈ names, ∀ nodes, f.children? x = some nodes → g.children? x = some nodes) :
    ShowsItems g vs nodes names := by
  match h with
  | .nil => exact .nil
  | .cons hi hs ha =>
    exact .cons (hi.congr fun x hx => same x (List.mem_append_left _ hx))
      (hs.congr fun x hx => same x (List.mem_append_right _ hx)) ha

end

mutual

theorem Shows.contains {v : Value} {n : Node} {names : List SeqName}
    (h : Shows f v n names) (hx : x ∈ names) : f.contains x = true := by
  match h with
  | .scalar s => cases hx
  | .seq hc hi _ =>
    rcases List.mem_cons.1 hx with rfl | hx
    · exact contains_iff.2 ⟨_, hc⟩
    · exact hi.contains hx

theorem ShowsItems.contains {vs : List Value} {nodes : List Node} {names : List SeqName}
    (h : ShowsItems f vs nodes names) (hx : x ∈ names) : f.contains x = true := by
  match h with
  | .nil => cases hx
  | .cons hi hs _ =>
    rcases List.mem_append.1 hx with hx | hx
    · exact hi.contains hx
    · exact hs.contains hx

end

theorem Shows.mem_names {v : Value} {names : List SeqName} (h : Shows f v (.seq x) names) :
    x ∈ names := by
  cases h with
  | seq _ _ _ => exact List.mem_cons_self

end Sequences

variable {f : Forest}

mutual

/-- What a node shows is its value. -/
theorem Shows.value {v : Value} {n : Node} {names : List SeqName}
    (h : Shows f v n names) (hf : f.Closed) (ha : f.Acyclic) :
    f.value n = v := by
  match h with
  | .scalar s => exact value_scalar s
  | .seq hc hi _ => rw [value_seq hf ha hc, hi.values hf ha]

theorem ShowsItems.values {vs : List Value} {nodes : List Node} {names : List SeqName}
    (h : ShowsItems f vs nodes names) (hf : f.Closed) (ha : f.Acyclic) :
    nodes.map f.value = vs := by
  match h with
  | .nil => rfl
  | .cons hi hs _ => rw [List.map_cons, hi.value hf ha, hs.values hf ha]

end

variable {v : Value} {vs : List Value} {n : Node} {nodes : List Node} {names : List SeqName}

/-- What the root shows is the value of the forest. -/
theorem Shows.toValue (h : Shows f v (.seq f.root) names) (hf : f.Closed) (ha : f.Acyclic) :
    f.toValue = .ok v := by
  have holds : f.Holds [.seq f.root] := holds_seq_iff.2 (h.contains h.mem_names)
  rw [Forest.toValue, readSeq, read_ok hf ha holds, h.value hf ha]

theorem ShowsItems.length (h : ShowsItems f vs nodes names) : nodes.length = vs.length := by
  induction vs generalizing nodes names with
  | nil =>
    cases h
    rfl
  | cons v vs ih =>
    cases h with
    | cons _ hs _ => rw [List.length_cons, List.length_cons, ih hs]

/-- A sequence that begins with a scalar. -/
theorem Shows.tagged {s : Scalar} (h : Shows f (.seq (.scalar s :: vs)) n names) :
    ∃ id nodes, n = .seq id ∧ f.children? id = some (.scalar s :: nodes) ∧
      nodes.length = vs.length := by
  cases h with
  | seq hc hvs _ =>
    cases hvs with
    | cons hv hvs _ =>
      cases hv
      exact ⟨_, _, rfl, hc, hvs.length⟩

/-- What is the same of a node as of the value that it shows. -/
theorem ShowsItems.map_eq {α : Type} {ofNode : Node → α} {ofValue : Value → α}
    (h : ShowsItems f vs nodes names)
    (same : ∀ {v n names}, Shows f v n names → ofNode n = ofValue v) :
    nodes.map ofNode = vs.map ofValue := by
  induction vs generalizing nodes names with
  | nil =>
    cases h
    rfl
  | cons v vs ih =>
    cases h with
    | cons hv hvs _ => rw [List.map_cons, List.map_cons, same hv, ih hvs]

theorem Shows.string? (h : Shows f v n names) : n.string? = v.string? := by
  cases h with
  | scalar s => rfl
  | seq _ _ _ => rfl

theorem Shows.isNull_iff (h : Shows f v n names) : n.isNull = true ↔ v = .scalar .null := by
  cases h with
  | scalar s => simp [Node.isNull, Scalar.isNull_iff]
  | seq _ _ _ => simp [Node.isNull]

mutual

/-- A loaded value is shown in sequences that were not there before. -/
theorem shows_load (v : Value) {f : Forest} (hf : f.Closed) :
    ∃ names, Shows (f.load v).2 v (f.load v).1 names ∧ ∀ x ∈ names, f.contains x = false := by
  match v with
  | .scalar s => exact ⟨[], .scalar s, nofun⟩
  | .seq vs =>
    obtain ⟨names, hs, hnew⟩ := shows_loadItems vs hf
    have hgrow := extends_alloc (f.loadItems vs).2 (f.loadItems vs).1
    refine ⟨_, .seq children?_alloc_self (hs.congr fun x _ nodes => hgrow.children) ?_, ?_⟩
    · intro hin
      have hthere := hs.contains hin
      have hnot : (f.loadItems vs).2.contains ((f.loadItems vs).2.alloc (f.loadItems vs).1).1 =
          false := not_contains_alloc
      exact absurd hthere (Bool.eq_false_iff.1 hnot)
    · intro x hx
      have hl := (loaded_load (.seq vs) hf).fresh
      rcases List.mem_cons.1 hx with rfl | hx
      · exact hl _ ⟨_, List.mem_cons_self, .refl⟩
      · exact hnew x hx

theorem shows_loadItems (vs : List Value) {f : Forest} (hf : f.Closed) :
    ∃ names, ShowsItems (f.loadItems vs).2 vs (f.loadItems vs).1 names ∧
      ∀ x ∈ names, f.contains x = false := by
  match vs with
  | [] => exact ⟨[], .nil, nofun⟩
  | v :: vs =>
    have hone := loaded_load v hf
    have hrest := loaded_loadItems vs hone.closed
    obtain ⟨xs, hv, hxs⟩ := shows_load v hf
    obtain ⟨ys, hvs, hys⟩ := shows_loadItems vs hone.closed
    refine ⟨xs ++ ys, .cons (hv.congr fun x _ nodes => hrest.grows.children) hvs ?_, ?_⟩
    · intro x hx hy
      have hthere := hv.contains hx
      rw [hys x hy] at hthere
      cases hthere
    · intro x hx
      rcases List.mem_append.1 hx with hx | hx
      · exact hxs x hx
      · cases hc : f.contains x with
        | false => rfl
        | true =>
          have hthere := hone.grows.contains hc
          rw [hys x hx] at hthere
          cases hthere

end

theorem shows_ofValue (v : Value) :
    ∃ names, Shows (ofValue v) v.rooted (.seq (ofValue v).root) names := by
  have hroot : ∀ vs, ∃ names, Shows (rooted (bare.loadItems vs)) (.seq vs)
      (.seq (rooted (bare.loadItems vs)).root) names := by
    intro vs
    obtain ⟨names, hs, -⟩ := shows_load (.seq vs) closed_bare
    exact ⟨names, hs.congr fun _ _ _ hc => hc⟩
  cases v with
  | scalar s => exact hroot [.scalar s]
  | seq vs => exact hroot vs

end Forest

end NestedRegex
