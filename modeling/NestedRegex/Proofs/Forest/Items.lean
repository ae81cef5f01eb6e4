import NestedRegex.Proofs.Forest.Reachable
import NestedRegex.Proofs.Forest.Shows
import NestedRegex.Proofs.Forest.Spans
import NestedRegex.Proofs.Value.Inside

namespace NestedRegex.Forest

variable {f : Forest} {id : SeqName} {v w : Value} {vs : List Value} {n : Node} {nodes : List Node}
  {names : List SeqName}

/-- The items inside the value of a sequence are the values of the nodes below it. -/
theorem inside_value_iff (hf : f.Closed) (ha : f.Acyclic) (hc : f.contains id = true) :
    (f.value (.seq id)).Inside w ↔
      ∃ x n, f.Reaches id x ∧ n ∈ f.nodesOf x ∧ f.value n = w := by
  have items {x : SeqName} (hx : f.contains x = true) :
      f.value (.seq x) = .seq ((f.nodesOf x).map f.value) :=
    value_seq hf ha (nodesOf_of_contains hx)
  constructor
  · intro h
    generalize hv : f.value (.seq id) = v at h
    induction h generalizing id with
    | @item vs c hin =>
      obtain rfl := Value.seq.inj ((items hc).symm.trans hv)
      obtain ⟨n, hn, rfl⟩ := List.mem_map.1 hin
      exact ⟨id, n, .refl, hn, rfl⟩
    | @deeper vs c d hin hd ih =>
      obtain rfl := Value.seq.inj ((items hc).symm.trans hv)
      obtain ⟨n, hn, rfl⟩ := List.mem_map.1 hin
      cases n with
      | scalar s =>
        rw [value_scalar] at hd
        exact absurd hd (Value.not_inside_scalar s)
      | seq below =>
        have child := mem_nodesOf.1 hn
        obtain ⟨x, n, hx, hn, hw⟩ := ih (hf.child child) rfl
        exact ⟨x, n, .head child hx, hn, hw⟩
  · intro ⟨x, n, hx, hn, hw⟩
    subst hw
    induction hx using Relation.ReflTransGen.head_induction_on with
    | refl =>
      rw [items hc]
      exact .item (List.mem_map_of_mem hn)
    | head child _ ih =>
      rw [items hc]
      exact .deeper (List.mem_map_of_mem (mem_nodesOf.2 child)) (ih (hf.child child))

/-- Inside a value that is shown are the values that the nodes below read back as. -/
theorem Shows.inside_iff (h : Shows f v (.seq id) names) (hf : f.Closed) (ha : f.Acyclic) :
    v.Inside w ↔ ∃ x n, f.Reaches id x ∧ n ∈ f.nodesOf x ∧ f.read n = .ok w := by
  have there := h.contains h.mem_names
  have reads {x : SeqName} {n : Node} (hr : f.Reaches id x) (hn : n ∈ f.nodesOf x) :
      f.read n = .ok w ↔ f.value n = w := by
    have holds := hf.holds_of_mem (nodesOf_of_contains (hf.reaches there hr)) hn
    rw [read_ok hf ha holds, Except.ok.injEq]
  rw [← h.value hf ha, inside_value_iff hf ha there]
  constructor
  · intro ⟨x, n, hr, hn, hw⟩
    exact ⟨x, n, hr, hn, (reads hr hn).2 hw⟩
  · intro ⟨x, n, hr, hn, hw⟩
    exact ⟨x, n, hr, hn, (reads hr hn).1 hw⟩

mutual

/-- No sequence is used twice to show a value. -/
theorem Shows.nodup {v : Value} {n : Node} {names : List SeqName} (h : Shows f v n names) :
    names.Nodup := by
  match h with
  | .scalar s => exact List.nodup_nil
  | .seq _ hi ha => exact List.nodup_cons.2 ⟨ha, hi.nodup⟩

theorem ShowsItems.nodup {vs : List Value} {nodes : List Node} {names : List SeqName}
    (h : ShowsItems f vs nodes names) : names.Nodup := by
  match h with
  | .nil => exact List.nodup_nil
  | .cons hi hs ha =>
    refine List.nodup_append.2 ⟨hi.nodup, hs.nodup, ?_⟩
    intro x hx y hy e
    subst e
    exact ha x hx hy

end

mutual

/-- A value has as many items inside as its sequences have children. -/
theorem Shows.size_eq {v : Value} {n : Node} {names : List SeqName} (h : Shows f v n names) :
    v.size = (names.map fun x => (f.nodesOf x).length).sum + 1 := by
  match h with
  | .scalar s => rfl
  | .seq hc hi _ =>
    rw [Value.size_seq, hi.size_eq, List.map_cons, List.sum_cons, nodesOf_eq hc, hi.length]

theorem ShowsItems.size_eq {vs : List Value} {nodes : List Node} {names : List SeqName}
    (h : ShowsItems f vs nodes names) : Value.sizeOfItems vs =
      vs.length + (names.map fun x => (f.nodesOf x).length).sum := by
  match h with
  | .nil => rfl
  | .cons hi hs _ =>
    rw [Value.sizeOfItems_cons, hi.size_eq, hs.size_eq, List.map_append, List.sum_append,
      List.length_cons]
    omega

end

/-- The sequences of some names have no more children than there are outside a set of others. -/
theorem sum_length_le_unseen {seen : NameSet} (nodup : names.Nodup)
    (there : ∀ x ∈ names, f.contains x = true) (new : ∀ x ∈ names, x ∉ seen) :
    (names.map fun x => (f.nodesOf x).length).sum ≤ f.unseen seen := by
  induction names generalizing seen with
  | nil => exact Nat.zero_le _
  | cons x names ih =>
    obtain ⟨hx, nodup⟩ := List.nodup_cons.1 nodup
    have new' : ∀ y ∈ names, y ∉ seen.insert x := by
      intro y hy hin
      rcases NameSet.mem_insert.1 hin with rfl | hin
      · exact hx hy
      · exact new y (List.mem_cons_of_mem _ hy) hin
    have rest := ih nodup (fun y hy => there y (List.mem_cons_of_mem _ hy)) new'
    have here := unseen_insert (there x List.mem_cons_self) (new x List.mem_cons_self)
    rw [List.map_cons, List.sum_cons]
    omega

/-- A value that is shown is no bigger than the forest. -/
theorem Shows.size_le (h : Shows f v n names) : v.size ≤ f.placeCount + 1 := by
  rw [h.size_eq, ← unseen_empty]
  exact Nat.succ_le_succ (sum_length_le_unseen h.nodup (fun x => h.contains) fun x _ =>
    NameSet.not_mem_empty x)

end NestedRegex.Forest
