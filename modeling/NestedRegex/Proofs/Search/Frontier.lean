import NestedRegex.Proofs.Search.Turns

namespace NestedRegex

namespace Search

open Relation

/-- The nodes that a task is still to follow. -/
def Task.nodes (f : Forest) : Task → List Node
  | .visit seq => [.seq seq]
  | .scan _ _ => []
  | .descend seq index => (f.nodesOf seq).drop index

/-- The nodes that all tasks are still to follow. -/
def pending (f : Forest) (agenda : List Task) : List Node :=
  agenda.flatMap (Task.nodes f)

/-- Descents only, into different sequences that were visited. -/
inductive Descends (visited : NameSet) : List Task → Prop
  | nil : Descends visited []
  | cons {seq index rest} (there : seq ∈ visited) (once : ∀ i, .descend seq i ∉ rest)
    (tail : Descends visited rest) : Descends visited (.descend seq index :: rest)

/-- What an agenda looks like: descents, and before them at most one visit, or the scan of the
sequence that is to be descended into first. -/
inductive Ordered (visited : NameSet) : List Task → Prop
  | between {rest} (h : Descends visited rest) : Ordered visited rest
  | visit {seq rest} (h : Descends visited rest) : Ordered visited (.visit seq :: rest)
  | scan {seq position rest} (h : Descends visited (.descend seq 0 :: rest)) :
    Ordered visited (.scan seq position :: .descend seq 0 :: rest)

/-- A sequence that was visited or is still to be followed at once. -/
def Met (f : Forest) (visited : NameSet) (agenda : List Task) (x : SeqName) : Prop :=
  x ∈ visited ∨ .seq x ∈ pending f agenda

/-- The frontier between what was visited and what was not. -/
structure Frontier (f : Forest) (visited : NameSet) (agenda : List Task) : Prop where
  closed : f.Closed
  acyclic : f.Acyclic
  unshared : f.Unshared
  there : f.contains f.root = true
  order : Ordered visited agenda
  root : Met f visited agenda f.root
  reached : ∀ {x}, Met f visited agenda x → f.Reaches f.root x
  below : ∀ {y x}, y ∈ visited → f.Child y x → Met f visited agenda x
  above : ∀ {y x}, Met f visited agenda x → f.Child y x → y ∈ visited
  new : ∀ {x}, .seq x ∈ pending f agenda → x ∉ visited
  once : ∀ x, (pending f agenda).count (.seq x) ≤ 1

variable {σ : Type} {f g : Forest} {visited : NameSet} {agenda rest : List Task} {t : Task}
  {seq x y : SeqName} {position index : Nat} {nodes : List Node}

@[simp] theorem pending_cons : pending f (t :: rest) = t.nodes f ++ pending f rest :=
  rfl

/-- Before its descent the scan of a sequence has all its children pending. -/
theorem mem_pending_scan : .seq x ∈ pending f (.scan seq position :: .descend seq 0 :: rest) ↔
    f.Child seq x ∨ .seq x ∈ pending f rest := by
  simp [Task.nodes, Forest.mem_nodesOf]

theorem Descends.mono {more : NameSet} (h : Descends visited rest)
    (hm : ∀ {x}, x ∈ visited → x ∈ more) : Descends more rest := by
  induction h with
  | nil => exact .nil
  | cons there once _ ih => exact .cons (hm there) once ih

theorem Descends.mem_visited (h : Descends visited rest) (ht : .descend x index ∈ rest) :
    x ∈ visited := by
  induction h with
  | nil => cases ht
  | cons there _ _ ih =>
    rcases List.mem_cons.1 ht with e | ht
    · obtain ⟨rfl, -⟩ := Task.descend.inj e
      exact there
    · exact ih ht

/-- What descents are to follow depends on the children of their sequences only. -/
theorem Descends.pending_congr (h : Descends visited rest)
    (same : ∀ x, x ∈ visited → (∃ i, .descend x i ∈ rest) → g.nodesOf x = f.nodesOf x) :
    pending g rest = pending f rest := by
  induction h with
  | nil => rfl
  | @cons seq index rest there once tail ih =>
    have hseq : g.nodesOf seq = f.nodesOf seq := same seq there ⟨index, List.mem_cons_self⟩
    have hrest := ih fun x hx ⟨i, hi⟩ => same x hx ⟨i, List.mem_cons_of_mem _ hi⟩
    simp only [pending_cons, Task.nodes, hseq, hrest]

namespace Frontier

/-- A sequence above one that was met was visited. -/
theorem visited_of_reaches (h : Frontier f visited agenda) (hx : Met f visited agenda x)
    (hr : f.Reaches y x) : y = x ∨ y ∈ visited := by
  induction hr with
  | refl => exact .inl rfl
  | tail _ hc ih =>
    have hz := h.above hx hc
    rcases ih (.inl hz) with rfl | hy
    · exact .inr hz
    · exact .inr hy

/-- In the end what was visited is what the root leads to. -/
theorem visited_iff (h : Frontier f visited []) : x ∈ visited ↔ f.Reaches f.root x := by
  have met : ∀ {x}, Met f visited [] x → x ∈ visited := by
    rintro x (hx | hx)
    · exact hx
    · cases hx
  constructor
  · intro hx
    exact h.reached (.inl hx)
  · intro hr
    induction hr with
    | refl => exact met h.root
    | tail _ hc ih => exact met (h.below ih hc)

/-- Another agenda that is to follow the same sequences. -/
theorem replan {agenda' : List Task} (h : Frontier f visited agenda)
    (order : Ordered visited agenda')
    (same : ∀ x, (pending f agenda').count (.seq x) = (pending f agenda).count (.seq x)) :
    Frontier f visited agenda' := by
  have hmem : ∀ x, .seq x ∈ pending f agenda' ↔ .seq x ∈ pending f agenda := by
    intro x
    rw [← List.count_pos_iff, ← List.count_pos_iff, same]
  have hmet : ∀ x, Met f visited agenda' x ↔ Met f visited agenda x := by
    intro x
    rw [Met, Met, hmem]
  exact ⟨h.closed, h.acyclic, h.unshared, h.there, order, (hmet _).2 h.root,
    fun hx => h.reached ((hmet _).1 hx), fun hy hc => (hmet _).2 (h.below hy hc),
    fun hx hc => h.above ((hmet _).1 hx) hc, fun hx => h.new ((hmem _).1 hx),
    fun x => same x ▸ h.once x⟩

/-- The head of the agenda is visited: its children take its place. -/
theorem enter (h : Frontier f visited (.visit seq :: rest)) (hr : Descends visited rest)
    (hs : seq ∉ visited) :
    Frontier f (visited.insert seq) (.scan seq 0 :: .descend seq 0 :: rest) := by
  have hinsert : ∀ {x}, x ∈ visited.insert seq ↔ x = seq ∨ x ∈ visited := NameSet.mem_insert
  have hbefore : ∀ {x}, .seq x ∈ pending f (.visit seq :: rest) ↔
      x = seq ∨ .seq x ∈ pending f rest := by
    simp [Task.nodes]
  have hafter : ∀ {x}, .seq x ∈ pending f (.scan seq 0 :: .descend seq 0 :: rest) ↔
      f.Child seq x ∨ .seq x ∈ pending f rest := mem_pending_scan
  have hmet : ∀ {x}, Met f (visited.insert seq) (.scan seq 0 :: .descend seq 0 :: rest) x ↔
      Met f visited (.visit seq :: rest) x ∨ f.Child seq x := by
    intro x
    rw [Met, Met, hinsert, hbefore, hafter]
    grind
  have hself : Met f visited (.visit seq :: rest) seq := .inr (hbefore.2 (.inl rfl))
  have hapart : ∀ {x}, .seq x ∈ pending f rest → x ≠ seq := by
    -- The visit would be a second place for it on the agenda.
    rintro x hx rfl
    have hle := h.once x
    have hpos := List.count_pos_iff.2 hx
    simp only [pending_cons, Task.nodes, List.count_append, List.count_singleton_self] at hle
    omega
  refine ⟨h.closed, h.acyclic, h.unshared, h.there, ?_, hmet.2 (.inl h.root), fun hx => ?_,
    fun hy hc => ?_, fun hx hc => ?_, fun hx hin => ?_, fun x => ?_⟩
  · refine .scan (.cons (hinsert.2 (.inl rfl)) (fun i hi => hs (hr.mem_visited hi)) ?_)
    exact hr.mono fun hx => hinsert.2 (.inr hx)
  · rcases hmet.1 hx with hx | hc
    · exact h.reached hx
    · exact (h.reached hself).tail hc
  · rcases hinsert.1 hy with rfl | hy
    · exact hmet.2 (.inr hc)
    · exact hmet.2 (.inl (h.below hy hc))
  · rcases hmet.1 hx with hx | hcs
    · exact hinsert.2 (.inr (h.above hx hc))
    · exact hinsert.2 (.inl (Forest.parent_unique (h.unshared.once _) hc hcs))
  · rcases hafter.1 hx with hc | hrest
    · rcases hinsert.1 hin with rfl | hin
      · exact h.acyclic _ (.single hc)
      · exact hs (h.above (.inl hin) hc)
    · rcases hinsert.1 hin with rfl | hin
      · exact hapart hrest rfl
      · exact h.new (hbefore.2 (.inr hrest)) hin
  · have hchildren := h.unshared.count_nodesOf seq x
    have hle := h.once x
    simp only [pending_cons, Task.nodes, List.count_append, List.count_nil, List.drop_zero]
      at hle ⊢
    by_cases hx : .seq x ∈ pending f rest
    · have hnone : (f.nodesOf seq).count (.seq x) = 0 := List.count_eq_zero.2 fun hm =>
        hs (h.above (.inr (hbefore.2 (.inr hx))) (Forest.mem_nodesOf.1 hm))
      omega
    · rw [List.count_eq_zero.2 hx]
      omega

end Frontier

/-- Edits that left everything alone that `home` does not lead to, and let nothing be shared. -/
structure Reworked (f g : Forest) (home : SeqName) : Prop where
  closed : g.Closed
  acyclic : g.Acyclic
  unshared : g.Unshared
  there : g.contains g.root = true
  root : g.root = f.root
  spared : ∀ {x nodes}, ¬f.Reaches home x → f.children? x = some nodes →
    g.children? x = some nodes

namespace Frontier

section Reworked

variable (h : Frontier f visited (.scan seq position :: .descend seq 0 :: rest))
  (hr : Descends visited (.descend seq 0 :: rest)) (e : Reworked f g seq)
include h

/-- Nothing that was visited before lies below the sequence of the scan. -/
theorem not_reaches (hy : y ∈ visited) (ne : y ≠ seq) : ¬f.Reaches seq y := by
  intro hr
  rcases hr.cases_head with rfl | ⟨z, hc, hz⟩
  · exact ne rfl
  · have hnew := h.new (mem_pending_scan.2 (.inl hc))
    rcases h.visited_of_reaches (.inl hy) hz with rfl | hv
    · exact hnew hy
    · exact hnew hv

/-- What was visited or is left to later descents has the root's place or a parent that was visited
before the sequence of the scan. -/
theorem parent (hx : x ∈ visited ∨ .seq x ∈ pending f rest) :
    x = f.root ∨ ∃ y, f.Child y x ∧ y ∈ visited ∧ y ≠ seq := by
  have hmet : Met f visited (.scan seq position :: .descend seq 0 :: rest) x :=
    hx.imp_right fun hx => mem_pending_scan.2 (.inr hx)
  rcases (h.reached hmet).cases_tail with hroot | ⟨y, -, hc⟩
  · exact .inl hroot
  · refine .inr ⟨y, hc, h.above hmet hc, ?_⟩
    -- The children of the scanned sequence are all pending, and on the agenda only once.
    rintro rfl
    rcases hx with hx | hx
    · exact h.new (mem_pending_scan.2 (.inl hc)) hx
    · have hle := h.once x
      have hone := List.count_pos_iff.2 (Forest.mem_nodesOf.2 hc)
      have hother := List.count_pos_iff.2 hx
      simp only [pending_cons, Task.nodes, List.count_append, List.count_nil, List.drop_zero]
        at hle
      omega

include e

theorem children_eq (hy : y ∈ visited) (ne : y ≠ seq) : g.children? y = f.children? y := by
  have hc := h.closed.reaches h.there (h.reached (.inl hy))
  rw [Forest.nodesOf_of_contains hc]
  exact e.spared (h.not_reaches hy ne) (Forest.nodesOf_of_contains hc)

theorem child_iff (hy : y ∈ visited) (ne : y ≠ seq) : g.Child y x ↔ f.Child y x := by
  rw [Forest.Child, Forest.Child, h.children_eq e hy ne]

/-- The parents of these are what they were. -/
theorem parent_kept (hx : x ∈ visited ∨ .seq x ∈ pending f rest) (hc : g.Child y x) :
    y ∈ visited ∧ y ≠ seq := by
  rcases h.parent hx with rfl | ⟨z, hz, hv, ne⟩
  · have hpos := Forest.places_pos_of_child hc
    rw [← e.root, e.unshared.root] at hpos
    cases hpos
  · -- It still has the parent that it had, and it cannot have another one.
    have hz' := (h.child_iff e hv ne).2 hz
    obtain rfl := Forest.parent_unique (e.unshared.once x) hc hz'
    exact ⟨hv, ne⟩

theorem reaches_visited (hx : x ∈ visited) : g.Reaches g.root x := by
  rw [e.root]
  apply (h.reached (.inl hx)).transfer
  intro y _ hy
  have hv : y ∈ visited := by
    obtain ⟨z, hyz, hz⟩ := TransGen.tail'_iff.1 hy
    rcases h.visited_of_reaches (.inl (h.above (.inl hx) hz)) hyz with rfl | hv
    · exact h.above (.inl hx) hz
    · exact hv
  apply h.children_eq e hv
  rintro rfl
  by_cases ne : x = y
  · exact h.acyclic y (ne ▸ hy)
  · exact h.not_reaches hx ne hy.to_reflTransGen

theorem reaches_pending (hx : x ∈ visited ∨ .seq x ∈ pending f rest) : g.Reaches g.root x := by
  rcases h.parent hx with rfl | ⟨y, hc, hv, ne⟩
  · rw [e.root]
    exact .refl
  · exact (h.reaches_visited e hv).tail ((h.child_iff e hv ne).2 hc)

/-- Edits below the sequence of a scan move nothing across the frontier. -/
theorem rework (hr : Descends visited (.descend seq 0 :: rest)) (position' : Nat) :
    Frontier g visited (.scan seq position' :: .descend seq 0 :: rest) := by
  have hself : seq ∈ visited := by
    cases hr with
    | cons there _ _ => exact there
  have hrest : pending g rest = pending f rest := by
    cases hr with
    | cons _ once tail =>
      refine tail.pending_congr fun x hx ⟨i, hi⟩ => ?_
      have ne : x ≠ seq := by
        rintro rfl
        exact once i hi
      rw [Forest.nodesOf, Forest.nodesOf, h.children_eq e hx ne]
  have hpending : ∀ {x}, .seq x ∈ pending g (.scan seq position' :: .descend seq 0 :: rest) ↔
      g.Child seq x ∨ .seq x ∈ pending f rest := by
    intro x
    rw [mem_pending_scan, hrest]
  have hmet : ∀ {x}, Met g visited (.scan seq position' :: .descend seq 0 :: rest) x ↔
      (x ∈ visited ∨ .seq x ∈ pending f rest) ∨ g.Child seq x := by
    intro x
    rw [Met, hpending]
    grind
  refine ⟨e.closed, e.acyclic, e.unshared, e.there, .scan hr, ?_, fun hx => ?_,
    @fun y x hy hc => ?_, fun hx hc => ?_, fun hx hin => ?_, fun x => ?_⟩
  · rw [e.root, hmet]
    rcases h.root with hv | hp
    · exact .inl (.inl hv)
    · rcases mem_pending_scan.1 hp with hc | hp
      · have hpos := Forest.places_pos_of_child hc
        rw [h.unshared.root] at hpos
        cases hpos
      · exact .inl (.inr hp)
  · rcases hmet.1 hx with hx | hc
    · exact h.reaches_pending e hx
    · exact (h.reaches_visited e hself).tail hc
  · rw [hmet]
    by_cases ne : y = seq
    · exact .inr (ne ▸ hc)
    · have hcf := (h.child_iff e hy ne).1 hc
      rcases h.below hy hcf with hv | hp
      · exact .inl (.inl hv)
      · rcases mem_pending_scan.1 hp with hcs | hp
        · exact absurd (Forest.parent_unique (h.unshared.once _) hcf hcs) ne
        · exact .inl (.inr hp)
  · rcases hmet.1 hx with hx | hcs
    · exact (h.parent_kept e hx hc).1
    · rw [Forest.parent_unique (e.unshared.once _) hc hcs]
      exact hself
  · rcases hpending.1 hx with hc | hx
    · exact (h.parent_kept e (.inl hin) hc).2 rfl
    · exact h.new (mem_pending_scan.2 (.inr hx)) hin
  · have hchildren := e.unshared.count_nodesOf seq x
    have hle := h.once x
    simp only [pending_cons, Task.nodes, List.count_append, List.count_nil, List.drop_zero, hrest]
      at hle ⊢
    by_cases hx : .seq x ∈ pending f rest
    · have hnone : (g.nodesOf seq).count (.seq x) = 0 := List.count_eq_zero.2 fun hm =>
        (h.parent_kept e (.inr hx) (Forest.mem_nodesOf.1 hm)).2 rfl
      omega
    · rw [List.count_eq_zero.2 hx]
      omega

end Reworked

end Frontier

end Search

end NestedRegex
