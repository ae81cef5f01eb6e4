import NestedRegex.Proofs.Forest.Cycle
import NestedRegex.Proofs.Forest.Values

namespace NestedRegex

/-- Lists whose items are compared alike are compared alike as a whole. -/
theorem sameItems_congr {α ε : Type} {same same' : α → α → Except ε Bool} {xs ys : List α}
    (h : ∀ x ∈ xs, ∀ y ∈ ys, same x y = same' x y) :
    sameItems same xs ys = sameItems same' xs ys := by
  have go : sameItems.go same xs ys = sameItems.go same' xs ys := by
    induction xs generalizing ys with
    | nil => cases ys <;> rfl
    | cons x xs ih =>
      cases ys with
      | nil => rfl
      | cons y ys =>
        have hrest := ih fun a ha b hb =>
          h a (List.mem_cons_of_mem x ha) b (List.mem_cons_of_mem y hb)
        rw [sameItems.go, sameItems.go, h x List.mem_cons_self y List.mem_cons_self, hrest]
  rw [sameItems, sameItems, go]

namespace Forest

open Relation

open Classical in
/-- The forest with nothing left in the sequences that the nodes do not lead to. -/
noncomputable def pruned (f : Forest) (nodes : List Node) : Forest :=
  { f with rows := f.rows.mapIdx fun i row => if f.ReachedFrom nodes ⟨i⟩ then row else #[] }

variable {f g : Forest} {a b id x : SeqName} {m n : Node} {nodes xs ys : List Node} {depth : Nat}

/-- Nothing that the nodes lead to lies below itself where names come before that of their
parent. -/
theorem acyclicFrom_of_falls {P : SeqName → Prop} (begins : ∀ id, .seq id ∈ nodes → P id)
    (falls : ∀ a b, P a → f.Child a b → P b ∧ b.index < a.index) : f.AcyclicFrom nodes := by
  intro id ⟨top, hm, hr⟩ loop
  have hid : P id := by
    rcases reflTransGen_iff_eq_or_transGen.1 hr with rfl | ht
    · exact begins id hm
    · exact (index_lt_of_transGen falls (begins top hm) ht).1
  exact Nat.lt_irrefl _ (index_lt_of_transGen falls hid loop).2

theorem size_pruned (f : Forest) (nodes : List Node) : (f.pruned nodes).size = f.size := by
  simp [pruned, size]

theorem children?_pruned_of_reachedFrom (h : f.ReachedFrom nodes id) :
    (f.pruned nodes).children? id = f.children? id := by
  simp [pruned, children?, row?, h]

theorem children?_pruned_of_not (h : ¬f.ReachedFrom nodes id) :
    (f.pruned nodes).children? id = (f.children? id).map fun _ => [] := by
  simp [pruned, children?, row?, h, Function.comp_def]

theorem contains_pruned : (f.pruned nodes).contains id = f.contains id := by
  simp [contains, size_pruned]

theorem holds_pruned : (f.pruned nodes).Holds xs ↔ f.Holds xs := by
  simp only [Holds, contains_pruned]

/-- A sequence that still has children is one that the nodes lead to. -/
theorem child_pruned_iff :
    (f.pruned nodes).Child a b ↔ f.ReachedFrom nodes a ∧ f.Child a b := by
  by_cases h : f.ReachedFrom nodes a
  · rw [Child, children?_pruned_of_reachedFrom h]
    exact (and_iff_right h).symm
  · refine iff_of_false ?_ fun hc => h hc.1
    intro ⟨old, hc, hb⟩
    rw [children?_pruned_of_not h] at hc
    obtain ⟨_, _, rfl⟩ := Option.map_eq_some_iff.1 hc
    cases hb

theorem Closed.pruned (hf : f.Closed) (nodes : List Node) : (f.pruned nodes).Closed := by
  intro id children hc b hb
  rw [contains_pruned]
  exact hf.child (child_pruned_iff.1 ⟨children, hc, hb⟩).2

theorem AcyclicFrom.pruned (ha : f.AcyclicFrom nodes) : (f.pruned nodes).Acyclic := by
  intro id h
  have kept : (f.pruned nodes).Child ≤ f.Child := fun _ _ hc => (child_pruned_iff.1 hc).2
  obtain ⟨b, hc, -⟩ := TransGen.head'_iff.1 h
  exact ha id (child_pruned_iff.1 hc).1 (TransGen.mono kept id id h)

/-- Nodes that are among the given ones are read as before. -/
theorem read_pruned (hn : n ∈ nodes) : (f.pruned nodes).read n = f.read n :=
  read_congr (size_pruned f nodes) fun _ hx =>
    children?_pruned_of_reachedFrom (hx.mono (by simpa using hn))

/-- Two nodes are compared as before if all that they lead to is as before. -/
theorem sameWithin_congr (same : ∀ x, f.ReachedFrom [m, n] x → g.children? x = f.children? x) :
    g.sameWithin depth m n = f.sameWithin depth m n := by
  induction depth generalizing m n with
  | zero => cases m <;> cases n <;> rfl
  | succ depth ih =>
    cases m with
    | scalar s => cases n <;> rfl
    | seq a =>
      cases n with
      | scalar t => rfl
      | seq b =>
        have hsame : ∀ c, .seq c ∈ [Node.seq a, .seq b] → g.children c = f.children c :=
          fun c hc => children_congr (same c ⟨c, hc, .refl⟩)
        rw [sameWithin, sameWithin, hsame a (by simp), hsame b (by simp)]
        cases ha : f.children a with
        | error e => rfl
        | ok xs =>
          cases hb : f.children b with
          | error e => rfl
          | ok ys =>
            -- What a child leads to, its parent leads to: the hypothesis goes down with the depth.
            have items : ∀ x ∈ xs, ∀ y ∈ ys,
                g.sameWithin depth x y = f.sameWithin depth x y := by
              intro x hx y hy
              refine ih fun c hc => same c ?_
              obtain ⟨top, hm, hr⟩ := hc
              rcases List.mem_pair.1 hm with rfl | rfl
              · have hc : f.Child a top := ⟨xs, children_eq_ok_iff.1 ha, hx⟩
                exact ⟨a, by simp, .head hc hr⟩
              · have hc : f.Child b top := ⟨ys, children_eq_ok_iff.1 hb, hy⟩
                exact ⟨b, by simp, .head hc hr⟩
            simp only [bind, Except.bind, sameItems_congr items]

theorem same_pruned (hm : m ∈ nodes) (hn : n ∈ nodes) :
    (f.pruned nodes).same m n = f.same m n := by
  rw [same, same, pairDepth, pairDepth, size_pruned]
  refine sameWithin_congr fun x hx => children?_pruned_of_reachedFrom (hx.mono ?_)
  exact List.cons_subset.2 ⟨hm, by simpa using hn⟩

section

variable (hf : f.Closed) (hn : f.Holds nodes) (ha : f.AcyclicFrom nodes)
include hf hn ha

/-- Nodes that lead to no cycle can be read. -/
theorem read_ok_of_acyclicFrom (h : n ∈ nodes) : f.read n = .ok ((f.pruned nodes).value n) := by
  have holds : (f.pruned nodes).Holds [n] := holds_pruned.2 (hn.mono (by simpa using h))
  rw [← read_pruned h, read_ok (hf.pruned nodes) ha.pruned holds]

theorem same_ok_of_acyclicFrom (hx : m ∈ nodes) (hy : n ∈ nodes) : f.same m n =
    .ok (decide ((f.pruned nodes).value m = (f.pruned nodes).value n)) := by
  have holds : ∀ x ∈ nodes, (f.pruned nodes).Holds [x] := fun x hx =>
    holds_pruned.2 (hn.mono (by simpa using hx))
  rw [← same_pruned hx hy, same_ok (hf.pruned nodes) ha.pruned (holds m hx) (holds n hy)]

end

/-- Two nodes that lead to no cycle are read and compared to the end, and are found to be the same
just if their values are equal, whatever they share with each other and whatever names their
sequences have. So are two lists of nodes. -/
theorem same_decides_values (hf : f.Closed) :
    (∀ m n, f.Holds [m, n] → f.AcyclicFrom [m, n] →
      ∃ v w, f.read m = .ok v ∧ f.read n = .ok w ∧ f.same m n = .ok (decide (v = w))) ∧
    ∀ xs ys, f.Holds (xs ++ ys) → f.AcyclicFrom (xs ++ ys) →
      ∃ vs ws, xs.mapM f.read = .ok vs ∧ ys.mapM f.read = .ok ws ∧
        f.sameNodes xs ys = .ok (decide (vs = ws)) := by
  constructor
  · intro m n hn ha
    have hm : m ∈ [m, n] := List.mem_cons_self
    have hn' : n ∈ [m, n] := List.mem_cons_of_mem m List.mem_cons_self
    exact ⟨_, _, read_ok_of_acyclicFrom hf hn ha hm, read_ok_of_acyclicFrom hf hn ha hn',
      same_ok_of_acyclicFrom hf hn ha hm hn'⟩
  · intro xs ys hn ha
    let value := (f.pruned (xs ++ ys)).value
    refine ⟨xs.map value, ys.map value, List.mapM_ok fun x hx => ?_, List.mapM_ok fun y hy => ?_,
      sameItems_ok fun x hx y hy => ?_⟩
    · exact read_ok_of_acyclicFrom hf hn ha (List.mem_append_left ys hx)
    · exact read_ok_of_acyclicFrom hf hn ha (List.mem_append_right xs hy)
    · exact same_ok_of_acyclicFrom hf hn ha (List.mem_append_left ys hx)
        (List.mem_append_right xs hy)

/-- Two sequences of two each, one of them the same sequence twice, and behind them one that holds
itself. -/
def besideLoop : Forest :=
  ⟨#[#[.scalar .null], #[.scalar .null], #[.seq ⟨0⟩, .seq ⟨1⟩], #[.seq ⟨1⟩, .seq ⟨1⟩],
    #[.seq ⟨4⟩, .seq ⟨3⟩]], ⟨4⟩⟩

theorem same_decides_values_shared :
    besideLoop.Closed ∧ ¬besideLoop.Acyclic ∧ besideLoop.Holds [.seq ⟨2⟩, .seq ⟨3⟩] ∧
      besideLoop.AcyclicFrom [.seq ⟨2⟩, .seq ⟨3⟩] ∧
      (∃ v w, besideLoop.read (.seq ⟨2⟩) = .ok v ∧ besideLoop.read (.seq ⟨3⟩) = .ok w ∧
        besideLoop.same (.seq ⟨2⟩) (.seq ⟨3⟩) = .ok (decide (v = w))) ∧
      ∃ vs ws, [Node.seq ⟨2⟩].mapM besideLoop.read = .ok vs ∧
        [Node.seq ⟨3⟩].mapM besideLoop.read = .ok ws ∧
        besideLoop.sameNodes [.seq ⟨2⟩] [.seq ⟨3⟩] = .ok (decide (vs = ws)) := by
  have hclosed : besideLoop.Closed := by decide
  have hloop : ¬besideLoop.Acyclic := fun ha => ha ⟨4⟩ (.single ⟨_, rfl, List.mem_cons_self⟩)
  have hholds : besideLoop.Holds [.seq ⟨2⟩, .seq ⟨3⟩] := by decide
  have hacyclic : besideLoop.AcyclicFrom [.seq ⟨2⟩, .seq ⟨3⟩] :=
    (acyclicFrom_iff hclosed hholds).2 (by decide +kernel)
  obtain ⟨hnodes, hlists⟩ := same_decides_values hclosed
  exact ⟨hclosed, hloop, hholds, hacyclic, hnodes _ _ hholds hacyclic,
    hlists [.seq ⟨2⟩] [.seq ⟨3⟩] hholds hacyclic⟩

end Forest

end NestedRegex
