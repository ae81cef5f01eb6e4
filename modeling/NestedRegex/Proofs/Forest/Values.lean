import Mathlib.Data.Finset.Card
import Mathlib.Data.Finset.Range
import NestedRegex.Forest.Read
import NestedRegex.Forest.Same
import NestedRegex.Proofs.Forest.Graph
import NestedRegex.Proofs.General

namespace NestedRegex.Forest

open Relation

open Classical in
/-- The places of the sequences that lie below one. -/
noncomputable def below (f : Forest) (id : SeqName) : Finset Nat :=
  (Finset.range f.size).filter fun i => TransGen f.Child id ⟨i⟩

/-- The number of sequences that lie below one. -/
noncomputable def rank (f : Forest) (id : SeqName) : Nat :=
  (f.below id).card

/-- The most sequences that can stand inside one another from a node downwards. -/
noncomputable def height (f : Forest) : Node → Nat
  | .scalar _ => 0
  | .seq id => f.rank id + 1

/-- The value of a node; the null scalar where reading fails. -/
def value (f : Forest) (n : Node) : Value :=
  (f.read n).toOption.getD (.scalar .null)

variable {f g : Forest} {a b id : SeqName} {n : Node} {nodes : List Node} {depth : Nat}

theorem mem_below {i : Nat} : i ∈ f.below id ↔ i < f.size ∧ TransGen f.Child id ⟨i⟩ := by
  simp [below]

theorem rank_lt_of_child (ha : f.Acyclic) (hf : f.Closed) (hc : f.Child a b) :
    f.rank b < f.rank a := by
  apply Finset.card_lt_card
  refine ⟨fun i hi => ?_, fun hs => ?_⟩
  · obtain ⟨hr, hb⟩ := mem_below.1 hi
    exact mem_below.2 ⟨hr, .head hc hb⟩
  · have hb : b.index ∈ f.below a := mem_below.2 ⟨contains_iff_lt.1 (hf.child hc), .single hc⟩
    exact ha b (mem_below.1 (hs hb)).2

theorem rank_lt_size (ha : f.Acyclic) (hi : f.contains id = true) : f.rank id < f.size := by
  have hs : f.below id ⊂ Finset.range f.size := by
    refine ⟨fun i hi => Finset.mem_range.2 (mem_below.1 hi).1, fun hs => ?_⟩
    exact ha id (mem_below.1 (hs (Finset.mem_range.2 (contains_iff_lt.1 hi)))).2
  have hlt := Finset.card_lt_card hs
  rwa [Finset.card_range] at hlt

theorem height_le_size (ha : f.Acyclic) (hn : f.Holds [n]) : f.height n ≤ f.size := by
  cases n with
  | scalar s => exact Nat.zero_le _
  | seq id => exact rank_lt_size ha (holds_seq_iff.1 hn)

/-- Children are less high than their parent. -/
theorem height_le_of_mem (ha : f.Acyclic) (hf : f.Closed) (hc : f.children? id = some nodes)
    (hm : n ∈ nodes) : f.height n ≤ f.rank id := by
  cases n with
  | scalar s => exact Nat.zero_le _
  | seq b => exact rank_lt_of_child ha hf ⟨nodes, hc, hm⟩

theorem Closed.holds_of_mem (hf : f.Closed) (hc : f.children? id = some nodes) (hm : n ∈ nodes) :
    f.Holds [n] :=
  (hf id nodes hc).mono (by simpa using hm)

theorem readWithin_seq (hc : f.children? id = some nodes) :
    f.readWithin (depth + 1) (.seq id) = Value.seq <$> nodes.mapM (f.readWithin depth) := by
  rw [readWithin, children_ok hc]
  rfl

/-- Reading is the same for every depth that is enough. -/
theorem readWithin_exists (hf : f.Closed) (ha : f.Acyclic) (hn : f.Holds [n]) :
    ∃ v, ∀ depth, f.height n ≤ depth → f.readWithin depth n = .ok v := by
  induction hr : f.height n using Nat.strong_induction_on generalizing n with
  | _ k ih =>
    cases n with
    | scalar s => exact ⟨.scalar s, fun depth _ => by cases depth <;> rfl⟩
    | seq id =>
      obtain ⟨nodes, hc⟩ := contains_iff.1 (holds_seq_iff.1 hn)
      have inner : ∀ m ∈ nodes, ∃ v, ∀ depth, f.height m ≤ depth →
          f.readWithin depth m = .ok v := by
        intro m hm
        have hlt : f.height m < k := hr ▸ Nat.lt_succ_of_le (height_le_of_mem ha hf hc hm)
        exact ih _ hlt (hf.holds_of_mem hc hm) rfl
      choose! v hv using inner
      refine ⟨.seq (nodes.map v), fun depth hd => ?_⟩
      obtain ⟨depth, rfl⟩ : ∃ d, depth = d + 1 := ⟨depth - 1, by simp only [height] at hr; omega⟩
      have deep : ∀ m ∈ nodes, f.readWithin depth m = .ok (v m) := by
        intro m hm
        have hle := height_le_of_mem ha hf hc hm
        simp only [height] at hr
        exact hv m hm depth (by omega)
      rw [readWithin_seq hc, List.mapM_ok deep]
      rfl

theorem readWithin_ok (hf : f.Closed) (ha : f.Acyclic) (hn : f.Holds [n])
    (hd : f.height n ≤ depth) : f.readWithin depth n = .ok (f.value n) := by
  obtain ⟨v, hv⟩ := readWithin_exists hf ha hn
  have hle := height_le_size ha hn
  rw [hv depth hd, value, read, hv _ (by omega)]
  rfl

/-- Every node of a closed forest without cycles can be read. -/
theorem read_ok (hf : f.Closed) (ha : f.Acyclic) (hn : f.Holds [n]) :
    f.read n = .ok (f.value n) :=
  readWithin_ok hf ha hn (Nat.le_succ_of_le (height_le_size ha hn))

/-- A node is read as before if all that it leads to is as before. -/
theorem readWithin_congr (same : ∀ x, f.ReachedFrom [n] x → g.children? x = f.children? x) :
    g.readWithin depth n = f.readWithin depth n := by
  induction depth generalizing n with
  | zero => cases n <;> rfl
  | succ depth ih =>
    cases n with
    | scalar s => rfl
    | seq id =>
      have hsame := children_congr (same id ⟨id, List.mem_singleton_self _, .refl⟩)
      rw [readWithin, readWithin, hsame]
      cases hc : f.children id with
      | error e => rfl
      | ok nodes =>
        have hitems : nodes.mapM (g.readWithin depth) = nodes.mapM (f.readWithin depth) := by
          refine List.mapM_congr fun m hm => ih fun x hx =>
            same x ⟨id, List.mem_singleton_self _, ?_⟩
          exact (hx.mono (by simpa using hm)).reaches (children_eq_ok_iff.1 hc)
        simp only [bind, Except.bind, hitems]

theorem read_congr (hsize : g.size = f.size)
    (same : ∀ x, f.ReachedFrom [n] x → g.children? x = f.children? x) : g.read n = f.read n := by
  rw [read, read, hsize]
  exact readWithin_congr same

/-- A node keeps its value in a forest that has all the sequences as they are. -/
theorem Extends.value (hg : Extends g f) (hf : f.Closed) (ha : f.Acyclic) (hg' : g.Closed)
    (ha' : g.Acyclic) (hn : f.Holds [n]) : g.value n = f.value n := by
  let depth := max (f.height n) (g.height n)
  have hold := readWithin_ok hf ha hn (Nat.le_max_left _ _ : _ ≤ depth)
  have hnew := readWithin_ok hg' ha' (hg.holds hn) (Nat.le_max_right _ _ : _ ≤ depth)
  have hsame : g.readWithin depth n = f.readWithin depth n := by
    refine readWithin_congr fun x hx => ?_
    obtain ⟨top, hm, hr⟩ := hx
    obtain ⟨below, hc⟩ := contains_iff.1 (hf.reaches (hn top hm) hr)
    rw [hc, hg.children hc]
  exact Except.ok.inj (hnew.symm.trans (hsame.trans hold))

@[simp] theorem value_scalar (s : Scalar) : f.value (.scalar s) = .scalar s := by
  simp [value, read, readWithin, Except.toOption]

theorem value_seq (hf : f.Closed) (ha : f.Acyclic) (hc : f.children? id = some nodes) :
    f.value (.seq id) = .seq (nodes.map f.value) := by
  have hn : f.Holds [.seq id] := holds_seq_iff.2 (contains_iff.2 ⟨nodes, hc⟩)
  have deep : ∀ m ∈ nodes, f.readWithin (f.rank id) m = .ok (f.value m) := fun m hm =>
    readWithin_ok hf ha (hf.holds_of_mem hc hm) (height_le_of_mem ha hf hc hm)
  have hr := readWithin_ok hf ha hn (Nat.le_refl _)
  rw [height, readWithin_seq hc, List.mapM_ok deep] at hr
  exact (Except.ok.inj hr).symm

/-- Lists whose items can be compared are compared as a whole. -/
theorem sameItems_ok {α β ε : Type} [DecidableEq β] {same : α → α → Except ε Bool} {v : α → β}
    {xs ys : List α} (h : ∀ x ∈ xs, ∀ y ∈ ys, same x y = .ok (decide (v x = v y))) :
    sameItems same xs ys = .ok (decide (xs.map v = ys.map v)) := by
  have go : ∀ {xs ys : List α}, xs.length = ys.length →
      (∀ x ∈ xs, ∀ y ∈ ys, same x y = .ok (decide (v x = v y))) →
      sameItems.go same xs ys = .ok (decide (xs.map v = ys.map v)) := by
    intro xs
    induction xs with
    | nil =>
      intro ys hl _
      obtain rfl := List.length_eq_zero_iff.1 hl.symm
      rfl
    | cons x xs ih =>
      intro ys hl h
      cases ys with
      | nil => simp at hl
      | cons y ys =>
        have hx := h x (by simp) y (by simp)
        have hs := ih (by simpa using hl) fun a ha b hb => h a (by simp [ha]) b (by simp [hb])
        rw [sameItems.go, hx]
        by_cases e : v x = v y
        · simp [bind, Except.bind, e, hs]
        · simp [bind, Except.bind, e, pure, Except.pure]
  unfold sameItems
  split
  · next hl => exact go hl h
  · next hl =>
    have hne : xs.map v ≠ ys.map v := fun e => hl (by simpa using congrArg List.length e)
    rw [decide_eq_false hne]

theorem sameWithin_ok (hf : f.Closed) (ha : f.Acyclic) {x y : Node} (hx : f.Holds [x])
    (hy : f.Holds [y]) (hd : f.height x ≤ depth) :
    f.sameWithin depth x y = .ok (decide (f.value x = f.value y)) := by
  induction depth generalizing x y with
  | zero =>
    cases x with
    | scalar s =>
      cases y with
      | scalar t => simp [sameWithin]
      | seq b =>
        obtain ⟨nodes, hc⟩ := contains_iff.1 (holds_seq_iff.1 hy)
        simp [sameWithin, value_seq hf ha hc]
    | seq a => simp [height] at hd
  | succ depth ih =>
    cases x with
    | scalar s =>
      cases y with
      | scalar t => simp [sameWithin]
      | seq b =>
        obtain ⟨nodes, hc⟩ := contains_iff.1 (holds_seq_iff.1 hy)
        simp [sameWithin, value_seq hf ha hc]
    | seq a =>
      obtain ⟨xs, hxs⟩ := contains_iff.1 (holds_seq_iff.1 hx)
      cases y with
      | scalar t => simp [sameWithin, value_seq hf ha hxs]
      | seq b =>
        obtain ⟨ys, hys⟩ := contains_iff.1 (holds_seq_iff.1 hy)
        by_cases e : a = b
        · simp [sameWithin, e]
        · have items : ∀ x ∈ xs, ∀ y ∈ ys,
              f.sameWithin depth x y = .ok (decide (f.value x = f.value y)) := by
            intro x hmx y hmy
            have hle := height_le_of_mem ha hf hxs hmx
            simp only [height] at hd
            exact ih (hf.holds_of_mem hxs hmx) (hf.holds_of_mem hys hmy) (by omega)
          rw [sameWithin, if_neg e, children_ok hxs, children_ok hys]
          simp only [bind, Except.bind, value_seq hf ha hxs, value_seq hf ha hys, Value.seq.injEq]
          exact sameItems_ok items

/-- Two nodes have the same shape just when they have the same value. -/
theorem same_ok (hf : f.Closed) (ha : f.Acyclic) {x y : Node} (hx : f.Holds [x])
    (hy : f.Holds [y]) : f.same x y = .ok (decide (f.value x = f.value y)) := by
  apply sameWithin_ok hf ha hx hy
  have hle := height_le_size ha hx
  have hsq : f.size ≤ f.size * f.size := Nat.le_mul_self f.size
  exact Nat.le_trans hle hsq

theorem sameNodes_ok (hf : f.Closed) (ha : f.Acyclic) {xs ys : List Node} (hx : f.Holds xs)
    (hy : f.Holds ys) : f.sameNodes xs ys = .ok (decide (xs.map f.value = ys.map f.value)) :=
  sameItems_ok fun _ hmx _ hmy =>
    same_ok hf ha (hx.mono (by simpa using hmx)) (hy.mono (by simpa using hmy))

end NestedRegex.Forest
