import Mathlib.Algebra.Order.BigOperators.Group.Finset
import NestedRegex.Forest.Reachable
import NestedRegex.Proofs.Forest.Graph
import NestedRegex.Proofs.Progress

namespace NestedRegex.Forest

open Relation

/-- The weights of the sequences that are not in a set, taken together. -/
def outside (f : Forest) (weight : SeqName → Nat) (seen : NameSet) : Nat :=
  (Finset.range f.size).sum fun i => if ⟨i⟩ ∈ seen then 0 else weight ⟨i⟩

/-- The number of child places of the sequences that are not in a set. -/
def unseen (f : Forest) (seen : NameSet) : Nat :=
  (Finset.range f.size).sum fun i => if ⟨i⟩ ∈ seen then 0 else (f.nodesOf ⟨i⟩).length

/-- What holds on the way from some names, after so many steps. -/
structure Following (f : Forest) (ids : List SeqName) (spent : Nat) (t : Trace) : Prop where
  sound : ∀ id, id ∈ t.pending ∨ id ∈ t.seen → ∃ top ∈ ids, f.Reaches top id
  begun : ∀ id ∈ ids, id ∈ t.pending ∨ id ∈ t.seen
  complete : ∀ a b, a ∈ t.seen → f.Child a b → b ∈ t.pending ∨ b ∈ t.seen
  there : ∀ id ∈ t.seen, f.contains id = true
  budget : spent + t.pending.length + f.unseen t.seen ≤ ids.length + f.unseen .empty

variable {f : Forest} {ids : List SeqName} {spent : Nat} {t t' : Trace} {seen s : NameSet}
  {id : SeqName} {nodes : List Node}

theorem mem_filterMap_seq? {b : SeqName} : b ∈ nodes.filterMap Node.seq? ↔ .seq b ∈ nodes := by
  simp only [List.mem_filterMap]
  constructor
  · rintro ⟨n, hn, hs⟩
    cases n with
    | scalar atom => cases hs
    | seq a =>
      obtain rfl := Option.some.inj hs
      exact hn
  · exact fun h => ⟨_, h, rfl⟩

/-- A sequence that comes into the set takes its weight out. -/
theorem outside_insert (weight : SeqName → Nat) (hi : f.contains id = true) (hs : id ∉ seen) :
    weight id + f.outside weight (seen.insert id) = f.outside weight seen := by
  have hm : id.index ∈ Finset.range f.size := Finset.mem_range.2 (contains_iff_lt.1 hi)
  have hrest : ((Finset.range f.size).erase id.index).sum
        (fun i => if ⟨i⟩ ∈ seen.insert id then 0 else weight ⟨i⟩) =
      ((Finset.range f.size).erase id.index).sum
        fun i => if ⟨i⟩ ∈ seen then 0 else weight ⟨i⟩ := by
    apply Finset.sum_congr rfl
    intro i hi
    have hne : (⟨i⟩ : SeqName) ≠ id := fun e => (Finset.mem_erase.1 hi).1 (e ▸ rfl)
    simp [hne]
  unfold outside
  rw [← Finset.add_sum_erase _ _ hm, ← Finset.add_sum_erase (Finset.range f.size) _ hm, hrest,
    if_pos (NameSet.mem_insert.2 (.inl rfl)), if_neg hs, Nat.zero_add]

theorem outside_le_outside {g : Forest} {weight heavier : SeqName → Nat} (hsize : g.size ≤ f.size)
    (hw : ∀ id, weight id ≤ heavier id) (seen : NameSet) :
    g.outside weight seen ≤ f.outside heavier seen := by
  refine Nat.le_trans (Finset.sum_le_sum fun i _ => ?_)
    (Finset.sum_le_sum_of_subset (Finset.range_mono hsize))
  split
  · exact Nat.le_refl 0
  · exact hw ⟨i⟩

/-- A sequence settles its own child places. -/
theorem unseen_insert (hi : f.contains id = true) (hs : id ∉ seen) :
    (f.nodesOf id).length + f.unseen (seen.insert id) = f.unseen seen :=
  outside_insert (fun id => (f.nodesOf id).length) hi hs

theorem unseen_empty (f : Forest) : f.unseen .empty = f.placeCount := by
  have total : ∀ (rows : List Row) (n : Nat), rows.foldl (fun total row => total + row.size) n =
      n + (Finset.range rows.length).sum fun i => (rows[i]?.map Array.size).getD 0 := by
    intro rows
    induction rows with
    | nil => simp
    | cons row rows ih =>
      intro n
      rw [List.foldl_cons, ih, List.length_cons, Finset.sum_range_succ']
      simp only [List.getElem?_cons_succ, List.getElem?_cons_zero, Option.map_some,
        Option.getD_some]
      omega
  have h := total f.rows.toList 0
  rw [Array.foldl_toList, Nat.zero_add] at h
  rw [placeCount, h, unseen]
  apply Finset.sum_congr rfl
  intro i _
  rw [if_neg (NameSet.not_mem_empty _), nodesOf, children?, row?, Array.getElem?_toList]
  cases f.rows[i]? <;> rfl

theorem following_start (f : Forest) (ids : List SeqName) : Following f ids 0 ⟨ids, .empty⟩ where
  sound id h := by
    rcases h with h | h
    · exact ⟨id, h, .refl⟩
    · exact absurd h (NameSet.not_mem_empty id)
  begun id h := .inl h
  complete a b h := absurd h (NameSet.not_mem_empty a)
  there id h := absurd h (NameSet.not_mem_empty id)
  budget := by simp

theorem Following.follow (h : Following f ids spent t) (hs : f.follow t = .more t') :
    Following f ids (spent + 1) t' := by
  obtain ⟨pending, seen⟩ := t
  cases pending with
  | nil => cases hs
  | cons id pending =>
    rw [Forest.follow] at hs
    have hbudget := h.budget
    change spent + (pending.length + 1) + f.unseen seen ≤ _ at hbudget
    split at hs
    · next hid =>
      obtain rfl := Progress.more.inj hs
      refine ⟨fun b hb => h.sound b ?_, fun b hb => ?_, fun a b ha hc => ?_, h.there, ?_⟩
      · exact hb.imp_left (List.mem_cons_of_mem _)
      · rcases h.begun b hb with hb | hb
        · rcases List.mem_cons.1 hb with rfl | hb
          · exact .inr hid
          · exact .inl hb
        · exact .inr hb
      · rcases h.complete a b ha hc with hb | hb
        · rcases List.mem_cons.1 hb with rfl | hb
          · exact .inr hid
          · exact .inl hb
        · exact .inr hb
      · change spent + 1 + pending.length + f.unseen seen ≤ _
        omega
    · next hid =>
      split at hs
      · cases hs
      · next nodes hn =>
        have hc := children_eq_ok_iff.1 hn
        have hi : f.contains id = true := contains_iff.2 ⟨nodes, hc⟩
        obtain rfl := Progress.more.inj hs
        obtain ⟨top, htop, hreach⟩ := h.sound id (.inl List.mem_cons_self)
        -- Names that were pending stay so, but for the one that is now seen.
        have kept : ∀ b, b ∈ id :: pending ∨ b ∈ seen →
            b ∈ nodes.filterMap Node.seq? ++ pending ∨ b ∈ seen.insert id := by
          intro b hb
          rcases hb with hb | hb
          · rcases List.mem_cons.1 hb with rfl | hb
            · exact .inr (NameSet.mem_insert.2 (.inl rfl))
            · exact .inl (List.mem_append_right _ hb)
          · exact .inr (NameSet.mem_insert.2 (.inr hb))
        refine ⟨fun b hb => ?_, fun b hb => kept b (h.begun b hb), fun a b ha hab => ?_,
          fun b hb => ?_, ?_⟩
        · rcases hb with hb | hb
          · rcases List.mem_append.1 hb with hb | hb
            · exact ⟨top, htop, hreach.tail ⟨nodes, hc, mem_filterMap_seq?.1 hb⟩⟩
            · exact h.sound b (.inl (List.mem_cons_of_mem _ hb))
          · rcases NameSet.mem_insert.1 hb with rfl | hb
            · exact ⟨top, htop, hreach⟩
            · exact h.sound b (.inr hb)
        · rcases NameSet.mem_insert.1 ha with rfl | ha
          · obtain ⟨nodes', hc', hm⟩ := hab
            obtain rfl := Option.some.inj (hc.symm.trans hc')
            exact .inl (List.mem_append_left _ (mem_filterMap_seq?.2 hm))
          · exact kept b (h.complete a b ha hab)
        · rcases NameSet.mem_insert.1 hb with rfl | hb
          · exact hi
          · exact h.there b hb
        · have hunseen := unseen_insert hi hid
          rw [nodesOf_eq hc] at hunseen
          have hle : (nodes.filterMap Node.seq?).length ≤ nodes.length :=
            List.length_filterMap_le ..
          change spent + 1 + (nodes.filterMap Node.seq? ++ pending).length +
            f.unseen (seen.insert id) ≤ _
          rw [List.length_append]
          omega

theorem following_steps {n : Nat}
    (h : Progress.steps f.follow n ⟨ids, .empty⟩ = .more t) : Following f ids n t := by
  induction n generalizing t with
  | zero =>
    obtain rfl := Progress.more.inj h
    exact following_start f ids
  | succ n ih =>
    obtain ⟨t', ht, hs⟩ := Progress.steps_succ_last h
    exact (ih ht).follow hs

/-- The way from some nodes comes to an end, with a set or at a name that leads nowhere. -/
theorem reachable_eq (f : Forest) (nodes : List Node) :
    ∃ n t result, Progress.steps f.follow n ⟨nodes.filterMap Node.seq?, .empty⟩ = .more t ∧
      f.follow t = .done result ∧ f.reachable nodes = result := by
  unfold reachable
  simp only [Progress.finish_eq_steps]
  generalize hn : Nat.pow 2 Progress.usualLevel + Nat.pow 2 _ = most
  have hlt : (nodes.filterMap Node.seq?).length + f.placeCount < most := by
    have hpow := Nat.lt_two_pow_self (n := (nodes.filterMap Node.seq?).length + f.placeCount)
    exact Nat.lt_of_lt_of_le hpow (hn ▸ Nat.le_add_left _ _)
  cases hs : Progress.steps f.follow most ⟨nodes.filterMap Node.seq?, .empty⟩ with
  | more t =>
    have hbudget := (following_steps hs).budget
    rw [unseen_empty] at hbudget
    omega
  | done result =>
    obtain ⟨n, t, ht, hd⟩ := Progress.steps_done_last hs
    exact ⟨n, t, result, ht, hd, rfl⟩

/-- The end of a way: all has been followed, or a name leads nowhere. -/
theorem follow_done {result : Except Fault NameSet} (h : f.follow t = .done result) :
    t.pending = [] ∧ result = .ok t.seen ∨
      ∃ id pending, t.pending = id :: pending ∧ f.contains id = false := by
  obtain ⟨pending, seen⟩ := t
  cases pending with
  | nil =>
    cases h
    exact .inl ⟨rfl, rfl⟩
  | cons id pending =>
    rw [follow] at h
    split at h
    · cases h
    · split at h
      · next e he =>
        refine .inr ⟨id, pending, rfl, Bool.eq_false_iff.2 fun hi => ?_⟩
        obtain ⟨nodes, hc⟩ := contains_iff.1 hi
        rw [children_eq_ok_iff.2 hc] at he
        cases he
      · cases h

theorem reachable_of_closed (hf : f.Closed) (hn : f.Holds nodes) :
    ∃ s, f.reachable nodes = .ok s := by
  obtain ⟨n, t, result, ht, hd, he⟩ := reachable_eq f nodes
  rcases follow_done hd with ⟨-, rfl⟩ | ⟨id, pending, hp, hi⟩
  · exact ⟨_, he⟩
  · obtain ⟨top, htop, hr⟩ := (following_steps ht).sound id (.inl (hp ▸ List.mem_cons_self))
    rw [hf.reaches (hn top (mem_filterMap_seq?.1 htop)) hr] at hi
    cases hi

section Found

variable (h : f.reachable nodes = .ok s)
include h

/-- The set is what has been followed when nothing is pending any more. -/
theorem steps_of_reachable :
    ∃ n, Progress.steps f.follow n ⟨nodes.filterMap Node.seq?, .empty⟩ = .more ⟨[], s⟩ := by
  obtain ⟨n, ⟨pending, seen⟩, result, ht, hd, he⟩ := reachable_eq f nodes
  obtain rfl := h.symm.trans he
  cases pending with
  | nil =>
    cases hd
    exact ⟨n, ht⟩
  | cons a pending =>
    rw [follow] at hd
    split at hd
    · cases hd
    · split at hd <;> cases hd

theorem following_of_reachable : ∃ n, Following f (nodes.filterMap Node.seq?) n ⟨[], s⟩ := by
  obtain ⟨n, hs⟩ := steps_of_reachable h
  exact ⟨n, following_steps hs⟩

/-- What is found is what the nodes lead to. -/
theorem mem_reachable : id ∈ s ↔ f.ReachedFrom nodes id := by
  obtain ⟨n, hfollow⟩ := following_of_reachable h
  constructor
  · intro hm
    obtain ⟨top, htop, hr⟩ := hfollow.sound id (.inr hm)
    exact ⟨top, mem_filterMap_seq?.1 htop, hr⟩
  · rintro ⟨top, htop, hr⟩
    have hstart := (hfollow.begun top (mem_filterMap_seq?.2 htop)).resolve_left List.not_mem_nil
    clear htop
    induction hr with
    | refl => exact hstart
    | tail _ hc ih => exact (hfollow.complete _ _ ih hc).resolve_left List.not_mem_nil

/-- Nodes that lead out of the forest are not accepted. -/
theorem holds_of_reachable : f.Holds nodes := by
  obtain ⟨n, hfollow⟩ := following_of_reachable h
  exact fun id hm => hfollow.there id ((mem_reachable h).2 ⟨id, hm, .refl⟩)

end Found

/-- In a closed forest, with cycles or without, and from nodes that are there, however often they
name a sequence, the way comes to an end with a set. In the set are just the sequences that the
nodes name and those that following children leads to from there, and the way takes no more steps
than there are nodes and child places together. -/
theorem reachable_exact (hf : f.Closed) (hn : f.Holds nodes) :
    ∃ s, f.reachable nodes = .ok s ∧ (∀ id, id ∈ s ↔ f.ReachedFrom nodes id) ∧
      ∃ count ≤ nodes.length + f.placeCount,
        Progress.steps f.follow count ⟨nodes.filterMap Node.seq?, .empty⟩ = .more ⟨[], s⟩ := by
  obtain ⟨s, hs⟩ := reachable_of_closed hf hn
  obtain ⟨count, hcount⟩ := steps_of_reachable hs
  have hbudget := (following_steps hcount).budget
  rw [unseen_empty] at hbudget
  have hnames : (nodes.filterMap Node.seq?).length ≤ nodes.length := List.length_filterMap_le ..
  exact ⟨s, hs, fun id => mem_reachable hs, count, by omega, hcount⟩

/-- Two sequences hold each other, one of them also itself, and are named twice; a third sequence
that holds one of them is not reached. -/
theorem reachable_exact_loops :
    let f : Forest := ⟨#[#[.seq ⟨1⟩, .seq ⟨1⟩], #[.scalar .null, .seq ⟨0⟩, .seq ⟨1⟩],
      #[.seq ⟨0⟩]], ⟨2⟩⟩
    let nodes : List Node := [.seq ⟨1⟩, .scalar .null, .seq ⟨1⟩]
    f.Closed ∧ f.Holds nodes ∧ ∃ s, f.reachable nodes = .ok s ∧
      (∀ id, id ∈ s ↔ f.ReachedFrom nodes id) ∧ ∃ count ≤ 3 + f.placeCount,
        Progress.steps f.follow count ⟨[⟨1⟩, ⟨1⟩], .empty⟩ = .more ⟨[], s⟩ := by
  intro f nodes
  have hclosed : f.Closed := by decide
  have hholds : f.Holds nodes := by decide
  exact ⟨hclosed, hholds, reachable_exact hclosed hholds⟩

end NestedRegex.Forest
