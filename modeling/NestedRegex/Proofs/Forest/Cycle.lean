import NestedRegex.Forest.Cycle
import NestedRegex.Proofs.Forest.Reachable

namespace NestedRegex.Forest

open Relation

/-- The sequence that a visit is of. -/
def Visit.id : Visit → SeqName
  | .enter id => id
  | .leave id => id

/-- The first sequence that is still to be left. -/
def above : List Visit → Option SeqName
  | [] => none
  | .enter _ :: pending => above pending
  | .leave id :: _ => some id

/-- Every pending visit is one of a child of the first sequence to be left after it. -/
def Hangs (f : Forest) : List Visit → Prop
  | [] => True
  | v :: pending => (∀ a, above pending = some a → f.Child a v.id) ∧ f.Hangs pending

/-- What a sequence adds to the pending visits when it is entered: its children, and its own
leaving. -/
def share (f : Forest) (id : SeqName) : Nat :=
  (f.nodesOf id).length + 1

/-- What holds on the way down from a sequence, after so many steps. -/
structure Descending (f : Forest) (top : SeqName) (spent : Nat) (d : Descent) : Prop where
  sound : ∀ v ∈ d.pending, f.Reaches top v.id
  begun : top ∈ d.left ∨ ∃ v ∈ d.pending, v.id = top
  hangs : f.Hangs d.pending
  follows : ∀ a ∈ d.entered, a ∈ d.left ∨ .leave a ∈ d.pending
  ahead : ∀ pre a post, d.pending = pre ++ .leave a :: post →
    ∀ b, f.Child a b → b ∈ d.left ∨ ∃ v ∈ pre, v.id = b
  settled : ∀ a b, a ∈ d.left → f.Child a b → b ∈ d.left
  acyclic : ∀ a ∈ d.left, ¬TransGen f.Child a a
  budget : spent + d.pending.length + f.outside f.share d.entered ≤ 1 + f.size + f.placeCount

variable {f : Forest} {top id a b : SeqName} {spent : Nat} {d d' : Descent} {v : Visit}
  {pending : List Visit} {nodes : List Node} {ids : List SeqName}

/-- What is pending lies below every sequence that is to be left after it. -/
theorem transGen_of_leave (h : f.Hangs (v :: pending)) (ha : .leave a ∈ pending) :
    TransGen f.Child a v.id := by
  induction pending generalizing v with
  | nil => cases ha
  | cons w pending ih =>
    obtain ⟨hv, hrest⟩ := h
    cases w with
    | enter b =>
      have ha : .leave a ∈ pending := by simpa using ha
      exact ih ⟨hv, hrest.2⟩ ha
    | leave b =>
      have hb : f.Child b v.id := hv b rfl
      rcases List.mem_cons.1 ha with hab | ha
      · cases hab
        exact .single hb
      · exact (ih hrest ha).tail hb

theorem hangs_enter (h : f.Hangs (.leave id :: pending)) (hids : ∀ b ∈ ids, f.Child id b) :
    f.Hangs (ids.map .enter ++ .leave id :: pending) := by
  have habove (ids : List SeqName) :
      above (ids.map .enter ++ .leave id :: pending) = some id := by
    induction ids with
    | nil => rfl
    | cons b ids ih => exact ih
  induction ids with
  | nil => exact h
  | cons b ids ih =>
    refine ⟨fun a ha => ?_, ih fun b hb => hids b (List.mem_cons_of_mem _ hb)⟩
    obtain rfl : id = a := Option.some.inj ((habove ids).symm.trans ha)
    exact hids b List.mem_cons_self

/-- A leaving that comes after some enterings and one leaving is this one, or comes after it. -/
theorem leave_mem_split {pre post : List Visit}
    (h : ids.map .enter ++ .leave id :: pending = pre ++ .leave a :: post) :
    pre = ids.map .enter ∧ a = id ∨
      ∃ more, pre = ids.map .enter ++ .leave id :: more ∧ pending = more ++ .leave a :: post := by
  induction ids generalizing pre with
  | nil =>
    cases pre with
    | nil =>
      cases h
      exact .inl ⟨rfl, rfl⟩
    | cons w pre =>
      obtain ⟨rfl, hpending⟩ := List.cons.inj h
      exact .inr ⟨pre, rfl, hpending⟩
  | cons b ids ih =>
    cases pre with
    | nil => cases h
    | cons w pre =>
      obtain ⟨rfl, hrest⟩ := List.cons.inj h
      rcases ih hrest with ⟨rfl, rfl⟩ | ⟨more, rfl, hpending⟩
      · exact .inl ⟨rfl, rfl⟩
      · exact .inr ⟨more, rfl, hpending⟩

theorem outside_share_empty (f : Forest) : f.outside f.share .empty = f.size + f.placeCount := by
  rw [← unseen_empty]
  simp [outside, unseen, share, Finset.sum_add_distrib, Nat.add_comm]

theorem descending_start (f : Forest) (top : SeqName) :
    Descending f top 0 ⟨[.enter top], .empty, .empty⟩ where
  sound v hv := by
    obtain rfl := List.mem_singleton.1 hv
    exact .refl
  begun := .inr ⟨_, List.mem_singleton_self _, rfl⟩
  hangs := ⟨nofun, trivial⟩
  follows a ha := absurd ha (NameSet.not_mem_empty a)
  ahead pre a post h := by
    have hm : .leave a ∈ pre ++ .leave a :: post := by simp
    rw [← show [.enter top] = pre ++ .leave a :: post from h] at hm
    simp at hm
  settled a b ha := absurd ha (NameSet.not_mem_empty a)
  acyclic a ha := absurd ha (NameSet.not_mem_empty a)
  budget := by
    rw [outside_share_empty]
    simp only [List.length_singleton]
    omega

namespace Descending

variable {entered left : NameSet}

/-- A sequence that was left before is not followed again. -/
theorem pass (h : Descending f top spent ⟨.enter id :: pending, entered, left⟩) (hid : id ∈ left) :
    Descending f top (spent + 1) ⟨pending, entered, left⟩ where
  sound v hv := h.sound v (List.mem_cons_of_mem _ hv)
  begun := by
    rcases h.begun with htop | ⟨v, hv, rfl⟩
    · exact .inl htop
    · rcases List.mem_cons.1 hv with rfl | hv
      · exact .inl hid
      · exact .inr ⟨v, hv, rfl⟩
  hangs := h.hangs.2
  follows a ha := (h.follows a ha).imp_right fun hm => by simpa using hm
  ahead pre a post hp b hb := by
    rcases h.ahead (.enter id :: pre) a post (congrArg _ hp) b hb with hb | ⟨v, hv, rfl⟩
    · exact .inl hb
    · rcases List.mem_cons.1 hv with rfl | hv
      · exact .inl hid
      · exact .inr ⟨v, hv, rfl⟩
  settled := h.settled
  acyclic := h.acyclic
  budget := by
    have hbudget := h.budget
    simp only [List.length_cons] at hbudget ⊢
    omega

/-- A sequence is left when all its children were left before. -/
theorem leave (h : Descending f top spent ⟨.leave id :: pending, entered, left⟩) :
    Descending f top (spent + 1) ⟨pending, entered, left.insert id⟩ := by
  have hchildren : ∀ b, f.Child id b → b ∈ left := fun b hb =>
    (h.ahead [] id pending rfl b hb).resolve_right fun ⟨v, hv, _⟩ => List.not_mem_nil hv
  have hsettled : ∀ a b, a ∈ left.insert id → f.Child a b → b ∈ left := by
    intro a b ha hb
    rcases NameSet.mem_insert.1 ha with rfl | ha
    · exact hchildren b hb
    · exact h.settled a b ha hb
  have hbelow : ∀ a b, a ∈ left.insert id → TransGen f.Child a b → b ∈ left := by
    intro a b ha hb
    induction hb with
    | single hc => exact hsettled a _ ha hc
    | tail _ hc ih => exact h.settled _ _ ih hc
  refine
    { sound := fun v hv => h.sound v (List.mem_cons_of_mem _ hv)
      begun := ?_
      hangs := h.hangs.2
      follows := fun a ha => ?_
      ahead := fun pre a post hp b hb => ?_
      settled := fun a b ha hb => NameSet.mem_insert.2 (.inr (hsettled a b ha hb))
      acyclic := fun a ha hloop => h.acyclic a (hbelow a a ha hloop) hloop
      budget := ?_ }
  · rcases h.begun with htop | ⟨v, hv, rfl⟩
    · exact .inl (NameSet.mem_insert.2 (.inr htop))
    · rcases List.mem_cons.1 hv with rfl | hv
      · exact .inl (NameSet.mem_insert.2 (.inl rfl))
      · exact .inr ⟨v, hv, rfl⟩
  · rcases h.follows a ha with ha | ha
    · exact .inl (NameSet.mem_insert.2 (.inr ha))
    · rcases List.mem_cons.1 ha with hid | ha
      · cases hid
        exact .inl (NameSet.mem_insert.2 (.inl rfl))
      · exact .inr ha
  · rcases h.ahead (.leave id :: pre) a post (congrArg _ hp) b hb with hb | ⟨v, hv, rfl⟩
    · exact .inl (NameSet.mem_insert.2 (.inr hb))
    · rcases List.mem_cons.1 hv with rfl | hv
      · exact .inl (NameSet.mem_insert.2 (.inl rfl))
      · exact .inr ⟨v, hv, rfl⟩
  · have hbudget := h.budget
    simp only [List.length_cons] at hbudget ⊢
    omega

/-- The children of a sequence that is entered come before its own leaving. -/
theorem enter (h : Descending f top spent ⟨.enter id :: pending, entered, left⟩)
    (hc : f.children? id = some nodes) (hid : id ∉ entered) :
    Descending f top (spent + 1)
      ⟨(nodes.filterMap Node.seq?).map .enter ++ .leave id :: pending, entered.insert id,
        left⟩ := by
  have hbelow : ∀ b, f.Child id b ↔ b ∈ nodes.filterMap Node.seq? := by
    intro b
    rw [mem_filterMap_seq?]
    constructor
    · rintro ⟨nodes', hc', hb⟩
      obtain rfl := Option.some.inj (hc.symm.trans hc')
      exact hb
    · exact fun hb => ⟨nodes, hc, hb⟩
  have hreach : f.Reaches top id := h.sound _ List.mem_cons_self
  refine
    { sound := fun v hv => ?_
      begun := ?_
      hangs := hangs_enter ⟨h.hangs.1, h.hangs.2⟩ fun b hb => (hbelow b).2 hb
      follows := fun a ha => ?_
      ahead := fun pre a post hp b hb => ?_
      settled := h.settled
      acyclic := h.acyclic
      budget := ?_ }
  · rcases List.mem_append.1 hv with hv | hv
    · obtain ⟨b, hb, rfl⟩ := List.mem_map.1 hv
      exact hreach.tail ((hbelow b).2 hb)
    · rcases List.mem_cons.1 hv with rfl | hv
      · exact hreach
      · exact h.sound v (List.mem_cons_of_mem _ hv)
  · rcases h.begun with htop | ⟨v, hv, rfl⟩
    · exact .inl htop
    · rcases List.mem_cons.1 hv with rfl | hv
      · exact .inr ⟨.leave id, by simp, rfl⟩
      · exact .inr ⟨v, by simp [hv], rfl⟩
  · rcases NameSet.mem_insert.1 ha with rfl | ha
    · exact .inr (by simp)
    · exact (h.follows a ha).imp_right fun hm => by simpa using .inr (by simpa using hm)
  · rcases leave_mem_split hp with ⟨rfl, rfl⟩ | ⟨more, rfl, hpending⟩
    · exact .inr ⟨.enter b, List.mem_map_of_mem ((hbelow b).1 hb), rfl⟩
    · rcases h.ahead (.enter id :: more) a post (congrArg _ hpending) b hb with hb | ⟨v, hv, rfl⟩
      · exact .inl hb
      · rcases List.mem_cons.1 hv with rfl | hv
        · exact .inr ⟨.leave id, by simp, rfl⟩
        · exact .inr ⟨v, by simp [hv], rfl⟩
  · have hbudget := h.budget
    have hshare : f.share id + f.outside f.share (entered.insert id) =
        f.outside f.share entered := outside_insert f.share (contains_iff.2 ⟨nodes, hc⟩) hid
    have hle : (nodes.filterMap Node.seq?).length ≤ nodes.length := List.length_filterMap_le ..
    rw [share, nodesOf_eq hc] at hshare
    simp only [List.length_cons, List.length_append, List.length_map] at hbudget ⊢
    omega

end Descending

/-- The end of a way down: it comes back to a sequence that is not left yet, or all is left. -/
theorem Descending.descend_done {cyclic : Bool} (h : Descending f top spent d)
    (hd : f.descend d = .done cyclic) : cyclic = false ↔ f.AcyclicFrom [.seq top] := by
  obtain ⟨pending, entered, left⟩ := d
  match pending with
  | [] =>
    cases hd
    have hin : top ∈ left := h.begun.resolve_right fun ⟨v, hv, _⟩ => List.not_mem_nil hv
    have hleft : ∀ id, f.Reaches top id → id ∈ left := by
      intro id hr
      induction hr with
      | refl => exact hin
      | tail _ hc ih => exact h.settled _ _ ih hc
    refine iff_of_true rfl fun id ⟨a, ha, hr⟩ => ?_
    obtain rfl : a = top := by simpa using ha
    exact h.acyclic id (hleft id hr)
  | .leave id :: pending => cases hd
  | .enter id :: pending =>
    rw [Forest.descend] at hd
    split at hd
    · cases hd
    · next hleft =>
      split at hd
      · next hid =>
        cases hd
        have hopen : .leave id ∈ pending := by
          simpa using (h.follows id hid).resolve_left hleft
        have hr : f.Reaches top id := h.sound _ List.mem_cons_self
        refine iff_of_false nofun fun ha => ?_
        exact ha id ⟨top, by simp, hr⟩ (transGen_of_leave h.hangs hopen)
      · split at hd <;> cases hd

section Closed

variable (hf : f.Closed) (htop : f.contains top = true)
include hf htop

theorem Descending.descend (h : Descending f top spent d) (hs : f.descend d = .more d') :
    Descending f top (spent + 1) d' := by
  obtain ⟨pending, entered, left⟩ := d
  match pending with
  | [] => cases hs
  | .leave id :: pending =>
    cases hs
    exact h.leave
  | .enter id :: pending =>
    rw [Forest.descend] at hs
    split at hs
    · next hid =>
      cases hs
      exact h.pass hid
    · split at hs
      · cases hs
      · next hid =>
        have hi : f.contains id = true := hf.reaches htop (h.sound _ List.mem_cons_self)
        obtain ⟨nodes, hc⟩ := contains_iff.1 hi
        simp only [hc] at hs
        cases hs
        exact h.enter hc hid

theorem descending_steps {n : Nat}
    (h : Progress.steps f.descend n ⟨[.enter top], .empty, .empty⟩ = .more d) :
    Descending f top n d := by
  induction n generalizing d with
  | zero =>
    obtain rfl := Progress.more.inj h
    exact descending_start f top
  | succ n ih =>
    obtain ⟨d', hd, hs⟩ := Progress.steps_succ_last h
    exact (ih hd).descend hf htop hs

/-- Going down from a sequence of a closed forest finds out whether it leads to one that lies below
itself. -/
theorem isCyclic_eq_false_iff : f.isCyclic top = false ↔ f.AcyclicFrom [.seq top] := by
  unfold isCyclic
  simp only [Progress.finish_eq_steps]
  generalize hn : Nat.pow 2 Progress.usualLevel + Nat.pow 2 _ = most
  have hlt : 1 + f.size + f.placeCount < most := by
    have hpow := Nat.lt_two_pow_self (n := 1 + f.size + f.placeCount)
    exact Nat.lt_of_lt_of_le hpow (hn ▸ Nat.le_add_left _ _)
  cases hs : Progress.steps f.descend most ⟨[.enter top], .empty, .empty⟩ with
  | more d =>
    have hbudget := (descending_steps hf htop hs).budget
    omega
  | done cyclic =>
    obtain ⟨n, d, hd, hdone⟩ := Progress.steps_done_last hs
    exact (descending_steps hf htop hd).descend_done hdone

end Closed

/-- So whether nodes lead to no cycle can be worked out. -/
theorem acyclicFrom_iff (hf : f.Closed) (hn : f.Holds nodes) :
    f.AcyclicFrom nodes ↔ ∀ id ∈ nodes.filterMap Node.seq?, f.isCyclic id = false := by
  have hids : ∀ id ∈ nodes.filterMap Node.seq?,
      (f.isCyclic id = false ↔ f.AcyclicFrom [.seq id]) := fun id hid =>
    isCyclic_eq_false_iff hf (hn id (mem_filterMap_seq?.1 hid))
  constructor
  · intro ha id hid
    refine (hids id hid).2 fun x ⟨a, hm, hr⟩ => ha x ⟨id, mem_filterMap_seq?.1 hid, ?_⟩
    obtain rfl : a = id := by simpa using hm
    exact hr
  · intro h x ⟨id, hm, hr⟩
    have hid := mem_filterMap_seq?.2 hm
    exact (hids id hid).1 (h id hid) x ⟨id, by simp, hr⟩

end NestedRegex.Forest
