import Mathlib.Logic.Relation
import NestedRegex.Forest.Basic

namespace NestedRegex.Forest

open Relation

/-- The children of a sequence; none if it is missing. -/
def nodesOf (f : Forest) (id : SeqName) : List Node :=
  (f.children? id).getD []

/-- The sequence `child` is one of the children of `parent`. -/
def Child (f : Forest) (parent child : SeqName) : Prop :=
  ∃ nodes, f.children? parent = some nodes ∧ .seq child ∈ nodes

/-- Following children, in any number of steps, leads from one sequence to the other. -/
def Reaches (f : Forest) : SeqName → SeqName → Prop :=
  ReflTransGen f.Child

/-- One of the nodes is this sequence or leads to it. -/
def ReachedFrom (f : Forest) (nodes : List Node) (id : SeqName) : Prop :=
  ∃ top, .seq top ∈ nodes ∧ f.Reaches top id

/-- Every sequence that the nodes name is there. -/
def Holds (f : Forest) (nodes : List Node) : Prop :=
  ∀ id, .seq id ∈ nodes → f.contains id = true

/-- Every sequence that a child names is there. -/
def Closed (f : Forest) : Prop :=
  ∀ id nodes, f.children? id = some nodes → f.Holds nodes

/-- No sequence lies below itself. -/
def Acyclic (f : Forest) : Prop :=
  ∀ id, ¬TransGen f.Child id id

/-- No sequence that the nodes lead to lies below itself. -/
def AcyclicFrom (f : Forest) (nodes : List Node) : Prop :=
  ∀ id, f.ReachedFrom nodes id → ¬TransGen f.Child id id

variable {f g : Forest} {a b id : SeqName} {nodes front old new back : List Node}

theorem nodesOf_eq (hc : f.children? id = some nodes) : f.nodesOf id = nodes := by
  rw [nodesOf, hc]
  rfl

theorem contains_iff : f.contains id = true ↔ ∃ nodes, f.children? id = some nodes := by
  rw [← children?_isSome_iff, Option.isSome_iff_exists]

/-- A forest is known by the children of its sequences and its root. -/
theorem eq_of_children? (h : ∀ x, g.children? x = f.children? x) (hroot : g.root = f.root) :
    g = f := by
  have hrows : g.rows = f.rows := by
    apply Array.ext_getElem?
    intro i
    have hi := h ⟨i⟩
    simp only [children?, row?] at hi
    cases hg : g.rows[i]? <;> cases hf : f.rows[i]? <;> simp_all [Array.toList_inj]
  cases g
  cases f
  simp_all

theorem children_ok (hc : f.children? id = some nodes) : f.children id = .ok nodes :=
  children_eq_ok_iff.2 hc

theorem children_congr (h : g.children? id = f.children? id) : g.children id = f.children id := by
  unfold children? at h
  unfold children row
  cases hg : g.row? id <;> cases hf : f.row? id <;> simp_all [Functor.map, Except.map]

theorem length_ok (hc : f.children? id = some nodes) : f.length id = .ok nodes.length := by
  rw [length_eq, children_ok hc]
  rfl

theorem child?_ok (hc : f.children? id = some nodes) (index : Nat) :
    f.child? id index = .ok nodes[index]? := by
  rw [child?_eq, children_ok hc]
  rfl

theorem contains_iff_lt : f.contains id = true ↔ id.index < f.size := by
  simp [contains]

theorem holds_iff_all : f.Holds nodes ↔ ∀ n ∈ nodes, n.seq?.all f.contains = true := by
  constructor
  · intro h n hn
    cases n with
    | scalar s => rfl
    | seq id => exact h id hn
  · intro h id hid
    exact h (.seq id) hid

instance : Decidable (f.Holds nodes) :=
  decidable_of_iff' _ holds_iff_all

/-- Whether a forest is closed can be seen from the sequences there are. -/
theorem closed_iff_nodesOf : f.Closed ↔ ∀ i < f.size, f.Holds (f.nodesOf ⟨i⟩) := by
  constructor
  · intro h i hi
    obtain ⟨nodes, hc⟩ := contains_iff.1 (contains_iff_lt.2 hi)
    exact nodesOf_eq hc ▸ h ⟨i⟩ nodes hc
  · intro h id nodes hc
    exact nodesOf_eq hc ▸ h id.index (contains_iff_lt.1 (contains_iff.2 ⟨nodes, hc⟩))

instance : Decidable f.Closed :=
  decidable_of_iff' _ closed_iff_nodesOf

theorem Child.contains (h : f.Child a b) : f.contains a = true :=
  contains_iff.2 ⟨_, h.choose_spec.1⟩

theorem Closed.child (h : f.Closed) (hc : f.Child a b) : f.contains b = true := by
  obtain ⟨nodes, hn, hm⟩ := hc
  exact h a nodes hn b hm

theorem Closed.reaches (h : f.Closed) (ha : f.contains a = true) (hr : f.Reaches a b) :
    f.contains b = true := by
  induction hr with
  | refl => exact ha
  | tail _ hc _ => exact h.child hc

theorem holds_seq_iff : f.Holds [.seq id] ↔ f.contains id = true := by
  simp [Holds]

theorem Holds.mono (h : f.Holds nodes) (hs : old ⊆ nodes) : f.Holds old :=
  fun id hm => h id (hs hm)

theorem Holds.append (ho : f.Holds old) (hn : f.Holds new) : f.Holds (old ++ new) := by
  intro id hm
  rcases List.mem_append.1 hm with h | h
  · exact ho id h
  · exact hn id h

theorem ReachedFrom.mono (h : f.ReachedFrom old id) (hs : old ⊆ nodes) :
    f.ReachedFrom nodes id := by
  obtain ⟨top, hm, hr⟩ := h
  exact ⟨top, hs hm, hr⟩

theorem ReachedFrom.trans (h : f.ReachedFrom nodes a) (hr : f.Reaches a b) :
    f.ReachedFrom nodes b := by
  obtain ⟨top, hm, ht⟩ := h
  exact ⟨top, hm, ht.trans hr⟩

/-- What children lead to, their parent leads to. -/
theorem ReachedFrom.reaches (hc : f.children? a = some nodes) (h : f.ReachedFrom nodes b) :
    f.Reaches a b := by
  obtain ⟨top, hm, hr⟩ := h
  exact .head ⟨nodes, hc, hm⟩ hr

/-- Below a sequence is what its children lead to. -/
theorem Reaches.eq_or_reachedFrom (hc : f.children? a = some nodes) (h : f.Reaches a b) :
    b = a ∨ f.ReachedFrom nodes b := by
  rcases h.cases_head with rfl | ⟨c, ⟨nodes', hc', hm⟩, hr⟩
  · exact .inl rfl
  · obtain rfl := Option.some.inj (hc.symm.trans hc')
    exact .inr ⟨c, hm, hr⟩

/-- Children do not lead back to their parent. -/
theorem Acyclic.not_reachedFrom (h : f.Acyclic) (hc : f.children? id = some nodes) :
    ¬f.ReachedFrom nodes id := by
  rintro ⟨top, hm, hr⟩
  exact h id (.head' ⟨nodes, hc, hm⟩ hr)

/-- Two sequences that lead to each other are one. -/
theorem Acyclic.antisymm (h : f.Acyclic) (ha : f.Reaches a b) (hb : f.Reaches b a) : a = b := by
  rcases ha.cases_head with rfl | ⟨c, hc, hr⟩
  · rfl
  · exact absurd (TransGen.head' hc (hr.trans hb)) (h a)

/-- Where the names of children come before that of their parent, so do those of all below it. -/
theorem index_lt_of_transGen {P : SeqName → Prop}
    (falls : ∀ a b, P a → f.Child a b → P b ∧ b.index < a.index) (ha : P a)
    (h : TransGen f.Child a b) : P b ∧ b.index < a.index := by
  induction h with
  | single hc => exact falls _ _ ha hc
  | tail _ hc ih =>
    obtain ⟨hb, hlt⟩ := ih
    obtain ⟨hc, hlt'⟩ := falls _ _ hb hc
    exact ⟨hc, Nat.lt_trans hlt' hlt⟩

/-- Where children are kept along every way to `b`, every way to `b` is kept. -/
theorem Reaches.transfer (h : f.Reaches a b)
    (same : ∀ x, f.Reaches a x → TransGen f.Child x b → g.children? x = f.children? x) :
    g.Reaches a b := by
  induction h using ReflTransGen.head_induction_on with
  | refl => exact .refl
  | head hc hr ih =>
    obtain ⟨nodes, hn, hm⟩ := hc
    refine .head ⟨nodes, (same _ .refl (.head' ⟨nodes, hn, hm⟩ hr)).trans hn, hm⟩ ?_
    exact ih fun x hx => same x (.head ⟨nodes, hn, hm⟩ hx)

/-- A sequence leads to the same sequences in two forests that agree on all of these. -/
theorem reaches_congr (same : ∀ x, f.Reaches a x → g.children? x = f.children? x) :
    g.Reaches a b ↔ f.Reaches a b := by
  constructor
  · intro h
    induction h with
    | refl => exact .refl
    | tail _ hc ih =>
      obtain ⟨nodes, hn, hm⟩ := hc
      exact ih.tail ⟨nodes, (same _ ih).symm.trans hn, hm⟩
  · exact fun h => h.transfer fun x hx _ => same x hx

/-- Other children for one sequence, if they do not lead back to it, make no cycle. -/
theorem Acyclic.change (h : f.Acyclic) (other : ∀ x, x ≠ id → g.children? x = f.children? x)
    (away : ∀ b, g.Child id b → ¬f.Reaches b id) : g.Acyclic := by
  have loop : ¬TransGen g.Child id id := by
    intro hl
    obtain ⟨b, hc, hr⟩ := TransGen.head'_iff.1 hl
    have avoids : ∀ x, f.Reaches b x → g.children? x = f.children? x :=
      fun x hx => other x fun e => away b hc (e ▸ hx)
    exact away b hc ((reaches_congr avoids).1 hr)
  -- A way in the changed forest is a way in the old one unless it passes through `id`.
  have split : ∀ {a b}, TransGen g.Child a b →
      TransGen f.Child a b ∨ g.Reaches a id ∧ TransGen g.Child id b := by
    intro a b hab
    induction hab with
    | single hc =>
      by_cases e : a = id
      · subst e
        exact .inr ⟨.refl, .single hc⟩
      · obtain ⟨nodes, hn, hm⟩ := hc
        exact .inl (.single ⟨nodes, (other a e).symm.trans hn, hm⟩)
    | @tail m b ham hc ih =>
      by_cases e : m = id
      · subst e
        exact .inr ⟨ham.to_reflTransGen, .single hc⟩
      · rcases ih with ih | ⟨hr, ih⟩
        · obtain ⟨nodes, hn, hm⟩ := hc
          exact .inl (ih.tail ⟨nodes, (other m e).symm.trans hn, hm⟩)
        · exact .inr ⟨hr, ih.tail hc⟩
  intro a ha
  rcases split ha with hf | ⟨hr, hi⟩
  · exact h a hf
  · exact loop (hi.trans_left hr)

/-- The forests differ only in one run of children of one sequence. -/
structure Spliced (f g : Forest) (id : SeqName) (front old new back : List Node) : Prop where
  before : f.children? id = some (front ++ old ++ back)
  after : g.children? id = some (front ++ new ++ back)
  other : ∀ x, x ≠ id → g.children? x = f.children? x
  root : g.root = f.root

theorem spliced_setChildren (hc : f.children? id = some (front ++ old ++ back))
    (new : List Node) :
    Spliced f (f.setChildren id (front ++ new ++ back)) id front old new back where
  before := hc
  after := by rw [children?_setChildren, if_pos ⟨rfl, contains_iff.2 ⟨_, hc⟩⟩]
  other x hx := by rw [children?_setChildren, if_neg fun h => hx h.1.symm]
  root := rfl

namespace Spliced

theorem symm (h : Spliced f g id front old new back) : Spliced g f id front new old back :=
  ⟨h.after, h.before, fun x hx => (h.other x hx).symm, h.root.symm⟩

theorem contains (h : Spliced f g id front old new back) (x : SeqName) :
    g.contains x = f.contains x := by
  rw [Bool.eq_iff_iff, ← children?_isSome_iff, ← children?_isSome_iff]
  by_cases e : x = id
  · subst e
    simp [h.before, h.after]
  · rw [h.other x e]

theorem holds (h : Spliced f g id front old new back) : g.Holds nodes ↔ f.Holds nodes := by
  simp only [Holds, h.contains]

theorem closed (h : Spliced f g id front old new back) (hf : f.Closed) (hn : f.Holds new) :
    g.Closed := by
  intro x nodes hx
  rw [h.holds]
  by_cases e : x = id
  · subst e
    obtain rfl := Option.some.inj (h.after.symm.trans hx)
    have kept := hf x _ h.before
    have hfront : f.Holds front := kept.mono (by simp)
    have hback : f.Holds back := kept.mono (by simp)
    exact (hfront.append hn).append hback
  · exact hf x nodes ((h.other x e).symm.trans hx)

/-- A sequence that does not lead to the changed one leads where it led. -/
theorem reaches_iff (h : Spliced f g id front old new back) (ha : ¬f.Reaches a id) :
    g.Reaches a b ↔ f.Reaches a b :=
  reaches_congr fun x hx => h.other x fun e => ha (e ▸ hx)

theorem reachedFrom_iff (h : Spliced f g id front old new back) (hn : ¬f.ReachedFrom nodes id) :
    g.ReachedFrom nodes b ↔ f.ReachedFrom nodes b := by
  constructor
  · rintro ⟨top, hm, hr⟩
    exact ⟨top, hm, (h.reaches_iff fun ht => hn ⟨top, hm, ht⟩).1 hr⟩
  · rintro ⟨top, hm, hr⟩
    exact ⟨top, hm, (h.reaches_iff fun ht => hn ⟨top, hm, ht⟩).2 hr⟩

theorem acyclic (h : Spliced f g id front old new back) (hf : f.Acyclic)
    (hn : ¬f.ReachedFrom new id) : g.Acyclic := by
  apply hf.change h.other
  rintro b ⟨nodes, hc, hm⟩ hr
  obtain rfl := Option.some.inj (h.after.symm.trans hc)
  have kept := hf.not_reachedFrom h.before
  rcases List.mem_append.1 hm with hm | hm
  · rcases List.mem_append.1 hm with hm | hm
    · exact kept ⟨b, by simp [hm], hr⟩
    · exact hn ⟨b, hm, hr⟩
  · exact kept ⟨b, by simp [hm], hr⟩

/-- What was reached still is, except through the nodes taken out. -/
theorem reaches_or (h : Spliced f g id front old new back) (hr : f.Reaches a b) :
    g.Reaches a b ∨ g.Reaches a id ∧ f.ReachedFrom old b := by
  induction hr with
  | refl => exact .inl .refl
  | @tail m b _ hc ih =>
    rcases ih with ih | ⟨ha, ho⟩
    · obtain ⟨nodes, hn, hm⟩ := hc
      by_cases e : m = id
      · subst e
        obtain rfl := Option.some.inj (h.before.symm.trans hn)
        rcases List.mem_append.1 hm with hm | hm
        · rcases List.mem_append.1 hm with hm | hm
          · exact .inl (ih.tail ⟨_, h.after, by simp [hm]⟩)
          · exact .inr ⟨ih, b, hm, .refl⟩
        · exact .inl (ih.tail ⟨_, h.after, by simp [hm]⟩)
      · exact .inl (ih.tail ⟨nodes, (h.other m e).trans hn, hm⟩)
    · exact .inr ⟨ha, ho.trans (.single hc)⟩

/-- The changed sequence itself is reached as before. -/
theorem reaches_self_iff (h : Spliced f g id front old new back) (hf : f.Acyclic)
    (hg : g.Acyclic) : g.Reaches a id ↔ f.Reaches a id := by
  constructor
  · intro hr
    exact hr.transfer fun x _ hx => (h.other x fun e => hg id (e ▸ hx)).symm
  · intro hr
    exact hr.transfer fun x _ hx => h.other x fun e => hf id (e ▸ hx)

end Spliced

/-- A forest that has all the sequences of another as they are there. -/
structure Extends (g f : Forest) : Prop where
  children : ∀ {id nodes}, f.children? id = some nodes → g.children? id = some nodes
  root : g.root = f.root

namespace Extends

theorem refl (f : Forest) : Extends f f :=
  ⟨fun h => h, rfl⟩

theorem trans {e : Forest} (hg : Extends g f) (hf : Extends f e) : Extends g e :=
  ⟨fun h => hg.children (hf.children h), hg.root.trans hf.root⟩

theorem contains (h : Extends g f) (hi : f.contains id = true) : g.contains id = true := by
  obtain ⟨nodes, hn⟩ := contains_iff.1 hi
  exact contains_iff.2 ⟨nodes, h.children hn⟩

theorem holds (h : Extends g f) (hn : f.Holds nodes) : g.Holds nodes :=
  fun id hm => h.contains (hn id hm)

/-- An old sequence leads where it led. -/
theorem reaches_iff (h : Extends g f) (hf : f.Closed) (ha : f.contains a = true) :
    g.Reaches a b ↔ f.Reaches a b := by
  apply reaches_congr
  intro x hx
  obtain ⟨nodes, hn⟩ := contains_iff.1 (hf.reaches ha hx)
  rw [hn, h.children hn]

theorem reachedFrom_iff (h : Extends g f) (hf : f.Closed) (hn : f.Holds nodes) :
    g.ReachedFrom nodes b ↔ f.ReachedFrom nodes b := by
  constructor
  · rintro ⟨top, hm, hr⟩
    exact ⟨top, hm, (h.reaches_iff hf (hn top hm)).1 hr⟩
  · rintro ⟨top, hm, hr⟩
    exact ⟨top, hm, (h.reaches_iff hf (hn top hm)).2 hr⟩

end Extends

theorem not_contains_alloc : f.contains (f.alloc nodes).1 = false := by
  simp [contains, alloc, size]

theorem extends_alloc (f : Forest) (nodes : List Node) : Extends (f.alloc nodes).2 f where
  children {id old} h := by
    rw [children?_alloc, if_neg, h]
    rintro rfl
    have hc := contains_iff.2 ⟨old, h⟩
    simp [not_contains_alloc] at hc
  root := rfl

theorem children?_alloc_self : (f.alloc nodes).2.children? (f.alloc nodes).1 = some nodes := by
  rw [children?_alloc, if_pos rfl]

theorem Closed.alloc (h : f.Closed) (hn : f.Holds nodes) : (f.alloc nodes).2.Closed := by
  intro id ns hi
  rw [children?_alloc] at hi
  split at hi
  · obtain rfl := Option.some.inj hi
    exact (extends_alloc f _).holds hn
  · exact (extends_alloc f nodes).holds (h id ns hi)

theorem Acyclic.alloc (h : f.Acyclic) (hf : f.Closed) (hn : f.Holds nodes) :
    (f.alloc nodes).2.Acyclic := by
  have other : ∀ x, x ≠ (f.alloc nodes).1 → (f.alloc nodes).2.children? x = f.children? x := by
    intro x hx
    rw [children?_alloc, if_neg hx]
  apply h.change other
  rintro b ⟨ns, hc, hm⟩ hr
  obtain rfl := Option.some.inj (children?_alloc_self.symm.trans hc)
  have hi := hf.reaches (hn b hm) hr
  simp [not_contains_alloc] at hi

end NestedRegex.Forest
