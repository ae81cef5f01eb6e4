import NestedRegex.Proofs.Match.Runs

namespace NestedRegex.Match

open Relation Forest

/-- Every span that is held lies in a sequence of the zone. -/
def Lies (zone : SeqName → Prop) (m : Match) : Prop :=
  ∀ {i : Nat} {s : Span}, m.places[i]? = some (Place.held s) → zone s.seq

/-- The sequences outside the zone are spared, now and by what the handles may do later. -/
structure Spared (zone : SeqName → Prop) (m m' : Match) : Prop where
  lies : m'.Lies zone
  root : m'.forest.root = m.forest.root
  children : ∀ {x nodes}, ¬zone x → m.forest.children? x = some nodes →
    m'.forest.children? x = some nodes

variable {allowed : Operation → Prop} {zone : SeqName → Prop} {m m' m'' : Match} {home : SeqName}
  {nodes front back : List Node}

theorem Lies.span {h : Handle} {s : Span} (hm : m.Lies zone) (hs : m.span h = .ok s) : zone s.seq :=
  hm (span_eq_ok_iff.1 hs).2

/-- At first all spans lie at or below the sequence of the match. -/
theorem Sound.lies (hm : m.Sound home front back) : m.Lies (m.forest.Reaches home) :=
  fun hs => (hm.held hs).1

namespace Spared

theorem refl (hm : m.Lies zone) : Spared zone m m :=
  ⟨hm, rfl, fun _ hn => hn⟩

theorem trans (h : Spared zone m m') (h' : Spared zone m' m'') : Spared zone m m'' :=
  ⟨h'.lies, h'.root.trans h.root, fun hx hn => h'.children hx (h.children hx hn)⟩

theorem loaded {g : Forest} (hm : m.Lies zone) (hg : Loaded m.forest g nodes) :
    Spared zone m { m with forest := g } :=
  ⟨hm, hg.grows.root, fun _ hn => hg.grows.children hn⟩

theorem replaced {h : Handle} {s : Span} {old : List Node} {kept gone : NameSet}
    (hm : m.Lies zone) (hr : Replaced m m' h nodes s front old back kept gone) :
    Spared zone m m' := by
  obtain rfl := hr.result
  have sp := spliced_setChildren hr.before nodes
  have hzone := hm.span hr.span
  refine ⟨fun ht => ?_, sp.root, @fun id nodes hx hn => ?_⟩
  · obtain ⟨u, hu, hmove⟩ := held_moved.1 ht
    obtain ⟨hmove, -⟩ := Option.filter_eq_some_iff.1 hmove
    split at hmove
    · rw [← Option.some.inj hmove]
      exact hzone
    · rw [Span.seq_whenReplaced hmove]
      exact hm hu
  · exact (sp.other id fun e => hx (e ▸ hzone)).trans hn

theorem swapped {a b : Handle} {x y : Span} {xs ys frontX backX frontY backY : List Node}
    (hm : m.Lies zone) (hs : Swapped m m' a b x y xs ys frontX backX frontY backY) :
    Spared zone m m' := by
  have hzone : zone x.seq ∧ zone y.seq := by
    rcases hs.spans with ⟨ha, hb⟩ | ⟨ha, hb⟩
    · exact ⟨hm.span ha, hm.span hb⟩
    · exact ⟨hm.span hb, hm.span ha⟩
  have first := spliced_setChildren hs.beforeY xs
  have second := spliced_setChildren hs.beforeX ys
  obtain rfl := hs.result
  refine ⟨fun ht => ?_, second.root.trans first.root, @fun id nodes hx hn => ?_⟩
  · obtain ⟨u, hu, hmove⟩ := held_moved.1 ht
    unfold Span.whenSwapped at hmove
    split at hmove
    · rw [Span.seq_whenExchangedWithin hmove]
      exact hm hu
    · rcases Span.seq_whenExchanged hmove with e | e | e
      · exact e ▸ hm hu
      · exact e ▸ hzone.1
      · exact e ▸ hzone.2
  · have hxs := second.other id fun e => hx (e ▸ hzone.1)
    have hys := first.other id fun e => hx (e ▸ hzone.2)
    exact (hxs.trans hys).trans hn

theorem effect (hm : m.Lies zone) (h : Effect allowed m m') : Spared zone m m' := by
  cases h with
  | refused => exact .refl hm
  | loaded hg => exact .loaded hm hg
  | put hg hr =>
    have hload := Spared.loaded hm hg
    exact hload.trans (.replaced hload.lies hr)
  | replaced _ hr => exact .replaced hm hr
  | swapped hs => exact .swapped hm hs

end Spared

/-- A run on a match in good order spares what its sequence did not lead to. -/
theorem Sound.spared (hm : m.Sound home front back) (h : Run allowed m m') :
    Spared (m.forest.Reaches home) m m' := by
  induction h with
  | refl => exact .refl hm.lies
  | tail hrun hs ih =>
    have hnow := hm.run hrun
    exact ih.trans (.effect ih.lies (hs.effect hnow.closed hnow.acyclic))

/-- A sequence that leads to the sequence of the match is led to as before. -/
theorem Spared.reaches {a b : SeqName} (h : Spared (m.forest.Reaches home) m m')
    (hf : m.forest.Acyclic) (hb : m.forest.Reaches b home) (hr : m.forest.Reaches a b) :
    m'.forest.Reaches a b := by
  apply hr.transfer
  intro x _ hx
  obtain ⟨c, hc, -⟩ := TransGen.head'_iff.1 hx
  obtain ⟨nodes, hn⟩ := contains_iff.1 hc.contains
  have hout : ¬m.forest.Reaches home x := fun hh => hf x (hx.trans_left (hb.trans hh))
  rw [hn, h.children hout hn]

namespace Operation

/-- The operation puts new values or copies in place, or exchanges what is there. -/
def Copying : Operation → Prop
  | .replace _ _ => False
  | _ => True

end Operation

/-- Loaded nodes have the one place that they are put in. -/
theorem unshared_of_places {f g : Forest} (hf : f.Closed) (hu : f.Unshared)
    (hroot : f.contains f.root = true) (hr : g.root = f.root)
    (hg : ∀ id, g.places id ≤ f.places id + if f.contains id = true then 0 else 1) :
    g.Unshared := by
  refine ⟨fun id => ?_, ?_⟩
  · have hle := hg id
    by_cases hc : f.contains id = true
    · rw [if_pos hc] at hle
      exact Nat.le_trans hle (hu.once id)
    · rw [if_neg hc, places_eq_zero hf (Bool.eq_false_iff.2 hc)] at hle
      exact hle
  · have hle := hg f.root
    rw [if_pos hroot, hu.root] at hle
    rw [hr]
    exact Nat.le_zero.1 hle

theorem Effect.unshared (hf : m.forest.Closed)
    (hroot : m.forest.contains m.forest.root = true) (hu : m.forest.Unshared)
    (h : Effect Operation.Copying m m') : m'.forest.Unshared := by
  cases h with
  | refused => exact hu
  | loaded hg =>
    apply unshared_of_places hf hu hroot hg.grows.root
    exact fun id => Nat.le_trans (Nat.le_add_right _ _) (hg.once id)
  | @put g nodes _ _ _ _ _ _ _ _ hg hr =>
    have hb : g.children? _ = some _ := hr.before
    have sp := spliced_setChildren hb nodes
    rw [hr.result]
    apply unshared_of_places hf hu hroot (sp.root.trans hg.grows.root)
    intro id
    have hplaces := sp.places id
    have hle := hg.once id
    omega
  | replaced given _ => cases given
  | @swapped _ _ _ x y _ _ _ _ _ _ hs =>
    have same : ∀ id, m'.forest.places id = m.forest.places id := by
      intro id
      by_cases e : x.seq = y.seq
      · obtain ⟨between, sp⟩ := hs.turned e
        have hplaces := sp.places id
        simp only [List.count_append] at hplaces
        omega
      · exact (hs.exchanged e).places id
    have sp : Spared (fun _ => True) m m' := .swapped (fun _ => trivial) hs
    apply unshared_of_places hf hu hroot sp.root
    exact fun id => Nat.le_trans (Nat.le_of_eq (same id)) (Nat.le_add_right _ _)

theorem Sound.root_there (hm : m.Sound home front back) :
    m.forest.contains m.forest.root = true := by
  rcases hm.attached.cases_head with e | ⟨c, hc, -⟩
  · rw [e]
    exact hm.there
  · exact hc.contains

/-- A run of edits with new values, copies and exchanges leaves nothing shared. -/
theorem Sound.unshared (hm : m.Sound home front back) (hu : m.forest.Unshared)
    (h : Run Operation.Copying m m') : m'.forest.Unshared := by
  induction h with
  | refl => exact hu
  | tail hrun hs ih =>
    have hnow := hm.run hrun
    exact (hs.effect hnow.closed hnow.acyclic).unshared hnow.closed hnow.root_there ih

end NestedRegex.Match
