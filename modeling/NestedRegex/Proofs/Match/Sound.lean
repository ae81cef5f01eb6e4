import NestedRegex.Proofs.Forest.Exchange
import NestedRegex.Proofs.Forest.Zones
import NestedRegex.Proofs.Match.Edits

namespace NestedRegex

namespace Forest

variable {f g : Forest} {home id : SeqName} {front back frontS old new backS : List Node}

theorem Spliced.nodesOf_other (h : Spliced f g id frontS old new backS) {x : SeqName}
    (hx : x ≠ id) : g.nodesOf x = f.nodesOf x := by
  rw [nodesOf, nodesOf, h.other x hx]

theorem Spliced.length_add (h : Spliced f g id frontS old new backS) :
    (g.nodesOf id).length + old.length = (f.nodesOf id).length + new.length := by
  rw [nodesOf_eq h.before, nodesOf_eq h.after]
  simp only [List.length_append]
  omega

/-- A splice behind the front and before the back of a sequence leaves them there. -/
theorem Spliced.around (h : Spliced f g id frontS old new backS)
    (hm : ∃ mid, f.children? home = some (front ++ mid ++ back))
    (hs : id = home → front.length ≤ frontS.length ∧ back.length ≤ backS.length) :
    ∃ mid, g.children? home = some (front ++ mid ++ back) := by
  obtain ⟨mid, hc⟩ := hm
  by_cases e : id = home
  · subst e
    obtain ⟨hf, hb⟩ := hs rfl
    have heq : front ++ mid ++ back = frontS ++ old ++ backS :=
      Option.some.inj (hc.symm.trans h.before)
    have hp : front <+: front ++ mid ++ back := ⟨mid ++ back, (List.append_assoc _ _ _).symm⟩
    have hq : frontS <+: front ++ mid ++ back := ⟨old ++ backS, by rw [heq, List.append_assoc]⟩
    obtain ⟨a, rfl⟩ : front <+: frontS := List.prefix_of_prefix_length_le hp hq hf
    obtain ⟨b, rfl⟩ : back <:+ backS :=
      List.suffix_of_suffix_length_le ⟨front ++ mid, rfl⟩ ⟨front ++ a ++ old, heq.symm⟩ hb
    refine ⟨a ++ new ++ b, ?_⟩
    rw [h.after]
    simp
  · exact ⟨mid, (h.other home (Ne.symm e)).trans hc⟩

end Forest

namespace Match

/-- The number of children of a sequence that are left alone, where only those of `home` are. -/
def margin (home : SeqName) (nodes : List Node) (id : SeqName) : Nat :=
  if id = home then nodes.length else 0

/-- The span lies in its sequence, and between the front and the back of `home`. -/
def InZone (f : Forest) (home : SeqName) (front back : List Node) (s : Span) : Prop :=
  s.Fits (margin home front) (margin home back) fun id => (f.nodesOf id).length

/-- A match in good order at `home`, whose children begin with `front` and end with `back`. -/
structure Sound (m : Match) (home : SeqName) (front back : List Node) : Prop where
  closed : m.forest.Closed
  acyclic : m.forest.Acyclic
  attached : m.forest.Reaches m.forest.root home
  around : ∃ mid, m.forest.children? home = some (front ++ mid ++ back)
  held : ∀ {i : Nat} {s : Span}, m.places[i]? = some (Place.held s) →
    m.forest.Reaches home s.seq ∧ InZone m.forest home front back s

variable {m m' : Match} {home : SeqName} {front back nodes : List Node} {h : Handle} {s : Span}

theorem Sound.there (hm : m.Sound home front back) : m.forest.contains home = true := by
  obtain ⟨mid, hc⟩ := hm.around
  exact Forest.contains_iff.2 ⟨_, hc⟩

theorem Sound.span (hm : m.Sound home front back) (hs : m.span h = .ok s) :
    m.forest.Reaches home s.seq ∧ InZone m.forest home front back s :=
  hm.held (span_eq_ok_iff.1 hs).2

/-- Loaded nodes are not yet in the way of anything. -/
theorem Sound.loaded {g : Forest} (hm : m.Sound home front back)
    (hg : Forest.Loaded m.forest g nodes) : Sound { m with forest := g } home front back where
  closed := hg.closed
  acyclic := hg.acyclic hm.acyclic
  attached := by
    have hroot := hg.grows.root
    have hr := hm.attached
    change g.Reaches g.root home
    rw [hroot]
    exact hr.transfer fun x _ hx => by
      obtain ⟨b, ⟨nodes, hn, -⟩, -⟩ := Relation.TransGen.head'_iff.1 hx
      rw [hn, hg.grows.children hn]
  around := by
    obtain ⟨mid, hc⟩ := hm.around
    exact ⟨mid, hg.grows.children hc⟩
  held {i s} hs := by
    obtain ⟨hr, hz⟩ := hm.held hs
    have hin := hm.closed.reaches hm.there hr
    refine ⟨(hg.grows.reaches_iff hm.closed hm.there).2 hr, ?_⟩
    have hlen : g.nodesOf s.seq = m.forest.nodesOf s.seq :=
      Forest.nodesOf_eq (hg.grows.children (Forest.nodesOf_of_contains hin))
    change s.Fits _ _ _
    simp only [Span.Fits, hlen]
    exact hz

section Replaced

variable {frontS old backS : List Node} {kept gone : NameSet}

/-- The zone of a span leaves room for the front and the back of its sequence. -/
theorem InZone.margins {f : Forest} (hz : InZone f home front back s)
    (hc : f.children? s.seq = some (frontS ++ old ++ backS)) (hf : frontS.length = s.start)
    (hl : old.length = s.length) (e : s.seq = home) :
    front.length ≤ frontS.length ∧ back.length ≤ backS.length := by
  simp only [InZone, Span.Fits, margin, if_pos e, Forest.nodesOf_eq hc, List.length_append,
    Span.stop] at hz
  omega

theorem Sound.replaced (hm : m.Sound home front back)
    (hr : Replaced m m' h nodes s frontS old backS kept gone) : m'.Sound home front back := by
  obtain rfl := hr.result
  obtain ⟨hreach, hzone⟩ := hm.span hr.span
  have sp := Forest.spliced_setChildren hr.before nodes
  have hself : ¬m.forest.ReachedFrom old s.seq := fun ho =>
    hm.acyclic.not_reachedFrom hr.before (ho.mono (by simp))
  have hhome : ¬m.forest.ReachedFrom old home := by
    intro ho
    have hall : m.forest.ReachedFrom (frontS ++ old ++ backS) home := ho.mono (by simp)
    have hback := hall.reaches hr.before
    exact hself (hm.acyclic.antisymm hreach hback ▸ ho)
  have hlen : ((m.forest.setChildren s.seq (frontS ++ nodes ++ backS)).nodesOf s.seq).length +
      s.length = (m.forest.nodesOf s.seq).length + nodes.length := hr.length ▸ sp.length_add
  refine ⟨sp.closed hm.closed hr.holds, sp.acyclic hm.acyclic hr.apart, ?_, ?_, ?_⟩
  · exact (sp.reaches_or hm.attached).resolve_right fun hx => hhome hx.2
  · exact sp.around hm.around fun e => hzone.margins hr.before hr.start hr.length e
  · intro i t ht
    obtain ⟨u, hu, hmove⟩ := held_moved.1 ht
    obtain ⟨hmove, hkept⟩ := Option.filter_eq_some_iff.1 hmove
    obtain ⟨hur, huz⟩ := hm.held hu
    have hplace : m.forest.Reaches home t.seq ∧
        InZone (m.forest.setChildren s.seq (frontS ++ nodes ++ backS)) home front back t := by
      split at hmove
      · obtain rfl := Option.some.inj hmove
        exact ⟨hreach, Span.fits_replaced hzone hlen⟩
      · refine ⟨Span.seq_whenReplaced hmove ▸ hur, ?_⟩
        exact Span.fits_whenReplaced huz hzone hlen
          (fun id hid => congrArg List.length (sp.nodesOf_other hid)) hmove
    refine ⟨?_, hplace.2⟩
    rcases sp.reaches_or hplace.1 with hg | ⟨hg, ho⟩
    · exact hg
    · -- The nodes taken out lead there, so the new ones do too.
      have hgone : t.seq ∈ gone := (hr.gone_iff t.seq).2 ((sp.reachedFrom_iff hself).2 ho)
      have hnew : t.seq ∈ kept := by simpa [hgone] using hkept
      have hin := (sp.reachedFrom_iff hr.apart).2 ((hr.kept_iff t.seq).1 hnew)
      exact hg.trans ((hin.mono (by simp)).reaches sp.after)

end Replaced

section Swapped

variable {a b : Handle} {x y : Span} {xs ys frontX backX frontY backY : List Node}

theorem Swapped.held_spans (hm : m.Sound home front back)
    (hs : Swapped m m' a b x y xs ys frontX backX frontY backY) :
    (m.forest.Reaches home x.seq ∧ InZone m.forest home front back x) ∧
      m.forest.Reaches home y.seq ∧ InZone m.forest home front back y := by
  rcases hs.spans with ⟨ha, hb⟩ | ⟨ha, hb⟩
  · exact ⟨hm.span ha, hm.span hb⟩
  · exact ⟨hm.span hb, hm.span ha⟩

/-- In two sequences a swap is an exchange. -/
theorem Swapped.exchanged (hs : Swapped m m' a b x y xs ys frontX backX frontY backY)
    (ne : x.seq ≠ y.seq) : Forest.Exchanged m.forest
      (m.forest.setChildren y.seq (frontY ++ xs ++ backY)) m'.forest x.seq y.seq xs ys
      frontX backX frontY backY := by
  obtain rfl := hs.result
  exact ⟨Forest.spliced_setChildren hs.beforeY _, Forest.spliced_setChildren hs.beforeX _, ne,
    hs.apartX, hs.apartY⟩

/-- In one sequence a swap turns round the two spans and leaves what is between them. -/
theorem Swapped.turned (hs : Swapped m m' a b x y xs ys frontX backX frontY backY)
    (e : x.seq = y.seq) : ∃ between, Forest.Spliced m.forest m'.forest y.seq frontX
      (xs ++ between ++ ys) (ys ++ between ++ xs) backY := by
  obtain rfl := hs.result
  have hmid := Forest.spliced_setChildren hs.beforeY xs
  have hgiven := Forest.spliced_setChildren hs.beforeX ys
  have hc : frontX ++ xs ++ backX = frontY ++ xs ++ backY :=
    Option.some.inj (hs.beforeX.symm.trans (e ▸ hmid.after))
  obtain ⟨between, rfl⟩ : frontX ++ xs <+: frontY := by
    have hp : frontX ++ xs <+: frontX ++ xs ++ backX := List.prefix_append _ _
    have hq : frontY <+: frontX ++ xs ++ backX := ⟨xs ++ backY, by rw [hc, List.append_assoc]⟩
    have hle := hs.order e
    simp only [Span.stop] at hle
    refine List.prefix_of_prefix_length_le hp hq ?_
    rw [List.length_append, hs.startX, hs.startY, hs.lengthX]
    exact hle
  obtain rfl : backX = between ++ (xs ++ backY) := by
    simpa only [List.append_assoc, List.append_cancel_left_eq] using hc
  refine ⟨between, ?_, ?_, fun z hz => ?_, rfl⟩
  · rw [hs.beforeY]
    simp
  · refine (congrArg _ e.symm).trans (hgiven.after.trans ?_)
    simp
  · exact (hgiven.other z (e ▸ hz)).trans (hmid.other z hz)

theorem Sound.swapped_within (hm : m.Sound home front back)
    (hs : Swapped m m' a b x y xs ys frontX backX frontY backY) (e : x.seq = y.seq) :
    m'.Sound home front back := by
  obtain ⟨between, sp⟩ := hs.turned e
  obtain ⟨⟨hxr, hxz⟩, hyr, hyz⟩ := hs.held_spans hm
  have hmem : ∀ n, n ∈ ys ++ between ++ xs ↔ n ∈ xs ++ between ++ ys := by
    intro n
    simp only [List.mem_append]
    constructor <;> rintro ((hn | hn) | hn) <;> simp [hn]
  have hsub : ys ++ between ++ xs ⊆ frontX ++ (xs ++ between ++ ys) ++ backY := fun n hn =>
    List.mem_append_left _ (List.mem_append_right _ ((hmem n).1 hn))
  have hiff := fun {r t} => Forest.reaches_congr_mem (r := r) (t := t) sp hmem
  have hnew : m.forest.Holds (ys ++ between ++ xs) := (hm.closed _ _ sp.before).mono hsub
  have hself : ¬m.forest.ReachedFrom (ys ++ between ++ xs) y.seq := fun hr =>
    hm.acyclic.not_reachedFrom sp.before (hr.mono hsub)
  have hlen : (fun id => (m'.forest.nodesOf id).length) =
      fun id => (m.forest.nodesOf id).length := by
    funext id
    by_cases ey : id = y.seq
    · have hadd := sp.length_add
      simp only [List.length_append] at hadd
      rw [ey]
      omega
    · rw [sp.nodesOf_other ey]
  refine ⟨sp.closed hm.closed hnew, sp.acyclic hm.acyclic hself, ?_, ?_, ?_⟩
  · rw [sp.root, hiff]
    exact hm.attached
  · refine sp.around hm.around fun ey => ?_
    have hc : m.forest.children? x.seq = some (frontX ++ xs ++ (between ++ ys ++ backY)) := by
      rw [e, sp.before]
      simp
    have hx := hxz.margins hc hs.startX hs.lengthX (e.trans ey)
    have hy := hyz.margins hs.beforeY hs.startY hs.lengthY ey
    exact ⟨hx.1, hy.2⟩
  · intro i t ht
    rw [hs.result] at ht
    obtain ⟨u, hu, hmove⟩ := held_moved.1 ht
    obtain ⟨hur, huz⟩ := hm.held hu
    rw [Span.whenSwapped, if_pos e] at hmove
    refine ⟨hiff.2 (Span.seq_whenExchangedWithin hmove ▸ hur), ?_⟩
    rw [InZone, hlen]
    exact Span.fits_whenExchangedWithin huz hxz hyz e (hs.order e) hmove

theorem Sound.swapped_across (hm : m.Sound home front back)
    (hs : Swapped m m' a b x y xs ys frontX backX frontY backY) (ne : x.seq ≠ y.seq) :
    m'.Sound home front back := by
  have ex := hs.exchanged ne
  obtain ⟨⟨hxr, hxz⟩, hyr, hyz⟩ := hs.held_spans hm
  have hroot : m'.forest.root = m.forest.root := ex.second.root.trans ex.first.root
  refine ⟨ex.closed hm.closed, ex.acyclic hm.acyclic, ?_, ?_, ?_⟩
  · rw [hroot]
    exact ex.reaches hm.acyclic (hm.attached.trans hxr) (hm.attached.trans hyr) hm.attached
  · have hmid := ex.first.around hm.around fun e =>
      hyz.margins hs.beforeY hs.startY hs.lengthY e
    exact ex.second.around hmid fun e => hxz.margins ex.children_a hs.startX hs.lengthX e
  · intro i t ht
    rw [hs.result] at ht
    obtain ⟨u, hu, hmove⟩ := held_moved.1 ht
    obtain ⟨hur, huz⟩ := hm.held hu
    rw [Span.whenSwapped, if_neg ne] at hmove
    refine ⟨(ex.reaches_iff hm.acyclic hxr hyr).2 ?_, ?_⟩
    · rcases Span.seq_whenExchanged hmove with he | he | he
      · exact he ▸ hur
      · exact he ▸ hxr
      · exact he ▸ hyr
    · have hlenX : (m'.forest.nodesOf x.seq).length + x.length =
          (m.forest.nodesOf x.seq).length + y.length := by
        have hadd := ex.second.length_add
        rw [ex.first.nodesOf_other ne] at hadd
        rw [← hs.lengthX, ← hs.lengthY]
        exact hadd
      have hlenY : (m'.forest.nodesOf y.seq).length + y.length =
          (m.forest.nodesOf y.seq).length + x.length := by
        have hadd := ex.first.length_add
        rw [← ex.second.nodesOf_other ne.symm] at hadd
        rw [← hs.lengthX, ← hs.lengthY]
        exact hadd
      exact Span.fits_whenExchanged huz hxz hyz ne hlenX hlenY
        (fun id hx hy => by rw [Forest.nodesOf, Forest.nodesOf, ex.other id hx hy]) hmove

theorem Sound.swapped (hm : m.Sound home front back)
    (hs : Swapped m m' a b x y xs ys frontX backX frontY backY) : m'.Sound home front back := by
  by_cases e : x.seq = y.seq
  · exact hm.swapped_within hs e
  · exact hm.swapped_across hs e

end Swapped

end Match

end NestedRegex
