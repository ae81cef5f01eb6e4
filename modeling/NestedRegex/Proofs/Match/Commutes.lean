import NestedRegex.Proofs.Match.Replaces

namespace NestedRegex

namespace Span

variable {s t s' t' u v old : Span} {n k count : Nat}

/-- The empty `s` gets `n` nodes where `t` starts, which gets `k`. It stands in the way of `t` if
this is empty too and gets nodes, or is emptied. -/
def Crowds (s t : Span) (n k : Nat) : Prop :=
  s.seq = t.seq ∧ s.start = t.start ∧ s.length = 0 ∧ 0 < n ∧
    if t.length = 0 then 0 < k else k = 0

instance (s t : Span) (n k : Nat) : Decidable (s.Crowds t n k) :=
  inferInstanceAs (Decidable (_ ∧ _))

theorem not_crowds_of_seq_ne (ne : s.seq ≠ t.seq) : ¬s.Crowds t n k :=
  fun h => ne h.1

/-- Where the spans come to, the first of them in front of the second. -/
theorem replaced_comm_iff_of_front (e : s.seq = t.seq) (hle : s.stop ≤ t.start)
    (hlt : ¬t.stop ≤ s.start) (ht : t.whenReplaced s n = some t')
    (hs : s.whenReplaced t k = some s')
    (hu : Span.whenReplaced { s with length := n } t' k = some u)
    (hv : Span.whenReplaced { t with length := k } s' n = some v) :
    (u = { s' with length := n } ∧ v = { t' with length := k }) ↔
      ¬s.Crowds t n k ∧ ¬t.Crowds s k n := by
  rw [whenReplaced_behind e.symm hlt hle] at ht
  rw [whenReplaced_before hle] at hs
  obtain rfl := Option.some.inj ht
  obtain rfl := Option.some.inj hs
  simp only [stop] at hle hlt
  rw [whenReplaced_before (by simp only [stop]; omega)] at hu
  obtain rfl := Option.some.inj hu
  simp only [Crowds, e, true_and]
  -- The second span moves unless no nodes are left in it at the start of the first.
  by_cases hk : t.start + k ≤ s.start
  · rw [whenReplaced_before (by simpa only [stop])] at hv
    obtain rfl := Option.some.inj hv
    simp only [mk.injEq, true_and, and_true]
    rw [if_neg (by omega), if_pos (by omega)]
    omega
  · have hback : Span.whenReplaced { t with length := k } s n =
        some ⟨t.seq, t.start + n - s.length, k⟩ := whenReplaced_behind e.symm hk hle
    rw [hback] at hv
    obtain rfl := Option.some.inj hv
    simp only [true_iff]
    split <;> split <;> omega

/-- At an empty span, one that starts there moves if it is not empty. -/
theorem whenReplaced_at (e : u.seq = old.seq) (hstart : u.start = old.start)
    (hempty : old.length = 0) : u.whenReplaced old count =
      some { u with start := if u.length = 0 then u.start else u.start + count } := by
  split
  · exact whenReplaced_before (by simp only [stop]; omega)
  · rw [whenReplaced_behind e (by simp only [stop]; omega) (by simp only [stop]; omega), hempty,
      Nat.sub_zero]

/-- Where two empty spans at one place come to. -/
theorem replaced_comm_iff_of_empty (e : s.seq = t.seq) (hstart : s.start = t.start)
    (hs0 : s.length = 0) (ht0 : t.length = 0) (ht : t.whenReplaced s n = some t')
    (hs : s.whenReplaced t k = some s')
    (hu : Span.whenReplaced { s with length := n } t' k = some u)
    (hv : Span.whenReplaced { t with length := k } s' n = some v) :
    (u = { s' with length := n } ∧ v = { t' with length := k }) ↔
      ¬s.Crowds t n k ∧ ¬t.Crowds s k n := by
  rw [whenReplaced_at e.symm hstart.symm hs0, if_pos ht0] at ht
  rw [whenReplaced_at e hstart ht0, if_pos hs0] at hs
  obtain rfl := Option.some.inj ht
  obtain rfl := Option.some.inj hs
  have hfirst : Span.whenReplaced { s with length := n } t k =
      some ⟨s.seq, if n = 0 then s.start else s.start + k, n⟩ := whenReplaced_at e hstart ht0
  have hsecond : Span.whenReplaced { t with length := k } s n =
      some ⟨t.seq, if k = 0 then t.start else t.start + n, k⟩ :=
    whenReplaced_at e.symm hstart.symm hs0
  rw [hfirst] at hu
  rw [hsecond] at hv
  obtain rfl := Option.some.inj hu
  obtain rfl := Option.some.inj hv
  simp only [mk.injEq, true_and, and_true, Crowds, e, hstart, hs0, ht0, if_true]
  split <;> split <;> omega

/-- Where two spans that do not overlap come to if nodes take the place of one and then of the
other. It depends on the order just if one crowds the other. -/
theorem replaced_comm_iff (ho : s.overlaps t = false) (ht : t.whenReplaced s n = some t')
    (hs : s.whenReplaced t k = some s')
    (hu : Span.whenReplaced { s with length := n } t' k = some u)
    (hv : Span.whenReplaced { t with length := k } s' n = some v) :
    (u = { s' with length := n } ∧ v = { t' with length := k }) ↔
      ¬s.Crowds t n k ∧ ¬t.Crowds s k n := by
  by_cases e : s.seq = t.seq
  · by_cases hle : s.stop ≤ t.start
    · by_cases hle' : t.stop ≤ s.start
      · simp only [stop] at hle hle'
        exact replaced_comm_iff_of_empty e (by omega) (by omega) (by omega) ht hs hu hv
      · exact replaced_comm_iff_of_front e hle hle' ht hs hu hv
    · have hle' := (apart_of_not_overlaps ho e).resolve_left hle
      rw [and_comm, replaced_comm_iff_of_front e.symm hle' hle hs ht hv hu, and_comm]
  · rw [whenReplaced_elsewhere (Ne.symm e)] at ht
    rw [whenReplaced_elsewhere e] at hs
    obtain rfl := Option.some.inj ht
    obtain rfl := Option.some.inj hs
    have hfirst : Span.whenReplaced { s with length := n } t k = some { s with length := n } :=
      whenReplaced_elsewhere e
    have hsecond : Span.whenReplaced { t with length := k } s n = some { t with length := k } :=
      whenReplaced_elsewhere (Ne.symm e)
    rw [hfirst] at hu
    rw [hsecond] at hv
    obtain rfl := Option.some.inj hu
    obtain rfl := Option.some.inj hv
    simp only [not_crowds_of_seq_ne e, not_crowds_of_seq_ne (Ne.symm e), not_false_eq_true,
      and_self]

/-- A span is moved clear of the nodes that it gives way to. -/
theorem not_overlaps_of_moved (h : t.whenReplaced s n = some t') :
    Span.overlaps { s with length := n } t' = false := by
  have hapart := not_overlaps_of_whenReplaced h
  by_cases e : t.seq = s.seq
  · by_cases hle : t.stop ≤ s.start
    · rw [whenReplaced_before hle] at h
      obtain rfl := Option.some.inj h
      simp only [overlaps, e, true_and, decide_eq_false_iff_not]
      omega
    · have hge := (apart_of_not_overlaps hapart e).resolve_left hle
      rw [whenReplaced_behind e hle hge] at h
      obtain rfl := Option.some.inj h
      simp only [overlaps, e, true_and, decide_eq_false_iff_not]
      simp only [stop] at hge ⊢
      omega
  · rw [whenReplaced_elsewhere e] at h
    obtain rfl := Option.some.inj h
    simp [overlaps, Ne.symm e]

end Span

namespace Forest

variable {f g k : Forest} {s t t' : Span} {ss ts xs ys : List Node}

/-- Nodes put in the place of two spans of one sequence, in either order. The second span is where
the new nodes of the first leave it. -/
theorem InPlace.comm {g' k' : Forest} (e : s.seq = t.seq) (order : s.stop ≤ t.start)
    (hs : InPlace f g s ss xs) (ht : InPlace g g' t' ts ys) (hseq : t'.seq = t.seq)
    (hstart : t'.start + s.length = t.start + xs.length) (ht' : InPlace f k t ts ys)
    (hs' : InPlace k k' s ss xs) : k'.children? s.seq = g'.children? s.seq := by
  obtain ⟨front, between, back, hc, hfront, hss, hbetween, hts⟩ :=
    exists_between hs.nodes? ht'.nodes? e order
  have hsame : t'.length = t.length := ht.length.symm.trans hts
  simp only [Span.stop] at hbetween
  have hg : g.children? s.seq = some (front ++ xs ++ (between ++ ts ++ back)) :=
    hs.children (by simpa only [List.append_assoc] using hc) hfront hss
  have hmoved : g.children? t'.seq = some ((front ++ xs ++ between) ++ ts ++ back) := by
    rw [hseq, ← e, hg]
    simp only [List.append_assoc]
  have hg' : g'.children? t'.seq = some ((front ++ xs ++ between) ++ ys ++ back) := by
    refine ht.children hmoved ?_ ht.length
    simp only [List.length_append]
    omega
  have hbehind : f.children? t.seq = some ((front ++ ss ++ between) ++ ts ++ back) := e ▸ hc
  have hk : k.children? t.seq = some ((front ++ ss ++ between) ++ ys ++ back) := by
    refine ht'.children hbehind ?_ hts
    simp only [List.length_append]
    omega
  have hkept : k.children? s.seq = some (front ++ ss ++ (between ++ ys ++ back)) := by
    rw [e, hk]
    simp only [List.append_assoc]
  rw [hs'.children hkept hfront hss, e, ← hseq, hg']
  simp only [List.append_assoc]

end Forest

namespace Match

variable {m mid mid' k k' : Match} {a b : Handle} {s s' t t' : Span} {ss ts xs ys : List Node}
  {x : SeqName}

/-- Two replacements, one after the other: the nodes `xs` took the place of `ss`, those of the span
`s`, and then `ys` that of `ts`, whose span had come from `t` to `t'`. -/
structure InTurn (m mid k : Match) (a b : Handle) (s t t' : Span) (ss ts xs ys : List Node) :
    Prop where
  ne : b.index ≠ a.index
  nodes : m.forest.nodes? t = some ts
  span : m.span b = .ok t
  moved : t.whenReplaced s xs.length = some t'
  first : ∃ front back kept gone, Replaced m mid a xs s front ss back kept gone
  second : ∃ front back kept gone, Replaced mid k b ys t' front ts back kept gone

/-- The second of two replacements is of the nodes that its handle had before the first. -/
theorem inTurn_of_replace (hf : m.forest.Closed) (ne : a ≠ b)
    (hs : m.span a = .ok s) (ht : m.span b = .ok t) (hss : m.forest.nodes? s = some ss)
    (hts : m.forest.nodes? t = some ts) (hfirst : replace a xs m = .ok () mid)
    (hsecond : replace b ys mid = .ok () k) : ∃ t', InTurn m mid k a b s t t' ss ts xs ys := by
  have hindex := index_ne ht hs ne.symm
  obtain ⟨front, old, back, kept, gone, hr⟩ := replaced_of_replace hf hfirst hs
  obtain rfl : old = ss := Option.some.inj (hr.inPlace.nodes?.symm.trans hss)
  rcases replace_cases (hr.closed hf) b ys with
    ⟨e, he⟩ | ⟨k', t', front', old', back', kept', gone', hrun, hr'⟩
  · rw [hsecond] at he
    cases he
  obtain rfl : k' = k := by
    rw [hsecond] at hrun
    cases hrun
    rfl
  have hvalid : mid.isValid b = true := isValid_iff.2 ⟨t', hr'.span⟩
  obtain rfl : old' = ts := by
    have hcontent := hr.content_other hindex ht hts hvalid
    have hcontent' : mid.content b = .ok old' :=
      content_eq_ok_iff.2 ⟨t', hr'.span, hr'.inPlace.nodes?⟩
    exact Except.ok.inj (hcontent'.symm.trans hcontent)
  exact ⟨t', hindex, hts, ht, ((hr.span_iff hindex ht).1 hr'.span).1, ⟨_, _, _, _, hr⟩,
    ⟨_, _, _, _, hr'⟩⟩

namespace InTurn

variable (hab : InTurn m mid k a b s t t' ss ts xs ys)
include hab

theorem root : k.forest.root = m.forest.root := by
  obtain ⟨_, _, _, _, hr⟩ := hab.first
  obtain ⟨_, _, _, _, hr'⟩ := hab.second
  exact hr'.spliced.root.trans hr.spliced.root

/-- Other sequences keep their children. -/
theorem other (hs : x ≠ s.seq) (ht : x ≠ t.seq) :
    k.forest.children? x = m.forest.children? x := by
  obtain ⟨_, _, _, _, hr⟩ := hab.first
  obtain ⟨_, _, _, _, hr'⟩ := hab.second
  rw [← Span.seq_whenReplaced hab.moved] at ht
  rw [hr'.spliced.other x ht, hr.spliced.other x hs]

section Orders

variable (hba : InTurn m mid' k' b a t s s' ts ss ys xs)
include hba

/-- Two sequences do not meet. -/
theorem children_first (ne : s.seq ≠ t.seq) :
    k'.forest.children? s.seq = k.forest.children? s.seq := by
  obtain ⟨front, back, _, _, hr⟩ := hab.first
  obtain ⟨_, _, _, _, hr'⟩ := hab.second
  obtain ⟨_, _, _, _, hb⟩ := hba.first
  obtain ⟨_, _, _, _, hb'⟩ := hba.second
  have hseq := Span.seq_whenReplaced hab.moved
  obtain rfl : s' = s := Option.some.inj
    (hba.moved.symm.trans (Span.whenReplaced_elsewhere ne))
  have hmid : mid'.forest.children? s'.seq = some (front ++ ss ++ back) :=
    (hb.spliced.other _ ne).trans hr.before
  rw [hb'.inPlace.children hmid hr.start hr.length, hr'.spliced.other _ (hseq ▸ ne),
    hr.spliced.after]

theorem forest_eq_of_elsewhere (ne : s.seq ≠ t.seq) : k'.forest = k.forest := by
  refine Forest.eq_of_children? (fun x => ?_) (hba.root.trans hab.root.symm)
  by_cases hs : x = s.seq
  · rw [hs, hab.children_first hba ne]
  · by_cases ht : x = t.seq
    · rw [ht, hba.children_first hab ne.symm]
    · rw [hab.other hs ht, hba.other ht hs]

/-- In one sequence the second span moves with its nodes if the first one counts as in front. -/
theorem forest_eq_of_front (e : s.seq = t.seq) (order : s.stop ≤ t.start)
    (hempty : t.stop ≤ s.start → xs.length = 0) : k'.forest = k.forest := by
  obtain ⟨_, _, _, _, hr⟩ := hab.first
  obtain ⟨_, _, _, _, hr'⟩ := hab.second
  obtain ⟨_, _, _, _, hb⟩ := hba.first
  obtain ⟨_, _, _, _, hb'⟩ := hba.second
  obtain rfl : s' = s := Option.some.inj (hba.moved.symm.trans (Span.whenReplaced_before order))
  have hstart : t'.start + s'.length = t.start + xs.length := by
    have hmoved := hab.moved
    by_cases hle : t.stop ≤ s'.start
    · rw [Span.whenReplaced_before hle] at hmoved
      obtain rfl := Option.some.inj hmoved
      have hnone := hempty hle
      simp only [Span.stop] at order hle
      omega
    · rw [Span.whenReplaced_behind e.symm hle order] at hmoved
      obtain rfl := Option.some.inj hmoved
      simp only [Span.stop] at order ⊢
      omega
  refine Forest.eq_of_children? (fun x => ?_) (hba.root.trans hab.root.symm)
  by_cases hs : x = s'.seq
  · rw [hs]
    exact Forest.InPlace.comm e order hr.inPlace hr'.inPlace (Span.seq_whenReplaced hab.moved)
      hstart hb.inPlace hb'.inPlace
  · rw [hab.other hs (e ▸ hs), hba.other (e ▸ hs) hs]

/-- Nor does the order matter in one sequence if the first span does not crowd the second. -/
theorem forest_eq (ho : s.overlaps t = false) (hst : ¬s.Crowds t xs.length ys.length) :
    k'.forest = k.forest := by
  by_cases e : s.seq = t.seq
  · by_cases hle : s.stop ≤ t.start
    · by_cases hle' : t.stop ≤ s.start
      · -- Both are empty and at one place, and there are new nodes for one of them at most.
        by_cases hn : xs.length = 0
        · exact hab.forest_eq_of_front hba e hle fun _ => hn
        · refine (hba.forest_eq_of_front hab e.symm hle' fun _ => ?_).symm
          simp only [Span.stop] at hle hle'
          simp only [Span.Crowds, e, true_and] at hst
          rw [if_pos (by omega)] at hst
          omega
      · exact hab.forest_eq_of_front hba e hle fun h => absurd h hle'
    · have hle' := (Span.apart_of_not_overlaps ho e).resolve_left hle
      exact (hba.forest_eq_of_front hab e.symm hle' fun h => absurd h hle).symm
  · exact hab.forest_eq_of_elsewhere hba e

end Orders

section Acyclic

variable (ha : m.forest.Acyclic)
include ha

theorem span_second : k.span b = .ok { t' with length := ys.length } := by
  obtain ⟨_, _, _, _, hr⟩ := hab.first
  obtain ⟨_, _, _, _, hr'⟩ := hab.second
  exact hr'.span_self (hr.acyclic ha)

theorem content_second : k.content b = .ok ys := by
  obtain ⟨_, _, _, _, hr⟩ := hab.first
  obtain ⟨_, _, _, _, hr'⟩ := hab.second
  exact hr'.content_eq (hr.acyclic ha)

theorem content_first (hvalid : k.isValid a = true) : k.content a = .ok xs := by
  obtain ⟨_, _, _, _, hr⟩ := hab.first
  obtain ⟨_, _, _, _, hr'⟩ := hab.second
  obtain ⟨u, hu, hn⟩ := content_eq_ok_iff.1 (hr.content_eq ha)
  exact hr'.content_other hab.ne.symm hu hn hvalid

theorem span_first (hvalid : k.isValid a = true) : ∃ u,
    Span.whenReplaced { s with length := xs.length } t' ys.length = some u ∧ k.span a = .ok u := by
  obtain ⟨_, _, _, _, hr⟩ := hab.first
  obtain ⟨_, _, _, _, hr'⟩ := hab.second
  obtain ⟨u, hu⟩ := isValid_iff.1 hvalid
  exact ⟨u, ((hr'.span_iff hab.ne.symm (hr.span_self ha)).1 hu).1, hu⟩

/-- The first handle is not lost to the second replacement if the other order can be had too. -/
theorem isValid_first (hba : InTurn m mid' k' b a t s s' ts ss ys xs) : k.isValid a = true := by
  obtain ⟨_, _, _, _, hr⟩ := hab.first
  obtain ⟨_, _, _, _, hr'⟩ := hab.second
  obtain ⟨_, _, _, _, hb⟩ := hba.first
  obtain ⟨_, _, _, _, hb'⟩ := hba.second
  have hkept : mid'.isValid a = true := isValid_iff.2 ⟨s', hb'.span⟩
  have hout := Span.not_overlaps_of_moved hab.moved
  rw [← Bool.not_eq_false, hb.isValid_eq_false_iff ha hba.ne hba.span, not_or] at hkept
  rw [← Bool.not_eq_false, hr'.isValid_eq_false_iff (hr.acyclic ha) hab.ne.symm (hr.span_self ha),
    not_or]
  -- The first replacement does not change what leads to its own sequence.
  simp only [hout, Bool.false_eq_true, not_false_eq_true, true_and, hr.reachedFrom_self_iff ha]
  exact hkept.2

/-- What does not depend on the order. -/
theorem comm_iff (hba : InTurn m mid' k' b a t s s' ts ss ys xs) (ho : s.overlaps t = false) :
    k.forest = k'.forest ∧ k.span a = k'.span a ∧ k.span b = k'.span b ↔
      ¬s.Crowds t xs.length ys.length ∧ ¬t.Crowds s ys.length xs.length := by
  obtain ⟨u, hu, hku⟩ := hab.span_first ha (hab.isValid_first ha hba)
  obtain ⟨v, hv, hkv⟩ := hba.span_first ha (hba.isValid_first ha hab)
  have hspans := Span.replaced_comm_iff ho hab.moved hba.moved hu hv
  rw [hku, hkv, hab.span_second ha, hba.span_second ha, Except.ok.injEq, Except.ok.injEq,
    eq_comm (b := v), hspans]
  exact ⟨fun h => h.2, fun h => ⟨(hab.forest_eq hba ho h.1).symm, h⟩⟩

end Acyclic

end InTurn

section Found

variable {items : List Pattern} {p : Program} {f : Forest} {seq : SeqName} {start id : Nat}
  {found : Captures} {m₁ m₂ m₁₂ m₂₁ : Match}

/-- After any run of operations on a match just found, let two handles that do not overlap be
replaced one after the other, and both orders be made. Either way both handles have their new nodes.
The forest and the two spans are the same just if neither span crowds the other: lies empty where
the other starts and gets nodes, while the other is empty too and gets nodes, or is not empty and
gets none. -/
theorem replace_comm_iff (hp : Program.compileAll items = .ok p) (hf : f.Closed) (ha : f.Acyclic)
    (hc : f.contains seq = true) (hm : p.match? f seq start = .ok (some found))
    (run : Run (fun _ => True) (ofCaptures id p f found) m) (ne : a ≠ b)
    (hs : m.span a = .ok s) (ht : m.span b = .ok t) (ho : s.overlaps t = false)
    (h₁ : replace a xs m = .ok () m₁) (h₁₂ : replace b ys m₁ = .ok () m₁₂)
    (h₂ : replace b ys m = .ok () m₂) (h₂₁ : replace a xs m₂ = .ok () m₂₁) :
    (m₁₂.content a = .ok xs ∧ m₁₂.content b = .ok ys ∧
      m₂₁.content a = .ok xs ∧ m₂₁.content b = .ok ys) ∧
    (m₁₂.forest = m₂₁.forest ∧ m₁₂.span a = m₂₁.span a ∧ m₁₂.span b = m₂₁.span b ↔
      ¬s.Crowds t xs.length ys.length ∧ ¬t.Crowds s ys.length xs.length) := by
  obtain ⟨hclosed, hacyclic, hnodes⟩ := content_of_run hp hf ha hc hm run
  obtain ⟨ss, hss⟩ := hnodes a s hs
  obtain ⟨ts, hts⟩ := hnodes b t ht
  obtain ⟨t', hab⟩ := inTurn_of_replace hclosed ne hs ht hss hts h₁ h₁₂
  obtain ⟨s', hba⟩ := inTurn_of_replace hclosed ne.symm ht hs hts hss h₂ h₂₁
  have hfirst := hab.content_first hacyclic (hab.isValid_first hacyclic hba)
  have hfirst' := hba.content_first hacyclic (hba.isValid_first hacyclic hab)
  exact ⟨⟨hfirst, hab.content_second hacyclic, hba.content_second hacyclic, hfirst'⟩,
    hab.comm_iff hacyclic hba ho⟩

/-- An emptied capture and its neighbour are filled in either order. -/
theorem replace_comm_iff_beside :
    let items : List Pattern := [.named "x" [.any], .named "y" [.any]]
    let f := Forest.ofValue (.seq [.scalar (.int 1), .scalar (.int 2)])
    let m := ofCaptures 0 (Program.ofItems items) f
      ⟨⟨⟨0⟩, 0, 2⟩, [some ⟨⟨0⟩, 0, 1⟩, some ⟨⟨0⟩, 1, 1⟩]⟩
    let emptied := Operation.after (.replace ⟨0, 1⟩ []) m
    let x : Operation := .replace ⟨0, 1⟩ [.scalar (.int 3)]
    let y : Operation := .replace ⟨0, 2⟩ [.scalar (.int 4), .scalar (.int 5)]
    emptied.span ⟨0, 1⟩ = .ok ⟨⟨0⟩, 0, 0⟩ ∧ emptied.span ⟨0, 2⟩ = .ok ⟨⟨0⟩, 0, 1⟩ ∧
      (y.after (x.after emptied)).forest = (x.after (y.after emptied)).forest ∧
      (y.after (x.after emptied)).span ⟨0, 1⟩ = (x.after (y.after emptied)).span ⟨0, 1⟩ ∧
      (y.after (x.after emptied)).span ⟨0, 2⟩ = (x.after (y.after emptied)).span ⟨0, 2⟩ := by
  intro items f m emptied x y
  have hcompiled : Program.compileAll items = .ok (Program.ofItems items) := by rfl
  have hmatch : (Program.ofItems items).match? f f.root 0 =
      .ok (some ⟨⟨⟨0⟩, 0, 2⟩, [some ⟨⟨0⟩, 0, 1⟩, some ⟨⟨0⟩, 1, 1⟩]⟩) := by rfl
  have hrun : Run (fun _ => True) m emptied := .single ⟨_, trivial, rfl⟩
  have hx : emptied.span ⟨0, 1⟩ = .ok ⟨⟨0⟩, 0, 0⟩ := by rfl
  have hy : emptied.span ⟨0, 2⟩ = .ok ⟨⟨0⟩, 0, 1⟩ := by rfl
  have hcomm := replace_comm_iff hcompiled (Forest.closed_ofValue _) (Forest.acyclic_ofValue _)
    (Forest.contains_root_ofValue _) hmatch hrun (by decide) hx hy (by decide)
    (edit_eq_ok_after x (by decide +kernel)) (edit_eq_ok_after y (by decide +kernel))
    (edit_eq_ok_after y (by decide +kernel)) (edit_eq_ok_after x (by decide +kernel))
  exact ⟨hx, hy, hcomm.2.2 (by decide)⟩

/-- Two neighbours are emptied and filled again. The nodes that are put in last come in front. -/
theorem replace_emptied_neighbours_not_comm :
    let items : List Pattern := [.named "x" [.any], .named "y" [.any]]
    let f := Forest.ofValue (.seq [.scalar (.int 1), .scalar (.int 2)])
    let m := ofCaptures 0 (Program.ofItems items) f
      ⟨⟨⟨0⟩, 0, 2⟩, [some ⟨⟨0⟩, 0, 1⟩, some ⟨⟨0⟩, 1, 1⟩]⟩
    let first := Operation.after (.replace ⟨0, 1⟩ []) m
    let emptied := Operation.after (.replace ⟨0, 2⟩ []) first
    let x : Operation := .replace ⟨0, 1⟩ [.scalar (.int 3)]
    let y : Operation := .replace ⟨0, 2⟩ [.scalar (.int 4)]
    (Program.ofItems items).match? f f.root 0 =
        .ok (some ⟨⟨⟨0⟩, 0, 2⟩, [some ⟨⟨0⟩, 0, 1⟩, some ⟨⟨0⟩, 1, 1⟩]⟩) ∧
      Run (fun _ => True) m emptied ∧
      emptied.span ⟨0, 1⟩ = .ok ⟨⟨0⟩, 0, 0⟩ ∧ emptied.span ⟨0, 2⟩ = .ok ⟨⟨0⟩, 0, 0⟩ ∧
      Span.overlaps ⟨⟨0⟩, 0, 0⟩ ⟨⟨0⟩, 0, 0⟩ = false ∧
      (x.edit emptied = .ok () (x.after emptied) ∧
        y.edit (x.after emptied) = .ok () (y.after (x.after emptied))) ∧
      (y.edit emptied = .ok () (y.after emptied) ∧
        x.edit (y.after emptied) = .ok () (x.after (y.after emptied))) ∧
      (x.after (y.after emptied)).forest.children? ⟨0⟩ =
        some [.scalar (.int 3), .scalar (.int 4)] ∧
      (y.after (x.after emptied)).forest.children? ⟨0⟩ =
        some [.scalar (.int 4), .scalar (.int 3)] ∧
      (x.after (y.after emptied)).span ⟨0, 1⟩ = .ok ⟨⟨0⟩, 0, 1⟩ ∧
      (y.after (x.after emptied)).span ⟨0, 1⟩ = .ok ⟨⟨0⟩, 1, 1⟩ ∧
      (x.after (y.after emptied)).span ⟨0, 2⟩ = .ok ⟨⟨0⟩, 1, 1⟩ ∧
      (y.after (x.after emptied)).span ⟨0, 2⟩ = .ok ⟨⟨0⟩, 0, 1⟩ := by
  intro items f m first emptied x y
  have hfirst : Run (fun _ => True) m first := .single ⟨_, trivial, rfl⟩
  refine ⟨by rfl, hfirst.tail ⟨_, trivial, rfl⟩, by decide +kernel, by decide +kernel, by decide,
    ⟨?_, ?_⟩, ⟨?_, ?_⟩, ?_⟩
  · exact edit_eq_ok_after x (by decide +kernel)
  · exact edit_eq_ok_after y (by decide +kernel)
  · exact edit_eq_ok_after y (by decide +kernel)
  · exact edit_eq_ok_after x (by decide +kernel)
  · decide +kernel

end Found

end Match

end NestedRegex
