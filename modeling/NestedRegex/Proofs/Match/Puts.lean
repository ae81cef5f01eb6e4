import NestedRegex.Proofs.Forest.Edited
import NestedRegex.Proofs.Match.Edits

namespace NestedRegex.Match

open Forest

variable {m m' : Match} {h k : Handle} {front back : List Node} {n : Node} {s t u : Span}
  {v : Value}

/-- A new node, which shows `v`, stands in the place of a node. -/
structure Put (m m' : Match) (h : Handle) (s : Span) (front back : List Node) (v : Value)
    (n' : Node) (names : List SeqName) : Prop where
  get : ∀ name, m'.get? name = m.get? name
  whole : m'.whole = m.whole
  edited : m.forest.Edited m'.forest [s.seq]
  children : m'.forest.children? s.seq = some (front ++ n' :: back)
  shows : m'.forest.Shows v n' names
  fresh : ∀ x ∈ names, m.forest.contains x = false
  held : ∀ {k t}, k.index ≠ h.index → m'.span k = .ok t → m.span k = .ok t
  kept : ∀ {k t}, k.index ≠ h.index → m.span k = .ok t → m.forest.Reaches t.seq s.seq →
    (t.seq = s.seq → t.stop ≤ s.start ∨ s.stop ≤ t.start) → m'.span k = .ok t

/-- A name keeps its handle when spans move or are lost. -/
theorem get?_moved (m : Match) (move : Nat → Span → Option Span) (g : Forest) (name : String) :
    get? { m with forest := g, places := moved move m.places } name = m.get? name := by
  unfold get?
  cases m.program.slot? name with
  | none => rfl
  | some slot =>
    have hslot := isBound_moved move m.places (slot.index + 1)
    cases hm : (moved move m.places)[slot.index + 1]? <;> cases hp : m.places[slot.index + 1]? <;>
      simp_all [whole]

/-- Where as many nodes are put as there were, other spans stay or are lost. -/
theorem eq_of_whenReplaced (h : t.whenReplaced s s.length = some u) : u = t := by
  unfold Span.whenReplaced at h
  split at h
  · exact (Option.some.inj h).symm
  · split at h
    · rw [← Option.some.inj h, Nat.add_sub_cancel]
    · cases h

theorem whenReplaced_of_apart (h : t.seq = s.seq → t.stop ≤ s.start ∨ s.stop ≤ t.start) :
    t.whenReplaced s s.length = some t := by
  unfold Span.whenReplaced
  split
  · rfl
  · next hc =>
    rw [not_or, Decidable.not_not] at hc
    rw [if_pos ((h hc.1).resolve_left hc.2), Nat.add_sub_cancel]

section Replace

variable (hf : m.forest.Closed) (ha : m.forest.Acyclic)
  (hc : m.forest.children? s.seq = some (front ++ n :: back)) (hstart : s.start = front.length)
  (hlength : s.length = 1)
include hc hstart hlength

theorem nodes?_one : m.forest.nodes? s = some [n] :=
  nodes?_eq_some_iff.2 ⟨front, back, by simpa using hc, hstart.symm, hlength.symm⟩

/-- A handle of one node has this node. -/
theorem first_ok (hs : m.span h = .ok s) : m.first h = .ok n := by
  have hn := content_eq_ok_iff.2 ⟨s, hs, nodes?_one hc hstart hlength⟩
  simp only [first, hn]
  rfl

include hf ha

omit hstart in
/-- A loaded value that takes the place of a node. -/
theorem Replaced.put {names : List SeqName} {kept gone : NameSet}
    (hshows : (m.forest.load v).2.Shows v (m.forest.load v).1 names)
    (hfresh : ∀ x ∈ names, m.forest.contains x = false)
    (hr : Replaced { m with forest := (m.forest.load v).2 } m' h [(m.forest.load v).1] s front [n]
      back kept gone) : Put m m' h s front back v (m.forest.load v).1 names := by
  have hload := loaded_load v hf
  have there : m.forest.contains s.seq = true := contains_iff.2 ⟨_, hc⟩
  have hsplice := spliced_setChildren hr.before [(m.forest.load v).1]
  obtain rfl := hr.result
  have hother : ∀ {x nodes}, x ≠ s.seq → m.forest.children? x = some nodes →
      ((m.forest.load v).2.setChildren s.seq (front ++ [(m.forest.load v).1] ++ back)).children? x =
        some nodes := by
    intro x nodes hx hn
    rw [hsplice.other x hx]
    exact hload.grows.children hn
  have hmove : ∀ t : Span, t.whenReplaced s [(m.forest.load v).1].length =
      t.whenReplaced s s.length := by
    intro t
    rw [hlength]
    rfl
  refine ⟨get?_moved m _ _, rfl, ⟨?_, ?_, ?_, ?_, ?_⟩, ?_, ?_, hfresh, ?_, ?_⟩
  · exact hsplice.closed hload.closed hr.holds
  · exact hsplice.acyclic (hload.acyclic ha) hr.apart
  · exact hsplice.root.trans hload.grows.root
  · intro x hx
    rw [hsplice.contains]
    exact hload.grows.contains hx
  · exact fun hx hn => hother (fun e => hx (List.mem_singleton.2 e)) hn
  · rw [hsplice.after, List.append_assoc]
    rfl
  · refine hshows.congr fun x hx nodes hn => ?_
    rw [hsplice.other x fun e => ?_, hn]
    have hnot := hfresh x hx
    rw [e, there] at hnot
    cases hnot
  · intro k t hk hspan
    obtain ⟨hid, hplace⟩ := span_eq_ok_iff.1 hspan
    obtain ⟨u, hu, hmoved⟩ := held_moved.1 hplace
    rw [if_neg hk, hmove] at hmoved
    obtain ⟨hmoved, -⟩ := Option.filter_eq_some_iff.1 hmoved
    obtain rfl := eq_of_whenReplaced hmoved
    exact span_eq_ok_iff.2 ⟨hid, hu⟩
  · intro k t hk hspan hreach hapart
    obtain ⟨hid, hplace⟩ := span_eq_ok_iff.1 hspan
    refine span_eq_ok_iff.2 ⟨hid, held_moved.2 ⟨t, hplace, ?_⟩⟩
    have hgone : t.seq ∉ gone := by
      -- What went with the old node lies below it, and its sequence does not.
      intro hin
      have hself := (hload.acyclic ha).not_reachedFrom hr.before
      have hold : ¬(m.forest.load v).2.ReachedFrom [n] s.seq := fun h => hself (h.mono (by simp))
      have hbelow := (hsplice.reachedFrom_iff hold).1 ((hr.gone_iff t.seq).1 hin)
      have hthere : m.forest.contains t.seq = true := by
        rcases hreach.cases_head with e | ⟨c, hchild, -⟩
        · rw [e]
          exact there
        · exact hchild.contains
      exact hold (hbelow.trans ((hload.grows.reaches_iff hf hthere).2 hreach))
    rw [if_neg hk, hmove, whenReplaced_of_apart hapart]
    simp [Option.filter, hgone]

/-- A loaded value can take the place of a node. -/
theorem replace_loaded (hs : m.span h = .ok s) (v : Value) :
    ∃ m' names, replace h [(m.forest.load v).1] { m with forest := (m.forest.load v).2 } =
      .ok () m' ∧ Put m m' h s front back v (m.forest.load v).1 names := by
  have hload := loaded_load v hf
  obtain ⟨names, hshows, hfresh⟩ := shows_load v hf
  have there : m.forest.contains s.seq = true := contains_iff.2 ⟨_, hc⟩
  have hc' := hload.grows.children hc
  have hx : Forest.nodes? (m.forest.load v).2 s = some [n] :=
    nodes?_one (m := { m with forest := (m.forest.load v).2 }) hc' hstart hlength
  have apart : ¬(m.forest.load v).2.ReachedFrom [(m.forest.load v).1] s.seq := by
    intro hr
    have hnot := hload.fresh _ hr
    rw [there] at hnot
    cases hnot
  obtain ⟨m', front', back', kept, gone, hrun, hr⟩ :=
    replace_ok (m := { m with forest := (m.forest.load v).2 }) hload.closed hs hx hload.holds apart
  obtain ⟨rfl, rfl⟩ : front' = front ∧ back' = back := by
    have hb : front' ++ [n] ++ back' = front ++ [n] ++ back :=
      Option.some.inj (hr.before.symm.trans (by simpa using hc'))
    obtain ⟨hleft, hright⟩ := List.append_inj hb (by simp [hr.start, hstart])
    exact ⟨List.append_cancel_right hleft, hright⟩
  exact ⟨m', names, hrun, hr.put hf ha hc hlength hshows hfresh⟩

/-- A new value can take the place of a node. -/
theorem putValue_ok (hs : m.span h = .ok s) (v : Value) :
    ∃ m' n' names, putValues h [v] m = .ok () m' ∧ Put m m' h s front back v n' names := by
  have hn := content_eq_ok_iff.2 ⟨s, hs, nodes?_one hc hstart hlength⟩
  obtain ⟨m', names, hrun, hput⟩ := replace_loaded hf ha hc hstart hlength hs v
  exact ⟨m', _, names, (putValues_eq hn [v]).trans hrun, hput⟩

/-- A copy of another node can take the place of a node. -/
theorem putCopy_ok (hs : m.span h = .ok s) {source : Node} {t : Span} {frontT backT : List Node}
    (ht : m.span k = .ok t) (hct : m.forest.children? t.seq = some (frontT ++ source :: backT))
    (hstartT : t.start = frontT.length) (hlengthT : t.length = 1) :
    ∃ m' n' names, putCopies h k m = .ok () m' ∧
      Put m m' h s front back (m.forest.value source) n' names := by
  have hn := content_eq_ok_iff.2 ⟨s, hs, nodes?_one hc hstart hlength⟩
  have hnt := content_eq_ok_iff.2 ⟨t, ht, nodes?_one hct hstartT hlengthT⟩
  have holds : m.forest.Holds [source] := hf.holds_of_mem hct (by simp)
  obtain ⟨m', names, hrun, hput⟩ :=
    replace_loaded hf ha hc hstart hlength hs (m.forest.value source)
  refine ⟨m', _, names, ?_, hput⟩
  unfold putCopies
  rw [Edit.bind_ok (Edit.ask_ok hn), Edit.bind_ok (Edit.ask_ok hnt), List.mapM_cons]
  simp only [bind_assoc]
  rw [Edit.bind_ok (copy_ok hf ha holds)]
  exact hrun

end Replace

/-- Two nodes next to each other changed places. -/
structure Flipped (m m' : Match) (seq : SeqName) (front back : List Node) (n n' : Node) :
    Prop where
  get : ∀ name, m'.get? name = m.get? name
  whole : m'.whole = m.whole
  edited : m.forest.Edited m'.forest [seq]
  children : m'.forest.children? seq = some (front ++ n' :: n :: back)
  held : ∀ {k t}, m'.span k = .ok t → ∃ u, m.span k = .ok u ∧ (u.seq ≠ seq → t = u)

/-- A swap of two nodes next to each other turns them round and leaves what is around them. -/
theorem Swapped.neighbours {seq : SeqName} {n' : Node} {xs ys frontX backX frontY backY : List Node}
    (hc : m.forest.children? seq = some (front ++ n :: n' :: back))
    (hs : Swapped m m' h k ⟨seq, front.length, 1⟩ ⟨seq, front.length + 1, 1⟩ xs ys frontX backX
      frontY backY) : Spliced m.forest m'.forest seq front [n, n'] [n', n] back := by
  have hy : (front ++ [n]) ++ ([n'] ++ back) = frontY ++ (ys ++ backY) := by
    have hbefore := Option.some.inj (hc.symm.trans hs.beforeY)
    simpa using hbefore
  obtain ⟨rfl, hrestY⟩ := List.append_inj hy (by simp [hs.startY])
  obtain ⟨rfl, rfl⟩ := List.append_inj hrestY (by simp [hs.lengthY])
  have hmid := spliced_setChildren hs.beforeY xs
  have hx : front ++ ([n] ++ (xs ++ back)) = frontX ++ (xs ++ backX) := by
    have hbefore := Option.some.inj (hmid.after.symm.trans hs.beforeX)
    simpa using hbefore
  obtain ⟨rfl, hrestX⟩ := List.append_inj hx (by simp [hs.startX])
  obtain ⟨rfl, rfl⟩ := List.append_inj hrestX (by simp [hs.lengthX])
  have hgiven := spliced_setChildren hs.beforeX [n']
  obtain rfl := hs.result
  refine ⟨by simpa using hc, ?_, fun x hx => ?_, rfl⟩
  · refine hgiven.after.trans ?_
    simp
  · exact (hgiven.other x hx).trans (hmid.other x hx)

/-- Two nodes next to each other can change places. -/
theorem swap_neighbours {seq : SeqName} {n' : Node} (hf : m.forest.Closed) (ha : m.forest.Acyclic)
    (hc : m.forest.children? seq = some (front ++ n :: n' :: back))
    (hh : m.span h = .ok ⟨seq, front.length + 1, 1⟩) (hk : m.span k = .ok ⟨seq, front.length, 1⟩) :
    ∃ m', swap h k m = .ok () m' ∧ Flipped m m' seq front back n n' := by
  have hnk : m.forest.nodes? ⟨seq, front.length, 1⟩ = some [n] :=
    nodes?_eq_some_iff.2 ⟨front, n' :: back, by simpa using hc, rfl, rfl⟩
  have hnh : m.forest.nodes? ⟨seq, front.length + 1, 1⟩ = some [n'] :=
    nodes?_eq_some_iff.2 ⟨front ++ [n], back, by simpa using hc, by simp, rfl⟩
  have hself := ha.not_reachedFrom hc
  obtain ⟨m', x, y, xs, ys, frontX, backX, frontY, backY, hrun, hs⟩ :=
    swap_ok hf hh hk hnh hnk (by simp [Span.overlaps, Span.stop])
      (fun hr => hself (hr.mono (by simp))) fun hr => hself (hr.mono (by simp))
  obtain ⟨rfl, rfl⟩ : x = ⟨seq, front.length, 1⟩ ∧ y = ⟨seq, front.length + 1, 1⟩ := by
    have horder := hs.order
    rcases hs.spans with ⟨hx, hy⟩ | ⟨hx, hy⟩
    · obtain rfl := Except.ok.inj (hh.symm.trans hx)
      obtain rfl := Except.ok.inj (hk.symm.trans hy)
      have hle := horder rfl
      simp only [Span.stop] at hle
      omega
    · exact ⟨(Except.ok.inj (hk.symm.trans hy)).symm, (Except.ok.inj (hh.symm.trans hx)).symm⟩
  have hsplice := hs.neighbours hc
  have hsub : [n', n] ⊆ front ++ n :: n' :: back := by simp
  have hclosed := hsplice.closed hf ((hf _ _ hc).mono hsub)
  have hacyclic := hsplice.acyclic ha fun hr => hself (hr.mono hsub)
  obtain rfl := hs.result
  refine ⟨_, hrun, get?_moved m _ _, rfl, ⟨hclosed, hacyclic, hsplice.root, ?_, ?_⟩, ?_, ?_⟩
  · intro x hx
    rw [hsplice.contains]
    exact hx
  · intro x nodes hx hn
    rw [hsplice.other x fun e => hx (List.mem_singleton.2 e), hn]
  · simpa using hsplice.after
  · intro k t hspan
    obtain ⟨hid, hplace⟩ := span_eq_ok_iff.1 hspan
    obtain ⟨u, hu, hmoved⟩ := held_moved.1 hplace
    refine ⟨u, span_eq_ok_iff.2 ⟨hid, hu⟩, fun hne => ?_⟩
    rw [Span.whenSwapped, if_pos rfl, Span.whenExchangedWithin, if_pos hne] at hmoved
    exact (Option.some.inj hmoved).symm

section Overwrite

variable {seq : SeqName} {a : Scalar} {nodes : List Node}

/-- The match with another scalar at the head of a sequence. -/
def withHead (m : Match) (seq : SeqName) (a : Scalar) (nodes : List Node) : Match :=
  { m with forest := m.forest.setChildren seq (.scalar a :: nodes) }

theorem setHead_ok (hc : m.forest.children? seq = some (n :: nodes)) :
    Edit.setChild seq 0 (.scalar a) m = .ok () (m.withHead seq a nodes) := by
  obtain ⟨row, hr, hrow⟩ := Option.map_eq_some_iff.1 hc
  obtain rfl : row = (n :: nodes).toArray := Array.toList_inj.1 (by simpa using hrow)
  have hover : m.forest.overwritten seq 0 (.scalar a) =
      .ok (n, (Node.scalar a :: nodes).toArray) := by
    simp only [overwritten, row_eq_ok_iff.2 hr, bind, Except.bind]
    simp [pure, Except.pure]
  have hlook : Edit.look (·.overwritten seq 0 (.scalar a)) m =
      .ok (n, (Node.scalar a :: nodes).toArray) m := Edit.look_ok hover
  exact Edit.bind_ok (Edit.bind_ok hlook)

/-- Another scalar at the head of a sequence changes nothing else. -/
theorem edited_withHead (hf : m.forest.Closed) (ha : m.forest.Acyclic)
    (hc : m.forest.children? seq = some (n :: nodes)) :
    m.forest.Edited (m.withHead seq a nodes).forest [seq] ∧
      (m.withHead seq a nodes).forest.children? seq = some (.scalar a :: nodes) := by
  have hsplit : m.forest.children? seq = some ([] ++ [n] ++ nodes) := hc
  have hsplice := spliced_setChildren hsplit [.scalar a]
  refine ⟨⟨hsplice.closed hf ?_, hsplice.acyclic ha ?_, rfl, ?_, ?_⟩, hsplice.after⟩
  · intro id hm
    simp at hm
  · rintro ⟨top, hm, -⟩
    simp at hm
  · intro x hx
    exact (hsplice.contains x).trans hx
  · intro x nodes' hx hn
    exact (hsplice.other x fun e => hx (List.mem_singleton.2 e)).trans hn

end Overwrite

end NestedRegex.Match
