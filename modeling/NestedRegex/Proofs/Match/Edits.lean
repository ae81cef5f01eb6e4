import NestedRegex.Match.Edit
import NestedRegex.Proofs.Forest.Load
import NestedRegex.Proofs.Forest.Reachable
import NestedRegex.Proofs.Forest.Spans
import NestedRegex.Proofs.Forest.Values

namespace NestedRegex

namespace Edit

variable {α β : Type} {x : Edit α} {next : α → Edit β} {a : α} {e : Failure HandleError}
  {m m' : Match}

theorem bind_ok (h : x m = .ok a m') : (x >>= next) m = next a m' := by
  simp only [bind, EStateM.bind, h]

theorem bind_error (h : x m = .error e m') : (x >>= next) m = .error e m' := by
  simp only [bind, EStateM.bind, h]

theorem ask_ok {question : Match → Except HandleError α} (h : question m = .ok a) :
    ask question m = .ok a m := by
  simp only [ask, h]

theorem ask_error {question : Match → Except HandleError α} {e : HandleError}
    (h : question m = .error e) : ask question m = .error (.error e) m := by
  simp only [ask, h]

theorem look_ok {question : Forest → Except Fault α} (h : question m.forest = .ok a) :
    look question m = .ok a m := by
  simp only [look, h]

theorem look_error {question : Forest → Except Fault α} {e : Fault}
    (h : question m.forest = .error e) : look question m = .error (.fault e) m := by
  simp only [look, h]

theorem splice_ok {s : Span} {front xs new back : List Node}
    (hc : m.forest.children? s.seq = some (front ++ xs ++ back)) (hf : front.length = s.start)
    (hx : xs.length = s.length) : splice s new m =
      .ok xs { m with forest := m.forest.setChildren s.seq (front ++ new ++ back) } := by
  have hs : m.forest.spliced s.seq s.start s.stop new =
      .ok (xs, (front ++ new ++ back).toArray) := by
    rw [Span.stop, ← hf, ← hx]
    exact Forest.spliced_ok hc
  have hl : look (·.spliced s.seq s.start s.stop new) m =
      .ok (xs, (front ++ new ++ back).toArray) m := look_ok hs
  exact bind_ok hl

end Edit

namespace Match

variable {m m' : Match} {h : Handle} {nodes : List Node}

/-- Where the places of a match go. -/
def moved (move : Nat → Span → Option Span) (places : List Place) : List Place :=
  places.mapIdx fun i place => match place with
    | .held s => match move i s with
      | some t => .held t
      | none => .invalidated
    | place => place

theorem held_moved {move : Nat → Span → Option Span} {places : List Place} {i : Nat} {t : Span} :
    (moved move places)[i]? = some (.held t) ↔
      ∃ s, places[i]? = some (.held s) ∧ move i s = some t := by
  rw [moved, List.getElem?_mapIdx]
  cases places[i]? with
  | none => simp
  | some place =>
    cases place with
    | unbound => simp
    | invalidated => simp
    | held s => cases hs : move i s <;> simp [hs]

/-- A name that took part in the match did so for good. -/
theorem isBound_moved (move : Nat → Span → Option Span) (places : List Place) (i : Nat) :
    (moved move places)[i]?.map Place.isBound = places[i]?.map Place.isBound := by
  rw [moved, List.getElem?_mapIdx]
  cases places[i]? with
  | none => rfl
  | some place =>
    cases place with
    | unbound => rfl
    | invalidated => rfl
    | held s => cases hs : move i s <;> simp [hs, Place.isBound]

theorem span_eq_ok_iff {s : Span} :
    m.span h = .ok s ↔ h.matchId = m.id ∧ m.places[h.index]? = some (.held s) := by
  unfold span
  by_cases hid : h.matchId = m.id
  · rw [if_neg (not_not.2 hid)]
    cases m.places[h.index]? with
    | none => simp
    | some place => cases place <;> simp [hid]
  · rw [if_pos hid]
    simp [hid]

/-- The nodes of a handle are those of its span. -/
theorem contentUpTo_eq_ok_iff {stop : Span → Nat} :
    m.contentUpTo stop h = .ok nodes ↔
      ∃ s, m.span h = .ok s ∧ m.forest.nodesIn? s.seq s.start (stop s) = some nodes := by
  unfold contentUpTo
  cases hs : m.span h with
  | error e => simp [bind, Except.bind]
  | ok s =>
    cases hn : m.forest.nodesIn? s.seq s.start (stop s) <;>
      simp [bind, Except.bind, hn, pure, Except.pure, throw, throwThe, MonadExceptOf.throw]

theorem content_eq_ok_iff :
    m.content h = .ok nodes ↔ ∃ s, m.span h = .ok s ∧ m.forest.nodes? s = some nodes :=
  contentUpTo_eq_ok_iff

theorem isValid_iff : m.isValid h = true ↔ ∃ s, m.span h = .ok s := by
  unfold isValid
  cases m.span h with
  | error e => simp [Except.isOk, Except.toBool]
  | ok s => simp [Except.isOk, Except.toBool]

/-- A handle that has nodes is valid. -/
theorem isValid_of_content (hn : m.content h = .ok nodes) : m.isValid h = true := by
  obtain ⟨s, hs, -⟩ := content_eq_ok_iff.1 hn
  exact isValid_iff.2 ⟨s, hs⟩

/-- An edit put nodes that do not lead to its sequence in the place of the nodes `old` of a span. -/
structure Replaced (m m' : Match) (h : Handle) (nodes : List Node) (s : Span)
    (front old back : List Node) (kept gone : NameSet) : Prop where
  span : m.span h = .ok s
  before : m.forest.children? s.seq = some (front ++ old ++ back)
  start : front.length = s.start
  length : old.length = s.length
  holds : m.forest.Holds nodes
  kept_iff : ∀ id, id ∈ kept ↔ m.forest.ReachedFrom nodes id
  apart : ¬m.forest.ReachedFrom nodes s.seq
  gone_iff : ∀ id, id ∈ gone ↔ m'.forest.ReachedFrom old id
  result : m' = { m with
    forest := m.forest.setChildren s.seq (front ++ nodes ++ back)
    places := moved (fun i t =>
      (if i = h.index then some { s with length := nodes.length }
        else t.whenReplaced s nodes.length).filter fun t => t.seq ∉ gone || t.seq ∈ kept) m.places }

section Replace

variable {stop : Span → Nat} {move : Span → (SeqName → Bool) → Edit Unit} {s : Span}
  {old : List Node}

/-- A handle that has no nodes cannot be edited. -/
theorem replaceBy_refused {e : HandleError} (hn : m.contentUpTo stop h = .error e) :
    replaceBy stop move h nodes m = .error (.error e) m := by
  unfold replaceBy
  cases hs : m.span h with
  | error e' =>
    have hspan : m.contentUpTo stop h = .error e' := by
      rw [contentUpTo, hs]
      rfl
    obtain rfl : e' = e := Except.error.inj (hspan.symm.trans hn)
    exact Edit.bind_error (Edit.ask_error hs)
  | ok s => rw [Edit.bind_ok (Edit.ask_ok hs), Edit.bind_error (Edit.ask_error hn)]

/-- Nodes that lead back to the sequence of a span are not put in its place. -/
theorem replaceBy_cyclic (hf : m.forest.Closed) (hs : m.span h = .ok s) (hstop : stop s = s.stop)
    (hx : m.forest.nodes? s = some old) (holds : m.forest.Holds nodes)
    (back : m.forest.ReachedFrom nodes s.seq) : replaceBy stop move h nodes m =
      .error (.error (.cyclicReplace (m.nameAt h.index))) m := by
  obtain ⟨kept, hk⟩ := Forest.reachable_of_closed hf holds
  have hn : m.contentUpTo stop h = .ok old := contentUpTo_eq_ok_iff.2 ⟨s, hs, hstop ▸ hx⟩
  unfold replaceBy
  rw [Edit.bind_ok (Edit.ask_ok hs), Edit.bind_ok (Edit.ask_ok hn),
    Edit.bind_ok (Edit.look_ok hk), if_pos ((Forest.mem_reachable hk).2 back)]
  rfl

/-- A replacement is made if its nodes are there and do not lead back to its sequence. The forest it
makes does not depend on how the spans are moved then. -/
theorem replaceBy_ok (hf : m.forest.Closed) (hs : m.span h = .ok s)
    (hx : m.forest.nodes? s = some old) (holds : m.forest.Holds nodes)
    (apart : ¬m.forest.ReachedFrom nodes s.seq) :
    ∃ m' front back kept gone, Replaced m m' h nodes s front old back kept gone ∧
      ∀ stop move, stop s = s.stop → replaceBy stop move h nodes m =
        move s (fun id => id ∉ gone || id ∈ kept) { m with forest := m'.forest } := by
  obtain ⟨front, back, hb, hfront, hold⟩ := Forest.nodes?_eq_some_iff.1 hx
  obtain ⟨kept, hk⟩ := Forest.reachable_of_closed hf holds
  have hc : s.seq ∉ kept := fun hin => apart ((Forest.mem_reachable hk).1 hin)
  have hsplice := Forest.spliced_setChildren hb nodes
  have hgone : (m.forest.setChildren s.seq (front ++ nodes ++ back)).Holds old :=
    hsplice.holds.2 (hf.holds_of_nodes? hx)
  obtain ⟨gone, hg⟩ := Forest.reachable_of_closed (hsplice.closed hf holds) hgone
  let m' : Match := { m with
    forest := m.forest.setChildren s.seq (front ++ nodes ++ back)
    places := moved (fun i t =>
      (if i = h.index then some { s with length := nodes.length }
        else t.whenReplaced s nodes.length).filter fun t => t.seq ∉ gone || t.seq ∈ kept)
      m.places }
  have hdone : Replaced m m' h nodes s front old back kept gone :=
    { span := hs
      before := hb
      start := hfront
      length := hold
      holds
      kept_iff := fun id => Forest.mem_reachable hk
      apart
      gone_iff := fun id => Forest.mem_reachable hg
      result := rfl }
  refine ⟨m', front, back, kept, gone, hdone, fun stop move hstop => ?_⟩
  have hn : m.contentUpTo stop h = .ok old := contentUpTo_eq_ok_iff.2 ⟨s, hs, hstop ▸ hx⟩
  unfold replaceBy
  rw [Edit.bind_ok (Edit.ask_ok hs), Edit.bind_ok (Edit.ask_ok hn),
    Edit.bind_ok (Edit.look_ok hk), if_neg hc, hstop]
  beta_reduce
  exact (Edit.bind_ok (Edit.splice_ok hb hfront hold)).trans (Edit.bind_ok (Edit.look_ok hg))

/-- With nodes that are there it is refused or made, however spans are moved. -/
theorem replaceBy_cases (hf : m.forest.Closed) (hs : m.span h = .ok s)
    (hx : m.forest.nodes? s = some old) (holds : m.forest.Holds nodes) :
    (∃ e, ∀ stop move, stop s = s.stop →
      replaceBy stop move h nodes m = .error (.error e) m) ∨
      ∃ m' front back kept gone, Replaced m m' h nodes s front old back kept gone ∧
        ∀ stop move, stop s = s.stop → replaceBy stop move h nodes m =
          move s (fun id => id ∉ gone || id ∈ kept) { m with forest := m'.forest } := by
  by_cases hback : m.forest.ReachedFrom nodes s.seq
  · exact .inl ⟨_, fun _ _ hstop => replaceBy_cyclic hf hs hstop hx holds hback⟩
  · exact .inr (replaceBy_ok hf hs hx holds hback)

theorem replace_ok (hf : m.forest.Closed) (hs : m.span h = .ok s)
    (hx : m.forest.nodes? s = some old) (holds : m.forest.Holds nodes)
    (apart : ¬m.forest.ReachedFrom nodes s.seq) :
    ∃ m' front back kept gone, replace h nodes m = .ok () m' ∧
      Replaced m m' h nodes s front old back kept gone := by
  obtain ⟨m', front, back, kept, gone, hr, hrun⟩ := replaceBy_ok hf hs hx holds apart
  refine ⟨m', front, back, kept, gone, (hrun _ _ rfl).trans ?_, hr⟩
  rw [hr.result]
  rfl

end Replace

/-- A replacement is refused, or it is made. -/
theorem replace_cases (hf : m.forest.Closed) (h : Handle) (nodes : List Node) :
    (∃ e, replace h nodes m = .error e m) ∨
      ∃ m' s front old back kept gone, replace h nodes m = .ok () m' ∧
        Replaced m m' h nodes s front old back kept gone := by
  cases hn : m.content h with
  | error e => exact .inl ⟨_, replaceBy_refused hn⟩
  | ok old =>
    obtain ⟨s, hs, hx⟩ := content_eq_ok_iff.1 hn
    cases hk : m.forest.reachable nodes with
    | error e =>
      refine .inl ?_
      unfold replace replaceBy
      rw [Edit.bind_ok (Edit.ask_ok hs), Edit.bind_ok (Edit.ask_ok hn)]
      exact ⟨_, Edit.bind_error (Edit.look_error hk)⟩
    | ok kept =>
      have holds := Forest.holds_of_reachable hk
      by_cases hback : m.forest.ReachedFrom nodes s.seq
      · exact .inl ⟨_, replaceBy_cyclic hf hs rfl hx holds hback⟩
      · obtain ⟨m', front, back, kept, gone, hdone⟩ := replace_ok hf hs hx holds hback
        exact .inr ⟨m', s, front, old, back, kept, gone, hdone⟩

/-- New values are loaded first. -/
theorem putValues_eq {old : List Node} (hn : m.content h = .ok old) (values : List Value) :
    putValues h values m = replace h (m.forest.loadItems values).1
      { m with forest := (m.forest.loadItems values).2 } := by
  unfold putValues
  rw [Edit.bind_ok (Edit.ask_ok hn)]
  rfl

/-- New values are loaded first, and their nodes take the place of the handle's. -/
theorem putValues_cases (hf : m.forest.Closed) (h : Handle) (values : List Value) :
    (∃ e, putValues h values m = .error e m) ∨
      ∃ g nodes, Forest.Loaded m.forest g nodes ∧
        putValues h values m = replace h nodes { m with forest := g } := by
  cases hn : m.content h with
  | error e => exact .inl ⟨_, Edit.bind_error (Edit.ask_error hn)⟩
  | ok old => exact .inr ⟨_, _, Forest.loaded_loadItems values hf, putValues_eq hn values⟩

/-- A copy is the value of a node, loaded. -/
theorem copy_ok {n : Node} (hf : m.forest.Closed) (ha : m.forest.Acyclic)
    (hn : m.forest.Holds [n]) :
    Edit.copy n m = .ok (m.forest.load (m.forest.value n)).1
      { m with forest := (m.forest.load (m.forest.value n)).2 } := by
  unfold Edit.copy
  rw [Edit.bind_ok (Edit.look_ok (Forest.read_ok hf ha hn))]
  rfl

/-- Copies are the values of the nodes, loaded: no copy changes what the next one is made of. -/
theorem mapM_copy_eq (hf : m.forest.Closed) (ha : m.forest.Acyclic) (hn : m.forest.Holds nodes) :
    nodes.mapM Edit.copy m = .ok (m.forest.loadItems (nodes.map m.forest.value)).1
      { m with forest := (m.forest.loadItems (nodes.map m.forest.value)).2 } := by
  induction nodes generalizing m with
  | nil => rfl
  | cons n nodes ih =>
    have hone : m.forest.Holds [n] := hn.mono (List.cons_subset_cons n (List.nil_subset nodes))
    have hload := Forest.loaded_load (m.forest.value n) hf
    have hrest : m.forest.Holds nodes := hn.mono (List.subset_cons_self n nodes)
    have hvalues : nodes.map (m.forest.load (m.forest.value n)).2.value =
        nodes.map m.forest.value := List.map_congr_left fun k hk =>
      hload.grows.value hf ha hload.closed (hload.acyclic ha) (hrest.mono (by simpa using hk))
    have hcopies := ih (m := { m with forest := (m.forest.load (m.forest.value n)).2 })
      hload.closed (hload.acyclic ha) (hload.grows.holds hrest)
    rw [List.mapM_cons, Edit.bind_ok (copy_ok hf ha hone), Edit.bind_ok hcopies]
    dsimp only
    rw [hvalues]
    rfl

/-- Putting copies is putting the values that the source reads as. -/
theorem putCopies_eq_putValues {source : Handle} (hf : m.forest.Closed) (ha : m.forest.Acyclic)
    (hn : m.content source = .ok nodes) :
    putCopies h source m = putValues h (nodes.map m.forest.value) m := by
  obtain ⟨s, -, hs⟩ := content_eq_ok_iff.1 hn
  unfold putCopies putValues
  cases hx : m.content h with
  | error e =>
    exact (Edit.bind_error (Edit.ask_error hx)).trans (Edit.bind_error (Edit.ask_error hx)).symm
  | ok old =>
    rw [Edit.bind_ok (Edit.ask_ok hx), Edit.bind_ok (Edit.ask_ok hn),
      Edit.bind_ok (mapM_copy_eq hf ha (hf.holds_of_nodes? hs)), Edit.bind_ok (Edit.ask_ok hx)]
    rfl

/-- The nodes of the other handle are copied, and the copies take the place of the handle's. -/
theorem putCopies_cases (hf : m.forest.Closed) (ha : m.forest.Acyclic) (h source : Handle) :
    (∃ e, putCopies h source m = .error e m) ∨
      ∃ g nodes, Forest.Loaded m.forest g nodes ∧
        putCopies h source m = replace h nodes { m with forest := g } := by
  cases hs : m.content source with
  | error e =>
    unfold putCopies
    cases hn : m.content h with
    | error e => exact .inl ⟨_, Edit.bind_error (Edit.ask_error hn)⟩
    | ok old =>
      rw [Edit.bind_ok (Edit.ask_ok hn)]
      exact .inl ⟨_, Edit.bind_error (Edit.ask_error hs)⟩
  | ok nodes =>
    rw [putCopies_eq_putValues hf ha hs]
    exact putValues_cases hf h _

/-- Two spans exchanged their nodes: `x` and `y`, in this order if they lie in one sequence. The
nodes `xs` came to the place of `y` first, between `frontY` and `backY`. -/
structure Swapped (m m' : Match) (a b : Handle) (x y : Span) (xs ys frontX backX frontY backY :
    List Node) : Prop where
  spans : m.span a = .ok x ∧ m.span b = .ok y ∨ m.span a = .ok y ∧ m.span b = .ok x
  order : x.seq = y.seq → x.stop ≤ y.start
  apartX : ¬m.forest.ReachedFrom xs y.seq
  apartY : ¬m.forest.ReachedFrom ys x.seq
  beforeY : m.forest.children? y.seq = some (frontY ++ ys ++ backY)
  startY : frontY.length = y.start
  lengthY : ys.length = y.length
  beforeX : (m.forest.setChildren y.seq (frontY ++ xs ++ backY)).children? x.seq =
    some (frontX ++ xs ++ backX)
  startX : frontX.length = x.start
  lengthX : xs.length = x.length
  result : m' = { m with
    forest := (m.forest.setChildren y.seq (frontY ++ xs ++ backY)).setChildren x.seq
      (frontX ++ ys ++ backX)
    places := moved (fun _ s => s.whenSwapped x y) m.places }

/-- The span that comes first, of two that do not overlap. -/
theorem stop_le_of_not_overlaps {s t : Span} (h : s.overlaps t = false) (hs : s.seq = t.seq)
    (hb : t.before s = false) : s.stop ≤ t.start := by
  simp only [Span.overlaps, hs, true_and, decide_eq_false_iff_not] at h
  simp only [Span.before, decide_eq_false_iff_not] at hb
  simp only [Span.stop] at h hb ⊢
  omega

theorem stop_le_of_before {s t : Span} (h : s.overlaps t = false) (hs : s.seq = t.seq)
    (hb : t.before s = true) : t.stop ≤ s.start := by
  simp only [Span.overlaps, hs, true_and, decide_eq_false_iff_not] at h
  simp only [Span.before, decide_eq_true_eq] at hb
  simp only [Span.stop] at h hb ⊢
  omega

/-- The two splices of a swap. -/
theorem swap_splices {x y : Span} {xs ys : List Node} (hx : m.forest.nodes? x = some xs)
    (hy : m.forest.nodes? y = some ys) (order : x.seq = y.seq → x.stop ≤ y.start) :
    ∃ frontX backX frontY backY,
      m.forest.children? y.seq = some (frontY ++ ys ++ backY) ∧ frontY.length = y.start ∧
      (m.forest.setChildren y.seq (frontY ++ xs ++ backY)).children? x.seq =
        some (frontX ++ xs ++ backX) ∧ frontX.length = x.start := by
  by_cases e : x.seq = y.seq
  · -- The first span lies in front of the second, where the first splice changes nothing.
    obtain ⟨front, between, back, hc, hfront, hlx, hbetween, -⟩ :=
      Forest.exists_between hx hy e (order e)
    have hset := (Forest.spliced_setChildren (e ▸ hc) xs).after
    refine ⟨front, between ++ xs ++ back, front ++ xs ++ between, back, e ▸ hc, ?_, ?_, hfront⟩
    · simp only [Span.stop] at hbetween
      simp only [List.length_append]
      omega
    · rw [e, hset]
      simp only [List.append_assoc]
  · obtain ⟨frontX, backX, hcx, hfx, -⟩ := Forest.nodes?_eq_some_iff.1 hx
    obtain ⟨frontY, backY, hcy, hfy, -⟩ := Forest.nodes?_eq_some_iff.1 hy
    refine ⟨frontX, backX, frontY, backY, hcy, hfy, ?_, hfx⟩
    rw [(Forest.spliced_setChildren hcy xs).other _ e, hcx]

/-- The part of a swap that changes the forest. -/
theorem exchange_ok {a b : Handle} {x y : Span} {xs ys : List Node}
    (spans : m.span a = .ok x ∧ m.span b = .ok y ∨ m.span a = .ok y ∧ m.span b = .ok x)
    (hx : m.forest.nodes? x = some xs) (hy : m.forest.nodes? y = some ys)
    (order : x.seq = y.seq → x.stop ≤ y.start) (apartX : ¬m.forest.ReachedFrom xs y.seq)
    (apartY : ¬m.forest.ReachedFrom ys x.seq) :
    ∃ m' frontX backX frontY backY, Swapped m m' a b x y xs ys frontX backX frontY backY ∧
      ∀ move : Edit Unit, (do
        let _ ← Edit.splice y xs
        let _ ← Edit.splice x ys
        move : Edit Unit) m = move { m with forest := m'.forest } := by
  obtain ⟨frontX, backX, frontY, backY, hcy, hfy, hcx, hfx⟩ := swap_splices hx hy order
  have hlx := Forest.length_of_nodes? hx
  have hly := Forest.length_of_nodes? hy
  refine ⟨_, frontX, backX, frontY, backY,
    ⟨spans, order, apartX, apartY, hcy, hfy, hly, hcx, hfx, hlx, rfl⟩, fun move => ?_⟩
  rw [Edit.bind_ok (Edit.splice_ok hcy hfy hly), Edit.bind_ok (Edit.splice_ok hcx hfx hlx)]

section Swap

variable {stop : Span → Nat} {move : Span → Span → Edit Unit} {a b : Handle} {s t : Span}
  {ss ts : List Node}

/-- Two handles of which one has no nodes cannot be edited, however spans are moved. -/
theorem swapBy_refused {e : HandleError}
    (hn : m.contentUpTo stop a = .error e ∨ m.contentUpTo stop b = .error e) :
    ∃ e, ∀ stop' move, m.contentUpTo stop' a = m.contentUpTo stop a →
      m.contentUpTo stop' b = m.contentUpTo stop b →
        swapBy stop' move a b m = .error (.error e) m := by
  cases hs : m.span a with
  | error e => exact ⟨e, fun _ _ _ _ => Edit.bind_error (Edit.ask_error hs)⟩
  | ok s =>
    cases ht : m.span b with
    | error e =>
      refine ⟨e, fun stop' move _ _ => ?_⟩
      unfold swapBy
      rw [Edit.bind_ok (Edit.ask_ok hs), Edit.bind_error (Edit.ask_error ht)]
    | ok t =>
      cases hss : m.contentUpTo stop a with
      | error e =>
        refine ⟨e, fun stop' move ha _ => ?_⟩
        unfold swapBy
        rw [Edit.bind_ok (Edit.ask_ok hs), Edit.bind_ok (Edit.ask_ok ht),
          Edit.bind_error (Edit.ask_error ha)]
      | ok ss =>
        have hts : m.contentUpTo stop b = .error e := hn.resolve_left (by simp [hss])
        refine ⟨e, fun stop' move ha hb => ?_⟩
        unfold swapBy
        rw [Edit.bind_ok (Edit.ask_ok hs), Edit.bind_ok (Edit.ask_ok ht),
          Edit.bind_ok (Edit.ask_ok ha), Edit.bind_error (Edit.ask_error (hb.trans hts))]

/-- What is left of a swap of two spans that have nodes: it is refused if they overlap or one lies
below the other. -/
theorem swapBy_eq (hf : m.forest.Closed) (hs : m.span a = .ok s) (ht : m.span b = .ok t)
    (hns : m.forest.nodes? s = some ss) (hnt : m.forest.nodes? t = some ts) :
    ∃ nested : Bool,
      (nested = true ↔ m.forest.ReachedFrom ss t.seq ∨ m.forest.ReachedFrom ts s.seq) ∧
      ∀ stop move, stop s = s.stop → stop t = t.stop → swapBy stop move a b m =
        if (s.overlaps t || nested) = true then
          .error (.error (.swapOverlap (m.nameAt a.index) (m.nameAt b.index))) m
        else
          (do
            let flip := s.seq = t.seq && t.before s
            let (x, xs, y, ys) := if flip then (t, ts, s, ss) else (s, ss, t, ts)
            let _ ← Edit.splice y xs
            let _ ← Edit.splice x ys
            move x y : Edit Unit) m := by
  obtain ⟨below, hbelow⟩ := Forest.reachable_of_closed hf (hf.holds_of_nodes? hns)
  obtain ⟨above, habove⟩ := Forest.reachable_of_closed hf (hf.holds_of_nodes? hnt)
  have hnested : ∀ next : Bool → Edit Unit, (if t.seq ∈ below then pure true >>= next else
      ((fun above => decide (s.seq ∈ above)) <$> Edit.look (·.reachable ts)) >>= next) m =
      next (decide (t.seq ∈ below) || decide (s.seq ∈ above)) m := by
    intro next
    by_cases hb : t.seq ∈ below
    · rw [if_pos hb, decide_eq_true hb]
      rfl
    · rw [if_neg hb, decide_eq_false hb, Bool.false_or, map_eq_pure_bind, bind_assoc,
        Edit.bind_ok (Edit.look_ok habove)]
      rfl
  refine ⟨decide (t.seq ∈ below) || decide (s.seq ∈ above), ?_, fun stop move hstop htstop => ?_⟩
  · simp only [Bool.or_eq_true, decide_eq_true_eq, Forest.mem_reachable hbelow,
      Forest.mem_reachable habove]
  · have hss : m.contentUpTo stop a = .ok ss := contentUpTo_eq_ok_iff.2 ⟨s, hs, hstop ▸ hns⟩
    have hts : m.contentUpTo stop b = .ok ts := contentUpTo_eq_ok_iff.2 ⟨t, ht, htstop ▸ hnt⟩
    have hover : s.overlapsUpTo stop t = s.overlaps t := by
      simp only [Span.overlapsUpTo, Span.overlaps, hstop, htstop]
    have hbefore : t.beforeUpTo stop s = t.before s := by
      simp only [Span.beforeUpTo, Span.before, hstop, htstop]
    unfold swapBy
    rw [Edit.bind_ok (Edit.ask_ok hs), Edit.bind_ok (Edit.ask_ok ht),
      Edit.bind_ok (Edit.ask_ok hss), Edit.bind_ok (Edit.ask_ok hts),
      Edit.bind_ok (Edit.look_ok hbelow)]
    beta_reduce
    rw [hnested]
    dsimp only
    rw [hover, hbefore]
    by_cases hr : (s.overlaps t || (decide (t.seq ∈ below) || decide (s.seq ∈ above))) = true
    · rw [if_pos hr, if_pos hr]
      rfl
    · rw [if_neg hr, if_neg hr]
      by_cases hflip : (s.seq = t.seq && t.before s) = true
      · rw [if_pos hflip]
        dsimp only
        rw [hstop, htstop]
        rfl
      · rw [if_neg hflip]
        dsimp only
        rw [hstop, htstop]
        rfl

/-- A swap is made if the two spans have nodes, do not overlap and neither lies below the other. The
forest it makes does not depend on how the spans are moved then. -/
theorem swapBy_ok (hf : m.forest.Closed) (hs : m.span a = .ok s) (ht : m.span b = .ok t)
    (hns : m.forest.nodes? s = some ss) (hnt : m.forest.nodes? t = some ts)
    (ho : s.overlaps t = false) (apartS : ¬m.forest.ReachedFrom ss t.seq)
    (apartT : ¬m.forest.ReachedFrom ts s.seq) :
    ∃ m' x y xs ys frontX backX frontY backY,
      Swapped m m' a b x y xs ys frontX backX frontY backY ∧
      ∀ stop move, stop s = s.stop → stop t = t.stop →
        swapBy stop move a b m = move x y { m with forest := m'.forest } := by
  obtain ⟨nested, hnested, hswap⟩ := swapBy_eq hf hs ht hns hnt
  have hnot : (s.overlaps t || nested) = false := by
    rw [ho, Bool.false_or, Bool.eq_false_iff, Ne, hnested]
    exact not_or.2 ⟨apartS, apartT⟩
  simp only [hnot, Bool.false_eq_true, if_false] at hswap
  by_cases hflip : (s.seq = t.seq && t.before s) = true
  · obtain ⟨hseq, hbefore⟩ : s.seq = t.seq ∧ t.before s = true := by simpa using hflip
    have horder : t.seq = s.seq → t.stop ≤ s.start := fun _ => stop_le_of_before ho hseq hbefore
    obtain ⟨m', frontX, backX, frontY, backY, hdone, hrun⟩ :=
      exchange_ok (.inr ⟨hs, ht⟩) hnt hns horder apartT apartS
    refine ⟨m', t, s, ts, ss, frontX, backX, frontY, backY, hdone, fun stop move hss hst => ?_⟩
    rw [hswap stop move hss hst, if_pos hflip]
    exact hrun (move t s)
  · have horder : s.seq = t.seq → s.stop ≤ t.start := fun hseq =>
      stop_le_of_not_overlaps ho hseq (by simpa [hseq] using hflip)
    obtain ⟨m', frontX, backX, frontY, backY, hdone, hrun⟩ :=
      exchange_ok (.inl ⟨hs, ht⟩) hns hnt horder apartS apartT
    refine ⟨m', s, t, ss, ts, frontX, backX, frontY, backY, hdone, fun stop move hss hst => ?_⟩
    rw [hswap stop move hss hst, if_neg hflip]
    exact hrun (move s t)

/-- A swap of two spans that have nodes is refused or made, however spans are moved. -/
theorem swapBy_cases (hf : m.forest.Closed) (hs : m.span a = .ok s) (ht : m.span b = .ok t)
    (hns : m.forest.nodes? s = some ss) (hnt : m.forest.nodes? t = some ts) :
    (∃ e, ∀ stop move, stop s = s.stop → stop t = t.stop →
      swapBy stop move a b m = .error (.error e) m) ∨
      ∃ m' x y xs ys frontX backX frontY backY,
        Swapped m m' a b x y xs ys frontX backX frontY backY ∧
        ∀ stop move, stop s = s.stop → stop t = t.stop →
          swapBy stop move a b m = move x y { m with forest := m'.forest } := by
  obtain ⟨nested, hnested, hswap⟩ := swapBy_eq hf hs ht hns hnt
  by_cases hr : (s.overlaps t || nested) = true
  · exact .inl ⟨_, fun stop move hss hst => (hswap stop move hss hst).trans (if_pos hr)⟩
  · rw [Bool.not_eq_true, Bool.or_eq_false_iff] at hr
    have happart := not_or.1 ((not_congr hnested).1 (Bool.eq_false_iff.1 hr.2))
    exact .inr (swapBy_ok hf hs ht hns hnt hr.1 happart.1 happart.2)

/-- Of the exact swap the spans go where `Swapped` has them. -/
theorem Swapped.swap_eq {x y : Span} {xs ys frontX backX frontY backY : List Node}
    (hd : Swapped m m' a b x y xs ys frontX backX frontY backY)
    (hrun : ∀ move, swapBy Span.stop move a b m = move x y { m with forest := m'.forest }) :
    swap a b m = .ok () m' := by
  refine (hrun _).trans ?_
  rw [hd.result]
  rfl

theorem swap_ok (hf : m.forest.Closed) (hs : m.span a = .ok s) (ht : m.span b = .ok t)
    (hns : m.forest.nodes? s = some ss) (hnt : m.forest.nodes? t = some ts)
    (ho : s.overlaps t = false) (apartS : ¬m.forest.ReachedFrom ss t.seq)
    (apartT : ¬m.forest.ReachedFrom ts s.seq) :
    ∃ m' x y xs ys frontX backX frontY backY, swap a b m = .ok () m' ∧
      Swapped m m' a b x y xs ys frontX backX frontY backY := by
  obtain ⟨m', x, y, xs, ys, frontX, backX, frontY, backY, hd, hrun⟩ :=
    swapBy_ok hf hs ht hns hnt ho apartS apartT
  have hswap : swap a b m = .ok () m' := hd.swap_eq fun move => hrun _ move rfl rfl
  exact ⟨m', x, y, xs, ys, frontX, backX, frontY, backY, hswap, hd⟩

end Swap

/-- A swap is refused, or it is made. -/
theorem swap_cases (hf : m.forest.Closed) (a b : Handle) :
    (∃ e, swap a b m = .error e m) ∨
      ∃ m' x y xs ys frontX backX frontY backY, swap a b m = .ok () m' ∧
        Swapped m m' a b x y xs ys frontX backX frontY backY := by
  cases hss : m.content a with
  | error e =>
    obtain ⟨e, he⟩ := swapBy_refused (.inl hss)
    exact .inl ⟨_, he _ _ rfl rfl⟩
  | ok ss =>
    cases hts : m.content b with
    | error e =>
      obtain ⟨e, he⟩ := swapBy_refused (.inr hts)
      exact .inl ⟨_, he _ _ rfl rfl⟩
    | ok ts =>
      obtain ⟨s, hs, hns⟩ := content_eq_ok_iff.1 hss
      obtain ⟨t, ht, hnt⟩ := content_eq_ok_iff.1 hts
      rcases swapBy_cases hf hs ht hns hnt with ⟨e, hrun⟩ | ⟨m', x, y, _, _, _, _, _, _, hd, hrun⟩
      · exact .inl ⟨_, hrun _ _ rfl rfl⟩
      · have hswap : swap a b m = .ok () m' := hd.swap_eq fun move => hrun _ move rfl rfl
        exact .inr ⟨m', x, y, _, _, _, _, _, _, hswap, hd⟩

end Match

end NestedRegex
