import NestedRegex.Proofs.Forest.Edited
import NestedRegex.Proofs.Search.Turns

namespace NestedRegex

namespace Search

variable {σ : Type} {p : Program} {receiver : Receiver σ} {rule : Rule} {s s' s'' : State σ}
  {rest rest' : List Task} {names names' : List SeqName} {count count' : Nat} {id : SeqName}
  {front back nodes : List Node} {items : List Pattern}

/-- The match of one node was rewritten to a node that shows `w`. -/
structure Rewrote (f : Forest) (m : Match) (home : SeqName) (front back : List Node)
    (names : List SeqName) (w : Value) (n' : Node) (names' : List SeqName) : Prop where
  edited : f.Edited m.forest (home :: names)
  children : m.forest.children? home = some (front ++ n' :: back)
  shows : m.forest.Shows w n' names'
  renews : f.Renews names names'
  whole : ∀ s, m.span m.whole = .ok s → s = ⟨home, front.length, 1⟩

/-- The program matches the nodes that a rule rewrites, one by one, and no others, and the receiver
rewrites them. -/
structure Applies (p : Program) (receiver : Receiver σ) (rule : Rule) : Prop where
  compiled : ∃ items, Program.compileAll items = .ok p
  passes : ∀ {f : Forest} {home : SeqName} {front back : List Node} {n : Node} {v : Value}
    {names : List SeqName}, f.Closed → f.Acyclic →
    f.children? home = some (front ++ n :: back) → f.Shows v n names → rule.apply v = none →
    p.match? f home front.length = .ok none
  rewrites : ∀ {f : Forest} {home : SeqName} {front back : List Node} {n : Node} {v w : Value}
    {names : List SeqName}, f.Closed → f.Acyclic →
    f.children? home = some (front ++ n :: back) → f.Shows v n names → home ∉ names →
    rule.apply v = some w → ∃ b : Captures,
      p.match? f home front.length = .ok (some b) ∧ b.whole = ⟨home, front.length, 1⟩ ∧
      ∀ (id : Nat) (data : σ), ∃ m n' names',
        receiver (.ofCaptures id p f b, data) = .ok .proceed (m, data) ∧
        Rewrote f m home front back names w n' names'

/-- A part of a search that did the first thing on the agenda, inside some sequences. -/
structure Over (s s' : State σ) (rest : List Task) (names : List SeqName) (count : Nat) :
    Prop where
  agenda : s'.walk.agenda = rest
  data : s'.data = s.data
  found : s'.walk.found = s.walk.found + count
  edited : s.forest.Edited s'.forest names
  visited : ∀ x ∈ s'.walk.visited, x ∈ s.walk.visited ∨
    s'.forest.contains x = true ∧ (x ∈ names ∨ s.forest.contains x = false)

/-- All that was visited is there. -/
def Grounded (s : State σ) : Prop :=
  ∀ x ∈ s.walk.visited, s.forest.contains x = true

theorem Over.trans (h : Over s s' rest names count) (h' : Over s' s'' rest' names' count')
    (hn : s.forest.Renews names names') : Over s s'' rest' names (count + count') where
  agenda := h'.agenda
  data := h'.data.trans h.data
  found := by rw [h'.found, h.found, Nat.add_assoc]
  edited := h.edited.trans h'.edited hn
  visited x hx := by
    rcases h'.visited x hx with hx | ⟨there, hx⟩
    · rcases h.visited x hx with hx | ⟨there, hx⟩
      · exact .inl hx
      · exact .inr ⟨h'.edited.there there, hx⟩
    · refine .inr ⟨there, ?_⟩
      rcases hx with hx | hx
      · exact hn x hx
      · cases hc : s.forest.contains x with
        | false => exact .inr rfl
        | true =>
          rw [h.edited.there hc] at hx
          cases hx

theorem Over.mono (h : Over s s' rest names count) (hs : names ⊆ names') :
    Over s s' rest names' count where
  agenda := h.agenda
  data := h.data
  found := h.found
  edited := h.edited.mono hs
  visited x hx := (h.visited x hx).imp_right (.imp_right (.imp_left fun hin => hs hin))

theorem Over.grounded (h : Over s s' rest names count) (hs : Grounded s) : Grounded s' := by
  intro x hx
  rcases h.visited x hx with hx | ⟨there, -⟩
  · exact h.edited.there (hs x hx)
  · exact there

/-- What was not visited and is not one of the names of a part of a search is not visited in it. -/
theorem Over.not_visited (h : Over s s' rest names count) {x : SeqName}
    (hx : x ∉ s.walk.visited) (hn : x ∉ names) (hc : s.forest.contains x = true) :
    x ∉ s'.walk.visited := by
  intro hv
  rcases h.visited x hv with hv | ⟨-, hv | hv⟩
  · exact hx hv
  · exact hn hv
  · rw [hc] at hv
    cases hv

theorem tries_of_children {position : Nat} (agenda : s.walk.agenda = .scan id position :: rest)
    (hc : s.forest.children? id = some nodes) (hp : position < nodes.length) :
    Tries {} s id position rest :=
  ⟨agenda, Forest.contains_iff.2 ⟨_, hc⟩, Forest.nodesOf_eq hc ▸ hp, fun h => nomatch h.1⟩

/-- A match of one node that stays one node lets the scan go on with the next. -/
theorem resumeAt_next {home : SeqName} {position length : Nat} {held : Option Span}
    (h : ∀ s, held = some s → s = ⟨home, position, 1⟩) :
    resumeAt position ⟨home, position, 1⟩ held length length = position + 1 := by
  have hback : position + 1 + length - length = position + 1 := Nat.add_sub_cancel ..
  cases held with
  | none => simp [resumeAt, Span.stop, hback]
  | some s =>
    obtain rfl := h s rfl
    simp [resumeAt, Span.stop]

/-- One position of a scan: the node there is what it is after the rule. -/
theorem step_scan_node (ha : Applies p receiver rule) (hclosed : s.forest.Closed)
    (hacyclic : s.forest.Acyclic) {n : Node} {v : Value}
    (agenda : s.walk.agenda = .scan id front.length :: rest)
    (hc : s.forest.children? id = some (front ++ n :: back))
    (hs : s.forest.Shows v n names) (hid : id ∉ names) :
    ∃ s' n' names', step p {} receiver s = .more s' ∧
      Over s s' (.scan id (front.length + 1) :: rest) (id :: names)
        (if (rule.apply v).isSome then 1 else 0) ∧
      s'.walk.visited = s.walk.visited ∧
      s'.forest.children? id = some (front ++ n' :: back) ∧
      s'.forest.Shows (rule.after v) n' names' ∧ s.forest.Renews names names' := by
  obtain ⟨items, hitems⟩ := ha.compiled
  have there : s.forest.contains id = true := Forest.contains_iff.2 ⟨_, hc⟩
  have tries := tries_of_children agenda hc (by simp)
  cases hr : rule.apply v with
  | none =>
    obtain ⟨machine, hrun⟩ := run_of_match? hitems hclosed hacyclic there s.walk.machine
      (ha.passes hclosed hacyclic hc hs hr)
    let next : State σ := { s with
      walk := { s.walk with
        machine, attempts := s.walk.attempts + 1, agenda := .scan id (front.length + 1) :: rest } }
    have moved : Over s next (.scan id (front.length + 1) :: rest) (id :: names) 0 :=
      ⟨rfl, rfl, rfl, .refl hclosed hacyclic _, fun x hx => .inl hx⟩
    refine ⟨next, n, names, ?_, moved, rfl, hc, ?_, .refl _ _⟩
    · exact step_eq_more_iff.2 (.missed tries hrun)
    · rw [Rule.after_eq_of_none hr]
      exact hs
  | some w =>
    obtain ⟨b, hmatch, hwhole, hreceive⟩ := ha.rewrites hclosed hacyclic hc hs hid hr
    obtain ⟨machine, hrun⟩ := run_of_match? hitems hclosed hacyclic there s.walk.machine hmatch
    obtain ⟨m, n', names', hgiven, hm⟩ := hreceive s.walk.found s.data
    have hlength : m.forest.length b.whole.seq = .ok (front ++ n :: back).length := by
      rw [hwhole, Forest.length_ok hm.children]
      simp
    have hresume : resumeAt front.length b.whole (m.span m.whole).toOption
        (s.forest.nodesOf id).length (front ++ n :: back).length = front.length + 1 := by
      rw [hwhole, Forest.nodesOf_eq hc]
      exact resumeAt_next fun s hs => hm.whole s (Except.toOption_eq_some_iff.1 hs)
    let next : State σ := ⟨{ s.walk with
      machine, attempts := s.walk.attempts + 1, found := s.walk.found + 1
      agenda := .scan id (front.length + 1) :: rest }, m.forest, s.data⟩
    have moved : Over s next (.scan id (front.length + 1) :: rest) (id :: names) 1 :=
      ⟨rfl, rfl, rfl, hm.edited, fun x hx => .inl hx⟩
    refine ⟨next, n', names', ?_, moved, rfl, hm.children, ?_, hm.renews⟩
    · have hmove := Move.received tries hrun hgiven rfl hlength
      rw [hresume, hwhole] at hmove
      exact step_eq_more_iff.2 hmove
    · rw [Rule.after_eq_of_some hr]
      exact hm.shows

/-- A scan: every node is what it is after the rule. -/
theorem steps_scan (ha : Applies p receiver rule) {vs : List Value}
    (hclosed : s.forest.Closed) (hacyclic : s.forest.Acyclic)
    (agenda : s.walk.agenda = .scan id front.length :: rest)
    (hc : s.forest.children? id = some (front ++ nodes))
    (hs : s.forest.ShowsItems vs nodes names) (hid : id ∉ names) :
    ∃ s' nodes' names', Progress.steps (step p {} receiver) (vs.length + 1) s = .more s' ∧
      Over s s' rest (id :: names)
        (vs.map fun v => if (rule.apply v).isSome then 1 else 0).sum ∧
      s'.walk.visited = s.walk.visited ∧
      s'.forest.children? id = some (front ++ nodes') ∧
      s'.forest.ShowsItems (vs.map rule.after) nodes' names' ∧
      s.forest.Renews names names' := by
  induction vs generalizing s front nodes names with
  | nil =>
    cases hs
    have there : s.forest.contains id = true := Forest.contains_iff.2 ⟨_, hc⟩
    have hend : step p {} receiver s = .more { s with walk.agenda := rest } :=
      step_eq_more_iff.2 (.scanned agenda there (by simp [Forest.nodesOf_eq hc]))
    exact ⟨_, [], [], Progress.steps_succ_more hend,
      ⟨rfl, rfl, rfl, .refl hclosed hacyclic _, fun x hx => .inl hx⟩, rfl, hc, .nil, .refl _ _⟩
  | cons v vs ih =>
    cases hs with
    | @cons _ _ n nodes xs ys hv hvs apart =>
      have hxs : id ∉ xs := fun h => hid (List.mem_append_left _ h)
      have hys : id ∉ ys := fun h => hid (List.mem_append_right _ h)
      obtain ⟨s₁, n₁, xs₁, hstep, hover, hvisited, hchildren, hshows, hrenews⟩ :=
        step_scan_node ha hclosed hacyclic agenda hc hv hxs
      have there : s.forest.contains id = true := Forest.contains_iff.2 ⟨_, hc⟩
      have hvs₁ : s₁.forest.ShowsItems vs nodes ys := hover.edited.showsItems hvs fun y hy hin => by
        rcases List.mem_cons.1 hin with rfl | hin
        · exact hys hy
        · exact apart y hin hy
      have hagenda : s₁.walk.agenda = .scan id (front ++ [n₁]).length :: rest := by
        rw [hover.agenda, List.length_append]
        rfl
      obtain ⟨s₂, nodes₂, ys₂, hsteps, hover₂, hvisited₂, hchildren₂, hshows₂, hrenews₂⟩ :=
        ih hover.edited.closed hover.edited.acyclic hagenda (by rw [hchildren]; simp) hvs₁ hys
      -- The first node is in none of the sequences that the rest of the scan is about.
      have hapart₁ : ∀ x ∈ xs₁, x ∉ id :: ys := by
        intro x hx hin
        rcases List.mem_cons.1 hin with rfl | hin
        · exact hrenews.not_mem there hxs hx
        · exact hrenews.not_mem (hvs.contains hin) (fun h => apart x h hin) hx
      have hshows₁ := hover₂.edited.shows hshows hapart₁
      have hapart₂ : ∀ x ∈ xs₁, x ∉ ys₂ := fun x hx =>
        hrenews₂.not_mem (hshows.contains hx) fun hin =>
          hapart₁ x hx (List.mem_cons_of_mem _ hin)
      have hnames : xs ⊆ xs ++ ys := List.subset_append_left xs ys
      have hrest : s.forest.Renews (id :: (xs ++ ys)) (id :: ys) :=
        ((Forest.Renews.refl _ ys).mono (List.subset_append_right xs ys)).cons id
      have hboth := (hover.mono (List.cons_subset_cons id hnames)).trans hover₂ hrest
      refine ⟨s₂, n₁ :: nodes₂, xs₁ ++ ys₂, ?_, hboth, hvisited₂.trans hvisited, ?_,
        .cons hshows₁ hshows₂ hapart₂,
        hrenews.append (hover.edited.renews_trans (.refl _ _) hrenews₂)⟩
      · rw [List.length_cons, Progress.steps_succ_more hstep, hsteps]
      · rw [hchildren₂]
        simp

/-- What the descent into an item is to do, whatever comes after it. -/
def Visits (p : Program) (receiver : Receiver σ) (rule : Rule) (v : Value) : Prop :=
  ∀ {s : State σ} {id : SeqName} {names : List SeqName} {rest : List Task},
    s.forest.Closed → s.forest.Acyclic → Grounded s → s.walk.agenda = .visit id :: rest →
    s.forest.Shows v (.seq id) names → (∀ x ∈ names, x ∉ s.walk.visited) →
    ∃ count s' names', count + 2 ≤ 5 * v.size ∧
      Progress.steps (step p {} receiver) count s = .more s' ∧
      Over s s' rest names (rule.hits v) ∧
      s'.forest.Shows (rule.rewritten v) (.seq id) names' ∧ s.forest.Renews names names'

/-- One node of a descent: it is rewritten inside. -/
theorem steps_descend_node {v : Value} {n : Node} (inner : Visits p receiver rule v)
    (hclosed : s.forest.Closed) (hacyclic : s.forest.Acyclic) (hground : Grounded s)
    (agenda : s.walk.agenda = .descend id front.length :: rest)
    (hc : s.forest.children? id = some (front ++ n :: back))
    (hs : s.forest.Shows v n names) (new : ∀ x ∈ names, x ∉ s.walk.visited) :
    ∃ count s' names', count + 1 ≤ 5 * v.size ∧
      Progress.steps (step p {} receiver) count s = .more s' ∧
      Over s s' (.descend id (front.length + 1) :: rest) names (rule.hits v) ∧
      s'.forest.Shows (rule.rewritten v) n names' ∧ s.forest.Renews names names' := by
  have there : s.forest.contains id = true := Forest.contains_iff.2 ⟨_, hc⟩
  have hn : (s.forest.nodesOf id)[front.length]? = some n := by simp [Forest.nodesOf_eq hc]
  cases n with
  | scalar atom =>
    cases hs
    have hstep : step p {} receiver s =
        .more { s with walk.agenda := .descend id (front.length + 1) :: rest } :=
      step_eq_more_iff.2 (.passed agenda there hn)
    refine ⟨1, _, [], by simp, Progress.steps_succ_more hstep, ?_, ?_, .refl _ _⟩
    · rw [Rule.hits_scalar]
      exact ⟨rfl, rfl, rfl, .refl hclosed hacyclic _, fun x hx => .inl hx⟩
    · rw [Rule.rewritten_scalar]
      exact .scalar atom
  | seq below =>
    have hstep : step p {} receiver s = .more { s with
        walk.agenda := .visit below :: .descend id (front.length + 1) :: rest } :=
      step_eq_more_iff.2 (.nested agenda there hn)
    obtain ⟨count, s', names', hcount, hsteps, hover, hshows, hrenews⟩ :=
      inner (s := { s with walk.agenda := .visit below :: .descend id (front.length + 1) :: rest })
        hclosed hacyclic hground rfl hs new
    refine ⟨count + 1, s', names', by omega, (Progress.steps_succ_more hstep).trans hsteps, ?_,
      hshows, hrenews⟩
    exact ⟨hover.agenda, hover.data, hover.found, hover.edited, hover.visited⟩

/-- A descent: every node is rewritten inside. -/
theorem steps_descend {vs : List Value} (inner : ∀ v ∈ vs, Visits p receiver rule v)
    (hclosed : s.forest.Closed) (hacyclic : s.forest.Acyclic) (hground : Grounded s)
    (agenda : s.walk.agenda = .descend id front.length :: rest)
    (hc : s.forest.children? id = some (front ++ nodes))
    (hs : s.forest.ShowsItems vs nodes names) (hid : id ∉ names)
    (new : ∀ x ∈ names, x ∉ s.walk.visited) :
    ∃ count s' names', count + vs.length ≤ 5 * Value.sizeOfItems vs + 1 ∧
      Progress.steps (step p {} receiver) count s = .more s' ∧
      Over s s' rest names (vs.map rule.hits).sum ∧
      s'.forest.ShowsItems (vs.map rule.rewritten) nodes names' ∧
      s.forest.Renews names names' := by
  induction vs generalizing s front nodes names with
  | nil =>
    cases hs
    have there : s.forest.contains id = true := Forest.contains_iff.2 ⟨_, hc⟩
    have hend : step p {} receiver s = .more { s with walk.agenda := rest } :=
      step_eq_more_iff.2 (.ended agenda there (by simp [Forest.nodesOf_eq hc]))
    exact ⟨1, _, [], Nat.le_refl _, Progress.steps_succ_more hend,
      ⟨rfl, rfl, rfl, .refl hclosed hacyclic _, fun x hx => .inl hx⟩, .nil, .refl _ _⟩
  | cons v vs ih =>
    cases hs with
    | @cons _ _ n nodes xs ys hv hvs apart =>
      have hxs : id ∉ xs := fun h => hid (List.mem_append_left _ h)
      have hys : id ∉ ys := fun h => hid (List.mem_append_right _ h)
      obtain ⟨count₁, s₁, xs₁, hcount, hsteps, hover, hshows, hrenews⟩ :=
        steps_descend_node (inner v List.mem_cons_self) hclosed hacyclic hground agenda hc hv
          fun x hx => new x (List.mem_append_left _ hx)
      have hvs₁ : s₁.forest.ShowsItems vs nodes ys :=
        hover.edited.showsItems hvs fun y hy hin => apart y hin hy
      have hagenda : s₁.walk.agenda = .descend id (front ++ [n]).length :: rest := by
        rw [hover.agenda, List.length_append]
        rfl
      have hchildren : s₁.forest.children? id = some ((front ++ [n]) ++ nodes) := by
        rw [hover.edited.others hxs hc]
        simp
      obtain ⟨count₂, s₂, ys₂, hcount₂, hsteps₂, hover₂, hshows₂, hrenews₂⟩ :=
        ih (fun w hw => inner w (List.mem_cons_of_mem _ hw)) hover.edited.closed
          hover.edited.acyclic (hover.grounded hground) hagenda hchildren hvs₁ hys fun y hy =>
            hover.not_visited (new y (List.mem_append_right _ hy)) (fun hin => apart y hin hy)
              (hvs.contains hy)
      -- The first node is in none of the sequences of the others.
      have hapart₁ : ∀ x ∈ xs₁, x ∉ ys := fun x hx hin =>
        hrenews.not_mem (hvs.contains hin) (fun h => apart x h hin) hx
      have hapart₂ : ∀ x ∈ xs₁, x ∉ ys₂ := fun x hx =>
        hrenews₂.not_mem (hshows.contains hx) (hapart₁ x hx)
      have hrest : s.forest.Renews (xs ++ ys) ys :=
        (Forest.Renews.refl _ ys).mono (List.subset_append_right xs ys)
      refine ⟨count₁ + count₂, s₂, xs₁ ++ ys₂, ?_, ?_,
        (hover.mono (List.subset_append_left xs ys)).trans hover₂ hrest,
        .cons (hover₂.edited.shows hshows hapart₁) hshows₂ hapart₂,
        hrenews.append (hover.edited.renews_trans (.refl _ _) hrenews₂)⟩
      · simp only [List.length_cons, Value.sizeOfItems_cons]
        omega
      · rw [Progress.steps_add_more hsteps, hsteps₂]

/-- The first step of a visit marks the sequence as visited. -/
theorem over_visit (hclosed : s.forest.Closed) (hacyclic : s.forest.Acyclic)
    (there : s.forest.contains id = true) :
    Over s { s with walk := s.walk.visit {} id rest } (.scan id 0 :: .descend id 0 :: rest)
      (id :: names) 0 where
  agenda := rfl
  data := rfl
  found := rfl
  edited := .refl hclosed hacyclic _
  visited x hx := by
    rcases NameSet.mem_insert.1 hx with rfl | hx
    · exact .inr ⟨there, .inl List.mem_cons_self⟩
    · exact .inl hx

/-- The visit of a sequence: its scan, and then its descent. -/
theorem visits (ha : Applies p receiver rule) (v : Value) : Visits p receiver rule v := by
  induction v using rule.inside_induction with
  | scalar atom =>
    intro s id names rest _ _ _ _ hs
    cases hs
  | seq vs inner =>
    intro s id names rest hclosed hacyclic hground agenda hs new
    cases hs with
    | @seq _ _ nodes names hc hvs hid =>
      have there : s.forest.contains id = true := Forest.contains_iff.2 ⟨_, hc⟩
      let s₀ : State σ := { s with walk := s.walk.visit {} id rest }
      have hstep : step p {} receiver s = .more s₀ :=
        step_eq_more_iff.2 (.entered agenda (new id List.mem_cons_self) there)
      have hover₀ : Over s s₀ (.scan id 0 :: .descend id 0 :: rest) (id :: names) 0 :=
        over_visit hclosed hacyclic there
      have hagenda₀ : s₀.walk.agenda =
        .scan id ([] : List Node).length :: .descend id ([] : List Node).length :: rest := rfl
      have hc₀ : s₀.forest.children? id = some ([] ++ nodes) := hc
      obtain ⟨s₁, nodes₁, names₁, hsteps₁, hover₁, hvisited₁, hc₁, hvs₁, hrenews₁⟩ :=
        steps_scan (s := s₀) ha hclosed hacyclic hagenda₀ hc₀ hvs hid
      have hid₁ : id ∉ names₁ := hrenews₁.not_mem there hid
      have hnew₁ : ∀ x ∈ names₁, x ∉ s₁.walk.visited := by
        intro x hx hv
        rw [hvisited₁] at hv
        rcases NameSet.mem_insert.1 hv with rfl | hv
        · exact hid₁ hx
        · rcases hrenews₁ x hx with hx | hx
          · exact new x (List.mem_cons_of_mem _ hx) hv
          · exact absurd (hground x hv) (by rw [hx]; exact Bool.false_ne_true)
      have hinner : ∀ w ∈ vs.map rule.after, Visits p receiver rule w := by
        intro w hw
        obtain ⟨c, hc, rfl⟩ := List.mem_map.1 hw
        exact inner c hc
      have hground₁ := hover₁.grounded (hover₀.grounded hground)
      obtain ⟨count, s₂, names₂, hcount, hsteps₂, hover₂, hvs₂, hrenews₂⟩ :=
        steps_descend hinner hover₁.edited.closed hover₁.edited.acyclic hground₁ hover₁.agenda hc₁
          hvs₁ hid₁ hnew₁
      have hc₂ := hover₂.edited.others hid₁ hc₁
      have hid₂ : id ∉ names₂ := hrenews₂.not_mem (hover₁.edited.there there) hid₁
      have hrenews : s.forest.Renews names names₂ := hover₁.edited.renews_trans hrenews₁ hrenews₂
      refine ⟨vs.length + 1 + count + 1, s₂, id :: names₂, ?_, ?_, ?_, ?_, hrenews.cons id⟩
      · have hle := Value.sizeOfItems_map_le fun v (_ : v ∈ vs) => rule.size_after v
        rw [List.length_map] at hcount
        rw [Value.size_seq]
        omega
      · rw [Progress.steps_succ_more hstep, Progress.steps_add_more hsteps₁, hsteps₂]
      · rw [Rule.hits_seq_eq_add, ← Nat.zero_add (List.sum _)]
        have hnames : s.forest.Renews (id :: names) names₁ :=
          hrenews₁.mono (List.subset_cons_self id names)
        exact (hover₀.trans hover₁ (.refl _ _)).trans hover₂ hnames
      · rw [List.map_map] at hvs₂
        rw [Rule.rewritten_seq]
        exact .seq hc₂ hvs₂ hid₂

end Search

open Search

/-- A search that rewrites goes through the whole value and comes to its end. -/
theorem Program.search_rewrites {σ : Type} {p : Program} {receiver : Receiver σ} {rule : Rule}
    {f : Forest} {v : Value} {names : List SeqName} {level : Nat}
    (ha : Applies p receiver rule) (hclosed : f.Closed) (hacyclic : f.Acyclic)
    (hs : f.Shows v (.seq f.root) names) (hl : 5 * v.size ≤ 2 ^ level) (data : σ) :
    ∃ counts g names', p.search {} level receiver f data = ⟨.ok counts, g, data⟩ ∧
      counts.found = rule.hits v ∧ f.Edited g names ∧
      g.Shows (rule.rewritten v) (.seq g.root) names' := by
  have hground : Grounded (start f data) := fun x hx => absurd hx (NameSet.not_mem_empty x)
  obtain ⟨count, s, names', hcount, hsteps, hover, hshows, -⟩ :=
    visits ha v (s := start f data) hclosed hacyclic hground rfl hs fun x _ =>
      NameSet.not_mem_empty x
  have hend : step p {} receiver s = .done ⟨.ok (s.walk.counts false), s.forest, s.data⟩ :=
    step_eq_done_iff.2 (.finished hover.agenda)
  have hrun : Progress.run (step p {} receiver) level (start f data) =
      .done ⟨.ok (s.walk.counts false), s.forest, s.data⟩ := by
    rw [Progress.run_eq_steps]
    refine Progress.steps_done_mono (m := count + 1) ?_ ?_
    · rw [Progress.steps_add_more hsteps, Progress.steps_succ_done hend]
    · change count + 1 ≤ 2 ^ level
      omega
  refine ⟨s.walk.counts false, s.forest, names', ?_, ?_, hover.edited, ?_⟩
  · have hdata : s.data = data := hover.data
    rw [Program.search, if_neg (by simp), hrun, hdata]
  · exact hover.found.trans (Nat.zero_add _)
  · rw [hover.edited.root]
    exact hshows

end NestedRegex
