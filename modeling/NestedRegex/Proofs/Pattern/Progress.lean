import NestedRegex.Proofs.Forest.Spans
import NestedRegex.Proofs.Pattern.Ready
import NestedRegex.Proofs.Pattern.Ways

namespace NestedRegex

variable {f : Forest} {seq : SeqName} {w v u : Way} {slots : List String} {endAllowed : Bool}

namespace Choices

@[simp] theorem andThen_nil (next : α → Choices β) : andThen [] next = [] := rfl

@[simp] theorem andThen_ok (a : α) (cs : Choices α) (next : α → Choices β) :
    andThen (.ok a :: cs) next = next a ++ andThen cs next := rfl

@[simp] theorem andThen_error (e : Failure TestError) (cs : Choices α) (next : α → Choices β) :
    andThen (.error e :: cs) next = .error e :: andThen cs next := rfl

@[simp] theorem andThen_append (cs ds : Choices α) (next : α → Choices β) :
    andThen (cs ++ ds) next = andThen cs next ++ andThen ds next :=
  List.flatMap_append

theorem andThen_assoc (cs : Choices α) (next : α → Choices β) (last : β → Choices γ) :
    (cs.andThen next).andThen last = cs.andThen fun a => (next a).andThen last := by
  induction cs with
  | nil => rfl
  | cons c cs ih => cases c <;> simp [ih]

theorem andThen_congr {cs : Choices α} {next last : α → Choices β}
    (h : ∀ a, .ok a ∈ cs → next a = last a) : cs.andThen next = cs.andThen last := by
  induction cs with
  | nil => rfl
  | cons c cs ih =>
    have ht := ih fun a ha => h a (List.mem_cons_of_mem _ ha)
    cases c with
    | error e => rw [andThen_error, andThen_error, ht]
    | ok a => rw [andThen_ok, andThen_ok, ht, h a List.mem_cons_self]

theorem mem_andThen {cs : Choices α} {next : α → Choices β} {b : β}
    (h : .ok b ∈ cs.andThen next) : ∃ a, .ok a ∈ cs ∧ .ok b ∈ next a := by
  obtain ⟨c, hc, hb⟩ := List.mem_flatMap.1 h
  cases c with
  | error e => simp at hb
  | ok a => exact ⟨a, hc, hb⟩

theorem mem_andThen_of_mem {cs : Choices α} {next : α → Choices β} {a : α}
    {c : Except (Failure TestError) β} (ha : .ok a ∈ cs) (hc : c ∈ next a) :
    c ∈ cs.andThen next :=
  List.mem_flatMap.2 ⟨.ok a, ha, hc⟩

end Choices

/-- A span that can be bound between two positions of a sequence: it is not empty, it is there, and
it lies between the positions or below a node between them. -/
structure Within (f : Forest) (seq : SeqName) (start stop : Nat) (s : Span) : Prop where
  nonempty : 0 < s.length
  inside : s.stop ≤ (f.nodesOf s.seq).length
  place : s.seq = seq ∧ start ≤ s.start ∧ s.stop ≤ stop ∨
    ∃ i top, start ≤ i ∧ i < stop ∧ (f.nodesOf seq)[i]? = some (.seq top) ∧ f.Reaches top s.seq

theorem Within.mono {start stop start' stop' : Nat} {s : Span} (h : Within f seq start stop s)
    (hs : start' ≤ start) (ht : stop ≤ stop') : Within f seq start' stop' s := by
  refine ⟨h.nonempty, h.inside, ?_⟩
  rcases h.place with ⟨he, hl, hr⟩ | ⟨i, top, hl, hr, hi, ht'⟩
  · exact .inl ⟨he, by omega, by omega⟩
  · exact .inr ⟨i, top, by omega, by omega, hi, ht'⟩

/-- What is bound in a nested sequence lies below the node that names it. -/
theorem Within.enclose {inner : SeqName} {start stop i : Nat} {s : Span}
    (h : Within f inner start stop s) (hi : (f.nodesOf seq)[i]? = some (.seq inner)) :
    Within f seq i (i + 1) s := by
  refine ⟨h.nonempty, h.inside, .inr ⟨i, inner, Nat.le_refl _, Nat.lt_succ_self _, hi, ?_⟩⟩
  rcases h.place with ⟨he, -, -⟩ | ⟨j, top, -, -, hj, hr⟩
  · exact he ▸ .refl
  · exact .head (Forest.child_of_getElem? hj) hr

/-- No name is bound to an empty span. -/
def Way.Solid (w : Way) : Prop :=
  ∀ n s, w.bound n = some s → 0 < s.length

/-- One way goes on from another in the same sequence. -/
structure Follows (f : Forest) (seq : SeqName) (w v : Way) : Prop where
  le : w.position ≤ v.position
  bound : ∀ n, v.bound n = w.bound n ∨
    ∃ s, v.bound n = some s ∧ Within f seq w.position v.position s

namespace Follows

theorem refl (w : Way) : Follows f seq w w :=
  ⟨Nat.le_refl _, fun _ => .inl rfl⟩

theorem trans (h : Follows f seq w v) (h' : Follows f seq v u) : Follows f seq w u := by
  refine ⟨Nat.le_trans h.le h'.le, fun n => ?_⟩
  rcases h'.bound n with hu | ⟨s, hu, hs⟩
  · rcases h.bound n with hv | ⟨s, hv, hs⟩
    · exact .inl (hu.trans hv)
    · exact .inr ⟨s, hu.trans hv, hs.mono (Nat.le_refl _) h'.le⟩
  · exact .inr ⟨s, hu, hs.mono h.le (Nat.le_refl _)⟩

theorem past (w : Way) (count : Nat) : Follows f seq w (w.past count) :=
  ⟨Nat.le_add_right _ _, fun _ => .inl rfl⟩

theorem solid (h : Follows f seq w v) (hw : w.Solid) : v.Solid := by
  intro n s hs
  rcases h.bound n with he | ⟨t, ht, hin⟩
  · exact hw n s (he ▸ hs)
  · obtain rfl := Option.some.inj (ht.symm.trans hs)
    exact hin.nonempty

/-- What is bound stays bound. -/
theorem isSome_bound (h : Follows f seq w v) {n : String} (hw : (w.bound n).isSome) :
    (v.bound n).isSome := by
  rcases h.bound n with he | ⟨s, hs, -⟩
  · rw [he]
    exact hw
  · exact Option.isSome_of_eq_some hs

/-- Binding the nodes between two positions. -/
theorem bind (h : Follows f seq w v) (name : String) (hlt : w.position < v.position)
    (hle : v.position ≤ (f.nodesOf seq).length) :
    Follows f seq w (v.bind name ⟨seq, w.position, v.position - w.position⟩) := by
  refine ⟨h.le, fun n => ?_⟩
  by_cases e : n = name
  · refine .inr ⟨⟨seq, w.position, v.position - w.position⟩, by simp only [Way.bind, if_pos e], ?_⟩
    have hstop : Span.stop ⟨seq, w.position, v.position - w.position⟩ = v.position :=
      Nat.add_sub_cancel' h.le
    exact ⟨Nat.sub_pos_of_lt hlt, Nat.le_trans (Nat.le_of_eq hstop) hle,
      .inl ⟨rfl, Nat.le_refl _, Nat.le_of_eq hstop⟩⟩
  · simp only [Way.bind, if_neg e]
    exact h.bound n

/-- Leaving a nested sequence for the position behind the node that names it. -/
theorem enclose {inner : SeqName} (h : Follows f inner { w with position := 0 } v)
    (hi : (f.nodesOf seq)[w.position]? = some (.seq inner)) :
    Follows f seq w { v with position := w.position + 1 } := by
  refine ⟨Nat.le_succ _, fun n => ?_⟩
  rcases h.bound n with he | ⟨s, hs, hin⟩
  · exact .inl he
  · exact .inr ⟨s, hs, hin.enclose hi⟩

end Follows

/-- One way goes on from another, is further ahead and still inside the sequence. -/
structure Advances (f : Forest) (seq : SeqName) (w v : Way) : Prop extends Follows f seq w v where
  lt : w.position < v.position
  inside : v.position ≤ (f.nodesOf seq).length

theorem Advances.trans (h : Advances f seq w v) (h' : Advances f seq v u) : Advances f seq w u :=
  ⟨h.toFollows.trans h'.toFollows, Nat.lt_trans h.lt h'.lt, h'.inside⟩

theorem Advances.follow (h : Advances f seq w v) (h' : Follows f seq v u)
    (hu : u.position ≤ (f.nodesOf seq).length) : Advances f seq w u :=
  ⟨h.toFollows.trans h', Nat.lt_of_lt_of_le h.lt h'.le, hu⟩

theorem advances_past (hw : w.position < (f.nodesOf seq).length) : Advances f seq w (w.past 1) :=
  ⟨.past w 1, Nat.lt_succ_self _, hw⟩

theorem lt_of_getElem? {xs : List α} {i : Nat} {x : α} (h : xs[i]? = some x) : i < xs.length :=
  (List.getElem?_eq_some_iff.1 h).1

theorem stop_le_of_sameContent {s t : Span} (h : f.sameContent s t = true) :
    t.stop ≤ (f.nodesOf t.seq).length := by
  unfold Forest.sameContent at h
  split at h
  · next ht => exact Forest.stop_le_of_nodes? ht
  · cases h

namespace Pattern

theorem turns_advance {body : Way → Choices Way}
    (hb : ∀ {w v}, w.Solid → .ok v ∈ body w → Advances f seq w v) :
    ∀ {most w v}, w.Solid → .ok v ∈ turns body most w → Advances f seq w v
  | 0, w, v, hw, h => by simp [turns] at h
  | most + 1, w, v, hw, h => by
    obtain ⟨u, hu, hv⟩ := Choices.mem_andThen h
    have hwu := hb hw hu
    rcases List.mem_append.1 hv with hv | hv
    · exact hwu.trans (turns_advance hb (hwu.solid hw) hv)
    · obtain rfl : v = u := by simpa using hv
      exact hwu

mutual

/-- A way through a ready part goes on inside the sequence, and is ahead unless the part may require
the end. -/
theorem ways_follow : ∀ (p : Pattern) {endAllowed seq w v}, Ready slots p endAllowed → w.Solid →
    .ok v ∈ ways f p seq w → Follows f seq w v ∧ v.position ≤ (f.nodesOf seq).length ∧
      (endAllowed = false → Advances f seq w v)
  | .literal s, endAllowed, seq, w, v, hp, hw, h => by
    rw [ways] at h
    split at h
    · next hi =>
      obtain rfl : v = w.past 1 := by simpa using h
      have ha := advances_past (lt_of_getElem? hi)
      exact ⟨ha.toFollows, ha.inside, fun _ => ha⟩
    · simp at h
  | .any, endAllowed, seq, w, v, hp, hw, h => by
    rw [ways] at h
    split at h
    · next hi =>
      obtain rfl : v = w.past 1 := by simpa using h
      have ha := advances_past hi
      exact ⟨ha.toFollows, ha.inside, fun _ => ha⟩
    · simp at h
  | .sequence items, endAllowed, seq, w, v, hp, hw, h => by
    rw [ways] at h
    split at h
    · next inner hi =>
      obtain ⟨u, hu, hv⟩ := Choices.mem_andThen h
      split at hv
      · obtain rfl : v = { u with position := w.position + 1 } := by simpa using hv
        have hs : Way.Solid { w with position := 0 } := hw
        obtain ⟨hf, -, -⟩ := waysOfItems_follow items hp hs hu
        have ha : Advances f seq w { u with position := w.position + 1 } :=
          ⟨hf.enclose hi, Nat.lt_succ_self _, lt_of_getElem? hi⟩
        exact ⟨ha.toFollows, ha.inside, fun _ => ha⟩
      · simp at hv
    · simp at h
  | .named name [], endAllowed, seq, w, v, hp, hw, h => by
    rw [ways] at h
    split at h
    · next hi =>
      have ha := advances_past hi
      have hf := ha.toFollows.bind name ha.lt ha.inside
      obtain rfl : v = (w.past 1).bind name ⟨seq, w.position, 1⟩ := by simpa using h
      have hone : (w.past 1).position - w.position = 1 := Nat.add_sub_cancel_left _ _
      rw [hone] at hf
      exact ⟨hf, ha.inside, fun _ => ⟨hf, ha.lt, ha.inside⟩⟩
    · simp at h
  | .named name (p :: ps), endAllowed, seq, w, v, hp, hw, h => by
    rw [ways] at h
    obtain ⟨u, hu, hv⟩ := Choices.mem_andThen h
    obtain rfl : v = u.bind name ⟨seq, w.position, u.position - w.position⟩ := by simpa using hv
    obtain ⟨-, -, hs⟩ := waysOfItems_follow (p :: ps) hp.2.2 hw hu
    have ha := hs rfl (by simp)
    have hf := ha.toFollows.bind name ha.lt ha.inside
    exact ⟨hf, ha.inside, fun _ => ⟨hf, ha.lt, ha.inside⟩⟩
  | .choice alternatives, endAllowed, seq, w, v, hp, hw, h => by
    rw [ways] at h
    have ha := waysOfAlternatives_advance alternatives hp.2 hw h
    exact ⟨ha.toFollows, ha.inside, fun _ => ha⟩
  | .oneOrMore body, endAllowed, seq, w, v, hp, hw, h => by
    rw [ways] at h
    have ha := turns_advance (fun hu hv => (ways_follow body hp hu hv).2.2 rfl) hw h
    exact ⟨ha.toFollows, ha.inside, fun _ => ha⟩
  | .backRef name, endAllowed, seq, w, v, hp, hw, h => by
    rw [ways] at h
    split at h
    · next s hs =>
      split at h
      · next hc =>
        obtain rfl : v = w.past s.length := by simpa using h
        have ha : Advances f seq w (w.past s.length) :=
          ⟨.past w _, Nat.lt_add_of_pos_right (hw name s hs), stop_le_of_sameContent hc⟩
        exact ⟨ha.toFollows, ha.inside, fun _ => ha⟩
      · simp at h
    · simp at h
  | .check name test, endAllowed, seq, w, v, hp, hw, h => by
    rw [ways] at h
    split at h
    · simp at h
    · next n hi =>
      split at h
      · obtain rfl : v = w.past 1 := by simpa using h
        have ha := advances_past (lt_of_getElem? hi)
        exact ⟨ha.toFollows, ha.inside, fun _ => ha⟩
      · simp at h
      · simp at h
  | .atEnd, endAllowed, seq, w, v, hp, hw, h => by
    rw [ways] at h
    split at h
    · next hi =>
      obtain rfl : v = w := by simpa using h
      refine ⟨.refl v, Nat.le_of_eq hi, fun he => ?_⟩
      rw [Ready, he] at hp
      cases hp
    · simp at h

theorem waysOfItems_follow : ∀ (ps : List Pattern) {endAllowed seq w v},
    ReadyItems slots ps endAllowed → w.Solid → .ok v ∈ waysOfItems f ps seq w →
    Follows f seq w v ∧
      (ps ≠ [] ∨ w.position ≤ (f.nodesOf seq).length → v.position ≤ (f.nodesOf seq).length) ∧
      (endAllowed = false → ps ≠ [] → Advances f seq w v)
  | [], endAllowed, seq, w, v, hp, hw, h => by
    obtain rfl : v = w := by simpa [waysOfItems] using h
    exact ⟨.refl v, fun hv => by simpa using hv, fun _ hne => absurd rfl hne⟩
  | p :: ps, endAllowed, seq, w, v, hp, hw, h => by
    rw [waysOfItems] at h
    obtain ⟨u, hu, hv⟩ := Choices.mem_andThen h
    obtain ⟨hf, hle, ha⟩ := ways_follow p hp.1 hw hu
    obtain ⟨hfs, hles, -⟩ := waysOfItems_follow ps hp.2 (hf.solid hw) hv
    have hin := hles (.inr hle)
    refine ⟨hf.trans hfs, fun _ => hin, fun he _ => ?_⟩
    exact (ha (by simp [he])).follow hfs hin

theorem waysOfAlternatives_advance : ∀ (ps : List Pattern) {seq w v},
    ReadyAlternatives slots ps → w.Solid → .ok v ∈ waysOfAlternatives f ps seq w →
    Advances f seq w v
  | [], seq, w, v, hp, hw, h => by simp [waysOfAlternatives] at h
  | p :: ps, seq, w, v, hp, hw, h => by
    rw [waysOfAlternatives] at h
    rcases List.mem_append.1 h with h | h
    · exact (ways_follow p hp.1 hw h).2.2 rfl
    · exact waysOfAlternatives_advance ps hp.2 hw h

end

theorem ways_advance {p : Pattern} (hp : Ready slots p false) (hw : w.Solid)
    (h : .ok v ∈ ways f p seq w) : Advances f seq w v :=
  (ways_follow p hp hw h).2.2 rfl

/-- Only the end itself is required without a step over a node. -/
theorem Ready.of_ne_atEnd {p : Pattern} {endAllowed : Bool} (hp : Ready slots p endAllowed)
    (ne : p ≠ .atEnd) : Ready slots p false := by
  cases p with
  | atEnd => exact absurd rfl ne
  | literal _ | any | check _ _ => trivial
  | named _ _ | choice _ | oneOrMore _ | sequence _ | backRef _ => simpa only [Ready] using hp

/-- Before the end of a sequence, items step over a node at least. -/
theorem waysOfItems_lt {p : Pattern} {ps : List Pattern} (hp : ReadyItems slots (p :: ps) true)
    (hw : w.Solid) (hlt : w.position < (f.nodesOf seq).length)
    (h : .ok v ∈ waysOfItems f (p :: ps) seq w) : w.position < v.position := by
  rw [waysOfItems] at h
  obtain ⟨u, hu, hv⟩ := Choices.mem_andThen h
  have ne : p ≠ .atEnd := by
    rintro rfl
    rw [ways, if_neg (Nat.ne_of_lt hlt)] at hu
    cases hu
  have ha := ways_advance (hp.1.of_ne_atEnd ne) hw hu
  have hf := (waysOfItems_follow ps hp.2 (ha.solid hw) hv).1
  exact Nat.lt_of_lt_of_le ha.lt hf.le

mutual

/-- Nothing that consumes a node has a way at the end of a sequence, and no check is asked there. -/
theorem ways_end : ∀ (p : Pattern) {seq w}, Ready slots p false → w.Solid →
    (f.nodesOf seq).length ≤ w.position → ways f p seq w = []
  | .literal s, seq, w, hp, hw, he => by
    rw [ways, List.getElem?_eq_none he, if_neg (by simp)]
  | .check _ _, seq, w, hp, hw, he | .sequence items, seq, w, hp, hw, he => by
    rw [ways, List.getElem?_eq_none he]
  | .any, seq, w, hp, hw, he | .named name [], seq, w, hp, hw, he => by
    rw [ways, if_neg (Nat.not_lt.2 he)]
  | .named name (p :: ps), seq, w, hp, hw, he => by
    rw [ways, waysOfItems_end p ps hp.2.2 hw he]
    rfl
  | .choice alternatives, seq, w, hp, hw, he => by
    rw [ways]
    exact waysOfAlternatives_end alternatives hp.2 hw he
  | .oneOrMore body, seq, w, hp, hw, he => by
    rw [ways, Nat.sub_eq_zero_of_le he]
    rfl
  | .backRef name, seq, w, hp, hw, he => by
    rw [ways]
    split
    · next s hs =>
      rw [if_neg]
      intro hc
      have hlt := hw name s hs
      have hle := stop_le_of_sameContent hc
      simp only [Span.stop] at hle
      omega
    · rfl
  | .atEnd, seq, w, hp, hw, he => by cases hp

theorem waysOfItems_end : ∀ (p : Pattern) (ps : List Pattern) {seq w},
    ReadyItems slots (p :: ps) false → w.Solid → (f.nodesOf seq).length ≤ w.position →
    waysOfItems f (p :: ps) seq w = []
  | p, ps, seq, w, hp, hw, he => by
    rw [waysOfItems, ways_end p hp.1 hw he]
    rfl

theorem waysOfAlternatives_end : ∀ (ps : List Pattern) {seq w}, ReadyAlternatives slots ps →
    w.Solid → (f.nodesOf seq).length ≤ w.position → waysOfAlternatives f ps seq w = []
  | [], seq, w, hp, hw, he => rfl
  | p :: ps, seq, w, hp, hw, he => by
    rw [waysOfAlternatives, ways_end p hp.1 hw he, waysOfAlternatives_end ps hp.2 hw he]
    rfl

end

/-- More turns than there are nodes left make no difference. -/
theorem turns_eq {p : Pattern} (hp : Ready slots p false) :
    ∀ (most most' : Nat) {w}, w.Solid → (f.nodesOf seq).length ≤ w.position + most →
      (f.nodesOf seq).length ≤ w.position + most' →
      turns (ways f p seq) most w = turns (ways f p seq) most' w
  | 0, 0, w, hw, h, h' => rfl
  | 0, most' + 1, w, hw, h, h' => by
    rw [turns, turns, ways_end p hp hw h, Choices.andThen_nil]
  | most + 1, 0, w, hw, h, h' => by
    rw [turns, turns, ways_end p hp hw h', Choices.andThen_nil]
  | most + 1, most' + 1, w, hw, h, h' => by
    rw [turns, turns]
    apply Choices.andThen_congr
    intro v hv
    have ha := ways_advance hp hw hv
    have hlt := ha.lt
    rw [turns_eq hp most most' (ha.solid hw) (by omega) (by omega)]

/-- The law of a repetition: a turn, and then the repetition again or nothing. -/
theorem ways_oneOrMore {p : Pattern} (hp : Ready slots p false) (hw : w.Solid) :
    ways f (.oneOrMore p) seq w =
      (ways f p seq w).andThen fun v => ways f (.oneOrMore p) seq v ++ [.ok v] := by
  rw [ways, turns_eq hp _ ((f.nodesOf seq).length - w.position + 1) hw (by omega) (by omega),
    turns]
  apply Choices.andThen_congr
  intro v hv
  have ha := ways_advance hp hw hv
  have hlt := ha.lt
  rw [ways, turns_eq hp _ ((f.nodesOf seq).length - v.position) (ha.solid hw) (by omega)
    (by omega)]

end Pattern

end NestedRegex
