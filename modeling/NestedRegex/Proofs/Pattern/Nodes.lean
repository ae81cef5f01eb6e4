import NestedRegex.Proofs.Forest.Shows
import NestedRegex.Proofs.Pattern.Progress

namespace NestedRegex

namespace Way

variable {w : Way} {name other : String} {s : Span}

@[simp] theorem bound_past (w : Way) (count : Nat) : (w.past count).bound = w.bound := rfl

@[simp] theorem bound_bind_self : (w.bind name s).bound name = some s :=
  if_pos rfl

@[simp] theorem isSome_bound_bind :
    ((w.bind name s).bound other).isSome ↔ other = name ∨ (w.bound other).isSome := by
  by_cases h : other = name <;> simp [bind, h]

theorem bound_bind_of_ne (h : other ≠ name) : (w.bind name s).bound other = w.bound other :=
  if_neg h

end Way

namespace Pattern

variable {f : Forest} {p q : Pattern} {ps qs : List Pattern} {seq inner : SeqName} {w : Way}
  {n : Node} {nodes : List Node} {name : String} {c : Except (Failure TestError) Way}

/-- Every way of the pattern goes on right behind the node that it began at. -/
def ForOne (f : Forest) (p : Pattern) : Prop :=
  ∀ seq w, ∀ c ∈ ways f p seq w, ∃ v, c = .ok v ∧ v.position = w.position + 1

/-- Somewhere the pattern has a way that begins at the node. -/
def Meets (f : Forest) (p : Pattern) (n : Node) : Prop :=
  ∃ seq w, (f.nodesOf seq)[w.position]? = some n ∧ ways f p seq w ≠ []

theorem waysOfItems_single (f : Forest) (p : Pattern) (seq : SeqName) (w : Way) :
    waysOfItems f [p] seq w = ways f p seq w := by
  rw [waysOfItems]
  generalize ways f p seq w = cs
  induction cs with
  | nil => rfl
  | cons c cs ih =>
    cases c with
    | error e => rw [Choices.andThen_error, ih]
    | ok v => rw [Choices.andThen_ok, ih, waysOfItems, List.singleton_append]

theorem mem_waysOfAlternatives :
    c ∈ waysOfAlternatives f ps seq w ↔ ∃ p ∈ ps, c ∈ ways f p seq w := by
  induction ps with
  | nil => simp [waysOfAlternatives]
  | cons p ps ih => simp [waysOfAlternatives, ih]

/-- A capture is bound on each of its ways, and so is what was bound inside it. -/
theorem bound_of_named {v : Way} (h : .ok v ∈ ways f (.named name (p :: ps)) seq w) :
    (v.bound name).isSome ∧ ∃ u, .ok u ∈ waysOfItems f (p :: ps) seq w ∧
      ∀ other, (u.bound other).isSome → (v.bound other).isSome := by
  rw [ways] at h
  obtain ⟨u, hu, hv⟩ := Choices.mem_andThen h
  obtain rfl := Except.ok.inj (List.mem_singleton.1 hv)
  exact ⟨Way.isSome_bound_bind.2 (.inl rfl), u, hu, fun _ hb => Way.isSome_bound_bind.2 (.inr hb)⟩

/-- Without errors in front, a way of two parts is a way of the first and then one of the second. -/
theorem mem_andThen_ok {cs : Choices Way} {next : Way → Choices Way}
    (sure : ∀ c ∈ cs, ∃ v, c = .ok v) :
    c ∈ cs.andThen next ↔ ∃ v, .ok v ∈ cs ∧ c ∈ next v := by
  constructor
  · intro h
    obtain ⟨d, hd, hc⟩ := List.mem_flatMap.1 h
    obtain ⟨v, rfl⟩ := sure d hd
    exact ⟨v, hd, hc⟩
  · rintro ⟨v, hv, hc⟩
    exact Choices.mem_andThen_of_mem hv hc

section ForOne

theorem ForOne.sure (h : ForOne f p) : ∀ c ∈ ways f p seq w, ∃ v, c = .ok v := by
  intro c hc
  obtain ⟨v, rfl, -⟩ := h seq w c hc
  exact ⟨v, rfl⟩

theorem ForOne.step {v : Way} (h : ForOne f p) (hv : .ok v ∈ ways f p seq w) :
    v.position = w.position + 1 := by
  obtain ⟨u, hu, hstep⟩ := h seq w _ hv
  obtain rfl := Except.ok.inj hu
  exact hstep

/-- Each way of items for one node steps over as many nodes as there are items. -/
theorem ForOne.items (h : ∀ p ∈ ps, ForOne f p) (hc : c ∈ waysOfItems f ps seq w) :
    ∃ v, c = .ok v ∧ v.position = w.position + ps.length := by
  induction ps generalizing w with
  | nil =>
    rw [waysOfItems, List.mem_singleton] at hc
    exact ⟨w, hc, rfl⟩
  | cons p ps ih =>
    have hp := h p List.mem_cons_self
    rw [waysOfItems, mem_andThen_ok hp.sure] at hc
    obtain ⟨u, hu, hc⟩ := hc
    have hstep := hp.step hu
    obtain ⟨v, rfl, hv⟩ := ih (fun q hq => h q (List.mem_cons_of_mem _ hq)) hc
    refine ⟨v, rfl, ?_⟩
    rw [hv, hstep, List.length_cons]
    omega

theorem ForOne.items_sure (h : ∀ p ∈ ps, ForOne f p) :
    ∀ c ∈ waysOfItems f ps seq w, ∃ v, c = .ok v := by
  intro c hc
  obtain ⟨v, rfl, -⟩ := ForOne.items h hc
  exact ⟨v, rfl⟩

@[simp] theorem forOne_literal (s : Scalar) : ForOne f (.literal s) := by
  intro seq w c hc
  rw [ways] at hc
  split at hc
  · exact ⟨w.past 1, List.mem_singleton.1 hc, rfl⟩
  · cases hc

@[simp] theorem forOne_any : ForOne f .any := by
  intro seq w c hc
  rw [ways] at hc
  split at hc
  · exact ⟨w.past 1, List.mem_singleton.1 hc, rfl⟩
  · cases hc

@[simp] theorem forOne_holds (name : String) (test : Forest → Node → Bool) :
    ForOne f (holds name test) := by
  intro seq w c hc
  rw [holds, ways] at hc
  split at hc
  · cases hc
  · split at hc
    · exact ⟨w.past 1, List.mem_singleton.1 hc, rfl⟩
    · cases hc
    · next he => cases he

@[simp] theorem forOne_named (h : ForOne f p) : ForOne f (.named name [p]) := by
  intro seq w c hc
  rw [ways, waysOfItems_single, mem_andThen_ok h.sure] at hc
  obtain ⟨u, hu, hc⟩ := hc
  have hstep := h.step hu
  exact ⟨_, List.mem_singleton.1 hc, hstep⟩

@[simp] theorem forOne_string (s : String) : ForOne f (string s) :=
  forOne_literal (.string s)

@[simp] theorem forOne_capture (name : String) : ForOne f (capture name) :=
  forOne_named forOne_any

@[simp] theorem forOne_choice (h : ∀ p ∈ ps, ForOne f p) : ForOne f (.choice ps) := by
  intro seq w c hc
  rw [ways, mem_waysOfAlternatives] at hc
  obtain ⟨p, hp, hc⟩ := hc
  exact h p hp seq w c hc

@[simp] theorem forOne_sequence (h : ∀ p ∈ ps, ForOne f p) : ForOne f (.sequence ps) := by
  intro seq w c hc
  rw [ways] at hc
  split at hc
  · rw [mem_andThen_ok (ForOne.items_sure h)] at hc
    obtain ⟨u, -, hc⟩ := hc
    split at hc
    · exact ⟨_, List.mem_singleton.1 hc, rfl⟩
    · cases hc
  · cases hc

/-- The end of a sequence is where its items stop anyway. -/
theorem ways_sequence_atEnd (f : Forest) (p : Pattern) :
    ways f (.sequence [p, .atEnd]) = ways f (.sequence [p]) := by
  funext seq w
  rw [ways, ways]
  split
  · next inner _ =>
    simp only [waysOfItems, Choices.andThen_assoc]
    congr 1
    funext v
    rw [ways]
    split
    · next hend => simp [hend]
    · next hend => simp [hend]
  · rfl

theorem forOne_sequence_atEnd (h : ForOne f p) : ForOne f (.sequence [p, .atEnd]) := by
  rw [ForOne, ways_sequence_atEnd]
  exact forOne_sequence (by simpa using h)

end ForOne

section Meets

theorem Meets.literal {s : Scalar} (h : Meets f (.literal s) n) : n = .scalar s := by
  obtain ⟨seq, w, hn, hways⟩ := h
  rw [ways] at hways
  split at hways
  · next hs => exact Option.some.inj (hn.symm.trans hs)
  · exact absurd rfl hways

theorem Meets.named (h : Meets f (.named name [p]) n) : Meets f p n := by
  obtain ⟨seq, w, hn, hways⟩ := h
  refine ⟨seq, w, hn, fun hnil => hways ?_⟩
  rw [ways, waysOfItems_single, hnil]
  rfl

theorem Meets.choice (h : Meets f (.choice ps) n) : ∃ p ∈ ps, Meets f p n := by
  obtain ⟨seq, w, hn, hways⟩ := h
  obtain ⟨c, hc⟩ := List.exists_mem_of_ne_nil _ hways
  rw [ways, mem_waysOfAlternatives] at hc
  obtain ⟨p, hp, hc⟩ := hc
  exact ⟨p, hp, seq, w, hn, List.ne_nil_of_mem hc⟩

/-- A way of items for one node that comes to the end of a sequence meets each node on it. -/
theorem Meets.items (h : ∀ p ∈ ps, ForOne f p) {v : Way} (hv : .ok v ∈ waysOfItems f ps seq w)
    (hend : v.position = (f.nodesOf seq).length) :
    List.Forall₂ (Meets f) ps ((f.nodesOf seq).drop w.position) := by
  induction ps generalizing w with
  | nil =>
    rw [waysOfItems, List.mem_singleton] at hv
    obtain rfl := Except.ok.inj hv
    rw [hend, List.drop_length]
    exact .nil
  | cons p ps ih =>
    have hp := h p List.mem_cons_self
    have hps : ∀ q ∈ ps, ForOne f q := fun q hq => h q (List.mem_cons_of_mem _ hq)
    rw [waysOfItems, mem_andThen_ok hp.sure] at hv
    obtain ⟨u, hu, hv⟩ := hv
    have hstep := hp.step hu
    have hlt : w.position < (f.nodesOf seq).length := by
      obtain ⟨_, hv', hlast⟩ := ForOne.items hps hv
      obtain rfl := Except.ok.inj hv'
      omega
    rw [List.drop_eq_getElem_cons hlt]
    refine .cons ⟨seq, w, List.getElem?_eq_getElem hlt, List.ne_nil_of_mem hu⟩ ?_
    rw [← hstep]
    exact ih hps hv

theorem Meets.sequence (hm : Meets f (.sequence ps) n) (h : ∀ p ∈ ps, ForOne f p) :
    ∃ inner, n = .seq inner ∧ List.Forall₂ (Meets f) ps (f.nodesOf inner) := by
  obtain ⟨seq, w, hn, hways⟩ := hm
  rw [ways, hn] at hways
  cases n with
  | scalar s => exact absurd rfl hways
  | seq inner =>
    obtain ⟨c, hc⟩ := List.exists_mem_of_ne_nil _ hways
    rw [mem_andThen_ok (ForOne.items_sure h)] at hc
    obtain ⟨v, hv, hc⟩ := hc
    split at hc
    · next hend => exact ⟨inner, rfl, Meets.items h hv hend⟩
    · cases hc

end Meets

section Fits

variable {v : Value} {vs : List Value} {names : List SeqName}

/-- Somewhere the pattern has a way that begins at a node that shows the value. -/
def Fits (f : Forest) (p : Pattern) (v : Value) : Prop :=
  ∃ n names, f.Shows v n names ∧ Meets f p n

theorem Fits.literal {s : Scalar} (h : Fits f (.literal s) v) : v = .scalar s := by
  obtain ⟨n, names, hs, hm⟩ := h
  rw [hm.literal] at hs
  cases hs
  rfl

theorem Fits.named (h : Fits f (.named name [p]) v) : Fits f p v := by
  obtain ⟨n, names, hs, hm⟩ := h
  exact ⟨n, names, hs, hm.named⟩

theorem Fits.choice (h : Fits f (.choice ps) v) : ∃ p ∈ ps, Fits f p v := by
  obtain ⟨n, names, hs, hm⟩ := h
  obtain ⟨p, hp, hm⟩ := hm.choice
  exact ⟨p, hp, n, names, hs, hm⟩

theorem Fits.choice_of_mem (h : Fits f p v) (hp : p ∈ ps) : Fits f (.choice ps) v := by
  obtain ⟨n, names, hs, seq, w, hn, hways⟩ := h
  refine ⟨n, names, hs, seq, w, hn, ?_⟩
  obtain ⟨c, hc⟩ := List.exists_mem_of_ne_nil _ hways
  rw [ways]
  exact List.ne_nil_of_mem (mem_waysOfAlternatives.2 ⟨p, hp, hc⟩)

theorem Fits.items (hs : f.ShowsItems vs nodes names) (hm : List.Forall₂ (Meets f) ps nodes) :
    List.Forall₂ (Fits f) ps vs := by
  induction hm generalizing vs names with
  | nil =>
    cases hs
    exact .nil
  | cons hm _ ih =>
    cases hs with
    | cons hv hvs _ => exact .cons ⟨_, _, hv, hm⟩ (ih hvs)

theorem Fits.sequence (h : Fits f (.sequence ps) v) (one : ∀ p ∈ ps, ForOne f p) :
    ∃ vs, v = .seq vs ∧ List.Forall₂ (Fits f) ps vs := by
  obtain ⟨n, names, hs, hm⟩ := h
  obtain ⟨inner, rfl, hmeets⟩ := hm.sequence one
  cases hs with
  | @seq vs _ nodes _ hc hvs _ =>
    rw [Forest.nodesOf_eq hc] at hmeets
    exact ⟨vs, rfl, Fits.items hvs hmeets⟩

theorem Fits.sequence_atEnd (h : Fits f (.sequence [p, .atEnd]) v) : Fits f (.sequence [p]) v := by
  obtain ⟨n, names, hs, seq, w, hn, hways⟩ := h
  rw [ways_sequence_atEnd] at hways
  exact ⟨n, names, hs, seq, w, hn, hways⟩

end Fits

/-- The ways of a sequence at a node that is one. -/
theorem ways_sequence (hn : (f.nodesOf seq)[w.position]? = some (.seq inner))
    (hc : f.children? inner = some nodes) (ps : List Pattern) :
    ways f (.sequence ps) seq w =
      (waysOfItems f ps inner { w with position := 0 }).andThen fun v =>
        if v.position = nodes.length then [.ok { v with position := w.position + 1 }] else [] := by
  rw [ways, hn]
  simp only [Forest.nodesOf_eq hc]

end Pattern

end NestedRegex
