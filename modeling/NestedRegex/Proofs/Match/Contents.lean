import NestedRegex.Proofs.Match.Runs

namespace NestedRegex.Match

variable {allowed : Operation → Prop} {m m' : Match} {r : SeqName}

/-- The match beside the same sequences with another root. -/
def rerooted (m : Match) (r : SeqName) : Match :=
  { m with forest := { m.forest with root := r } }

theorem loaded_rerooted {f g : Forest} {nodes : List Node} (h : Forest.Loaded f g nodes)
    (r : SeqName) : Forest.Loaded { f with root := r } { g with root := r } nodes where
  grows := { h.grows with root := rfl }
  closed := h.closed
  acyclic := h.acyclic
  holds := h.holds
  fresh := h.fresh
  once := h.once

theorem Replaced.rerooted {h : Handle} {nodes front old back : List Node} {s : Span}
    {kept gone : NameSet} (hr : Replaced m m' h nodes s front old back kept gone) (r : SeqName) :
    Replaced (m.rerooted r) (m'.rerooted r) h nodes s front old back kept gone where
  span := hr.span
  before := hr.before
  start := hr.start
  length := hr.length
  holds := hr.holds
  kept_iff := hr.kept_iff
  apart := hr.apart
  gone_iff := hr.gone_iff
  result := congrArg (·.rerooted r) hr.result

theorem Swapped.rerooted {a b : Handle} {x y : Span} {xs ys frontX backX frontY backY : List Node}
    (hs : Swapped m m' a b x y xs ys frontX backX frontY backY) (r : SeqName) :
    Swapped (m.rerooted r) (m'.rerooted r) a b x y xs ys frontX backX frontY backY :=
  { hs with result := congrArg (·.rerooted r) hs.result }

theorem Effect.rerooted (h : Effect allowed m m') (r : SeqName) :
    Effect allowed (m.rerooted r) (m'.rerooted r) := by
  cases h with
  | refused => exact .refused
  | loaded hg => exact .loaded (loaded_rerooted hg r)
  | put hg hr => exact .put (loaded_rerooted hg r) (hr.rerooted r)
  | replaced given hr => exact .replaced given (hr.rerooted r)
  | swapped hs => exact .swapped (hs.rerooted r)

/-- A match in good order beside its sequence as the root stays so through every run. -/
theorem sound_rerooted_run {home : SeqName} {front back : List Node}
    (hm : (m.rerooted home).Sound home front back) (h : Run allowed m m') :
    (m'.rerooted home).Sound home front back := by
  induction h with
  | refl => exact hm
  | @tail m m' _ hstep ih =>
    have hf : m.forest.Closed := ih.closed
    have ha : m.forest.Acyclic := ih.acyclic
    exact ih.effect ((hstep.effect hf ha).rerooted home)

/-- The nodes of a handle have values. -/
theorem values_ok {h : Handle} {nodes : List Node} (hf : m.forest.Closed) (ha : m.forest.Acyclic)
    (hn : m.content h = .ok nodes) : m.values h = .ok (nodes.map m.forest.value) := by
  obtain ⟨s, -, hs⟩ := content_eq_ok_iff.1 hn
  have read : nodes.mapM m.forest.read = .ok (nodes.map m.forest.value) :=
    List.mapM_ok fun n hin => Forest.read_ok hf ha
      ((hf.holds_of_nodes? hs).mono (List.cons_subset.2 ⟨hin, List.nil_subset _⟩))
  simp only [values, hn, Except.mapError, bind, Except.bind, read, orFault_ok]

variable {items : List Pattern} {p : Program} {f : Forest} {seq : SeqName} {start id : Nat}
  {b : Captures} {s : Span} {h : Handle}

/-- After any run of operations on a match just found the forest is closed and has no cycles, and
every valid handle has nodes. -/
theorem content_of_run (hp : Program.compileAll items = .ok p) (hf : f.Closed) (ha : f.Acyclic)
    (hc : f.contains seq = true) (hm : p.match? f seq start = .ok (some b))
    (run : Run allowed (ofCaptures id p f b) m) :
    m.forest.Closed ∧ m.forest.Acyclic ∧
      ∀ h s, m.span h = .ok s → ∃ nodes, m.forest.nodes? s = some nodes := by
  obtain ⟨haround, hheld⟩ := placed_ofCaptures hp hf ha hc hm id
  have hstart : ((ofCaptures id p f b).rerooted seq).Sound seq ((f.nodesOf seq).take start)
      ((f.nodesOf seq).drop b.whole.stop) := ⟨hf, ha, .refl, haround, hheld⟩
  have hsound := sound_rerooted_run hstart run
  refine ⟨hsound.closed, hsound.acyclic, fun h s hs => ?_⟩
  obtain ⟨-, ⟨nodes, hn⟩, -⟩ := hsound.content (h := h) (s := s) hs
  obtain ⟨t, ht, hn⟩ := content_eq_ok_iff.1 hn
  obtain rfl : t = s := Except.ok.inj (ht.symm.trans hs)
  exact ⟨nodes, hn⟩

end NestedRegex.Match
