import NestedRegex.Proofs.Match.Bound
import NestedRegex.Proofs.Pass.Edits
import NestedRegex.Proofs.Pass.Finds
import NestedRegex.Proofs.Search.Rewrites

namespace NestedRegex

open Match Pattern

/-- Edits below a node rewrote the match of this node. -/
theorem Match.Reworked.rewrote {m m' : Match} {home id : SeqName} {front back : List Node}
    {names names' : List SeqName} {w : Value} (h : Reworked m m' id names w names')
    (hc : m.forest.children? home = some (front ++ .seq id :: back)) (hid : home ∉ names)
    (hw : m.span m.whole = .ok ⟨home, front.length, 1⟩) :
    Search.Rewrote m.forest m' home front back names w (.seq id) names' where
  edited := h.edited.mono (List.subset_cons_self home names)
  children := h.edited.others hid hc
  shows := h.shows
  renews := h.renews
  whole _ hs := Except.ok.inj ((h.held hs).symm.trans hw)

namespace Pass

/-- A pattern finds the nodes that a rule rewrites, and the edits rewrite them. -/
structure Enacts (p : Pattern) (rule : Rule) : Prop where
  fits : ∀ {f v}, Fits f p v → (rule.apply v).isSome
  rewrites : ∀ {f : Forest} {home : SeqName} {front back : List Node} {n : Node} {v w : Value}
    {names : List SeqName}, f.Closed → f.Acyclic →
    f.children? home = some (front ++ n :: back) → f.Shows v n names → home ∉ names →
    rule.apply v = some w → ∃ way rest,
      ways f p home ⟨front.length, fun _ => none⟩ = .ok way :: rest ∧
      way.position = front.length + 1 ∧
      (∀ name, (way.bound name).isSome → name ∈ captures p) ∧
      ∀ m : Match, m.forest = f → Binds m ⟨home, front.length, 1⟩ way.bound →
        ∃ m' n' names', edits m = .ok () m' ∧ Search.Rewrote f m' home front back names w n' names'

/-- The edits where nothing but a name and parameters is bound. -/
theorem edits_naming {m m₁ m₃ : Match} {whole : Span} {bound : String → Option Span}
    (hm : Binds m whole bound) (only : ∀ name ∉ ["thing", "args"], bound name = none)
    (h₁ : IfBound "thing" upcaseName m m₁) (h₃ : IfBound "args" upcaseParameters m₁ m₃)
    (same₁ : ∀ name, m₁.get? name = m.get? name) (same₃ : ∀ name, m₃.get? name = m.get? name) :
    edits m = .ok () m₃ :=
  edits_ok h₁ (ifBound_of_none ((same₁ _).trans (hm.get?_eq_none only (by decide)))) h₃
    (turnedIfBound_of_none ((same₃ _).trans (hm.get?_eq_none only (by decide))))
    (unwrappedIfBound_of_none ((same₃ _).trans (hm.get?_eq_none only (by decide))))

section Rules

variable {f : Forest} {home id : SeqName} {front back : List Node} {n : Node} {v w : Value}
  {names : List SeqName}

theorem node_at (hc : f.children? home = some (front ++ n :: back)) :
    (f.nodesOf home)[front.length]? = some n := by
  rw [Forest.nodesOf_eq hc]
  simp

/-- Where a name is all that is bound, it is put in upper case. -/
theorem edits_thing {m : Match} {whole : Span} {before after : List Value}
    {bound : String → Option Span} (hf : m.forest.Closed) (ha : m.forest.Acyclic)
    (hm : Binds m whole bound) (only : ∀ name ∉ ["thing"], bound name = none)
    (hthing : bound "thing" = some ⟨id, front.length, 1⟩)
    (hs : m.forest.Shows (.seq (before ++ v :: after)) (.seq id) names)
    (hc : m.forest.children? id = some (front ++ n :: back)) (hl : before.length = front.length) :
    ∃ m' names', edits m = .ok () m' ∧
      Reworked m m' id names (.seq (before ++ v.upcased :: after)) names' := by
  obtain ⟨h, hget, hspan⟩ := hm.held (by decide) hthing
  have hwhole : m.whole.index ≠ h.index :=
    hm.apart (by decide : wholeName ≠ "thing") (get?_wholeName m) hget
  obtain ⟨m', n', fresh, names', hrun, -, hwork⟩ :=
    refill_ok hf ha hs hc hl hspan hwhole v.upcased
  obtain ⟨xs, hv, -⟩ := hs.update hc hl
  rw [← upcaseName_eq (first_ok hc rfl rfl hspan) hv] at hrun
  have hargs := (hwork.get "args").trans (hm.get?_eq_none only (by decide))
  have hsub : ["thing"] ⊆ ["thing", "args"] := List.cons_subset_cons _ (List.nil_subset _)
  exact ⟨m', names', edits_naming hm (fun name hname => only name fun hin => hname (hsub hin))
    (ifBound_of_some hget hrun) (ifBound_of_none hargs) hwork.get hwork.get, hwork⟩

theorem enacts_name : Enacts namePattern Rule.upcaseName where
  fits := name_of_fits
  rewrites {f home front back n v w names} hf ha hc hs hid hr := by
    obtain ⟨x, rfl, rfl⟩ := Rule.upcaseName_eq_some_iff.1 hr
    obtain ⟨id, nodes, rfl, hi, hl⟩ := hs.tagged
    obtain ⟨nx, rfl⟩ := List.length_eq_one_iff.1 hl
    refine ⟨_, _, ways_name (node_at hc) hi, rfl, ?_, ?_⟩
    · intro name hname
      simpa [namePattern, captures, capturesOfItems, string, capture] using hname
    · rintro m rfl hm
      have hs' : m.forest.Shows (.seq ([.scalar (.string "name")] ++ x :: [])) (.seq id) names := hs
      have hi' : m.forest.children? id = some ([.scalar (.string "name")] ++ nx :: []) := hi
      obtain ⟨m', names', hrun, hwork⟩ := edits_thing hf ha hm
        (fun name hname => Way.bound_bind_of_ne (List.ne_of_not_mem_cons hname))
        Way.bound_bind_self hs' hi' rfl
      exact ⟨m', _, names', hrun, hwork.rewrote hc hid hm.whole⟩

theorem enacts_property : Enacts propertyPattern Rule.upcaseProperty where
  fits := property_of_fits
  rewrites {f home front back n v w names} hf ha hc hs hid hr := by
    obtain ⟨x, y, rfl, rfl⟩ := Rule.upcaseProperty_eq_some_iff.1 hr
    obtain ⟨id, nodes, rfl, hi, hl⟩ := hs.tagged
    obtain ⟨nx, ny, rfl⟩ := List.length_eq_two.1 hl
    refine ⟨_, _, ways_property (node_at hc) hi, rfl, ?_, ?_⟩
    · intro name hname
      simpa [propertyPattern, captures, capturesOfItems, string, capture] using hname
    · rintro m rfl hm
      have hs' : m.forest.Shows (.seq ([.scalar (.string "dot"), x] ++ y :: [])) (.seq id) names :=
        hs
      have hi' : m.forest.children? id = some ([.scalar (.string "dot"), nx] ++ ny :: []) := hi
      obtain ⟨m', names', hrun, hwork⟩ := edits_thing hf ha hm
        (fun name hname => Way.bound_bind_of_ne (List.ne_of_not_mem_cons hname))
        Way.bound_bind_self hs' hi' rfl
      exact ⟨m', _, names', hrun, hwork.rewrote hc hid hm.whole⟩

/-- The name of a function, if one is bound, is put in upper case; its parameters are still held. -/
theorem upcaseFunctionName_ok {m : Match} {whole : Span} {bound : String → Option Span}
    {tag : String} {x y z : Value} {nx ny nz : Node} {args : Handle} (hf : m.forest.Closed)
    (ha : m.forest.Acyclic) (hm : Binds m whole bound)
    (hthing : bound "thing" = if x = .scalar .null then none else some ⟨id, 1, 1⟩)
    (hget : m.get? "args" = some args) (hspan : m.span args = .ok ⟨id, 2, 1⟩)
    (hs : m.forest.Shows (.seq [.scalar (.string tag), x, y, z]) (.seq id) names)
    (hc : m.forest.children? id = some [.scalar (.string tag), nx, ny, nz]) :
    ∃ m₁ nx' names₁, IfBound "thing" upcaseName m m₁ ∧
      Reworked m m₁ id names
        (.seq [.scalar (.string tag), x.functionName, y, z]) names₁ ∧
      m₁.forest.children? id = some [.scalar (.string tag), nx', ny, nz] ∧
      m₁.span args = .ok ⟨id, 2, 1⟩ := by
  by_cases hx : x = .scalar .null
  · rw [if_pos hx] at hthing
    refine ⟨m, nx, names, ifBound_of_none (hm.free (by decide) hthing), ?_, hc, hspan⟩
    rw [hx, Value.functionName_null, ← hx]
    exact .refl hf ha hs
  · rw [if_neg hx] at hthing
    obtain ⟨h, hgetThing, hspanThing⟩ := hm.held (by decide) hthing
    have hwhole : m.whole.index ≠ h.index :=
      hm.apart (by decide : wholeName ≠ "thing") (get?_wholeName m) hgetThing
    have hargs : args.index ≠ h.index := hm.apart (by decide : "args" ≠ "thing") hget hgetThing
    have hs' : m.forest.Shows (.seq ([.scalar (.string tag)] ++ x :: [y, z])) (.seq id) names := hs
    have hc' : m.forest.children? id = some ([.scalar (.string tag)] ++ nx :: [ny, nz]) := hc
    obtain ⟨xs, hv, -⟩ := hs'.update hc' rfl
    obtain ⟨m₁, nx', fresh, names₁, hrun, hput, hwork⟩ :=
      refill_ok hf ha hs' hc' rfl hspanThing hwhole x.upcased
    rw [← upcaseName_eq (first_ok hc' rfl rfl hspanThing) hv] at hrun
    refine ⟨m₁, nx', names₁, ifBound_of_some hgetThing hrun, ?_, hput.children, ?_⟩
    · rw [Value.functionName_of_ne hx]
      exact hwork
    · exact hput.kept hargs hspan .refl fun _ => .inr (Nat.le_refl _)

/-- The name and the parameters of a function, where nothing else is bound, are put in upper
case. -/
theorem edits_function {m : Match} {whole : Span} {bound : String → Option Span} {tag : String}
    {x y z : Value} {nx ny nz : Node} (hf : m.forest.Closed) (ha : m.forest.Acyclic)
    (hm : Binds m whole bound)
    (only : ∀ name ∉ ["thing", "args"], bound name = none)
    (hthing : bound "thing" = if x = .scalar .null then none else some ⟨id, 1, 1⟩)
    (hargs : bound "args" = some ⟨id, 2, 1⟩)
    (hs : m.forest.Shows (.seq [.scalar (.string tag), x, y, z]) (.seq id) names)
    (hc : m.forest.children? id = some [.scalar (.string tag), nx, ny, nz]) :
    ∃ m' names', edits m = .ok () m' ∧ Reworked m m' id names
      (.seq [.scalar (.string tag), x.functionName, y.parameters, z]) names' := by
  obtain ⟨args, hget, hspan⟩ := hm.held (by decide) hargs
  obtain ⟨m₁, nx', names₁, h₁, hwork₁, hc₁, hspan₁⟩ :=
    upcaseFunctionName_ok hf ha hm hthing hget hspan hs hc
  have hs₁ : m₁.forest.Shows (.seq ([.scalar (.string tag), x.functionName] ++ y :: [z]))
    (.seq id) names₁ := hwork₁.shows
  have hc₁' : m₁.forest.children? id = some ([.scalar (.string tag), nx'] ++ ny :: [nz]) := hc₁
  have hwhole : m₁.whole.index ≠ args.index := by
    rw [hwork₁.whole]
    exact hm.apart (by decide : wholeName ≠ "args") (get?_wholeName m) hget
  obtain ⟨ys, hy, -⟩ := hs₁.update hc₁' rfl
  obtain ⟨m', -, -, names', hrun, -, hwork'⟩ := refill_ok hwork₁.edited.closed
    hwork₁.edited.acyclic hs₁ hc₁' rfl hspan₁ hwhole y.parameters
  rw [← upcaseParameters_eq (first_ok hc₁' rfl rfl hspan₁) hy] at hrun
  have hwork := hwork₁.trans hwork'
  exact ⟨m', names', edits_naming hm only h₁ (ifBound_of_some ((hwork₁.get _).trans hget) hrun)
    hwork₁.get hwork.get, hwork⟩

theorem enacts_function : Enacts functionPattern Rule.upcaseFunction where
  fits := function_of_fits
  rewrites {f home front back n v w names} hf ha hc hs hid hr := by
    obtain ⟨tag, x, y, z, htag, rfl, rfl⟩ := Rule.upcaseFunction_eq_some_iff.1 hr
    obtain ⟨id, nodes, rfl, hi, hl⟩ := hs.tagged
    obtain ⟨nx, ny, nz, rfl⟩ := List.length_eq_three.1 hl
    obtain ⟨rest, hways⟩ := ways_function (w := ⟨front.length, fun _ => none⟩) htag (node_at hc) hi
    refine ⟨_, rest, hways, ?_, ?_, ?_⟩
    · cases nx.isNull <;> rfl
    · intro name hname
      have hin : name = "args" ∨ name = "thing" := by
        rcases Way.isSome_bound_bind.1 hname with hargs | hthing
        · exact .inl hargs
        · cases hx : nx.isNull <;> simp [hx] at hthing
          exact .inr hthing
      rcases hin with rfl | rfl <;>
        simp [functionPattern, captures, capturesOfItems, string, capture, holds]
    · rintro m rfl hm
      have hs' : m.forest.Shows (.seq ([.scalar (.string tag)] ++ x :: [y, z])) (.seq id) names :=
        hs
      have hi' : m.forest.children? id = some ([.scalar (.string tag)] ++ nx :: [ny, nz]) := hi
      obtain ⟨xs, hx, -⟩ := hs'.update hi' rfl
      obtain ⟨m', names', hrun, hwork⟩ := edits_function hf ha hm
        (fun name hname => by
          simp only [List.mem_cons, List.not_mem_nil, or_false, not_or] at hname
          cases nx.isNull <;> simp [Way.bind, Way.past, hname])
        (by cases hn : nx.isNull <;> simp [hn, Way.bind, Way.past, ← hx.isNull_iff])
        Way.bound_bind_self hs hi
      exact ⟨m', _, names', hrun, hwork.rewrote hc hid hm.whole⟩

theorem enacts_declarations : Enacts declarationsPattern Rule.upcaseDeclarations where
  fits := declarations_of_fits
  rewrites {f home front back n v w names} hf ha hc hs hid hr := by
    obtain ⟨tag, x, htag, rfl, rfl⟩ := Rule.upcaseDeclarations_eq_some_iff.1 hr
    obtain ⟨id, nodes, rfl, hi, hl⟩ := hs.tagged
    obtain ⟨nx, rfl⟩ := List.length_eq_one_iff.1 hl
    refine ⟨_, _, ways_declarations htag (node_at hc) hi, rfl, ?_, ?_⟩
    · intro name hname
      simpa [declarationsPattern, captures, capturesOfItems, string, capture] using hname
    · rintro m rfl hm
      obtain ⟨defs, hget, hspan⟩ := hm.held (by decide : "defs" ≠ wholeName) Way.bound_bind_self
      have hs' : m.forest.Shows (.seq ([.scalar (.string tag)] ++ x :: [])) (.seq id) names := hs
      have hi' : m.forest.children? id = some ([.scalar (.string tag)] ++ nx :: []) := hi
      have hfirst := first_ok hi' rfl rfl hspan
      obtain ⟨m', names', hrun, hwork⟩ := upcaseDeclarations_ok hf ha hs' hi' rfl hfirst
      have hfree : ∀ name ∉ [wholeName, "defs"], m.get? name = none := fun name hname =>
        hm.get?_eq_none (fun _ h => Way.bound_bind_of_ne (List.ne_of_not_mem_cons h)) hname
      have hfree' : ∀ name ∉ [wholeName, "defs"], m'.get? name = none :=
        fun name hname => (hwork.get name).trans (hfree name hname)
      have hedits : edits m = .ok () m' :=
        edits_ok (ifBound_of_none (hfree _ (by decide))) (ifBound_of_some hget hrun)
          (ifBound_of_none (hfree' _ (by decide))) (turnedIfBound_of_none (hfree' _ (by decide)))
          (unwrappedIfBound_of_none (hfree' _ (by decide)))
      exact ⟨m', _, names', hedits, hwork.rewrote hc hid hm.whole⟩

theorem flipped_eq (operator : String) :
    flipped (.scalar (.string operator)) = Value.opposite operator := by
  have hstring : Node.string? (.scalar (.string operator)) = some operator := rfl
  rw [flipped, hstring, Value.opposite]
  simp only [Option.some.injEq]

/-- A comparison is turned around, and its branches change places. -/
theorem flipComparison_ok {m : Match} {operator : String} {below : SeqName} {o t e : Handle}
    {x y thenValue elseValue : Value} {nx ny nt ne : Node} (hf : m.forest.Closed)
    (ha : m.forest.Acyclic) (hwhole : m.span m.whole = .ok ⟨home, front.length, 1⟩)
    (ho : m.span o = .ok ⟨below, 1, 1⟩) (ht : m.span t = .ok ⟨id, 2, 1⟩)
    (he : m.span e = .ok ⟨id, 3, 1⟩) (how : m.whole.index ≠ o.index) (hto : t.index ≠ o.index)
    (heo : e.index ≠ o.index) (hid : home ∉ names)
    (hs : m.forest.Shows (.seq [.scalar (.string "if"), .seq [.scalar (.string "binary"),
      .scalar (.string operator), x, y], thenValue, elseValue]) (.seq id) names)
    (hi : m.forest.children? id = some [.scalar (.string "if"), .seq below, nt, ne])
    (hb : m.forest.children? below =
      some [.scalar (.string "binary"), .scalar (.string operator), nx, ny]) :
    ∃ m' names', flipComparison o t e m = .ok () m' ∧
      Reworked m m' id names (.seq [.scalar (.string "if"), .seq [.scalar (.string "binary"),
        .scalar (.string (Value.opposite operator)), x, y], elseValue, thenValue]) names' := by
  have hs' : m.forest.Shows (.seq ([.scalar (.string "if")] ++ .seq [.scalar (.string "binary"),
    .scalar (.string operator), x, y] :: [thenValue, elseValue])) (.seq id) names := hs
  have hi' : m.forest.children? id = some ([.scalar (.string "if")] ++ .seq below :: [nt, ne]) := hi
  obtain ⟨xs, hcond, -, hidxs, hbelow⟩ := reworked_below hs' hi' rfl
  have hcond' : m.forest.Shows (.seq ([.scalar (.string "binary")] ++
    .scalar (.string operator) :: [x, y])) (.seq below) xs := hcond
  have hb' : m.forest.children? below = some ([.scalar (.string "binary")] ++
    .scalar (.string operator) :: [nx, ny]) := hb
  obtain ⟨m₁, _, _, xs₁, hrun, hput, hwork⟩ := refill_ok hf ha hcond' hb' rfl ho how
    (.scalar (.string (Value.opposite operator)))
  obtain ⟨hi₁, names₁, hwork₁⟩ := hbelow hwork
  -- The branches are in the sequence above the one that the operator is in.
  have hreach : m.forest.Reaches id below := .single ⟨_, hi, by simp⟩
  have hapart : id ≠ below := fun h => hidxs (h ▸ hcond.mem_names)
  have ht₁ := hput.kept hto ht hreach fun h => absurd h hapart
  have he₁ := hput.kept heo he hreach fun h => absurd h hapart
  have hs₁ : m₁.forest.Shows (.seq ([.scalar (.string "if"), .seq [.scalar (.string "binary"),
    .scalar (.string (Value.opposite operator)), x, y]] ++ thenValue :: elseValue :: []))
    (.seq id) names₁ := hwork₁.shows
  have hi₁' : m₁.forest.children? id =
    some ([.scalar (.string "if"), .seq below] ++ nt :: ne :: []) := hi₁
  have hw₁ : ∀ {s}, m₁.span m₁.whole = .ok s → s.seq ≠ id := by
    intro s hspan hseq
    obtain rfl := Except.ok.inj ((hwork₁.held hspan).symm.trans hwhole)
    obtain rfl : home = id := hseq
    exact hid hs.mem_names
  obtain ⟨m', names', hrun', hwork'⟩ := exchange_items_ok hwork₁.edited.closed
    hwork₁.edited.acyclic hs₁ hi₁' rfl he₁ ht₁ hw₁
  refine ⟨m', names', ?_, hwork₁.trans hwork'⟩
  rw [flipComparison, Edit.bind_ok (Edit.ask_ok (first_ok hb' rfl rfl ho)), flipped_eq,
    Edit.bind_ok hrun, hrun']

/-- A comparison, where nothing else is bound, is turned around. -/
theorem edits_comparison {m : Match} {bound : String → Option Span} {operator : String}
    {below : SeqName} {x y t e : Value} {nx ny nt ne : Node} (hf : m.forest.Closed)
    (ha : m.forest.Acyclic) (hm : Binds m ⟨home, front.length, 1⟩ bound)
    (only : ∀ name ∉ ["operator", "t", "e"], bound name = none)
    (hoperator : bound "operator" = some ⟨below, 1, 1⟩) (ht : bound "t" = some ⟨id, 2, 1⟩)
    (he : bound "e" = some ⟨id, 3, 1⟩) (hid : home ∉ names)
    (hs : m.forest.Shows (.seq [.scalar (.string "if"), .seq [.scalar (.string "binary"),
      .scalar (.string operator), x, y], t, e]) (.seq id) names)
    (hi : m.forest.children? id = some [.scalar (.string "if"), .seq below, nt, ne])
    (hb : m.forest.children? below =
      some [.scalar (.string "binary"), .scalar (.string operator), nx, ny]) :
    ∃ m' names', edits m = .ok () m' ∧
      Reworked m m' id names (.seq [.scalar (.string "if"), .seq [.scalar (.string "binary"),
        .scalar (.string (Value.opposite operator)), x, y], e, t]) names' := by
  obtain ⟨o, hgetO, hspanO⟩ := hm.held (by decide) hoperator
  obtain ⟨u, hgetT, hspanT⟩ := hm.held (by decide) ht
  obtain ⟨k, hgetE, hspanE⟩ := hm.held (by decide) he
  have hwhole : m.whole.index ≠ o.index :=
    hm.apart (by decide : wholeName ≠ "operator") (get?_wholeName m) hgetO
  obtain ⟨m', names', hrun, hwork⟩ := flipComparison_ok hf ha hm.whole hspanO hspanT hspanE hwhole
    (hm.apart (by decide : "t" ≠ "operator") hgetT hgetO)
    (hm.apart (by decide : "e" ≠ "operator") hgetE hgetO) hid hs hi hb
  have hfree : ∀ name ∉ [wholeName, "operator", "t", "e"], m.get? name = none :=
    fun name hname => hm.get?_eq_none only hname
  have hturned : TurnedIfBound m m' := by
    rw [TurnedIfBound, hgetO, hgetT, hgetE]
    exact hrun
  have hblock := (hwork.get "one_block").trans (hfree _ (by decide))
  exact ⟨m', names', edits_ok (ifBound_of_none (hfree _ (by decide)))
    (ifBound_of_none (hfree _ (by decide))) (ifBound_of_none (hfree _ (by decide))) hturned
    (unwrappedIfBound_of_none hblock), hwork⟩

theorem enacts_comparison : Enacts comparisonRule Rule.turnComparison where
  fits := comparison_of_fits
  rewrites {f home front back n v w names} hf ha hc hs hid hr := by
    obtain ⟨c, c', t, e, hturned, rfl, rfl⟩ := Rule.turnComparison_eq_some_iff.1 hr
    obtain ⟨operator, x, y, ho, rfl, rfl⟩ := Value.turnedAround_eq_some_iff.1 hturned
    obtain ⟨id, nodes, rfl, hi, hl⟩ := hs.tagged
    obtain ⟨nc, nt, ne, rfl⟩ := List.length_eq_three.1 hl
    have hs' : f.Shows (.seq ([.scalar (.string "if")] ++ .seq [.scalar (.string "binary"),
      .scalar (.string operator), x, y] :: [t, e])) (.seq id) names := hs
    have hi' : f.children? id = some ([.scalar (.string "if")] ++ nc :: [nt, ne]) := hi
    obtain ⟨xs, hcond, -⟩ := hs'.update hi' rfl
    obtain ⟨below, inner, rfl, hb, hl⟩ := hcond.tagged
    obtain ⟨no, nx, ny, rfl⟩ := List.length_eq_three.1 hl
    have hcond' : f.Shows (.seq ([.scalar (.string "binary")] ++
      .scalar (.string operator) :: [x, y])) (.seq below) xs := hcond
    have hb' : f.children? below = some ([.scalar (.string "binary")] ++ no :: [nx, ny]) := hb
    obtain ⟨os, hop, -⟩ := hcond'.update hb' rfl
    cases hop
    refine ⟨_, _, ways_comparison ho (node_at hc) hi hb, rfl, ?_, ?_⟩
    · intro name hname
      have hin : name = "e" ∨ name = "t" ∨ name = "operator" := by simpa using hname
      rcases hin with rfl | rfl | rfl <;>
        simp [comparisonRule, conditionPattern, captures, capturesOfItems, string, capture]
    · rintro m rfl hm
      obtain ⟨m', names', hrun, hwork⟩ := edits_comparison hf ha hm
        (fun name hname => by
          simp only [List.mem_cons, List.not_mem_nil, or_false, not_or] at hname
          simp [Way.bind, Way.past, hname])
        ((Way.bound_bind_of_ne (by decide)).trans
          ((Way.bound_bind_of_ne (by decide)).trans Way.bound_bind_self))
        ((Way.bound_bind_of_ne (by decide)).trans Way.bound_bind_self) Way.bound_bind_self
        hid hs hi hb
      exact ⟨m', _, names', hrun, hwork.rewrote hc hid hm.whole⟩

theorem enacts_block : Enacts singleBlock Rule.unwrapBlock where
  fits := block_of_fits
  rewrites {f home front back n v w names} hf ha hc hs hid hr := by
    obtain rfl := Rule.unwrapBlock_eq_some_iff.1 hr
    obtain ⟨id, nodes, rfl, hi, hl⟩ := hs.tagged
    obtain ⟨nb, rfl⟩ := List.length_eq_one_iff.1 hl
    have hs' : f.Shows (.seq ([.scalar (.string "block")] ++ .seq [w] :: [])) (.seq id) names := hs
    have hi' : f.children? id = some ([.scalar (.string "block")] ++ nb :: []) := hi
    obtain ⟨xs, hlist, -⟩ := hs'.update hi' rfl
    cases hlist with
    | @seq _ below inner ys hb hws _ =>
      obtain ⟨ns, rfl⟩ := List.length_eq_one_iff.1 hws.length
      refine ⟨_, _, ways_block (node_at hc) hi hb, rfl, ?_, ?_⟩
      · intro name hname
        simpa [singleBlock, captures, capturesOfItems, string, capture] using hname
      · rintro m rfl hm
        obtain ⟨block, hgetB, hspanB⟩ :=
          hm.held (by decide : "one_block" ≠ wholeName) Way.bound_bind_self
        obtain ⟨statement, hgetS, hspanS⟩ := hm.held (by decide : "one_stat" ≠ wholeName)
          ((Way.bound_bind_of_ne (by decide)).trans Way.bound_bind_self)
        have hwhole : m.whole.index ≠ block.index :=
          hm.apart (by decide : wholeName ≠ "one_block") (get?_wholeName m) hgetB
        have hb' : m.forest.children? below = some ([] ++ ns :: []) := hb
        obtain ⟨m', n', fresh, hrun, hput⟩ :=
          putCopy_ok hf ha hc rfl rfl hspanB hspanS hb' rfl rfl
        have hvalue : m.forest.value ns = w := by
          cases hws with
          | cons hw _ _ => exact hw.value hf ha
        rw [hvalue] at hput
        have hfree : ∀ name ∉ [wholeName, "one_block", "one_stat"], m.get? name = none := by
          refine fun name hname => hm.get?_eq_none (fun other h => ?_) hname
          simp only [List.mem_cons, List.not_mem_nil, or_false, not_or] at h
          exact (Way.bound_bind_of_ne h.1).trans (Way.bound_bind_of_ne h.2)
        have hunwrapped : UnwrappedIfBound m m' := by
          rw [UnwrappedIfBound, hgetB, hgetS]
          exact hrun
        have hedits : edits m = .ok () m' :=
          edits_ok (ifBound_of_none (hfree _ (by decide))) (ifBound_of_none (hfree _ (by decide)))
            (ifBound_of_none (hfree _ (by decide))) (turnedIfBound_of_none (hfree _ (by decide)))
            hunwrapped
        refine ⟨m', n', fresh, hedits, hput.edited.mono (by simp), hput.children, hput.shows,
          fun x hx => .inr (hput.fresh x hx), fun s hspan => ?_⟩
        rw [hput.whole] at hspan
        exact Except.ok.inj ((hput.held hwhole hspan).symm.trans hm.whole)

end Rules

end Pass

end NestedRegex
