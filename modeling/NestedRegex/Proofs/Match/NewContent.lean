import NestedRegex.Proofs.Forest.Shows
import NestedRegex.Proofs.Match.Refusals
import NestedRegex.Proofs.Match.Replaces

namespace NestedRegex

namespace Forest

variable {f g : Forest} {nodes front old back : List Node} {id : SeqName}

/-- All that the nodes lead to is not in the first forest and has one place in the second. -/
def NewBelow (f g : Forest) (nodes : List Node) : Prop :=
  ∀ x, g.ReachedFrom nodes x → f.contains x = false ∧ g.places x = 1

/-- A sequence that nodes of another sequence lead to has a place. -/
theorem places_pos_of_reachedFrom (hc : f.children? id = some (front ++ nodes ++ back))
    {x : SeqName} (h : f.ReachedFrom nodes x) : 0 < f.places x := by
  obtain ⟨top, hm, hr⟩ := h
  have htop : f.Child id top := ⟨_, hc, by simp [hm]⟩
  rcases hr.cases_tail with rfl | ⟨parent, -, hchild⟩
  · exact places_pos_of_child htop
  · exact places_pos_of_child hchild

/-- Loaded nodes that take the place of others lead to new sequences only, each named once. -/
theorem Loaded.newBelow {mid : Forest} (hload : Loaded f mid nodes) (hf : f.Closed)
    (hs : Spliced mid g id front old nodes back) (hold : f.Holds old)
    (apart : ¬mid.ReachedFrom nodes id) : f.NewBelow g nodes := by
  intro x hx
  have hnew := hload.fresh x ((hs.reachedFrom_iff apart).1 hx)
  refine ⟨hnew, ?_⟩
  have hpos := places_pos_of_reachedFrom hs.after hx
  have honce := hload.once x
  have hmoved := hs.places x
  have hnone := places_eq_zero hf hnew
  have hcount : old.count (.seq x) = 0 := List.count_eq_zero.2 fun hm => by
    rw [hold x hm] at hnew
    cases hnew
  rw [hnew, if_neg Bool.false_ne_true] at honce
  omega

end Forest

namespace Match

open Forest

variable {m : Match} {h : Handle} {old : List Node}

section Closed

variable (hf : m.forest.Closed) (ha : m.forest.Acyclic)
include hf ha

/-- New values for a handle that has nodes are put in their place and can be read there. -/
theorem putValues_reads_back (hn : m.content h = .ok old) (values : List Value) :
    ∃ m' nodes, putValues h values m = .ok () m' ∧ m'.content h = .ok nodes ∧
      m'.values h = .ok values ∧ m.forest.NewBelow m'.forest nodes := by
  have hload := loaded_loadItems values hf
  obtain ⟨names, hshows, hnew⟩ := shows_loadItems values hf
  obtain ⟨s, hs, hx⟩ := content_eq_ok_iff.1 hn
  obtain ⟨m', hrun⟩ := replace_ok_of_loaded hload hn
  obtain ⟨front, old', back, kept, gone, hr⟩ := replaced_of_replace hload.closed hrun hs
  have hcontent := hr.content_eq (hload.acyclic ha)
  obtain rfl : old' = old := by
    have hbefore := nodes?_eq_some_iff.2 ⟨front, back, hr.before, hr.start, hr.length⟩
    exact Option.some.inj (hbefore.symm.trans (hload.grows.nodes? hx))
  -- The sequences of the new values are not the one that they are put into.
  have hkept : ShowsItems m'.forest values (m.forest.loadItems values).1 names := by
    refine hshows.congr fun x hin below hc => (hr.spliced.other x ?_).trans hc
    rintro rfl
    obtain ⟨front, back, hc, -⟩ := nodes?_eq_some_iff.1 hx
    have hthere : m.forest.contains s.seq = true := contains_iff.2 ⟨_, hc⟩
    rw [hnew _ hin] at hthere
    cases hthere
  have hclosed := hr.closed hload.closed
  have hacyclic := hr.acyclic (hload.acyclic ha)
  refine ⟨m', _, (putValues_eq hn values).trans hrun, hcontent, ?_, ?_⟩
  · rw [values_ok hclosed hacyclic hcontent, hkept.values hclosed hacyclic]
  · exact hload.newBelow hf hr.spliced (hf.holds_of_nodes? hx) hr.apart

end Closed

section Found

variable {items : List Pattern} {p : Program} {f : Forest} {seq : SeqName} {start id : Nat}
  {found : Captures}

/-- After any run of operations on a match just found, putting new values in the place of a valid
handle's nodes is always made, and so is putting copies of the nodes of another valid handle there,
be the two the same, across each other or one below the other. The handle then reads as the values,
or as the source did before, and all sequences below its new nodes are new and have one place in the
whole forest. -/
theorem new_content_reads_back (hp : Program.compileAll items = .ok p) (hf : f.Closed)
    (ha : f.Acyclic) (hc : f.contains seq = true) (hm : p.match? f seq start = .ok (some found))
    (run : Run (fun _ => True) (ofCaptures id p f found) m) (hvalid : m.isValid h = true) :
    (∀ values, ∃ m' nodes, putValues h values m = .ok () m' ∧ m'.content h = .ok nodes ∧
      m'.values h = .ok values ∧ m.forest.NewBelow m'.forest nodes) ∧
    ∀ source, m.isValid source = true → ∃ values m' nodes, m.values source = .ok values ∧
      putCopies h source m = .ok () m' ∧ m'.content h = .ok nodes ∧
      m'.values h = .ok values ∧ m.forest.NewBelow m'.forest nodes := by
  obtain ⟨hclosed, hacyclic, hnodes⟩ := content_of_run hp hf ha hc hm run
  have content : ∀ k, m.isValid k = true → ∃ nodes, m.content k = .ok nodes := by
    intro k hk
    obtain ⟨s, hs⟩ := isValid_iff.1 hk
    obtain ⟨nodes, hn⟩ := hnodes k s hs
    exact ⟨nodes, content_eq_ok_iff.2 ⟨s, hs, hn⟩⟩
  obtain ⟨old, hold⟩ := content h hvalid
  refine ⟨putValues_reads_back hclosed hacyclic hold, fun source hsource => ?_⟩
  obtain ⟨nodes, hn⟩ := content source hsource
  obtain ⟨m', nodes', hrun, hrest⟩ :=
    putValues_reads_back hclosed hacyclic hold (nodes.map m.forest.value)
  exact ⟨_, m', nodes', values_ok hclosed hacyclic hn,
    (putCopies_eq_putValues hclosed hacyclic hn).trans hrun, hrest⟩

/-- A sequence is unwrapped: copies of the two nodes inside it take its place. -/
theorem new_content_reads_back_unwrapped :
    let items : List Pattern := [.named "w" [.sequence [.named "x" [.any, .any]]]]
    let f := Forest.ofValue (.seq [.seq [.scalar (.int 1), .seq [.scalar (.int 2)]]])
    let m := ofCaptures 0 (Program.ofItems items) f
      ⟨⟨⟨2⟩, 0, 1⟩, [some ⟨⟨2⟩, 0, 1⟩, some ⟨⟨1⟩, 0, 2⟩]⟩
    m.isValid ⟨0, 1⟩ = true ∧ m.isValid ⟨0, 2⟩ = true ∧
      m.values ⟨0, 2⟩ = .ok [.scalar (.int 1), .seq [.scalar (.int 2)]] ∧
      ∃ m' nodes, putCopies ⟨0, 1⟩ ⟨0, 2⟩ m = .ok () m' ∧ m'.content ⟨0, 1⟩ = .ok nodes ∧
        m'.values ⟨0, 1⟩ = .ok [.scalar (.int 1), .seq [.scalar (.int 2)]] ∧
        m.forest.NewBelow m'.forest nodes := by
  intro items f m
  have hcompiled : Program.compileAll items = .ok (Program.ofItems items) := by rfl
  have hmatch : (Program.ofItems items).match? f f.root 0 =
      .ok (some ⟨⟨⟨2⟩, 0, 1⟩, [some ⟨⟨2⟩, 0, 1⟩, some ⟨⟨1⟩, 0, 2⟩]⟩) := by
    decide +kernel
  have hw : m.isValid ⟨0, 1⟩ = true := by rfl
  have hx : m.isValid ⟨0, 2⟩ = true := by rfl
  have hread : m.values ⟨0, 2⟩ = .ok [.scalar (.int 1), .seq [.scalar (.int 2)]] := by
    decide +kernel
  obtain ⟨-, hcopies⟩ := new_content_reads_back hcompiled (Forest.closed_ofValue _)
    (Forest.acyclic_ofValue _) (Forest.contains_root_ofValue _) hmatch .refl hw
  obtain ⟨values, m', nodes, hvalues, hrun, hcontent, hback, hbelow⟩ := hcopies _ hx
  obtain rfl := Except.ok.inj (hvalues.symm.trans hread)
  exact ⟨hw, hx, hread, m', nodes, hrun, hcontent, hback, hbelow⟩

end Found

end Match

end NestedRegex
