import NestedRegex.Proofs.Forest.Additions
import NestedRegex.Proofs.Forest.Pruned
import NestedRegex.Proofs.Pattern.Ready

namespace NestedRegex.Forest

open Relation

/-- One change of a forest: new children in a sequence where changes are allowed, or new
sequences. -/
inductive Altered (may : SeqName → Prop) (f : Forest) : Forest → Prop
  | child {id index node old g} (allowed : may id)
    (done : f.setChild id index node = .ok (old, g)) : Altered may f g
  | splice {id start stop new removed g} (allowed : may id)
    (done : f.splice id start stop new = .ok (removed, g)) : Altered may f g
  | alloc (nodes : List Node) : Altered may f (f.alloc nodes).2
  | load (v : Value) : Altered may f (f.load v).2
  | copy {n m g} (done : f.copy n = .ok (m, g)) : Altered may f g

/-- No sequence is gone, and those where no changes are allowed are as they were. -/
structure KeptBut (may : SeqName → Prop) (f g : Forest) : Prop where
  size : f.size ≤ g.size
  children : ∀ {id}, ¬may id → f.contains id = true → g.children? id = f.children? id

/-- `m` is a copy of `n` made in `f`, which became `g`, and the value of both is `v`. -/
structure Copied (f : Forest) (n m : Node) (v : Value) (g : Forest) : Prop where
  /-- The old sequences and the root are what they were. -/
  kept : Extends g f
  /-- The copy leads to no old sequence. -/
  fresh : ∀ id, g.ReachedFrom [m] id → f.contains id = false
  same : g.same n m = .ok true
  reads : g.read n = .ok v ∧ g.read m = .ok v
  /-- The original keeps its value, whatever is done to sequences that are not old ones, such as
  those that the copy leads to. -/
  original : ∀ h, ReflTransGen (Altered (f.contains · = false)) g h → h.read n = .ok v
  /-- The copy keeps its value, whatever is done to sequences that it does not lead to, such as the
  old ones. -/
  copy : ∀ h, ReflTransGen (Altered (¬g.ReachedFrom [m] ·)) g h → h.read m = .ok v

variable {f g h : Forest} {id : SeqName} {n m : Node} {nodes xs ys : List Node} {v : Value}
  {may : SeqName → Prop} {depth deeper : Nat}

theorem Extends.size_le (hg : Extends g f) : f.size ≤ g.size := by
  by_contra hlt
  have hin : f.contains ⟨g.size⟩ = true := contains_iff_lt.2 (Nat.not_le.1 hlt)
  exact Nat.lt_irrefl _ (contains_iff_lt.1 (hg.contains hin))

mutual

theorem extends_load : ∀ (v : Value) (f : Forest), Extends (f.load v).2 f
  | .scalar _, f => .refl f
  | .seq vs, f => (extends_alloc _ _).trans (extends_loadItems vs f)

theorem extends_loadItems : ∀ (vs : List Value) (f : Forest), Extends (f.loadItems vs).2 f
  | [], f => .refl f
  | v :: vs, f => (extends_loadItems vs (f.load v).2).trans (extends_load v f)

end

namespace KeptBut

theorem refl (may : SeqName → Prop) (f : Forest) : KeptBut may f f :=
  ⟨Nat.le_refl _, fun _ _ => rfl⟩

theorem trans (hg : KeptBut may f g) (hh : KeptBut may g h) : KeptBut may f h where
  size := Nat.le_trans hg.size hh.size
  children {id} hmay hid := by
    have hin : g.contains id = true :=
      contains_iff_lt.2 (Nat.lt_of_lt_of_le (contains_iff_lt.1 hid) hg.size)
    rw [hh.children hmay hin, hg.children hmay hid]

theorem of_extends (hg : Extends g f) : KeptBut may f g where
  size := hg.size_le
  children {id} _ hid := by
    obtain ⟨nodes, hc⟩ := contains_iff.1 hid
    rw [hc, hg.children hc]

theorem setChildren (hid : may id) (nodes : List Node) :
    KeptBut may f (f.setChildren id nodes) where
  size := Nat.le_of_eq (size_setChildren f id nodes).symm
  children {other} hmay _ := by
    rw [children?_setChildren, if_neg]
    rintro ⟨rfl, -⟩
    exact hmay hid

end KeptBut

/-- One change keeps all but what it is allowed to change. -/
theorem Altered.keptBut (hg : Altered may f g) : KeptBut may f g := by
  cases hg with
  | @child id index node old g allowed done =>
    rw [setChild_eq] at done
    obtain ⟨nodes, -, done⟩ := Except.bind_ok done
    split at done
    · obtain ⟨-, rfl⟩ := Prod.mk.inj (Except.ok.inj done)
      exact .setChildren allowed _
    · cases done
  | @splice id start stop new removed g allowed done =>
    rw [splice_eq] at done
    obtain ⟨nodes, -, done⟩ := Except.bind_ok done
    split at done
    · obtain ⟨-, rfl⟩ := Prod.mk.inj (Except.ok.inj done)
      exact .setChildren allowed _
    · cases done
  | alloc nodes => exact .of_extends (extends_alloc f nodes)
  | load v => exact .of_extends (extends_load v f)
  | @copy n m g done =>
    unfold Forest.copy at done
    cases hv : f.read n with
    | error e =>
      rw [hv] at done
      cases done
    | ok v =>
      rw [hv] at done
      obtain ⟨-, rfl⟩ := Prod.mk.inj (Except.ok.inj done)
      exact .of_extends (extends_load v f)

/-- So do any number of changes. -/
theorem keptBut_of_altered (hg : ReflTransGen (Altered may) f g) : KeptBut may f g := by
  induction hg with
  | refl => exact .refl may f
  | tail _ hstep ih => exact ih.trans hstep.keptBut

/-- What can be read is read the same through more sequences. -/
theorem readWithin_mono (hn : f.readWithin depth n = .ok v) (hd : depth ≤ deeper) :
    f.readWithin deeper n = .ok v := by
  induction depth generalizing n v deeper with
  | zero =>
    cases n with
    | scalar s => cases deeper <;> exact hn
    | seq id => cases hn
  | succ depth ih =>
    obtain ⟨deeper, rfl⟩ := Nat.exists_eq_succ_of_ne_zero (Nat.ne_zero_of_lt hd)
    cases n with
    | scalar s => exact hn
    | seq id =>
      rw [readWithin] at hn
      obtain ⟨nodes, hc, hn⟩ := Except.bind_ok hn
      obtain ⟨vs, hvs, hn⟩ := Except.bind_ok hn
      have hdeep : nodes.mapM (f.readWithin deeper) = .ok vs :=
        List.mapM_mono (fun _ _ hw => ih hw (Nat.le_of_succ_le_succ hd)) hvs
      rw [readWithin_seq (children_eq_ok_iff.1 hc), hdeep]
      exact hn

/-- A node keeps its value where all that it leads to is kept. -/
theorem KeptBut.read (hg : KeptBut may f g) (hf : f.Closed) (hn : f.Holds [n])
    (apart : ∀ id, f.ReachedFrom [n] id → ¬may id) (hr : f.read n = .ok v) :
    g.read n = .ok v := by
  have same : g.readWithin (f.size + 1) n = f.readWithin (f.size + 1) n :=
    readWithin_congr fun id ⟨top, hm, ht⟩ =>
      hg.children (apart id ⟨top, hm, ht⟩) (hf.reaches (hn top hm) ht)
  exact readWithin_mono (same.trans hr) (Nat.succ_le_succ hg.size)

theorem AcyclicFrom.append (hx : f.AcyclicFrom xs) (hy : f.AcyclicFrom ys) :
    f.AcyclicFrom (xs ++ ys) := by
  intro id ⟨top, hm, ht⟩
  rcases List.mem_append.1 hm with hm | hm
  · exact hx id ⟨top, hm, ht⟩
  · exact hy id ⟨top, hm, ht⟩

/-- Old nodes lead to a cycle only if they did before. -/
theorem Extends.acyclicFrom (hg : Extends g f) (hf : f.Closed) (hn : f.Holds nodes)
    (ha : f.AcyclicFrom nodes) : g.AcyclicFrom nodes := by
  intro id hid loop
  have hold := (hg.reachedFrom_iff hf hn).1 hid
  obtain ⟨top, hm, ht⟩ := hold
  have hin := hf.reaches (hn top hm) ht
  obtain ⟨b, hc, hr⟩ := TransGen.head'_iff.1 loop
  have hc' := (hg.child_iff hin).1 hc
  exact ha id ⟨top, hm, ht⟩ (.head' hc' ((hg.reaches_iff hf (hf.child hc')).1 hr))

/-- What was loaded leads to no cycle. -/
theorem Added.acyclicFrom (hg : Added f g nodes) : g.AcyclicFrom nodes :=
  acyclicFrom_of_falls (fun id hm => hg.fresh id ⟨id, hm, .refl⟩) hg.falls

/-- In a closed forest, a node that leads to no cycle can be copied. This changes none of the old
sequences. The copy has the value and the shape of the node and leads to new sequences only.
Whatever is then done to sequences that are not old ones, the node keeps its value, and whatever is
done to sequences that the copy does not lead to, the copy keeps its value. -/
theorem copy_independent (hf : f.Closed) (hn : f.Holds [n]) (ha : f.AcyclicFrom [n]) :
    ∃ v m g, f.read n = .ok v ∧ f.copy n = .ok (m, g) ∧ Copied f n m v g := by
  obtain ⟨v, hv⟩ : ∃ v, f.read n = .ok v :=
    ⟨_, read_ok_of_acyclicFrom hf hn ha (List.mem_singleton_self n)⟩
  have added := added_load v hf
  obtain ⟨names, shown, -⟩ := shows_load v hf
  have hcopy : f.copy n = .ok (f.load v) := by
    rw [Forest.copy, hv]
    rfl
  have kept : KeptBut (fun _ => False) f (f.load v).2 := .of_extends added.grows
  have hold : (f.load v).2.read n = .ok v := kept.read hf hn (fun _ _ => id) hv
  have hnew : (f.load v).2.read (f.load v).1 = .ok v := shown.read
  refine ⟨v, _, _, hv, hcopy, added.grows, added.fresh, ?_, ⟨hold, hnew⟩, fun h hh => ?_,
    fun h hh => ?_⟩
  · have holds := (added.grows.holds hn).append added.holds
    have acyclic := (added.grows.acyclicFrom hf hn ha).append added.acyclicFrom
    have hm : n ∈ [n] ++ [(f.load v).1] := by simp
    have hm' : (f.load v).1 ∈ [n] ++ [(f.load v).1] := by simp
    rw [read_ok_of_acyclicFrom added.closed holds acyclic hm] at hold
    rw [read_ok_of_acyclicFrom added.closed holds acyclic hm'] at hnew
    rw [same_ok_of_acyclicFrom added.closed holds acyclic hm hm']
    exact congrArg _ (decide_eq_true (Except.ok.inj (hold.trans hnew.symm)))
  · -- All that the node leads to is old, in the forest with the copy too.
    refine (keptBut_of_altered hh).read added.closed (added.grows.holds hn) (fun id hid hmay => ?_)
      hold
    obtain ⟨top, hm, ht⟩ := (added.grows.reachedFrom_iff hf hn).1 hid
    rw [hf.reaches (hn top hm) ht] at hmay
    cases hmay
  · exact (keptBut_of_altered hh).read added.closed added.holds (fun id hid hmay => hmay hid) hnew

/-- A sequence that holds another one twice, beside a sequence that holds itself. -/
theorem copy_independent_shared :
    let f : Forest := ⟨#[#[.scalar .null], #[.seq ⟨0⟩, .seq ⟨0⟩], #[.seq ⟨2⟩, .seq ⟨1⟩]], ⟨2⟩⟩
    f.Closed ∧ ¬f.Acyclic ∧ f.Holds [.seq ⟨1⟩] ∧ f.AcyclicFrom [.seq ⟨1⟩] ∧
      ∃ v m g, f.read (.seq ⟨1⟩) = .ok v ∧ f.copy (.seq ⟨1⟩) = .ok (m, g) ∧
        Copied f (.seq ⟨1⟩) m v g := by
  intro f
  have hclosed : f.Closed := by decide
  have hloop : ¬f.Acyclic := fun ha => ha ⟨2⟩ (.single ⟨_, rfl, List.mem_cons_self⟩)
  have hholds : f.Holds [.seq ⟨1⟩] := by decide
  have hacyclic : f.AcyclicFrom [.seq ⟨1⟩] :=
    (acyclicFrom_iff hclosed hholds).2 (by decide +kernel)
  exact ⟨hclosed, hloop, hholds, hacyclic, copy_independent hclosed hholds hacyclic⟩

end NestedRegex.Forest
