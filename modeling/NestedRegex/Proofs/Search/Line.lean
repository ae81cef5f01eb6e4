import NestedRegex.Proofs.Search.Turns

namespace NestedRegex.Search

open Relation

/-- The sequence that a task is about. -/
def Task.seq : Task → SeqName
  | .visit seq | .scan seq _ | .descend seq _ => seq

variable {σ : Type} {p : Program} {options : Options} {receiver : Receiver σ} {s s' : State σ}
  {items : List Pattern} {allowed : Match.Operation → Prop} {f : Forest} {t : Task}
  {ts rest agenda : List Task} {seq : SeqName} {position : Nat} {b : Captures} {m : Match}
  {data : σ}

/-- The forest is in good order, and every sequence of the agenda leads to those before it. -/
structure InLine (f : Forest) (agenda : List Task) : Prop where
  closed : f.Closed
  acyclic : f.Acyclic
  there : f.contains f.root = true
  attached : ∀ t ∈ agenda, f.Reaches f.root t.seq
  line : agenda.Pairwise fun t u => f.Reaches u.seq t.seq

namespace InLine

theorem contains (h : InLine f agenda) (ht : t ∈ agenda) : f.contains t.seq = true :=
  h.closed.reaches h.there (h.attached t ht)

theorem tail (h : InLine f (t :: rest)) : InLine f rest :=
  ⟨h.closed, h.acyclic, h.there, fun u hu => h.attached u (List.mem_cons_of_mem _ hu),
    (List.pairwise_cons.1 h.line).2⟩

/-- Before a task there is room for tasks that it leads to. -/
theorem cons {u : Task} (h : InLine f (t :: rest)) (hu : f.Reaches t.seq u.seq) :
    InLine f (u :: t :: rest) := by
  refine ⟨h.closed, h.acyclic, h.there, fun v hv => ?_,
    List.pairwise_cons.2 ⟨fun v hv => ?_, h.line⟩⟩
  · rcases List.mem_cons.1 hv with rfl | hv
    · exact (h.attached t List.mem_cons_self).trans hu
    · exact h.attached v hv
  · rcases List.mem_cons.1 hv with rfl | hv
    · exact hu
    · exact ((List.pairwise_cons.1 h.line).1 v hv).trans hu

/-- A task gives way to another task about the same sequence. -/
theorem same {u : Task} (h : InLine f (t :: rest)) (hu : u.seq = t.seq) :
    InLine f (u :: rest) := by
  refine ⟨h.closed, h.acyclic, h.there, fun v hv => ?_, List.pairwise_cons.2 ⟨fun v hv => ?_, ?_⟩⟩
  · rcases List.mem_cons.1 hv with rfl | hv
    · exact hu ▸ h.attached t List.mem_cons_self
    · exact h.attached v (List.mem_cons_of_mem _ hv)
  · exact hu ▸ (List.pairwise_cons.1 h.line).1 v hv
  · exact (List.pairwise_cons.1 h.line).2

/-- The line stays when nothing above its first sequence is edited. -/
theorem spared {m m' : Match} (h : InLine m.forest (t :: rest))
    (sp : Match.Spared (m.forest.Reaches t.seq) m m') {front back : List Node}
    (hs : m'.Sound t.seq front back) : InLine m'.forest (t :: rest) := by
  have above : ∀ u ∈ t :: rest, m.forest.Reaches u.seq t.seq := by
    intro u hu
    rcases List.mem_cons.1 hu with rfl | hu
    · exact .refl
    · exact (List.pairwise_cons.1 h.line).1 u hu
  refine ⟨hs.closed, hs.acyclic, hs.root_there, fun u hu => ?_,
    h.line.imp_of_mem fun hu _ hr => ?_⟩
  · rw [sp.root]
    exact sp.reaches h.acyclic (above u hu) (h.attached u hu)
  · exact sp.reaches h.acyclic (above _ hu) hr

/-- Before the first step the root is to be visited. -/
theorem start (hf : f.Closed) (ha : f.Acyclic) (hroot : f.contains f.root = true) (data : σ) :
    InLine (start f data).forest (start f data).walk.agenda := by
  refine ⟨hf, ha, hroot, fun t ht => ?_, List.pairwise_singleton _ _⟩
  obtain rfl := List.mem_singleton.1 ht
  exact .refl

end InLine

/-- A match that is given to the receiver is in good order, and stays so. -/
theorem Received.sound (hp : Program.compileAll items = .ok p) (edits : Handles allowed receiver)
    (h : InLine s.forest (.scan seq position :: rest))
    (hr : Received p options receiver s seq position b m data) :
    m.Sound seq ((s.forest.nodesOf seq).take position)
      ((s.forest.nodesOf seq).drop b.whole.stop) ∧
    Match.Spared (s.forest.Reaches seq) (.ofCaptures s.walk.found p s.forest b) m := by
  have there : s.forest.contains seq = true := h.contains List.mem_cons_self
  have attached : s.forest.Reaches s.forest.root seq := h.attached _ List.mem_cons_self
  have first := Match.sound_ofCaptures hp h.closed h.acyclic there attached hr.found s.walk.found
  exact ⟨first.run (hr.run edits), first.spared (hr.run edits)⟩

theorem InLine.turn (hp : Program.compileAll items = .ok p) (edits : Handles allowed receiver)
    (h : InLine s.forest s.walk.agenda) (ht : Turn p options receiver s s') :
    InLine s'.forest s'.walk.agenda := by
  cases ht with
  | seen agenda _ | scanned agenda _ | ended agenda _ =>
    rw [agenda] at h
    exact h.tail
  | entered agenda _ _ =>
    rw [agenda] at h
    simp only [Walk.visit]
    split
    · exact (h.same (u := .descend _ 0) rfl).cons .refl
    · exact h.same rfl
  | missed agenda _ _ _ | passed agenda _ =>
    rw [agenda] at h
    exact h.same rfl
  | @nested seq index inner rest agenda child =>
    rw [agenda] at h
    have hchild := Forest.child_of_getElem? child
    exact (h.same (u := .descend seq (index + 1)) rfl).cons (u := .visit inner) (.single hchild)
  | received agenda there here length =>
    rw [agenda] at h
    obtain ⟨sound, spared⟩ := here.sound hp edits h
    have hb := (Program.match_within hp h.closed h.acyclic there here.found).1
    have hline := InLine.spared (m := .ofCaptures s.walk.found p s.forest _) h spared sound
    exact hline.same hb

/-- A search is in line as long as it goes on. -/
theorem inLine_of_steps {n : Nat} (hp : Program.compileAll items = .ok p)
    (edits : Handles allowed receiver) (h : InLine s.forest s.walk.agenda)
    (hs : Progress.steps (step p options receiver) n s = .more s') :
    InLine s'.forest s'.walk.agenda := by
  induction n generalizing s' with
  | zero =>
    obtain rfl := Progress.more.inj hs
    exact h
  | succ n ih =>
    obtain ⟨t, ht, hstep⟩ := Progress.steps_succ_last hs
    have hline := ih ht
    exact hline.turn hp edits (turn_of_step hp hline.closed hline.acyclic hstep)

end NestedRegex.Search
