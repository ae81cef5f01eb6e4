import NestedRegex.Proofs.Machine.Branches
import NestedRegex.Proofs.Program.Layout

namespace NestedRegex.Machine

open Pattern

/-- The machine stands at an address, in a sequence that is there, with what a way has bound. -/
structure Stands (f : Forest) (p : Program) (m : Machine) (address : Nat) (seq : SeqName)
    (w : Way) : Prop where
  address : m.address = address
  seq : m.seq = seq
  there : f.contains m.seq = true
  position : m.position = w.position
  bindings : m.bindings = p.names.map w.bound
  starts : m.starts.length = p.names.length
  solid : w.Solid

/-- What a part leaves as it was: where the match began, the sequences outside, and the starts of
captures that are not its own. -/
structure Keeps (p : Program) (own : List String) (m m' : Machine) : Prop where
  home : m'.home = m.home
  first : m'.first = m.first
  outers : m'.outers = m.outers
  starts : ∀ n, n ∉ own → m'.starts[(slotOf p.names n).index]? = m.starts[(slotOf p.names n).index]?

/-- How much longer a branch can get through code of some size. -/
def room (f : Forest) (size : Nat) : Nat :=
  (f.longest + 2) ^ size - 1

/-- Code between two addresses leads wherever what follows it leads from each of the ways. -/
structure Runs (f : Forest) (p : Program) (address stop size : Nat) (own : List String)
    (seq : SeqName) (ways : Way → Choices Way) : Prop where
  leads : ∀ {m w depth} {next : Way → Choices Captures}, Stands f p m address seq w →
    (∀ v m', .ok v ∈ ways w → Stands f p m' stop seq v → Keeps p own m m' →
      Explores f p m' (next v) depth) →
    Explores f p m ((ways w).andThen next) (depth + room f size)

/-- What an instruction does that does not leave the sequence: the ways that it has. -/
inductive Moves (f : Forest) (p : Program) (m : Machine) (i : Instr) (w : Way) :
    Choices Way → Prop
  | fail (obeyed : m.obey f p i = .ok none) : Moves f p m i w []
  | error {e} (obeyed : m.obey f p i = .error e) : Moves f p m i w [.error e]
  | pass (count : Nat) (obeyed : m.obey f p i = .ok (some (m.stepOver count))) :
    Moves f p m i w [.ok (w.past count)]

variable {f : Forest} {p : Program} {m m' n : Machine} {address stop stop' size size' test : Nat}
  {own own' : List String} {seq : SeqName} {w v : Way} {ways ways' : Way → Choices Way} {i : Instr}
  {name : String}

theorem stands_start (hc : f.contains seq = true) (m : Machine) (start : Nat) :
    Stands f p (m.start p seq start) 0 seq ⟨start, fun _ => none⟩ :=
  ⟨rfl, rfl, hc, rfl, List.map_const.symm, List.length_replicate, nofun⟩

theorem room_add (f : Forest) (a b : Nat) : room f a + room f b ≤ room f (a + b) := by
  have pos : ∀ k, ∃ x, (f.longest + 2) ^ k = x + 1 := fun k =>
    ⟨_, (Nat.succ_pred (Nat.ne_of_gt (Nat.pow_pos (Nat.succ_pos _)))).symm⟩
  obtain ⟨x, hx⟩ := pos a
  obtain ⟨y, hy⟩ := pos b
  simp only [room, Nat.pow_add, hx, hy, Nat.succ_mul_succ]
  omega

theorem le_room (f : Forest) (size : Nat) : size ≤ room f size := by
  have h : size < (f.longest + 2) ^ size := Nat.lt_pow_self (by omega)
  simp only [room]
  omega

namespace Keeps

theorem refl (own : List String) (m : Machine) : Keeps p own m m :=
  ⟨rfl, rfl, rfl, fun _ _ => rfl⟩

theorem trans (h : Keeps p own m m') (h' : Keeps p own m' n) : Keeps p own m n :=
  ⟨h'.home.trans h.home, h'.first.trans h.first, h'.outers.trans h.outers,
    fun k hk => (h'.starts k hk).trans (h.starts k hk)⟩

theorem mono (h : Keeps p own m m') (hs : own ⊆ own') : Keeps p own' m m' :=
  ⟨h.home, h.first, h.outers, fun k hk => h.starts k fun hm => hk (hs hm)⟩

end Keeps

namespace Runs

/-- An instruction that does not leave the sequence. -/
theorem single (code : p.InstrAt address i) (going : i ≠ .accept)
    (straight : ∀ first second, i ≠ .split first second)
    (moves : ∀ {m w}, Stands f p m address seq w → Moves f p m i w (ways w)) :
    Runs f p address (address + 1) 1 own seq ways := by
  refine ⟨fun {m w depth next} hm follow => ?_⟩
  have hcode : p.code[m.address]? = some i := hm.address ▸ code
  have hroom : depth + 1 ≤ depth + room f 1 := Nat.add_le_add_left (le_room f 1) depth
  refine Explores.mono ?_ hroom
  have hmoves := moves hm
  generalize ways w = cs at hmoves follow ⊢
  cases hmoves with
  | fail obeyed => exact .fail hcode going obeyed
  | error obeyed => exact .error hcode going obeyed
  | pass count obeyed =>
    have hs : Stands f p (m.stepOver count) (address + 1) seq (w.past count) :=
      ⟨congrArg (· + 1) hm.address, hm.seq, hm.there, congrArg (· + count) hm.position,
        hm.bindings, hm.starts, hm.solid⟩
    rw [Choices.andThen_ok, Choices.andThen_nil, List.append_nil]
    exact .next hcode straight obeyed (follow _ _ List.mem_cons_self hs ⟨rfl, rfl, rfl,
      fun _ _ => rfl⟩)

/-- No code has one way, and that is to go on. -/
theorem nil : Runs f p address address 0 own seq fun w => [.ok w] := by
  refine ⟨fun {m w depth next} hm follow => ?_⟩
  rw [Choices.andThen_ok, Choices.andThen_nil, List.append_nil]
  exact follow w m List.mem_cons_self hm (.refl own m)

theorem mono (h : Runs f p address stop size own seq ways) (hs : own ⊆ own') :
    Runs f p address stop size own' seq ways :=
  ⟨fun hm follow => h.leads hm fun v m' hv hm' hk => follow v m' hv hm' (hk.mono hs)⟩

/-- One piece of code after the other. -/
theorem append (h : Runs f p address stop size own seq ways)
    (h' : Runs f p stop stop' size' own seq ways') :
    Runs f p address stop' (size + size') own seq fun w => (ways w).andThen ways' := by
  refine ⟨fun {m w depth next} hm follow => ?_⟩
  simp only [Choices.andThen_assoc]
  have hroom := room_add f size' size
  rw [Nat.add_comm size' size] at hroom
  refine Explores.mono (h.leads hm fun v m' hv hm' hk => h'.leads hm' fun u m'' hu hm'' hk' => ?_)
    (Nat.le_trans (Nat.le_of_eq (Nat.add_assoc _ _ _)) (Nat.add_le_add_left hroom depth))
  exact follow u m'' (Choices.mem_andThen_of_mem hv hu) hm'' (hk.trans hk')

/-- Code that is left by a jump. -/
theorem leave {target : Nat} (h : Runs f p address stop size own seq ways)
    (code : p.InstrAt stop (.jump target)) :
    Runs f p address target (size + 1) own seq ways := by
  refine ⟨fun {m w depth next} hm follow => ?_⟩
  have hroom := room_add f size 1
  have hone := le_room f 1
  refine Explores.mono (h.leads hm fun v m' hv hm' hk => ?_)
    (show depth + 1 + room f size ≤ depth + room f (size + 1) by omega)
  have hcode : p.code[m'.address]? = some (.jump target) := hm'.address ▸ code
  have hs : Stands f p { m' with address := target } target seq v :=
    ⟨rfl, hm'.seq, hm'.there, hm'.position, hm'.bindings, hm'.starts, hm'.solid⟩
  exact .next hcode nofun rfl (follow v _ hv hs ⟨hk.home, hk.first, hk.outers, hk.starts⟩)

/-- A choice between two pieces of code. -/
theorem choose {preferred otherwise : Nat} (code : p.InstrAt address (.split preferred otherwise))
    (h : Runs f p preferred stop size own seq ways)
    (h' : Runs f p otherwise stop size' own seq ways') :
    Runs f p address stop (size + size' + 1) own seq fun w => ways w ++ ways' w := by
  refine ⟨fun {m w depth next} hm follow => ?_⟩
  have hcode : p.code[m.address]? = some (.split preferred otherwise) := hm.address ▸ code
  have moved : ∀ target, Stands f p { m with address := target } target seq w := fun _ =>
    ⟨rfl, hm.seq, hm.there, hm.position, hm.bindings, hm.starts, hm.solid⟩
  have hl := h.leads (moved preferred) fun v m' hv hm' hk =>
    follow v m' (List.mem_append_left _ hv) hm' ⟨hk.home, hk.first, hk.outers, hk.starts⟩
  have hr := h'.leads (moved otherwise) fun v m' hv hm' hk =>
    follow v m' (List.mem_append_right _ hv) hm' ⟨hk.home, hk.first, hk.outers, hk.starts⟩
  have hroom := room_add f (size + size') 1
  have hsum := room_add f size size'
  have hone := le_room f 1
  rw [Choices.andThen_append]
  refine Explores.mono (.split hcode (hl.mono ?_) (hr.mono ?_))
    (show depth + room f (size + size') + 1 ≤ depth + room f (size + size' + 1) by omega)
  · omega
  · omega

end Runs

theorem length_le_longest (f : Forest) (id : SeqName) : (f.nodesOf id).length ≤ f.longest := by
  have bound : ∀ (rows : List Row) (most : Nat),
      most ≤ rows.foldl (fun most row => max most row.size) most ∧
        ∀ row ∈ rows, row.size ≤ rows.foldl (fun most row => max most row.size) most := by
    intro rows
    induction rows with
    | nil => exact fun most => ⟨Nat.le_refl _, by simp⟩
    | cons first rows ih =>
      intro most
      obtain ⟨hm, hr⟩ := ih (max most first.size)
      refine ⟨Nat.le_trans (Nat.le_max_left _ _) hm, fun row hrow => ?_⟩
      rcases List.mem_cons.1 hrow with rfl | hrow
      · exact Nat.le_trans (Nat.le_max_right _ _) hm
      · exact hr row hrow
  unfold Forest.nodesOf Forest.children?
  cases hrow : f.row? id with
  | none => exact Nat.zero_le _
  | some row =>
    have hm : row ∈ f.rows.toList := Array.mem_toList_iff.2 (Array.mem_of_getElem? hrow)
    have hle := (bound f.rows.toList 0).2 row hm
    rwa [Array.foldl_toList] at hle

/-- The slots of two names differ. -/
theorem slotOf_ne {names : List String} {other : String} (hn : name ∈ names)
    (h : other ≠ name) : (slotOf names name).index ≠ (slotOf names other).index :=
  fun e => h ((List.idxOf_inj hn).1 e).symm

theorem bound_slotOf {names : List String} (hn : name ∈ names) :
    (names.map w.bound)[(slotOf names name).index]? = some (w.bound name) := by
  rw [List.getElem?_map, slotOf, List.getElem?_idxOf hn]
  rfl

/-- Setting the slot of a name binds the name. -/
theorem set_slotOf {names : List String} (hd : names.Nodup) (hn : name ∈ names) (s : Span) :
    (names.map w.bound).set (slotOf names name).index (some s) =
      names.map (w.bind name s).bound := by
  apply List.ext_getElem?
  intro i
  rw [List.getElem?_set, List.getElem?_map, List.getElem?_map, slotOf, List.length_map]
  by_cases e : names.idxOf name = i
  · subst e
    simp [Way.bind, List.idxOf_lt_length_iff.2 hn]
  · rw [if_neg e]
    cases hi : names[i]? with
    | none => rfl
    | some other =>
      have hne : other ≠ name := by
        rintro rfl
        obtain ⟨hlt, hget⟩ := List.getElem?_eq_some_iff.1 hi
        exact e (hget ▸ hd.idxOf_getElem i hlt)
      simp [Way.bind, hne]

end NestedRegex.Machine
