import NestedRegex.Proofs.Machine.Compiled
import NestedRegex.Proofs.Program.Confined

namespace NestedRegex.Machine

open Pattern

/-- The instruction here leads from the one machine to the other, whatever their past. A choice
leads to both of its sides. Only from certain addresses the machine goes on. -/
inductive Goes (f : Forest) (p : Program) (inner : Nat → Prop) (m m' : Machine) : Prop
  | obey {i n} (goes : inner m.address) (code : p.code[m.address]? = some i)
    (obeyed : m.obey f p i = .ok (some n)) (same : m'.bare = n.bare)
  | otherwise {first second} (goes : inner m.address)
    (code : p.code[m.address]? = some (.split first second))
    (same : m'.bare = bare { m with address := second })

/-- It holds of the machine, and of all that the machine leads to. -/
inductive Always (f : Forest) (p : Program) (inner : Nat → Prop) (Q : Machine → Prop) :
    Machine → Prop
  | mk {m} (here : Q m) (onward : ∀ m', Goes f p inner m m' → Always f p inner Q m') :
    Always f p inner Q m

/-- What an instruction needs inside the machine is there: a sequence to go back to, or a start that
is behind. -/
def Meets (m : Machine) : Instr → Prop
  | .exit => m.outers ≠ []
  | .closeSlot slot => ∃ start, m.starts[slot.index]? = some start ∧ start < m.position
  | .scalar _ | .any | .enter | .atEnd | .openSlot _ | .backRef _ | .check _ | .split _ _ | .jump _
  | .accept => True

/-- The machine stands in a sequence that is there and at an instruction that finds what it needs,
it has all its slots, and no empty span is bound. -/
structure InOrder (f : Forest) (p : Program) (m : Machine) : Prop where
  there : f.contains m.seq = true
  bindings : m.bindings.length = p.captureCount
  starts : m.starts.length = p.captureCount
  solid : ∀ s, some s ∈ m.bindings → 0 < s.length
  code : ∃ i, p.code[m.address]? = some i ∧ m.Meets i

variable {f : Forest} {p : Program} {m m' n : Machine} {address stop stop' size size' : Nat}
  {own own' : List String} {seq : SeqName} {w v : Way} {ways ways' : Way → Choices Way} {i : Instr}
  {name : String} {items : List Pattern} {body : Pattern} {inner : Nat → Prop}
  {Q : Machine → Prop}

theorem Stands.inOrder (h : Stands f p m address seq w) (code : p.InstrAt address i)
    (meets : m.Meets i) : InOrder f p m := by
  refine ⟨h.there, ?_, h.starts, fun s hs => ?_, i, h.address ▸ code, meets⟩
  · rw [h.bindings]
    exact List.length_map _
  · rw [h.bindings] at hs
    obtain ⟨n, -, hn⟩ := List.mem_map.1 hs
    exact h.solid n s hn

/-- Where a machine stands does not depend on its past. -/
theorem Stands.of_bare (h : Stands f p n address seq w) (hb : m.bare = n.bare) :
    Stands f p m address seq w := by
  have hs : m.seq = n.seq := (congrArg Machine.seq hb :)
  exact ⟨(congrArg Machine.address hb).trans h.address, hs.trans h.seq, hs ▸ h.there,
    (congrArg Machine.position hb).trans h.position,
    (congrArg Machine.bindings hb).trans h.bindings,
    (congrArg (·.starts.length) hb).trans h.starts, h.solid⟩

theorem Keeps.of_bare (h : Keeps p own m n) (hb : m'.bare = n.bare) : Keeps p own m m' :=
  ⟨(congrArg Machine.home hb).trans h.home, (congrArg Machine.first hb).trans h.first,
    (congrArg Machine.outers hb).trans h.outers,
    fun k hk => (congrArg (·.starts[(slotOf p.names k).index]?) hb).trans (h.starts k hk)⟩

/-- The machine at another address. -/
theorem Stands.move (h : Stands f p m address seq w) (target : Nat) :
    Stands f p { m with address := target } target seq w :=
  ⟨rfl, h.seq, h.there, h.position, h.bindings, h.starts, h.solid⟩

theorem Keeps.move (h : Keeps p own m m') (target : Nat) :
    Keeps p own m { m' with address := target } :=
  ⟨h.home, h.first, h.outers, h.starts⟩

namespace Always

/-- A machine at an instruction that makes no choice. -/
theorem next (here : Q m) (code : p.code[m.address]? = some i)
    (straight : ∀ first second, i ≠ .split first second)
    (onward : ∀ n m', m.obey f p i = .ok (some n) → m'.bare = n.bare → Always f p inner Q m') :
    Always f p inner Q m := by
  refine .mk here fun m' h => ?_
  cases h with
  | obey _ code' obeyed same =>
    obtain rfl := Option.some.inj (code.symm.trans code')
    exact onward _ m' obeyed same
  | otherwise _ code' =>
    obtain rfl := Option.some.inj (code.symm.trans code')
    exact absurd rfl (straight _ _)

/-- A machine at a choice. -/
theorem split {first second : Nat} (here : Q m)
    (code : p.code[m.address]? = some (.split first second))
    (left : ∀ m', m'.bare = bare { m with address := first } → Always f p inner Q m')
    (right : ∀ m', m'.bare = bare { m with address := second } → Always f p inner Q m') :
    Always f p inner Q m := by
  refine .mk here fun m' h => ?_
  cases h with
  | obey _ code' obeyed same =>
    obtain rfl := Option.some.inj (code.symm.trans code')
    obtain rfl := Option.some.inj (Except.ok.inj obeyed)
    exact left m' same
  | otherwise _ code' same =>
    obtain ⟨-, rfl⟩ := Instr.split.inj (Option.some.inj (code.symm.trans code'))
    exact right m' same

end Always

/-- What holds of the machines inside the code, and of all that follow on the code, holds of all
that follow on a machine in front of it. -/
structure Covers (f : Forest) (p : Program) (address stop : Nat) (own : List String)
    (seq : SeqName) (ways : Way → Choices Way) : Prop where
  le : address ≤ stop
  leads : ∀ {m w inner Q}, Stands f p m address seq w →
    (∀ m', InOrder f p m' → address ≤ m'.address → m'.address < stop → Q m') →
    (∀ v m', .ok v ∈ ways w → Stands f p m' stop seq v → Keeps p own m m' →
      Always f p inner Q m') →
    Always f p inner Q m

namespace Covers

theorem single (code : p.InstrAt address i) (plain : Plain i)
    (moves : ∀ {m w}, Stands f p m address seq w → Moves f p m i w (ways w)) :
    Covers f p address (address + 1) own seq ways := by
  refine ⟨Nat.le_succ _, fun {m w inner Q} hm inside follow => ?_⟩
  have hcode : p.code[m.address]? = some i := hm.address ▸ code
  have meets : m.Meets i := by cases i <;> trivial
  have here : Q m := inside m (hm.inOrder code meets) (Nat.le_of_eq hm.address.symm)
    (hm.address ▸ Nat.lt_succ_self _)
  refine .next here hcode (by rintro _ _ rfl; exact plain) fun n m' hn hb => ?_
  have hmoves := moves hm
  generalize ways w = cs at hmoves follow
  cases hmoves with
  | fail obeyed => cases obeyed.symm.trans hn
  | error obeyed => cases obeyed.symm.trans hn
  | pass count obeyed =>
    obtain rfl := Option.some.inj (Except.ok.inj (obeyed.symm.trans hn))
    have hs : Stands f p (m.stepOver count) (address + 1) seq (w.past count) :=
      ⟨congrArg (· + 1) hm.address, hm.seq, hm.there, congrArg (· + count) hm.position,
        hm.bindings, hm.starts, hm.solid⟩
    have hk : Keeps p own m (m.stepOver count) := ⟨rfl, rfl, rfl, fun _ _ => rfl⟩
    exact follow _ m' List.mem_cons_self (hs.of_bare hb) (hk.of_bare hb)

theorem nil : Covers f p address address own seq fun w => [.ok w] :=
  ⟨Nat.le_refl _, fun {m w _ _} hm _ follow => follow w m List.mem_cons_self hm (.refl own m)⟩

theorem mono (h : Covers f p address stop own seq ways) (hs : own ⊆ own') :
    Covers f p address stop own' seq ways :=
  ⟨h.le, fun hm inside follow =>
    h.leads hm inside fun v m' hv hm' hk => follow v m' hv hm' (hk.mono hs)⟩

theorem append (h : Covers f p address stop own seq ways)
    (h' : Covers f p stop stop' own seq ways') :
    Covers f p address stop' own seq fun w => (ways w).andThen ways' := by
  refine ⟨Nat.le_trans h.le h'.le, fun {m w inner Q} hm inside follow => ?_⟩
  refine h.leads hm (fun m' ho hl hr => inside m' ho hl (Nat.lt_of_lt_of_le hr h'.le)) ?_
  intro v m' hv hm' hk
  refine h'.leads hm' (fun m' ho hl hr => inside m' ho (Nat.le_trans h.le hl) hr) ?_
  exact fun u m'' hu hm'' hk' => follow u m'' (Choices.mem_andThen_of_mem hv hu) hm'' (hk.trans hk')

theorem leave {target : Nat} (h : Covers f p address stop own seq ways)
    (code : p.InstrAt stop (.jump target)) (hlt : stop < target) :
    Covers f p address target own seq ways := by
  have hle := h.le
  refine ⟨by omega, fun {m w inner Q} hm inside follow => ?_⟩
  refine h.leads hm (fun m' ho hl hr => inside m' ho hl (by omega)) fun v m' hv hm' hk => ?_
  have hcode : p.code[m'.address]? = some (.jump target) := hm'.address ▸ code
  have hat := hm'.address
  have here : Q m' := inside m' (hm'.inOrder code trivial) (by omega) (by omega)
  refine .next here hcode nofun fun n m'' hn hb => ?_
  obtain rfl := Option.some.inj (Except.ok.inj hn)
  exact follow v m'' hv ((hm'.move target).of_bare hb) ((hk.move target).of_bare hb)

theorem choose {preferred otherwise : Nat} (code : p.InstrAt address (.split preferred otherwise))
    (hp : address < preferred) (ho : address < otherwise)
    (h : Covers f p preferred stop own seq ways) (h' : Covers f p otherwise stop own seq ways') :
    Covers f p address stop own seq fun w => ways w ++ ways' w := by
  have hle := h.le
  refine ⟨by omega, fun {m w inner Q} hm inside follow => ?_⟩
  have hcode : p.code[m.address]? = some (.split preferred otherwise) := hm.address ▸ code
  have hat := hm.address
  have here : Q m := inside m (hm.inOrder code trivial) (by omega) (by omega)
  have kept : ∀ target, Keeps p own m { m with address := target } := (Keeps.refl own m).move
  refine .split here hcode (fun m' hb => ?_) fun m' hb => ?_
  · refine h.leads ((hm.move preferred).of_bare hb) (fun k hk hl hr => inside k hk (by omega) hr) ?_
    exact fun v k hv hs hk => follow v k (List.mem_append_left _ hv) hs
      (((kept preferred).of_bare hb).trans hk)
  · refine h'.leads ((hm.move otherwise).of_bare hb)
      (fun k hk hl hr => inside k hk (by omega) hr) ?_
    exact fun v k hv hs hk => follow v k (List.mem_append_right _ hv) hs
      (((kept otherwise).of_bare hb).trans hk)

theorem sequence (hf : f.Closed) (enter : p.InstrAt address .enter) (exit : p.InstrAt stop .exit)
    (hlt : address < stop)
    (contents : ∀ inner, f.contains inner = true →
      Covers f p (address + 1) stop own inner (waysOfItems f items inner)) :
    Covers f p address (stop + 1) own seq (Pattern.ways f (.sequence items) seq) := by
  refine ⟨by omega, fun {m w inner Q} hm inside follow => ?_⟩
  have hcode : p.code[m.address]? = some .enter := hm.address ▸ enter
  have hat := hm.address
  refine .next (inside m (hm.inOrder enter trivial) (by omega) (by omega)) hcode nofun
    fun n k hn hb => ?_
  cases obeyed_of_obey hn with
  | @enter nested here =>
    have hnested : f.contains nested = true := hf.child (Forest.child_of_getElem? here)
    have hs : Stands f p { m with
        address := m.address + 1, seq := nested, position := 0
        outers := ⟨m.seq, m.position + 1⟩ :: m.outers, trail := .entered :: m.trail }
        (address + 1) nested { w with position := 0 } :=
      ⟨congrArg (· + 1) hm.address, rfl, hnested, rfl, hm.bindings, hm.starts, hm.solid⟩
    refine (contents nested hnested).leads (hs.of_bare hb)
      (fun k hk hl hr => inside k hk (by omega) (by omega)) fun u m' hu hm' hk => ?_
    have hout : p.code[m'.address]? = some .exit := hm'.address ▸ exit
    have hat' := hm'.address
    have outers : m'.outers = ⟨m.seq, m.position + 1⟩ :: m.outers :=
      hk.outers.trans (congrArg Machine.outers hb :)
    have meets : m'.Meets .exit := by
      rw [Meets, outers]
      exact List.cons_ne_nil _ _
    refine .next (inside m' (hm'.inOrder exit meets) (by omega) (by omega)) hout nofun
      fun n' k' hn' hb' => ?_
    cases obeyed_of_obey hn' with
    | @exit outer rest done houter =>
      obtain ⟨rfl, rfl⟩ := List.cons.inj (houter.symm.trans outers)
      have hways : .ok { u with position := w.position + 1 } ∈
          Pattern.ways f (.sequence items) seq w := by
        rw [hm.seq, hm.position] at here
        rw [hm'.seq, hm'.position] at done
        rw [Pattern.ways, here]
        exact Choices.mem_andThen_of_mem hu (by rw [if_pos done]; exact List.mem_cons_self)
      refine follow _ k' hways (Stands.of_bare ?_ hb') (Keeps.of_bare ?_ hb')
      · exact ⟨congrArg (· + 1) hm'.address, hm.seq, hm.there, congrArg (· + 1) hm.position,
          hm'.bindings, hm'.starts, hm'.solid⟩
      · have home : m'.home = m.home := hk.home.trans (congrArg Machine.home hb :)
        have first : m'.first = m.first := hk.first.trans (congrArg Machine.first hb :)
        exact ⟨home, first, rfl, fun name ho => (hk.starts name ho).trans
          (congrArg (·.starts[(slotOf p.names name).index]?) hb :)⟩

theorem named (hd : p.names.Nodup) (hn : name ∈ p.names) (fresh : name ∉ own)
    (ready : ReadyItems p.names items false) (hne : items ≠ [])
    (opens : p.InstrAt address (.openSlot (slotOf p.names name)))
    (closes : p.InstrAt stop (.closeSlot (slotOf p.names name)))
    (contents : Covers f p (address + 1) stop own seq (waysOfItems f items seq)) :
    Covers f p address (stop + 1) (name :: own) seq (Pattern.ways f (.named name items) seq) := by
  have hle := contents.le
  refine ⟨by omega, fun {m w inner Q} hm inside follow => ?_⟩
  have hcode : p.code[m.address]? = some (.openSlot (slotOf p.names name)) := hm.address ▸ opens
  have hat := hm.address
  have hstart : (slotOf p.names name).index < m.starts.length := hm.starts ▸ slotOf_lt hn
  have hs : Stands f p { m with
      address := m.address + 1
      starts := m.starts.set (slotOf p.names name).index m.position
      trail := .started (slotOf p.names name) m.starts[(slotOf p.names name).index] :: m.trail }
      (address + 1) seq w :=
    ⟨congrArg (· + 1) hm.address, hm.seq, hm.there, hm.position, hm.bindings,
      (List.length_set ..).trans hm.starts, hm.solid⟩
  refine .next (inside m (hm.inOrder opens trivial) (by omega) (by omega)) hcode nofun
    fun n k hk hb => ?_
  rw [obey_openSlot (List.getElem?_eq_getElem hstart)] at hk
  obtain rfl := Option.some.inj (Except.ok.inj hk)
  refine contents.leads (hs.of_bare hb) (fun k hk hl hr => inside k hk (by omega) (by omega)) ?_
  intro u m' hu hm' hkept
  have hout : p.code[m'.address]? = some (.closeSlot (slotOf p.names name)) := hm'.address ▸ closes
  have hout' := hm'.address
  have hstarts : k.starts = m.starts.set (slotOf p.names name).index m.position :=
    (congrArg Machine.starts hb :)
  have hq : m'.starts[(slotOf p.names name).index]? = some w.position := by
    rw [hkept.starts name fresh, hstarts, List.getElem?_set_self hstart, hm.position]
  have hslot : m'.bindings[(slotOf p.names name).index]? = some (u.bound name) := by
    rw [hm'.bindings, bound_slotOf hn]
  have ha := (waysOfItems_follow items ready hm.solid hu).2.2 rfl hne
  have meets : m'.Meets (.closeSlot (slotOf p.names name)) :=
    ⟨w.position, hq, hm'.position ▸ ha.lt⟩
  refine .next (inside m' (hm'.inOrder closes meets) (by omega) (by omega)) hout nofun
    fun n k' hn' hb' => ?_
  rw [obey_closeSlot hslot hq] at hn'
  obtain rfl := Option.some.inj (Except.ok.inj hn')
  have hways : .ok (u.bind name ⟨seq, w.position, u.position - w.position⟩) ∈
      Pattern.ways f (.named name items) seq w := by
    cases items with
    | nil => exact absurd rfl hne
    | cons q qs =>
      rw [Pattern.ways]
      exact Choices.mem_andThen_of_mem hu List.mem_cons_self
  refine follow _ k' hways (Stands.of_bare ?_ hb') (Keeps.of_bare ?_ hb')
  · refine ⟨congrArg (· + 1) hm'.address, hm'.seq, hm'.there, hm'.position, ?_, hm'.starts, ?_⟩
    · rw [hm'.bindings, hm'.seq, hm'.position]
      exact set_slotOf hd hn _
    · exact (ha.toFollows.bind name ha.lt ha.inside).solid hm.solid
  · have home : m'.home = m.home := hkept.home.trans (congrArg Machine.home hb :)
    have first : m'.first = m.first := hkept.first.trans (congrArg Machine.first hb :)
    have outers : m'.outers = m.outers := hkept.outers.trans (congrArg Machine.outers hb :)
    refine ⟨home, first, outers, fun other ho => ?_⟩
    rw [List.mem_cons, not_or] at ho
    change m'.starts[_]? = _
    rw [hkept.starts other ho.2, hstarts]
    exact List.getElem?_set_ne (slotOf_ne hn ho.1)

/-- By induction on the number of nodes that are left. -/
theorem oneOrMore (ready : Ready p.names body false)
    (code : p.InstrAt stop (.split address (stop + 1)))
    (turn : Covers f p address stop own seq (Pattern.ways f body seq)) :
    Covers f p address (stop + 1) own seq (Pattern.ways f (.oneOrMore body) seq) := by
  have hle := turn.le
  have turns : ∀ (left : Nat) {m w inner Q}, Stands f p m address seq w →
      (f.nodesOf seq).length ≤ w.position + left →
      (∀ m', InOrder f p m' → address ≤ m'.address → m'.address < stop + 1 → Q m') →
      (∀ v m', .ok v ∈ Pattern.ways f (.oneOrMore body) seq w → Stands f p m' (stop + 1) seq v →
        Keeps p own m m' → Always f p inner Q m') →
      Always f p inner Q m := by
    intro left
    induction left with
    | zero =>
      intro m w inner Q hm hl inside follow
      refine turn.leads hm (fun k hk hl hr => inside k hk hl (by omega)) fun v m' hv hm' hk => ?_
      have ha := ways_advance ready hm.solid hv
      have hlt := ha.lt
      have hin := ha.inside
      omega
    | succ left ih =>
      intro m w inner Q hm hl inside follow
      refine turn.leads hm (fun k hk hl hr => inside k hk hl (by omega)) fun v m' hv hm' hk => ?_
      have hcode : p.code[m'.address]? = some (.split address (stop + 1)) := hm'.address ▸ code
      have hat := hm'.address
      have hlt := (ways_advance ready hm.solid hv).lt
      have law : Pattern.ways f (.oneOrMore body) seq w = _ := ways_oneOrMore ready hm.solid
      have here : Q m' := inside m' (hm'.inOrder code trivial) (by omega) (by omega)
      refine .split here hcode (fun k hb => ?_) fun k hb => ?_
      · refine ih ((hm'.move address).of_bare hb) (by omega) inside fun u n hu hn hkn => ?_
        refine follow u n ?_ hn (((hk.move address).of_bare hb).trans hkn)
        rw [law]
        exact Choices.mem_andThen_of_mem hv (List.mem_append_left _ hu)
      · refine follow v k ?_ ((hm'.move _).of_bare hb) ((hk.move _).of_bare hb)
        rw [law]
        exact Choices.mem_andThen_of_mem hv (by simp)
  exact ⟨by omega, fun hm inside follow => turns _ hm (Nat.le_add_left _ _) inside follow⟩

end Covers

theorem composes_covers (hf : f.Closed) (hd : p.names.Nodup) :
    Composes f p fun address stop _ => Covers f p address stop where
  single code plain moves := .single code plain moves
  nil := .nil
  mono := .mono
  append := .append
  leave := .leave
  choose := .choose
  sequence enter exit hlt contents := .sequence hf enter exit hlt contents
  named := .named hd
  oneOrMore := .oneOrMore

end NestedRegex.Machine
