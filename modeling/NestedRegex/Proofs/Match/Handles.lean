import NestedRegex.Proofs.Match.Runs

namespace NestedRegex.Match

variable {m m' : Match} {h : Handle} {i : Nat}

/-- The name with this index took part in the match, whether or not its span is still held. -/
def BindsAt (m : Match) (i : Nat) : Prop :=
  m.places[i]?.map Place.isBound = some true

instance (m : Match) (i : Nat) : Decidable (m.BindsAt i) :=
  inferInstanceAs (Decidable (_ = _))

/-- A handle that can be had from a match. -/
def Offers (m : Match) (h : Handle) : Prop :=
  h = m.whole ∨ ∃ name, m.get? name = some h

/-- A handle that a match does not know: each question and each edit is answered so, and the match
stays as it is. As the second handle of an edit it is answered so where the first is in order. -/
structure Rejects (m : Match) (h : Handle) : Prop where
  span : m.span h = .error .foreignHandle
  isValid : m.isValid h = false
  content : m.content h = .error .foreignHandle
  first : m.first h = .error .foreignHandle
  values : m.values h = .error (.error .foreignHandle)
  replace (nodes : List Node) : replace h nodes m = .error (.error .foreignHandle) m
  putValues (values : List Value) : putValues h values m = .error (.error .foreignHandle) m
  putCopies (source : Handle) : putCopies h source m = .error (.error .foreignHandle) m
  copied {k nodes} (target : m.content k = .ok nodes) :
    Match.putCopies k h m = .error (.error .foreignHandle) m
  swap (other : Handle) : swap h other m = .error (.error .foreignHandle) m
  swapped {k s} (other : m.span k = .ok s) : Match.swap k h m = .error (.error .foreignHandle) m

theorem span_foreign_iff :
    m.span h = .error .foreignHandle ↔ h.matchId ≠ m.id ∨ ¬m.BindsAt h.index := by
  unfold span BindsAt
  by_cases hid : h.matchId = m.id
  · rw [if_neg (not_not.2 hid)]
    cases m.places[h.index]? with
    | none => simp
    | some place => cases place <;> simp [hid, Place.isBound]
  · rw [if_pos hid]
    simp [hid]

theorem rejects_of_span (hs : m.span h = .error .foreignHandle) : m.Rejects h := by
  have hc : m.content h = .error .foreignHandle := by
    rw [content, contentUpTo, hs]
    rfl
  refine
    { span := hs
      isValid := by rw [isValid, hs]; rfl
      content := hc
      first := by rw [first, hc]; rfl
      values := by rw [values, hc]; rfl
      replace := fun nodes => Edit.bind_error (Edit.ask_error hs)
      putValues := fun values => Edit.bind_error (Edit.ask_error hc)
      putCopies := fun source => Edit.bind_error (Edit.ask_error hc)
      copied := fun target => ?_
      swap := fun other => Edit.bind_error (Edit.ask_error hs)
      swapped := fun other => ?_ }
  · unfold Match.putCopies
    rw [Edit.bind_ok (Edit.ask_ok target)]
    exact Edit.bind_error (Edit.ask_error hc)
  · unfold Match.swap swapBy
    rw [Edit.bind_ok (Edit.ask_ok other)]
    exact Edit.bind_error (Edit.ask_error hs)

/-- A match rejects what has another number, and what it has not bound. -/
theorem rejects_iff : m.Rejects h ↔ h.matchId ≠ m.id ∨ ¬m.BindsAt h.index :=
  ⟨fun hr => span_foreign_iff.1 hr.span, fun hr => rejects_of_span (span_foreign_iff.2 hr)⟩

/-- Every handle of a match has its number. -/
theorem Offers.matchId (ho : m.Offers h) : h.matchId = m.id := by
  rcases ho with rfl | ⟨name, hget⟩
  · rfl
  · unfold get? at hget
    split at hget
    · rw [← Option.some.inj hget]
      rfl
    · obtain ⟨slot, -, hslot⟩ := Option.bind_eq_some_iff.1 hget
      obtain ⟨place, -, hplace⟩ := Option.bind_eq_some_iff.1 hslot
      split at hplace
      · rw [← Option.some.inj hplace]
      · cases hplace

/-- The same match at a later time: its forest may be any, and spans may have moved or be lost. -/
structure Later (m m' : Match) : Prop where
  id : m'.id = m.id
  program : m'.program = m.program
  binds (i : Nat) : m'.BindsAt i ↔ m.BindsAt i

namespace Later

theorem refl (m : Match) : m.Later m :=
  ⟨rfl, rfl, fun _ => Iff.rfl⟩

theorem trans {m'' : Match} (h : m.Later m') (h' : m'.Later m'') : m.Later m'' :=
  ⟨h'.id.trans h.id, h'.program.trans h.program, fun i => (h'.binds i).trans (h.binds i)⟩

/-- The forest can be edited past the handles. -/
theorem withForest (m : Match) (f : Forest) : m.Later { m with forest := f } :=
  ⟨rfl, rfl, fun _ => Iff.rfl⟩

theorem moved (m : Match) (move : Nat → Span → Option Span) :
    m.Later { m with places := moved move m.places } := by
  refine ⟨rfl, rfl, fun i => ?_⟩
  rw [BindsAt, BindsAt, isBound_moved]

end Later

end NestedRegex.Match

namespace NestedRegex.Edit

variable {α β : Type}

/-- An edit, made or refused, after which the match is the same at a later time. -/
def Passes (x : Edit α) : Prop :=
  ∀ m, match x m with
    | .ok _ m' => m.Later m'
    | .error _ m' => m.Later m'

namespace Passes

theorem pure (a : α) : Passes (Pure.pure a) :=
  fun m => .refl m

theorem bind {x : Edit α} {next : α → Edit β} (hx : Passes x) (hnext : ∀ a, Passes (next a)) :
    Passes (x >>= next) := by
  intro m
  have first := hx m
  cases hm : x m with
  | error e m' =>
    rw [hm] at first
    rw [bind_error hm]
    exact first
  | ok a m' =>
    rw [hm] at first
    rw [bind_ok hm]
    have second := hnext a m'
    cases hn : next a m' with
    | error e m'' =>
      rw [hn] at second
      exact first.trans second
    | ok b m'' =>
      rw [hn] at second
      exact first.trans second

/-- The two ways to one question. -/
theorem either {c : Prop} [Decidable c] {x y : Edit α} {next : α → Edit β} (hx : Passes x)
    (hy : Passes y) (hnext : ∀ a, Passes (next a)) :
    Passes (if c then x >>= next else y >>= next) := by
  split
  · exact hx.bind hnext
  · exact hy.bind hnext

/-- What would come after a refusal does not matter. -/
theorem throw (e : Failure HandleError) (next : α → Edit β) :
    Passes ((throw e : Edit α) >>= next) :=
  fun m => .refl m

theorem get : Passes (MonadState.get : Edit Match) :=
  fun m => .refl m

theorem ask (question : Match → Except HandleError α) : Passes (ask question) := by
  intro m
  unfold Edit.ask
  cases question m <;> exact .refl m

theorem look (question : Forest → Except Fault α) : Passes (look question) := by
  intro m
  unfold Edit.look
  cases question m.forest <;> exact .refl m

theorem add (step : Forest → α × Forest) : Passes (add step) :=
  fun m => .withForest m _

theorem modified {change : Match → Match} (h : ∀ m : Match, m.Later (change m)) :
    Passes (modify change) :=
  fun m => h m

theorem movePlaces (move : Nat → Span → Option Span) : Passes (movePlaces move) :=
  modified fun m => .moved m move

theorem splice (s : Span) (nodes : List Node) : Passes (splice s nodes) :=
  (look _).bind fun _ => (modified fun m => .withForest m _).bind fun _ => .pure _

theorem copy (n : Node) : Passes (copy n) :=
  (look _).bind fun _ => add _

theorem mapM {edit : α → Edit β} (h : ∀ a, Passes (edit a)) (xs : List α) :
    Passes (xs.mapM edit) := by
  induction xs with
  | nil => exact .pure _
  | cons x xs ih =>
    rw [List.mapM_cons]
    exact (h x).bind fun _ => ih.bind fun _ => .pure _

end Passes

end NestedRegex.Edit

namespace NestedRegex.Match

open Edit Relation

variable {m m' : Match}

theorem passes_replace (h : Handle) (nodes : List Node) : Passes (replace h nodes) := by
  refine (Passes.ask _).bind fun old => (Passes.ask _).bind fun _ =>
    (Passes.look _).bind fun kept => ?_
  split
  · exact Passes.get.bind fun _ => .throw _ _
  · exact (Passes.splice _ _).bind fun _ => (Passes.look _).bind fun _ => .movePlaces _

theorem passes_putValues (h : Handle) (values : List Value) : Passes (putValues h values) :=
  (Passes.ask _).bind fun _ => (Passes.add _).bind fun nodes => passes_replace h nodes

theorem passes_putCopies (h source : Handle) : Passes (putCopies h source) :=
  (Passes.ask _).bind fun _ => (Passes.ask _).bind fun nodes =>
    (Passes.mapM Passes.copy nodes).bind fun copies => passes_replace h copies

theorem passes_swap (a b : Handle) : Passes (swap a b) := by
  refine (Passes.ask _).bind fun first => (Passes.ask _).bind fun second =>
    (Passes.ask _).bind fun _ => (Passes.ask _).bind fun _ => (Passes.look _).bind fun below => ?_
  refine Passes.either (.pure _) ((Passes.look _).bind fun _ => .pure _) fun nested => ?_
  dsimp only
  split
  · exact Passes.get.bind fun _ => .throw _ _
  · -- The spans go in either order.
    split <;>
      exact (Passes.splice _ _).bind fun _ => (Passes.splice _ _).bind fun _ => .movePlaces _

/-- No edit, made or refused, changes the number of a match or what it binds. -/
theorem later_after (op : Operation) (m : Match) : m.Later (op.after m) := by
  have passes : Passes op.edit := by
    cases op with
    | replace h nodes => exact passes_replace h nodes
    | putValues h values => exact passes_putValues h values
    | putCopies h source => exact passes_putCopies h source
    | swap a b => exact passes_swap a b
  have hm := passes m
  unfold Operation.after
  cases hop : op.edit m <;> rw [hop] at hm <;> exact hm

/-- What can be done with a match: an operation on its handles, made or refused, or an edit of the
forest past the handles. -/
inductive Touched (m : Match) : Match → Prop
  | operation (op : Operation) : Touched m (op.after m)
  | forest (f : Forest) : Touched m { m with forest := f }

/-- What a match can become in the hands of its receiver. -/
def Becomes : Match → Match → Prop :=
  ReflTransGen Touched

theorem Becomes.later (h : m.Becomes m') : m.Later m' := by
  induction h with
  | refl => exact .refl m
  | tail _ touched ih =>
    cases touched with
    | operation op => exact ih.trans (later_after op _)
    | forest f => exact ih.trans (.withForest _ f)

end NestedRegex.Match
