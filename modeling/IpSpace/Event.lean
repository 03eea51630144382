import IpSpace.Block.Basic

/-!
# Events

What an operation tells about its work besides its result, and computations that collect it. An `Attempt` may fail; what
it told before stays told.
-/
namespace IpSpace

inductive Event where
  /-- A range search looks at a block that may start the range from `first` to `last`. Told by `fit`. -/
  | trying {f : Family} (candidate : Block f) (first last : Address f)
  /-- A range was covered by `blocks` blocks. Told by `cover`. -/
  | covered {f : Family} (first last : Address f) (blocks : Nat)
  /-- A listing of sub-blocks yields a block. Told by `Subnets.next`. -/
  | subnet {f : Family} (block : Block f)
  /-- A host mask was refused because it does not go with the prefix. Told by `Net6.new`. -/
  | rejected (prefixLength maskLength : Nat)

/-- The event as a line: how much it matters, and what happened. -/
def Event.line : Event → String
  | .trying candidate first last =>
    "TRACE: trying " ++ candidate.text ++ " for " ++ first.text ++ " to " ++ last.text
  | .covered first last blocks =>
    "DEBUG: " ++ first.text ++ " to " ++ last.text ++ " takes " ++ toString blocks ++ " blocks"
  | .subnet block => "TRACE: subnet " ++ block.text
  | .rejected prefixLength maskLength =>
    "DEBUG: rejecting /" ++ toString prefixLength ++ " with a /" ++ toString maskLength ++ " hostmask"

/-- A value and the events on the way to it, in order. -/
@[ext] structure Logged (α : Type) where
  value : α
  events : List Event

namespace Logged

instance : Monad Logged where
  pure value := ⟨value, []⟩
  map g x := ⟨g x.value, x.events⟩
  bind x next :=
    let y := next x.value
    ⟨y.value, x.events ++ y.events⟩

/-- Tells one event. -/
def tell (e : Event) : Logged Unit := ⟨(), [e]⟩

variable {α β : Type}

@[simp] theorem value_pure (a : α) : (pure a : Logged α).value = a := rfl

@[simp] theorem events_pure (a : α) : (pure a : Logged α).events = [] := rfl

@[simp] theorem value_map (g : α → β) (x : Logged α) : (g <$> x).value = g x.value := rfl

@[simp] theorem events_map (g : α → β) (x : Logged α) : (g <$> x).events = x.events := rfl

@[simp] theorem value_bind (x : Logged α) (k : α → Logged β) : (x >>= k).value = (k x.value).value := rfl

@[simp] theorem events_bind (x : Logged α) (k : α → Logged β) :
    (x >>= k).events = x.events ++ (k x.value).events := rfl

end Logged

/-- A computation that may fail and tells events either way. -/
abbrev Attempt := ExceptT Error Logged

namespace Attempt

variable {α β : Type}

/-- An attempt that tells nothing. -/
def ofExcept (x : Except Error α) : Attempt α := ExceptT.mk (pure x)

/-- How the attempt ends. -/
def outcome (x : Attempt α) : Except Error α := x.run.value

/-- What the attempt tells. -/
def events (x : Attempt α) : List Event := x.run.events

@[simp] theorem outcome_pure (a : α) : (pure a : Attempt α).outcome = .ok a := rfl

@[simp] theorem outcome_throw (e : Error) : (throw e : Attempt α).outcome = .error e := rfl

@[simp] theorem outcome_lift (x : Logged α) : (liftM x : Attempt α).outcome = .ok x.value := rfl

theorem outcome_bind (x : Attempt α) (k : α → Attempt β) :
    (x >>= k).outcome = x.outcome.bind fun a => (k a).outcome := by
  show (ExceptT.bindCont k x.run.value).value = x.run.value.bind fun a => (k a).outcome
  cases x.run.value <;> rfl

theorem outcome_bind_ok {x : Attempt α} {a : α} (h : x.outcome = .ok a) (k : α → Attempt β) :
    (x >>= k).outcome = (k a).outcome := by
  rw [outcome_bind, h]; rfl

theorem outcome_bind_error {x : Attempt α} {e : Error} (h : x.outcome = .error e) (k : α → Attempt β) :
    (x >>= k).outcome = .error e := by
  rw [outcome_bind, h]; rfl

@[simp] theorem events_pure (a : α) : (pure a : Attempt α).events = [] := rfl

@[simp] theorem events_throw (e : Error) : (throw e : Attempt α).events = [] := rfl

@[simp] theorem events_lift (x : Logged α) : (liftM x : Attempt α).events = x.events := rfl

theorem events_bind_ok {x : Attempt α} {a : α} (h : x.outcome = .ok a) (k : α → Attempt β) :
    (x >>= k).events = x.events ++ (k a).events := by
  show x.run.events ++ (ExceptT.bindCont k x.run.value).events = _
  rw [show x.run.value = .ok a from h]
  rfl

theorem events_bind_error {x : Attempt α} {e : Error} (h : x.outcome = .error e) (k : α → Attempt β) :
    (x >>= k).events = x.events := by
  show x.run.events ++ (ExceptT.bindCont k x.run.value).events = _
  rw [show x.run.value = .error e from h]
  exact List.append_nil _

end Attempt

end IpSpace
