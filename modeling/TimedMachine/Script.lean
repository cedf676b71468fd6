import TimedMachine.Snapshot

/-!
Guards, conditions and actions on JSON contexts, written as data: tests to be combined, and
behaviours to choose between. A labelled test and every action take a note of their call.
-/
namespace TimedMachine

inductive Comparison where
  | eq | ne | lt | le | gt | ge
  deriving DecidableEq

/-- Equality compares all values; order only integers of 64 signed bits, and holds of nothing else. -/
def Comparison.holds (c : Comparison) (left right : Json) : Bool :=
  let ordered (test : Int → Int → Bool) : Bool :=
    match left.signed64?, right.signed64? with
    | some a, some b => test a b
    | _, _ => false
  match c with
  | .eq => left == right
  | .ne => left != right
  | .lt => ordered (· < ·)
  | .le => ordered (· ≤ ·)
  | .gt => ordered (· > ·)
  | .ge => ordered (· ≥ ·)

/-- What a test looks at; each part may be missing. -/
structure Subject where
  state : Option (Snapshot Json) := none
  context : Option Json := none
  event : Option Event := none

inductive Predicate where
  | constant (b : Bool)
  | hasContext
  | noContext
  | changed
  | stateIs (value : String)
  | eventIs (kind : String)
  | pendingIs (count : Int)
  | context (key : Option String) (c : Comparison) (value : Json)
  | payload (key : Option String) (c : Comparison) (value : Json)
  | all (ps : List Predicate)
  | any (ps : List Predicate)
  | not (p : Predicate)
  | noted (label : String) (p : Predicate)

namespace Predicate

/-- Compare a value, or a member of it, if there is one. -/
def compare (value : Option Json) (key : Option String) (c : Comparison) (right : Json) : Bool :=
  let left := value.bind fun v =>
    match key with
    | none => some v
    | some key => v.member? key
  match left with
  | none => false
  | some left => c.holds left right

mutual

/-- Conjunctions and disjunctions stop at the first part that decides them, so the parts after it
take no notes. -/
def eval (s : Subject) : Predicate → Verdict Json
  | .constant b => ⟨b, []⟩
  | .hasContext => ⟨s.context.isSome, []⟩
  | .noContext => ⟨s.context.isNone, []⟩
  | .changed => ⟨s.state.any (·.changed), []⟩
  | .stateIs value => ⟨s.state.any (·.isAt value), []⟩
  | .eventIs kind => ⟨s.event.any (fun e => e.kind = kind), []⟩
  | .pendingIs count => ⟨s.state.any (fun t => (t.actions.length : Int) = count), []⟩
  | .context key c value => ⟨compare s.context key c value, []⟩
  | .payload key c value => ⟨compare (s.event.map Event.payload) key c value, []⟩
  | .all ps => evalAll s ps
  | .any ps => evalAny s ps
  | .not p =>
    let v := eval s p
    ⟨!v.holds, v.notes⟩
  | .noted label p =>
    let v := eval s p
    ⟨v.holds, v.notes ++ [.guard label (s.state.map Snapshot.value) s.event v.holds]⟩

def evalAll (s : Subject) : List Predicate → Verdict Json
  | [] => ⟨true, []⟩
  | p :: ps =>
    let v := eval s p
    if v.holds then
      let w := evalAll s ps
      ⟨w.holds, v.notes ++ w.notes⟩
    else v

def evalAny (s : Subject) : List Predicate → Verdict Json
  | [] => ⟨false, []⟩
  | p :: ps =>
    let v := eval s p
    if v.holds then v
    else
      let w := evalAny s ps
      ⟨w.holds, v.notes ++ w.notes⟩

end

/-- A guard sees the snapshot before the transition and the event. -/
def guard (p : Predicate) : Guard Json := fun s event =>
  p.eval { state := some s, context := s.context, event := some event }

/-- A condition sees the snapshot alone. -/
def condition (p : Predicate) : Condition Json := fun s =>
  p.eval { state := some s, context := s.context }

end Predicate

/-- The arithmetic of an assignment, wrapping around 64 signed bits. -/
inductive Arithmetic where
  | add (n : Int)
  | mul (n : Int)

def Arithmetic.apply : Arithmetic → Int → Int
  | .add n, m => (m + n).bmod 18446744073709551616
  | .mul n, m => (m * n).bmod 18446744073709551616

/-- Compute on the context itself, or on a member of it that counts as zero unless it is a number.
Contexts of other kinds stay. -/
def Arithmetic.update (a : Arithmetic) (key : Option String) (context : Json) : Json :=
  match key, context with
  | none, .num n =>
    match (Json.num n).signed64? with
    | some m => .num (a.apply m)
    | none => context
  | some key, .obj members =>
    let m := ((members.lookup key).bind Json.signed64?).getD 0
    .obj (Json.putMember key (.num (a.apply m)) members)
  | _, _ => context

inductive Behaviour where
  | done
  | merge (patch : Json)
  /-- Merge the event's payload into the context under a key. -/
  | store (key : String)
  | set (value : Json)
  | compute (key : Option String) (a : Arithmetic)
  | send (event : Event) (delay : Duration)
  | choose (test : Predicate) (yes no : Behaviour)

namespace Behaviour

/-- The effect on a context and an event, with the notes of the tests made on the way. A test here
sees no snapshot. -/
def run (context : Option Json) (event : Event) : Behaviour → Reply Json
  | .done => ⟨.done, []⟩
  | .merge patch => ⟨.assign (Json.merge patch), []⟩
  | .store key => ⟨.assign (Json.merge (.ofMembers [(key, event.payload)])), []⟩
  | .set value => ⟨.assign (fun _ => value), []⟩
  | .compute key a => ⟨.assign (a.update key), []⟩
  | .send later delay => ⟨.send later delay, []⟩
  | .choose test yes no =>
    let v := test.eval { context, event := some event }
    let r := if v.holds then run context event yes else run context event no
    ⟨r.effect, v.notes ++ r.notes⟩

/-- The behaviour as an action's function; a call is noted under the label before all else. -/
def action (label : String) (b : Behaviour) : ActionFn Json := fun context event =>
  let r := b.run context event
  ⟨r.effect, .action label event context :: r.notes⟩

end Behaviour
end TimedMachine
