import TimedMachine.Proofs.Counterpart
import TimedMachine.Proofs.Resolution

/-!
Writing a machine with other actions. Every action in its lists gives way to another that stands for
the same function, or has the same name if it stands for none. In particular a name that the options
know can be spelled out as its function (`Options.spellOut`). Guards and conditions see the pending
actions in a snapshot; as long as they look at no more than how many there are, the two machines are
counterparts (`counterpart_respell`).
-/
namespace TimedMachine

variable {κ : Type}

/-- Write the function in place of a name that has one. -/
def Options.spellOut (o : Options κ) : Action κ → Action κ
  | .direct run => .direct run
  | .named name =>
    match o.actions.find? name with
    | none => .named name
    | some run => .direct run

theorem Options.resolve_spellOut (o : Options κ) (x : Action κ) :
    o.resolve (o.spellOut x) = o.resolve x := by
  cases x with
  | direct run => rfl
  | named name =>
    rw [spellOut]
    split
    · rfl
    · rename_i hrun
      exact hrun.symm

/-- An action that stands for no function is left as it is. -/
theorem Options.spellOut_of_resolve_eq_none {o : Options κ} {x : Action κ}
    (h : o.resolve x = none) : o.spellOut x = x := by
  cases x with
  | direct run => rfl
  | named name =>
    have hnone : o.actions.find? name = none := h
    rw [spellOut, hnone]

section Respell

variable (f : Action κ → Action κ)

def Snapshot.respell (s : Snapshot κ) : Snapshot κ := { s with actions := s.actions.map f }

def Handler.respell : Handler κ → Handler κ
  | .bare target => .bare target
  | .described d => .described { d with actions := d.actions.map f }

def Delayed.respell (d : Delayed κ) : Delayed κ := { d with actions := d.actions.map f }

def Eventless.respell (t : Eventless κ) : Eventless κ := { t with actions := t.actions.map f }

def Node.respell (n : Node κ) : Node κ where
  on := n.on.map (Handler.respell f)
  entry := n.entry.map f
  exit := n.exit.map f
  after := n.after.map (Delayed.respell f)
  always := n.always.map (Eventless.respell f)

/-- The machine with other actions in all its lists. -/
def Machine.respell (a : Machine κ) : Machine κ := { a with states := a.states.map (Node.respell f) }

/-- The matching of every action with the one that is written instead. -/
def Respells : Matching κ := fun x x' => x' = f x

end Respell

/-- Two snapshots with no difference but in which actions are pending: there are equally many. -/
structure Snapshot.SameOutline (s s' : Snapshot κ) : Prop where
  value : s'.value = s.value
  context : s'.context = s.context
  pending : s'.actions.length = s.actions.length
  changed : s'.changed = s.changed

/-- The guard looks at no more of the pending actions than how many there are. -/
def Guard.Blind (g : Guard κ) : Prop :=
  ∀ s s' : Snapshot κ, s.SameOutline s' → ∀ event, g s' event = g s event

def Condition.Blind (c : Condition κ) : Prop :=
  ∀ s s' : Snapshot κ, s.SameOutline s' → c s' = c s

/-- All guards and conditions of the machine are blind to which actions are pending. -/
structure Machine.Blind (a : Machine κ) : Prop where
  guard : ∀ state node event d g, a.states.find? state = some node →
    node.on.find? event = some (.described d) → d.guard = some g → g.Blind
  condition : ∀ state, ∀ t ∈ a.alwaysOf state, ∀ c, t.condition = some c → c.Blind

variable {f : Action κ → Action κ}

theorem forall₂_respells {l l' : List (Action κ)} :
    List.Forall₂ (Respells f) l l' ↔ l' = l.map f := by
  constructor
  · exact eq_map_of_forall₂ fun _ _ h => h
  · rintro rfl
    exact List.forall₂_map_right_iff.2 (List.forall₂_same.2 fun _ _ => rfl)

theorem Snapshot.alike_respell (s : Snapshot κ) : s.Alike (Respells f) (s.respell f) :=
  ⟨rfl, rfl, forall₂_respells.2 rfl, rfl⟩

theorem Snapshot.Alike.eq_respell {s s' : Snapshot κ} (h : s.Alike (Respells f) s') :
    s' = s.respell f :=
  calc s' = ⟨s'.value, s'.context, s'.actions, s'.changed⟩ := rfl
    _ = s.respell f := by
      rw [h.value, h.context, h.changed, forall₂_respells.1 h.actions]
      rfl

/-- Whatever the matching, corresponding snapshots have equally many actions. -/
theorem Snapshot.Alike.sameOutline {m : Matching κ} {s s' : Snapshot κ} (h : s.Alike m s') :
    s.SameOutline s' :=
  ⟨h.value, h.context, h.actions.length_eq.symm, h.changed⟩

namespace Machine

variable (a : Machine κ)

theorem find?_respell (state : String) :
    (a.respell f).states.find? state = (a.states.find? state).map (Node.respell f) :=
  a.states.find?_map _ state

theorem declares_respell (state : String) : (a.respell f).declares state = a.declares state := by
  rw [declares, declares, Table.contains, Table.contains, find?_respell, Option.isSome_map]

theorem entryOf_respell (state : String) : (a.respell f).entryOf state = (a.entryOf state).map f := by
  rw [entryOf, entryOf, find?_respell]
  cases a.states.find? state <;> rfl

theorem exitOf_respell (state : String) : (a.respell f).exitOf state = (a.exitOf state).map f := by
  rw [exitOf, exitOf, find?_respell]
  cases a.states.find? state <;> rfl

theorem afterOf_respell (state : String) :
    (a.respell f).afterOf state = (a.afterOf state).map (Delayed.respell f) := by
  rw [afterOf, afterOf, find?_respell]
  cases a.states.find? state <;> rfl

theorem alwaysOf_respell (state : String) :
    (a.respell f).alwaysOf state = (a.alwaysOf state).map (Eventless.respell f) := by
  rw [alwaysOf, alwaysOf, find?_respell]
  cases a.states.find? state <;> rfl

theorem targetOf_respell (current : String) (h : Handler κ) :
    (a.respell f).targetOf current (h.respell f) = a.targetOf current h := by
  cases h with
  | bare target => simp only [Handler.respell, targetOf, declares_respell]
  | described d => simp only [Handler.respell, targetOf, declares_respell]

theorem actions_respell (h : Handler κ) : (h.respell f).actions = h.actions.map f := by
  cases h <;> rfl

theorem guardOf_respell (h : Handler κ) : guardOf (h.respell f) = guardOf h := by
  cases h <;> rfl

variable {a}

theorem Blind.guardOf (hblind : a.Blind) {state event : String} {node : Node κ} {h : Handler κ}
    {g : Guard κ} (hnode : a.states.find? state = some node) (hon : node.on.find? event = some h)
    (hg : Machine.guardOf h = some g) : g.Blind := by
  cases h with
  | bare target => cases hg
  | described d => exact hblind.guard state node event d g hnode hon hg

/-- An event leads to corresponding snapshots. -/
theorem candidate_respell (hblind : a.Blind) {s s' : Snapshot κ} (h : s.Alike (Respells f) s')
    (event : Event) :
    Option.Rel (Candidate.Alike (Respells f)) (a.candidate? s event)
      ((a.respell f).candidate? s' event) := by
  unfold candidate?
  rw [h.value, h.context, find?_respell]
  cases hnode : a.states.find? s.value with
  | none => exact .none
  | some node =>
    have hon : (node.respell f).on.find? event.kind =
        (node.on.find? event.kind).map (Handler.respell f) := node.on.find?_map _ _
    simp only [Option.map_some, Option.bind_eq_bind, Option.bind_some, hon]
    cases hhandler : node.on.find? event.kind with
    | none => exact .none
    | some handler =>
      simp only [Option.map_some, Option.bind_some, targetOf_respell, actions_respell,
        guardOf_respell, List.isEmpty_map]
      cases a.targetOf s.value handler with
      | none => exact .none
      | some target =>
        simp only [Option.bind_some]
        split
        · exact .none
        · refine .some ⟨⟨rfl, rfl, forall₂_respells.2 rfl, rfl⟩, rfl, fun g hg u u' hu event => ?_⟩
          exact hblind.guardOf hnode hhandler hg u u' hu.sameOutline event

/-- The machine that is written with other actions is a counterpart, under the same options. -/
theorem counterpart_respell (hblind : a.Blind) {o : Options κ}
    (hresolve : ∀ x, o.resolve (f x) = o.resolve x)
    (hname : ∀ x, o.resolve x = none → (f x).name? = x.name?) :
    Counterpart (Respells f) a o (a.respell f) o where
  resolve := by
    rintro x _ rfl
    exact hresolve x
  unresolved := by
    rintro x _ rfl
    exact hname x
  declares := a.declares_respell
  entry state := forall₂_respells.2 (a.entryOf_respell state)
  exit state := forall₂_respells.2 (a.exitOf_respell state)
  after state := by
    rw [afterOf_respell]
    refine List.forall₂_map_right_iff.2 (List.forall₂_same.2 fun d _ => ?_)
    exact ⟨rfl, rfl, forall₂_respells.2 rfl⟩
  always state := by
    rw [alwaysOf_respell]
    refine List.forall₂_map_right_iff.2 (List.forall₂_same.2 fun t ht => ?_)
    refine ⟨rfl, forall₂_respells.2 rfl, rfl, fun c hc s s' hs => ?_⟩
    exact hblind.condition state t ht c hc s s' hs.sameOutline
  candidate _ _ h event := candidate_respell hblind h event

theorem counterpart_spellOut (hblind : a.Blind) (o : Options κ) :
    Counterpart (Respells o.spellOut) a o (a.respell o.spellOut) o :=
  counterpart_respell hblind o.resolve_spellOut fun x hx => by
    rw [Options.spellOut_of_resolve_eq_none hx]

end Machine

/-- A turnstile that counts coins, and beeps if someone has given it a beeper. It takes no coin while
more than two actions are pending. -/
def turnstile : Machine Nat where
  initial := some "locked"
  context := some 0
  states := .ofList
    [("locked",
        { on := .ofList
            [("coin", .described
              { target := some "open"
                actions := [.named "count", .named "beep"]
                guard := some fun s _ => ⟨s.actions.length ≤ 2, []⟩ })] }),
      ("open",
        { exit := [.named "beep"]
          after := [⟨⟨2500000000, by decide⟩, "locked", [.named "beep"]⟩] })]

def turnstileOptions : Options Nat where
  actions := .ofList [("count", fun _ _ => ⟨.assign (· + 1), []⟩)]

theorem blind_turnstile : turnstile.Blind := by
  have hlength : Guard.Blind fun (s : Snapshot Nat) _ => ⟨s.actions.length ≤ 2, []⟩ :=
    fun s s' h _ => by simp only [h.pending]
  constructor
  · intro state node event d g hnode hon hg
    have hguards : ∀ e ∈ turnstile.states.entries, ∀ x ∈ e.2.on.entries, ∀ g,
        Machine.guardOf x.2 = some g → g.Blind := by
      show ∀ e ∈ [_, _], _
      simp only [List.forall_mem_cons]
      refine ⟨?_, by simp [Table.empty], by simp⟩
      show ∀ x ∈ [_], _
      simp only [List.forall_mem_cons]
      refine ⟨?_, by simp⟩
      rintro g hg
      obtain rfl := Option.some.inj hg
      exact hlength
    exact hguards _ (Table.mem_entries_of_find? hnode) _ (Table.mem_entries_of_find? hon) g hg
  · intro state t ht
    obtain ⟨node, hnode, ht⟩ := Machine.find?_of_mem_getD ht
    have hnone : ∀ e ∈ turnstile.states.entries, e.2.always = [] := by
      show ∀ e ∈ [_, _], _
      simp
    rw [hnone _ (Table.mem_entries_of_find? hnode)] at ht
    cases ht

end TimedMachine
