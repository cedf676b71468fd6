import TimedMachine.Proofs.Delivery
import TimedMachine.Proofs.Passes
import TimedMachine.Proofs.Path

/-!
From the trigger to the commit, and from the record back to its trigger. An event that leads to
another state, a delayed transition that fires and the first admitted eventless transition each have
their commit made (`Commits`), which keeps to its protocol and writes one record (`Undertakes`). No
record is written in any other way (`commits_attend`).
-/
namespace TimedMachine

variable {κ : Type}

namespace Service

/-- A commit is triggered, keeps to its protocol and writes one record. If the clock has no instant
for a delay, it is cut short, and may not have come to its record. -/
structure Undertakes (target : String) (actions : List (Action κ)) (event : Event)
    (s : Service κ) : Prop where
  triggers : s.Triggers target actions event
  ends : (s.commit target actions event).Ends
    (fun r => Protocol target actions event s r ∧ r.path = s.path ++ [s.recordOf target event])
    (fun r => ProtocolCut target actions event s r ∧ s.CutShort r ∧
      (r.path = s.path ∨ r.path = s.path ++ [s.recordOf target event]))

theorem Triggers.undertakes {target : String} {actions : List (Action κ)} {event : Event}
    {s : Service κ} (h : s.Triggers target actions event) (hs : s.timers.Slot) :
    s.Undertakes target actions event :=
  ⟨h, (ends_commit_protocol target actions event hs).and (ends_commit_path target actions event hs)⟩

/-- What leads a service to a commit: where the commit is made, and what is done after it. -/
structure Commits [BEq κ] (s : Service κ) : Prop where
  /-- A caller's event that leads to another state. -/
  sent {event : Event} {next : Snapshot κ}
      (hnext : s.machine.transition? (.snapshot s.current) event = some next)
      (hchanged : next.changed = true) :
    ∃ u, (s.log (.accepted event)).Considers event u ∧
      u.Undertakes next.value next.actions event ∧
      s.send event = (u.commit next.value next.actions event).andThen resolve
  /-- A deferred event that leads to another state when its timer fires. -/
  deferred {limit : Duration} {horizon : Nat} {t : Timer} {timers : TimerQueue} {event : Event}
      {next : Snapshot κ} (hpop : s.timers.popDue? limit horizon = some (t, timers))
      (htask : t.task = .deferred event)
      (hnext : s.machine.transition? (.snapshot s.current) event = some next)
      (hchanged : next.changed = true) :
    ∃ u, (s.taken t timers).Considers event u ∧
      u.Undertakes next.value next.actions event ∧
      (s.taken t timers).fire t = (u.commit next.value next.actions event).andThen resolve
  /-- A delayed transition of the current state to another declared one, when its timer fires. -/
  delayed {limit : Duration} {horizon : Nat} {t : Timer} {timers : TimerQueue} {index : Nat}
      {d : Delayed κ} (hpop : s.timers.popDue? limit horizon = some (t, timers))
      (htask : t.task = .delayed s.current.value index)
      (hd : (s.machine.afterOf s.current.value)[index]? = some d)
      (hother : d.target ≠ s.current.value) (hdecl : s.machine.declares d.target = true) :
    (s.taken t timers).Undertakes d.target d.actions (.after d.delay s.current.value) ∧
      (s.taken t timers).fire t =
        ((s.taken t timers).commit d.target d.actions (.after d.delay s.current.value)).andThen
          resolve
  /-- The first enabled eventless transition, to a declared state, in a pass that has not left the
  current state yet. -/
  eventless {left : List String} {t : Eventless κ} (hnew : s.current.value ∉ left)
      (hfirst : (s.machine.alwaysOf s.current.value).find? (·.enabled s.current) = some t)
      (hdecl : s.machine.declares t.target = true) :
    (s.weigh (s.machine.alwaysOf s.current.value)).Undertakes t.target t.actions
        (.always s.current.value) ∧
      settle left s =
        ((s.weigh (s.machine.alwaysOf s.current.value)).commit t.target t.actions
          (.always s.current.value)).andThen (settle (s.current.value :: left))

section

variable {s : Service κ}

theorem settle_eq_commit {left : List String} {t : Eventless κ} (hnew : s.current.value ∉ left)
    (hfirst : (s.machine.alwaysOf s.current.value).find? (·.enabled s.current) = some t)
    (hdecl : s.machine.declares t.target = true) :
    settle left s =
      ((s.weigh (s.machine.alwaysOf s.current.value)).commit t.target t.actions
        (.always s.current.value)).andThen (settle (s.current.value :: left)) := by
  have hsome : s.machine.alwaysOf s.current.value ≠ [] := by
    intro hnone
    rw [hnone] at hfirst
    cases hfirst
  rw [settle_eq, if_neg hsome, if_neg hnew, roundThen, hfirst]
  exact if_pos hdecl

variable [BEq κ] {event : Event} {next : Snapshot κ} {t : Timer}

theorem deliver_eq_commit
    (hnext : s.machine.transition? (.snapshot s.current) event = some next)
    (hchanged : next.changed = true) :
    s.deliver event =
      ((s.consider event).commit next.value next.actions event).andThen resolve := by
  rw [deliver_eq, hnext]
  exact if_pos hchanged

theorem fire_eq_deliver (htask : t.task = .deferred event) (hs : s.status = .running) :
    s.fire t = s.deliver event := by
  rw [fire, htask]
  exact if_pos (isRunning_iff.2 hs)

theorem fire_eq_commit {index : Nat} {d : Delayed κ}
    (htask : t.task = .delayed s.current.value index)
    (hd : (s.machine.afterOf s.current.value)[index]? = some d)
    (hother : d.target ≠ s.current.value) (hdecl : s.machine.declares d.target = true) :
    s.fire t = (s.commit d.target d.actions (.after d.delay s.current.value)).andThen resolve := by
  rw [fire, htask]
  simp [hd, hother, hdecl]

end

/-- An event that was taken up triggers a commit once it is known where it leads. -/
theorem undertakes_consider {s : Service κ} {event : Event} {next : Snapshot κ}
    (hs : s.timers.Slot) (hevent : s.Brought event)
    (hnext : s.machine.transition? (.snapshot s.current) event = some next)
    (hchanged : next.changed = true) :
    (s.consider event).Undertakes next.value next.actions event := by
  have hconsiders := considers_consider event hs
  have hbrought : (s.consider event).Brought event :=
    hevent.adds (adds_consider (fun _ => rfl) (fun _ _ _ => rfl) event s)
  have hslot : (s.consider event).timers.Slot := by
    rw [hconsiders.timers_eq]
    exact s.stays_cancelDeferred.slot hs
  refine Triggers.undertakes (.event hbrought ?_ hchanged) hslot
  rw [show (s.consider event).machine = s.machine from hconsiders.machine, hconsiders.current]
  exact hnext

variable [BEq κ]

theorem commits_of_slot {s : Service κ} (hs : s.timers.Slot) (hrunning : s.status = .running) :
    s.Commits := by
  constructor
  case sent =>
    intro event next hnext hchanged
    have hevent : (s.log (.accepted event)).Brought event :=
      ⟨s.journal, _, [], s.journal_log _, rfl, by simp⟩
    refine ⟨_, considers_consider event hs, undertakes_consider hs hevent hnext hchanged, ?_⟩
    rw [send, if_pos (isRunning_iff.2 hrunning)]
    exact deliver_eq_commit hnext hchanged
  case deferred =>
    intro limit horizon t timers event next hpop htask hnext hchanged
    have hslot : (s.taken t timers).timers.Slot := TimerQueue.slot_of_popDue? hpop hs
    have htook : (s.taken t timers).Took t := ⟨s.journal, s.journal_withTimers timers _⟩
    refine ⟨_, considers_consider event hslot,
      undertakes_consider hslot (htook.brought htask) hnext hchanged, ?_⟩
    have hheard : (s.taken t timers).fire t = (s.taken t timers).deliver event :=
      fire_eq_deliver htask hrunning
    exact hheard.trans (deliver_eq_commit hnext hchanged)
  case delayed =>
    intro limit horizon t timers index d hpop htask hd hother hdecl
    have htook : (s.taken t timers).Took t := ⟨s.journal, s.journal_withTimers timers _⟩
    have htriggers : (s.taken t timers).Triggers d.target d.actions (.after d.delay _) :=
      .delayed htook htask hd hother hdecl
    exact ⟨htriggers.undertakes (TimerQueue.slot_of_popDue? hpop hs),
      fire_eq_commit htask hd hother hdecl⟩
  case eventless =>
    intro left t hnew hfirst hdecl
    have hslot : (s.weigh (s.machine.alwaysOf s.current.value)).timers.Slot :=
      weigh_keeps (p := fun r => r.timers.Slot) hs fun _ _ _ _ _ hr => hr
    exact ⟨(triggers_weigh hfirst hdecl).undertakes hslot, settle_eq_commit hnew hfirst hdecl⟩

/-- A new service goes through every session by steps. Wherever these lead, a running service commits
the transition that an event leads to, the delayed one that fires and the first enabled eventless one,
each on the event of its trigger. The commit keeps to the protocol: all delayed transitions are
cancelled; the exit actions, the entry actions and the transition's own are called once each, in this
order, on that event and with one context handed on, the record being written behind the exit actions;
the listeners are told once of the snapshot that comes of it; the delayed transitions of the target
are armed once each, in order; and of the deliveries asked for, the last waits. It adds its one record
to the path. It is cut short only if the clock has no instant for a delay, having made the first of
these calls and no others. And each record in the journal comes from a commit of this kind. -/
theorem commits_attend (machine : Machine κ) (options : Options κ) (channel : Nat)
    (calls : List (Call κ)) (b : Switchboard κ) :
    let start := create machine options channel
    let r := (attend calls start b).1.service
    (∀ s, Steps start s → s.status = .running → s.Commits) ∧
    Steps start r ∧
    RecordsMeet (Recounts start r) r.journal := by
  intro start r
  have hacts : Acts start r := acts_attend calls b start
  refine ⟨fun s hs hrunning => ?_, Acts.steps hacts, ?_⟩
  · exact commits_of_slot (Steps.slot hs TimerQueue.slot_empty) hrunning
  · have hcreated : start.journal = [] := journal_create _ _ _
    have hrecounts := Acts.recounts hacts TimerQueue.slot_empty (List.nil_append _).symm
    rw [hcreated] at hrecounts
    exact hrecounts

end Service

/-- A door that counts one when it is left closed, doubles when it is open, and adds five on the way.
It closes by itself after eleven nanoseconds. -/
def door : Machine Nat where
  initial := some "closed"
  context := some 1
  states := .ofList
    [("closed",
        { on := .ofList
            [("push", .described
              { target := some "open"
                actions := [.direct fun _ _ => ⟨.assign (· + 5), []⟩] })]
          exit := [.direct fun _ _ => ⟨.assign (· + 1), []⟩] }),
      ("open",
        { entry := [.named "nothing", .direct fun _ _ => ⟨.assign (· * 2), []⟩]
          after := [⟨⟨11, by decide⟩, "closed", []⟩] })]

/-- A service that has just been started on the door. -/
def shut : Service Nat :=
  ({ Service.create door {} 0 with status := .running } : Service Nat).log (.started .zero)

namespace Service

theorem attend_door :
    (attend [.operate .start] (create door {} 0) {}).1 = .completed shut := by
  have hstart : (create door {} 0).start = .completed shut := settle_of_barren [] rfl
  exact attend_start hstart {}

/-- A push commits one transition, by its protocol, and leaves nine. -/
theorem commits_attend_door :
    ∃ u r actions, (shut.log (.accepted ⟨"push", .null⟩)).Considers ⟨"push", .null⟩ u ∧
      shut.send ⟨"push", .null⟩ = .completed r ∧
      Protocol "open" actions ⟨"push", .null⟩ u r ∧
      r.path = [⟨"closed", "open", "push", .zero, ()⟩] ∧ r.current.context = some 9 := by
  obtain ⟨next, hnext, hchanged, hvalue⟩ :
      ∃ next, door.transition? (.snapshot shut.current) ⟨"push", .null⟩ = some next ∧
        next.changed = true ∧ next.value = "open" := ⟨_, rfl, rfl, rfl⟩
  obtain ⟨r, hr, hpath, hcontext⟩ : ∃ r, shut.send ⟨"push", .null⟩ = .completed r ∧
      r.path = [⟨"closed", "open", "push", .zero, ()⟩] ∧ r.current.context = some 9 :=
    ⟨_, settle_of_barren [] rfl, rfl, rfl⟩
  have hcommits := (commits_attend door {} 0 [.operate .start] {}).1 shut
    (steps_of_attend attend_door) rfl
  obtain ⟨u, hconsiders, hundertakes, hsend⟩ := hcommits.sent hnext hchanged
  have hends := hundertakes.ends
  rw [hvalue] at hends hsend
  refine ⟨u, r, next.actions, hconsiders, hr, ?_, hpath, hcontext⟩
  cases ho : u.commit "open" next.actions ⟨"push", .null⟩ with
  | overflowed v =>
    rw [ho, hr] at hsend
    cases hsend
  | completed v =>
    rw [ho] at hends hsend
    obtain ⟨hprotocol, _⟩ := hends
    have hmachine : v.machine = door := hprotocol.machine.trans hconsiders.machine
    have hbarren : v.machine.alwaysOf v.current.value = [] := by
      rw [hmachine, hprotocol.current]
      rfl
    rw [Outcome.completed_andThen, resolve, settle_of_barren [] hbarren, hr] at hsend
    obtain rfl := Outcome.completed.inj hsend
    exact hprotocol

end Service
end TimedMachine
