import TimedMachine.Proofs.Delivery
import TimedMachine.Proofs.Enduring
import TimedMachine.Proofs.Passes

/-!
What the flag of a snapshot tells. A snapshot takes the place of another in a commit, or with an event
that stays in the state (`Replaces`). It counts as changed exactly if its state or its context is
another one; only an eventless transition that leads back to the state it leaves counts as a change
whatever comes of it. The listeners are told exactly of the snapshots that count as changed.
-/
namespace TimedMachine

variable {κ : Type}

/-- The state is another one, or the context is not equal to what it was. -/
def Snapshot.Differs [BEq κ] (old new : Snapshot κ) : Prop :=
  new.value ≠ old.value ∨ (new.context != old.context) = true

theorem Entry.notified?_of_isWork (e : Entry κ) (h : e.isWork = true) : e.notified? = none := by
  cases e <;> simp [isWork, notified?] at *

namespace Service

/-- The listeners are told nothing. -/
abbrev AddsUntold (s r : Service κ) : Prop := Adds (fun e => e.notified? = none) s r

/-- A snapshot has come in place of another. It counts as changed if it differs, or if the transition
lingers in the state; and exactly then the listeners were told of it, once. -/
structure Flagged [BEq κ] (lingering : Prop) (s r : Service κ) : Prop where
  changed : r.current.changed = true ↔ s.current.Differs r.current ∨ lingering
  told : ∃ new, r.journal = s.journal ++ new ∧
    new.filterMap Entry.notified? = if r.current.changed then [r.current] else []

section

variable {s r u : Service κ}

theorem Stays.addsUntold (h : s.Stays r) : s.AddsUntold r := h.entries.imp Entry.notified?_of_isWork

/-- The service is on a snapshot of the target, and nobody has been told of it. -/
structure Arrived (target : String) (s r : Service κ) : Prop where
  value : r.current.value = target
  changed : r.current.changed = true
  untold : s.AddsUntold r

theorem Arrived.stays {target : String} (h : s.Arrived target r) (k : r.Stays u) :
    s.Arrived target u where
  value := k.value.trans h.value
  changed := k.changed.trans h.changed
  untold := h.untold.trans k.addsUntold

/-- The listeners have been told of the snapshot that the service is on. -/
structure Announced (target : String) (s r : Service κ) : Prop where
  value : r.current.value = target
  changed : r.current.changed = true
  told : ∃ new, r.journal = s.journal ++ new ∧ new.filterMap Entry.notified? = [r.current]

theorem Arrived.announced {target : String} (h : s.Arrived target r) (k : r.notify.Arming u) :
    s.Announced target u := by
  have hcurrent : u.current = r.current := k.current
  obtain ⟨before, hr, hbefore⟩ := h.untold
  obtain ⟨after, hu, hafter⟩ := k.entries.imp Entry.notified?_of_isWork
  refine ⟨hcurrent ▸ h.value, hcurrent ▸ h.changed, before ++ .notified r.current :: after, ?_, ?_⟩
  · rw [hu, notify, journal_log, hr]
    simp
  · have htold : (.notified r.current :: after).filterMap Entry.notified? =
        r.current :: after.filterMap Entry.notified? := rfl
    rw [List.filterMap_append, List.filterMap_eq_nil_iff.2 hbefore, htold,
      List.filterMap_eq_nil_iff.2 hafter, hcurrent]
    rfl

/-- A commit tells the listeners of the snapshot that comes of it. If it is cut short they may not have
been told yet. -/
theorem ends_commit_announced (target : String) (actions : List (Action κ)) (event : Event)
    (s : Service κ) :
    (s.commit target actions event).Ends (s.Announced target)
      (fun r => s.AddsUntold r ∨ s.Announced target r) := by
  have hleft : s.AddsUntold s.cancelDelayed := s.adds_withTimers _ rfl
  have hexit : (execute event (s.machine.exitOf s.current.value) s.cancelDelayed).Ends
      s.AddsUntold s.AddsUntold :=
    Outcome.ends_of_service (hleft.trans (stays_execute _ _ _).addsUntold)
  refine (hexit.imp (fun _ h => h) fun _ h => .inl h).andThen fun r hr => ?_
  have harrived : s.Arrived target (r.arrive target actions event) :=
    ⟨rfl, rfl, hr.trans ⟨_, r.journal_arrive target actions event, by simp [Entry.notified?]⟩⟩
  have hentry : (execute event (r.machine.entryOf target) (r.arrive target actions event)).Ends
      (s.Arrived target) (s.Arrived target) :=
    Outcome.ends_of_service (harrived.stays (stays_execute _ _ _))
  refine (hentry.imp (fun _ h => h) fun _ h => .inl h.untold).andThen fun u hu => ?_
  have hown : (execute event u.current.actions u).Ends (s.Arrived target) (s.Arrived target) :=
    Outcome.ends_of_service (hu.stays (stays_execute _ _ _))
  refine (hown.imp (fun _ h => h) fun _ h => .inl h.untold).andThen fun v hv => ?_
  have harmed : v.notify.armDelayed.Ends (s.Announced target) (s.Announced target) :=
    Outcome.ends_of_service (hv.announced (arming_armEach _ _ _ v.notify))
  exact harmed.imp (fun _ h => h) fun _ h => .inr h

/-- A snapshot of another state differs. -/
theorem Announced.flagged [BEq κ] {target : String} (h : s.Announced target r)
    (hother : target ≠ s.current.value) : s.Flagged False r := by
  have hdiffers : s.current.Differs r.current := .inl (h.value ▸ hother)
  constructor
  · simp [h.changed, hdiffers]
  · simpa [h.changed] using h.told

/-- An eventless transition may lead back. -/
theorem Announced.flagged_or [BEq κ] {target : String} (h : s.Announced target r) :
    s.Flagged (target = s.current.value) r := by
  have hdiffers : s.current.Differs r.current ∨ target = s.current.value := by
    by_cases hback : target = s.current.value
    · exact .inr hback
    · exact .inl (.inl (h.value ▸ hback))
  constructor
  · simp [h.changed, hdiffers]
  · simpa [h.changed] using h.told

theorem history_weigh (ts : List (Eventless κ)) (s : Service κ) : (s.weigh ts).history = s.history :=
  weigh_keeps (p := fun r => r.history = s.history) rfl fun _ _ _ _ _ hr => hr

end

variable [BEq κ]

/-- A snapshot takes the place of the current one: in a transition that an event brings, a delayed one
or an eventless one, or with an event that stays in the state. It is told whether the transition
lingers, that is, leaves the state by an eventless transition only to come back to it. -/
inductive Replaces (s : Service κ) : Prop → Outcome κ → Prop
  | event {event : Event} {next : Snapshot κ} (hevent : s.Brought event)
      (hnext : s.machine.transition? (.snapshot s.current) event = some next)
      (hchanged : next.changed = true) :
      Replaces s False (s.commit next.value next.actions event)
  | delayed {t : Timer} {index : Nat} {d : Delayed κ} (htook : s.Took t)
      (htask : t.task = .delayed s.current.value index)
      (hd : (s.machine.afterOf s.current.value)[index]? = some d)
      (hother : d.target ≠ s.current.value) (hdecl : s.machine.declares d.target = true) :
      Replaces s False (s.commit d.target d.actions (.after d.delay s.current.value))
  | eventless {t : Eventless κ}
      (hfirst : (s.machine.alwaysOf s.current.value).find? (·.enabled s.current) = some t)
      (hdecl : s.machine.declares t.target = true) :
      Replaces s (t.target = s.current.value)
        (s.commit t.target t.actions (.always s.current.value))
  | staying {event : Event} {next : Snapshot κ} (hevent : s.Brought event)
      (hnext : s.machine.transition? (.snapshot s.current) event = some next)
      (hsame : next.changed = false) : Replaces s False (s.stay next event)

theorem ends_stay_flagged {s : Service κ} {event : Event} {next : Snapshot κ}
    (hvalue : next.value = s.current.value) (hsame : next.changed = false) :
    (s.stay next event).Ends (s.Flagged False) s.AddsUntold := by
  have htaken : s.AddsUntold (s.withCurrent next) := adds_of_journal_eq _ rfl
  have hrun := Outcome.ends_of_service (stays_execute event next.actions (s.withCurrent next))
  refine (hrun.imp (fun _ h => h) fun _ h => htaken.trans h.addsUntold).andThen fun r hr => ?_
  have hstate : r.current.value = s.current.value := hr.value.trans hvalue
  have hflag : r.current.changed = false := hr.changed.trans hsame
  obtain ⟨new, hnew, huntold⟩ := htaken.trans hr.addsUntold
  have hnone := List.filterMap_eq_nil_iff.2 huntold
  split
  case isTrue heq =>
    constructor
    · simp [hflag, Snapshot.Differs, hstate, bne, heq]
    · exact ⟨new, hnew, by simp [hflag, hnone]⟩
  case isFalse hne =>
    constructor
    · have hcontext : (r.current.context != s.current.context) = true := by simp [bne, hne]
      exact iff_of_true rfl (.inl (.inr hcontext))
    · refine ⟨new ++ [.notified { r.current with changed := true }], ?_, ?_⟩
      · rw [notify, journal_log, ← List.append_assoc, ← hnew]
        rfl
      · rw [List.filterMap_append, hnone]
        rfl

/-- The flag of every snapshot that takes the place of another tells the truth, but for a transition
that lingers. -/
theorem Replaces.ends {s : Service κ} {lingering : Prop} {o : Outcome κ}
    (h : s.Replaces lingering o) :
    o.Ends (s.Flagged lingering) (fun r => s.AddsUntold r ∨ s.Flagged lingering r) := by
  cases h with
  | event _ hnext hchanged =>
    obtain ⟨_, _, hflag⟩ := Machine.handles_of_transition? hnext
    have hother := hflag.1 hchanged
    exact (s.ends_commit_announced _ _ _).imp (fun _ h => h.flagged hother)
      fun _ h => h.imp_right fun h => h.flagged hother
  | delayed _ _ _ hother =>
    exact (s.ends_commit_announced _ _ _).imp (fun _ h => h.flagged hother)
      fun _ h => h.imp_right fun h => h.flagged hother
  | eventless =>
    exact (s.ends_commit_announced _ _ _).imp (fun _ h => h.flagged_or)
      fun _ h => h.imp_right fun h => h.flagged_or
  | staying _ hnext hsame =>
    have hvalue := Machine.value_of_transition? hnext hsame
    exact (ends_stay_flagged hvalue hsame).imp (fun _ h => h) fun _ h => .inl h

/-- A part of what a service does: a snapshot takes the place of the current one, the entry actions of
the current state run at a start, or the snapshot stays and nobody is told of anything. -/
inductive Phase : Service κ → Service κ → Prop
  | replaced {s : Service κ} {lingering : Prop} {o : Outcome κ} (h : s.Replaces lingering o) :
      Phase s o.service
  | entered {s : Service κ} :
      Phase s (execute .start (s.machine.entryOf s.current.value) s).service
  | plain {s r : Service κ} (hsteps : Steps s r) (hcurrent : r.current = s.current)
      (hhistory : r.history = s.history) (huntold : s.AddsUntold r) : Phase s r

/-- Any number of parts. -/
abbrev Phases : Service κ → Service κ → Prop := Relation.ReflTransGen Phase

theorem Phases.andThen {s : Service κ} {o : Outcome κ} {next : Service κ → Outcome κ}
    (h : Phases s o.service) (k : ∀ r : Service κ, Phases r (next r).service) :
    Phases s (o.andThen next).service :=
  Outcome.service_andThen (R := Phases) Relation.ReflTransGen.trans h fun r _ => k r

theorem Replaces.phases {s : Service κ} {lingering : Prop} {o : Outcome κ}
    (h : s.Replaces lingering o) : Phases s o.service := .single (.replaced h)

/-- A step in which the snapshot stays and nobody is told of anything. -/
theorem Step.phases {s r : Service κ} (h : Step s r) (hcurrent : r.current = s.current)
    (hhistory : r.history = s.history) (huntold : s.AddsUntold r) : Phases s r :=
  .single (.plain (.single h) hcurrent hhistory huntold)

theorem phases_log {s : Service κ} {e : Entry κ} (h : Step s (s.log e)) (he : e.notified? = none) :
    Phases s (s.log e) := Step.phases h rfl rfl (adds_log s he)

theorem phases_armDelayed (s : Service κ) : Phases s s.armDelayed.service := by
  have harming := arming_armEach s.current.value 0 (s.machine.afterOf s.current.value) s
  exact .single (.plain (moves_armDelayed s).steps harming.current harming.history
    (harming.entries.imp Entry.notified?_of_isWork))

theorem phases_weigh (s : Service κ) :
    Phases s (s.weigh (s.machine.alwaysOf s.current.value)) :=
  .single (.plain (moves_weigh s).steps (current_weigh _ s) (history_weigh _ s)
    (adds_weigh (fun _ _ => rfl) _ s))

theorem phases_settle (visited : List String) (s : Service κ) :
    Phases s (settle visited s).service := by
  have hcommit {s : Service κ} {t : Eventless κ}
      (hfind : (s.machine.alwaysOf s.current.value).find? (·.enabled s.current) = some t)
      (hdecl : s.machine.declares t.target = true) :
      Phases s ((s.weigh (s.machine.alwaysOf s.current.value)).commit t.target t.actions
        (.always s.current.value)).service := by
    let weighed := s.weigh (s.machine.alwaysOf s.current.value)
    have hmachine : weighed.machine = s.machine := (follows_weigh _ s).machine
    have hcurrent : weighed.current = s.current := current_weigh _ s
    rw [← hmachine, ← hcurrent] at hfind
    rw [← hmachine] at hdecl
    have hreplaces := Replaces.phases (.eventless hfind hdecl)
    rw [hcurrent] at hreplaces
    exact (phases_weigh s).trans hreplaces
  fun_induction settle visited s with
  | case1 => exact .refl
  | case2 => exact .refl
  | case3 visited s => exact phases_weigh s
  | case4 visited s _ _ ts t hfind hdecl r hstep =>
    have hr := hcommit hfind hdecl
    rw [hstep] at hr
    exact hr
  | case5 visited s _ _ ts t hfind hdecl r hstep _ _ ih =>
    have hr := hcommit hfind hdecl
    rw [hstep] at hr
    exact hr.trans ih
  | case6 visited s _ _ ts t hfind hnot =>
    have hlost := (moves_astray (List.mem_of_find?_eq_some hfind) (by simpa using hnot)).steps
    have huntold : s.AddsUntold (s.weigh ts) := adds_weigh (fun _ _ => rfl) _ s
    exact .single (.plain hlost (current_weigh _ s) (history_weigh _ s)
      (huntold.trans (adds_log _ rfl)))

theorem phases_deliver {event : Event} {s : Service κ} (hevent : s.Brought event) :
    Phases s (s.deliver event).service := by
  have hmachine : (s.consider event).machine = s.machine :=
    (Moves.follows (s.moves_consider event)).machine
  have hconsidered : Phases s (s.consider event) :=
    .single (.plain (s.moves_consider event).steps (s.current_consider event)
      (s.history_consider event) (s.adds_consider (fun _ => rfl) (fun _ _ _ => rfl) event))
  have hbrought : (s.consider event).Brought event :=
    hevent.adds (s.adds_consider (fun _ => rfl) (fun _ _ _ => rfl) event)
  rw [deliver_eq]
  cases hnext : s.machine.transition? (.snapshot s.current) event with
  | none => exact hconsidered
  | some next =>
    rw [← hmachine, ← s.current_consider event] at hnext
    refine hconsidered.trans ?_
    dsimp only
    unfold proceed
    split
    · rename_i hchanged
      exact (Replaces.phases (.event hbrought hnext hchanged)).andThen fun r => phases_settle [] r
    · rename_i hsame
      exact Replaces.phases (.staying hbrought hnext (Bool.eq_false_iff.2 hsame))

theorem phases_fire {t : Timer} {s : Service κ} (htook : s.Took t) :
    Phases s (s.fire t).service := by
  have hupshot := upshot_fire t s
  generalize s.fire t = o at hupshot ⊢
  cases hupshot with
  | delivered htask => exact phases_deliver (htook.brought htask)
  | unheard => exact .refl
  | lapsed htask hwhy => exact phases_log (.lapsed htask hwhy) rfl
  | left htask hd hother hdecl =>
    exact (Replaces.phases (.delayed htook htask hd hother hdecl)).andThen
      fun r => phases_settle [] r

theorem phases_start (s : Service κ) : Phases s s.start.service := by
  unfold start
  split
  · exact .refl
  · rename_i hs
    have hbegun : Phases s ({ s with status := .running }.log (.started s.now)) :=
      Step.phases (.begun (not_isRunning_iff.1 hs)) rfl rfl
        ⟨[_], journal_log _ _, by simp [Entry.notified?]⟩
    refine hbegun.trans (Phases.andThen (.single .entered) fun r => ?_)
    exact (phases_armDelayed r).andThen fun u => phases_settle [] u

theorem phases_sendAfter (event : Event) (delay : Duration) (s : Service κ) :
    Phases s (s.sendAfter event delay).service := by
  unfold sendAfter
  split
  · rename_i hs
    have hstays := s.stays_defer event delay
    have hcurrent : (s.defer event delay).service.current = s.current := by
      unfold defer
      split <;> rfl
    exact Step.phases (.deferred (isRunning_iff.1 hs)) hcurrent hstays.history hstays.addsUntold
  · exact .refl

/-- Everything that a service does from a moment on is done in such parts. -/
theorem endures_phases (s : Service κ) : Endures (κ := κ) (Phases s) where
  start r h := h.trans r.phases_start
  stop r h := by
    unfold stop
    split
    · rename_i hr
      exact h.trans (Step.phases (.halted (isRunning_iff.1 hr)) rfl rfl
        ⟨[_], journal_log _ _, by simp [Entry.notified?]⟩)
    · exact h
  send event r h := by
    unfold send
    split
    · rename_i hr
      have haccepted : Phases r (r.log (.accepted event)) :=
        phases_log (.accepted (isRunning_iff.1 hr)) rfl
      exact (h.trans haccepted).trans
        (phases_deliver ⟨r.journal, _, [], r.journal_log _, rfl, by simp⟩)
    · exact h
  sendAfter event delay r h := h.trans (r.phases_sendAfter event delay)
  fire limit horizon t timers r h hpop := by
    have htaken : Phases r (r.taken t timers) :=
      Step.phases (.taken hpop) rfl rfl (r.adds_withTimers _ rfl)
    exact (h.trans htaken).trans (phases_fire ⟨r.journal, r.journal_withTimers timers _⟩)
  clocked now r h := h.trans (Step.phases .clocked rfl rfl (adds_of_journal_eq _ rfl))
  woke deadline r h := h.trans (phases_log .woke rfl)
  drained r h := h.trans (phases_log .drained rfl)

/-- The flag of a snapshot tells the truth, up to one kind of transition. Whatever a service does in a
session, its snapshot is only ever another one where a transition was committed, for an event, after a
delay or without either, or where an event stayed in the state, or in the entry actions of a start; and
nowhere else is anything told. Whenever a snapshot has so come in place of another, and the actions
have run, it counts as changed exactly if its state is another one than when its transition began, or
its context is not equal to what it was then by the test of the context's type, and exactly then the
listeners were told of it, once; except that an eventless transition that leads back to the state it
leaves counts as a change in any case. Where a commit is cut short, nobody was told anything, or it was
as in one that completes. -/
theorem flagged_attend (machine : Machine κ) (options : Options κ) (channel : Nat)
    (calls : List (Call κ)) (b : Switchboard κ) :
    Phases (create machine options channel)
      (attend calls (create machine options channel) b).1.service ∧
    ∀ (s : Service κ) (lingering : Prop) (o : Outcome κ), s.Replaces lingering o →
      o.Ends (s.Flagged lingering) (fun r => s.AddsUntold r ∨ s.Flagged lingering r) := by
  rw [attend_fst]
  exact ⟨(endures_phases _).run _ .refl, fun s lingering o h => h.ends⟩

end Service

/-- A machine whose only state leads back to itself without any event. -/
def treadmill : Machine Nat where
  states := .ofList [("run", { always := [⟨"run", [], none⟩] })]

namespace Service

/-- On the treadmill a start ends on a snapshot that counts as changed, and that the listeners are told
of, though neither its state nor its context is another one than when the only transition began. -/
theorem start_treadmill : ∃ s r : Service Nat,
    Steps (create treadmill {} 0) s ∧ s.status = .running ∧
    s.Replaces ("run" = s.current.value) (.completed r) ∧
    (create treadmill {} 0).start = .completed r ∧ .notified r.current ∈ r.journal ∧
    r.current.changed = true ∧ ¬ s.current.Differs r.current := by
  let s : Service Nat :=
    ({ create treadmill {} 0 with status := .running } : Service Nat).log (.started .zero)
  obtain ⟨r, hcommit, htold, hchanged, hvalue, hcontext⟩ : ∃ r,
      s.commit "run" [] (.always "run") = .completed r ∧ .notified r.current ∈ r.journal ∧
      r.current.changed = true ∧ r.current.value = "run" ∧ r.current.context = none :=
    ⟨_, rfl, List.mem_reverse.2 List.mem_cons_self, rfl, rfl, rfl⟩
  have hreplaces : s.Replaces ("run" = s.current.value) (s.commit "run" [] (.always "run")) :=
    .eventless (t := ⟨"run", [], none⟩) rfl rfl
  rw [hcommit] at hreplaces
  have hstart : (create treadmill {} 0).start = settle [] s := rfl
  have hround : roundThen (settle ["run"]) s =
      (s.commit "run" [] (.always "run")).andThen (settle ["run"]) := rfl
  refine ⟨s, r, .single (.begun rfl), rfl, hreplaces, ?_, htold, hchanged, ?_⟩
  · rw [hstart, settle_eq, if_neg (by decide), if_neg (by decide)]
    show roundThen (settle ["run"]) s = _
    rw [hround, hcommit, Outcome.completed_andThen, settle_eq]
    -- The pass has left the state before, so it is over.
    split
    · rfl
    · exact if_pos (by simp [hvalue])
  · rintro (hother | hother)
    · exact hother (hvalue.trans rfl)
    · rw [hcontext] at hother
      cases hother

end Service
end TimedMachine
