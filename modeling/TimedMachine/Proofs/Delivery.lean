import TimedMachine.Proofs.Handling
import TimedMachine.Proofs.Notification
import TimedMachine.Proofs.Standing

/-!
The beginning of every delivery. The deferred event is cleared and the guard is asked, if there is one
to be asked; nothing else is touched before it is known where the event leads (`deliver_eq`).
-/
namespace TimedMachine

variable {κ : Type}

/-- The timer under the key that the queue knows of is the deferred event. -/
theorem TimerQueue.Slot.filter_known {q : TimerQueue} (h : q.Slot) :
    q.pending.filter (fun t => q.deferred = some t.key) = q.sends := by
  refine List.filter_congr fun t ht => ?_
  rw [Bool.eq_iff_iff, decide_eq_true_iff, h.known, Bool.not_eq_true']
  constructor
  · rintro ⟨u, hu, hkey, htask⟩
    rwa [← eq_of_key_eq hu ht hkey]
  · exact fun htask => ⟨t, ht, rfl, htask⟩

/-- The next snapshot is one of the target of the handler, and carries its actions. -/
theorem Machine.handles_of_transition? {m : Machine κ} {current next : Snapshot κ} {event : Event}
    (h : m.transition? (.snapshot current) event = some next) :
    (∃ guard, m.Handles current.value event.kind next.value next.actions guard) ∧
      next.context = current.context ∧ (next.changed = true ↔ next.value ≠ current.value) := by
  obtain ⟨_, c, href, hc, _, rfl⟩ := transition?_eq_some_iff.1 h
  cases href
  obtain ⟨_, _, guard, hhandles, _, rfl⟩ := candidate?_iff.1 hc
  exact ⟨⟨guard, hhandles⟩, rfl, decide_eq_true_iff⟩

/-- A snapshot that does not count as changed is one of the same state. -/
theorem Machine.value_of_transition? {m : Machine κ} {current next : Snapshot κ} {event : Event}
    (h : m.transition? (.snapshot current) event = some next) (hsame : next.changed = false) :
    next.value = current.value := by
  obtain ⟨_, _, hchanged⟩ := handles_of_transition? h
  exact not_not.1 (mt hchanged.2 (Bool.eq_false_iff.1 hsame))

namespace Service

/-- The service once it is known where an event leads. -/
def consider (event : Event) (s : Service κ) : Service κ :=
  match s.machine.candidate? s.current event with
  | none => s.cancelDeferred
  | some c => s.cancelDeferred.judge c event

/-- What is written of the guard: that it was asked, if there was one to be asked. -/
def Queried (event : Event) (s : Service κ) (es : List (Entry κ)) : Prop :=
  (∃ guard, s.machine.Asks (.snapshot s.current) event s.current guard ∧
    es = [.judged guard s.current event]) ∨
  (∀ guard, ¬ s.machine.Asks (.snapshot s.current) event s.current guard) ∧ es = []

/-- What has come of finding out where an event leads. -/
structure Considers (event : Event) (s r : Service κ) : Prop extends s.Follows r where
  current : r.current = s.current
  history : r.history = s.history
  timers_eq : r.timers = s.timers.cancelDeferred
  entries : ∃ asked, r.journal = s.journal ++ .cancelled s.timers.sends :: asked ∧ s.Queried event asked

variable {event : Event} {s : Service κ}

theorem Queried.eq_judged {es : List (Entry κ)} (h : s.Queried event es) {e : Entry κ} (he : e ∈ es) :
    ∃ guard, e = .judged guard s.current event := by
  obtain ⟨guard, _, rfl⟩ | ⟨_, rfl⟩ := h
  · exact ⟨guard, List.mem_singleton.1 he⟩
  · cases he

/-- The guard is asked of the candidate. -/
theorem asks_iff_of_candidate? {c : Candidate κ}
    (hc : s.machine.candidate? s.current event = some c) (guard : Guard κ) :
    s.machine.Asks (.snapshot s.current) event s.current guard ↔ c.guard = some guard := by
  rw [Machine.asks_iff]
  constructor
  · rintro ⟨_, c', hc', hguard⟩
    obtain rfl := Option.some.inj (hc.symm.trans hc')
    exact hguard
  · exact fun hguard => ⟨.snapshot, c, hc, hguard⟩

theorem considers_consider (event : Event) (hs : s.timers.Slot) :
    s.Considers event (s.consider event) := by
  have hcleared : s.cancelDeferred.journal = s.journal ++ [.cancelled s.timers.sends] := by
    rw [cancelDeferred, journal_withTimers, hs.filter_known]
  have hunasked (hnone : ∀ guard, ¬ s.machine.Asks (.snapshot s.current) event s.current guard) :
      s.Considers event s.cancelDeferred :=
    ⟨s.follows_cancelDeferred, rfl, rfl, rfl, [], hcleared, .inr ⟨hnone, rfl⟩⟩
  unfold consider
  cases hc : s.machine.candidate? s.current event with
  | none =>
    refine hunasked fun guard hasks => ?_
    obtain ⟨_, c, hc', _⟩ := Machine.asks_iff.1 hasks
    rw [hc] at hc'
    cases hc'
  | some c =>
    have hasks := asks_iff_of_candidate? hc
    dsimp only [judge]
    cases hguard : c.guard with
    | none =>
      refine hunasked fun guard hasked => ?_
      have := (hasks guard).1 hasked
      rw [hguard] at this
      cases this
    | some guard =>
      refine ⟨s.follows_cancelDeferred.trans (follows_log _ _), rfl, rfl, rfl,
        [.judged guard s.current event], ?_, .inl ⟨guard, (hasks guard).2 hguard, rfl⟩⟩
      rw [journal_log, hcleared, List.append_assoc]
      rfl

theorem moves_consider (event : Event) (s : Service κ) : Moves s (s.consider event) := by
  have hcleared : Moves s s.cancelDeferred := .single .cleared
  unfold consider
  cases hc : s.machine.candidate? s.current event with
  | none => exact hcleared
  | some c => exact hcleared.trans (moves_judge (s := s.cancelDeferred) hc)

theorem current_consider (event : Event) (s : Service κ) :
    (s.consider event).current = s.current := by
  unfold consider
  split
  · rfl
  · exact current_judge _ _ _

theorem history_consider (event : Event) (s : Service κ) :
    (s.consider event).history = s.history := by
  unfold consider
  split
  · rfl
  · unfold judge
    split <;> rfl

theorem adds_consider {p : Entry κ → Prop} (hcancelled : ∀ timers, p (.cancelled timers))
    (hjudged : ∀ guard snapshot event, p (.judged guard snapshot event)) (event : Event)
    (s : Service κ) : Adds p s (s.consider event) := by
  have hcleared : Adds p s s.cancelDeferred := s.adds_withTimers _ (hcancelled _)
  unfold consider
  split
  · exact hcleared
  · exact hcleared.trans (adds_judge hjudged _ event _)

/-- A delivery finds out where the event leads, and goes there. -/
theorem deliver_eq [BEq κ] (event : Event) (s : Service κ) :
    s.deliver event =
      match s.machine.transition? (.snapshot s.current) event with
      | none => .completed (s.consider event)
      | some next => (s.consider event).proceed next event := by
  have hcleared : s.cancelDeferred.machine.candidate? s.cancelDeferred.current event =
      s.machine.candidate? s.current event := rfl
  unfold deliver consider
  simp only [hcleared]
  cases hc : s.machine.candidate? s.current event with
  | none =>
    have hnone : s.machine.resolve (.snapshot s.current) event = {} :=
      Machine.resolve_of_candidate?_eq_none fun _ href => Option.some.inj href ▸ hc
    rw [Machine.transition?, hnone]
  | some c =>
    have hverdict : c.verdict s.cancelDeferred.current event = c.verdict s.current event := rfl
    rw [Machine.transition?, Machine.resolve_of_candidate? rfl hc]
    dsimp only
    rw [hverdict]
    by_cases hholds : (c.verdict s.current event).holds = true
    · rw [if_pos hholds, if_pos hholds]
    · rw [if_neg hholds, if_neg hholds]

end Service
end TimedMachine
