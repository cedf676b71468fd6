import TimedMachine.Proofs.Outcome
import TimedMachine.Proofs.Pending

/-!
What running actions leaves alone. They may change the context and the deferred event, and nothing
else: not the state, not what came with the transition into it, not the history, and none of the
delayed transitions that wait (`Stays`).
-/
namespace TimedMachine

variable {κ : Type}

/-- What is written while actions run or timers are armed. -/
def Entry.isWork : Entry κ → Bool
  | .called .. | .unresolved _ | .armed _ | .cancelled _ => true
  | _ => false

namespace Service

structure Stays (s r : Service κ) : Prop extends s.Follows r where
  value : r.current.value = s.current.value
  actions : r.current.actions = s.current.actions
  changed : r.current.changed = s.current.changed
  history : r.history = s.history
  entries : Adds (fun e => e.isWork = true) s r
  slot : s.timers.Slot → r.timers.Slot
  delayed : s.timers.Slot → r.timers.delayed = s.timers.delayed

theorem Stays.refl (s : Service κ) : s.Stays s :=
  ⟨.refl s, rfl, rfl, rfl, rfl, .refl _ s, id, fun _ => rfl⟩

theorem Stays.trans {s r u : Service κ} (h : s.Stays r) (k : r.Stays u) : s.Stays u where
  toFollows := h.toFollows.trans k.toFollows
  value := k.value.trans h.value
  actions := k.actions.trans h.actions
  changed := k.changed.trans h.changed
  history := k.history.trans h.history
  entries := h.entries.trans k.entries
  slot hs := k.slot (h.slot hs)
  delayed hs := (k.delayed (h.slot hs)).trans (h.delayed hs)

theorem Stays.andThen {s : Service κ} {o : Outcome κ} {next : Service κ → Outcome κ}
    (h : s.Stays o.service) (k : ∀ r : Service κ, r.Stays (next r).service) :
    s.Stays (o.andThen next).service :=
  Outcome.service_andThen (R := Stays) Stays.trans h fun r _ => k r

theorem stays_log (s : Service κ) {e : Entry κ} (he : e.isWork = true) : s.Stays (s.log e) :=
  ⟨s.follows_log e, rfl, rfl, rfl, rfl, adds_log s he, id, fun _ => rfl⟩

theorem stays_cancelDeferred (s : Service κ) : s.Stays s.cancelDeferred where
  toFollows := s.follows_cancelDeferred
  value := rfl
  actions := rfl
  changed := rfl
  history := rfl
  entries := adds_log s rfl
  slot hs := hs.cancelDeferred
  delayed hs := hs.delayed_cancelDeferred

theorem stays_defer (event : Event) (delay : Duration) (s : Service κ) :
    s.Stays (s.defer event delay).service := by
  have hf := s.follows_defer event delay
  unfold defer at hf ⊢
  split
  · exact s.stays_cancelDeferred
  · rename_i t timers h
    simp only [h] at hf
    have hadds : Adds (fun e => e.isWork = true) s
        (s.cancelDeferred.withTimers timers (.armed t)) :=
      (s.stays_cancelDeferred.entries).trans (adds_log s.cancelDeferred rfl)
    exact ⟨hf, rfl, rfl, rfl, rfl, hadds, fun hs => TimerQueue.slot_of_defer? h hs,
      fun hs => TimerQueue.delayed_of_defer? h hs⟩

theorem stays_assign (update : κ → κ) (s : Service κ) : s.Stays (s.assign update) := by
  have hf := s.follows_assign update
  unfold assign at hf ⊢
  split
  · exact .refl s
  · rename_i h
    simp only [h] at hf
    exact ⟨hf, rfl, rfl, rfl, rfl, .refl _ s, id, fun _ => rfl⟩

theorem stays_perform (run : ActionFn κ) (event : Event) (s : Service κ) :
    s.Stays (s.perform run event).service := by
  have hcalled := s.stays_log (e := .called run s.current.context event) rfl
  unfold perform
  dsimp only
  split
  · exact hcalled
  · exact hcalled.trans (stays_assign _ _)
  · exact hcalled.trans (stays_defer _ _ _)

theorem stays_execute (event : Event) (actions : List (Action κ)) (s : Service κ) :
    s.Stays (execute event actions s).service := by
  induction actions generalizing s with
  | nil => exact .refl s
  | cons action rest ih =>
    rw [execute]
    split
    · exact (s.stays_log rfl).trans (ih _)
    · exact (s.stays_perform _ _).andThen ih

end Service
end TimedMachine
