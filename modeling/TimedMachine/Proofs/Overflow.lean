import TimedMachine.Proofs.Writing

/-!
Why a part of an operation is cut short. The clock has no instant that lies a delay ahead; the delay
is one that the machine declares for a delayed transition, or one that an action has just asked for
(`CutShort`). Nothing else ends a part early.
-/
namespace TimedMachine.Service

variable {κ : Type}

/-- The clock has no instant that lies a delay ahead, and the delay is declared in the machine or was
asked for by a call among the given entries. -/
inductive Overdrawn (s : Service κ) (es : List (Entry κ)) : Prop
  | declared {state : String} {d : Delayed κ} (hd : d ∈ s.machine.afterOf state)
      (hnone : s.now.add? d.delay = none)
  | asked {run : ActionFn κ} {context : Option κ} {event later : Event} {delay : Duration}
      (hin : .called run context event ∈ es)
      (heffect : (run context event).effect = .send later delay)
      (hnone : s.now.add? delay = none)

theorem Overdrawn.append {s : Service κ} {es : List (Entry κ)} (h : s.Overdrawn es)
    (before : List (Entry κ)) : s.Overdrawn (before ++ es) := by
  cases h with
  | declared hd hnone => exact .declared hd hnone
  | asked hin heffect hnone => exact .asked (List.mem_append_right before hin) heffect hnone

/-- A part that began at the first service was cut short at the second. -/
def CutShort (s r : Service κ) : Prop := ∃ new, r.journal = s.journal ++ new ∧ r.Overdrawn new

/-- What was done before the part that is cut short may be counted to it. -/
theorem Adds.cutShort {p : Entry κ → Prop} {s r u : Service κ} (h : Adds p s r)
    (hcut : r.CutShort u) : s.CutShort u := by
  obtain ⟨new, hr, _⟩ := h
  obtain ⟨more, hu, hover⟩ := hcut
  exact ⟨new ++ more, by rw [hu, hr, List.append_assoc], hover.append new⟩

/-- A part that begins at a service completes, or the clock has no instant for a delay. -/
abbrev EndsInTime (s : Service κ) (o : Outcome κ) : Prop :=
  o.Ends (Adds (fun _ => True) s) s.CutShort

theorem Adds.endsInTime {p : Entry κ → Prop} {s r : Service κ} {o : Outcome κ} (h : Adds p s r)
    (ho : r.EndsInTime o) : s.EndsInTime o :=
  ho.imp (fun _ hdone => (h.imp fun _ _ => trivial).trans hdone) (fun _ hcut => h.cutShort hcut)

theorem endsInTime_andThen {s : Service κ} {o : Outcome κ} {next : Service κ → Outcome κ}
    (h : s.EndsInTime o) (k : ∀ r : Service κ, r.EndsInTime (next r)) :
    s.EndsInTime (o.andThen next) :=
  Outcome.Ends.andThen h fun r hr => hr.endsInTime (k r)

theorem add?_eq_none_of_arm? {q : TimerQueue} {delay : Duration} {task : Task}
    (h : q.arm? delay task = none) : q.now.add? delay = none := by
  unfold TimerQueue.arm? at h
  split at h
  · rename_i hnone
    simpa [TimerQueue.timer?] using hnone
  · cases h

theorem endsInTime_arm (task : Task) {s : Service κ} {state : String} {d : Delayed κ}
    (hd : d ∈ s.machine.afterOf state) : s.EndsInTime (s.arm d.delay task) := by
  unfold arm
  split
  · rename_i hnone
    exact ⟨[], by simp, .declared hd (add?_eq_none_of_arm? hnone)⟩
  · exact s.adds_withTimers _ trivial

theorem endsInTime_armEach {state : String} (index : Nat) {ts : List (Delayed κ)} {s : Service κ}
    (hts : ∀ d ∈ ts, d ∈ s.machine.afterOf state) : s.EndsInTime (armEach state index ts s) := by
  induction ts generalizing index s with
  | nil => exact .refl _ s
  | cons d rest ih =>
    have harming := Outcome.ends_of_service (s.arming_arm d.delay state index)
    have harm := endsInTime_arm (.delayed state index) (hts d List.mem_cons_self)
    rw [armEach]
    refine (harming.and harm).imp (fun _ h => h.1) (fun _ h => h.2) |>.andThen fun r hr => ?_
    have hrest : ∀ e ∈ rest, e ∈ r.machine.afterOf state := by
      rw [hr.machine]
      exact fun e he => hts e (List.mem_cons_of_mem _ he)
    exact hr.entries.endsInTime (ih (index + 1) hrest)

theorem endsInTime_armDelayed (s : Service κ) : s.EndsInTime s.armDelayed :=
  endsInTime_armEach 0 fun _ hd => hd

/-- A delivery that is asked for clears the one that waits, whether or not it can be armed. -/
theorem ends_defer (event : Event) (delay : Duration) (s : Service κ) :
    (s.defer event delay).Ends (Adds (fun _ => True) s)
      (fun r => Adds (fun _ => True) s r ∧ r.now.add? delay = none) := by
  have hcleared : Adds (fun _ => True) s s.cancelDeferred := s.adds_withTimers _ trivial
  unfold defer
  split
  · rename_i hnone
    unfold TimerQueue.defer? at hnone
    exact ⟨hcleared, add?_eq_none_of_arm? (Option.map_eq_none_iff.1 hnone)⟩
  · exact hcleared.trans (adds_withTimers _ _ trivial)

theorem endsInTime_perform (run : ActionFn κ) (event : Event) (s : Service κ) :
    s.EndsInTime (s.perform run event) := by
  have hcalled : Adds (fun _ => True) s (s.log (.called run s.current.context event)) :=
    adds_log s trivial
  unfold perform
  dsimp only
  split
  · exact hcalled
  · exact hcalled.trans ((stays_assign _ _).entries.imp fun _ _ => trivial)
  · rename_i later delay heffect
    refine (ends_defer later delay _).imp (fun _ h => hcalled.trans h) ?_
    rintro r ⟨⟨new, hr, _⟩, hnone⟩
    refine ⟨.called run s.current.context event :: new, ?_, .asked List.mem_cons_self heffect hnone⟩
    rw [hr, journal_log, List.append_assoc]
    rfl

theorem endsInTime_execute (event : Event) (actions : List (Action κ)) (s : Service κ) :
    s.EndsInTime (execute event actions s) := by
  induction actions generalizing s with
  | nil => exact .refl _ s
  | cons action rest ih =>
    rw [execute]
    split
    · have hskipped : Adds (fun _ => True) s (s.log (.unresolved (action.name?.getD ""))) :=
        adds_log s trivial
      exact hskipped.endsInTime (ih _)
    · exact endsInTime_andThen (s.endsInTime_perform _ event) ih

/-- A commit is cut short only by the delay of a delayed transition, or of a delivery that one of its
actions asks for. -/
theorem endsInTime_commit (target : String) (actions : List (Action κ)) (event : Event)
    (s : Service κ) : s.EndsInTime (s.commit target actions event) := by
  have hleft : Adds (fun _ => True) s s.cancelDelayed := s.adds_withTimers _ trivial
  have harrived (r : Service κ) : Adds (fun _ => True) r (r.arrive target actions event) :=
    ⟨_, r.journal_arrive target actions event, fun _ _ => trivial⟩
  have hnotified (r : Service κ) : Adds (fun _ => True) r r.notify := adds_log r trivial
  refine endsInTime_andThen (hleft.endsInTime (endsInTime_execute _ _ _)) fun r => ?_
  refine endsInTime_andThen ((harrived r).endsInTime (endsInTime_execute _ _ _)) fun u => ?_
  refine endsInTime_andThen (endsInTime_execute _ _ _) fun v => ?_
  exact (hnotified v).endsInTime (endsInTime_armDelayed _)

end TimedMachine.Service
