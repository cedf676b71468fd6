import TimedMachine.Proofs.Act
import TimedMachine.Proofs.Draining
import TimedMachine.Proofs.Overflow

/-!
Why a whole operation is cut short. What is true of a commit (`endsInTime_commit`) is true of all that
is made of commits: of a pass of eventless transitions, of a delivery, of a timer that fires, of a
drain, and of a timed run whose limit the clock can reach. Each of them completes, or the clock has no
instant for a delay that the machine declares or an action asks for.
-/
namespace TimedMachine.Service

variable {κ : Type}

theorem endsInTime_settle (visited : List String) (s : Service κ) :
    s.EndsInTime (settle visited s) := by
  have hweighed (ts : List (Eventless κ)) (s : Service κ) : Adds (fun _ => True) s (s.weigh ts) :=
    adds_weigh (fun _ _ => trivial) ts s
  have hcommit (ts : List (Eventless κ)) (t : Eventless κ) (s : Service κ) : s.EndsInTime
      ((s.weigh ts).commit t.target t.actions (.always s.current.value)) :=
    (hweighed ts s).endsInTime (endsInTime_commit _ _ _ _)
  fun_induction settle visited s with
  | case1 => exact .refl _ _
  | case2 => exact .refl _ _
  | case3 visited s => exact hweighed _ s
  | case4 visited s _ _ ts t _ _ r hstep =>
    have hcut := hcommit ts t s
    rwa [hstep] at hcut
  | case5 visited s _ _ ts t _ _ r hstep _ _ ih =>
    have hdone := hcommit ts t s
    rw [hstep] at hdone
    exact Adds.endsInTime hdone ih
  | case6 visited s _ _ ts =>
    exact (hweighed ts s).trans (adds_log _ trivial)

variable [BEq κ]

theorem endsInTime_stay (next : Snapshot κ) (event : Event) (s : Service κ) :
    s.EndsInTime (s.stay next event) := by
  have htaken : Adds (fun _ => True) s (s.withCurrent next) := adds_of_journal_eq _ rfl
  refine endsInTime_andThen (htaken.endsInTime (endsInTime_execute _ _ _)) fun r => ?_
  split
  · exact .refl _ r
  · exact adds_log (r.withCurrent _) trivial

theorem endsInTime_proceed (next : Snapshot κ) (event : Event) (s : Service κ) :
    s.EndsInTime (s.proceed next event) := by
  unfold proceed
  split
  · exact endsInTime_andThen (endsInTime_commit _ _ _ s) (endsInTime_settle [])
  · exact s.endsInTime_stay next event

theorem endsInTime_deliver (event : Event) (s : Service κ) : s.EndsInTime (s.deliver event) := by
  have hcleared : Adds (fun _ => True) s s.cancelDeferred := s.adds_withTimers _ trivial
  unfold deliver
  refine hcleared.endsInTime ?_
  dsimp only
  split
  · exact .refl _ _
  · rename_i c _
    have hjudged : Adds (fun _ => True) s.cancelDeferred (s.cancelDeferred.judge c event) :=
      adds_judge (fun _ _ _ => trivial) c event _
    split
    · exact hjudged.endsInTime (endsInTime_proceed _ _ _)
    · exact hjudged

theorem endsInTime_fire (t : Timer) (s : Service κ) : s.EndsInTime (s.fire t) := by
  have hupshot := upshot_fire t s
  generalize s.fire t = o at hupshot ⊢
  cases hupshot with
  | delivered => exact s.endsInTime_deliver _
  | unheard => exact .refl _ s
  | lapsed => exact adds_log s trivial
  | left => exact endsInTime_andThen (endsInTime_commit _ _ _ s) (endsInTime_settle [])

variable {limit : Duration} {horizon : Nat}

theorem Drains.endsInTime {s : Service κ} {ts : List Timer} {o : Outcome κ}
    (h : Drains limit horizon s ts o) : s.EndsInTime o := by
  have hturn (s : Service κ) (t : Timer) (timers : TimerQueue) :
      s.EndsInTime ((s.taken t timers).fire t) := by
    have htaken : Adds (fun _ => True) s (s.taken t timers) := s.adds_withTimers timers trivial
    exact htaken.endsInTime (endsInTime_fire t _)
  induction h with
  | idle => exact .refl _ _
  | @cut s r t timers _ hfire => exact hfire ▸ hturn s t timers
  | @turn s r t timers ts o _ hfire _ ih =>
    have hdone := hturn s t timers
    rw [hfire] at hdone
    exact Adds.endsInTime hdone ih

/-- An advance through a window that the clock can reach the end of. -/
theorem endsInTime_advance {time : Duration} {s : Service κ} (hlimit : s.now.add? time = some limit) :
    s.EndsInTime (s.advance time) := by
  obtain ⟨ts, hts⟩ := drains_drain limit s (Nat.le_refl s.timers.nextId)
  rw [advance_eq_of_drains hlimit hts]
  exact endsInTime_andThen hts.endsInTime fun r => adds_of_journal_eq _ rfl

end TimedMachine.Service
