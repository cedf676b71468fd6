import TimedMachine.Proofs.Calm
import TimedMachine.Proofs.Intact
import TimedMachine.Proofs.Timekeeping

/-!
How far the clock goes. Advances and timed runs move it by their times and nothing else moves it, so it
shows the sum of the times of all that were completed, and on the way through one of them it is never
past the end of that one. Whatever needs a deadline adds one delay to the clock. So if all the times and
one delay more do not exceed the longest time there is, no sum of times is ever missing
(`budget_attend`).
-/
namespace TimedMachine

variable {κ : Type}

namespace Duration

def longest : Duration := ⟨18446744073709551616 * 1000000000 - 1, by decide⟩

/-- A sum that does not exist is longer than the longest time. -/
theorem longest_lt_of_add?_eq_none {a b : Duration} (h : a.add? b = none) :
    longest.nanos < a.nanos + b.nanos := by
  unfold add? ofNanos? at h
  split at h
  · cases h
  · simp only [longest]
    omega

theorem exists_add? {a b : Duration} (h : a.nanos + b.nanos ≤ longest.nanos) :
    ∃ c, a.add? b = some c := by
  cases hsum : a.add? b with
  | none => exact absurd (longest_lt_of_add?_eq_none hsum) (Nat.not_lt_of_le h)
  | some c => exact ⟨c, rfl⟩

end Duration

namespace Service

/-- A function that the entry tells the call of is that of an action that the machine mentions. -/
def CallsMentioned (m : Machine κ) (o : Options κ) (e : Entry κ) : Prop :=
  ∀ c, e.calling? = some c → ∃ action, m.Mentions action ∧ o.resolve action = some c.run

theorem callsMentioned_of_calling? {m : Machine κ} {o : Options κ} {e : Entry κ}
    (he : e.calling? = none) : CallsMentioned m o e := fun c hc => by simp [he] at hc

theorem adds_defer_calling? (event : Event) (delay : Duration) (s : Service κ) :
    Adds (fun e => e.calling? = none) s (s.defer event delay).service := by
  have hcleared : Adds (fun e => e.calling? = none) s s.cancelDeferred := s.adds_withTimers _ rfl
  unfold defer
  split
  · exact hcleared
  · exact hcleared.trans (adds_withTimers _ _ rfl)

theorem adds_perform_calling? (run : ActionFn κ) (event : Event) (s : Service κ) :
    Adds (fun e => ∀ c, e.calling? = some c → c.run = run) s (s.perform run event).service := by
  have hcalled : Adds (fun e => ∀ c, e.calling? = some c → c.run = run) s
      (s.log (.called run s.current.context event)) :=
    adds_log s fun c hc => by rw [← Option.some.inj hc]
  unfold perform
  dsimp only
  split
  · exact hcalled
  · exact hcalled.trans (adds_of_journal_eq _ (journal_assign _ _))
  · exact hcalled.trans ((adds_defer_calling? _ _ _).imp fun e he c hc => by simp [he] at hc)

theorem Move.callsMentioned {s r : Service κ} (h : Move s r) :
    Adds (CallsMentioned s.machine s.options) s r := by
  have hother (s : Service κ) {e : Entry κ} (he : e.calling? = none) :
      Adds (CallsMentioned s.machine s.options) s (s.log e) :=
    adds_log s (callsMentioned_of_calling? he)
  cases h with
  | judged => exact hother s rfl
  | weighed => exact hother s rfl
  | skipped => exact hother s rfl
  | called haction hrun =>
    exact (s.adds_perform_calling? _ _).imp fun e he c hc => ⟨_, haction, (he c hc) ▸ hrun⟩
  | astray => exact hother s rfl
  | notified => exact hother s rfl
  | left => exact s.adds_withTimers _ (callsMentioned_of_calling? rfl)
  | cleared => exact s.adds_withTimers _ (callsMentioned_of_calling? rfl)
  | armed =>
    unfold arm
    split
    · exact .refl _ s
    · exact s.adds_withTimers _ (callsMentioned_of_calling? rfl)
  | arrived =>
    refine ⟨[_], s.journal_arrive _ _ _, fun e he => ?_⟩
    obtain rfl := List.mem_singleton.1 he
    exact callsMentioned_of_calling? rfl
  | revisited => exact adds_of_journal_eq _ rfl
  | changed => exact adds_of_journal_eq _ rfl

theorem Step.callsMentioned {s r : Service κ} (h : Step s r) :
    Adds (CallsMentioned s.machine s.options) s r := by
  have hother (s : Service κ) {e : Entry κ} (he : e.calling? = none) :
      Adds (CallsMentioned s.machine s.options) s (s.log e) :=
    adds_log s (callsMentioned_of_calling? he)
  cases h with
  | own hmove => exact hmove.callsMentioned
  | begun =>
    refine ⟨[_], journal_log _ _, fun e he => ?_⟩
    obtain rfl := List.mem_singleton.1 he
    exact callsMentioned_of_calling? rfl
  | halted =>
    refine ⟨[_], journal_log _ _, fun e he => ?_⟩
    obtain rfl := List.mem_singleton.1 he
    exact callsMentioned_of_calling? rfl
  | accepted => exact hother s rfl
  | deferred => exact (s.adds_defer_calling? _ _).imp fun e he => callsMentioned_of_calling? he
  | lapsed => exact hother s rfl
  | taken => exact s.adds_withTimers _ (callsMentioned_of_calling? rfl)
  | clocked => exact adds_of_journal_eq _ rfl
  | woke => exact hother s rfl
  | drained => exact hother s rfl

/-- A service calls only what its machine mentions. -/
theorem Steps.callsMentioned {s r : Service κ} (h : Steps s r) :
    Adds (CallsMentioned s.machine s.options) s r := by
  induction h with
  | refl => exact .refl _ s
  | tail hsteps hstep ih =>
    have hcontinues := Steps.continues hsteps
    have hlast := hstep.callsMentioned
    rw [hcontinues.machine, hcontinues.options] at hlast
    exact ih.trans hlast

/-- The delays that occur while operations are applied are of at most so many nanoseconds: those of the
delayed transitions, those of the deliveries that the caller asks for, and those of the deliveries that
the calls among the entries ask for. -/
structure DelaysWithin (bound : Nat) (m : Machine κ) (ops : List Operation) (es : List (Entry κ)) :
    Prop where
  declared : ∀ state, ∀ d ∈ m.afterOf state, d.delay.nanos ≤ bound
  given : ∀ event delay, .sendAfter event delay ∈ ops → delay.nanos ≤ bound
  asked : ∀ c ∈ callings es, ∀ later delay, c.request? = some (later, delay) → delay.nanos ≤ bound

/-- The time that operations take, in nanoseconds. -/
def elapsed (ops : List Operation) : Nat := (ops.map Operation.nanos).sum

@[simp] theorem elapsed_nil : elapsed [] = 0 := rfl

@[simp] theorem elapsed_cons (op : Operation) (ops : List Operation) :
    elapsed (op :: ops) = op.nanos + elapsed ops := by simp [elapsed]

/-- Why an operation is cut short. -/
inductive Exceeds (op : Operation) (s r : Service κ) : Prop
  | window {time : Duration} (htime : op.time? = some time) (hnone : s.now.add? time = none)
  | given {event : Event} {delay : Duration} (hop : op = .sendAfter event delay)
      (hnone : r.now.add? delay = none)
  | within (hcut : s.CutShort r)

theorem endsInTime_start (s : Service κ) : s.EndsInTime s.start := by
  unfold start
  split
  · exact .refl _ s
  · let begun : Service κ := { s with status := .running }.log (.started s.now)
    have hbegun : Adds (fun _ => True) s begun := ⟨[_], journal_log _ _, fun _ _ => trivial⟩
    refine hbegun.endsInTime (endsInTime_andThen (endsInTime_execute _ _ _) fun r => ?_)
    exact endsInTime_andThen r.endsInTime_armDelayed (endsInTime_settle [])

/-- An operation is not cut short if the clock can go by its time and by one delay more. -/
theorem not_exceeds {bound : Nat} {op : Operation} {s r : Service κ}
    (hsteps : Steps s r) (hdelays : DelaysWithin bound s.machine [op] r.journal)
    (hnow : r.now.nanos ≤ s.now.nanos + op.nanos)
    (hbudget : s.now.nanos + op.nanos + bound ≤ Duration.longest.nanos) : ¬ Exceeds op s r := by
  intro hexceeds
  cases hexceeds with
  | @window time htime hnone =>
    have hlong := Duration.longest_lt_of_add?_eq_none hnone
    have hop : op.nanos = time.nanos := by simp [Operation.nanos, htime]
    omega
  | @given event delay hop hnone =>
    have hlong := Duration.longest_lt_of_add?_eq_none hnone
    have hdelay := hdelays.given event delay (by simp [hop])
    omega
  | within hcut =>
    obtain ⟨new, hr, hoverdrawn⟩ := hcut
    cases hoverdrawn with
    | @declared state d hd hnone =>
      have hlong := Duration.longest_lt_of_add?_eq_none hnone
      rw [(Steps.continues hsteps).machine] at hd
      have hdelay := hdelays.declared state d hd
      omega
    | @asked run context event later delay hin heffect hnone =>
      have hlong := Duration.longest_lt_of_add?_eq_none hnone
      have hcalled : (⟨run, context, event⟩ : Calling κ) ∈ callings r.journal :=
        List.mem_filterMap.2 ⟨_, by rw [hr]; exact List.mem_append_right _ hin, rfl⟩
      have hdelay := hdelays.asked _ hcalled later delay (by simp [Calling.request?, heffect])
      omega

variable [BEq κ]

theorem endsInTime_send (event : Event) (s : Service κ) : s.EndsInTime (s.send event) := by
  unfold send
  split
  · have haccepted : Adds (fun _ => True) s (s.log (.accepted event)) := adds_log s trivial
    exact haccepted.endsInTime (endsInTime_deliver event _)
  · exact .refl _ s

/-- While no time passes the clock stands still. -/
theorem now_apply_of_time? {op : Operation} (hop : op.time? = none) (s : Service κ) :
    (s.apply op).service.now = s.now := (leads_apply hop s).1.now

/-- An operation has moved the clock by its time, or was cut short and has moved it by no more. -/
def Paced (op : Operation) (s : Service κ) (o : Outcome κ) : Prop :=
  o.Ends (fun r => r.now.nanos = s.now.nanos + op.nanos)
    (fun r => r.now.nanos ≤ s.now.nanos + op.nanos ∧ Exceeds op s r)

theorem ends_now_of_time? {op : Operation} (hop : op.time? = none) (s : Service κ) :
    (s.apply op).Ends (fun r => r.now = s.now) (fun r => r.now = s.now) :=
  Outcome.ends_of_service (now_apply_of_time? hop s)

theorem paced_of_endsInTime {op : Operation} {s : Service κ} (hop : op.time? = none)
    (hends : s.EndsInTime (s.apply op)) : Paced op s (s.apply op) := by
  have hzero : op.nanos = 0 := by simp [Operation.nanos, hop]
  refine ((ends_now_of_time? hop s).and hends).imp ?_ ?_
  · rintro r ⟨hnow, _⟩
    rw [hnow, hzero, Nat.add_zero]
  · rintro r ⟨hnow, hcut⟩
    exact ⟨by rw [hnow, hzero, Nat.add_zero], .within hcut⟩

theorem paced_sendAfter (event : Event) (delay : Duration) (s : Service κ) :
    Paced (.sendAfter event delay) s (s.apply (.sendAfter event delay)) := by
  have hdefer := ends_defer event delay s
  have hnow := @ends_now_of_time? κ _ (.sendAfter event delay) rfl s
  by_cases hrunning : s.isRunning = true
  · have happly : s.apply (.sendAfter event delay) = s.defer event delay := if_pos hrunning
    rw [happly] at hnow ⊢
    refine (hnow.and hdefer).imp ?_ ?_
    · rintro r ⟨hnow, _⟩
      rw [hnow]
      rfl
    · rintro r ⟨hnow, _, hnone⟩
      exact ⟨Nat.le_of_eq (by rw [hnow]; rfl), .given rfl hnone⟩
  · have happly : s.apply (.sendAfter event delay) = .completed s := if_neg hrunning
    rw [happly]
    rfl

theorem paced_advance (time : Duration) (s : Service κ) :
    Paced (.advance time) s (s.advance time) := by
  cases hlimit : s.now.add? time with
  | none =>
    have hcut : s.advance time = .overflowed s := by simp [advance, hlimit]
    rw [hcut]
    exact ⟨Nat.le_add_right _ _, .window rfl hlimit⟩
  | some limit =>
    have hsum := Duration.add?_eq_some hlimit
    have hle : (s.advance time).service.now.nanos ≤ limit.nanos := now_advance_le hlimit
    have hends := endsInTime_advance hlimit
    rw [hsum] at hle
    cases hrun : s.advance time with
    | completed r =>
      obtain ⟨_, _, _, hlimit', _, _, _, _, hclock⟩ := drains_of_advance hrun
      obtain rfl := Option.some.inj (hlimit.symm.trans hlimit')
      exact (congrArg Duration.nanos hclock).trans hsum
    | overflowed r =>
      rw [hrun] at hle hends
      exact ⟨hle, .within hends⟩

theorem paced_runFor (time : Duration) (s : Service κ) :
    Paced (.runFor time) s (s.runFor time) := by
  cases hlimit : s.now.add? time with
  | none =>
    have hcut : s.runFor time = .overflowed s := by simp [runFor, hlimit]
    rw [hcut]
    exact ⟨Nat.le_add_right _ _, .window rfl hlimit⟩
  | some limit =>
    have hsum := Duration.add?_eq_some hlimit
    obtain ⟨o, hsleeps, hrun⟩ := exists_sleeps_runFor hlimit
    rw [hrun]
    refine (hsleeps.ends_at_limit (by rw [Duration.le_def]; omega)).imp ?_ ?_
    · exact fun r hr => (congrArg Duration.nanos hr).trans hsum
    · exact fun r hr => ⟨hsum ▸ hr.1, .within hr.2⟩

theorem paced_apply (op : Operation) (s : Service κ) : Paced op s (s.apply op) := by
  cases op with
  | start => exact paced_of_endsInTime rfl s.endsInTime_start
  | stop => exact paced_of_endsInTime rfl (Steps.continues (s.steps_apply .stop)).journal
  | send event => exact paced_of_endsInTime rfl (s.endsInTime_send event)
  | sendAfter event delay => exact paced_sendAfter event delay s
  | advance time => exact paced_advance time s
  | runFor time => exact paced_runFor time s

/-- After operations that were all completed the clock shows the sum of their times. -/
theorem now_of_run {ops : List Operation} {s r : Service κ} (h : run ops s = .completed r) :
    r.now.nanos = s.now.nanos + elapsed ops := by
  induction ops generalizing s with
  | nil =>
    obtain rfl := Outcome.completed.inj h
    rfl
  | cons op rest ih =>
    have hclock := paced_apply op s
    rw [run] at h
    cases ho : s.apply op with
    | overflowed u => simp [ho] at h
    | completed u =>
      rw [ho] at h hclock
      rw [ih h, show u.now.nanos = _ from hclock, elapsed_cons, Nat.add_assoc]

/-- On the way through an operation the clock has not yet gone further than by its time. -/
theorem now_le_of_apply {op : Operation} {s u : Service κ} (h : Steps u (s.apply op).service) :
    u.now.nanos ≤ s.now.nanos + op.nanos := by
  have hends := Outcome.Ends.imp (paced_apply op s) (fun r hr => Nat.le_of_eq hr) (fun r hr => hr.1)
  exact Nat.le_trans (Steps.now_le h) hends.service

/-- Operations are all completed if the clock can go by their times and by one delay more. -/
theorem run_completes {bound : Nat} {ops : List Operation} {s : Service κ}
    (hdelays : DelaysWithin bound s.machine ops (run ops s).service.journal)
    (hbudget : s.now.nanos + elapsed ops + bound ≤ Duration.longest.nanos) :
    ∃ r, run ops s = .completed r := by
  induction ops generalizing s with
  | nil => exact ⟨s, rfl⟩
  | cons op rest ih =>
    have hclock := paced_apply op s
    have hsteps := s.steps_apply op
    rw [run] at hdelays ⊢
    rw [elapsed_cons] at hbudget
    cases ho : s.apply op with
    | overflowed r =>
      rw [ho] at hclock hsteps hdelays
      have hown : DelaysWithin bound s.machine [op] r.journal := by
        refine ⟨hdelays.declared, fun event delay hop => ?_, hdelays.asked⟩
        exact hdelays.given event delay (by simp [List.mem_singleton.1 hop])
      exact absurd hclock.2 (not_exceeds hsteps hown hclock.1 (by omega))
    | completed r =>
      rw [ho] at hclock hsteps hdelays
      rw [Outcome.completed_andThen] at hdelays ⊢
      have hmachine : r.machine = s.machine := (Steps.continues hsteps).machine
      have hrest : DelaysWithin bound r.machine rest (run rest r).service.journal := by
        rw [hmachine]
        refine ⟨hdelays.declared, fun event delay hop => ?_, hdelays.asked⟩
        exact hdelays.given event delay (List.mem_cons_of_mem _ hop)
      exact ih hrest (by rw [show r.now.nanos = _ from hclock]; omega)

/-- After every session that completes the clock shows the sum of the times of its advances and timed
runs, and on the way through one more operation it has never gone further than by the time of that one.
So if no delay that occurs in a session is longer than a bound, and the sum of all its times and the
bound is not longer than the longest time, the session completes; and at every moment of it the clock
has an instant for each delay within the bound. -/
theorem budget_attend (machine : Machine κ) (options : Options κ) (channel : Nat)
    (calls : List (Call κ)) (b : Switchboard κ) :
    (∀ s, (attend calls (create machine options channel) b).1 = .completed s →
      s.now.nanos = elapsed (calls.filterMap Call.operation?) ∧
      ∀ op,
        (∀ u, Steps s u → Steps u (s.apply op).service →
          s.now.nanos ≤ u.now.nanos ∧ u.now.nanos ≤ s.now.nanos + op.nanos) ∧
        (∀ e ∈ (s.apply op).service.since s, ∀ reading, e.reading? = some reading →
          reading.nanos ≤ s.now.nanos + op.nanos)) ∧
    (∀ bound,
      DelaysWithin bound machine (calls.filterMap Call.operation?)
        (attend calls (create machine options channel) b).1.service.journal →
      elapsed (calls.filterMap Call.operation?) + bound ≤ Duration.longest.nanos →
      ∃ r, (attend calls (create machine options channel) b).1 = .completed r ∧
        ∀ u, Steps (create machine options channel) u → Steps u r →
          ∀ delay : Duration, delay.nanos ≤ bound → ∃ deadline, u.now.add? delay = some deadline) := by
  have hzero : (create machine options channel).now.nanos = 0 := rfl
  rw [attend_fst]
  refine ⟨fun s hs => ⟨?_, fun op => ⟨fun u hu hrest => ?_, ?_⟩⟩, fun bound hdelays hbudget => ?_⟩
  · rw [now_of_run hs, hzero, Nat.zero_add]
  · exact ⟨Steps.now_le hu, now_le_of_apply hrest⟩
  · obtain ⟨told, htold, hreadings⟩ := Steps.tells (s.steps_apply op)
    rw [since_eq_of_append htold]
    intro e he reading hin
    exact Nat.le_trans (hreadings e he reading hin) (now_le_of_apply .refl)
  · have hsum : (create machine options channel).now.nanos +
        elapsed (calls.filterMap Call.operation?) + bound ≤ Duration.longest.nanos := by
      rw [hzero]
      omega
    obtain ⟨r, hr⟩ := run_completes hdelays hsum
    refine ⟨r, hr, fun u _ hu delay hdelay => Duration.exists_add? ?_⟩
    have hnow : u.now.nanos ≤ r.now.nanos := Steps.now_le hu
    have hclock := now_of_run hr
    omega

/-- A bound on the delays that a machine declares, on those that its actions may ask for and on those
that the caller gives is one on all that occur in a session. -/
theorem delaysWithin_attend {bound : Nat} {machine : Machine κ} {options : Options κ} {channel : Nat}
    {calls : List (Call κ)} {b : Switchboard κ}
    (hdeclared : ∀ state, ∀ d ∈ machine.afterOf state, d.delay.nanos ≤ bound)
    (hgiven : ∀ event delay, .sendAfter event delay ∈ calls.filterMap Call.operation? →
      delay.nanos ≤ bound)
    (hasked : ∀ action, machine.Mentions action → ∀ run, options.resolve action = some run →
      ∀ context event later delay, (run context event).effect = .send later delay →
        delay.nanos ≤ bound) :
    DelaysWithin bound machine (calls.filterMap Call.operation?)
      (attend calls (create machine options channel) b).1.service.journal := by
  refine ⟨hdeclared, hgiven, fun c hc later delay hrequest => ?_⟩
  have hsteps := steps_run (calls.filterMap Call.operation?) (create machine options channel)
  rw [← attend_fst (b := b)] at hsteps
  obtain ⟨new, hnew, hcalls⟩ := Steps.callsMentioned hsteps
  have hnone : (create machine options channel).journal = [] := rfl
  rw [hnew, hnone, List.nil_append] at hc
  obtain ⟨e, he, hcalling⟩ := List.mem_filterMap.1 hc
  obtain ⟨action, haction, hrun⟩ := hcalls e he c hcalling
  refine hasked action haction c.run hrun c.context c.event later delay ?_
  unfold Calling.request? at hrequest
  split at hrequest
  · rename_i heffect
    obtain ⟨rfl, rfl⟩ := Prod.mk.inj (Option.some.inj hrequest)
    exact heffect
  · cases hrequest

/-- A crossing that is on until three seconds before the longest time. -/
def longCrossing : List (Call Nat) :=
  [.operate .start, .operate (.sendAfter ⟨"bell", .null⟩ ⟨2750000000, by decide⟩),
    .operate (.advance ⟨18446744073709551612999999992, by decide⟩),
    .operate (.runFor ⟨7, by decide⟩)]

theorem budget_attend_crossing :
    ∃ r, ((create crossing crossingOptions 0).attend longCrossing {}).1 = .completed r ∧
      r.now.nanos + 3000000000 = Duration.longest.nanos := by
  have hdeclared (state : String) : ∀ d ∈ crossing.afterOf state, d.delay.nanos ≤ 3000000000 := by
    intro d hd
    rcases after_crossing hd with h | h <;> simp [h]
  have hgiven (event : Event) (delay : Duration)
      (hop : .sendAfter event delay ∈ longCrossing.filterMap Call.operation?) :
      delay.nanos ≤ 3000000000 := by
    simp [longCrossing, Call.operation?] at hop
    simp [hop.2]
  have hasked (action : Action Nat) (haction : crossing.Mentions action) (run : ActionFn Nat)
      (hrun : crossingOptions.resolve action = some run) (context : Option Nat) (event later : Event)
      (delay : Duration) (heffect : (run context event).effect = .send later delay) :
      delay.nanos ≤ 3000000000 := by
    rcases mentions_crossing haction with rfl | rfl
    · obtain rfl := Option.some.inj hrun
      obtain ⟨-, rfl⟩ := Effect.send.inj heffect
      decide
    · obtain rfl := Option.some.inj hrun
      cases heffect
  have hbudget := budget_attend crossing crossingOptions 0 longCrossing {}
  have hdelays : DelaysWithin 3000000000 crossing (longCrossing.filterMap Call.operation?)
      ((create crossing crossingOptions 0).attend longCrossing {}).1.service.journal :=
    delaysWithin_attend hdeclared hgiven hasked
  obtain ⟨r, hr, _⟩ := hbudget.2 3000000000 hdelays (by decide)
  refine ⟨r, hr, ?_⟩
  rw [(hbudget.1 r hr).1]
  decide

end Service
end TimedMachine
