import TimedMachine.Proofs.Act
import TimedMachine.Proofs.Answers
import TimedMachine.Proofs.Calm
import TimedMachine.Proofs.Validation

/-!
Runs of validated machines. When validation finds nothing, nothing is ever passed over in a run: no
name of an action, no target, no delayed transition that fires (`sound_attend`). The entries of the
journal are sound because every move comes from a place that validation visits; that the firings are
answered rests on the agreement of the timer queue with the snapshot.
-/
namespace TimedMachine

variable {κ : Type}

/-- The entry tells of nothing that was passed over, and of declared states only. -/
def Entry.Sound (m : Machine κ) : Entry κ → Prop
  | .judged _ snapshot _ => m.declares snapshot.value = true
  | .weighed _ snapshot => m.declares snapshot.value = true
  | .notified snapshot => m.declares snapshot.value = true
  | .committed r => m.declares r.source = true ∧ m.declares r.target = true
  | .unresolved _ => False
  | .astray _ _ => False
  | .lapsed _ why => why ≠ .undeclared
  | _ => True

namespace Service

/-- The service runs the machine, is in a declared state and has passed nothing over. -/
structure Sound (m : Machine κ) (o : Options κ) (s : Service κ) : Prop where
  machine : s.machine = m
  options : s.options = o
  current : m.declares s.current.value = true
  entries : ∀ e ∈ s.journal, e.Sound m

variable {m : Machine κ} {o : Options κ} {s r : Service κ}

theorem Sound.adds (h : s.Sound m o) (hmachine : r.machine = s.machine)
    (hoptions : r.options = s.options) (hcurrent : m.declares r.current.value = true)
    (hadds : Adds (Entry.Sound m) s r) : r.Sound m o :=
  ⟨hmachine.trans h.machine, hoptions.trans h.options, hcurrent, hadds.forall_mem h.entries⟩

theorem Sound.log (h : s.Sound m o) {e : Entry κ} (he : e.Sound m) : (s.log e).Sound m o :=
  h.adds rfl rfl h.current (adds_log s he)

theorem Sound.withTimers (h : s.Sound m o) (timers : TimerQueue) {e : Entry κ} (he : e.Sound m) :
    (s.withTimers timers e).Sound m o :=
  h.adds rfl rfl h.current (adds_log s he)

theorem Sound.withCurrent (h : s.Sound m o) {next : Snapshot κ}
    (hnext : m.declares next.value = true) : (s.withCurrent next).Sound m o :=
  h.adds rfl rfl hnext (adds_of_journal_eq _ rfl)

theorem Sound.defer (h : s.Sound m o) (event : Event) (delay : Duration) :
    (s.defer event delay).service.Sound m o := by
  have hcleared : s.cancelDeferred.Sound m o := h.withTimers _ trivial
  unfold Service.defer
  split
  · exact hcleared
  · exact hcleared.withTimers _ trivial

theorem Sound.perform (h : s.Sound m o) (run : ActionFn κ) (event : Event) :
    (s.perform run event).service.Sound m o := by
  have hcalled : (s.log (.called run s.current.context event)).Sound m o := h.log trivial
  unfold Service.perform
  dsimp only
  split
  · exact hcalled
  · unfold assign
    split
    · exact hcalled
    · exact hcalled.withCurrent h.current
  · exact hcalled.defer _ _

/-- Every move of a validated machine comes from a place that validation has visited. -/
theorem Move.sound (hmove : Move s r) (hm : m.Sound o) (h : s.Sound m o) : r.Sound m o := by
  obtain ⟨rfl, rfl⟩ : s.machine = m ∧ s.options = o := ⟨h.machine, h.options⟩
  cases hmove with
  | judged => exact h.log h.current
  | weighed => exact h.log h.current
  | skipped haction hnone =>
    obtain ⟨run, hrun⟩ := hm.actions _ haction
    rw [hnone] at hrun
    cases hrun
  | called => exact h.perform _ _
  | astray ht hnot =>
    rw [hm.always _ _ ht] at hnot
    cases hnot
  | notified => exact h.log h.current
  | left => exact h.withTimers _ trivial
  | cleared => exact h.withTimers _ trivial
  | armed =>
    unfold arm
    split
    · exact h
    · exact h.withTimers _ trivial
  | arrived hoffer =>
    refine h.adds rfl rfl hoffer.declares ⟨[_], s.journal_arrive _ _ _, ?_⟩
    simpa [Entry.Sound] using ⟨h.current, hoffer.declares⟩
  | revisited => exact h.withCurrent h.current
  | changed => exact h.withCurrent h.current

theorem Step.sound (hstep : Step s r) (hm : m.Sound o) (h : s.Sound m o) : r.Sound m o := by
  cases hstep with
  | own hmove => exact hmove.sound hm h
  | begun => exact h.adds rfl rfl h.current ⟨[_], journal_log _ _, by simp [Entry.Sound]⟩
  | halted => exact h.adds rfl rfl h.current ⟨[_], journal_log _ _, by simp [Entry.Sound]⟩
  | accepted => exact h.log trivial
  | deferred => exact h.defer _ _
  | @lapsed t state index why _ hwhy =>
    refine h.log ?_
    rintro rfl
    obtain ⟨d, hd, hnot⟩ := hwhy
    rw [h.machine] at hd hnot
    rw [hm.after state d (List.mem_of_getElem? hd)] at hnot
    cases hnot
  | taken => exact h.withTimers _ trivial
  | clocked => exact h.adds rfl rfl h.current (adds_of_journal_eq _ rfl)
  | woke => exact h.log trivial
  | drained => exact h.log trivial

theorem Steps.sound (hsteps : Steps s r) (hm : m.Sound o) (h : s.Sound m o) : r.Sound m o := by
  induction hsteps with
  | refl => exact h
  | tail _ hstep ih => exact hstep.sound hm ih

theorem sound_create (hm : m.Sound o) (channel : Nat) : (create m o channel).Sound m o :=
  ⟨rfl, rfl, hm.initial, by simp [create, journal, Journal.toList]⟩

variable [BEq κ]

/-- Validation is sound for whole sessions. If it finds nothing, every handler leads to the target it
names. In every session from creation the current state is declared, no name of an action goes
unresolved and no eventless transition goes astray; a delayed transition that fires lapses only if it
names its own state, and is committed to its target otherwise, unless the session is cut short in
the exit actions. -/
theorem sound_attend (h : m.issuesWith o = []) (channel : Nat) (calls : List (Call κ))
    (b : Switchboard κ) :
    m.HonoursTargets ∧
    ((create m o channel).attend calls b).1.Ends
      (fun s => s.Sound m o ∧ s.Answers m ∧ ∀ t why, .lapsed t why ∈ s.journal → why = .ownState)
      (fun s => s.Sound m o ∧ s.AnswersUntilCut m ∧
        ∀ t why, .lapsed t why ∈ s.journal → why = .ownState) := by
  have hm := Machine.sound_of_issuesWith h
  refine ⟨hm.honoursTargets, ?_⟩
  rw [attend_fst]
  have hcreated : ∀ e ∈ (create m o channel).journal, False := by
    simp [create, journal, Journal.toList]
  have hsound := (steps_run (calls.filterMap Call.operation?) _).sound hm (sound_create hm channel)
  have hpunctual := lasts_punctual.ends_run (calls.filterMap Call.operation?)
    (inStep_create m o channel) (fun e he => (hcreated e he).elim)
  have hanswers := (lasts_answers hm).ends_run (calls.filterMap Call.operation?)
    (inStep_create m o channel)
    ⟨rfl, firingsMeet_of_quiet fun e he => (hcreated e he).elim⟩
  have hlapsed {s : Service κ} (hs : s.Sound m o) (hp : s.Punctual) {t : Timer} {why : Lapse}
      (hin : .lapsed t why ∈ s.journal) : why = .ownState := by
    have hnot : why ≠ .undeclared := hs.entries _ hin
    exact (hp _ hin t why rfl).resolve_right hnot
  refine ((Outcome.ends_of_service hsound).and (hpunctual.and hanswers)).imp ?_ ?_
  · rintro s ⟨hs, hp, ha⟩
    exact ⟨hs, ha.2.2, fun _ _ => hlapsed hs hp.2⟩
  · rintro s ⟨hs, hp, ha⟩
    exact ⟨hs, ha, fun _ _ => hlapsed hs hp⟩

/-- Validation finds nothing at the crossing, whatever is done there. -/
theorem sound_attend_crossing :
    crossing.issuesWith crossingOptions = [] ∧
    ((create crossing crossingOptions 0).attend
        [.operate .start, .operate (.advance ⟨4000000000, by decide⟩)] {}).1.Ends
      (fun s => s.Sound crossing crossingOptions ∧ s.Answers crossing ∧
        ∀ t why, .lapsed t why ∈ s.journal → why = .ownState)
      (fun s => s.Sound crossing crossingOptions ∧ s.AnswersUntilCut crossing ∧
        ∀ t why, .lapsed t why ∈ s.journal → why = .ownState) :=
  ⟨by decide, (sound_attend (by decide) 0 _ {}).2⟩

end Service
end TimedMachine
