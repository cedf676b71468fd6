import Mathlib.Data.List.Chain
import TimedMachine.Proofs.Firing
import TimedMachine.Proofs.Level
import TimedMachine.Proofs.Overflow
import TimedMachine.Proofs.Retention

/-!
The path of a service: the transitions that it has committed since it was created, in order. Each
starts where the one before it ended, and their clock readings never decrease (`TruePath`). The
history holds the last of them, as many as its limit allows, and the limit bears on nothing else: a
session goes the same way under any limit (`truePath_attend`).
-/
namespace TimedMachine

variable {κ : Type}

namespace Service

/-- The transitions committed so far, in order. -/
def path (s : Service κ) : List (Record Unit) := s.journal.filterMap Entry.record?

/-- The path leads from the initial state to the current one. -/
structure TruePath (s : Service κ) : Prop where
  begins : ∀ r ∈ s.path.head?, r.source = s.machine.initialValue
  joined : s.path.IsChain fun r u => u.source = r.target
  /-- Without any transition the state is still the initial one. -/
  ends : s.current.value = (s.path.getLast?.map Record.target).getD s.machine.initialValue
  ordered : s.path.Pairwise fun r u => r.clock ≤ u.clock
  past : ∀ r ∈ s.path, r.clock ≤ s.now

/-- What a change does to the path: nothing, the state being the same as before, or one transition is
added that leads from the state before to the state after. -/
inductive Extends (s r : Service κ) : Prop
  | still (hpath : r.path = s.path) (hvalue : r.current.value = s.current.value)
  | moved (record : Record Unit) (hpath : r.path = s.path ++ [record])
      (hsource : record.source = s.current.value) (htarget : record.target = r.current.value)
      (hclock : record.clock = s.now)

theorem extends_of_quiet {s r : Service κ} (hadds : Adds (fun e => e.record? = none) s r)
    (hvalue : r.current.value = s.current.value) : Extends s r :=
  .still (hadds.filterMap_eq fun _ h => h) hvalue

theorem extends_log (s : Service κ) {e : Entry κ} (he : e.record? = none) : Extends s (s.log e) :=
  extends_of_quiet (adds_log s he) rfl

theorem Stays.extends_of {s r : Service κ} (h : s.Stays r) : Extends s r :=
  extends_of_quiet (h.entries.imp Entry.record?_of_isWork) h.value

theorem Move.extends_of {s r : Service κ} (h : Move s r) : Extends s r := by
  cases h with
  | judged => exact s.extends_log rfl
  | weighed => exact s.extends_log rfl
  | skipped => exact s.extends_log rfl
  | called => exact (s.stays_perform _ _).extends_of
  | astray => exact s.extends_log rfl
  | notified => exact s.extends_log rfl
  | left => exact extends_of_quiet (s.adds_withTimers _ rfl) rfl
  | cleared => exact s.stays_cancelDeferred.extends_of
  | @armed index d =>
    have harming := s.arming_arm d.delay s.current.value index
    exact extends_of_quiet (harming.entries.imp Entry.record?_of_isWork)
      (congrArg Snapshot.value harming.current)
  | @arrived target actions event =>
    refine .moved (s.recordOf target event) ?_ rfl rfl rfl
    rw [path, s.journal_arrive, List.filterMap_append]
    rfl
  | revisited => exact extends_of_quiet (adds_of_journal_eq _ rfl) rfl
  | changed => exact extends_of_quiet (adds_of_journal_eq _ rfl) rfl

theorem Step.extends_of {s r : Service κ} (h : Step s r) : Extends s r := by
  cases h with
  | own hmove => exact hmove.extends_of
  | begun => exact extends_of_quiet ⟨[_], journal_log _ _, by simp [Entry.record?]⟩ rfl
  | halted => exact extends_of_quiet ⟨[_], journal_log _ _, by simp [Entry.record?]⟩ rfl
  | accepted => exact s.extends_log rfl
  | deferred => exact (s.stays_defer _ _).extends_of
  | lapsed => exact s.extends_log rfl
  | taken => exact extends_of_quiet (s.adds_withTimers _ rfl) rfl
  | clocked => exact extends_of_quiet (adds_of_journal_eq _ rfl) rfl
  | woke => exact s.extends_log rfl
  | drained => exact s.extends_log rfl

theorem TruePath.extends_of {s r : Service κ} (h : s.TruePath) (hextends : Extends s r)
    (hmachine : r.machine = s.machine) (hnow : s.now ≤ r.now) : r.TruePath := by
  cases hextends with
  | still hpath hvalue =>
    constructor
    case begins =>
      rw [hpath, hmachine]
      exact h.begins
    case joined =>
      rw [hpath]
      exact h.joined
    case ends =>
      rw [hpath, hmachine, hvalue]
      exact h.ends
    case ordered =>
      rw [hpath]
      exact h.ordered
    case past =>
      rw [hpath]
      exact fun u hu => Nat.le_trans (h.past u hu) hnow
  | moved record hpath hsource htarget hclock =>
    have hends := h.ends
    constructor
    case begins =>
      intro u hu
      rw [hmachine]
      rw [hpath, List.head?_append] at hu
      cases hhead : s.path.head? with
      | some first =>
        rw [hhead] at hu
        obtain rfl : first = u := by simpa using hu
        exact h.begins _ hhead
      | none =>
        rw [hhead] at hu
        obtain rfl : record = u := by simpa using hu
        rw [List.head?_eq_none_iff.1 hhead] at hends
        exact hsource.trans hends
    case joined =>
      rw [hpath]
      refine List.isChain_append.2 ⟨h.joined, .singleton _, fun u hu v hv => ?_⟩
      obtain rfl : record = v := by simpa using hv
      rw [Option.mem_def.1 hu] at hends
      exact hsource.trans hends
    case ends =>
      rw [hpath, List.getLast?_concat]
      exact htarget.symm
    case ordered =>
      rw [hpath]
      refine List.pairwise_append.2 ⟨h.ordered, List.pairwise_singleton _ _, fun u hu v hv => ?_⟩
      obtain rfl := List.mem_singleton.1 hv
      rw [hclock]
      exact h.past u hu
    case past =>
      intro u hu
      rw [hpath] at hu
      rcases List.mem_append.1 hu with hu | hu
      · exact Nat.le_trans (h.past u hu) hnow
      · obtain rfl := List.mem_singleton.1 hu
        rw [hclock]
        exact hnow

theorem Steps.truePath {s r : Service κ} (h : Steps s r) (hs : s.TruePath) : r.TruePath := by
  induction h with
  | refl => exact hs
  | tail _ hstep ih => exact ih.extends_of hstep.extends_of hstep.continues.machine hstep.now_le

theorem truePath_create (machine : Machine κ) (options : Options κ) (channel : Nat) :
    (create machine options channel).TruePath := by
  have hpath : (create machine options channel).path = [] := by
    rw [path, journal_create]
    rfl
  refine ⟨?_, ?_, ?_, ?_, ?_⟩
  all_goals simp [hpath]
  rfl

/-- What a service has recorded since it was created is what it has committed, up to the limit. -/
theorem Steps.records {machine : Machine κ} {options : Options κ} {channel : Nat} {r : Service κ}
    (h : Steps (create machine options channel) r) :
    r.history.records = r.path.drop (r.path.length - options.historyLimit) := by
  obtain ⟨new, hnew, hhistory⟩ := h.keeps
  rw [journal_create, List.nil_append] at hnew
  have hempty : (create machine options channel).history.records = [] := rfl
  rw [hhistory, History.records_foldl_push hempty, path, hnew]
  rfl

theorem Inscribes.path {target : String} {event : Event} {s r : Service κ}
    (h : Inscribes target event s r) : r.path = s.path ++ [s.recordOf target event] := by
  obtain ⟨leaving, rest, hr, hleaves, hrest⟩ := h
  have hleaving : leaving.filterMap Entry.record? = [] := List.filterMap_eq_nil_iff.2 hleaves.record?
  have hrest : rest.filterMap Entry.record? = [] := List.filterMap_eq_nil_iff.2 hrest
  simp [Service.path, hr, hleaving, hrest, Entry.record?]

/-- A commit adds its own record to the path. If the clock has no instant for a delay, it may not
have come to that. -/
theorem ends_commit_path (target : String) (actions : List (Action κ)) (event : Event)
    {s : Service κ} (hs : s.timers.Slot) :
    (s.commit target actions event).Ends
      (fun r => r.path = s.path ++ [s.recordOf target event])
      (fun r => s.CutShort r ∧ (r.path = s.path ∨ r.path = s.path ++ [s.recordOf target event])) := by
  have hprotocol := ends_commit_protocol target actions event hs
  refine ((endsInTime_commit target actions event s).and hprotocol).imp ?_ ?_
  · exact fun r h => (Protocol.inscribes h.2).path
  · rintro r ⟨hcut, hr⟩
    rcases ProtocolCut.inscribes hr with hone | hadds
    · exact ⟨hcut, .inr hone.path⟩
    · exact ⟨hcut, .inl (hadds.filterMap_eq fun _ h => h)⟩

/-- Each record of the path comes from a commit on the way, and what triggered it. -/
theorem Acts.path_recounts {s r : Service κ} (h : Acts s r) (hs : s.timers.Slot)
    (hnone : s.journal = []) : ∀ record ∈ r.path, ∃ u target actions event,
      Steps s u ∧ u.Triggers target actions event ∧ record = u.recordOf target event ∧
        Steps (u.commit target actions event).service r := by
  intro record hrecord
  obtain ⟨e, he, hrecords⟩ := List.mem_filterMap.1 hrecord
  obtain rfl : e = .committed record := by
    cases e <;> simp [Entry.record?] at hrecords
    rw [hrecords]
  obtain ⟨before, after, hsplit⟩ := List.append_of_mem he
  have hall : r.journal = s.journal ++ r.journal := by rw [hnone, List.nil_append]
  obtain ⟨u, target, actions, event, hu, htriggers, hof, _, _, hreach⟩ :=
    Acts.recounts h hs hall before record after hsplit
  exact ⟨u, target, actions, event, hu, htriggers, hof, hreach⟩

variable [BEq κ] {s s' : Service κ}

/-- Level services on the same channel are heard and seen alike in every session, and are level when
it ends. -/
theorem both_attend (calls : List (Call κ)) (h : Level s s') (hchannel : s'.channel = s.channel)
    (b : Switchboard κ) :
    Outcome.Both (LevelSince s s') (attend calls s b).1 (attend calls s' b).1 ∧
      (attend calls s' b).2 = (attend calls s b).2 := by
  induction calls generalizing s s' b with
  | nil => exact ⟨.completed ⟨h, [], by simp⟩, rfl⟩
  | cons call rest ih =>
    cases call with
    | subscribe name l =>
      simp only [attend, hchannel]
      exact ih h hchannel _
    | unsubscribe handle => exact ih h hchannel _
    | operate op =>
      have hsteps := Steps.continues (s.steps_apply op)
      have hsteps' := Steps.continues (s'.steps_apply op)
      obtain ⟨c, lines, hrelay⟩ : ∃ c lines,
          Switchboard.relay s.channel ((s.apply op).service.since s) b = (c, lines) := ⟨_, _, rfl⟩
      have hconduct : s.conduct op b = (s.apply op, c, lines) := by rw [conduct, hrelay]
      have hconduct' : s'.conduct op b = (s'.apply op, c, lines) := by
        rw [conduct, (both_apply h op).service.since_eq, hchannel, hrelay]
      have hboth := both_apply h op
      generalize s.apply op = o at hboth hconduct hsteps
      generalize s'.apply op = o' at hboth hconduct' hsteps'
      cases hboth with
      | overflowed hlevel =>
        rw [attend_operate_overflowed hconduct, attend_operate_overflowed hconduct']
        exact ⟨.overflowed hlevel, rfl⟩
      | @completed r r' hlevel =>
        rw [attend_operate_completed hconduct, attend_operate_completed hconduct']
        have hsame : r'.channel = r.channel := by
          rw [show r'.channel = s'.channel from hsteps'.channel, hchannel,
            show r.channel = s.channel from hsteps.channel]
        obtain ⟨hboth, hseen⟩ := ih hlevel.toLevel hsame c
        refine ⟨hboth.imp fun _ _ k => hlevel.trans k, ?_⟩
        rw [hseen]

/-- In every session, each transition that is committed starts where the one before it ended, the
first one in the initial state, and the last one ends in the current state; their clock readings never
decrease. The history holds the last of them, as many as its limit allows. They are the transitions
that were triggered: every commit adds its own record to the path, or none if the clock has no instant for
a delay, and every record of the path comes from one. Under any other limit the session goes the same way:
the service ends in the same snapshot and status with the same clock and timers, has written the same
journal of calls, timers and transitions, and is heard and seen alike. -/
theorem truePath_attend (machine : Machine κ) (options : Options κ) (channel : Nat)
    (calls : List (Call κ)) (b : Switchboard κ) :
    let r := (attend calls (create machine options channel) b).1.service
    r.TruePath ∧
    r.history.records = r.path.drop (r.path.length - options.historyLimit) ∧
    r.history.size = min options.historyLimit r.path.length ∧
    (∀ s target actions event, Steps (create machine options channel) s →
      (s.commit target actions event).Ends
        (fun u => u.path = s.path ++ [s.recordOf target event])
        (fun u => s.CutShort u ∧
          (u.path = s.path ∨ u.path = s.path ++ [s.recordOf target event]))) ∧
    (∀ record ∈ r.path, ∃ s target actions event, Steps (create machine options channel) s ∧
      s.Triggers target actions event ∧ record = s.recordOf target event ∧
      Steps (s.commit target actions event).service r) ∧
    ∀ limit : Nat,
      let other := create machine { options with historyLimit := limit } channel
      Outcome.Both (fun r r' => Level r r' ∧ r'.journal = r.journal)
        (attend calls (create machine options channel) b).1 (attend calls other b).1 ∧
      (attend calls other b).2 = (attend calls (create machine options channel) b).2 := by
  intro r
  have hacts : Acts (create machine options channel) r := acts_attend calls b _
  have hsteps := Acts.steps hacts
  have hrecords := hsteps.records
  refine ⟨hsteps.truePath (truePath_create _ _ _), hrecords, ?_, ?_, ?_, fun limit => ?_⟩
  · rw [← History.length_records, hrecords, List.length_drop]
    omega
  · intro s target actions event hs
    exact ends_commit_path target actions event (Steps.slot hs TimerQueue.slot_empty)
  · exact hacts.path_recounts TimerQueue.slot_empty (journal_create _ _ _)
  · have hlevel : Level (create machine options channel)
        (create machine { options with historyLimit := limit } channel) := ⟨rfl, rfl, rfl, rfl, rfl⟩
    obtain ⟨hboth, hseen⟩ := both_attend calls hlevel rfl b
    refine ⟨hboth.imp fun u u' hsince => ⟨hsince.toLevel, ?_⟩, hseen⟩
    obtain ⟨new, hnew, hnew'⟩ := hsince.written
    rw [hnew, hnew', journal_create, journal_create]

end Service
end TimedMachine
