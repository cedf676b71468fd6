import TimedMachine.Proofs.Agreement
import TimedMachine.Proofs.Draining
import TimedMachine.Proofs.Validation

/-!
What follows the firing of a delayed transition in the journal. In a sound machine it is either the
lapse of a transition to the state's own name, or the record of the transition, with nothing but work
before it (`Answered`). Only a run that is cut short during the exit actions ends without the record.
-/
namespace TimedMachine

variable {κ : Type}

/-- A delayed transition that fired lapsed because it names its own state, or it was committed at the
clock reading of its firing. -/
def Answered (m : Machine κ) (t : Timer) (clock : Duration) (rest : List (Entry κ)) : Prop :=
  ∀ state index, t.task = .delayed state index → ∃ d, (m.afterOf state)[index]? = some d ∧
    (d.target = state ∧ [.lapsed t .ownState] <+: rest ∨
      d.target ≠ state ∧ ∃ work, (∀ e ∈ work, e.isWork = true) ∧
        work ++ [.committed ⟨state, d.target, (Event.after d.delay state).kind, clock, ()⟩] <+: rest)

/-- What holds of each firing and the entries behind it. -/
def FiringsMeet (p : Timer → Duration → List (Entry κ) → Prop) (es : List (Entry κ)) : Prop :=
  ∀ t clock rest, .fired t clock :: rest <:+ es → p t clock rest

variable {m : Machine κ} {t : Timer} {clock : Duration}

theorem Answered.append {rest : List (Entry κ)} (h : Answered m t clock rest)
    (more : List (Entry κ)) : Answered m t clock (rest ++ more) := by
  intro state index htask
  obtain ⟨d, hd, hcases⟩ := h state index htask
  refine ⟨d, hd, ?_⟩
  rcases hcases with ⟨hown, hlapsed⟩ | ⟨hother, work, hwork, hcommitted⟩
  · exact .inl ⟨hown, hlapsed.trans (List.prefix_append _ _)⟩
  · exact .inr ⟨hother, work, hwork, hcommitted.trans (List.prefix_append _ _)⟩

/-- A firing for another task than a delayed transition needs no answer. -/
theorem answered_of_deferred {event : Event} (htask : t.task = .deferred event)
    (rest : List (Entry κ)) : Answered m t clock rest := by
  intro state index hdelayed
  rw [htask] at hdelayed
  cases hdelayed

theorem answered_of_own {state : String} {index : Nat} {d : Delayed κ}
    (htask : t.task = .delayed state index) (hd : (m.afterOf state)[index]? = some d)
    (hown : d.target = state) : Answered m t clock [.lapsed t .ownState] := by
  intro state' index' htask'
  obtain ⟨rfl, rfl⟩ := Task.delayed.inj (htask.symm.trans htask')
  exact ⟨d, hd, .inl ⟨hown, List.prefix_refl _⟩⟩

theorem answered_of_records {state : String} {index : Nat} {d : Delayed κ} {es : List (Entry κ)}
    (htask : t.task = .delayed state index) (hd : (m.afterOf state)[index]? = some d)
    (hother : d.target ≠ state)
    (h : Service.Records ⟨state, d.target, (Event.after d.delay state).kind, clock, ()⟩ es) :
    Answered m t clock es := by
  obtain ⟨work, rest, rfl, hwork, _⟩ := h
  intro state' index' htask'
  obtain ⟨rfl, rfl⟩ := Task.delayed.inj (htask.symm.trans htask')
  exact ⟨d, hd, .inr ⟨hother, work, hwork, rest, by simp⟩⟩

variable {p q : Timer → Duration → List (Entry κ) → Prop}

theorem firingsMeet_of_quiet {es : List (Entry κ)} (h : ∀ e ∈ es, e.fired? = none) :
    FiringsMeet p es := by
  intro t clock rest hsuffix
  have hnone := h _ (hsuffix.mem List.mem_cons_self)
  simp [Entry.fired?] at hnone

theorem firingsMeet_cons {es : List (Entry κ)} (h : p t clock es) (hes : FiringsMeet p es) :
    FiringsMeet p (.fired t clock :: es) := by
  intro u c rest hsuffix
  rcases List.suffix_cons_iff.1 hsuffix with heq | hsuffix
  · obtain ⟨hentry, rfl⟩ := List.cons.inj heq
    obtain ⟨rfl, rfl⟩ := Entry.fired.inj hentry
    exact h
  · exact hes u c rest hsuffix

theorem FiringsMeet.append {es more : List (Entry κ)} (h : FiringsMeet p es)
    (hpq : ∀ t clock rest, p t clock rest → q t clock (rest ++ more))
    (hmore : FiringsMeet q more) : FiringsMeet q (es ++ more) := by
  induction es with
  | nil => exact hmore
  | cons e rest ih =>
    intro t clock behind hsuffix
    rw [List.cons_append] at hsuffix
    rcases List.suffix_cons_iff.1 hsuffix with heq | hsuffix
    · obtain ⟨rfl, rfl⟩ := List.cons.inj heq
      exact hpq t clock rest (h t clock rest (List.suffix_refl _))
    · have hrest : FiringsMeet p rest := fun t clock behind hbehind =>
        h t clock behind (hbehind.trans (List.suffix_cons _ _))
      exact ih hrest t clock behind hsuffix

namespace Service

/-- Every firing so far was answered. -/
def Answers (m : Machine κ) (s : Service κ) : Prop := FiringsMeet (Answered m) s.journal

/-- Every firing so far was answered, or only work came after it. -/
def AnswersUntilCut (m : Machine κ) (s : Service κ) : Prop :=
  FiringsMeet (fun t clock rest => Answered m t clock rest ∨ ∀ e ∈ rest, e.isWork = true) s.journal

theorem Answers.untilCut {s : Service κ} (h : s.Answers m) : s.AnswersUntilCut m :=
  fun t clock rest hsuffix => .inl (h t clock rest hsuffix)

/-- One more firing, with what was written behind it. -/
theorem Answers.fired {s r : Service κ} {timers : TimerQueue} {new : List (Entry κ)}
    (h : s.Answers m) (hr : r.journal = (s.taken t timers).journal ++ new)
    (hpq : ∀ t clock rest more, Answered m t clock rest → q t clock (rest ++ more))
    (hquiet : ∀ e ∈ new, e.fired? = none) (hnew : q t timers.now new) :
    FiringsMeet q r.journal := by
  have hj : (s.taken t timers).journal = s.journal ++ [.fired t timers.now] := by
    simp [taken, withTimers, journal]
  rw [hr, hj, List.append_assoc]
  exact FiringsMeet.append h (fun t clock rest => hpq t clock rest _)
    (firingsMeet_cons hnew (firingsMeet_of_quiet hquiet))

variable [BEq κ]

/-- On a service in place a sound machine answers each firing. -/
theorem ends_fire_answers {o : Options κ} (hm : m.Sound o) {s : Service κ} (hmachine : s.machine = m)
    (h : s.Answers m) (hplace : s.InPlace) (hs : s.status = .running) {limit : Duration}
    {horizon : Nat} {timers : TimerQueue}
    (hpop : s.timers.popDue? limit horizon = some (t, timers)) :
    ((s.taken t timers).fire t).Ends (Answers m) (AnswersUntilCut m) := by
  obtain rfl := hmachine
  have hnot {es : List (Entry κ)} (hes : ∀ e ∈ es, e.isTurn = false) :
      ∀ e ∈ es, e.fired? = none := fun e he => e.fired?_of_isTurn (hes e he)
  have hdone {r : Service κ} {new : List (Entry κ)}
      (hr : r.journal = (s.taken t timers).journal ++ new) (hquiet : ∀ e ∈ new, e.fired? = none)
      (hnew : Answered s.machine t timers.now new) : r.Answers s.machine :=
    h.fired hr (fun _ _ _ more hrest => hrest.append more) hquiet hnew
  have hfires := fires_of_inPlace hplace hs hpop
  generalize (s.taken t timers).fire t = o at hfires ⊢
  cases hfires with
  | @delivered event htask =>
    obtain ⟨new, hr, hnew⟩ := Moves.addsNoTurn (moves_deliver event (s.taken t timers))
    have hanswers := hdone hr (hnot hnew) (answered_of_deferred htask new)
    exact (Outcome.ends_of_service hanswers).imp (fun _ h => h) (fun _ h => h.untilCut)
  | @kept index d htask hd hown =>
    exact hdone (journal_log _ _) (by simp [Entry.fired?]) (answered_of_own htask hd hown)
  | @lost index d htask hd hundeclared =>
    rw [hm.after _ d (List.mem_of_getElem? hd)] at hundeclared
    cases hundeclared
  | @left index d htask hd hother =>
    have hrecorded {r : Service κ}
        (hr : AddsRecord ⟨s.current.value, d.target, (Event.after d.delay s.current.value).kind,
          timers.now, ()⟩ (s.taken t timers) r) : r.Answers s.machine := by
      obtain ⟨new, hr, hnew⟩ := hr
      exact hdone hr (hnot hnew.isTurn) (answered_of_records htask hd hother hnew)
    have hcommit := ends_commit_records d.target d.actions (.after d.delay s.current.value)
      (s.taken t timers)
    refine (hcommit.imp (fun _ hr => hr) ?_).andThen ?_
    · rintro r (hr | ⟨work, hr, hwork⟩)
      · exact (hrecorded hr).untilCut
      · have hquiet : ∀ e ∈ work, e.isTurn = false := fun e he => e.isTurn_of_isWork (hwork e he)
        exact h.fired hr (fun _ _ _ more hrest => .inl (hrest.append more)) (hnot hquiet) (.inr hwork)
    · intro r hr
      have hanswers := hrecorded (AddsRecord.trans hr (Moves.addsNoTurn (moves_settle [] r)))
      exact (Outcome.ends_of_service hanswers).imp (fun _ h => h) (fun _ h => h.untilCut)

theorem lasts_answers {o : Options κ} (hm : m.Sound o) :
    Lasts (fun s => s.machine = m ∧ s.Answers m) (AnswersUntilCut m) where
  weaken _ h := h.2.untilCut
  quiet s r h hmachine hadds := by
    obtain ⟨new, hr, hnew⟩ := hadds
    refine ⟨hmachine.trans h.1, ?_⟩
    unfold Answers
    rw [hr]
    exact FiringsMeet.append h.2 (fun _ _ _ hrest => hrest.append new)
      (firingsMeet_of_quiet fun e he => e.fired?_of_isTurn (hnew e he))
  fire s limit horizon t timers h hplace hs hpop := by
    have hmachine : ((s.taken t timers).fire t).service.machine = s.machine :=
      (follows_fire t _).machine
    have hboth := (Outcome.ends_of_service (p := fun r => r.machine = s.machine) hmachine).and
      (ends_fire_answers hm h.1 h.2 hplace hs hpop)
    exact hboth.imp (fun r hr => ⟨hr.1.trans h.1, hr.2⟩) (fun _ hr => hr.2)

end Service
end TimedMachine
