import Mathlib.Data.List.Nodup
import Mathlib.Data.List.Perm.Subperm
import TimedMachine.Proofs.Overflow

/-!
Passes of eventless transitions. A `Round` takes the first transition whose condition is absent or
holds, in a state that the pass has not left yet. No pass has more rounds than there are declared
states with eventless transitions, because the states it leaves are distinct; and it comes to rest
only for one of four reasons (`resolve_rests`). What the actions do to the context on the way, and so
to the conditions that are asked later, makes no difference to this.
-/
namespace TimedMachine

variable {κ : Type}

namespace Eventless

/-- There is a condition, and it does not hold. -/
def Refused (t : Eventless κ) (s : Snapshot κ) : Prop :=
  ∃ condition, t.condition = some condition ∧ (condition s).holds = false

/-- There is no condition, or it holds. -/
def Admitted (t : Eventless κ) (s : Snapshot κ) : Prop :=
  ∀ condition, t.condition = some condition → (condition s).holds = true

theorem admitted_iff {t : Eventless κ} {s : Snapshot κ} : t.Admitted s ↔ t.enabled s = true := by
  unfold Admitted enabled
  cases t.condition <;> simp

theorem refused_iff {t : Eventless κ} {s : Snapshot κ} : t.Refused s ↔ t.enabled s = false := by
  unfold Refused enabled
  cases t.condition <;> simp

/-- The first transition of a list that is admitted, with the conditions that were asked to find it:
those of the transitions before it, which were refused, and its own. -/
structure First (ts : List (Eventless κ)) (s : Snapshot κ) (t : Eventless κ)
    (asked : List (Condition κ)) : Prop where
  admitted : t.Admitted s
  split : ∃ before behind, ts = before ++ t :: behind ∧ (∀ u ∈ before, u.Refused s) ∧
    asked = before.filterMap (·.condition) ++ t.condition.toList

end Eventless

namespace Machine

/-- The declared states that have eventless transitions. -/
def restless (m : Machine κ) : List String := m.states.keys.filter fun state => m.alwaysOf state ≠ []

theorem mem_restless {m : Machine κ} {state : String} :
    state ∈ m.restless ↔ m.alwaysOf state ≠ [] := by
  simp only [restless, List.mem_filter, decide_eq_true_eq, and_iff_right_iff_imp]
  exact declares_of_alwaysOf_ne_nil

end Machine

/-- The condition that an entry tells of, with the snapshot it was asked about. -/
def Entry.weighed? : Entry κ → Option (Condition κ × Snapshot κ)
  | .weighed condition snapshot => some (condition, snapshot)
  | _ => none

theorem Entry.weighed?_of_isWork (e : Entry κ) (h : e.isWork = true) : e.weighed? = none := by
  cases e <;> simp [Entry.isWork, Entry.weighed?] at *

namespace Service

/-- All conditions are asked up to the first that holds. -/
theorem consulted_append {s : Snapshot κ} {before : List (Eventless κ)}
    (h : ∀ t ∈ before, t.Refused s) (ts : List (Eventless κ)) :
    consulted s (before ++ ts) = before.filterMap (·.condition) ++ consulted s ts := by
  induction before with
  | nil => rfl
  | cons t rest ih =>
    obtain ⟨condition, hcondition, hholds⟩ := h t List.mem_cons_self
    have ih := ih fun u hu => h u (List.mem_cons_of_mem _ hu)
    simp [consulted, hcondition, hholds, ih]

theorem consulted_of_refused {s : Snapshot κ} {ts : List (Eventless κ)}
    (h : ∀ t ∈ ts, t.Refused s) : consulted s ts = ts.filterMap (·.condition) := by
  have happend := consulted_append h []
  simpa [consulted] using happend

theorem first_of_find? {s : Snapshot κ} {ts : List (Eventless κ)} {t : Eventless κ}
    (h : ts.find? (·.enabled s) = some t) : Eventless.First ts s t (consulted s ts) := by
  obtain ⟨henabled, before, behind, rfl, hbefore⟩ := List.find?_eq_some_iff_append.1 h
  have hadmitted := Eventless.admitted_iff.2 henabled
  have hrefused : ∀ u ∈ before, u.Refused s := fun u hu =>
    Eventless.refused_iff.2 (by simpa using hbefore u hu)
  refine ⟨hadmitted, before, behind, rfl, hrefused, ?_⟩
  rw [consulted_append hrefused]
  congr 1
  cases hcondition : t.condition with
  | none => simp [consulted, hcondition]
  | some condition => simp [consulted, hcondition, hadmitted condition hcondition]

theorem refused_of_find?_eq_none {s : Snapshot κ} {ts : List (Eventless κ)}
    (h : ts.find? (·.enabled s) = none) : ∀ t ∈ ts, t.Refused s := fun t ht =>
  Eventless.refused_iff.2 (by simpa using List.find?_eq_none.1 h t ht)

/-- The conditions that were asked so far, in order, each with the snapshot that it was shown. -/
def weighings (s : Service κ) : List (Condition κ × Snapshot κ) :=
  s.journal.filterMap Entry.weighed?

theorem journal_weigh (ts : List (Eventless κ)) (s : Service κ) :
    (s.weigh ts).journal =
      s.journal ++ (consulted s.current ts).map (fun condition => .weighed condition s.current) := by
  unfold weigh
  generalize consulted s.current ts = conditions
  generalize s.current = snapshot
  induction conditions generalizing s with
  | nil => simp
  | cons condition rest ih => simp [ih]

theorem weighings_weigh (ts : List (Eventless κ)) (s : Service κ) :
    (s.weigh ts).weighings =
      s.weighings ++ (consulted s.current ts).map fun condition => (condition, s.current) := by
  rw [weighings, journal_weigh, List.filterMap_append, List.filterMap_map]
  congr 1
  exact congrFun List.filterMap_eq_map _

/-- What is written in a commit: work, the record and the notification. -/
theorem adds_commit {p : Entry κ → Prop} (hwork : ∀ e, e.isWork = true → p e)
    (hcommitted : ∀ r, p (.committed r)) (hnotified : ∀ snapshot, p (.notified snapshot))
    (target : String) (actions : List (Action κ)) (event : Event) (s : Service κ) :
    Adds p s (s.commit target actions event).service := by
  have hrun (actions : List (Action κ)) (u : Service κ) :
      Adds p u (execute event actions u).service := (stays_execute _ _ _).entries.imp hwork
  have hleft : Adds p s s.cancelDelayed := s.adds_withTimers _ (hwork _ rfl)
  have harrived (r : Service κ) : Adds p r (r.arrive target actions event) :=
    ⟨[_], r.journal_arrive target actions event, by simpa using hcommitted _⟩
  have hnotice (r : Service κ) : Adds p r r.notify := adds_log r (hnotified _)
  refine (hleft.trans (hrun _ _)).andThen fun r => ?_
  refine ((harrived r).trans (hrun _ _)).andThen fun u => ?_
  refine (hrun _ u).andThen fun v => ?_
  exact (hnotice v).trans ((arming_armEach _ _ _ _).entries.imp hwork)

theorem weighings_commit (target : String) (actions : List (Action κ)) (event : Event)
    (s : Service κ) : (s.commit target actions event).service.weighings = s.weighings :=
  (adds_commit (p := fun e => e.weighed? = none) Entry.weighed?_of_isWork (fun _ => rfl)
    (fun _ => rfl) target actions event s).filterMap_eq fun _ h => h

/-- A commit that completes leaves the service in the target. -/
theorem ends_commit_value (target : String) (actions : List (Action κ)) (event : Event)
    (s : Service κ) :
    (s.commit target actions event).Ends (fun r => r.current.value = target) (fun _ => True) := by
  unfold commit
  have hrun (actions : List (Action κ)) (u : Service κ) :
      (execute event actions u).Ends (fun r => r.current.value = u.current.value) (fun _ => True) :=
    (Outcome.ends_of_service (stays_execute event actions u)).imp (fun _ h => h.value)
      (fun _ _ => trivial)
  refine (hrun _ _).andThen fun r _ => ?_
  refine (hrun _ (r.arrive target actions event)).andThen fun u hu => ?_
  refine (hrun _ u).andThen fun v hv => ?_
  have harming := Outcome.ends_of_service
    (arming_armEach v.notify.current.value 0 (v.notify.machine.afterOf v.notify.current.value) v.notify)
  refine harming.imp (fun w hw => ?_) (fun _ _ => trivial)
  rw [hw.current]
  exact hv.trans hu

/-- One round of a pass, with what comes after it. -/
def roundThen (next : Service κ → Outcome κ) (s : Service κ) : Outcome κ :=
  match (s.machine.alwaysOf s.current.value).find? (·.enabled s.current) with
  | none => .completed (s.weigh (s.machine.alwaysOf s.current.value))
  | some t =>
    if s.machine.declares t.target then
      ((s.weigh (s.machine.alwaysOf s.current.value)).commit t.target t.actions
        (.always s.current.value)).andThen next
    else
      .completed ((s.weigh (s.machine.alwaysOf s.current.value)).log
        (.astray s.current.value t.target))

/-- A pass is a round and the rest of the pass. -/
theorem settle_eq (visited : List String) (s : Service κ) :
    settle visited s =
      if s.machine.alwaysOf s.current.value = [] then .completed s
      else if s.current.value ∈ visited then .completed s
      else roundThen (settle (s.current.value :: visited)) s := by
  rw [settle]
  by_cases hnone : s.machine.alwaysOf s.current.value = []
  · rw [dif_pos hnone, if_pos hnone]
  by_cases hleft : s.current.value ∈ visited
  · rw [dif_neg hnone, dif_pos hleft, if_neg hnone, if_pos hleft]
  rw [dif_neg hnone, dif_neg hleft, if_neg hnone, if_neg hleft, roundThen]
  dsimp only
  cases (s.machine.alwaysOf s.current.value).find? (·.enabled s.current) with
  | none => rfl
  | some t =>
    dsimp only
    split
    · split
      · rename_i hstep
        rw [hstep, Outcome.overflowed_andThen]
      · rename_i hstep
        rw [hstep, Outcome.completed_andThen]
    · rfl

/-- A pass ends at once in a state without eventless transitions. -/
theorem settle_of_barren (visited : List String) {s : Service κ}
    (h : s.machine.alwaysOf s.current.value = []) : settle visited s = .completed s := by
  rw [settle_eq, if_pos h]

/-- A pass under way: the states that it has left, the latest first, and the service as it is. -/
structure Pass (κ : Type) where
  left : List String := []
  service : Service κ

/-- One round of a pass: in a state that was not left before, the first admitted transition is taken
to its declared target. The conditions asked in the round are those asked to find the transition. -/
inductive Round : Pass κ → Pass κ → Prop
  | mk {left : List String} {s r : Service κ} {t : Eventless κ} {asked : List (Condition κ)}
      (hnew : s.current.value ∉ left)
      (hfirst : Eventless.First (s.machine.alwaysOf s.current.value) s.current t asked)
      (hdecl : s.machine.declares t.target = true)
      (hcommit : (s.weigh (s.machine.alwaysOf s.current.value)).commit t.target t.actions
        (.always s.current.value) = .completed r)
      (hvalue : r.current.value = t.target)
      (hasked : r.weighings = s.weighings ++ asked.map fun condition => (condition, s.current)) :
      Round ⟨left, s⟩ ⟨s.current.value :: left, r⟩

/-- Any number of rounds. -/
abbrev Rounds : Pass κ → Pass κ → Prop := Relation.ReflTransGen Round

/-- Why a pass comes to rest, and how it leaves the service. -/
inductive Rests (p : Pass κ) : Service κ → Prop
  /-- The state has no eventless transitions. -/
  | barren (hnone : p.service.machine.alwaysOf p.service.current.value = []) : Rests p p.service
  /-- The pass has left the state before. -/
  | again (hleft : p.service.current.value ∈ p.left) : Rests p p.service
  /-- All transitions are refused. -/
  | refused {r : Service κ} (hnew : p.service.current.value ∉ p.left)
      (hrefused : ∀ t ∈ p.service.machine.alwaysOf p.service.current.value,
        t.Refused p.service.current)
      (hr : r = p.service.weigh (p.service.machine.alwaysOf p.service.current.value))
      (hasked : r.weighings = p.service.weighings ++
        ((p.service.machine.alwaysOf p.service.current.value).filterMap (·.condition)).map
          fun condition => (condition, p.service.current)) : Rests p r
  /-- The target of the first admitted transition is not declared. -/
  | astray {r : Service κ} {t : Eventless κ} {asked : List (Condition κ)}
      (hnew : p.service.current.value ∉ p.left)
      (hfirst : Eventless.First (p.service.machine.alwaysOf p.service.current.value)
        p.service.current t asked)
      (hnot : p.service.machine.declares t.target = false)
      (hr : r = (p.service.weigh (p.service.machine.alwaysOf p.service.current.value)).log
        (.astray p.service.current.value t.target))
      (hasked : r.weighings = p.service.weighings ++
        asked.map fun condition => (condition, p.service.current)) : Rests p r

/-- A pass is cut short in the commit of the transition that the next round would take. -/
structure BreaksOff (p : Pass κ) (r : Service κ) : Prop where
  new : p.service.current.value ∉ p.left
  commit : ∃ t asked, Eventless.First (p.service.machine.alwaysOf p.service.current.value)
      p.service.current t asked ∧ p.service.machine.declares t.target = true ∧
    (p.service.weigh (p.service.machine.alwaysOf p.service.current.value)).commit t.target t.actions
      (.always p.service.current.value) = .overflowed r
  cutShort : p.service.CutShort r

/-- At rest the snapshot is the one that the last round left. -/
theorem Rests.current_eq {p : Pass κ} {r : Service κ} (h : Rests p r) :
    r.current = p.service.current := by
  cases h with
  | barren => rfl
  | again => rfl
  | refused _ _ hr => rw [hr, current_weigh]
  | astray _ _ _ hr => rw [hr]; exact current_weigh _ _

/-- The loop is a number of rounds, after which the pass comes to rest or breaks off. -/
theorem ends_settle_rounds (left : List String) (s : Service κ) :
    (settle left s).Ends (fun r => ∃ p, Rounds ⟨left, s⟩ p ∧ Rests p r)
      (fun r => ∃ p, Rounds ⟨left, s⟩ p ∧ BreaksOff p r) := by
  fun_induction settle left s with
  | case1 left s hnone => exact ⟨⟨left, s⟩, .refl, .barren hnone⟩
  | case2 left s _ hleft => exact ⟨⟨left, s⟩, .refl, .again hleft⟩
  | case3 left s _ hnew ts hfind =>
    have hrefused := refused_of_find?_eq_none hfind
    refine ⟨⟨left, s⟩, .refl, .refused hnew hrefused rfl ?_⟩
    rw [weighings_weigh, consulted_of_refused hrefused]
  | case4 left s _ hnew ts t hfind hdecl r hcommit =>
    have hcut := endsInTime_commit t.target t.actions (.always s.current.value) (s.weigh ts)
    rw [hcommit] at hcut
    have hweighed : Adds (fun _ => True) s (s.weigh ts) := ⟨_, journal_weigh ts s, fun _ _ => trivial⟩
    exact ⟨⟨left, s⟩, .refl, hnew, ⟨t, _, first_of_find? hfind, hdecl, hcommit⟩,
      hweighed.cutShort hcut⟩
  | case5 left s _ hnew ts t hfind hdecl r hcommit _ _ ih =>
    have hvalue := ends_commit_value t.target t.actions (.always s.current.value) (s.weigh ts)
    have hasked := weighings_commit t.target t.actions (.always s.current.value) (s.weigh ts)
    rw [hcommit] at hvalue hasked
    rw [Outcome.service_completed, weighings_weigh] at hasked
    have hround : Round ⟨left, s⟩ ⟨s.current.value :: left, r⟩ :=
      .mk hnew (first_of_find? hfind) hdecl hcommit hvalue hasked
    refine ih.imp ?_ ?_
    · rintro u ⟨p, hrounds, hrests⟩
      exact ⟨p, .head hround hrounds, hrests⟩
    · rintro u ⟨p, hrounds, hbreaks⟩
      exact ⟨p, .head hround hrounds, hbreaks⟩
  | case6 left s _ hnew ts t hfind hnot =>
    have hasked : ((s.weigh ts).log (.astray s.current.value t.target)).weighings =
        (s.weigh ts).weighings :=
      (adds_log (p := fun e => e.weighed? = none) (s.weigh ts) rfl).filterMap_eq fun _ h => h
    refine ⟨⟨left, s⟩, .refl, .astray hnew (first_of_find? hfind) ?_ rfl ?_⟩
    · simpa using hnot
    · rw [hasked, weighings_weigh]

/-- What every round keeps: the states that were left are distinct and have eventless transitions. -/
structure Pass.Proper (m : Machine κ) (p : Pass κ) : Prop where
  machine : p.service.machine = m
  distinct : p.left.Nodup
  restless : p.left ⊆ m.restless

theorem Round.proper {m : Machine κ} {p q : Pass κ} (h : Round p q) (hp : p.Proper m) :
    q.Proper m := by
  cases h with | @mk left s r t asked hnew hfirst hdecl hcommit
  have hmachine : s.machine = m := hp.machine
  have hf := follows_commit t.target t.actions (.always s.current.value)
    (s.weigh (s.machine.alwaysOf s.current.value))
  rw [hcommit] at hf
  refine ⟨(hf.machine.trans (follows_weigh _ s).machine).trans hmachine, ?_, ?_⟩
  · exact List.nodup_cons.2 ⟨hnew, hp.distinct⟩
  · obtain ⟨before, behind, hts, _⟩ := hfirst.split
    have hrestless : s.current.value ∈ m.restless := by
      rw [Machine.mem_restless, ← hmachine, hts]
      simp
    exact List.cons_subset.2 ⟨hrestless, hp.restless⟩

theorem Rounds.proper {m : Machine κ} {p q : Pass κ} (h : Rounds p q) (hp : p.Proper m) :
    q.Proper m := by
  induction h with
  | refl => exact hp
  | tail _ hround ih => exact hround.proper ih

theorem Pass.Proper.length_le {m : Machine κ} {p : Pass κ} (h : p.Proper m) :
    p.left.length ≤ m.restless.length :=
  (List.subperm_of_subset h.distinct h.restless).length_le

/-- No round follows upon as many as there are declared states with eventless transitions. -/
theorem exists_not_round (rounds : Nat → Pass κ) {m : Machine κ} (hm : (rounds 0).Proper m) :
    ∃ n ≤ m.restless.length, ¬ Round (rounds n) (rounds (n + 1)) := by
  by_contra hall
  have hround : ∀ n ≤ m.restless.length, Round (rounds n) (rounds (n + 1)) := by
    intro n hn
    by_contra hnot
    exact hall ⟨n, hn, hnot⟩
  have hkept : ∀ n ≤ m.restless.length + 1, (rounds n).Proper m ∧ n ≤ (rounds n).left.length := by
    intro n
    induction n with
    | zero => exact fun _ => ⟨hm, Nat.zero_le _⟩
    | succ n ih =>
      intro hn
      obtain ⟨hproper, hlength⟩ := ih (by omega)
      have hnext := hround n (by omega)
      refine ⟨hnext.proper hproper, ?_⟩
      generalize rounds n = p at hnext hlength
      generalize rounds (n + 1) = q at hnext
      obtain ⟨_, _, _, _, _, _⟩ := hnext
      exact Nat.succ_le_succ hlength
  obtain ⟨hproper, hlength⟩ := hkept (m.restless.length + 1) (Nat.le_refl _)
  have hle := hproper.length_le
  omega

/-- Whatever the conditions and actions do, a pass of eventless transitions is over after at most as
many rounds as there are declared states with such transitions. The states that it leaves are
distinct; each is left by the first transition that is admitted on the snapshot of that moment, all
before it being asked and refused and none after it being asked. The pass comes to rest only in a
state that it has left before, or that has no eventless transitions, or where none is admitted, or
where the first that is admitted leads to an undeclared state; or it breaks off in a commit for want
of an instant of the clock. -/
theorem resolve_rests (s : Service κ) :
    (∀ rounds : Nat → Pass κ, rounds 0 = ⟨[], s⟩ →
      ∃ n ≤ s.machine.restless.length, ¬ Round (rounds n) (rounds (n + 1))) ∧
    s.resolve.Ends
      (fun r => ∃ p : Pass κ, Rounds ⟨[], s⟩ p ∧ p.left.Nodup ∧
        p.left.length ≤ s.machine.restless.length ∧ Rests p r ∧ r.current = p.service.current)
      (fun r => ∃ p : Pass κ, Rounds ⟨[], s⟩ p ∧ p.left.Nodup ∧
        p.left.length ≤ s.machine.restless.length ∧ BreaksOff p r) := by
  have hstart : Pass.Proper s.machine ⟨[], s⟩ := ⟨rfl, .nil, List.nil_subset _⟩
  constructor
  · intro rounds hzero
    exact exists_not_round rounds (hzero ▸ hstart)
  · refine (ends_settle_rounds [] s).imp ?_ ?_
    · rintro r ⟨p, hrounds, hrests⟩
      have hproper := Rounds.proper hrounds hstart
      exact ⟨p, hrounds, hproper.distinct, hproper.length_le, hrests, hrests.current_eq⟩
    · rintro r ⟨p, hrounds, hbreaks⟩
      have hproper := Rounds.proper hrounds hstart
      exact ⟨p, hrounds, hproper.distinct, hproper.length_le, hbreaks⟩

end Service
end TimedMachine
