import Mathlib.Data.List.Pairwise
import Mathlib.Tactic.ByContra
import TimedMachine.TimerQueue.Progress

/-!
What waits in a timer queue. Each change of a queue is described by its members; `delayed` are the
delayed transitions among them, in firing order. `Slot` ties the queue's note of its deferred event
to the timers that really wait, and every change keeps it.
-/
namespace TimedMachine.TimerQueue

/-- The delayed transitions that wait. -/
def delayed (q : TimerQueue) : List Timer := q.pending.filter (·.task.isDelayed)

theorem mem_delayed {q : TimerQueue} {t : Timer} :
    t ∈ q.delayed ↔ t ∈ q.pending ∧ t.task.isDelayed = true := List.mem_filter

/-- No two timers that wait have the same key. -/
theorem eq_of_key_eq {q : TimerQueue} {t u : Timer} (ht : t ∈ q.pending) (hu : u ∈ q.pending)
    (hkey : t.key = u.key) : t = u := by
  by_contra hne
  have hkeys : q.pending.Pairwise (fun a b => a.key ≠ b.key) := by
    refine q.ordered.imp ?_
    intro a b hab he
    rw [he] at hab
    exact Key.not_before_self _ hab
  have : Std.Symm (fun a b : Timer => a.key ≠ b.key) := ⟨fun _ _ h => h.symm⟩
  exact hkeys.forall ht hu hne hkey

/-- The timers left after the first one still wait, and so did that one. -/
theorem mem_of_popDue? {q r : TimerQueue} {limit : Duration} {horizon : Nat} {t : Timer}
    (h : q.popDue? limit horizon = some (t, r)) (u : Timer) :
    u ∈ q.pending ↔ u = t ∨ u ∈ r.pending := by
  rw [(popDue?_eq_some h).1, List.mem_cons]

theorem not_mem_of_popDue? {q r : TimerQueue} {limit : Duration} {horizon : Nat} {t : Timer}
    (h : q.popDue? limit horizon = some (t, r)) : t ∉ r.pending := by
  have hn := q.nodup_pending
  rw [(popDue?_eq_some h).1] at hn
  exact (List.nodup_cons.1 hn).1

theorem deferred_of_popDue? {q r : TimerQueue} {limit : Duration} {horizon : Nat} {t : Timer}
    (h : q.popDue? limit horizon = some (t, r)) :
    r.deferred = if q.deferred = some t.key then none else q.deferred := by
  unfold popDue? at h
  split at h
  · cases h
  · split at h
    · cases h
    · cases h
      rfl

/-- A timer armed at the present clock reading, and the queue with it. -/
structure Arms (q : TimerQueue) (delay : Duration) (task : Task) (t : Timer) (r : TimerQueue) :
    Prop where
  task : t.task = task
  deadline : q.now.add? delay = some t.key.deadline
  id : t.key.id = q.nextId
  immediate : t.immediate = decide (delay = .zero)
  now : r.now = q.now
  nextId : r.nextId = q.nextId + 1
  deferred : r.deferred = q.deferred
  pending : ∀ u, u ∈ r.pending ↔ u = t ∨ u ∈ q.pending

theorem arm?_of_timer? {q : TimerQueue} {delay : Duration} {task : Task} {t : Timer}
    (h : q.timer? delay task = some t) :
    q.arm? delay task = some (t, q.enqueue t (id_of_timer? h)) := by
  unfold arm?
  split
  · rename_i hnone
    rw [h] at hnone
    cases hnone
  · rename_i u hu
    obtain rfl := Option.some.inj (h.symm.trans hu)
    rfl

theorem arm?_eq_none {q : TimerQueue} {delay : Duration} {task : Task}
    (h : q.timer? delay task = none) : q.arm? delay task = none := by
  unfold arm?
  split
  · rfl
  · rename_i hsome
    rw [h] at hsome
    cases hsome

theorem arms_of_arm? {q r : TimerQueue} {delay : Duration} {task : Task} {t : Timer}
    (h : q.arm? delay task = some (t, r)) : q.Arms delay task t r := by
  unfold arm? at h
  split at h
  · cases h
  · rename_i u hu
    cases h
    have hu' := hu
    unfold timer? at hu'
    obtain ⟨deadline, hd, rfl⟩ := Option.map_eq_some_iff.1 hu'
    exact ⟨rfl, hd, rfl, rfl, rfl, rfl, rfl, fun _ => Timer.mem_place⟩

theorem mem_cancelDelayed {q : TimerQueue} {t : Timer} :
    t ∈ q.cancelDelayed.pending ↔ t ∈ q.pending ∧ t.task.isDelayed = false := by
  simp [cancelDelayed, keep]

@[simp] theorem delayed_cancelDelayed (q : TimerQueue) : q.cancelDelayed.delayed = [] := by
  rw [delayed, List.filter_eq_nil_iff]
  intro t ht
  simp [(mem_cancelDelayed.1 ht).2]

/-- A deferred event takes its place among the delayed transitions without moving any of them. -/
theorem filter_place {t : Timer} (h : t.task.isDelayed = false) (l : List Timer) :
    (t.place l).filter (·.task.isDelayed) = l.filter (·.task.isDelayed) := by
  induction l with
  | nil => simp [Timer.place, h]
  | cons u rest ih =>
    rw [Timer.place]
    split
    · rw [List.filter_cons_of_neg (by simp [h])]
    · rw [List.filter_cons, List.filter_cons, ih]

theorem delayed_of_arm? {q r : TimerQueue} {delay : Duration} {task : Task} {t : Timer}
    (h : q.arm? delay task = some (t, r)) (htask : task.isDelayed = false) :
    r.delayed = q.delayed := by
  have ha := arms_of_arm? h
  unfold arm? at h
  split at h
  · cases h
  · cases h
    exact filter_place (by rw [ha.task, htask]) q.pending

/-- The queue knows of a deferred event exactly if one waits, and then by its key. -/
structure Slot (q : TimerQueue) : Prop where
  known : ∀ k, q.deferred = some k ↔ ∃ t ∈ q.pending, t.key = k ∧ t.task.isDelayed = false

/-- At most one deferred event waits. -/
theorem Slot.single {q : TimerQueue} (h : q.Slot) {t u : Timer} (ht : t ∈ q.pending)
    (hu : u ∈ q.pending) (htask : t.task.isDelayed = false) (hutask : u.task.isDelayed = false) :
    t = u := by
  have hk := (h.known t.key).2 ⟨t, ht, rfl, htask⟩
  have hl := (h.known u.key).2 ⟨u, hu, rfl, hutask⟩
  rw [hk] at hl
  exact eq_of_key_eq ht hu (Option.some.inj hl)

theorem slot_empty : ({} : TimerQueue).Slot := ⟨by simp⟩

theorem slot_cancelAll (q : TimerQueue) : q.cancelAll.Slot := ⟨by simp [cancelAll, keep]⟩

theorem Slot.setNow {q : TimerQueue} (h : q.Slot) (now : Duration) : (q.setNow now).Slot :=
  ⟨h.known⟩

theorem Slot.cancelDelayed {q : TimerQueue} (h : q.Slot) : q.cancelDelayed.Slot := by
  constructor
  intro k
  refine (h.known k).trans ?_
  constructor
  · rintro ⟨t, ht, hk, htask⟩
    exact ⟨t, mem_cancelDelayed.2 ⟨ht, htask⟩, hk, htask⟩
  · rintro ⟨t, ht, hk, htask⟩
    exact ⟨t, (mem_cancelDelayed.1 ht).1, hk, htask⟩

theorem mem_of_mem_cancelDeferred {q : TimerQueue} {t : Timer} (h : t ∈ q.cancelDeferred.pending) :
    t ∈ q.pending := by
  unfold cancelDeferred at h
  split at h
  · exact h
  · exact (List.mem_filter.1 h).1

/-- Cancelling the deferred event that the queue knows of cancels every one there is. -/
theorem Slot.mem_cancelDeferred {q : TimerQueue} (h : q.Slot) {t : Timer} :
    t ∈ q.cancelDeferred.pending ↔ t ∈ q.pending ∧ t.task.isDelayed = true := by
  cases hd : q.deferred with
  | none =>
    simp only [TimerQueue.cancelDeferred, hd]
    refine ⟨fun ht => ⟨ht, ?_⟩, And.left⟩
    by_contra htask
    have := (h.known t.key).2 ⟨t, ht, rfl, by simpa using htask⟩
    simp [hd] at this
  | some key =>
    obtain ⟨u, hu, huk, hutask⟩ := (h.known key).1 hd
    simp only [TimerQueue.cancelDeferred, hd, keep, List.mem_filter, decide_eq_true_eq]
    refine and_congr_right fun ht => ?_
    constructor
    · intro hk
      by_contra htask
      have htu := h.single ht hu (by simpa using htask) hutask
      exact hk (by rw [htu, huk])
    · intro htask hk
      have htu := eq_of_key_eq ht hu (hk.trans huk.symm)
      rw [htu, hutask] at htask
      cases htask

@[simp] theorem deferred_cancelDeferred (q : TimerQueue) : q.cancelDeferred.deferred = none := by
  unfold cancelDeferred
  split
  · assumption
  · rfl

theorem Slot.delayed_cancelDeferred {q : TimerQueue} (h : q.Slot) :
    q.cancelDeferred.delayed = q.delayed := by
  cases hd : q.deferred with
  | none => simp only [TimerQueue.cancelDeferred, hd]
  | some key =>
    simp only [TimerQueue.cancelDeferred, hd, keep, delayed, List.filter_filter]
    refine List.filter_congr fun t ht => ?_
    by_cases htask : t.task.isDelayed = true
    · have hmem := h.mem_cancelDeferred.2 ⟨ht, htask⟩
      simp only [TimerQueue.cancelDeferred, hd, keep, List.mem_filter] at hmem
      simp [htask, hmem.2]
    · simp [htask]

/-- All that waits once the deferred event is cleared are the delayed transitions. -/
theorem Slot.pending_cancelDeferred {q : TimerQueue} (h : q.Slot) :
    q.cancelDeferred.pending = q.delayed := by
  rw [← h.delayed_cancelDeferred]
  refine (List.filter_eq_self.2 fun t ht => ?_).symm
  exact (h.mem_cancelDeferred.1 ht).2

theorem nextId_cancelDeferred (q : TimerQueue) : q.cancelDeferred.nextId = q.nextId := by
  unfold cancelDeferred
  split <;> rfl

theorem Slot.cancelDeferred {q : TimerQueue} (h : q.Slot) : q.cancelDeferred.Slot := by
  constructor
  intro k
  simp only [deferred_cancelDeferred, reduceCtorEq, false_iff, not_exists, not_and]
  intro t ht _
  simp [(h.mem_cancelDeferred.1 ht).2]

theorem Slot.arms {q r : TimerQueue} {delay : Duration} {task : Task} {t : Timer} (h : q.Slot)
    (ha : q.Arms delay task t r) (htask : task.isDelayed = true) : r.Slot := by
  constructor
  intro k
  rw [ha.deferred]
  refine (h.known k).trans ?_
  constructor
  · rintro ⟨u, hu, hk, hutask⟩
    exact ⟨u, (ha.pending u).2 (.inr hu), hk, hutask⟩
  · rintro ⟨u, hu, hk, hutask⟩
    rcases (ha.pending u).1 hu with rfl | hu
    · rw [ha.task, htask] at hutask
      cases hutask
    · exact ⟨u, hu, hk, hutask⟩

theorem slot_of_popDue? {q r : TimerQueue} {limit : Duration} {horizon : Nat} {t : Timer}
    (hpop : q.popDue? limit horizon = some (t, r)) (h : q.Slot) : r.Slot := by
  have hmem := mem_of_popDue? hpop
  have hnot := not_mem_of_popDue? hpop
  constructor
  intro k
  rw [deferred_of_popDue? hpop]
  split
  · rename_i hd
    -- The timer taken is the one the queue knew of, and no other deferred event waits.
    obtain ⟨u, hu, huk, hutask⟩ := (h.known t.key).1 hd
    have hut := eq_of_key_eq hu ((hmem t).2 (.inl rfl)) huk
    simp only [reduceCtorEq, false_iff, not_exists, not_and]
    intro v hv _ hvtask
    have hvu := h.single ((hmem v).2 (.inr hv)) hu hvtask hutask
    exact hnot (by rw [← hut, ← hvu]; exact hv)
  · rename_i hd
    refine (h.known k).trans ?_
    constructor
    · rintro ⟨u, hu, hk, hutask⟩
      rcases (hmem u).1 hu with rfl | hu'
      · exact absurd ((h.known u.key).2 ⟨u, hu, rfl, hutask⟩) hd
      · exact ⟨u, hu', hk, hutask⟩
    · rintro ⟨u, hu, hk, hutask⟩
      exact ⟨u, (hmem u).2 (.inr hu), hk, hutask⟩

/-- A deferred event that is armed becomes the one that the queue knows of. -/
theorem slot_of_defer? {q r : TimerQueue} {event : Event} {delay : Duration} {t : Timer}
    (hd : q.defer? event delay = some (t, r)) (h : q.Slot) : r.Slot := by
  obtain ⟨armed, harm, rfl⟩ := defer?_eq_some hd
  have ha := arms_of_arm? harm
  constructor
  intro k
  simp only [Option.some.injEq]
  constructor
  · rintro rfl
    exact ⟨t, (ha.pending t).2 (.inl rfl), rfl, by rw [ha.task]; rfl⟩
  · rintro ⟨v, hv, hk, hvtask⟩
    rcases (ha.pending v).1 hv with rfl | hv
    · exact hk
    · simp [(h.mem_cancelDeferred.1 hv).2] at hvtask

theorem delayed_of_defer? {q r : TimerQueue} {event : Event} {delay : Duration} {t : Timer}
    (hd : q.defer? event delay = some (t, r)) (h : q.Slot) : r.delayed = q.delayed := by
  obtain ⟨armed, harm, rfl⟩ := defer?_eq_some hd
  exact (delayed_of_arm? harm rfl).trans h.delayed_cancelDeferred

end TimedMachine.TimerQueue
