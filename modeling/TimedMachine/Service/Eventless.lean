import TimedMachine.Service.Commit

/-!
Eventless transitions are followed until the state has none, or none that is enabled, or was already
left in this pass, or names a target that is not declared. The states that were left are declared
and distinct, so a pass ends after at most as many steps as there are declared states.
-/
namespace TimedMachine.Service

variable {κ : Type}

/-- The conditions that are asked to find the first enabled transition: none past it. -/
def consulted (s : Snapshot κ) : List (Eventless κ) → List (Condition κ)
  | [] => []
  | t :: rest =>
    match t.condition with
    | none => []
    | some condition => condition :: if (condition s).holds then [] else consulted s rest

/-- Note in the journal which conditions were asked. -/
def weigh (ts : List (Eventless κ)) (s : Service κ) : Service κ :=
  (consulted s.current ts).foldl (fun r condition => r.log (.weighed condition s.current)) s

theorem follows_weigh (ts : List (Eventless κ)) (s : Service κ) : s.Follows (s.weigh ts) := by
  unfold weigh
  generalize consulted s.current ts = conditions
  generalize hc : s.current = snapshot
  clear hc
  induction conditions generalizing s with
  | nil => exact .refl s
  | cons c rest ih => exact (s.follows_log _).trans (ih _)

theorem countP_not_mem_cons_lt {names visited : List String} {name : String}
    (h : name ∈ names) (hv : name ∉ visited) :
    names.countP (fun n => n ∉ name :: visited) < names.countP (fun n => n ∉ visited) := by
  induction names with
  | nil => simp at h
  | cons n rest ih =>
    have hle : rest.countP (fun n => n ∉ name :: visited) ≤ rest.countP (fun n => n ∉ visited) :=
      List.countP_mono_left fun m _ hm => by
        simp only [List.mem_cons, not_or, decide_eq_true_eq] at hm ⊢
        exact hm.2
    by_cases hn : n = name
    · rw [List.countP_cons_of_neg (by simp [hn]), List.countP_cons_of_pos (by simp [hn, hv])]
      exact Nat.lt_succ_of_le hle
    · have hlt := ih ((List.mem_cons.1 h).resolve_left (Ne.symm hn))
      by_cases hnv : n ∈ visited
      · rw [List.countP_cons_of_neg (by simp [hnv]), List.countP_cons_of_neg (by simp [hnv])]
        exact hlt
      · rw [List.countP_cons_of_pos (by simp [hn, hnv]), List.countP_cons_of_pos (by simp [hnv])]
        exact Nat.succ_lt_succ hlt

/-- How many declared states are not among those visited. -/
def unvisited (m : Machine κ) (visited : List String) : Nat :=
  m.states.keys.countP (fun n => n ∉ visited)

/-- One pass of eventless transitions, with the states that it has left so far. -/
def settle (visited : List String) (s : Service κ) : Outcome κ :=
  if hsome : s.machine.alwaysOf s.current.value = [] then .completed s
  else if hleft : s.current.value ∈ visited then .completed s
  else
    let ts := s.machine.alwaysOf s.current.value
    match ts.find? (·.enabled s.current) with
    | none => .completed (s.weigh ts)
    | some t =>
      if s.machine.declares t.target then
        match hstep : (s.weigh ts).commit t.target t.actions (.always s.current.value) with
        | .overflowed r => .overflowed r
        | .completed r =>
          have hmachine : r.machine = s.machine := by
            have := follows_commit t.target t.actions (.always s.current.value) (s.weigh ts)
            rw [hstep] at this
            exact this.machine.trans (follows_weigh ts s).machine
          have : unvisited r.machine (s.current.value :: visited) <
              unvisited s.machine visited := by
            rw [hmachine]
            exact countP_not_mem_cons_lt (Machine.declares_of_alwaysOf_ne_nil hsome) hleft
          settle (s.current.value :: visited) r
      else .completed ((s.weigh ts).log (.astray s.current.value t.target))
termination_by unvisited s.machine visited

theorem follows_settle (visited : List String) (s : Service κ) :
    s.Follows (settle visited s).service := by
  fun_induction settle visited s with
  | case1 => exact .refl _
  | case2 => exact .refl _
  | case3 => exact follows_weigh _ _
  | case4 visited s _ _ ts t _ _ r h =>
    have := follows_commit t.target t.actions (.always s.current.value) (s.weigh ts)
    rw [h] at this
    exact (follows_weigh ts s).trans this
  | case5 visited s _ _ ts t _ _ r h _ _ ih =>
    have := follows_commit t.target t.actions (.always s.current.value) (s.weigh ts)
    rw [h] at this
    exact ((follows_weigh ts s).trans this).trans ih
  | case6 => exact (follows_weigh _ _).trans (follows_log _ _)

/-- Follow eventless transitions from where the service is. -/
def resolve (s : Service κ) : Outcome κ := settle [] s

theorem follows_resolve (s : Service κ) : s.Follows s.resolve.service := follows_settle [] s

end TimedMachine.Service
