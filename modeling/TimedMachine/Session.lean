import TimedMachine.Switchboard

/-!
Sessions: what a caller does with one service and its switchboard, in any order. Besides the
operations on the service there are subscriptions, begun and ended; they never reach the service, so
what it does in a session is what it does in the operations alone (`attend_fst`).
-/
namespace TimedMachine

variable {κ : Type}

inductive Call (κ : Type) where
  | operate (op : Service.Operation)
  | subscribe (name : String) (l : Listener κ)
  | unsubscribe (h : Handle)

def Call.operation? : Call κ → Option Service.Operation
  | .operate op => some op
  | _ => none

namespace Service

variable [BEq κ]

/-- Answer calls in order, up to the first that overflows, with the lines that can be seen of them. -/
def attend : List (Call κ) → Service κ → Switchboard κ → Outcome κ × Switchboard κ × List (Line κ)
  | [], s, b => (.completed s, b, [])
  | .operate op :: rest, s, b =>
    match s.conduct op b with
    | (.completed s, b, lines) =>
      let (o, b, more) := attend rest s b
      (o, b, lines ++ more)
    | (.overflowed s, b, lines) => (.overflowed s, b, lines)
  | .subscribe name l :: rest, s, b => attend rest s (b.subscribe s.channel name l)
  | .unsubscribe h :: rest, s, b => attend rest s (b.unsubscribe h)

theorem attend_operate_completed {op : Operation} {s r : Service κ} {b c : Switchboard κ}
    {lines : List (Line κ)} (h : s.conduct op b = (.completed r, c, lines))
    (rest : List (Call κ)) :
    attend (.operate op :: rest) s b =
      ((attend rest r c).1, (attend rest r c).2.1, lines ++ (attend rest r c).2.2) := by
  simp [attend, h]

theorem attend_operate_overflowed {op : Operation} {s r : Service κ} {b c : Switchboard κ}
    {lines : List (Line κ)} (h : s.conduct op b = (.overflowed r, c, lines))
    (rest : List (Call κ)) :
    attend (.operate op :: rest) s b = (.overflowed r, c, lines) := by
  simp [attend, h]

theorem conduct_of_completed {op : Operation} {s r : Service κ} (h : s.apply op = .completed r)
    (b : Switchboard κ) :
    s.conduct op b = (.completed r, Switchboard.relay s.channel (r.since s) b) := by
  unfold conduct
  dsimp only
  rw [h]
  rfl

theorem attend_singleton (op : Operation) (s : Service κ) (b : Switchboard κ) :
    attend [.operate op] s b = s.conduct op b := by
  obtain ⟨o, board, lines, h⟩ : ∃ o board lines, s.conduct op b = (o, board, lines) :=
    ⟨_, _, _, rfl⟩
  cases o with
  | completed r =>
    rw [attend_operate_completed h, h]
    simp [attend]
  | overflowed r => rw [attend_operate_overflowed h, h]

/-- A service does in a session what it does in the operations of the session. -/
theorem attend_fst (calls : List (Call κ)) (s : Service κ) (b : Switchboard κ) :
    (attend calls s b).1 = run (calls.filterMap Call.operation?) s := by
  induction calls generalizing s b with
  | nil => rfl
  | cons call rest ih =>
    cases call with
    | operate op =>
      show (attend (.operate op :: rest) s b).1 =
        (s.apply op).andThen (run (rest.filterMap Call.operation?))
      obtain ⟨c, lines, hc⟩ : ∃ c lines, s.conduct op b = (s.apply op, c, lines) := ⟨_, _, rfl⟩
      cases ho : s.apply op with
      | completed r =>
        rw [ho] at hc
        rw [attend_operate_completed hc]
        exact ih r c
      | overflowed r =>
        rw [ho] at hc
        rw [attend_operate_overflowed hc]
        rfl
    | subscribe name l => exact ih s _
    | unsubscribe h => exact ih s _

theorem attend_start {s r : Service κ} (h : s.start = .completed r) (b : Switchboard κ) :
    (attend [.operate .start] s b).1 = .completed r := by
  rw [attend_fst]
  exact congrArg (fun o : Outcome κ => o.andThen (run [])) h

end Service
end TimedMachine
