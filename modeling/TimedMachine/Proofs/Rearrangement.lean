import TimedMachine.Proofs.Arrangement
import TimedMachine.Proofs.Level
import TimedMachine.Session

/-!
The arrangement of declarations carries no behaviour. A service goes through every session as it would
over a machine whose declarations are arranged otherwise (`attend_withMachine`), and what can be asked
of the machine alone has the same answers, the issues up to their order (`arrangement_immaterial`).
-/
namespace TimedMachine

variable {κ : Type}

/-- The service with another machine in place of its own. -/
def Service.withMachine (machine : Machine κ) (s : Service κ) : Service κ := { s with machine }

def Outcome.withMachine (machine : Machine κ) : Outcome κ → Outcome κ
  | .completed s => .completed (s.withMachine machine)
  | .overflowed s => .overflowed (s.withMachine machine)

theorem Outcome.service_withMachine (machine : Machine κ) (o : Outcome κ) :
    (o.withMachine machine).service = o.service.withMachine machine := by
  cases o <;> rfl

namespace Service

variable {m : Machine κ} {s : Service κ}

theorem create_withMachine {machine : Machine κ} (h : machine.Same m) (options : Options κ)
    (channel : Nat) : create m options channel = (create machine options channel).withMachine m := by
  unfold create withMachine
  rw [h.initialSnapshot]

/-- The moment from which on a service and the one over the other machine are compared. -/
abbrev rearranging (m : Machine κ) (s : Service κ) : Pairing κ := ⟨Eq, s, s.withMachine m⟩

theorem still_rearranging (m : Machine κ) (s : Service κ) : (rearranging m s).shift.Still :=
  ⟨rfl, rfl⟩

theorem twins_rearranging (m : Machine κ) (s : Service κ) :
    (rearranging m s).Twins s (s.withMachine m) where
  machine := rfl
  machine' := rfl
  options := rfl
  options' := rfl
  status := rfl
  current := s.current.alike_self
  timers := (still_rearranging m s).queues_self s.timers
  journal := ⟨[], [], (List.append_nil _).symm, (List.append_nil _).symm, .nil⟩

/-- Twins that started out as one service over two machines are so still. -/
theorem Pairing.Twins.eq_withMachine {r r' : Service κ} (h : (rearranging m s).Twins r r')
    (hsteps : Steps s r) (hsteps' : Steps (s.withMachine m) r') : r' = r.withMachine m := by
  have hstill := still_rearranging m s
  obtain ⟨new, new', hr, hr', halike⟩ := h.journal
  obtain rfl : new' = new := Shift.eq_of_forall₂ (fun _ _ he => he.eq_of_still hstill) halike
  refine eq_of_parts h.machine' (h.options'.trans h.options.symm) ?_ h.status h.current.eq
    (hstill.queues_eq h.timers) ?_ (hr'.trans hr.symm)
  · exact (Steps.continues hsteps').channel.trans (Steps.continues hsteps).channel.symm
  · obtain ⟨kept, hkept, hpushed⟩ := hsteps.keeps
    obtain ⟨kept', hkept', hpushed'⟩ := hsteps'.keeps
    obtain rfl := List.append_cancel_left (hkept.symm.trans hr)
    obtain rfl := List.append_cancel_left (hkept'.symm.trans hr')
    exact hpushed'.trans hpushed.symm

section Operations

variable [BEq κ]

/-- An operation does the same over the other machine. -/
theorem apply_withMachine (h : s.machine.Same m) (op : Operation) :
    (s.withMachine m).apply op = (s.apply op).withMachine m := by
  have hends := Pairing.ends_apply (h.counterpart s.options) (twins_rearranging m s) op
  have hsteps := s.steps_apply op
  have hsteps' := (s.withMachine m).steps_apply op
  generalize s.apply op = o at hends hsteps ⊢
  generalize (s.withMachine m).apply op = o' at hends hsteps' ⊢
  cases hends with
  | completed h => exact congrArg Outcome.completed (h.eq_withMachine hsteps hsteps')
  | overflowed h => exact congrArg Outcome.overflowed (h.eq_withMachine hsteps hsteps')
  | parted hmoved => exact absurd hmoved (still_rearranging m s).not_moved

theorem conduct_withMachine (h : s.machine.Same m) (op : Operation) (board : Switchboard κ) :
    (s.withMachine m).conduct op board =
      ((s.conduct op board).1.withMachine m, (s.conduct op board).2) := by
  simp only [conduct, apply_withMachine h, Outcome.service_withMachine]
  rfl

/-- A session over the other machine goes the same way, and is heard and seen alike. -/
theorem attend_withMachine (h : s.machine.Same m) (calls : List (Call κ)) (board : Switchboard κ) :
    attend calls (s.withMachine m) board =
      ((attend calls s board).1.withMachine m, (attend calls s board).2) := by
  induction calls generalizing s board with
  | nil => rfl
  | cons call rest ih =>
    cases call with
    | subscribe name l => exact ih h _
    | unsubscribe handle => exact ih h _
    | operate op =>
      have hsame := (Steps.continues (s.steps_apply op)).machine
      have hboth := conduct_withMachine h op board
      obtain ⟨o, after, lines, hconduct⟩ :
          ∃ o after lines, s.conduct op board = (o, after, lines) := ⟨_, _, _, rfl⟩
      obtain rfl : s.apply op = o := congrArg Prod.fst hconduct
      rw [hconduct] at hboth
      generalize s.apply op = o at hsame hboth hconduct
      cases o with
      | overflowed r =>
        rw [attend_operate_overflowed hconduct, attend_operate_overflowed hboth]
        rfl
      | completed r =>
        have hr : r.machine.Same m := by
          rw [show r.machine = s.machine from hsame]
          exact h
        rw [attend_operate_completed hconduct, attend_operate_completed hboth, ih hr]

/-- Machines from clauses that agree declare the same states and resolve every event alike, asking the
same guards. Over both, services go the same way through every session: they end in the same snapshot
and status, with the same clock, timers and history, have written the same journal of calls, and are
heard alike. The machines have the same issues up to order. -/
theorem arrangement_immaterial {cs cs' : List (Machine.Clause κ)}
    (h : Machine.Clause.Agree cs cs') :
    let m := Machine.ofClauses cs
    let m' := Machine.ofClauses cs'
    (∀ state, m'.declares state = m.declares state) ∧
    (∀ ref event, m'.transition? ref event = m.transition? ref event ∧
      m'.transitionNotes ref event = m.transitionNotes ref event) ∧
    (∀ options channel calls board,
      attend calls (create m' options channel) board =
        ((attend calls (create m options channel) board).1.withMachine m',
          (attend calls (create m options channel) board).2)) ∧
    (m.issues.Perm m'.issues ∧ (m.issues = [] ↔ m'.issues = [])) ∧
    ∀ options, (m.issuesWith options).Perm (m'.issuesWith options) ∧
      (m.issuesWith options = [] ↔ m'.issuesWith options = []) := by
  intro m m'
  have hsame : m.Same m' := h.same
  have hempty {l l' : List Issue} (hperm : l.Perm l') : l = [] ↔ l' = [] :=
    ⟨fun hl => (hl ▸ hperm).symm.eq_nil, fun hl => (hl ▸ hperm).eq_nil⟩
  refine ⟨hsame.declares, fun ref event => ⟨congrArg Resolution.next (hsame.resolve ref event),
    congrArg Resolution.notes (hsame.resolve ref event)⟩, fun options channel calls board => ?_,
    ⟨hsame.issues_perm, hempty hsame.issues_perm⟩,
    fun options => ⟨hsame.issuesWith_perm options, hempty (hsame.issuesWith_perm options)⟩⟩
  rw [create_withMachine hsame]
  exact attend_withMachine hsame calls board

end Operations

end Service

/-- A lamp with a switch, which a kick would break. -/
def lampClauses : List (Machine.Clause Nat) :=
  [.initial "off", .context 0, .state "off" [.on "press" (.bare "on")],
    .state "on" [.on "press" (.bare "off"), .on "kick" (.bare "broken")]]

/-- The same lamp, the other way round and with second thoughts. -/
def lampClausesAgain : List (Machine.Clause Nat) :=
  [.state "on" [.on "kick" (.bare "off"), .on "press" (.bare "off"), .on "kick" (.bare "broken")],
    .context 7, .initial "on", .state "off" [], .context 0, .initial "off",
    .state "off" [.entry [.named "hum"], .on "press" (.bare "on"), .entry []]]

theorem agree_lampClauses : Machine.Clause.Agree lampClauses lampClausesAgain where
  initial := ⟨"off", rfl, rfl⟩
  context := rfl
  state name := by
    have hoff : Node.Clause.Agree ([.on "press" (.bare "on")] : List (Node.Clause Nat))
        [.entry [.named "hum"], .on "press" (.bare "on"), .entry []] := by
      refine ⟨fun kind => ?_, rfl, rfl, rfl, rfl⟩
      by_cases hpress : "press" = kind <;>
        simp [lastOf, List.findSome?_cons, Node.Clause.handler?, hpress]
    have hon : Node.Clause.Agree
        ([.on "press" (.bare "off"), .on "kick" (.bare "broken")] : List (Node.Clause Nat))
        [.on "kick" (.bare "off"), .on "press" (.bare "off"), .on "kick" (.bare "broken")] := by
      refine ⟨fun kind => ?_, rfl, rfl, rfl, rfl⟩
      by_cases hpress : "press" = kind <;> by_cases hkick : "kick" = kind <;>
        simp [lastOf, Node.Clause.handler?, hpress, hkick]
    by_cases hname : "off" = name
    · subst hname
      exact .some hoff
    · by_cases hname' : "on" = name
      · subst hname'
        exact .some hon
      · simp [lastOf, List.findSome?_cons, Machine.Clause.state?, lampClauses, lampClausesAgain,
          hname, hname']

/-- Both lamps take a press alike, and both are reported to break. -/
theorem arrangement_immaterial_lamp :
    let lamp := Machine.ofClauses lampClauses
    let again := Machine.ofClauses lampClausesAgain
    let calls := [.operate .start, .operate (.send ⟨"press", .null⟩)]
    let o := Service.attend calls (.create lamp {} 0) {}
    Machine.Clause.Agree lampClauses lampClausesAgain ∧
    Service.attend calls (.create again {} 0) {} = (o.1.withMachine again, o.2) ∧
    lamp.issues = [.unknownTarget "on" "kick" "broken"] ∧
    again.issues = [.unknownTarget "on" "kick" "broken"] := by
  intro lamp again calls o
  obtain ⟨_, _, hattend, ⟨hissues, _⟩, _⟩ := Service.arrangement_immaterial agree_lampClauses
  have hlamp : lamp.issues = [.unknownTarget "on" "kick" "broken"] := by decide
  have hperm : lamp.issues.Perm again.issues := hissues
  rw [hlamp] at hperm
  exact ⟨agree_lampClauses, hattend {} 0 calls {}, hlamp, (List.singleton_perm.1 hperm).symm⟩

end TimedMachine
