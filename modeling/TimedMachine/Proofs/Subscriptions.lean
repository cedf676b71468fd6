import TimedMachine.Proofs.Unheard

/-!
Subscriptions over any sequence of deeds. What the deeds do to the switchboard is told as a trace of
happenings (`Hub.happenings`): replayed, it gives the switchboard as it then is, and its calls are
what is heard. The trace is lawful, so the ledger says at every moment who is registered, and all
calls are made in rounds. The services themselves do as they would do with no subscriptions at all.
-/
namespace TimedMachine

variable {κ : Type}

namespace Switchboard

/-- The handle that the next subscription on a channel gets. -/
def nextHandle (b : Switchboard κ) (channel : Nat) : Handle :=
  ⟨channel, ((b.channel? channel).map Channel.nextId).getD 0⟩

theorem fits_nextHandle {b : Switchboard κ} {channel : Nat}
    (hopen : (b.channel? channel).isSome = true) (name : String) (l : Listener κ) :
    b.Fits (.subscribed name (b.nextHandle channel) l) := by
  obtain ⟨c, hc⟩ := Option.isSome_iff_exists.1 hopen
  refine ⟨c, hc, ?_⟩
  simp [nextHandle, hc]

/-- What a trace from an empty switchboard says of the subscriptions in it, at every moment. -/
structure Accounts (trace : List (Happening κ)) : Prop where
  /-- Listeners are called in notifications only. Each of these gives one turn to every listener
  that is registered when it starts, and calls it unless its handle was ended in the turns before. -/
  rounds : Course {} trace
  /-- The listeners of a channel stand in the order in which they subscribed. -/
  ascending : ∀ before after, trace = before ++ after → ∀ channel,
    ((replay before {}).listeners channel).Pairwise fun e f => e.1 < f.1
  registered : ∀ before after, trace = before ++ after → ∀ channel id l,
    (id, l) ∈ (replay before {}).listeners channel ↔ Subscribed before ⟨channel, id⟩ l
  active : ∀ before after, trace = before ++ after → ∀ h,
    (replay before {}).isActive h = true ↔ ∃ l, Subscribed before h l
  called : ∀ before h l snapshot after, trace = before ++ .called h l snapshot :: after →
    Subscribed before h l
  /-- The calls that listeners can go by are those that were made. -/
  calls : ∀ before after, trace = before ++ after →
    (replay before {}).calls = (before.filterMap Happening.call?).reverse
  /-- Subscribing gives the handle out under the name that was asked for. -/
  given : ∀ before name h l after, trace = before ++ .subscribed name h l :: after →
    (replay (before ++ [.subscribed name h l]) {}).handles.find? name = some h
  once : (trace.filterMap Happening.given?).Nodup
  /-- Ending a subscription takes away the listener with its handle, and leaves all others. -/
  ended : ∀ before h after, trace = before ++ .ended h :: after → ∀ channel,
    (replay (before ++ [.ended h]) {}).listeners channel =
      ((replay before {}).listeners channel).filter fun e => (⟨channel, e.1⟩ : Handle) ≠ h

theorem find?_subscribe {b : Switchboard κ} {channel : Nat} {c : Channel κ}
    (hopen : b.channel? channel = some c) (name : String) (l : Listener κ) :
    (b.subscribe channel name l).handles.find? name = some ⟨channel, c.nextId⟩ := by
  simp [subscribe, hopen]

theorem calls_after (b : Switchboard κ) (x : Happening κ) :
    (b.after x).calls = x.call?.toList ++ b.calls := by
  cases x with
  | subscribed name h l =>
    show (b.subscribe h.channel name l).calls = b.calls
    unfold subscribe
    split <;> rfl
  | ended h =>
    show (b.unsubscribe h).calls = b.calls
    unfold unsubscribe
    split <;> rfl
  | _ => rfl

/-- Every call is remembered, and nothing else. -/
theorem calls_replay (trace : List (Happening κ)) (b : Switchboard κ) :
    (replay trace b).calls = (trace.filterMap Happening.call?).reverse ++ b.calls := by
  induction trace generalizing b with
  | nil => rfl
  | cons x rest ih =>
    rw [replay_cons, ih, calls_after]
    cases hx : x.call? with
    | none => rw [List.filterMap_cons_none hx, Option.toList_none, List.nil_append]
    | some heard =>
      rw [List.filterMap_cons_some hx, List.reverse_cons, List.append_assoc, Option.toList_some]

theorem Regular.accounts {trace : List (Happening κ)} (h : Regular {} trace) : Accounts trace := by
  have hledger {before after : List (Happening κ)} (htrace : trace = before ++ after) :
      Ledger before (replay before {}) := by
    have hlawful := lawful_append.1 (htrace ▸ h.lawful)
    exact ledger_empty.replay hlawful.1
  have hfits {before after : List (Happening κ)} {x : Happening κ}
      (htrace : trace = before ++ x :: after) : (replay before {}).Fits x := by
    have hlawful := lawful_append.1 (htrace ▸ h.lawful)
    exact hlawful.2.1
  constructor
  case rounds => exact h.course
  case ascending => exact fun before after htrace => (hledger htrace).ascending
  case registered => exact fun before after htrace => (hledger htrace).registered
  case active =>
    intro before after htrace g
    rw [isActive_iff]
    exact exists_congr fun l => (hledger htrace).registered g.channel g.id l
  case called =>
    intro before g l snapshot after htrace
    exact ((hledger htrace).registered g.channel g.id l).1 (hfits htrace)
  case calls =>
    intro before after _
    rw [calls_replay]
    exact List.append_nil _
  case given =>
    intro before name g l after htrace
    obtain ⟨c, hopen, hid⟩ := hfits htrace
    rw [replay_append]
    show ((replay before {}).subscribe g.channel name l).handles.find? name = some g
    rw [find?_subscribe hopen, ← hid]
  case once => exact (hledger (List.append_nil trace).symm).once
  case ended =>
    intro before g after _ channel
    rw [replay_append]
    exact listeners_unsubscribe _ g channel

end Switchboard

namespace Hub

open Switchboard

/-- What happens when the channel of the service under a key is closed. -/
def silenced (h : Hub κ) (shelf : Shelf) (key : String) : List (Happening κ) :=
  ((h.service? shelf key).map fun s => .closed s.channel).toList

theorem replay_silenced (h : Hub κ) (shelf : Shelf) (key : String) :
    replay (h.silenced shelf key) h.board = (h.silence shelf key).board := by
  rw [board_silence, silenced]
  cases h.service? shelf key <;> rfl

theorem regular_silenced (h : Hub κ) (shelf : Shelf) (key : String) :
    h.board.Regular (h.silenced shelf key) := by
  rw [silenced]
  cases h.service? shelf key with
  | none => exact h.board.regular_nil
  | some s => exact regular_singleton trivial rfl

theorem heard_silenced (h : Hub κ) (shelf : Shelf) (key : String) :
    (h.silenced shelf key).filterMap Happening.heard? = [] := by
  rw [silenced]
  cases h.service? shelf key <;> rfl

section Deeds

variable [BEq κ]

/-- What happens on the switchboard when a deed is done. -/
def effects (h : Hub κ) : Deed κ → List (Happening κ)
  | .create key _ => h.silenced .active key ++ [.opened]
  | .request key => if (h.active.get? key).isSome then [] else [.opened]
  | .retire key => if (h.active.get? key).isSome then h.silenced .retired key else []
  | .drop shelf key => h.silenced shelf key
  | .subscribe shelf key name l =>
    ((h.service? shelf key).map fun s =>
      .subscribed name (h.board.nextHandle s.channel) l).toList
  | .unsubscribe handle => [.ended handle]
  | .operate shelf key op =>
    ((h.service? shelf key).map fun s =>
      notifications s.channel ((s.apply op).service.since s) h.board).getD []

/-- What happens while deeds are done, up to the first that overflows. -/
def happenings : List (Deed κ) → Hub κ → List (Happening κ)
  | [], _ => []
  | d :: rest, h =>
    let now := h.perform d
    h.effects d ++ if now.overflowed then [] else happenings rest now.hub

/-- The trace of one deed: it leads to the switchboard that the deed leaves, it is regular, and its
calls are what is heard. -/
structure Traced (h : Hub κ) (trace : List (Happening κ)) (r : Response κ) : Prop where
  board : replay trace h.board = r.hub.board
  regular : h.board.Regular trace
  heard : trace.filterMap Happening.heard? = r.lines.filter Line.isHeard

theorem traced_effects {h : Hub κ} (hw : h.Wired) (d : Deed κ) :
    h.Traced (h.effects d) (h.perform d) := by
  cases d with
  | create key options =>
    constructor
    · show replay (h.silenced .active key ++ [.opened]) h.board = _
      rw [replay_append, replay_silenced]
      exact (h.board_create key options).symm
    · exact (h.regular_silenced .active key).append (regular_singleton trivial rfl)
    · show (h.silenced .active key ++ [Happening.opened]).filterMap Happening.heard? = []
      rw [List.filterMap_append, heard_silenced]
      rfl
  | request key =>
    cases hs : h.active.get? key with
    | some s =>
      have hnothing : h.effects (.request key) = [] := by simp [effects, hs]
      rw [hnothing]
      exact ⟨congrArg Hub.board (request_of_some hs).symm, h.board.regular_nil, rfl⟩
    | none =>
      have hopened : h.effects (.request key) = [.opened] := by simp [effects, hs]
      rw [hopened]
      exact ⟨(board_request_of_none hs).symm, regular_singleton trivial rfl, rfl⟩
  | retire key =>
    cases hs : h.active.get? key with
    | some s =>
      have hclosed : h.effects (.retire key) = h.silenced .retired key := by simp [effects, hs]
      rw [hclosed]
      refine ⟨?_, h.regular_silenced .retired key, h.heard_silenced .retired key⟩
      rw [replay_silenced]
      exact (board_retire_of_some hs).symm
    | none =>
      have hnothing : h.effects (.retire key) = [] := by simp [effects, hs]
      rw [hnothing]
      exact ⟨(congrArg Hub.board (retire_of_none hs)).symm, h.board.regular_nil, rfl⟩
  | drop shelf key =>
    refine ⟨?_, h.regular_silenced shelf key, h.heard_silenced shelf key⟩
    show replay (h.silenced shelf key) h.board = (h.drop shelf key).board
    rw [replay_silenced, board_drop]
  | subscribe shelf key name l =>
    show h.Traced (Option.toList _) { hub := h.subscribe shelf key name l }
    rw [Hub.subscribe]
    cases hs : h.service? shelf key with
    | none => exact ⟨rfl, h.board.regular_nil, rfl⟩
    | some s =>
      have hfits := fits_nextHandle (hw.isOpen shelf key s hs) name l
      exact ⟨rfl, regular_singleton hfits rfl, rfl⟩
  | unsubscribe handle => exact ⟨rfl, regular_singleton trivial rfl, rfl⟩
  | operate shelf key op =>
    rw [perform, effects]
    cases hr : h.conduct shelf key op with
    | none =>
      have hs : h.service? shelf key = none := Option.map_eq_none_iff.1 hr
      rw [hs]
      exact ⟨rfl, h.board.regular_nil, rfl⟩
    | some result =>
      obtain ⟨o, lines, r⟩ := result
      obtain ⟨s, hs, rfl, htold⟩ := conduct_eq_some hr
      obtain ⟨hboard, hlines⟩ := Prod.ext_iff.1 htold
      rw [hs]
      refine ⟨?_, regular_notifications _ _ _, ?_⟩
      · exact (replay_notifications _ _ _).trans hboard.symm
      · exact (heard_notifications _ _ _).trans (congrArg (List.filter Line.isHeard) hlines.symm)

theorem traced_happenings {h : Hub κ} (hw : h.Wired) (deeds : List (Deed κ)) :
    h.Traced (happenings deeds h) (attend deeds h) := by
  induction deeds generalizing h with
  | nil => exact ⟨rfl, h.board.regular_nil, rfl⟩
  | cons d rest ih =>
    have hnow := traced_effects hw d
    rw [happenings, attend_cons]
    cases hflow : (h.perform d).overflowed with
    | true =>
      simp only [if_true, List.append_nil]
      exact hnow
    | false =>
      have hlater := ih (hw.perform d)
      simp only [Bool.false_eq_true, if_false]
      constructor
      · rw [replay_append, hnow.board]
        exact hlater.board
      · exact hnow.regular.append (hnow.board ▸ hlater.regular)
      · rw [List.filterMap_append, List.filter_append, hnow.heard, hlater.heard]

/-- What any deeds that are done on an empty hub come to, and what one more deed does then. -/
structure KeepsSubscriptions (empty : Hub κ) (deeds : List (Deed κ)) : Prop where
  board : replay (happenings deeds empty) {} = (attend deeds empty).hub.board
  heard : (happenings deeds empty).filterMap Happening.heard? =
    (attend deeds empty).lines.filter Line.isHeard
  accounts : Accounts (happenings deeds empty)
  /-- Subscribing to a service that is there registers the listener behind all others, under a handle
  that was never given out before. -/
  subscribes : ∀ shelf key name l s, (attend deeds empty).hub.service? shelf key = some s →
    ∃ handle, handle.channel = s.channel ∧
      handle ∉ (happenings deeds empty).filterMap Happening.given? ∧
      ((attend deeds empty).hub.subscribe shelf key name l).handle? name = some handle ∧
      ∀ channel, ((attend deeds empty).hub.subscribe shelf key name l).board.listeners channel =
        (attend deeds empty).hub.board.listeners channel ++
          if channel = s.channel then [(handle.id, l)] else []
  /-- Dropping a service ends the subscriptions to it and no other. -/
  drops : ∀ shelf key s, (attend deeds empty).hub.service? shelf key = some s →
    ∀ channel, ((attend deeds empty).hub.drop shelf key).board.listeners channel =
      if channel = s.channel then [] else (attend deeds empty).hub.board.listeners channel
  /-- Each notification of an operation is a notification in the trace, in order. -/
  announces : ∀ shelf key s op, (attend deeds empty).hub.service? shelf key = some s →
    ((attend deeds empty).hub.effects (.operate shelf key op)).filterMap Happening.announced? =
      ((s.apply op).service.since s).filterMap fun e => e.notified?.map (s.channel, ·)
  unheard : Unheard (attend deeds empty)
    (attend (deeds.filter fun d => !d.isSubscription) empty)

/-- Any deeds on a new hub, in any order, with listeners that end any subscriptions when they are
called. -/
theorem keepsSubscriptions_attend (machine : Machine κ) (options : Options κ)
    (deeds : List (Deed κ)) : KeepsSubscriptions { machine, options } deeds := by
  have hempty : Wired { machine, options : Hub κ } := wired_empty machine options
  have htraced := traced_happenings hempty deeds
  have hledger : Ledger (happenings deeds { machine, options })
      (attend deeds { machine, options }).hub.board :=
    htraced.board ▸ ledger_empty.replay htraced.regular.lawful
  have hwired := hempty.attend deeds
  constructor
  case board => exact htraced.board
  case heard => exact htraced.heard
  case accounts => exact htraced.regular.accounts
  case subscribes =>
    intro shelf key name l s hs
    obtain ⟨c, hopen⟩ := Option.isSome_iff_exists.1 (hwired.isOpen shelf key s hs)
    refine ⟨⟨s.channel, c.nextId⟩, rfl, fun hin => ?_, ?_, fun channel => ?_⟩
    · exact Nat.lt_irrefl _ (hledger.numbered _ hin c hopen)
    · rw [Hub.subscribe, hs]
      exact find?_subscribe hopen name l
    · rw [Hub.subscribe, hs]
      exact listeners_subscribe hopen name l channel
  case drops =>
    intro shelf key s hs channel
    rw [board_drop, board_silence, hs]
    exact listeners_close _ _ _
  case announces =>
    intro shelf key s op hs
    rw [effects, hs]
    exact announced_notifications _ _ _
  case unheard => exact (SameServices.refl _).attend deeds

end Deeds
end Hub
end TimedMachine
