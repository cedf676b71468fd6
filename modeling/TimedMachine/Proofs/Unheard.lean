import TimedMachine.Proofs.Wiring

/-!
Services do not know who listens to them. Leaving out every deed that begins or ends a subscription
leaves all services as they are, with their clocks, timers, histories and journals, and the notes of
all functions that are called (`SameServices.attend`). What is kept between the two runs is that the
services are the same and that new ones get the same channels.
-/
namespace TimedMachine

variable {κ : Type}

/-- The deed begins or ends a subscription. -/
def Deed.isSubscription : Deed κ → Bool
  | .subscribe .. | .unsubscribe _ => true
  | _ => false

namespace Hub

open Switchboard

/-- Two hubs with the same services, whatever their subscriptions. -/
structure SameServices (h k : Hub κ) : Prop where
  machine : k.machine = h.machine
  options : k.options = h.options
  active : k.active = h.active
  retired : k.retired = h.retired
  channels : k.board.channels.length = h.board.channels.length

/-- What comes of deeds is the same, apart from who listens. -/
structure Unheard (r u : Response κ) : Prop where
  services : SameServices r.hub u.hub
  overflowed : u.overflowed = r.overflowed
  notes : u.lines.filterMap Line.note? = r.lines.filterMap Line.note?

namespace SameServices

variable {h k : Hub κ}

theorem refl (h : Hub κ) : SameServices h h := ⟨rfl, rfl, rfl, rfl, rfl⟩

theorem trans {j : Hub κ} (hk : SameServices h k) (hj : SameServices k j) : SameServices h j :=
  ⟨hj.machine.trans hk.machine, hj.options.trans hk.options, hj.active.trans hk.active,
    hj.retired.trans hk.retired, hj.channels.trans hk.channels⟩

theorem symm (hk : SameServices h k) : SameServices k h :=
  ⟨hk.machine.symm, hk.options.symm, hk.active.symm, hk.retired.symm, hk.channels.symm⟩

/-- The switchboards may change, as long as no channels are added. -/
theorem withBoards (hsame : SameServices h k) {b c : Switchboard κ}
    (hb : b.channels.length = h.board.channels.length)
    (hc : c.channels.length = k.board.channels.length) :
    SameServices { h with board := b } { k with board := c } :=
  ⟨hsame.machine, hsame.options, hsame.active, hsame.retired,
    hc.trans (hsame.channels.trans hb.symm)⟩

theorem registry (hsame : SameServices h k) (shelf : Shelf) : k.registry shelf = h.registry shelf := by
  cases shelf with
  | active => exact hsame.active
  | retired => exact hsame.retired

theorem service? (hsame : SameServices h k) : k.service? = h.service? := by
  funext shelf key
  rw [Hub.service?, hsame.registry]
  rfl

theorem setRegistry (hsame : SameServices h k) (r : Registry κ) (shelf : Shelf) :
    SameServices (h.setRegistry r shelf) (k.setRegistry r shelf) := by
  cases shelf with
  | active => exact ⟨hsame.machine, hsame.options, rfl, hsame.retired, hsame.channels⟩
  | retired => exact ⟨hsame.machine, hsame.options, hsame.active, rfl, hsame.channels⟩

theorem silence (hsame : SameServices h k) (shelf : Shelf) (key : String) :
    SameServices (h.silence shelf key) (k.silence shelf key) := by
  unfold Hub.silence
  rw [hsame.service?]
  split
  · exact hsame
  · exact hsame.withBoards List.length_set List.length_set

theorem create (hsame : SameServices h k) (key : String) (options : Options κ) :
    SameServices (h.create key options).2 (k.create key options).2 := by
  obtain ⟨hmachine, hoptions, hactive, hretired, hchannels⟩ := hsame.silence .active key
  refine ⟨hmachine, hoptions, ?_, hretired, ?_⟩
  · simp only [Hub.create, Service.host, openChannel, hmachine, hactive, hchannels]
  · simp only [board_create, openChannel, List.length_append, hchannels]

theorem request (hsame : SameServices h k) (key : String) :
    SameServices (h.request key).2 (k.request key).2 := by
  cases hs : h.active.get? key with
  | some s =>
    rw [request_of_some hs, request_of_some (hsame.active ▸ hs)]
    exact hsame
  | none =>
    have hs' : k.active.get? key = none := hsame.active ▸ hs
    refine ⟨hsame.machine, hsame.options, ?_, hsame.retired, ?_⟩
    · simp only [Hub.request, Registry.request, Service.host, openChannel, hs, hsame.machine,
        hsame.options, hsame.active, hsame.channels]
    · simp only [board_request_of_none hs, board_request_of_none hs', openChannel,
        List.length_append, hsame.channels]

theorem retire (hsame : SameServices h k) (key : String) :
    SameServices (h.retire key).2 (k.retire key).2 := by
  unfold Hub.retire
  rw [hsame.active]
  split
  · exact ⟨hsame.machine, hsame.options, rfl, hsame.retired, hsame.channels⟩
  · have hsilence := hsame.silence .retired key
    refine ⟨hsilence.machine, hsilence.options, rfl, ?_, hsilence.channels⟩
    show (k.silence .retired key).retired.put key _ = (h.silence .retired key).retired.put key _
    rw [hsilence.retired]

theorem drop (hsame : SameServices h k) (shelf : Shelf) (key : String) :
    SameServices (h.drop shelf key) (k.drop shelf key) := by
  rw [Hub.drop, Hub.drop, hsame.registry]
  exact (hsame.silence shelf key).setRegistry _ shelf

variable [BEq κ]

/-- A subscription that begins or ends touches no service. -/
theorem perform_of_isSubscription (h : Hub κ) {d : Deed κ} (hd : d.isSubscription = true) :
    SameServices h (h.perform d).hub ∧ (h.perform d).lines = [] ∧
      (h.perform d).overflowed = false := by
  cases d with
  | subscribe shelf key name l =>
    refine ⟨?_, rfl, rfl⟩
    show SameServices h (h.subscribe shelf key name l)
    unfold Hub.subscribe
    split
    · exact .refl h
    · exact (refl h).withBoards rfl (h.board.sameChannels_subscribe _ name l).length
  | unsubscribe handle =>
    exact ⟨(refl h).withBoards rfl (h.board.sameChannels_unsubscribe handle).length, rfl, rfl⟩
  | _ => cases hd

/-- Listeners make no difference to what an operation does to its service. -/
theorem conduct (hsame : SameServices h k) (shelf : Shelf) (key : String) (op : Service.Operation) :
    Unheard (h.perform (.operate shelf key op)) (k.perform (.operate shelf key op)) := by
  rw [perform, perform, Hub.conduct, Hub.conduct, hsame.service?, hsame.registry]
  cases h.service? shelf key with
  | none => exact ⟨hsame, rfl, rfl⟩
  | some s =>
    refine ⟨?_, rfl, ?_⟩
    · refine (hsame.withBoards ?_ ?_).setRegistry _ shelf
      · exact (h.board.sameChannels_relay _ _).length
      · exact (k.board.sameChannels_relay _ _).length
    · exact (notes_relay _ _ _).trans (notes_relay _ _ _).symm

/-- One deed comes to the same in both hubs. -/
theorem perform (hsame : SameServices h k) {d : Deed κ} (hd : d.isSubscription = false) :
    Unheard (h.perform d) (k.perform d) := by
  cases d with
  | create key options => exact ⟨hsame.create key options, rfl, rfl⟩
  | request key => exact ⟨hsame.request key, rfl, rfl⟩
  | retire key => exact ⟨hsame.retire key, rfl, rfl⟩
  | drop shelf key => exact ⟨hsame.drop shelf key, rfl, rfl⟩
  | operate shelf key op => exact hsame.conduct shelf key op
  | subscribe => cases hd
  | unsubscribe => cases hd

/-- Leaving out all subscriptions does not change what the services do. -/
theorem attend (hsame : SameServices h k) (deeds : List (Deed κ)) :
    Unheard (attend deeds h) (attend (deeds.filter fun d => !d.isSubscription) k) := by
  induction deeds generalizing h k with
  | nil => exact ⟨hsame, rfl, rfl⟩
  | cons d rest ih =>
    cases hd : d.isSubscription with
    | true =>
      obtain ⟨htouched, hlines, hflow⟩ := perform_of_isSubscription h hd
      have hrest := ih (htouched.symm.trans hsame)
      rw [List.filter_cons_of_neg (by simp [hd]), attend_cons, hflow, hlines]
      exact ⟨hrest.services, hrest.overflowed, hrest.notes⟩
    | false =>
      have hnow := hsame.perform hd
      rw [List.filter_cons_of_pos (by simp [hd]), attend_cons, attend_cons, hnow.overflowed]
      split
      · exact hnow
      · have hrest := ih hnow.services
        refine ⟨hrest.services, hrest.overflowed, ?_⟩
        rw [List.filterMap_append, List.filterMap_append, hnow.notes, hrest.notes]

end SameServices

end Hub
end TimedMachine
