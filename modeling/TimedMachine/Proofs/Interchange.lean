import TimedMachine.History.Json
import TimedMachine.Proofs.Overlay
import TimedMachine.Proofs.Stamps

/-!
Histories that are written and read again. What is written of a time, of a record and of a history is
read as it was; the stamps of the records must be ones that can be read, and those of records that
were read are. So a history comes back from its JSON form with its limit and its records, and one that
was itself read from JSON always does (`ofJson?_toJson_same`).
-/
namespace TimedMachine

namespace Json

theorem natBelow?_num {bound n : Nat} (h : n < bound) : natBelow? bound (.num n) = some n := by
  have hn : (0 : Int) ≤ n ∧ (n : Int) < bound := by omega
  rw [natBelow?, if_pos hn, Int.toNat_natCast]

theorem lt_of_natBelow? {bound n : Nat} {json : Json} (h : natBelow? bound json = some n) :
    n < bound := by
  unfold natBelow? at h
  split at h
  · split at h
    · obtain rfl := Option.some.inj h
      omega
    · cases h
  · cases h

end Json

namespace Duration

theorem ofJsonParts?_eq_some {a b : Json} {secs nanos : Nat} {d : Duration}
    (hsecs : a.natBelow? 18446744073709551616 = some secs)
    (hnanos : b.natBelow? 4294967296 = some nanos) (hd : ofParts? secs nanos = some d) :
    ofJsonParts? a b = some d :=
  Option.bind_eq_some_iff.2 ⟨secs, hsecs, Option.bind_eq_some_iff.2 ⟨nanos, hnanos, hd⟩⟩

theorem ofJson?_obj (nanos secs : Json) :
    ofJson? (.obj [("nanos", nanos), ("secs", secs)]) = ofJsonParts? secs nanos := by
  simp [ofJson?, List.lookup_cons]

theorem ofJson?_toJson (d : Duration) : ofJson? d.toJson = some d := by
  have hlt := d.nanos_lt
  have hsecs : d.secs < 18446744073709551616 := by
    unfold secs
    omega
  have hsubsec : d.subsec < 4294967296 := by
    unfold subsec
    omega
  have hnanos : d.secs * 1000000000 + d.subsec = d.nanos := by
    unfold secs subsec
    omega
  have hparts : ofParts? d.secs d.subsec = some d := by
    unfold ofParts? ofNanos?
    rw [dif_pos (hnanos ▸ hlt), Option.some.injEq]
    exact ext hnanos
  have hkeys : ["nanos", "secs"].Pairwise (· < ·) := by decide
  have hjson : d.toJson = .obj [("nanos", .num d.subsec), ("secs", .num d.secs)] :=
    Json.ofMembers_of_ordered hkeys
  rw [hjson, ofJson?_obj]
  exact ofJsonParts?_eq_some (Json.natBelow?_num hsecs) (Json.natBelow?_num hsubsec) hparts

end Duration

namespace Record

theorem ofJson?_toJson {r : Record Instant} (h : r.stamp.Readable) : ofJson? r.toJson = some r := by
  have hkeys : ["at", "event", "from", "timestamp", "to"].Pairwise (· < ·) := by decide
  have hjson : r.toJson = .obj
      [("at", r.clock.toJson), ("event", .str r.event), ("from", .str r.source),
        ("timestamp", .str r.stamp.text), ("to", .str r.target)] :=
    Json.ofMembers_of_ordered hkeys
  rw [hjson]
  simp [ofJson?, ofFields?, List.lookup_cons, Json.str?, Duration.ofJson?_toJson,
    Instant.ofText?_text h]

theorem readable_of_ofFields? {source target event clock stamp : Json} {r : Record Instant}
    (h : ofFields? source target event clock stamp = some r) : r.stamp.Readable := by
  simp only [ofFields?, Option.bind_eq_bind, Option.bind_eq_some_iff] at h
  obtain ⟨_, -, _, -, _, -, _, -, _, -, _, hstamp, hr⟩ := h
  obtain rfl := Option.some.inj hr
  exact Instant.readable_of_read hstamp

theorem readable_of_ofJson? {json : Json} {r : Record Instant} (h : ofJson? json = some r) :
    r.stamp.Readable := by
  unfold ofJson? at h
  split at h
  · simp only [Option.bind_eq_bind, Option.bind_eq_some_iff] at h
    obtain ⟨_, -, _, -, _, -, _, -, _, -, hr⟩ := h
    exact readable_of_ofFields? hr
  · exact readable_of_ofFields? h
  · cases h

end Record

namespace History

theorem mapM_ofJson?_toJson {rs : List (Record Instant)} (h : ∀ r ∈ rs, r.stamp.Readable) :
    (rs.map Record.toJson).mapM Record.ofJson? = some rs := by
  induction rs with
  | nil => rfl
  | cons r rest ih =>
    have hfirst := Record.ofJson?_toJson (h r List.mem_cons_self)
    have hrest := ih fun s hs => h s (List.mem_cons_of_mem r hs)
    simp [hfirst, hrest]

theorem readable_of_mapM {items : List Json} {rs : List (Record Instant)}
    (h : items.mapM Record.ofJson? = some rs) : ∀ r ∈ rs, r.stamp.Readable := by
  induction items generalizing rs with
  | nil =>
    obtain rfl := Option.some.inj h
    simp
  | cons item rest ih =>
    simp only [List.mapM_cons, Option.bind_eq_bind, Option.bind_eq_some_iff] at h
    obtain ⟨first, hfirst, others, hothers, hrs⟩ := h
    obtain rfl := Option.some.inj hrs
    intro r hr
    rcases List.mem_cons.1 hr with rfl | hr
    · exact Record.readable_of_ofJson? hfirst
    · exact ih hothers r hr

/-- A limit that fits in 64 bits, and stamps that can be read. -/
structure Writable (h : History Instant) : Prop where
  limit : h.limit < 18446744073709551616
  stamps : ∀ r ∈ h.records, r.stamp.Readable

theorem ofJson?_obj (limit transitions : Json) :
    ofJson? (.obj [("limit", limit), ("transitions", transitions)]) =
      ofFields? limit transitions := by
  simp [ofJson?, List.lookup_cons]

theorem Writable.ofJson?_toJson {h : History Instant} (hw : h.Writable) :
    ofJson? h.toJson = some { limit := h.limit, kept := .ofList h.records } := by
  have hkeys : ["limit", "transitions"].Pairwise (· < ·) := by decide
  have hjson : h.toJson = .obj
      [("limit", .num h.limit), ("transitions", .arr (h.records.map Record.toJson))] :=
    Json.ofMembers_of_ordered hkeys
  rw [hjson, ofJson?_obj, ofFields?, Option.bind_eq_bind, Option.bind_eq_some_iff]
  refine ⟨h.limit, Json.natBelow?_num hw.limit, ?_⟩
  simp [mapM_ofJson?_toJson hw.stamps]

theorem writable_of_ofFields? {limit transitions : Json} {h : History Instant}
    (hh : ofFields? limit transitions = some h) : h.Writable := by
  simp only [ofFields?, Option.bind_eq_bind, Option.bind_eq_some_iff] at hh
  obtain ⟨limit, hlimit, hh⟩ := hh
  split at hh
  · simp only [Option.bind_eq_some_iff] at hh
    obtain ⟨rs, hrs, hh⟩ := hh
    obtain rfl := Option.some.inj hh
    refine ⟨Json.lt_of_natBelow? hlimit, fun r hr => readable_of_mapM hrs r ?_⟩
    simpa [records] using hr
  · cases hh

theorem writable_of_ofJson? {json : Json} {h : History Instant} (hh : ofJson? json = some h) :
    h.Writable := by
  unfold ofJson? at hh
  split at hh
  · simp only [Option.bind_eq_bind, Option.bind_eq_some_iff] at hh
    obtain ⟨_, -, _, -, hh⟩ := hh
    exact writable_of_ofFields? hh
  · exact writable_of_ofFields? hh
  · cases hh

theorem Writable.exists_ofJson?_toJson {h : History Instant} (hw : h.Writable) :
    ∃ r, ofJson? h.toJson = some r ∧ r.limit = h.limit ∧ r.records = h.records :=
  ⟨_, hw.ofJson?_toJson, rfl, Queue.toList_ofList _⟩

/-- A history comes back from its JSON form with its limit and its records if its stamps can be read;
all instants of the years with four digits can that are in no leap second. A history that was itself
read from JSON always comes back. -/
theorem ofJson?_toJson_same :
    (∀ i : Instant, 0 ≤ i.date.year → i.date.year ≤ 9999 → i.nanos < 1000000000 → i.Readable) ∧
    (∀ h : History Instant, h.limit < 18446744073709551616 →
      (∀ r ∈ h.records, r.stamp.Readable) →
      ∃ r, ofJson? h.toJson = some r ∧ r.limit = h.limit ∧ r.records = h.records) ∧
    (∀ json h, ofJson? json = some h →
      ∃ r, ofJson? h.toJson = some r ∧ r.limit = h.limit ∧ r.records = h.records) := by
  refine ⟨fun i hfirst hlast hnanos => ?_, fun h hlimit hstamps => ?_, fun json h hh => ?_⟩
  · exact Instant.readable_of_plain ⟨hfirst, hlast⟩ hnanos
  · exact Writable.exists_ofJson?_toJson ⟨hlimit, hstamps⟩
  · exact (writable_of_ofJson? hh).exists_ofJson?_toJson

/-- A history with more records than its limit and with a note that is none of its fields. The stamp of
its first record is of a leap day at an offset where the next day has begun in UTC, and the nanoseconds
of the virtual time of its second record carry. -/
def travelledJson : Json :=
  .obj
    [("limit", .num 1), ("note", .null),
      ("transitions", .arr
        [.obj [("at", .obj [("nanos", .num 0), ("secs", .num 0)]), ("event", .str "leave"),
            ("from", .str "home"), ("timestamp", .str "2024-02-29T23:30:00.5-02:00"),
            ("to", .str "away")],
          .arr [.str "away", .str "home", .str "return",
            .obj [("nanos", .num 2500000000), ("secs", .num 3)],
            .str "0000-12-31 23:59:59.123456789Z"]])]

def travelled : History Instant where
  limit := 1
  kept := .ofList
    [⟨"home", "away", "leave", .zero, ⟨1709256600, 500000000⟩⟩,
      ⟨"away", "home", "return", ⟨5500000000, by decide⟩, ⟨-62135596801, 123456789⟩⟩]

theorem ofJson?_travelledJson : ofJson? travelledJson = some travelled ∧
    travelled.records.map (fun r => r.stamp.text) =
      ["2024-03-01T01:30:00.500Z", "0000-12-31T23:59:59.123456789Z"] ∧
    ∃ r, ofJson? travelled.toJson = some r ∧ r.limit = 1 ∧ r.records = travelled.records := by
  have hread : ofJson? travelledJson = some travelled := rfl
  exact ⟨hread, by decide +kernel, ofJson?_toJson_same.2.2 travelledJson travelled hread⟩

end History
end TimedMachine
