import Sodp.GoRecovery

/-!
# The order of the records in the log

Handlers append after they have released the lock of the store, so the records of a history can
stand in any order. A value that was set last is found wherever its record stands. A deletion has
to come after the values that it deletes.
-/

namespace Sodp.GoServer
open ByteReader VersionedLog List Option

def history : StateStore → List Mutation → StateStore × List WalRecord
  | s, [] => (s, [])
  | s, m :: ms =>
    match m.run s with
    | (t, none) => history t ms
    | (t, some delta) =>
      ((history t ms).1, m.walRecord t delta.version :: (history t ms).2)

structure Tells (s t : StateStore) (rs : List WalRecord) : Prop where
  sorted : rs.Pairwise fun r q => r.change.version < q.change.version
  newer : ∀ r ∈ rs, s.global < r.change.version
  stored : ∀ key, t.stored key =
    ((changesOf key rs).getLast?.map VersionedLog.Change.entry?).getD (s.stored key)

theorem tells_history {s : StateStore} {ms : List Mutation}
    (hroom : s.global + ms.length < 2 ^ 64) : Tells s (history s ms).1 (history s ms).2 := by
  induction ms generalizing s with
  | nil => exact ⟨List.Pairwise.nil, nofun, fun _ => rfl⟩
  | cons m ms ih =>
    rw [length_cons] at hroom
    rw [history]
    rcases m.run_records s with heq | ⟨t, _, heq, hrecords⟩
    · rw [heq]
      exact ih (by omega)
    · rw [heq]
      have hnext : s.nextVersion = s.global + 1 := Nat.mod_eq_of_lt (by omega)
      have hglobal := hrecords.global
      obtain ⟨hsorted, hnewer, hstored⟩ := ih (s := t) (by omega)
      have hversion := hrecords.version
      dsimp only
      refine ⟨pairwise_cons.mpr ⟨fun q hq => ?_, hsorted⟩, ?_, fun key => ?_⟩
      · have := hnewer q hq
        omega
      · rw [forall_mem_cons]
        refine ⟨by omega, fun q hq => ?_⟩
        have := hnewer q hq
        omega
      · rw [hstored, hrecords.stored, changesOf_cons, hrecords.key]
        by_cases hkey : key = m.key
        · rw [if_pos hkey, if_pos hkey.symm, getLast?_cons]
          cases (changesOf key (history t ms).2).getLast? with
          | none => rfl
          | some => rfl
        · rw [if_neg hkey, if_neg (Ne.symm hkey)]

variable {key : String}

section Replay
variable {codec : Codec (List GoValue)} {c : Conversions} {records : List WalRecord}

def Disk.ofRecords (codec : Codec (List GoValue)) (records : List WalRecord) : Disk :=
  ⟨none, none, codec.encodeAll (records.map WalRecord.fields)⟩

theorem changes_ofRecords (h : codec.Delimited)
    (hrecords : ∀ r ∈ records, codec.Faithful r.fields) (hkey : key ≠ "") :
    (Disk.ofRecords codec records).changes codec c key = changesOf key records := by
  have hcalls : (Disk.ofRecords codec records).calls codec c =
      records.filterMap fun r => loadRecord c r.fields := filterMap_readAll h hrecords
  rw [Disk.changes, hcalls, filterMap_filterMap, changesOf]
  refine filterMap_congr fun r _ => ?_
  by_cases hempty : r.key = ""
  · have hnone : loadRecord c r.fields = none := by
      cases r with
      | set k version value | delete k version =>
        obtain rfl : k = "" := hempty
        rfl
    rw [hnone, hempty, if_neg (Ne.symm hkey), bind_none]
  · rw [loadRecord_fields c hempty, bind_some, WalRecord.change?_call]

def Settled (key : String) (records : List WalRecord) : Prop :=
  ∀ before version value after, records = before ++ .set key version value :: after →
    ∃ deleted, .delete key deleted ∈ after ∧ version ≤ deleted

theorem covers_changesOf {rs : List WalRecord} {version : UInt64} :
    covers (changesOf key rs) version.toNat = true ↔
      ∃ deleted, .delete key deleted ∈ rs ∧ version ≤ deleted := by
  rw [covers, List.any_eq_true]
  constructor
  · rintro ⟨_, hmem, herases⟩
    obtain ⟨r, hr, hkey, rfl⟩ := mem_changesOf.mp hmem
    cases r with
    | set => cases herases
    | delete k v =>
      obtain rfl : k = key := hkey
      exact ⟨v, hr, UInt64.le_iff_toNat_le.mpr (of_decide_eq_true herases)⟩
  · rintro ⟨deleted, hmem, hle⟩
    refine ⟨.delete deleted.toNat, mem_changesOf.mpr ⟨_, hmem, rfl, rfl⟩, ?_⟩
    exact decide_eq_true (UInt64.le_iff_toNat_le.mp hle)

theorem live_changesOf_eq_nil_iff (hpos : ∀ r ∈ records, 0 < r.change.version) :
    live (changesOf key records) = [] ↔ Settled key records := by
  rw [live_eq_nil_iff]
  constructor
  · intro h before version value after heq
    have hsplit : changesOf key records =
        changesOf key before ++ .set version.toNat value :: changesOf key after := by
      rw [heq, changesOf, filterMap_append, filterMap_cons]
      simp [WalRecord.key, WalRecord.change, changesOf]
    rcases h _ _ _ _ hsplit with hzero | hcovers
    · have hmem : .set key version value ∈ records :=
        heq ▸ mem_append_right _ mem_cons_self
      exact absurd hzero (hpos _ hmem).ne'
    · exact covers_changesOf.mp hcovers
  · intro h before version value after heq
    refine .inr ?_
    obtain ⟨front, _, hfront, -, hrest⟩ := filterMap_eq_append_iff.mp heq
    obtain ⟨skipped, r, tail, htail, -, hr, hafter⟩ := filterMap_eq_cons_iff.mp hrest
    split_ifs at hr with hkey
    cases r with
    | delete => cases hr
    | set k v =>
      obtain rfl : k = key := hkey
      cases hr
      have hrecords : records = (front ++ skipped) ++ .set k v value :: tail := by
        rw [hfront, htail, append_assoc]
      have hsettled := covers_changesOf.mpr (h _ _ _ _ hrecords)
      rwa [← hafter]

theorem Tells.replay_of_stored {t : StateStore} {rs : List WalRecord} (h : Tells .new t rs)
    (hperm : records.Perm rs) {e : ℕ × GoValue} (he : t.stored key = some e) :
    replay none (changesOf key records) = some e := by
  have hchanges : (changesOf key records).Perm (changesOf key rs) := hperm.filterMap _
  have hsorted : (changesOf key rs).Pairwise fun a b => a.version < b.version := by
    refine List.Pairwise.filterMap _ (fun r q hlt a ha b hb => ?_) h.sorted
    split_ifs at ha hb
    cases ha
    cases hb
    exact hlt
  rw [h.stored] at he
  cases hlast : (changesOf key rs).getLast? with
  | none =>
    rw [hlast] at he
    cases he
  | some last =>
    rw [hlast] at he
    obtain ⟨_, holder⟩ := getLast?_eq_some_iff.mp hlast
    have hmem : last ∈ changesOf key rs := mem_of_getLast? hlast
    obtain ⟨r, hr, -, hlastr⟩ := mem_changesOf.mp hmem
    cases last with
    | delete => cases he
    | set =>
      cases he
      refine replay_of_newest ?_ (hchanges.mem_iff.mpr hmem) fun change hchange => ?_
      · exact Nat.zero_lt_of_lt (hlastr ▸ h.newer r hr)
      · rw [hchanges.mem_iff, holder, mem_append, mem_singleton] at hchange
        rw [holder, pairwise_append] at hsorted
        rcases hchange with hold | hnew
        · exact .inr (hsorted.2.2 change hold _ (mem_singleton_self _))
        · exact .inl hnew

/-- A restart finds the entries of the store exactly if the values of each key that is gone are
followed by a later deletion. The empty key is not loaded. -/
theorem replay_any_order_iff (hcodec : codec.Delimited) {ms : List Mutation}
    (hroom : ms.length < 2 ^ 64) (hperm : records.Perm (history .new ms).2)
    (hfaithful : ∀ r ∈ records, codec.Faithful r.fields) :
    ((Disk.ofRecords codec records).restart codec c).entries = (history .new ms).1.entries ↔
      (history .new ms).1.entries.get? "" = none ∧
        ∀ key, key ≠ "" → (history .new ms).1.entries.get? key = none → Settled key records := by
  have htells : Tells .new (history .new ms).1 (history .new ms).2 :=
    tells_history (by rwa [StateStore.new, Nat.zero_add])
  set t := (history .new ms).1
  have hpos : ∀ r ∈ records, 0 < r.change.version := fun r hr =>
    htells.newer r (hperm.mem_iff.mp hr)
  have hgone : ∀ {s : StateStore} {key}, s.stored key = none ↔ s.entries.get? key = none :=
    map_eq_none_iff
  have hempty : ((Disk.ofRecords codec records).restart codec c).stored "" = none := by
    rw [stored_restart, changes_empty]
    rfl
  constructor
  · intro heq
    have hstored : ∀ key, ((Disk.ofRecords codec records).restart codec c).stored key =
        t.stored key := by
      intro key
      rw [StateStore.stored, StateStore.stored, heq]
    refine ⟨hgone.mp ((hstored "").symm.trans hempty), fun key hkey hnone => ?_⟩
    have hreplay := (hstored key).trans (hgone.mpr hnone)
    rw [stored_restart, changes_ofRecords hcodec hfaithful hkey, replay_eq_none_iff] at hreplay
    exact (live_changesOf_eq_nil_iff hpos).mp hreplay
  · rintro ⟨hnone, hsettled⟩
    refine StateStore.entries_eq_of_stored fun key => ?_
    by_cases hkey : key = ""
    · rw [hkey, hempty, hgone.mpr hnone]
    · rw [stored_restart, changes_ofRecords hcodec hfaithful hkey]
      cases hstored : t.stored key with
      | none =>
        rw [replay_eq_none_iff, live_changesOf_eq_nil_iff hpos]
        exact hsettled key hkey (hgone.mp hstored)
      | some => exact htells.replay_of_stored hperm hstored

end Replay

/-! ### Two orders -/

def setMutation (key value : String) : Mutation := .apply (fun _ => .sorted) key (.string value)

def setSetDeleted : List Mutation := [setMutation "k" "x", setMutation "m" "y", .delete "k"]

def deletedLast : List WalRecord :=
  [.set "m" 2 (.string "y"), .set "k" 1 (.string "x"), .delete "k" 3]

theorem settled_deletedLast (hkey : key ≠ "m") : Settled key deletedLast := by
  intro before version value after heq
  rcases before with _ | ⟨_, _ | ⟨_, _ | ⟨_, before⟩⟩⟩
  · cases heq
    exact absurd rfl hkey
  · cases heq
    exact ⟨3, mem_cons_self, by decide⟩
  · cases heq
  · cases before <;> cases heq

theorem deletion_last_replayed :
    ((Disk.ofRecords Msgpack.codec deletedLast).restart Msgpack.codec Journal.noFloats).entries =
      (history .new setSetDeleted).1.entries := by
  have hperm : deletedLast.Perm (history .new setSetDeleted).2 := List.Perm.swap _ _ _
  refine (replay_any_order_iff Msgpack.delimited_codec (by decide) hperm ?_).mpr
    ⟨rfl, fun key _ hnone => settled_deletedLast ?_⟩
  · change ∀ r ∈ [_, _, _], _
    simp only [forall_mem_cons, not_mem_nil, false_imp_iff, implies_true, and_true]
    exact ⟨Msgpack.delimited_codec.faithful rfl, Msgpack.delimited_codec.faithful rfl,
      Msgpack.delimited_codec.faithful rfl⟩
  · rintro rfl
    cases hnone

/-- The deletion has overtaken the value, and the value is back. -/
theorem overtaken_value_is_back :
    ((Disk.ofRecords Msgpack.codec [.delete "k" 2, .set "k" 1 (.string "x")]).restart Msgpack.codec
        Journal.noFloats).entries.keys = ["k"] ∧
      (history .new [setMutation "k" "x", .delete "k"]).1.entries.keys = [] ∧
      [WalRecord.delete "k" 2, .set "k" 1 (.string "x")].Perm
        (history .new [setMutation "k" "x", .delete "k"]).2 := by
  refine ⟨by decide +kernel, by decide +kernel, List.Perm.swap _ _ _⟩

end Sodp.GoServer
