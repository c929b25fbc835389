import Sodp.Replica
import Sodp.Server

/-!
# What requests do to a replica

The methods of the client that send frames, or change its tables without one: what
they leave of the cached values and the bindings, and which keys the server will
read out of the frames.
-/

namespace Sodp
open List Option
open OrderedMap hiding keys

inductive Asks : Frame → List String → Prop
  | watch {frame : Frame} {keys : List String} (htype : frame.frameType = .watch)
      (hkeys : SodpServer.requestedKeys frame.body = some keys) : Asks frame keys
  | resume {frame : Frame} {key : String} (htype : frame.frameType = .resume)
      (hkey : (frame.body.get? "state").bind Value.asStr = some key) : Asks frame [key]

variable {keys : List String}

theorem Asks.frameType_ne {frame : Frame} (h : Asks frame keys) :
    frame.frameType ≠ .call := by
  cases h with
  | watch htype _ | resume htype _ => simp [htype]

namespace Client.SodpClient

variable {c : SodpClient} {key : String} {params : Option Value}

section Bodies
variable (key : String) (keys : List String) (v : Value) (params : Option Value)

theorem requestedKeys_state :
    SodpServer.requestedKeys (withParams [("state", .string key)] params) = some [key] := by
  cases params <;>
    simp [SodpServer.requestedKeys, withParams, Value.ofFields, get?_insert, Value.asStr]

theorem requestedKeys_states :
    SodpServer.requestedKeys (withParams [("states", .array (keys.map .string))] params) =
      some keys := by
  have hstrings : (keys.map Value.string).filterMap Value.asStr = keys := by
    rw [filterMap_map]
    exact filterMap_some
  cases params <;>
    simp [SodpServer.requestedKeys, withParams, Value.ofFields, get?_insert,
      Value.asArray, hstrings]

theorem state_of_resume :
    ((withParams [("state", .string key), ("since_version", v)] params).get? "state").bind
      Value.asStr = some key := by
  cases params <;> simp [withParams, Value.ofFields, get?_insert, Value.asStr]

end Bodies

/-! ### Sending -/

structure SameTables (c c' : SodpClient) : Prop where
  watches : c'.watches = c.watches
  streamToKey : c'.streamToKey = c.streamToKey
  authenticated : c'.authenticated = c.authenticated

variable {c c' : SodpClient}

theorem SameTables.trans {c'' : SodpClient} (h : SameTables c c') (h' : SameTables c' c'') :
    SameTables c c'' :=
  ⟨h'.watches.trans h.watches, h'.streamToKey.trans h.streamToKey,
    h'.authenticated.trans h.authenticated⟩

theorem SameTables.valueAt (h : SameTables c c') (k : String) : c'.valueAt k = c.valueAt k := by
  rw [SodpClient.valueAt, h.watches, SodpClient.valueAt]

theorem sendWatch_asks (c : SodpClient) (key : String) (params : Option Value) :
    SameTables c (c.sendWatch key params).1 ∧ Asks (c.sendWatch key params).2 [key] :=
  ⟨⟨rfl, rfl, rfl⟩, .watch rfl (requestedKeys_state key params)⟩

theorem sendResume_asks (c : SodpClient) (key : String) (sinceVersion : ℕ)
    (params : Option Value) : SameTables c (c.sendResume key sinceVersion params).1 ∧
      Asks (c.sendResume key sinceVersion params).2 [key] :=
  ⟨⟨rfl, rfl, rfl⟩, .resume rfl (state_of_resume key _ params)⟩

theorem foldl_resubscribe (l : List (String × WatchEntry)) (acc : SodpClient × List Frame) :
    SameTables acc.1 (l.foldl resubscribe acc).1 ∧
    ∃ frames, (l.foldl resubscribe acc).2 = acc.2 ++ frames ∧ List.Forall₂ Asks frames
        ((l.filter fun watch => watch.2.callbacks ≠ 0).map fun watch => [watch.1]) := by
  induction l generalizing acc with
  | nil => exact ⟨⟨rfl, rfl, rfl⟩, [], (append_nil _).symm, .nil⟩
  | cons watch l ih =>
    rw [foldl_cons]
    obtain ⟨htables, frames, hframes, hasks⟩ := ih (resubscribe acc watch)
    rw [resubscribe] at htables hframes ⊢
    by_cases hcallbacks : watch.2.callbacks = 0
    · rw [if_pos hcallbacks] at htables hframes ⊢
      rw [filter_cons_of_neg (by simpa using hcallbacks)]
      exact ⟨htables, frames, hframes, hasks⟩
    · have hsent : SameTables acc.1 (if 0 < watch.2.version then
            acc.1.sendResume watch.1 watch.2.version watch.2.params
          else acc.1.sendWatch watch.1 watch.2.params).1 ∧
          Asks (if 0 < watch.2.version then
            acc.1.sendResume watch.1 watch.2.version watch.2.params
          else acc.1.sendWatch watch.1 watch.2.params).2 [watch.1] := by
        split_ifs
        · exact sendResume_asks ..
        · exact sendWatch_asks ..
      rw [if_neg hcallbacks] at htables hframes ⊢
      rw [filter_cons_of_pos (by simpa using hcallbacks), map_cons]
      refine ⟨hsent.1.trans htables, _ :: frames, ?_, .cons hsent.2 hasks⟩
      rw [hframes, append_assoc]
      rfl

theorem onReady_asks (c : SodpClient) : SameTables { c with authenticated := true } c.onReady.1 ∧
    ∃ keys : List String, List.Forall₂ Asks c.onReady.2 (keys.map fun k => [k]) ∧ keys.Nodup ∧
      ∀ k ∈ keys, (c.valueAt k).isSome := by
  obtain ⟨htables, _, hframes, hasks⟩ :=
    foldl_resubscribe c.watches.toList ({ c with authenticated := true }, [])
  refine ⟨htables,
    (c.watches.toList.filter fun watch => watch.2.callbacks ≠ 0).map Prod.fst, ?_, ?_, ?_⟩
  · rw [onReady, hframes, List.map_map]
    exact hasks
  · have hnodup : (c.watches.toList.map Prod.fst).Nodup := by
      rw [map_fst_toList]
      exact c.watches.sorted.imp ne_of_lt
    exact hnodup.sublist (filter_sublist.map _)
  · intro k hk
    obtain ⟨watch, hwatch, rfl⟩ := mem_map.mp hk
    have hentry := (mem_toList _ _ _).mp (mem_filter.mp hwatch).1
    rw [valueAt, hentry]
    rfl

/-! ### Registering callbacks -/

@[simp] theorem valueAt_register (c : SodpClient) (params : Option Value) (key k : String) :
    (c.register params key).valueAt k =
      if k = key then some ((c.valueAt key).getD .null) else c.valueAt k := by
  rw [register, valueAt_setEntry]
  simp only [valueAt]
  cases c.watches.get? key <;> rfl

theorem valueAt_foldl_register (keys : List String) (c : SodpClient) (k : String) :
    (keys.foldl (register · params) c).valueAt k =
      if k ∈ keys then some ((c.valueAt k).getD .null) else c.valueAt k := by
  induction keys generalizing c with
  | nil => rfl
  | cons key keys ih =>
    rw [foldl_cons, ih, valueAt_register]
    by_cases hk : k = key <;> simp [hk]

structure Registered (keys : List String) (c c' : SodpClient) : Prop where
  streamToKey : c'.streamToKey = c.streamToKey
  authenticated : c'.authenticated = c.authenticated
  valueAt : ∀ k, c'.valueAt k =
    if k ∈ keys then some ((c.valueAt k).getD .null) else c.valueAt k

theorem Registered.send {c'' : SodpClient} (h : Registered keys c c')
    (h' : SameTables c' c'') : Registered keys c c'' :=
  ⟨h'.streamToKey.trans h.streamToKey, h'.authenticated.trans h.authenticated,
    fun k => (h'.valueAt k).trans (h.valueAt k)⟩

theorem Registered.valueAt_of_isSome {k : String} (h : Registered keys c c')
    (hk : (c.valueAt k).isSome) : c'.valueAt k = c.valueAt k := by
  obtain ⟨v, hv⟩ := isSome_iff_exists.mp hk
  rw [h.valueAt, hv]
  split_ifs <;> rfl

theorem registered_foldl (keys : List String) (c : SodpClient) :
    Registered keys c (keys.foldl (register · params) c) := by
  refine ⟨?_, ?_, valueAt_foldl_register keys c⟩
  · induction keys generalizing c with
    | nil => rfl
    | cons key keys ih => exact ih (c.register params key)
  · induction keys generalizing c with
    | nil => rfl
    | cons key keys ih => exact ih (c.register params key)

theorem watch_asks (c : SodpClient) (key : String) (params : Option Value) :
    Registered [key] c (c.watch key params).1 ∧ ((c.watch key params).2 = [] ∨
      c.valueAt key = none ∧ ∃ frame, (c.watch key params).2 = [frame] ∧ Asks frame [key]) := by
  have hregister : Registered [key] c (c.register params key) := registered_foldl [key] c
  rw [watch]
  split_ifs with hsend
  · obtain ⟨htables, hasks⟩ := sendWatch_asks (c.register params key) key params
    refine ⟨hregister.send htables, .inr ⟨?_, _, rfl, hasks⟩⟩
    rw [valueAt, isNone_iff_eq_none.mp hsend.1]
    rfl
  · exact ⟨hregister, .inl rfl⟩

theorem watchMany_asks (c : SodpClient) (keys : List String) (params : Option Value) :
    Registered keys c (c.watchMany keys params).1 ∧ ((c.watchMany keys params).2 = [] ∨
      ∃ frame, (c.watchMany keys params).2 = [frame] ∧ Asks frame keys) := by
  have hregister : Registered keys c (keys.foldl (register · params) c) := registered_foldl keys c
  rw [watchMany]
  split_ifs
  · exact ⟨hregister.send ⟨rfl, rfl, rfl⟩,
      .inr ⟨_, rfl, .watch rfl (requestedKeys_states keys params)⟩⟩
  · exact ⟨hregister, .inl rfl⟩

theorem unsubscribe_valueAt (c : SodpClient) (key k : String) :
    (c.unsubscribe key).valueAt k = c.valueAt k := by
  rw [unsubscribe]
  cases hentry : c.watches.get? key with
  | none => rfl
  | some =>
    rw [valueAt_setEntry]
    split_ifs with hk
    · rw [hk, valueAt, hentry]
      rfl
    · rfl

theorem unsubscribe_streamToKey (c : SodpClient) (key : String) :
    (c.unsubscribe key).streamToKey = c.streamToKey := by
  rw [unsubscribe]
  cases c.watches.get? key <;> rfl

theorem unsubscribe_authenticated (c : SodpClient) (key : String) :
    (c.unsubscribe key).authenticated = c.authenticated := by
  rw [unsubscribe]
  cases c.watches.get? key <;> rfl

/-! ### Giving up a key -/

structure Dropped (key : String) (c c' : SodpClient) : Prop where
  authenticated : c'.authenticated = c.authenticated
  valueAt : ∀ k, c'.valueAt k = if k = key then none else c.valueAt k
  streamToKey : ∀ streamId, c'.streamToKey.get? streamId = c.streamToKey.get? streamId ∨
    c'.streamToKey.get? streamId = none ∧ c.streamToKey.get? streamId = some key

theorem dropped_unbind (c : SodpClient) (key : String) :
    Dropped key c (unbind { c with watches := c.watches.erase key } key) := by
  have herase : ∀ k, ((c.watches.erase key).get? k).map WatchEntry.value =
      if k = key then none else c.valueAt k := by
    intro k
    rw [get?_erase]
    split_ifs <;> rfl
  rw [unbind]
  cases hfind : c.streamToKey.toList.find? fun b => b.2 = key with
  | none => exact ⟨rfl, herase, fun _ => .inl rfl⟩
  | some b =>
    refine ⟨rfl, herase, fun streamId => ?_⟩
    change (c.streamToKey.erase b.1).get? streamId = _ ∨
      (c.streamToKey.erase b.1).get? streamId = none ∧ _
    rw [get?_erase]
    split_ifs with hb
    · right
      have hmem := (mem_toList _ b.1 b.2).mp (mem_of_find?_eq_some hfind)
      have hkey : b.2 = key := by simpa using find?_some hfind
      rw [hb, hmem, hkey]
      exact ⟨rfl, rfl⟩
    · exact .inl rfl

theorem unwatch_drops (c : SodpClient) (key : String) : Dropped key c (c.unwatch key).1 ∧
    ((c.unwatch key).2 = [] ∧ (c.valueAt key = none ∨ c.authenticated = false) ∨
      ∃ frame, (c.unwatch key).2 = [frame] ∧ frame.frameType = .unwatch ∧
        SodpServer.requestedKeys frame.body = some [key]) := by
  rw [unwatch]
  by_cases hnone : (c.watches.get? key).isNone
  · have hvalue : c.valueAt key = none := by
      rw [valueAt, isNone_iff_eq_none.mp hnone]
      rfl
    rw [if_pos hnone]
    refine ⟨⟨rfl, fun k => ?_, fun _ => .inl rfl⟩, .inl ⟨rfl, .inl hvalue⟩⟩
    split_ifs with hk
    · rw [hk, hvalue]
    · rfl
  · rw [if_neg hnone]
    by_cases hauth : c.authenticated
    · simp only [if_pos hauth]
      obtain ⟨hsame, hvalue, hstream⟩ := dropped_unbind { c with nextSeq := c.nextSeq + 1 } key
      exact ⟨⟨hsame, hvalue, hstream⟩, .inr ⟨_, rfl, rfl, requestedKeys_state key none⟩⟩
    · simp only [if_neg hauth]
      exact ⟨dropped_unbind c key, .inl ⟨trivial, .inr (by simpa using hauth)⟩⟩

variable {σ : ℕ → String}

theorem Dropped.boundBy {n : ℕ} (h : Dropped key c c') (hbound : c.BoundBy σ n) :
    c'.BoundBy σ n := by
  intro streamId k hk
  rcases h.streamToKey streamId with hs | ⟨hs, -⟩
  · exact hbound streamId k (hs ▸ hk)
  · rw [hs] at hk
    cases hk

theorem Dropped.agreeOn {n : ℕ} {k : String} (h : Dropped key c c')
    (hbound : c.BoundBy σ n) (hk : k ≠ key) : AgreeOn σ k c c' := by
  refine ⟨by rw [h.valueAt, if_neg hk], fun streamId hs => ?_⟩
  rcases h.streamToKey streamId with hsame | ⟨-, hkey⟩
  · exact hsame
  · exact absurd (hs.symm.trans (hbound streamId key hkey).2) hk

theorem onReady_frameType (c : SodpClient) : ∀ frame ∈ c.onReady.2, frame.frameType ≠ .call := by
  obtain ⟨-, keys, hasks, -⟩ := c.onReady_asks
  generalize c.onReady.2 = frames, (keys.map fun k => [k]) = asked at hasks
  induction hasks with
  | nil => simp
  | cons hasks _ ih => exact forall_mem_cons.mpr ⟨hasks.frameType_ne, ih⟩

theorem watch_frameType (c : SodpClient) (key : String) (params : Option Value) :
    ∀ frame ∈ (c.watch key params).2, frame.frameType ≠ .call := by
  rcases (c.watch_asks key params).2 with hnil | ⟨-, frame, hframe, hasks⟩
  · simp [hnil]
  · simpa [hframe] using hasks.frameType_ne

theorem watchMany_frameType (c : SodpClient) (keys : List String) (params : Option Value) :
    ∀ frame ∈ (c.watchMany keys params).2, frame.frameType ≠ .call := by
  rcases (c.watchMany_asks keys params).2 with hnil | ⟨frame, hframe, hasks⟩
  · simp [hnil]
  · simpa [hframe] using hasks.frameType_ne

theorem unwatch_frameType (c : SodpClient) (key : String) :
    ∀ frame ∈ (c.unwatch key).2, frame.frameType ≠ .call := by
  rcases (c.unwatch_drops key).2 with ⟨hnil, -⟩ | ⟨frame, hframe, htype, -⟩
  · simp [hnil]
  · simp [hframe, htype]

end Client.SodpClient

end Sodp
