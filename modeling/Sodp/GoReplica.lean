import Sodp.GoApply
import Sodp.GoHandlers
import Sodp.Replica

/-!
# Changes of the Go store at a TypeScript client

The delta of a change brings a client to the new value if every value in it arrives and names its
place. A value that is not a map is sent as a whole. An append starts an array where the client has
none, but not inside an object, and one removal at the head is all that a trim sends.
-/

namespace Sodp.GoServer
open OrderedMap List Option GoServer.StateStore
open Client (maxArrayLength)

def Mutation.Shown (s : StateStore) : Mutation → Prop
  | .apply _ key value =>
    if (s.get key).1.isMap = true ∧ value.isMap = true then
      (s.get key).1.toJson.AllKeys PathKey ∧ value.toJson.AllKeys PathKey ∧
        Transmits (s.get key).1 value
    else value.isEmpty = false
  | .append key element maxLen =>
    (s.get key).1.isMap = false ∧ element.isEmpty = false ∧
      (StateStore.sliceOf (s.get key).1).length < maxArrayLength ∧
      (0 < maxLen → (StateStore.sliceOf (s.get key).1).length ≤ maxLen)
  | .delete _ => True

theorem wire_of_not_empty {kind : DeltaOpKind} {path : String} {value : GoValue}
    (h : value.isEmpty = false) :
    (DeltaOp.wire ⟨kind, path, value⟩) = ⟨kind, path, some value.toJson⟩ := by
  rw [DeltaOp.wire, h]
  rfl

theorem client_update_root (state : JsValue) (v : Value) :
    Client.applyOps state [⟨.update, "/", some v⟩] = .ok (.ofJson v) := rfl

theorem client_remove_root (state : JsValue) (v : Option Value) :
    Client.applyOps state [⟨.remove, "/", v⟩] = .ok .null := rfl

/-! ### Appending -/

theorem ofJson_slice (xs : List GoValue) :
    JsValue.ofJson (GoValue.slice xs).toJson =
      .array (xs.map fun x => some (.ofJson x.toJson)) [] := by
  rw [GoValue.toJson_slice, JsValue.ofJson, JsValue.ofJsonList_eq_map, List.map_map]
  rfl

theorem orContainer_append {v : GoValue} (h : v.isMap = false) :
    Client.orContainer "-" (some (.ofJson v.toJson)) =
      .ofJson (GoValue.slice (StateStore.sliceOf v)).toJson := by
  cases v with
  | slice xs =>
    rw [ofJson_slice]
    exact (ofJson_slice xs).symm
  | map => cases h
  | scalar s =>
    rw [ofJson_slice]
    cases s <;> rfl

theorem client_start {v : GoValue} (h : v.isMap = false) (element : GoValue)
    (rest : List Sodp.DeltaOp) :
    Client.applyOps (.ofJson v.toJson) (DeltaOp.wire ⟨.add, "/-", element⟩ :: rest) =
      Client.applyOps (.ofJson (GoValue.slice (StateStore.sliceOf v)).toJson)
        (DeltaOp.wire ⟨.add, "/-", element⟩ :: rest) := by
  have hpath : Client.parsePath "/-" = ["-"] := by decide +kernel
  have hslice := orContainer_append (v := .slice (StateStore.sliceOf v)) rfl
  rw [StateStore.sliceOf] at hslice
  rw [Client.applyOps_cons, Client.applyOps_cons, DeltaOp.wire, Client.applyOp, Client.applyOp,
    hpath, Client.applyAt, Client.applyAt, orContainer_append h, hslice]

section Appends
variable {xs ys : List GoValue} {element : GoValue} {ops : List DeltaOp}

theorem client_push (xs : List GoValue) (value : Option Value) :
    Client.applyOp (.ofJson (GoValue.slice xs).toJson) ⟨.add, "/-", value⟩ =
      Client.push (xs.map fun x => some (.ofJson x.toJson)) []
        (Client.opValue ⟨.add, "/-", value⟩) := by
  have hpath : Client.parsePath "/-" = ["-"] := by decide +kernel
  rw [Client.applyOp, hpath, Client.applyAt, Client.applyParts, ofJson_slice]
  rfl

theorem client_shift (x : Option JsValue) (elems : List (Option JsValue)) (v : Option Value) :
    Client.applyOp (.array (x :: elems) []) ⟨.remove, "/0", v⟩ = .ok (.array elems []) := by
  have hpath : Client.parsePath "/0" = ["0"] := by decide +kernel
  have hzero : JsNumber.stringToNumber "0" = .finite 0 := by decide +kernel
  have hstart : ∀ n, Client.spliceStart (.finite 0) n = 0 := by
    intro n
    rw [Client.spliceStart]
    simp
  rw [Client.applyOp, hpath, Client.applyAt, Client.applyParts]
  change Client.applyLast _ _ "0" (.array _ []) = _
  rw [Client.applyLast, if_neg (by decide), hzero, hstart]
  rfl

theorem Appended.client_iff (h : Appended xs element ys ops) :
    Client.applyOps (.ofJson (GoValue.slice xs).toJson) (ops.map DeltaOp.wire) =
      .ok (.ofJson (GoValue.slice ys).toJson) ↔
    element.isEmpty = false ∧ xs.length < maxArrayLength := by
  have hundefined : JsValue.undefined ≠ .ofJson element.toJson := by
    cases element.toJson <;> simp [JsValue.ofJson]
  have hadd : ∀ rest, Client.applyOps (.ofJson (GoValue.slice xs).toJson)
      (DeltaOp.wire ⟨.add, "/-", element⟩ :: rest) = (Client.push
        (xs.map fun x => some (.ofJson x.toJson)) [] (if element.isEmpty then .undefined
          else .ofJson element.toJson)).bind fun state => Client.applyOps state rest := by
    intro rest
    rw [Client.applyOps_cons, DeltaOp.wire, client_push]
    cases element.isEmpty <;> rfl
  rw [Client.push, length_map] at hadd
  by_cases hroom : xs.length < maxArrayLength
  · rw [if_pos hroom] at hadd
    rcases h with ⟨rfl, rfl⟩ | ⟨hne, rfl, rfl⟩
    · rw [map_singleton, hadd, ofJson_slice, map_append]
      cases element.isEmpty <;> simp [hroom, hundefined, Except.bind, Client.applyOps_nil]
    · obtain ⟨x, xs, rfl⟩ := exists_cons_of_ne_nil hne
      rw [map_cons, hadd, ofJson_slice]
      change (Client.applyOp (.array (_ :: (xs.map _ ++ [_])) []) ⟨.remove, "/0", _⟩).bind _ = _ ↔ _
      rw [client_shift]
      change Except.ok _ = _ ↔ _
      simp only [length_cons] at hroom
      cases element.isEmpty <;> simp [hroom, hundefined]
  · rw [if_neg hroom] at hadd
    refine iff_of_false (fun happ => ?_) fun h => hroom h.2
    rcases h with ⟨rfl, -⟩ | ⟨-, rfl, -⟩
    · cases (hadd _).symm.trans happ
    · cases (hadd _).symm.trans happ

end Appends

/-! ### All changes -/

theorem StateStore.get_record (s : StateStore) (key : String) (value : Option GoValue)
    (ops : List DeltaOp) (other : String) : ((s.record key value ops).1.get other).1 =
      if other = key then value.getD .nil else (s.get other).1 := by
  simp only [StateStore.get, StateStore.record, StateStore.appendDelta]
  cases value with
  | none =>
    split_ifs with h
    · simp only [h, get?_erase_self, getD_none]
    · simp only [get?_erase_of_ne _ h]
  | some =>
    split_ifs with h
    · simp only [h, get?_insert_self, getD_some]
    · simp only [get?_insert_of_ne _ h]

namespace Mutation

variable {m : Mutation} {s : StateStore}

theorem get_run_of_ne (s : StateStore) {other : String} (h : other ≠ m.key) :
    ((m.run s).1.get other).1 = (s.get other).1 := by
  rcases m.run_cases s with heq | ⟨_, _, heq⟩
  · rw [heq]
  · rw [heq, get_record, if_neg h]

theorem run_of_none (h : (m.run s).2 = none) : (m.run s).1 = s := by
  rcases m.run_cases s with heq | ⟨_, _, heq⟩
  · rw [heq]
  · rw [heq] at h
    cases h

theorem key_run {delta : DeltaEntry} (h : (m.run s).2 = some delta) : delta.key = m.key := by
  rcases m.run_cases s with heq | ⟨_, _, heq⟩
  · rw [heq] at h
    cases h
  · rw [heq] at h
    exact some.inj h ▸ rfl

theorem Shown.run (h : m.Shown s) :
    m.run s = (s, none) ∨ ∃ value ops, m.run s = s.record m.key value ops ∧
      Client.applyOps (.ofJson (s.get m.key).1.toJson) (ops.map DeltaOp.wire) =
        .ok (.ofJson (value.getD .nil).toJson) := by
  cases m with
  | apply range key value =>
    rw [Mutation.run, StateStore.apply]
    dsimp only
    split_ifs with hfull hempty
    · exact .inl rfl
    · exact .inl rfl
    refine .inr ⟨some value, _, rfl, ?_⟩
    rw [Shown] at h
    split_ifs at h with hmaps
    · exact ((delta_survives_iff hmaps.1 hmaps.2 h.1 h.2.1 range).mpr h.2.2).2
    · rw [diff_of_not_maps range hmaps, map_singleton, wire_of_not_empty h]
      exact client_update_root _ _
  | append key element maxLen =>
    obtain ⟨hmap, hempty, hroom, hlen⟩ := h
    obtain ⟨ys, ops, happ, heq⟩ := append_spec rfl hlen element
    refine .inr ⟨some (.slice ys), ops, heq, ?_⟩
    have hclient := happ.client_iff.mpr ⟨hempty, hroom⟩
    change Client.applyOps (.ofJson (s.get key).1.toJson) _ = _
    rcases happ with ⟨rfl, -⟩ | ⟨-, rfl, -⟩
    · exact (client_start hmap element _).trans hclient
    · exact (client_start hmap element _).trans hclient
  | delete =>
    rw [Mutation.run, StateStore.delete]
    split
    · exact Or.inl rfl
    · exact Or.inr ⟨none, _, rfl, client_remove_root _ _⟩

end Mutation

/-- The ops of an `Append` give the stored value, here and at a client, exactly if the key held a
slice no longer than `maxLen` and the element is not left out on the wire. -/
theorem append_reproduced_iff (s : StateStore) (key : String) (element : GoValue) (maxLen : ℤ) :
    (∃ delta, (s.append key element maxLen).2 = some delta ∧
      applyOps (s.get key).1 delta.ops = ((s.append key element maxLen).1.get key).1 ∧
      Client.applyOps (.ofJson (s.get key).1.toJson) (delta.ops.map DeltaOp.wire) =
        .ok (.ofJson ((s.append key element maxLen).1.get key).1.toJson)) ↔
    ∃ xs, (s.get key).1 = .slice xs ∧ (0 < maxLen → xs.length ≤ maxLen) ∧
      element.isEmpty = false ∧ xs.length < maxArrayLength := by
  have hrecord : ∀ {ys ops}, s.append key element maxLen = s.record key (some (.slice ys)) ops →
      ((s.append key element maxLen).1.get key).1 = .slice ys ∧
        (s.append key element maxLen).2.map DeltaEntry.ops = some ops := by
    intro ys ops heq
    rw [heq, get_record, if_pos rfl]
    exact ⟨rfl, rfl⟩
  constructor
  · rintro ⟨delta, hdelta, hgo, hclient⟩
    rw [append] at hdelta hgo hclient
    split_ifs at hdelta hgo hclient with htrim
    · cases hdelta
      rw [get_record, if_pos rfl] at hgo hclient
      obtain ⟨xs, hxs⟩ := slice_of_applyOps (.inr rfl) hgo
      rw [hxs, sliceOf] at htrim hgo hclient
      rw [length_append, length_singleton] at htrim
      have hne : xs ≠ [] := fun hnil => by simp [hnil] at htrim; omega
      have happ : Appended xs element _ _ := .inr ⟨hne, rfl, rfl⟩
      have htail := GoValue.slice.inj (happ.applyOps_eq.symm.trans hgo)
      have hlength := congrArg length htail
      simp only [length_tail, length_drop, length_append, length_singleton] at hlength
      refine ⟨xs, hxs, fun _ => by omega, happ.client_iff.mp ?_⟩
      rw [htail]
      exact hclient
    · cases hdelta
      rw [get_record, if_pos rfl] at hgo hclient
      obtain ⟨xs, hxs⟩ := slice_of_applyOps (.inl rfl) hgo
      rw [hxs, sliceOf] at htrim hgo hclient
      rw [length_append, length_singleton] at htrim
      have happ : Appended xs element _ _ := .inl ⟨rfl, rfl⟩
      exact ⟨xs, hxs, fun hpos => by omega, happ.client_iff.mp hclient⟩
  · rintro ⟨xs, hxs, hlen, hvalue⟩
    obtain ⟨ys, ops, happ, heq⟩ := append_spec (by rw [hxs]; rfl) hlen element
    obtain ⟨hget, hops⟩ := hrecord heq
    obtain ⟨delta, hdelta, rfl⟩ := map_eq_some_iff.mp hops
    rw [hxs, hget]
    exact ⟨delta, hdelta, happ.applyOps_eq, happ.client_iff.mpr hvalue⟩

/-- Where there was nothing, `ApplyOps` makes a map with the field `-`. -/
theorem append_to_absent_differs :
    let s := emptyStore 1 Nat.one_pos
    ∃ delta, (s.append "k" (.bool true) 0).2 = some delta ∧
      (applyOps (s.get "k").1 delta.ops).toJson ≠
        ((s.append "k" (.bool true) 0).1.get "k").1.toJson :=
  ⟨_, rfl, by decide +kernel⟩

/-! ### A worker at rest -/

namespace FanoutBus

def Resting (b : FanoutBus) : Prop :=
  ∀ key ch, b.keyChs key = some ch → b.workers[ch]? = some ⟨key, [], .waiting⟩

def sendAll (ch : ℕ) : ℕ → FanoutBus → FanoutBus × List (Subscriber × DeltaEntry)
  | 0, b => (b, [])
  | n + 1, b =>
    match b.send ch with
    | none => (b, [])
    | some (next, out) => ((sendAll ch n next).1, out.toList ++ (sendAll ch n next).2)

def deliver (b : FanoutBus) (key : String) : FanoutBus × List (Subscriber × DeltaEntry) :=
  match b.keyChs key with
  | none => (b, [])
  | some ch =>
    match (b.take ch).bind fun taken => taken.snapshot ch with
    | none => (b, [])
    | some sending => sendAll ch ((b.subs key).length + 1) sending

section Deliver
variable {b : FanoutBus}

theorem setWorker_setWorker (b : FanoutBus) (ch : ℕ) (v w : Worker) :
    (b.setWorker ch v).setWorker ch w = b.setWorker ch w := by
  rw [setWorker, setWorker, setWorker, set_set]

theorem setWorker_self {ch : ℕ} {w : Worker} (h : b.workers[ch]? = some w) :
    b.setWorker ch w = b := by
  obtain ⟨-, rfl⟩ := List.getElem?_eq_some_iff.mp h
  rw [setWorker, List.set_getElem_self]

theorem sendAll_sending {ch : ℕ} {w : Worker} (hw : b.workers[ch]? = some w) (key : String)
    (job : FanoutJob) (rest : List Subscriber) :
    sendAll ch (rest.length + 1) (b.setWorker ch ⟨key, [], .sending job rest⟩) =
      (b.setWorker ch ⟨key, [], .waiting⟩,
        (rest.filter fun sub => sub.sessionID ≠ job.senderSessionID).map fun sub =>
          (sub, job.delta)) := by
  have hget : ∀ v, (b.setWorker ch v).workers[ch]? = some v := fun v =>
    (getElem?_setWorker hw ch).trans (if_pos rfl)
  induction rest with
  | nil =>
    have hsend : (b.setWorker ch ⟨key, [], .sending job []⟩).send ch =
        some (b.setWorker ch ⟨key, [], .waiting⟩, none) := by
      rw [send, hget]
      dsimp only
      rw [setWorker_setWorker]
    rw [length_nil, sendAll, hsend]
    rfl
  | cons sub rest ih =>
    have hsend : (b.setWorker ch ⟨key, [], .sending job (sub :: rest)⟩).send ch =
        some (b.setWorker ch ⟨key, [], .sending job rest⟩,
          if sub.sessionID = job.senderSessionID then none else some (sub, job.delta)) := by
      rw [send, hget]
      dsimp only
      rw [setWorker_setWorker]
    rw [length_cons, sendAll, hsend]
    dsimp only
    rw [ih]
    by_cases hsender : sub.sessionID = job.senderSessionID <;> simp [hsender]

theorem Resting.deliver_self (hb : b.Resting) (key : String) : b.deliver key = (b, []) := by
  rw [deliver]
  cases hch : b.keyChs key with
  | none => rfl
  | some ch =>
    dsimp only
    rw [take, hb key ch hch]
    rfl

theorem Resting.deliver_broadcast (hb : b.Resting) (delta : DeltaEntry) (sender : String) :
    (b.broadcast delta sender).1.deliver delta.key = (b, if (b.keyChs delta.key).isSome then
        ((b.subs delta.key).filter fun sub => sub.sessionID ≠ sender).map fun sub => (sub, delta)
      else []) := by
  cases hch : b.keyChs delta.key with
  | none =>
    have hnone : (b.broadcast delta sender).1 = b := by
      rw [broadcast, hch]
    rw [hnone, hb.deliver_self]
    rfl
  | some ch =>
    have hw := hb delta.key ch hch
    have hqueued : (b.broadcast delta sender).1 =
        b.setWorker ch ⟨delta.key, [⟨delta, sender⟩], .waiting⟩ := by
      rw [broadcast, hch]
      dsimp only
      rw [hw]
      rfl
    have hget : ∀ v, (b.setWorker ch v).workers[ch]? = some v := fun v =>
      (getElem?_setWorker hw ch).trans (if_pos rfl)
    have htaken : (b.setWorker ch ⟨delta.key, [⟨delta, sender⟩], .waiting⟩).take ch =
        some (b.setWorker ch ⟨delta.key, [], .encoding ⟨delta, sender⟩⟩) := by
      rw [take, hget]
      dsimp only
      rw [setWorker_setWorker]
    have hsnapshot : (b.setWorker ch ⟨delta.key, [], .encoding ⟨delta, sender⟩⟩).snapshot ch =
        some (b.setWorker ch ⟨delta.key, [], .sending ⟨delta, sender⟩ (b.subs delta.key)⟩) := by
      rw [snapshot, hget]
      dsimp only
      rw [setWorker_setWorker]
      rfl
    have hkey : (b.setWorker ch ⟨delta.key, [⟨delta, sender⟩], .waiting⟩).keyChs delta.key =
        some ch := hch
    rw [hqueued, deliver, hkey]
    dsimp only
    rw [htaken, bind_some, hsnapshot]
    refine (sendAll_sending hw delta.key ⟨delta, sender⟩ (b.subs delta.key)).trans ?_
    rw [setWorker_self hw]
    rfl

end Deliver

end FanoutBus

theorem deliver_commit {n : Node} (hn : n.fanout.Resting) (m : Mutation) (sender : String) :
    (n.commit m sender).fanout.deliver m.key = (n.fanout, match (m.run n.state).2 with
        | none => []
        | some delta =>
          if (n.fanout.keyChs m.key).isSome then
            ((n.fanout.subs m.key).filter fun sub => sub.sessionID ≠ sender).map fun sub =>
              (sub, delta)
          else []) := by
  rw [Node.commit]
  cases hrun : (m.run n.state).2 with
  | none => exact hn.deliver_self _
  | some delta =>
    rw [← Mutation.key_run hrun]
    exact hn.deliver_broadcast delta sender

end Sodp.GoServer
