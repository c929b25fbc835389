import Sodp.GoServerSteps

/-!
# The limit on the number of keys

`Apply` refuses a new key when the store holds `maxKeys`. `Append` creates a key without looking at
the limit, so a `state.append` on a new key is what takes the store beyond it, and nothing else
that a client can call does.
-/

namespace Sodp.GoServer
open Transition OrderedMap Option GoServer.StateStore

def performed (ch : Choices) (c : Conn) (f : Frame) : Option Mutation :=
  if (checkAuth c.1.opts c.2).2 = true ∧ (c.2.checkRate ch.now).2 = true then
    (decodeCallBody f.body).bind fun body =>
      let key := asString (body.args.get? "state")
      if key ≠ "" ∧ isValidKey key = true ∧
          (authorizeKey c.1.opts (c.2.checkRate ch.now).1 f.streamID key .write).2 = true then
        (callMutation ch c.1.state key body).toOption
      else none
  else none

theorem state_commit (n : Node) (m : Mutation) (sender : String) :
    (n.commit m sender).state = (m.run n.state).1 := by
  rw [Node.commit]
  rcases m.run n.state with ⟨t, _ | delta⟩ <;> rfl

theorem state_dispatch_call (ch : Choices) (c : Conn) {f : Frame} (hf : f.type = .call) :
    (dispatch ch c f).1.state = match performed ch c f with
      | none => c.1.state
      | some m => (m.run c.1.state).1 := by
  rw [dispatch, hf, performed]
  dsimp only
  rw [handleCall, ite_and]
  split_ifs
  · cases decodeCallBody f.body with
    | none => rfl
    | some body =>
      simp only [bind_some, ne_eq, ite_and, ite_not]
      split_ifs
      · rfl
      · cases callMutation ch c.1.state (asString (body.args.get? "state")) body with
        | error => rfl
        | ok m => exact state_commit _ m _
      · rfl
      · rfl
  · rfl
  · rfl

/-! ### The number of keys -/

namespace StateStore
variable {s : StateStore} {key : String}

def Bounded (s : StateStore) : Prop := s.entries.keys.length ≤ s.maxKeys

def HasRoom (s : StateStore) (key : String) : Prop :=
  key ∈ s.entries.keys ∨ s.entries.keys.length < s.maxKeys

theorem bounded_record_some (h : s.Bounded) (value : GoValue) (ops : List DeltaOp) :
    (s.record key (some value) ops).1.Bounded ↔ s.HasRoom key := by
  change (s.entries.insert key _).keys.length ≤ s.maxKeys ↔ _
  rw [Bounded] at h
  rw [HasRoom]
  by_cases hkey : key ∈ s.entries.keys
  · rw [keys_insert_of_mem hkey]
    exact iff_of_true h (.inl hkey)
  · rw [length_keys_insert_of_notMem hkey, or_iff_right hkey]
    exact Nat.succ_le_iff

theorem bounded_record_none (h : s.Bounded) (ops : List DeltaOp) :
    (s.record key none ops).1.Bounded :=
  (length_keys_erase_le s.entries key).trans h

end StateStore

theorem Mutation.bounded_run_iff {s : StateStore} (h : s.Bounded) (m : Mutation) :
    (m.run s).1.Bounded ↔ ∀ key element maxLen, m = .append key element maxLen → s.HasRoom key := by
  cases m with
  | apply =>
    refine iff_of_true ?_ fun _ _ _ heq => Mutation.noConfusion heq
    rw [run, StateStore.apply]
    dsimp only
    split_ifs with hfull
    · exact h
    · exact h
    · refine (bounded_record_some h _ _).mpr ?_
      rw [not_and_or, isNone_iff_eq_none, get?_eq_none_iff, not_not, not_le] at hfull
      exact hfull
  | append key element maxLen =>
    have hroom : (∀ k e n, Mutation.append key element maxLen = .append k e n → s.HasRoom k) ↔
        s.HasRoom key := by
      constructor
      · intro hall
        exact hall key element maxLen rfl
      · rintro hkey k e n heq
        cases heq
        exact hkey
    rw [hroom, run, StateStore.append]
    split_ifs <;> exact bounded_record_some h _ _
  | delete =>
    refine iff_of_true ?_ fun _ _ _ heq => Mutation.noConfusion heq
    rw [run, StateStore.delete]
    split
    · exact h
    · exact bounded_record_none h _

/-! ### Sequences of calls -/

structure ClientCall (ι : Type*) where
  session : ι
  choices : Choices
  frame : Frame

section Calls
variable {ι : Type*}

/-- The call does not append to a new key while the store is full. -/
def MindsLimit (s : Node × (ι → Session)) (e : ClientCall ι) : Prop :=
  ∀ key element maxLen,
    performed e.choices (s.1, s.2 e.session) e.frame = some (.append key element maxLen) →
      s.1.state.HasRoom key

variable [DecidableEq ι]

def callStep (s : Node × (ι → Session)) (e : ClientCall ι) : Option (Node × (ι → Session)) :=
  if e.frame.type = .call then
    let c := dispatch e.choices (s.1, s.2 e.session) e.frame
    some (c.1, Function.update s.2 e.session c.2)
  else none

theorem bounded_callStep {s t : Node × (ι → Session)} {e : ClientCall ι}
    (h : s.1.state.Bounded) (hstep : callStep s e = some t) :
    t.1.state.Bounded ↔ MindsLimit s e := by
  rw [callStep] at hstep
  split_ifs at hstep with hcall
  cases hstep
  rw [state_dispatch_call e.choices _ hcall, MindsLimit]
  cases performed e.choices (s.1, s.2 e.session) e.frame with
  | none => exact iff_of_true h nofun
  | some m =>
    refine (m.bounded_run_iff h).trans (forall₃_congr fun key element maxLen => ?_)
    rw [some.injEq]

/-- From an empty store, the number of keys stays within the limit exactly if no call appends to a
new key of a full store. -/
theorem keys_within_limit_iff {node : Node} {sessions : ι → Session} {calls : List (ClientCall ι)}
    {last : Node × (ι → Session)} (hempty : node.state.entries.keys = [])
    (hrun : run callStep (node, sessions) calls = some last) :
    (∀ before after reached, calls = before ++ after →
      run callStep (node, sessions) before = some reached →
        reached.1.state.entries.keys.length ≤ reached.1.state.maxKeys) ↔
      Along callStep MindsLimit (node, sessions) calls := by
  have hstart : node.state.Bounded := by
    rw [StateStore.Bounded, hempty]
    exact Nat.zero_le _
  refine forall_reached_iff (I := fun s : Node × (ι → Session) => s.1.state.Bounded)
    (fun _ h => h) (fun _ _ _ h hstep => ?_) hstart hrun
  exact ⟨(bounded_callStep h hstep).mp, (bounded_callStep h hstep).mpr⟩

end Calls

/-! ### Two sequences -/

instance {ι : Type*} (s : Node × (ι → Session)) (e : ClientCall ι) : Decidable (MindsLimit s e) :=
  match h : performed e.choices (s.1, s.2 e.session) e.frame with
  | some (.append key element maxLen) =>
    decidable_of_iff (key ∈ s.1.state.entries.keys ∨
        s.1.state.entries.keys.length < s.1.state.maxKeys)
      (by simp [MindsLimit, h, StateStore.HasRoom])
  | some (.apply _ _ _) => isTrue fun _ _ _ heq => nomatch h.symm.trans heq
  | some (.delete _) => isTrue fun _ _ _ heq => nomatch h.symm.trans heq
  | none => isTrue fun _ _ _ heq => nomatch h.symm.trans heq

def clientCall (method key : String) : ClientCall Unit :=
  ⟨(), .plain, .call, 0, 0, .ofFields [("method", .string method),
    ("args", .ofFields [("state", .string key), ("value", .string "x")])]⟩

def oneKey : Node × (Unit → Session) :=
  (⟨.plain, { StateStore.new with maxKeys := 1 }, .new⟩, fun _ => .new "a" 64 100 128)

def keysInTurn : List (ClientCall Unit) :=
  [clientCall "state.set" "k", clientCall "state.append" "k", clientCall "state.set" "m",
    clientCall "state.delete" "k", clientCall "state.append" "m"]

theorem keys_in_turn_within_limit :
    ∃ last, run callStep oneKey keysInTurn = some last ∧ last.1.state.entries.keys = ["m"] ∧
      last.1.state.entries.keys.length ≤ last.1.state.maxKeys := by
  refine exists_run (fun s => s.1.state.entries.keys = ["m"]) (by decide +kernel)
    fun last hlast hm => ⟨hm, ?_⟩
  exact (keys_within_limit_iff rfl hlast).mpr (by decide +kernel) keysInTurn [] last
    (List.append_nil keysInTurn).symm hlast

theorem append_exceeds_limit :
    (run callStep oneKey [clientCall "state.set" "k", clientCall "state.append" "m"]).map
      (fun s => (s.1.state.entries.keys, s.1.state.maxKeys)) = some (["k", "m"], 1) := by
  decide +kernel

end Sodp.GoServer
