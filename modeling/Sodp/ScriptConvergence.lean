import Sodp.ScriptPointer
import Sodp.Transition

/-!
# Replicas of the TypeScript server

The server and the client each have their own interpreter of delta ops. They read a path alike
unless it is empty or has an escape, they make the same container unless a number has leading zeros,
and they write alike unless an ADD inserts into an array, a segment is no index of the array it is
applied to, or something that is no container stands in the way.
-/

namespace Sodp

mutual
/-- What MessagePack writes and reads back: no `undefined`, no gaps, no other array properties. -/
def JsValue.isJson : JsValue → Bool
  | .undefined => false
  | .null | .bool _ | .number _ | .string _ => true
  | .array elems props => JsValue.isJsonElems elems && props.isEmpty
  | .object ⟨ks, _, f⟩ => ks.attach.all fun k => JsValue.isJson (f k)
def JsValue.isJsonElems : List (Option JsValue) → Bool
  | [] => true
  | none :: _ => false
  | some v :: elems => JsValue.isJson v && JsValue.isJsonElems elems
end

namespace ScriptServer
open Client (readIndex writeIndex inRange)
open JsNumber (stringToNumber)

/-! ### One op -/

def plainPath (path : String) : Bool :=
  path ≠ "" && ((path.toList.drop 1).splitOn '/').all fun seg => unescape seg = seg

theorem parsePath_of_plain {path : String} (hplain : plainPath path = true) {segments : List String}
    (h : parsePath path = .ok segments) : Client.parsePath path = segments := by
  rw [plainPath, Bool.and_eq_true, decide_eq_true_eq, List.all_eq_true] at hplain
  rw [parsePath] at h
  rw [Client.parsePath]
  by_cases hroot : path = "/"
  · rw [if_pos (.inr hroot)] at h
    rw [if_pos hroot]
    exact Except.ok.inj h
  · rw [if_neg fun hor => hor.elim hplain.1 hroot] at h
    rw [if_neg hroot]
    split_ifs at h
    rw [← Except.ok.inj h]
    refine List.map_congr_left fun seg hseg => ?_
    rw [of_decide_eq_true (hplain.2 seg hseg)]

/-- What the two do alike at the last segment. An ADD is one at the end of an array, and a name that
is no number is only removed from an empty array. -/
def alikeLast (kind : DeltaOpKind) (last : String) : JsValue → Bool
  | .array elems props => props.isEmpty &&
    if last = "-" then kind = .add
    else match kind with
      | .add => stringToNumber last = .finite elems.length
      | .update => stringToNumber last ≠ .nan
      | .remove => stringToNumber last ≠ .nan || elems.isEmpty && last ≠ "length"
  | .object _ => true
  | _ => false

def alikeChild (next : String) (alike : JsValue → Bool) : Option JsValue → Bool
  | none | some .null | some .undefined =>
    seed next = Client.containerFor next && alike (seed next)
  | some v => alike v

def alike (kind : DeltaOpKind) : String → List String → JsValue → Bool
  | last, [], node => alikeLast kind last node
  | seg, next :: rest, .array elems props =>
    props.isEmpty && inRange (stringToNumber seg) elems.length &&
      alikeChild next (alike kind next rest) (readIndex elems props (stringToNumber seg))
  | seg, next :: rest, .object m =>
    ! (seg = "__proto__" && (m.get? seg).isNone) &&
      alikeChild next (alike kind next rest) (m.get? seg)
  | _, _ :: _, _ => false

variable {kind : DeltaOpKind} {rest : List String} {value : JsValue}

theorem cloneShallow_of_alike {seg : String} {v : JsValue} (h : alike kind seg rest v = true) :
    cloneShallow v = v ∧ v.isContainer = true := by
  cases v with
  | array elems props =>
    have hprops : props.isEmpty = true := by
      cases rest with
      | nil => exact (Bool.and_eq_true_iff.mp h).1
      | cons => exact (Bool.and_eq_true_iff.mp (Bool.and_eq_true_iff.mp h).1).1
    rw [List.isEmpty_iff.mp hprops]
    exact ⟨rfl, rfl⟩
  | object => exact ⟨rfl, rfl⟩
  | undefined | null | bool b | number n | string s =>
    cases rest with
    | nil => cases h
    | cons => cases h

theorem childFor_of_alike {next : String} {child : Option JsValue}
    (h : alikeChild next (alike kind next rest) child = true) :
    childFor next child = Client.orContainer next child ∧
      alike kind next rest (childFor next child) = true := by
  have hnew : alikeChild next (alike kind next rest) none = true →
      seed next = Client.containerFor next ∧ alike kind next rest (seed next) = true := by
    intro h
    obtain ⟨hseed, hnext⟩ := Bool.and_eq_true_iff.mp h
    exact ⟨of_decide_eq_true hseed, hnext⟩
  have hold : ∀ v : JsValue, alike kind next rest v = true →
      cloneShallow v = Client.orContainer next (some v) ∧
        alike kind next rest (cloneShallow v) = true := by
    intro v hv
    obtain ⟨hclone, hcontainer⟩ := cloneShallow_of_alike hv
    rw [hclone, Client.orContainer, if_pos hcontainer]
    exact ⟨rfl, hv⟩
  cases child with
  | none => exact hnew h
  | some v =>
    cases v with
    | null => exact hnew h
    | undefined => exact hnew h
    | array => exact hold _ h
    | object => exact hold _ h
    | bool => exact hold _ h
    | number => exact hold _ h
    | string => exact hold _ h

theorem stringToNumber_dash : stringToNumber "-" = .nan := by decide +kernel

theorem insertIdx_spliceStart {elems : List (Option JsValue)} {props : List (ArrayKey × JsValue)}
    (hlen : elems.length < Client.maxArrayLength) :
    JsValue.array (elems.insertIdx (Client.spliceStart (.finite elems.length) elems.length)
      (some value)) props = writeIndex elems props (.finite elems.length) value := by
  have hstart : Client.spliceStart (.finite elems.length) elems.length = elems.length := by
    simp [Client.spliceStart]
  have hindex : Client.arrayIndex? (.finite elems.length) = some elems.length := by
    simp [Client.arrayIndex?, hlen]
  have hset : (elems ++ [none]).set elems.length (some value) = elems ++ [some value] := by
    simp
  rw [hstart, List.insertIdx_length_self, writeIndex, hindex]
  dsimp only
  rw [Nat.add_sub_cancel_left]
  exact congrArg (JsValue.array · props) hset.symm

theorem applyLast_of_alike {last : String} {node r : JsValue} (h : alikeLast kind last node = true)
    (hok : applyLast kind value last node = .ok r) :
    Client.applyLast kind value last node = .ok r := by
  cases node with
  | object =>
    unfold applyLast at hok
    unfold Client.applyLast
    cases kind with
    | add | update =>
      dsimp only at hok ⊢
      split_ifs at hok ⊢ <;> rw [← Except.ok.inj hok]
    | remove =>
      rw [← Except.ok.inj hok]
  | undefined | null | bool b | number n | string s => cases h
  | array elems =>
    obtain ⟨hprops, hlast⟩ := Bool.and_eq_true_iff.mp h
    obtain rfl := List.isEmpty_iff.mp hprops
    unfold applyLast at hok
    unfold Client.applyLast
    dsimp only at hok ⊢
    by_cases hdash : last = "-"
    · rw [if_pos hdash] at hok hlast ⊢
      obtain rfl : kind = .add := of_decide_eq_true hlast
      dsimp only at hok ⊢
      rw [Client.push]
      split_ifs at hok ⊢
      rw [← Except.ok.inj hok]
    · rw [if_neg hdash] at hok hlast ⊢
      cases kind with
      | add =>
        have hnumber : stringToNumber last = .finite elems.length := of_decide_eq_true hlast
        dsimp only at hok ⊢
        rw [hnumber] at hok ⊢
        split_ifs at hok with hlen
        rw [insertIdx_spliceStart hlen] at hok
        rw [if_pos nofun]
        rw [← Except.ok.inj hok]
      | update =>
        have hnumber : stringToNumber last ≠ .nan := of_decide_eq_true hlast
        dsimp only at hok ⊢
        rw [if_pos hnumber]
        rw [← Except.ok.inj hok]
      | remove =>
        dsimp only at hok hlast ⊢
        by_cases hnumber : stringToNumber last ≠ .nan
        · rw [if_pos hnumber]
          rw [← Except.ok.inj hok]
        · rw [if_neg hnumber, Client.deleteName]
          have hempty := (Bool.or_eq_true_iff.mp hlast).resolve_left
            fun h => hnumber (of_decide_eq_true h)
          obtain ⟨helems, hlength⟩ := Bool.and_eq_true_iff.mp hempty
          obtain rfl := List.isEmpty_iff.mp helems
          rw [if_neg (of_decide_eq_true hlength), ← Except.ok.inj hok]
          rfl

theorem applyParts_of_alike {seg : String} {node r : JsValue} (h : alike kind seg rest node = true)
    (hok : applyParts kind value seg rest node = .ok r) :
    Client.applyParts kind value seg rest node = .ok r := by
  induction rest generalizing seg node r with
  | nil => exact applyLast_of_alike h hok
  | cons next rest ih =>
    cases node with
    | undefined | null | bool b | number n | string s => cases h
    | array =>
      obtain ⟨hfront, hchild⟩ := Bool.and_eq_true_iff.mp h
      obtain ⟨-, hrange⟩ := Bool.and_eq_true_iff.mp hfront
      obtain ⟨hsame, halike⟩ := childFor_of_alike hchild
      have hdash : seg ≠ "-" := by
        rintro rfl
        rw [stringToNumber_dash] at hrange
        cases hrange
      rw [applyParts, if_neg hdash] at hok
      rw [Client.applyParts, if_pos hrange]
      obtain ⟨child, hparts, hr⟩ := bind_pure_eq_ok_iff.mp hok
      rw [← hsame, ih halike hparts]
      exact congrArg _ hr
    | object m =>
      obtain ⟨hproto, hchild⟩ := Bool.and_eq_true_iff.mp h
      obtain ⟨hsame, halike⟩ := childFor_of_alike hchild
      have hreached : ¬ (seg = "__proto__" ∧ m.get? seg = none) := by
        rintro ⟨hseg, hnone⟩
        rw [hnone, decide_eq_true hseg] at hproto
        cases hproto
      rw [applyParts] at hok
      rw [Client.applyParts, if_neg hreached, ← hsame]
      cases hget : m.get? seg with
      | some =>
        rw [hget] at hok hchild halike
        obtain ⟨child, hparts, hr⟩ := bind_pure_eq_ok_iff.mp hok
        rw [ih halike hparts]
        exact congrArg _ hr
      | none =>
        rw [hget] at hok halike
        rw [if_neg fun hseg => hreached ⟨hseg, hget⟩] at hok
        split_ifs at hok
        obtain ⟨child, hparts, hr⟩ := bind_pure_eq_ok_iff.mp hok
        rw [ih halike hparts]
        exact congrArg _ hr

def alikeOp (doc : JsValue) (op : DeltaOp) : Bool :=
  plainPath op.path && (op.kind = .remove || op.value.isJson) &&
    match Client.parsePath op.path with
    | [] => true
    | seg :: rest => alikeChild seg (alike op.kind seg rest) (some doc)

/-- What the client receives of an op. A REMOVE carries no value. -/
def DeltaOp.received (wire : JsValue → JsValue) (op : DeltaOp) : DeltaOp :=
  if op.kind = .remove then op else { op with value := wire op.value }

def clientOps (wire : JsValue → JsValue) (doc : JsValue) (ops : List DeltaOp) :
    Except Fault JsValue :=
  ops.foldlM (fun doc op => Client.applyAt op.kind (op.received wire).value
    (Client.parsePath op.path) doc) doc

def alikeOps : JsValue → List DeltaOp → Bool
  | _, [] => true
  | doc, op :: ops => alikeOp doc op &&
    match applyOne doc op with
    | .ok next => alikeOps next ops
    | .error fault => fault ≠ .builtinReached

variable {ops : List DeltaOp}

section Wire
variable {wire : JsValue → JsValue}

variable {doc : JsValue}

theorem received_of_alike (hwire : ∀ v : JsValue, v.isJson = true → wire v = v) {op : DeltaOp}
    (h : alikeOp doc op = true) : op.received wire = op := by
  obtain ⟨hfront, -⟩ := Bool.and_eq_true_iff.mp h
  obtain ⟨-, hvalue⟩ := Bool.and_eq_true_iff.mp hfront
  rw [DeltaOp.received]
  split_ifs with hkind
  · rfl
  · rw [hwire _ ((Bool.or_eq_true_iff.mp hvalue).resolve_left fun h => hkind (of_decide_eq_true h))]

theorem applyAt_of_alike {next : JsValue} {op : DeltaOp} (h : alikeOp doc op = true)
    (hok : applyOne doc op = .ok next) :
    Client.applyAt op.kind op.value (Client.parsePath op.path) doc = .ok next := by
  obtain ⟨hfront, halike⟩ := Bool.and_eq_true_iff.mp h
  obtain ⟨hplain, -⟩ := Bool.and_eq_true_iff.mp hfront
  rw [applyOne] at hok
  cases hparse : parsePath op.path with
  | error =>
    rw [hparse] at hok
    cases hok
  | ok segments =>
    rw [hparse] at hok
    change applyAt op.kind op.value segments doc = .ok next at hok
    rw [parsePath_of_plain hplain hparse] at halike ⊢
    cases segments with
    | nil =>
      rw [applyAt] at hok
      rw [Client.applyAt]
      split_ifs at hok ⊢ <;> rw [← Except.ok.inj hok]
    | cons seg rest =>
      obtain ⟨hsame, hchild⟩ := childFor_of_alike halike
      rw [applyAt] at hok
      rw [Client.applyAt, ← hsame]
      refine applyParts_of_alike hchild ?_
      rw [← hok]
      cases doc with
      | null => rfl
      | undefined =>
        -- the server cannot go on from `undefined`
        cases rest <;> cases hok
      | bool b | number n | string s => rfl
      | array => rfl
      | object => rfl

theorem clientOps_of_alike (hwire : ∀ v : JsValue, v.isJson = true → wire v = v) {next : JsValue}
    (h : alikeOps doc ops = true) (hok : applyOps doc ops = .ok next) :
    clientOps wire doc ops = .ok next := by
  induction ops generalizing doc with
  | nil =>
    rw [← Except.ok.inj hok]
    rfl
  | cons op ops ih =>
    obtain ⟨hop, hrest⟩ := Bool.and_eq_true_iff.mp h
    rw [applyOps, List.foldlM_cons] at hok
    cases hone : applyOne doc op with
    | error =>
      rw [hone] at hok
      cases hok
    | ok =>
      rw [hone] at hok hrest
      rw [clientOps, List.foldlM_cons, received_of_alike hwire hop, applyAt_of_alike hop hone]
      exact ih hrest hok

end Wire

/-! ### Calls of the server -/

/-- `===`: the values of one reference are the same. -/
structure Identity where
  same : JsValue → JsValue → Bool
  eq_of_same : ∀ {v w}, same v w = true → v = w

def inherited (k : String) : Bool := k ∈ inheritedFunctions || k = "__proto__"

/-- The op for one name of the two objects. What an object inherits is no document, like
`undefined`. -/
def nameOp (identity : Identity) (a b : OrderedMap String JsValue) (k : String) : Option DeltaOp :=
  let path := "/" ++ String.ofList (escape k.toList)
  match a.get? k, b.get? k with
  | none, some v => some ⟨if inherited k then .update else .add, path, v⟩
  | some _, none => some ⟨if inherited k then .update else .remove, path, .undefined⟩
  | some u, some v => if identity.same u v then none else some ⟨.update, path, v⟩
  | none, none => none

/-- The names come in the order of the objects, those of the old one first. -/
def diffShallow (identity : Identity) (order : List String → List String) (before after : JsValue) :
    List DeltaOp :=
  if identity.same before after then []
  else match before, after with
    | .object a, .object b =>
      (order (a.keys ++ b.keys.filter fun k => k ∉ a.keys)).filterMap (nameOp identity a b)
    | _, _ => [⟨.update, "/", after⟩]

def reaches (length : ℕ) : JsNumber → Bool
  | .nan => false
  | .infinity negative => negative
  | .finite q => q ≤ length

inductive ServerCall where
  | set (order : List String → List String) (value : JsValue)
  | patch (fields : List (String × JsValue))
  | setIn (path : String) (value : JsValue)
  | append (item : JsValue) (maxLen : Option JsNumber)
  | mutate (ops : List DeltaOp)

structure Stored where
  value : JsValue
  initialized : Bool
  fresh : initialized = false → value = .null

namespace Stored

def hydrate (value : JsValue) : Stored := ⟨value, true, nofun⟩

/-- `append` replaces nothing by an empty array, and tells no one. -/
def prepared (s : Stored) : ServerCall → Stored
  | .append _ _ => if s.initialized = false ∨ s.value = .null then hydrate (.array [] []) else s
  | _ => s

/-- A call without ops: `set` makes a key known. -/
def settled (s : Stored) : ServerCall → Stored
  | .set _ value => if s.initialized then s else hydrate value
  | _ => s

def elements : JsValue → List (Option JsValue)
  | .array elems _ => elems
  | _ => []

def published (identity : Identity) (s : Stored) : ServerCall → List DeltaOp
  | .set order value => diffShallow identity order s.value value
  | .patch fields => fields.map fun f => ⟨.update, "/" ++ String.ofList (escape f.1.toList), f.2⟩
  | .setIn path value => [⟨.update, path, value⟩]
  | .append item maxLen =>
    let added : DeltaOp := ⟨.add, "/-", item⟩
    if maxLen.any fun n => reaches (elements s.value).length n then
      [⟨.remove, "/0", .undefined⟩, added]
    else [added]
  | .mutate ops => ops

end Stored

structure Replicated where
  stored : Stored
  client : Except Fault JsValue

namespace Replicated
variable (identity : Identity) (wire : JsValue → JsValue)

def start (stored : Stored) : Replicated := ⟨stored, .ok (wire stored.value)⟩

def step (s : Replicated) (call : ServerCall) : Option Replicated :=
  match s.stored.published identity call with
  | [] => some { s with stored := s.stored.settled call }
  | op :: ops =>
    match applyOps (s.stored.prepared call).value (op :: ops) with
    | .ok value => some ⟨.hydrate value, s.client >>= fun doc => clientOps wire doc (op :: ops)⟩
    | .error _ => none

def Alike (s : Replicated) (call : ServerCall) : Prop :=
  alikeOps (s.stored.prepared call).value (s.stored.published identity call) = true

instance (s : Replicated) (call : ServerCall) : Decidable (s.Alike identity call) :=
  inferInstanceAs (Decidable (_ = true))

variable {identity wire}

theorem clientOps_append_null (item : JsValue)
    (h : ops = [⟨.add, "/-", item⟩] ∨ ops = [⟨.remove, "/0", .undefined⟩, ⟨.add, "/-", item⟩]) :
    clientOps wire .null ops = clientOps wire (.array [] []) ops := by
  have hdash : Client.parsePath "/-" = ["-"] := by decide +kernel
  have hzero : Client.parsePath "/0" = ["0"] := by decide +kernel
  have hnew : ∀ {kind value seg}, Client.containerFor seg = .array [] [] →
      Client.applyAt kind value [seg] .null = Client.applyAt kind value [seg] (.array [] []) := by
    intro kind value seg hseg
    rw [Client.applyAt, Client.applyAt, Client.orContainer, Client.orContainer]
    exact congrArg _ hseg
  rcases h with rfl | rfl
  · rw [clientOps, clientOps, List.foldlM_cons, List.foldlM_cons, hdash, hnew (by decide +kernel)]
  · rw [clientOps, clientOps, List.foldlM_cons, List.foldlM_cons, hzero, hnew (by decide +kernel)]

theorem clientOps_prepared (s : Stored) (call : ServerCall) :
    clientOps wire s.value (s.published identity call) =
      clientOps wire (s.prepared call).value (s.published identity call) := by
  cases call with
  | append item maxLen =>
    rw [Stored.prepared]
    split_ifs with hnull
    · have hvalue : s.value = .null := hnull.elim s.fresh id
      have hops : s.published identity (.append item maxLen) = [⟨.add, "/-", item⟩] ∨
          s.published identity (.append item maxLen) =
            [⟨.remove, "/0", .undefined⟩, ⟨.add, "/-", item⟩] := by
        unfold Stored.published
        dsimp only
        split_ifs
        · exact Or.inr rfl
        · exact Or.inl rfl
      rw [hvalue]
      exact clientOps_append_null item hops
    · rfl
  | set order value | patch fields | setIn path value | mutate ops => rfl

theorem diffShallow_eq_nil {order : List String → List String} {value : JsValue}
    (h : diffShallow identity order .null value = []) : value = .null := by
  unfold diffShallow at h
  split_ifs at h with hsame
  exact (identity.eq_of_same hsame).symm

variable {call : ServerCall}

theorem value_settled {s : Stored} (h : s.published identity call = []) :
    (s.settled call).value = s.value := by
  cases call with
  | set =>
    rw [Stored.settled]
    split_ifs with hinit
    · rfl
    · have hnull := s.fresh (Bool.eq_false_iff.mpr hinit)
      rw [Stored.published, hnull] at h
      rw [hnull]
      exact diffShallow_eq_nil h
  | patch fields | setIn path value | append item maxLen | mutate ops => rfl

theorem step_converges (hwire : ∀ v : JsValue, v.isJson = true → wire v = v) {s t : Replicated}
    (hs : s.client = .ok s.stored.value) (hok : s.Alike identity call)
    (hstep : s.step identity wire call = some t) : t.client = .ok t.stored.value := by
  have hclient : clientOps wire s.stored.value (s.stored.published identity call) =
      clientOps wire (s.stored.prepared call).value (s.stored.published identity call) :=
    clientOps_prepared s.stored call
  rw [Alike] at hok
  rw [step] at hstep
  cases hops : s.stored.published identity call with
  | nil =>
    rw [hops] at hstep
    cases hstep
    exact hs.trans (congrArg _ (value_settled hops).symm)
  | cons op ops =>
    rw [hops] at hstep hok hclient
    dsimp only at hstep
    cases hvalue : applyOps (s.stored.prepared call).value (op :: ops) with
    | error =>
      rw [hvalue] at hstep
      cases hstep
    | ok =>
      rw [hvalue] at hstep
      cases hstep
      rw [hs]
      exact hclient.trans (clientOps_of_alike hwire hok hvalue)

/-- Whatever the server calls, a client that got the value in STATE_INIT has the value of the store
after every delta. -/
theorem caches_follow_store (hwire : ∀ v : JsValue, v.isJson = true → wire v = v) {stored : Stored}
    (hjson : stored.value.isJson = true) {calls : List ServerCall} {last : Replicated}
    (hok : Transition.Along (step identity wire) (Alike identity) (start wire stored) calls)
    (hrun : Transition.run (step identity wire) (start wire stored) calls = some last) :
    last.client = .ok last.stored.value := by
  refine Transition.invariant_along (I := fun s : Replicated => s.client = .ok s.stored.value)
    (fun _ _ _ hs hok hstep => step_converges hwire hs hok hstep) ?_ hok hrun
  exact congrArg _ (hwire _ hjson)

/-! ### Two sequences of calls -/

def byValue : Identity := ⟨fun v w => v = w, of_decide_eq_true⟩

def field (name : String) (value : JsValue) : JsValue := .object (.insert .empty name value)

def listThenObject : List ServerCall :=
  [.append (.bool true) none, .append (.bool false) (some (.finite 1)), .setIn "/0" (.string "x"),
    .set id (field "a" .null), .patch [("b", .bool true)], .set id (field "b" (.bool false)),
    .mutate [⟨.update, "/c/d", .bool true⟩]]

theorem list_then_object_converges :
    ∃ last, Transition.run (step byValue id) (start id ⟨.null, false, fun _ => rfl⟩)
        listThenObject = some last ∧
      last.stored.value = .object (.insert (.insert .empty "b" (.bool false)) "c"
        (field "d" (.bool true))) ∧ last.client = .ok last.stored.value := by
  refine Transition.exists_run (fun s => s.stored.value = .object (.insert (.insert .empty "b"
    (.bool false)) "c" (field "d" (.bool true)))) (by decide +kernel) fun last hlast hvalue => ?_
  exact ⟨hvalue, caches_follow_store (fun _ _ => rfl) rfl (by decide +kernel) hlast⟩

/-- The client does not read the escape. -/
theorem escaped_field_differs :
    (Transition.run (step byValue id) (start id (.hydrate (.object .empty)))
      [.patch [("a/b", .bool true)]]).map (fun s => (s.stored.value, s.client)) =
        some (field "a/b" (.bool true), .ok (field "a~1b" (.bool true))) := by
  decide +kernel

end Replicated

end ScriptServer

end Sodp
