import Sodp.Schema
import Sodp.ScriptDiff
import Sodp.ScriptStore

/-!
# Built-in calls of the TypeScript server

`rpc.ts` with `schema.ts`. A handler has no await, and what it asks of the store is one effect.
`state.patch` and `state.set_in` check the value that their ops lead to. `state.set` checks the
value that was sent, which its ops may miss, and `state.presence` and the removals of `teardown`
check nothing.

The declared fields of a schema come in the order of their names, as in `Schema`.
-/

namespace Sodp.ScriptServer
open Transition Function List Option ScriptServer.StateStore

/-! ### Schemas -/

/-- What a property of an object is: a document, or what every object inherits. -/
inductive Property where
  | doc (v : JsValue)
  | function
  | prototype

namespace Property

/-- `obj[name] ?? null`. The prototype has the functions of its own. -/
def field : Property → String → Property
  | .doc (.object m), name =>
    match m.get? name with
    | some v => .doc v
    | none =>
      if name = "__proto__" then .prototype
      else if name ∈ inheritedFunctions then .function else .doc .null
  | .prototype, name => if name ∈ inheritedFunctions then .function else .doc .null
  | _, _ => .doc .null

def kindOf : Property → String
  | .function => "function"
  | .prototype => "Object"
  | .doc .undefined => "undefined"
  | .doc .null => "null"
  | .doc (.bool _) => "Bool"
  | .doc (.string _) => "String"
  | .doc (.number (.int _)) => "Int"
  | .doc (.number (.float q)) => if q.den = 1 then "Int" else "Float"
  | .doc (.array _ _) => "Array"
  | .doc (.object _) => "Object"

def validateType (typeName : String) (nullable : Bool) (value : Property) (path : String)
    (fields : Option String) : Option String :=
  let expect (kinds : List String) (fields : Option String) :=
    if value.kindOf ∈ kinds then fields
    else some s!"{path}: expected {typeName}, got {value.kindOf}"
  if value.kindOf ∈ ["null", "undefined"] then
    if nullable then none else some s!"{path}: unexpected null (field is not nullable)"
  else if typeName = "Any" then none
  else if typeName = "Float" then expect ["Int", "Float"] none
  else if typeName = "Object" then expect ["Object"] fields
  else if typeName ∈ ["String", "Int", "Bool", "Array"] then expect [typeName] none
  else some s!"{path}: unknown schema type '{typeName}'"

def validateNode : SchemaNode → Property → String → Option String
  | .simple typeName, value, path => validateType typeName false value path none
  | .full typeName nullable ⟨ks, _, f⟩, value, path =>
    validateType typeName nullable value path (ks.attach.findSome? fun fieldName =>
      validateNode (f fieldName) (value.field fieldName.1) s!"{path}.{fieldName.1}")

/-- As far as a schema declares the places on the way of an op, each of them has a value that
passes, or the container that the op makes there passes. Its value passes where it ends. -/
def Allows (value : JsValue) : List String → SchemaNode → Option JsValue → String → Prop
  | [], node, _, path => validateNode node (.doc value) path = none
  | seg :: rest, node, found, path => validateNode node (.doc (childFor seg found)) path = none ∧
      ∀ field ∈ node.field? seg,
        Allows value rest field ((childFor seg found).get? seg) s!"{path}.{seg}"

section Edit
variable {node : SchemaNode} {path seg : String} {rest : List String} {kind : DeltaOpKind}
  {value v r : JsValue} {m m' : OrderedMap String JsValue}

theorem validateType_congr {typeName : String} {nullable : Bool} {a b : Property}
    {fields others : Option String} (hkind : b.kindOf = a.kindOf)
    (hfields : typeName = "Object" → a.kindOf = "Object" → fields = none → others = none)
    (h : validateType typeName nullable a path fields = none) :
    validateType typeName nullable b path others = none := by
  rw [validateType] at h ⊢
  rw [hkind]
  split_ifs at h ⊢ with hnull hopt hany hfloat hobject
  · rfl
  · rfl
  · exact h
  · by_cases hkindOf : a.kindOf = "Object"
    · simp only [hkindOf, mem_singleton, if_true] at h ⊢
      exact hfields hobject hkindOf h
    · simp [hkindOf] at h
  · exact h

theorem validateNode_missing (h : validateNode node (.doc .undefined) path = none) :
    validateNode node (.doc .null) path = none := by
  cases node with
  | simple => exact h
  | full => exact h

theorem kindOf_writeIndex (elems : List (Option JsValue)) (props : List (ArrayKey × JsValue))
    (idx : JsNumber) : kindOf (.doc (Client.writeIndex elems props idx v)) = "Array" := by
  rw [Client.writeIndex]
  split <;> rfl

theorem kindOf_applyParts (hv : ∀ m, v ≠ .object m)
    (h : applyParts kind value seg rest v = .ok r) : kindOf (.doc r) = kindOf (.doc v) := by
  cases v with
  | object m => exact absurd rfl (hv m)
  | array elems props =>
    cases rest with
    | nil =>
      cases kind <;> simp only [applyParts, applyLast] at h <;> split_ifs at h <;> cases h <;>
        first | rfl | exact kindOf_writeIndex ..
    | cons =>
      obtain ⟨_, -, rfl⟩ := bind_pure_eq_ok_iff.mp h
      exact kindOf_writeIndex ..
  | undefined | null =>
    cases rest <;> cases h
  | bool | number | string =>
    cases rest with
    | nil =>
      cases kind <;> simp only [applyParts, applyLast] at h <;> (try split_ifs at h) <;> cases h <;>
        rfl
    | cons =>
      simp only [applyParts] at h
      split_ifs at h
      obtain ⟨_, -, rfl⟩ := bind_pure_eq_ok_iff.mp h
      rfl

theorem validateNode_object (h : validateNode node (.doc (.object m)) path = none)
    (hothers : ∀ name, name ≠ seg → m'.get? name = m.get? name)
    (hseg : ∀ field ∈ node.field? seg,
      validateNode field (.field (.doc (.object m')) seg) s!"{path}.{seg}" = none) :
    validateNode node (.doc (.object m')) path = none := by
  cases node with
  | simple => exact validateType_congr (a := .doc (.object m)) rfl (fun _ _ h => h) h
  | full typeName nullable fields =>
    obtain ⟨ks, hs, f⟩ := fields
    refine validateType_congr (a := .doc (.object m)) rfl (fun hobject _ hnone => ?_) h
    rw [findSome?_eq_none_iff] at hnone ⊢
    intro name hname
    by_cases hn : name.1 = seg
    · refine hn ▸ hseg (f name) ?_
      rw [SchemaNode.field?, if_pos hobject, Option.mem_def]
      exact hn ▸ OrderedMap.get?_val ⟨ks, hs, f⟩ name
    · have hsame : Property.field (.doc (.object m')) name.1 =
          .field (.doc (.object m)) name.1 := by
        rw [field, field, hothers name.1 hn]
      rw [hsame]
      exact hnone name hname

theorem validateNode_of_kind (hv : ∀ m, v ≠ .object m) (hkind : kindOf (.doc r) = kindOf (.doc v))
    (h : validateNode node (.doc v) path = none) : validateNode node (.doc r) path = none := by
  cases node with
  | simple => exact validateType_congr hkind (fun _ _ h => h) h
  | full =>
    refine validateType_congr hkind (fun _ hobject _ => ?_) h
    cases v with
    | object m => exact absurd rfl (hv m)
    | number n => cases n <;> simp [kindOf, ite_eq_iff] at hobject
    | _ => simp [kindOf] at hobject

theorem inherited_eq_false : inherited seg = false ↔ seg ∉ inheritedFunctions ∧
    seg ≠ "__proto__" := by
  rw [inherited, Bool.or_eq_false_iff, decide_eq_false_iff_not, decide_eq_false_iff_not]

theorem applyParts_object {next : String} (hseg : inherited seg = false) :
    applyParts kind value seg (next :: rest) (.object m) =
      applyParts kind value next rest (childFor next (m.get? seg)) >>= fun child =>
        pure (.object (m.insert seg child)) := by
  obtain ⟨hfunction, hproto⟩ := inherited_eq_false.mp hseg
  rw [applyParts]
  cases m.get? seg with
  | some => rfl
  | none =>
    dsimp only
    rw [if_neg hproto, if_neg hfunction]
    rfl

theorem applyLast_object (hseg : inherited seg = false) :
    applyLast kind value seg (.object m) =
      .ok (.object (if kind = .remove then m.erase seg else m.insert seg value)) := by
  cases kind with
  | remove => rfl
  | _ => exact if_neg fun h => (inherited_eq_false.mp hseg).2 h.1

theorem field_missing (hseg : inherited seg = false) (hm : m.get? seg = none) :
    field (.doc (.object m)) seg = .doc .null := by
  obtain ⟨hfunction, hproto⟩ := inherited_eq_false.mp hseg
  rw [field, hm]
  dsimp only
  rw [if_neg hproto, if_neg hfunction]

theorem validateNode_applyParts (hnames : ∀ name ∈ seg :: rest, inherited name = false)
    (hvalue : kind = .remove → value = .undefined)
    (h : validateNode node (.doc v) path = none)
    (hfields : ∀ field ∈ node.field? seg, Allows value rest field (v.get? seg) s!"{path}.{seg}")
    (hr : applyParts kind value seg rest v = .ok r) : validateNode node (.doc r) path = none := by
  have hseg := hnames seg mem_cons_self
  induction rest generalizing seg node path v r with
  | nil =>
    by_cases hv : ∃ m, v = .object m
    · obtain ⟨m, rfl⟩ := hv
      rw [applyParts, applyLast_object hseg] at hr
      cases hr
      split_ifs with hkind
      · refine validateNode_object h (fun name hn => OrderedMap.get?_erase_of_ne _ hn)
          fun field hfield => ?_
        rw [field_missing hseg (OrderedMap.get?_erase_self ..)]
        exact validateNode_missing (hvalue hkind ▸ hfields field hfield)
      · refine validateNode_object h (fun name hn => OrderedMap.get?_insert_of_ne _ hn _)
          fun field hfield => ?_
        rw [Property.field, OrderedMap.get?_insert_self]
        exact hfields field hfield
    · have hobject : ∀ m, v ≠ .object m := fun m hm => hv ⟨m, hm⟩
      exact validateNode_of_kind hobject (kindOf_applyParts hobject hr) h
  | cons next rest ih =>
    by_cases hv : ∃ m, v = .object m
    · obtain ⟨m, rfl⟩ := hv
      rw [applyParts_object hseg] at hr
      obtain ⟨child, hchild, rfl⟩ := bind_pure_eq_ok_iff.mp hr
      refine validateNode_object h (fun name hn => OrderedMap.get?_insert_of_ne _ hn _)
        fun field hfield => ?_
      rw [Property.field, OrderedMap.get?_insert_self]
      obtain ⟨hcontainer, hrest⟩ := hfields field hfield
      have hnext : ∀ name ∈ next :: rest, inherited name = false :=
        fun name hname => hnames name (mem_cons_of_mem _ hname)
      exact ih hnext hcontainer hrest hchild (hnext next mem_cons_self)
    · have hobject : ∀ m, v ≠ .object m := fun m hm => hv ⟨m, hm⟩
      exact validateNode_of_kind hobject (kindOf_applyParts hobject hr) h

theorem validateNode_applyAt {segments : List String}
    (hnames : ∀ name ∈ segments, inherited name = false)
    (hvalue : kind = .remove → value = .undefined) (h : Allows value segments node (some v) path)
    (hr : applyAt kind value segments v = .ok r) : validateNode node (.doc r) path = none := by
  cases segments with
  | nil =>
    rw [applyAt] at hr
    split_ifs at hr with hkind
    · cases hr
      exact validateNode_missing (hvalue hkind ▸ h)
    · cases hr
      exact h
  | cons seg rest =>
    refine validateNode_applyParts hnames hvalue h.1 h.2 (hr ▸ ?_)
    cases v with
    | undefined => cases rest <;> cases hr
    | _ => rfl

end Edit

end Property

/-- The empty type name is no schema. -/
def validate (states : OrderedMap String SchemaNode) (key : String) (value : JsValue) :
    Option String :=
  match states.get? key with
  | none => none
  | some (.simple "") => none
  | some node => Property.validateNode node (.doc value) key

/-! ### The handlers -/

structure Args where
  state : Option String
  path : Option String
  value : JsValue
  patch : Option (List (String × JsValue))

inductive Write where
  | publish (ops : List DeltaOp)
  | hydrate (value : JsValue)
  | remove
  | presence (path : String) (value : JsValue)

inductive Refusal where
  | message (text : String)
  | thrown (fault : PointerFault)

inductive Method where
  | set
  | patch
  | setIn
  | delete
  | presence

/-- What one call depends on beside its arguments: the access rules for its claims, the references
that `===` compares, and the order of the fields of objects. -/
structure CallContext where
  writeAllowed : String → Bool
  identity : Identity
  order : List String → List String
  perm : ∀ names, (order names).Perm names

variable {write : Write}

section Handlers
variable {τ : Type*} (schema : Option (OrderedMap String SchemaNode)) (ctx : CallContext)
  (store : StateStore τ) (args : Args) (key : String)

def checkSchema (value : JsValue) (write : Option Write) : Except Refusal (Option Write) :=
  match schema.bind fun states => validate states key value with
  | some text => .error (.message text)
  | none => .ok write

def handleSet : Except Refusal (Option Write) :=
  let ops := diffShallow ctx.identity ctx.order (store.snapshot key).2.1 args.value
  checkSchema schema key args.value <|
    if 0 < ops.length then some (.publish ops)
    else if (store.snapshot key).2.2 then none
    else some (.hydrate args.value)

def publishChecked (ops : List DeltaOp) : Except Refusal (Option Write) :=
  if schema.isNone then .ok (some (.publish ops))
  else
    match applyOps (store.snapshot key).2.1 ops with
    | .error fault => .error (.thrown fault)
    | .ok value => checkSchema schema key value (some (.publish ops))

def handlePatchCall : Except Refusal (Option Write) :=
  match args.patch with
  | none => .error (.message "patch must be an object")
  | some [] => .ok none
  | some fields => publishChecked schema store key
      (fields.map fun f => ⟨.update, "/" ++ String.ofList (escape f.1.toList), f.2⟩)

def handleSetIn : Except Refusal (Option Write) :=
  match args.path with
  | none => .error (.message "missing path")
  | some path => publishChecked schema store key [⟨.update, path, args.value⟩]

def handlePresence : Except Refusal (Option Write) :=
  match args.path with
  | none => .error (.message "missing path")
  | some path => .ok (some (.presence path args.value))

def handleMethod : Method → Except Refusal (Option Write)
  | .set => handleSet schema ctx store args key
  | .patch => handlePatchCall schema store args key
  | .setIn => handleSetIn schema store args key
  | .delete => .ok (some .remove)
  | .presence => handlePresence args

def handleBuiltinCall (method : Method) : Except Refusal (Option (String × Write)) :=
  match args.state with
  | none => .error (.message "missing state")
  | some key =>
    if ctx.writeAllowed key then
      (handleMethod schema ctx store args key method).map (Option.map (key, ·))
    else .error (.message "access denied")

variable {schema ctx store args key}

theorem handleBuiltinCall_eq_some {method : Method}
    (h : handleBuiltinCall schema ctx store args method = .ok (some (key, write))) :
    args.state = some key ∧ ctx.writeAllowed key = true ∧
      handleMethod schema ctx store args key method = .ok (some write) := by
  rw [handleBuiltinCall] at h
  split at h
  · cases h
  · rename_i k hstate
    split_ifs at h with hallowed
    cases hmethod : handleMethod schema ctx store args k method with
    | error =>
      rw [hmethod] at h
      cases h
    | ok =>
      rw [hmethod] at h
      obtain ⟨w, rfl, heq⟩ := map_eq_some_iff.mp (Except.ok.inj h)
      cases heq
      exact ⟨hstate, hallowed, hmethod⟩

theorem publishChecked_eq_some {states : OrderedMap String SchemaNode} {ops : List DeltaOp}
    (h : publishChecked (some states) store key ops = .ok (some write)) :
    write = .publish ops ∧ ∃ value, applyOps (store.snapshot key).2.1 ops = .ok value ∧
      validate states key value = none := by
  rw [publishChecked, isNone_some, if_neg Bool.false_ne_true] at h
  split at h
  · cases h
  · rename_i value hops
    rw [checkSchema] at h
    split at h
    · cases h
    · rename_i hvalid
      cases h
      exact ⟨rfl, value, hops, hvalid⟩

end Handlers

/-! ### Calls and teardowns -/

structure Rpc (ι τ : Type*) where
  store : StateStore τ
  presence : ι → List (String × String)

inductive RpcEvent (ι : Type*) where
  | call (i : ι) (ctx : CallContext) (method : Method) (args : Args)
  | teardown (i : ι)

namespace Rpc
variable {ι τ : Type*} [DecidableEq ι] (states : OrderedMap String SchemaNode)

def new (capacity : ℕ) : Rpc ι τ := ⟨.new capacity, fun _ => []⟩

/-- Ops that throw register no presence. -/
def perform (c : Rpc ι τ) (i : ι) (key : String) : Write → Rpc ι τ
  | .publish ops => { c with store := c.store.publish key ops }
  | .hydrate value => { c with store := c.store.hydrate key value }
  | .remove => { c with store := c.store.remove key }
  | .presence path value =>
    { store := c.store.publish key [⟨.update, path, value⟩]
      presence := match applyOps (c.store.entry key).value [⟨.update, path, value⟩] with
        | .error _ => c.presence
        | .ok _ => update c.presence i (c.presence i ++ [(key, path)]) }

def cleanPresence (store : StateStore τ) (presence : List (String × String)) : StateStore τ :=
  presence.foldl (fun store p => store.publish p.1 [⟨.remove, p.2, .undefined⟩]) store

def step (c : Rpc ι τ) : RpcEvent ι → Option (Rpc ι τ)
  | .call i ctx method args =>
    match handleBuiltinCall (some states) ctx c.store args method with
    | .ok (some (key, write)) => some (c.perform i key write)
    | _ => some c
  | .teardown i => some { c with store := cleanPresence c.store (c.presence i) }

def ValidAt (store : StateStore τ) (key : String) : Prop :=
  (store.snapshot key).2.2 = true → validate states key (store.snapshot key).2.1 = none

def Valid (c : Rpc ι τ) : Prop := ∀ key, ValidAt states c.store key

/-- No segment is a name that objects inherit. -/
def plainNames (path : String) : Bool :=
  match parsePath path with
  | .error _ => true
  | .ok segments => segments.all fun seg => !inherited seg

/-- The schema of the key allows what an op puts at the path. -/
def Allowed (store : StateStore τ) (key path : String) (value : JsValue) : Prop :=
  plainNames path = true ∧ match states.get? key, parsePath path with
    | some node, .ok segments => node = .simple "" ∨
        Property.Allows value segments node (some (store.snapshot key).2.1) key
    | _, _ => True

def CleanupAllowed : StateStore τ → List (String × String) → Prop
  | _, [] => True
  | store, p :: presence => Allowed states store p.1 p.2 .undefined ∧
      CleanupAllowed (store.publish p.1 [⟨.remove, p.2, .undefined⟩]) presence

/-- Where a call or a teardown checks less than it writes, the schema allows what is written. -/
def Permits (c : Rpc ι τ) : RpcEvent ι → Prop
  | .call _ ctx .set args =>
    ∀ key ∈ args.state, Reaches ctx.identity (c.store.snapshot key).2.1 args.value
  | .call _ _ .patch args => ∀ fields ∈ args.patch, ∀ f ∈ fields, inherited f.1 = false
  | .call _ _ .setIn args => ∀ path ∈ args.path, plainNames path = true
  | .call _ _ .delete _ => True
  | .call _ _ .presence args =>
    ∀ key ∈ args.state, ∀ path ∈ args.path, Allowed states c.store key path args.value
  | .teardown i => CleanupAllowed states c.store (c.presence i)

variable {states} {c : Rpc ι τ} {key : String} {store : StateStore τ}

theorem validate_applyOps {path : String} {kind : DeltaOpKind} {value next : JsValue}
    (hallowed : Allowed states store key path value) (hvalue : kind = .remove → value = .undefined)
    (hops : applyOps (store.snapshot key).2.1 [⟨kind, path, value⟩] = .ok next) :
    validate states key next = none := by
  obtain ⟨hplain, hnode⟩ := hallowed
  have hone : applyOne (store.snapshot key).2.1 ⟨kind, path, value⟩ = .ok next := by
    simpa [applyOps] using hops
  obtain ⟨segments, hpath, hat⟩ := bind_eq_ok_iff.mp hone
  rw [plainNames, hpath] at hplain
  rw [validate]
  split
  · rfl
  · rfl
  · next node hsimple hget =>
    rw [hget, hpath] at hnode
    refine Property.validateNode_applyAt (fun name hname => ?_) hvalue
      (hnode.resolve_left hsimple) hat
    simpa using all_eq_true.mp hplain name hname

theorem validAt_publish_allowed {path : String} {kind : DeltaOpKind} {value : JsValue}
    (hallowed : Allowed states store key path value) (hvalue : kind = .remove → value = .undefined)
    (h : ∀ other, ValidAt states store other) (other : String) :
    ValidAt states (store.publish key [⟨kind, path, value⟩]) other := by
  by_cases hother : other = key
  · subst hother
    have hentry : (store.entry other).value = (store.snapshot other).2.1 := by rw [snapshot_eq]
    cases hops : applyOps (store.entry other).value [⟨kind, path, value⟩] with
    | error =>
      rw [ValidAt, snapshot_publish_of_error hops]
      exact h other
    | ok =>
      rw [ValidAt, snapshot_publish_of_ok hops, update_self]
      exact fun _ => validate_applyOps hallowed hvalue (hentry ▸ hops)
  · rw [ValidAt, StateStore.publish, snapshot_update, update_of_ne hother]
    exact h other

theorem validAt_cleanPresence {presence : List (String × String)}
    (hallowed : CleanupAllowed states store presence) (h : ∀ other, ValidAt states store other) :
    ∀ other, ValidAt states (cleanPresence store presence) other := by
  induction presence generalizing store with
  | nil => exact h
  | cons p presence ih =>
    exact ih hallowed.2 (validAt_publish_allowed hallowed.1 (fun _ => rfl) h)

theorem snapshot_perform_of_ne {other : String} (h : other ≠ key) (i : ι) (write : Write) :
    (c.perform i key write).store.snapshot other = c.store.snapshot other := by
  cases write with
  | publish | presence => rw [perform, StateStore.publish, snapshot_update, update_of_ne h]
  | hydrate => rw [perform, StateStore.hydrate, snapshot_update, update_of_ne h]
  | remove => rw [perform, snapshot_eq, entry_remove_of_ne _ h, snapshot_eq]

theorem validAt_publish_of_ok {ops : List DeltaOp} {value : JsValue}
    (hops : applyOps (store.snapshot key).2.1 ops = .ok value)
    (hvalid : validate states key value = none) : ValidAt states (store.publish key ops) key := by
  rw [snapshot_eq] at hops
  rw [ValidAt, snapshot_publish_of_ok hops, update_self]
  exact fun _ => hvalid

theorem validAt_publishChecked {ops : List DeltaOp}
    (h : publishChecked (some states) c.store key ops = .ok (some write)) (i : ι) :
    ValidAt states (c.perform i key write).store key := by
  obtain ⟨rfl, _, hops, hvalid⟩ := publishChecked_eq_some h
  exact validAt_publish_of_ok hops hvalid

theorem validAt_handleSet {ctx : CallContext} {args : Args}
    (h : handleSet (some states) ctx c.store args key = .ok (some write))
    (hok : Reaches ctx.identity (c.store.snapshot key).2.1 args.value) (i : ι) :
    ValidAt states (c.perform i key write).store key := by
  rw [handleSet, checkSchema] at h
  split at h
  · cases h
  · next hvalid =>
    rw [Except.ok.injEq] at h
    split_ifs at h
    · cases h
      exact validAt_publish_of_ok (applyOps_diffShallow hok ctx.perm) hvalid
    · cases h
      rw [ValidAt, perform, StateStore.hydrate, snapshot_update, update_self]
      exact fun _ => hvalid

theorem validAt_perform {ctx : CallContext} {args : Args} {method : Method} {i : ι}
    (hvalid : c.Valid states) (hok : c.Permits states (.call i ctx method args))
    (hstate : args.state = some key)
    (h : handleMethod (some states) ctx c.store args key method = .ok (some write)) :
    ValidAt states (c.perform i key write).store key := by
  cases method with
  | set => exact validAt_handleSet h (hok key hstate) i
  | presence =>
    rw [handleMethod, handlePresence] at h
    split at h
    · cases h
    · next path hpath =>
      cases h
      exact validAt_publish_allowed (hok key hstate path hpath) DeltaOpKind.noConfusion hvalid key
  | patch =>
    rw [handleMethod, handlePatchCall] at h
    split at h
    · cases h
    · cases h
    · exact validAt_publishChecked h i
  | setIn =>
    rw [handleMethod, handleSetIn] at h
    split at h
    · cases h
    · exact validAt_publishChecked h i
  | delete =>
    cases h
    rw [ValidAt, perform, snapshot_eq, entry_remove]
    exact fun hinit => absurd hinit Bool.false_ne_true

theorem Valid.step {e : RpcEvent ι} {t : Rpc ι τ} (h : c.Valid states) (hok : c.Permits states e)
    (hstep : c.step states e = some t) : t.Valid states := by
  cases e with
  | call i ctx method =>
    rw [Rpc.step] at hstep
    split at hstep
    swap
    · cases hstep
      exact h
    rename_i key write hcall
    cases hstep
    obtain ⟨hstate, -, hmethod⟩ := handleBuiltinCall_eq_some hcall
    intro other
    by_cases hother : other = key
    · subst hother
      exact validAt_perform h hok hstate hmethod
    · rw [ValidAt, snapshot_perform_of_ne hother]
      exact h other
  | teardown i =>
    cases hstep
    exact validAt_cleanPresence hok h

/-- From an empty store, the values of all keys pass their schemas at the end of every run in which
each `state.set` reaches the value that it checked, and each `state.presence` and each teardown
writes what the schema allows. -/
theorem stored_values_pass {last : Rpc ι τ} {events : List (RpcEvent ι)} {capacity : ℕ}
    (hrun : run (step states) (.new capacity) events = some last)
    (hok : Along (step states) (Permits states) (.new capacity : Rpc ι τ) events) :
    last.Valid states := by
  have hnew : (.new capacity : Rpc ι τ).Valid states :=
    fun _ hinit => absurd hinit Bool.false_ne_true
  exact invariant_along (fun _ _ _ h hok hstep => h.step hok hstep) hnew hok hrun

def boolAtK : OrderedMap String SchemaNode := OrderedMap.empty.insert "k" (.simple "Bool")

def plainContext : CallContext :=
  ⟨fun _ => true, ⟨fun _ _ => false, Bool.noConfusion⟩, id, fun _ => .refl _⟩

def userInRoom : OrderedMap String SchemaNode :=
  OrderedMap.empty.insert "room"
    (.full "Object" false (OrderedMap.empty.insert "user" (.full "String" true .empty)))

def comeAndLeave : List (RpcEvent Unit) :=
  [.call () plainContext .set ⟨some "room", none, .object .empty, none⟩,
    .call () plainContext .presence ⟨some "room", some "/user", .string "ann", none⟩, .teardown ()]

instance decidableAllows (value : JsValue) :
    (segments : List String) → (node : SchemaNode) → (found : Option JsValue) → (path : String) →
      Decidable (Property.Allows value segments node found path)
  | [], _, _, _ => inferInstanceAs (Decidable (_ = _))
  | seg :: rest, _, found, path =>
    have := fun field => decidableAllows value rest field ((childFor seg found).get? seg)
      s!"{path}.{seg}"
    inferInstanceAs (Decidable (_ ∧ ∀ field ∈ _, _))

theorem come_and_leave_passes :
    ∃ c : Rpc Unit Unit, run (step userInRoom) (.new 10) comeAndLeave = some c ∧
      c.store.snapshot "room" = (3, .object .empty, true) ∧ c.Valid userInRoom := by
  have hok : Along (step userInRoom) (Permits userInRoom) (.new 10 : Rpc Unit Unit)
      comeAndLeave := by
    refine ⟨?_, ?_, ?_, trivial⟩
    · rintro _ ⟨⟩ _ _ ⟨⟩
    · rintro _ ⟨⟩ _ ⟨⟩
      exact ⟨by decide +kernel, .inr (by decide +kernel)⟩
    · exact ⟨⟨by decide +kernel, .inr (by decide +kernel)⟩, trivial⟩
  exact ⟨_, rfl, by decide +kernel, stored_values_pass rfl hok⟩

/-- The value of a presence is not checked. -/
theorem presence_not_checked : ∃ c : Rpc Unit Unit, run (step boolAtK) (.new 10)
        [.call () plainContext .presence ⟨some "k", some "/", .null, none⟩] = some c ∧
      c.store.snapshot "k" = (1, .null, true) ∧
      validate boolAtK "k" .null = some "k: unexpected null (field is not nullable)" :=
  ⟨_, rfl, rfl, by decide +kernel⟩

end Rpc

end Sodp.ScriptServer
