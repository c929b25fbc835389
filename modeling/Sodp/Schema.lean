import Sodp.SessionRuns

/-!
# Schemas

`schema.rs`: a value is checked from the root down, and fields that are not declared are not looked
at. The order of the declared fields, a hash map in the source, decides which of several errors is
reported, never whether there is one.

Every method of a CALL validates the value it is about to store. The removal of the presence paths
does not, and it can take away a field that the schema asks for.
-/

namespace Sodp
open StateStore Transition OrderedMap List Option

inductive SchemaNode where
  | simple (typeName : String)
  | full (typeName : String) (nullable : Bool) (fields : OrderedMap String SchemaNode)

namespace Value

def kind : Value → String
  | .null => "null"
  | .bool _ => "Bool"
  | .number (.float _) => "Float"
  | .number (.int _) => "Int"
  | .string _ => "String"
  | .array _ => "Array"
  | .object _ => "Object"

def isString : Value → Bool
  | .string _ => true
  | _ => false

def isInt : Value → Bool
  | .number (.int i) => decide (-2 ^ 63 ≤ i ∧ i < 2 ^ 64)
  | _ => false

def isNumber : Value → Bool
  | .number _ => true
  | _ => false

def isBoolean : Value → Bool
  | .bool _ => true
  | _ => false

def isArray : Value → Bool
  | .array _ => true
  | _ => false

end Value

namespace SchemaNode

def expect (ok : Bool) (typeName : String) (value : Value) (path : String) : Except String Unit :=
  if ok then .ok () else .error s!"{path}: expected {typeName}, got {value.kind}"

/-- `validate_node` up to the declared fields of an object, which `fields` checks. -/
def validateType (typeName : String) (nullable : Bool) (value : Value) (path : String)
    (fields : OrderedMap String Value → Except String Unit) : Except String Unit :=
  if value = .null then
    if nullable then .ok () else .error s!"{path}: unexpected null (field is not nullable)"
  else if typeName = "Any" then .ok ()
  else if typeName = "String" then expect value.isString typeName value path
  else if typeName = "Int" then expect value.isInt typeName value path
  else if typeName = "Float" then expect value.isNumber typeName value path
  else if typeName = "Bool" then expect value.isBoolean typeName value path
  else if typeName = "Array" then expect value.isArray typeName value path
  else if typeName = "Object" then
    match value with
    | .object obj => fields obj
    | _ => .error s!"{path}: expected Object, got {value.kind}"
  else .error s!"{path}: unknown schema type '{typeName}'"

def validateNode : SchemaNode → Value → String → Except String Unit
  | .simple typeName, value, path => validateType typeName false value path fun _ => .ok ()
  | .full typeName nullable ⟨ks, _, f⟩, value, path =>
    validateType typeName nullable value path fun obj =>
      ks.attach.forM fun fieldName =>
        validateNode (f fieldName) ((obj.get? fieldName.1).getD .null) s!"{path}.{fieldName.1}"

def nullable : SchemaNode → Bool
  | .simple _ => false
  | .full _ nullable _ => nullable

/-- The schema of a field, where a node declares one. -/
def field? : SchemaNode → String → Option SchemaNode
  | .full typeName _ fields, name => if typeName = "Object" then fields.get? name else none
  | .simple _, _ => none

/-- The node does not ask for what stands at a position: some field on the way is not declared, or
the last one may be null. -/
def Spares : SchemaNode → List String → Prop
  | node, [] => node.nullable = true
  | node, key :: rest => ∀ field ∈ node.field? key, field.Spares rest

instance decidableSpares : (parts : List String) → (node : SchemaNode) →
    Decidable (node.Spares parts)
  | [], node => inferInstanceAs (Decidable (node.nullable = true))
  | key :: rest, node =>
    have := decidableSpares rest
    inferInstanceAs (Decidable (∀ field ∈ node.field? key, field.Spares rest))

/-! ### Removing what a schema spares -/

section Remove
variable {node : SchemaNode} {path key : String} {obj obj' : OrderedMap String Value}

theorem validateNode_null (h : node.nullable = true) : node.validateNode .null path = .ok () := by
  cases node with
  | simple => cases h
  | full => simpa [validateNode, validateType, nullable] using h

theorem validateType_object {typeName : String} {nullable : Bool}
    {fields fields' : OrderedMap String Value → Except String Unit}
    (hfields : typeName = "Object" → fields obj = .ok () → fields' obj' = .ok ())
    (h : validateType typeName nullable (.object obj) path fields = .ok ()) :
    validateType typeName nullable (.object obj') path fields' = .ok () := by
  rw [validateType, if_neg nofun] at h ⊢
  split_ifs at h ⊢ with hany _ _ _ _ _ hobject
  · rfl
  · exact h
  · exact h
  · exact h
  · exact h
  · exact h
  · exact hfields hobject h

theorem forM_eq_ok_iff {α : Type} {f : α → Except String Unit} {l : List α} :
    l.forM f = .ok () ↔ ∀ a ∈ l, f a = .ok () := by
  induction l with
  | nil => exact iff_of_true rfl fun _ ha => absurd ha not_mem_nil
  | cons a l ih =>
    rw [forall_mem_cons, ← ih]
    exact bind_eq_ok_iff.trans Unique.exists_iff

theorem validateNode_object (h : node.validateNode (.object obj) path = .ok ())
    (hothers : ∀ name, name ≠ key → obj'.get? name = obj.get? name)
    (hkey : ∀ field ∈ node.field? key,
      field.validateNode ((obj.get? key).getD .null) s!"{path}.{key}" = .ok () →
        field.validateNode ((obj'.get? key).getD .null) s!"{path}.{key}" = .ok ()) :
    node.validateNode (.object obj') path = .ok () := by
  cases node with
  | simple => exact validateType_object (fun _ _ => rfl) h
  | full typeName nullable fields =>
    obtain ⟨ks, hs, f⟩ := fields
    refine validateType_object (fun hobject hall => ?_) h
    rw [forM_eq_ok_iff] at hall ⊢
    intro name hname
    by_cases hn : name.1 = key
    · subst hn
      refine hkey (f name) ?_ (hall name hname)
      rw [field?, if_pos hobject]
      exact get?_val ⟨ks, hs, f⟩ name
    · rw [hothers name.1 hn]
      exact hall name hname

theorem validateNode_removeIn {value : Value} {rest : List String}
    (h : node.validateNode value path = .ok ()) (hspares : node.Spares (key :: rest)) :
    node.validateNode (removeInRecursive value (key :: rest)) path = .ok () := by
  induction rest generalizing node value path key with
  | nil =>
    cases value with
    | object obj =>
      refine validateNode_object h (fun name hn => get?_erase_of_ne _ hn) fun field hfield _ => ?_
      rw [get?_erase_self]
      exact validateNode_null (hspares field hfield)
    | _ => exact h
  | cons next rest ih =>
    cases value with
    | object obj =>
      cases hchild : obj.get? key with
      | none =>
        simp only [removeInRecursive, hchild]
        exact h
      | some =>
        simp only [removeInRecursive, hchild]
        refine validateNode_object h (fun name hn => get?_insert_of_ne _ hn _)
          fun field hfield hold => ?_
        rw [hchild, getD_some] at hold
        rw [get?_insert_self, getD_some]
        exact ih hold (hspares field hfield)
    | _ => exact h

end Remove

end SchemaNode

/-- The position that `json_remove_in` takes away. -/
def removedParts (path : String) : List String :=
  if path = "" ∨ path = "/" then [] else pathParts path

theorem SchemaNode.validateNode_jsonRemoveIn {node : SchemaNode} {value : Value} {key path : String}
    (h : node.validateNode value key = .ok ()) (hspares : node.Spares (removedParts path)) :
    node.validateNode (jsonRemoveIn value path) key = .ok () := by
  rw [removedParts] at hspares
  rw [jsonRemoveIn]
  split_ifs at hspares ⊢
  · exact validateNode_null hspares
  · obtain ⟨part, rest, hparts⟩ := exists_cons_of_ne_nil (pathParts_ne_nil path)
    rw [hparts] at hspares ⊢
    exact validateNode_removeIn h hspares
  · exact h

/-- A key without a schema takes any value. -/
def SchemaRegistry.ofStates (states : OrderedMap String SchemaNode) : SchemaRegistry where
  validate key value :=
    match states.get? key with
    | none => .ok ()
    | some node => node.validateNode value key

namespace SodpServer

theorem accepts_of_mem_frameCalls {srv : SodpServer} {session : Session} {frame : Frame}
    {now : ℕ} {call : Call} (h : call ∈ srv.frameCalls session frame now) : srv.Accepts call := by
  rw [frameCalls] at h
  split_ifs at h
  · rw [mem_toList, map_eq_some_iff] at h
    obtain ⟨_, hrequest, rfl⟩ := h
    obtain ⟨_, hprepare⟩ := prepare_of_accepted hrequest
    exact (prepare_eq_ok hprepare).2.1
  · cases h

def SchemaHolds (srv : SodpServer) : Prop :=
  ∀ schema ∈ srv.schema, ∀ k e, srv.state.get k = some e → schema.validate k e.value = .ok ()

end SodpServer

theorem StateStore.valid_execAll {V : String → Value → Prop} {s : StateStore}
    {calls : List Call} (hs : ∀ k e, s.get k = some e → V k e.value)
    (hcalls : ∀ call ∈ calls, ∀ value, call.value = some value → V call.key value) :
    ∀ k e, (s.execAll calls).get k = some e → V k e.value := by
  induction calls generalizing s with
  | nil => exact hs
  | cons call calls ih =>
    rw [forall_mem_cons] at hcalls
    refine ih (s := (s.exec call).1) (fun k e he => ?_) hcalls.2
    rw [get_exec, get_touch] at he
    split_ifs at he with hk
    · obtain ⟨value, hvalue, rfl⟩ := map_eq_some_iff.mp he
      exact hk ▸ hcalls.1 value hvalue
    · exact hs k e he

theorem StateStore.valid_cleanupCalls {V : String → Value → Prop} {s : StateStore}
    {entries : List PresenceEntry} (hs : ∀ k e, s.get k = some e → V k e.value)
    (hentries : ∀ entry ∈ entries, ∀ value, V entry.stateKey value →
      V entry.stateKey (jsonRemoveIn value entry.path)) :
    ∀ k e, (s.execAll (SodpServer.cleanupCalls s entries)).get k = some e → V k e.value := by
  induction entries generalizing s with
  | nil => exact hs
  | cons entry entries ih =>
    rw [forall_mem_cons] at hentries
    rw [SodpServer.cleanupCalls]
    cases hget : s.get entry.stateKey with
    | none => exact ih hs hentries.2
    | some found =>
      refine ih (@valid_execAll V s [SodpServer.cleanupCall entry found] hs ?_) hentries.2
      intro call hcall value hvalue
      cases mem_singleton.mp hcall
      cases hvalue
      exact hentries.1 _ (hs _ _ hget)

namespace Sessions
open SodpServer

/-- The schemas do not ask for what a disconnecting session has put into the store. -/
def CleanupSpared (states : OrderedMap String SchemaNode) (c : Sessions) (e : Event) : Prop :=
  e.input = .disconnect → ∀ session ∈ c.session e.session, ∀ entry ∈ session.presence,
    ∀ node ∈ states.get? entry.stateKey, node.Spares (removedParts entry.path)

instance decidableCleanupSpared (states : OrderedMap String SchemaNode) (c : Sessions) :
    DecidablePred (c.CleanupSpared states)
  | ⟨i, _, .disconnect⟩ => decidable_of_iff (∀ session ∈ c.session i, ∀ entry ∈ session.presence,
      ∀ node ∈ states.get? entry.stateKey, node.Spares (removedParts entry.path))
      ⟨fun h _ => h, fun h => h rfl⟩
  | ⟨_, _, .connect⟩ | ⟨_, _, .frame _⟩ | ⟨_, _, .drain⟩ => isTrue (by simp [CleanupSpared])

variable {identity : String → Identity} {c c' : Sessions} {e : Event}

theorem schemaHolds_step {acl : Option AclRegistry} {states : OrderedMap String SchemaNode}
    (hid : Identified identity acl (some (.ofStates states)) c) (h : c.server.SchemaHolds)
    (hspared : c.CleanupSpared states e) (hstep : step identity c e = some c') :
    c'.server.SchemaHolds := by
  intro registry hregistry
  rw [(hid.step hstep).schema, ← hid.schema] at hregistry
  have hvalid := h registry hregistry
  rw [state_step hstep, calls]
  split
  · next session _ =>
    refine valid_execAll (V := fun k v => registry.validate k v = .ok ()) hvalid
      fun call hcall value hvalue => ?_
    have haccepts := accepts_of_mem_frameCalls hcall
    cases call with
    | apply =>
      cases hvalue
      exact haccepts registry hregistry
    | delete => cases hvalue
  · next session hinput hsession =>
    refine valid_cleanupCalls (V := fun k v => registry.validate k v = .ok ()) hvalid
      fun entry hentry value hvalue => ?_
    obtain rfl := some.inj (hregistry.symm.trans hid.schema)
    rw [SchemaRegistry.ofStates] at hvalue ⊢
    dsimp only at hvalue ⊢
    split at hvalue
    · rfl
    · next node hnode =>
      exact SchemaNode.validateNode_jsonRemoveIn hvalue
        (hspared hinput session hsession entry hentry node hnode)
  · exact hvalid

/-- From an empty store, whatever is stored under a key with a schema passes it, as long as no
session that disconnects has put there what the schema asks for. -/
theorem stored_values_valid {server : SodpServer} {states : OrderedMap String SchemaNode}
    (hschema : server.schema = some (.ofStates states)) (hempty : ∀ k, server.state.get k = none)
    {events : List Event}
    (hvalid : Transition.Along (step identity) (CleanupSpared states) (start server) events)
    (hrun : run (step identity) (start server) events = some c) {k : String}
    {node : SchemaNode} (hnode : states.get? k = some node) {entry : StateEntry}
    (hentry : c.server.state.get k = some entry) : node.validateNode entry.value k = .ok () := by
  have hinv : Identified identity server.acl (some (.ofStates states)) c ∧
      c.server.SchemaHolds := by
    refine invariant_along (I := fun c => Identified identity server.acl
      (some (.ofStates states)) c ∧ c.server.SchemaHolds) ?_ ?_ hvalid hrun
    · exact fun c e c' h hok hstep => ⟨h.1.step hstep, schemaHolds_step h.1 h.2 hok hstep⟩
    · refine ⟨hschema ▸ .start identity server, fun schema _ k e he => ?_⟩
      rw [start, hempty] at he
      cases he
  have hall := hinv.2 _ hinv.1.schema k entry hentry
  simpa only [SchemaRegistry.ofStates, hnode] using hall

/-! ### Runs -/

def roomStates (user : SchemaNode) : OrderedMap String SchemaNode :=
  .insert .empty "room" (.full "Object" false (.insert .empty "user" user))

def roomServer (user : SchemaNode) : SodpServer :=
  { SodpServer.new with schema := some (.ofStates (roomStates user)) }

def anyone (_ : String) : Identity := ⟨none, .null⟩

def visit : List Event :=
  [⟨"a", 0, .connect⟩, ⟨"a", 0, .frame (presenceFrame "room" "/user" (.string "ann"))⟩,
    ⟨"a", 0, .disconnect⟩]

theorem stored_values_valid_nullable : ∃ c entry, run (step anyone)
        (start (roomServer (.full "String" true .empty))) visit = some c ∧
      c.server.state.get "room" = some entry ∧ entry.version = 2 ∧
      SchemaNode.validateNode (.full "Object" false
        (.insert .empty "user" (.full "String" true .empty))) entry.value "room" = .ok () := by
  obtain ⟨c, hc, entry, hentry, hversion⟩ : ∃ c ∈ run (step anyone)
      (start (roomServer (.full "String" true .empty))) visit,
      ∃ entry ∈ c.server.state.get "room", entry.version = 2 := by
    decide +kernel
  exact ⟨c, entry, hc, hentry, hversion,
    stored_values_valid rfl (fun _ => rfl) (by decide +kernel) hc (get?_insert_self ..) hentry⟩

/-- A field that is neither nullable nor shown by anybody else goes with its session. -/
theorem cleanup_breaks_schema :
    (run (step anyone) (start (roomServer (.simple "String"))) visit).map
        (fun c => (c.server.state.valueOf "room",
          (SchemaRegistry.ofStates (roomStates (.simple "String"))).validate "room"
            (c.server.state.valueOf "room"))) =
      some (.ofFields [], .error "room.user: unexpected null (field is not nullable)") := by
  decide +kernel

end Sessions

end Sodp
