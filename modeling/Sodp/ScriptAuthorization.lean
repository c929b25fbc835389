import Sodp.ScriptAccessRules
import Sodp.ScriptCalls
import Sodp.ScriptTeardown

/-!
# Authorization on the TypeScript server

`session.ts` asks the ACL when a handler comes to a key and when a call writes. An AUTH frame
replaces the claims of its session. The subscriptions, handlers and presence entries that were
granted under the old claims stay, and are not checked again.

`authorize` answers when it is asked, in `check`, and the handler goes on with that answer after its
await. What a call sends is not added to the caches of the clients.
-/

namespace Sodp.ScriptServer
open Transition Function List Option ScriptServer.StateStore Server
open OrderedMap hiding keys

variable {ι κ : Type*}

/-- `verdict` is what `authorize` has answered to a handler that still waits. -/
structure AuthServer (ι κ : Type*) where
  server : Server ι κ
  claims : ι → Option SodpClaims
  verdict : κ → Option Bool

inductive AuthEvent (ι κ : Type*) where
  /-- `authenticate` accepts a token -/
  | auth (i : ι) (claims : SodpClaims)
  | check (h : κ)
  | session (e : SessionEvent ι κ)
  | call (i : ι) (ctx : CallContext) (method : Method) (args : Args)

/-- The session that a call or a teardown writes for. -/
def AuthEvent.writer : AuthEvent ι κ → Option ι
  | .session (.error i) | .session (.close i) | .call i .. => some i
  | _ => none

namespace AuthServer
variable [DecidableEq ι] (acl : AclRegistry) (schema : Option (OrderedMap String SchemaNode))
  (wire : JsValue → JsValue)

def start (capacity : ℕ) (cached : ι → String → JsValue) : AuthServer ι κ :=
  ⟨.start capacity cached, fun _ => none, fun _ => none⟩

def called (c : AuthServer ι κ) (i : ι) (ctx : CallContext) (method : Method) (args : Args) :
    Option (String × Write) :=
  (c.claims i).bind fun claims =>
    match handleBuiltinCall schema
        { ctx with writeAllowed := fun key => acl.canWrite key (some claims) } c.server.store args
        method with
    | .ok written => written
    | .error _ => none

def perform (s : Server ι κ) (i : ι) (key : String) (write : Write) : Server ι κ :=
  let rpc := Rpc.perform ⟨s.store, fun i => (s.sessions i).presence⟩ i key write
  { s with
    store := rpc.store
    sessions := fun j => { s.sessions j with presence := rpc.presence j } }

/-- The frames that are served, and the answers of `authorize`. Only calls register presence. -/
def admits (c : AuthServer ι κ) : SessionEvent ι κ → Bool
  | .watch _ i _ | .resume _ i _ _ | .unwatch i _ => (c.claims i).isSome
  | .authorized h .allowed => c.verdict h = some true
  | .authorized h .denied => c.verdict h = some false
  | .registerPresence .. => false
  | _ => true

section Steps
variable [DecidableEq κ]

def verdictAfter (c : AuthServer ι κ) : SessionEvent ι κ → κ → Option Bool
  | .watch h _ _ | .resume h _ _ _ | .authorized h _ | .hydrated h _ | .finish h =>
    update c.verdict h none
  | _ => c.verdict

/-- Without claims `authorize` is not asked. -/
def step (c : AuthServer ι κ) : AuthEvent ι κ → Option (AuthServer ι κ)
  | .auth i claims => some { c with claims := update c.claims i (some claims) }
  | .check h =>
    match c.server.handlers h with
    | none => none
    | some job =>
      if job.stage = .authorizing ∧ c.verdict h = none then
        some { c with verdict := update c.verdict h (some
          ((c.claims job.session).all fun claims => acl.canRead job.key (some claims))) }
      else none
  | .session e =>
    if c.admits e then (c.server.step wire e).map (⟨·, c.claims, c.verdictAfter e⟩) else none
  | .call i ctx method args =>
    if (c.server.sessions i).socket = .closed then none
    else match c.called acl schema i ctx method args with
      | none => some c
      | some (key, write) => some { c with server := perform c.server i key write }

end Steps

def subscribed (c : AuthServer ι κ) (key : String) : List (ι × String) :=
  (c.server.store.entry key).subscribers.map fun sub => (sub.1, key)

/-- The sessions for which an event makes a STATE_INIT or DELTA, with its key. Ops that throw, and a
handler with nothing to replay, make none. -/
def sends (c : AuthServer ι κ) : AuthEvent ι κ → List (ι × String)
  | .session (.authorized h .allowed) | .session (.finish h) =>
    (c.server.handlers h).toList.map fun job => (job.session, job.key)
  | .session (.publish key _) => c.subscribed key
  | .session (.error i) | .session (.close i) =>
    (c.server.sessions i).presence.flatMap fun p => c.subscribed p.1
  | .call i ctx method args =>
    (c.called acl schema i ctx method args).toList.flatMap fun write => c.subscribed write.1
  | _ => []

/-- The ACL grants a key to the session under the claims that it has. -/
def Permits (claims : ι → Option SodpClaims) (check : String → Option SodpClaims → Bool) (i : ι)
    (key : String) : Prop :=
  ∃ identity, claims i = some identity ∧ check key (some identity) = true

/-- The session is subscribed to the key, or a handler of it has been allowed. -/
def Admitted (c : AuthServer ι κ) (i : ι) (key : String) : Prop :=
  ((c.server.sessions i).subs.get? key).isSome ∨
    ∃ h job, c.server.handlers h = some job ∧ (job.session = i ∧ job.key = key) ∧
      (job.stage ≠ .authorizing ∨ c.verdict h = some true)

/-- The new claims of a session are granted all that the session has. -/
def Keeps (c : AuthServer ι κ) : AuthEvent ι κ → Prop
  | .auth i claims => (∀ key, c.Admitted i key → acl.canRead key (some claims) = true) ∧
      ∀ p ∈ (c.server.sessions i).presence, acl.canWrite p.1 (some claims) = true
  | _ => True

/-! ### What a step keeps -/

structure Granted (claims : ι → Option SodpClaims) (i : ι) (session : SodpSession) : Prop where
  read : ∀ key, (session.subs.get? key).isSome → Permits claims acl.canRead i key
  write : ∀ p ∈ session.presence, Permits claims acl.canWrite i p.1

structure Sound (c : AuthServer ι κ) : Prop where
  attached : c.server.Attached
  sessions : ∀ i, Granted acl c.claims i (c.server.sessions i)
  handlers : ∀ h job, c.server.handlers h = some job → (c.claims job.session).isSome ∧
    (job.stage ≠ .authorizing ∨ c.verdict h = some true →
      Permits c.claims acl.canRead job.session job.key)

variable {acl schema wire} {c c' : AuthServer ι κ} {t : Server ι κ} {key : String} {i : ι}

section
variable (hc : c.Sound acl)
include hc

theorem Sound.setSession {store : StateStore (ι × ℕ)} {i : ι} {session : SodpSession}
    (hattached : (Server.setSession { c.server with store := store } i session).Attached)
    (hsession : Granted acl c.claims i session) :
    Sound acl { c with server := Server.setSession { c.server with store := store } i session } :=
  ⟨hattached, (forall_update_iff _ _).mpr ⟨hsession, fun j _ => hc.sessions j⟩, hc.handlers⟩

theorem Sound.setServer (hattached : t.Attached)
    (hsessions : t.sessions = c.server.sessions) (hhandlers : t.handlers = c.server.handlers) :
    Sound acl { c with server := t } := by
  refine ⟨hattached, fun i => ?_, fun h job hjob => hc.handlers h job (hhandlers ▸ hjob)⟩
  rw [hsessions]
  exact hc.sessions i

theorem Sound.publish (key : String) (ops : List DeltaOp) :
    Sound acl { c with server := c.server.publish wire key ops } :=
  hc.setServer (hc.attached.publish key ops) (c.server.sessions_publish wire key ops)
    (c.server.handlers_publish wire key ops)

theorem Sound.unwatchKey (i : ι) (key : String) :
    Sound acl { c with server := c.server.unwatchKey i key } := by
  have hattached := hc.attached.unwatchKey i key
  rw [Server.unwatchKey] at hattached ⊢
  split at hattached
  · exact hc
  · refine hc.setSession hattached ⟨fun other hother => (hc.sessions i).read other ?_,
      (hc.sessions i).write⟩
    rw [get?_erase] at hother
    split_ifs at hother
    · cases hother
    · exact hother

theorem Sound.subscribe (hkey : Permits c.claims acl.canRead i key) :
    Sound acl { c with server := c.server.subscribe i key } := by
  have hattached := hc.attached.subscribe i key
  rw [Server.subscribe] at hattached ⊢
  split at hattached
  · exact hc
  · refine hc.setSession hattached ⟨fun other hother => ?_, (hc.sessions i).write⟩
    rw [get?_insert] at hother
    split_ifs at hother with heq
    · exact heq ▸ hkey
    · exact (hc.sessions i).read other hother

theorem Sound.teardown (i : ι) :
    Sound acl { c with server := c.server.teardown wire i } := by
  have hclean := cleanPresence_induction wire
    (P := fun t => Sound acl { c with server := t }) (fun t key ops ht => ht.publish key ops)
    (c.server.sessions i).presence c.server hc
  exact hclean.setSession (hc.attached.teardown i)
    ⟨fun key hno => absurd hno Bool.false_ne_true, (hclean.sessions i).write⟩

theorem Sound.sendAll (frames : List (ι × ServerFrame)) :
    Sound acl { c with server := c.server.sendAll wire frames } :=
  ⟨hc.attached, hc.sessions, hc.handlers⟩

end

omit [DecidableEq ι] in
theorem called_eq_some {ctx : CallContext} {method : Method} {args : Args}
    {write : Write} (h : c.called acl schema i ctx method args = some (key, write)) :
    Permits c.claims acl.canWrite i key := by
  obtain ⟨claims, hclaims, hcall⟩ := bind_eq_some_iff.mp h
  split at hcall
  · rename_i hok
    cases hcall
    exact ⟨claims, hclaims, (handleBuiltinCall_eq_some hok).2.1⟩
  · cases hcall

theorem subscribers_perform {τ : Type*} (c : Rpc ι τ) (i : ι) (key : String) (write : Write)
    (other : String) : ((c.perform i key write).store.entry other).subscribers =
      (c.store.entry other).subscribers := by
  cases write with
  | publish ops => exact c.store.subscribers_publish key ops other
  | hydrate value => exact c.store.subscribers_hydrate key value other
  | presence => exact c.store.subscribers_publish key _ other
  | remove =>
    rw [Rpc.perform]
    by_cases hother : other = key
    · subst hother
      rw [entry_remove]
      rfl
    · rw [entry_remove_of_ne _ hother]

theorem Sound.call (hc : c.Sound acl) (hkey : Permits c.claims acl.canWrite i key)
    (write : Write) : Sound acl { c with server := perform c.server i key write } := by
  refine ⟨hc.attached.congr (subscribers_perform _ i key write) fun _ => rfl,
    fun j => ?_, hc.handlers⟩
  refine ⟨(hc.sessions j).read, fun p hp => ?_⟩
  dsimp only [perform] at hp
  cases write with
  | presence path value =>
    rw [Rpc.perform] at hp
    cases hops : applyOps (c.server.store.entry key).value [⟨.update, path, value⟩] with
    | error =>
      rw [hops] at hp
      exact (hc.sessions j).write p hp
    | ok =>
      rw [hops] at hp
      change p ∈ update (fun i => (c.server.sessions i).presence) i _ j at hp
      rw [update_apply] at hp
      split_ifs at hp with hj
      · subst hj
        rcases mem_append.mp hp with hp | hp
        · exact (hc.sessions j).write p hp
        · exact mem_singleton.mp hp ▸ hkey
      · exact (hc.sessions j).write p hp
  | _ => exact (hc.sessions j).write p hp

theorem Sound.auth (hc : c.Sound acl) {claims : SodpClaims}
    (hkeeps : c.Keeps acl (.auth i claims)) :
    Sound acl { c with claims := update c.claims i (some claims) } := by
  have hnew : ∀ {check j key}, (j = i → check key (some claims) = true) →
      Permits c.claims check j key → Permits (update c.claims i (some claims)) check j key := by
    rintro check j key hi ⟨old, hold, hcheck⟩
    rw [Permits]
    by_cases hj : j = i
    · rw [hj, update_self]
      exact ⟨claims, rfl, hi hj⟩
    · rw [update_of_ne hj]
      exact ⟨old, hold, hcheck⟩
  refine ⟨hc.attached, fun j => ⟨fun key hkey => ?_, fun p hp => ?_⟩, fun h job hjob => ⟨?_, ?_⟩⟩
  · exact hnew (fun hj => hkeeps.1 key (.inl (hj ▸ hkey))) ((hc.sessions j).read key hkey)
  · exact hnew (fun hj => hkeeps.2 p (hj ▸ hp)) ((hc.sessions j).write p hp)
  · dsimp only
    rw [update_apply]
    split_ifs
    · rfl
    · exact (hc.handlers h job hjob).1
  · intro hstage
    refine hnew (fun hi => hkeeps.1 _ (.inr ⟨h, job, hjob, ⟨hi, rfl⟩, hstage⟩)) ?_
    exact (hc.handlers h job hjob).2 hstage

theorem snapshot_unsubscribeAll (i : ι) (subs : List (String × ℕ))
    (store : ScriptServer.StateStore (ι × ℕ)) :
    (subs.foldl (fun store sub => store.unsubscribe sub.1 (i, sub.2)) store).snapshot =
      store.snapshot := by
  induction subs generalizing store with
  | nil => rfl
  | cons sub subs ih => rw [foldl_cons, ih, snapshot_unsubscribe]

theorem snapshot_cleanPresence {τ : Type*} (presence : List (String × String))
    (store : ScriptServer.StateStore τ) (h : key ∉ presence.map Prod.fst) :
    (Rpc.cleanPresence store presence).snapshot key = store.snapshot key := by
  rw [Rpc.cleanPresence]
  induction presence generalizing store with
  | nil => rfl
  | cons p presence ih =>
    rw [map_cons, mem_cons, not_or] at h
    rw [foldl_cons, ih _ h.2, ScriptServer.StateStore.publish, snapshot_update, update_of_ne h.1]

theorem snapshot_teardown (s : Server ι κ) (h : key ∉ (s.sessions i).presence.map Prod.fst) :
    (s.teardown wire i).store.snapshot key = s.store.snapshot key := by
  have hstore : ∀ (presence : List (String × String)) (s : Server ι κ),
      (s.cleanPresence wire presence).store = Rpc.cleanPresence s.store presence := by
    intro presence
    induction presence with
    | nil => exact fun _ => rfl
    | cons p presence ih =>
      intro s
      refine (ih (s.publish wire p.1 _)).trans ?_
      rw [store_publish]
      rfl
  refine (congrFun (snapshot_unsubscribeAll i _ _) key).trans ?_
  rw [hstore]
  exact snapshot_cleanPresence _ _ h

variable [DecidableEq κ]

theorem Sound.setHandler (hc : c.Sound acl) (h : κ) {next : Option (Handler ι)}
    (hnext : ∀ job, next = some job → (c.claims job.session).isSome ∧
      (job.stage ≠ .authorizing → Permits c.claims acl.canRead job.session job.key)) :
    Sound acl ⟨c.server.setHandler h next, c.claims, update c.verdict h none⟩ := by
  refine ⟨hc.attached, hc.sessions, fun h' job hjob => ?_⟩
  dsimp only at hjob ⊢
  by_cases hh : h' = h
  · subst hh
    rw [handlers_setHandler_self] at hjob
    rw [update_self]
    exact ⟨(hnext job hjob).1, fun hstage =>
      (hnext job hjob).2 (hstage.resolve_right (some_ne_none true).symm)⟩
  · rw [handlers_setHandler_of_ne _ hh] at hjob
    rw [update_of_ne hh]
    exact hc.handlers h' job hjob

theorem Sound.next (hc : c.Sound acl) {h : κ} {job : Handler ι}
    (hjob : c.server.handlers h = some job) (frames : List (ι × ServerFrame)) :
    Sound acl ⟨(c.server.sendAll wire frames).setHandler h job.next, c.claims,
      update c.verdict h none⟩ := by
  refine (hc.sendAll frames).setHandler h fun next hnext => ?_
  rw [Handler.next] at hnext
  split at hnext
  · cases hnext
  · cases hnext
    exact ⟨(hc.handlers h job hjob).1, fun hstage => absurd rfl hstage⟩

theorem Sound.session {e : SessionEvent ι κ} (hc : c.Sound acl) (hadmits : c.admits e = true)
    (hstep : c.server.step wire e = some t) : Sound acl ⟨t, c.claims, c.verdictAfter e⟩ := by
  have hattached := hc.attached.step hstep
  cases move_of_step hstep with
  | start h job hnone hstage he =>
    have hknown : (c.claims job.session).isSome := by
      rcases he with rfl | ⟨since, rfl⟩ <;> exact hadmits
    have hnext : Sound acl ⟨_, _, _⟩ := hc.setHandler h fun other
        (hother : some job = some other) => by
      cases hother
      exact ⟨hknown, fun hno => absurd hstage hno⟩
    rcases he with rfl | ⟨since, rfl⟩ <;> exact hnext
  | unwatch i keys =>
    exact unwatch_induction (P := fun t => Sound acl { c with server := t })
      (fun t key ht => ht.unwatchKey i key) keys c.server hc
  | authorized h job answer hjob =>
    cases answer with
    | allowed =>
      obtain ⟨hknown, hread⟩ := hc.handlers h job hjob
      have hkey := hread (.inr (of_decide_eq_true hadmits))
      refine ((hc.subscribe hkey).sendAll _).setHandler h fun next hnext => ?_
      cases hnext
      exact ⟨hknown, fun _ => hkey⟩
    | denied => exact hc.next hjob _
    | thrown => exact hc.setHandler h fun job hno => absurd hno.symm (some_ne_none job)
  | hydrated h job stream result hjob hstage =>
    have hstored : Sound acl { c with server := c.server.storeHydrated job.key result } :=
      hc.setServer hattached (c.server.sessions_storeHydrated job.key result)
        (c.server.handlers_storeHydrated job.key result)
    refine hstored.setHandler h fun next hnext => ?_
    cases hnext
    obtain ⟨hknown, hread⟩ := hc.handlers h job hjob
    refine ⟨hknown, fun _ => hread (.inl ?_)⟩
    rw [hstage]
    exact Stage.noConfusion
  | finish h job stream hjob => exact hc.next hjob _
  | publish key ops => exact hc.publish key ops
  | session i session hsubs hnext hsocket he =>
    rcases he with ⟨rfl, hpresence⟩ | ⟨key, _, rfl⟩
    · exact hc.setSession hattached
        ⟨hsubs ▸ (hc.sessions i).read, hpresence ▸ (hc.sessions i).write⟩
    · cases hadmits
  | torn i socket hopen he =>
    have hset : Sound acl { c with
        server := c.server.setSession i { c.server.sessions i with socket := socket } } :=
      hc.setSession (hc.attached.setSession rfl) ⟨(hc.sessions i).read, (hc.sessions i).write⟩
    rcases he with ⟨rfl, -⟩ | ⟨rfl, -⟩ <;> exact hset.teardown i

variable {e : AuthEvent ι κ}

theorem Sound.step (hc : c.Sound acl) (hkeeps : c.Keeps acl e)
    (hstep : c.step acl schema wire e = some c') : c'.Sound acl := by
  cases e with
  | auth =>
    cases hstep
    exact hc.auth hkeeps
  | check h =>
    rw [AuthServer.step] at hstep
    split at hstep
    · cases hstep
    · rename_i job hjob
      obtain ⟨-, heq⟩ := ite_none_right_eq_some.mp hstep
      cases heq
      refine ⟨hc.attached, hc.sessions, fun h' job' hjob' => ?_⟩
      dsimp only
      by_cases hh : h' = h
      · subst hh
        cases hjob.symm.trans hjob'
        obtain ⟨hknown, hread⟩ := hc.handlers h' job hjob
        refine ⟨hknown, fun hstage => hstage.elim (fun hstage => hread (.inl hstage))
          fun hall => ?_⟩
        obtain ⟨claims, hclaims⟩ := isSome_iff_exists.mp hknown
        rw [update_self, hclaims] at hall
        exact ⟨claims, hclaims, some.inj hall⟩
      · rw [update_of_ne hh]
        exact hc.handlers h' job' hjob'
  | session =>
    obtain ⟨hadmits, hmap⟩ := ite_none_right_eq_some.mp hstep
    obtain ⟨t, ht, rfl⟩ := map_eq_some_iff.mp hmap
    exact hc.session hadmits ht
  | call =>
    obtain ⟨-, hcall⟩ := ite_none_left_eq_some.mp hstep
    split at hcall
    · cases hcall
      exact hc
    · rename_i hcalled
      cases hcall
      exact hc.call (called_eq_some hcalled) _

/-! ### What a step sends and writes -/

theorem Sound.sends (hc : c.Sound acl)
    (hstep : c.step acl schema wire e = some c') (hsend : (i, key) ∈ c.sends acl schema e) :
    Permits c.claims acl.canRead i key := by
  have hsub : ∀ {other}, (i, key) ∈ c.subscribed other → Permits c.claims acl.canRead i key := by
    intro other hmem
    obtain ⟨⟨j, stream⟩, hsub, heq⟩ := mem_map.mp hmem
    cases heq
    have hcallback : (j, stream) ∈ c.server.callbacks j key :=
      mem_filter.mpr ⟨hsub, decide_eq_true rfl⟩
    rw [hc.attached j key] at hcallback
    obtain ⟨_, hstream, -⟩ := mem_map.mp hcallback
    exact (hc.sessions j).read key (isSome_of_mem (mem_toList.mp hstream))
  cases e with
  | auth | check => cases hsend
  | call =>
    obtain ⟨_, -, hmem⟩ := mem_flatMap.mp hsend
    exact hsub hmem
  | session e =>
    obtain ⟨hadmits, hmap⟩ := ite_none_right_eq_some.mp hstep
    cases e with
    | authorized h answer =>
      cases answer with
      | allowed =>
        obtain ⟨job, hjob, heq⟩ := mem_map.mp hsend
        cases heq
        exact (hc.handlers h job (mem_toList.mp hjob)).2 (.inr (of_decide_eq_true hadmits))
      | _ => cases hsend
    | finish h =>
      obtain ⟨job, hjob, heq⟩ := mem_map.mp hsend
      cases heq
      have hjob := mem_toList.mp hjob
      refine (hc.handlers h job hjob).2 (.inl fun hstage => ?_)
      simp [Server.step, hjob, hstage] at hmap
    | publish => exact hsub hsend
    | error | close =>
      obtain ⟨p, -, hmem⟩ := mem_flatMap.mp hsend
      exact hsub hmem
    | _ => cases hsend

theorem Sound.written (hc : c.Sound acl)
    (hstep : c.step acl schema wire e = some c') (hwriter : e.writer = some i)
    (hchange : c'.server.store.snapshot key ≠ c.server.store.snapshot key) :
    Permits c.claims acl.canWrite i key := by
  have htorn : ∀ {j socket}, c'.server = (c.server.setSession j
      { c.server.sessions j with socket := socket }).teardown wire j →
        Permits c.claims acl.canWrite j key := by
    intro j socket heq
    rw [heq] at hchange
    by_contra hno
    refine hchange (snapshot_teardown _ fun hkey => hno ?_)
    rw [sessions_setSession_self] at hkey
    obtain ⟨p, hp, rfl⟩ := mem_map.mp hkey
    exact (hc.sessions j).write p hp
  cases e with
  | auth | check => cases hwriter
  | call =>
    cases hwriter
    obtain ⟨-, hcall⟩ := ite_none_left_eq_some.mp hstep
    split at hcall
    · cases hcall
      exact absurd rfl hchange
    · rename_i key' write hcalled
      cases hcall
      by_cases hkey : key = key'
      · exact hkey ▸ called_eq_some hcalled
      · exact absurd (Rpc.snapshot_perform_of_ne hkey i write) hchange
  | session e =>
    obtain ⟨-, hmap⟩ := ite_none_right_eq_some.mp hstep
    obtain ⟨t, ht, rfl⟩ := map_eq_some_iff.mp hmap
    cases e with
    | error =>
      cases hwriter
      obtain ⟨-, heq⟩ := ite_none_left_eq_some.mp ht
      exact htorn (some.inj heq).symm
    | close =>
      cases hwriter
      obtain ⟨-, heq⟩ := ite_none_left_eq_some.mp ht
      exact htorn (some.inj heq).symm
    | _ => cases hwriter

/-- Along every run in which the new claims of a session are granted all that the session has: a
STATE_INIT or DELTA is made only for a session that may read its key, and a call or a teardown
changes only keys that its session may write. -/
theorem sends_and_writes_permitted {capacity : ℕ} {cached : ι → String → JsValue}
    {events : List (AuthEvent ι κ)} {e : AuthEvent ι κ}
    (hrun : run (step acl schema wire) (start capacity cached) events = some c)
    (hkeeps : Along (step acl schema wire) (Keeps acl) (start capacity cached) events)
    (hstep : c.step acl schema wire e = some c') :
    (∀ i key, (i, key) ∈ c.sends acl schema e → Permits c.claims acl.canRead i key) ∧
      ∀ i key, e.writer = some i → c'.server.store.snapshot key ≠ c.server.store.snapshot key →
          Permits c.claims acl.canWrite i key := by
  have hstart : (start capacity cached : AuthServer ι κ).Sound acl := by
    refine Sound.mk (attached_start capacity cached) (fun i => ⟨fun key hno => ?_, fun p hno => ?_⟩)
      fun h job hno => absurd hno.symm (some_ne_none job) <;> cases hno
  have hc : c.Sound acl := invariant_along (I := Sound acl)
    (fun _ _ _ h hok ht => h.step hok ht) hstart hkeeps hrun
  exact ⟨fun i key hsend => hc.sends hstep hsend,
    fun i key hwriter hchange => hc.written hstep hwriter hchange⟩

def ownerOnly : AclRegistry := .new [⟨"k", ["owner"], ["owner"]⟩]

def named (sub : String) : SodpClaims := ⟨sub, [], [], []⟩

def ownerWatches : List (AuthEvent Unit Unit) :=
  [.auth () (named "owner"), .session (.watch () () ["k"]), .check (),
    .session (.authorized () .allowed), .session (.hydrated () none), .session (.finish ())]

def published : AuthEvent Unit Unit := .session (.publish "k" [⟨.update, "/", .bool true⟩])

theorem owner_is_served :
    ∃ c, run (step ownerOnly none id) (start 10 fun _ _ => .null) ownerWatches = some c ∧
      c.sends ownerOnly none published = [((), "k")] ∧
      Permits c.claims ownerOnly.canRead () "k" := by
  have hkeeps : Along (step ownerOnly none id) (Keeps ownerOnly) (start 10 fun _ _ => .null)
      ownerWatches := by
    refine ⟨⟨fun key hkey => ?_, fun p hno => absurd hno not_mem_nil⟩, trivial, trivial, trivial,
      trivial, trivial, trivial⟩
    rcases hkey with hno | ⟨h, _, hno, -⟩ <;> cases hno
  refine ⟨_, rfl, rfl, ?_⟩
  exact (sends_and_writes_permitted (e := published) rfl hkeeps rfl).1 () "k" mem_cons_self

/-- A session that has watched a key as its owner still gets its deltas as a guest. -/
theorem guest_is_served : ∃ c, run (step ownerOnly none id) (start 10 fun _ _ => .null)
        (ownerWatches ++ [.auth () (named "guest")]) = some c ∧
      c.sends ownerOnly none published = [((), "k")] ∧ c.claims () = some (named "guest") ∧
      ownerOnly.canRead "k" (some (named "guest")) = false :=
  ⟨_, rfl, rfl, rfl, by decide +kernel⟩

end AuthServer

end Sodp.ScriptServer
