import Sodp.ScriptSession

/-!
# What a closed session leaves in the store

The callbacks of a session in the store are those of its `subs` map, at all times. `teardown`
empties the map and takes its callbacks out. A handler that still waits for `authorize` when the
socket closes subscribes afterwards, and there is no second `teardown` for it.
-/

namespace Sodp.ScriptServer.Server
open Transition Function List Option ScriptServer.StateStore
open OrderedMap hiding keys

variable {ι κ : Type*} [DecidableEq ι]

def callbacks (s : Server ι κ) (i : ι) (key : String) : List (ι × ℕ) :=
  (s.store.entry key).subscribers.filter fun sub => sub.1 = i

def Attached (s : Server ι κ) : Prop :=
  ∀ i key, s.callbacks i key = ((s.sessions i).subs.get? key).toList.map fun stream => (i, stream)

variable {s t : Server ι κ} {i j : ι} {e : SessionEvent ι κ}

theorem Attached.congr (h : s.Attached)
    (hstore : ∀ key, (t.store.entry key).subscribers = (s.store.entry key).subscribers)
    (hsubs : ∀ i, (t.sessions i).subs = (s.sessions i).subs) : t.Attached := by
  intro i key
  rw [callbacks, hstore, hsubs]
  exact h i key

theorem attached_start (capacity : ℕ) (cached : ι → String → JsValue) :
    (start capacity cached : Server ι κ).Attached := fun _ _ => rfl

theorem Attached.subscribe (h : s.Attached) (i : ι) (key : String) :
    (s.subscribe i key).Attached := by
  rw [Server.subscribe]
  cases hget : (s.sessions i).subs.get? key with
  | some => exact h
  | none =>
    intro j k
    have hjk := h j k
    rw [callbacks] at hjk
    dsimp only [callbacks, setSession]
    rw [StateStore.subscribe]
    by_cases hk : k = key
    · subst hk
      rw [entry_update_self, filter_append, hjk]
      by_cases hj : j = i
      · subst hj
        rw [update_self, hget, get?_insert_self]
        simp
      · rw [update_of_ne hj]
        simp [Ne.symm hj]
    · rw [entry_update_of_ne _ hk, hjk]
      by_cases hj : j = i
      · subst hj
        rw [update_self, get?_insert_of_ne _ hk]
      · rw [update_of_ne hj]

theorem subscribers_unsubscribeAll (i : ι) (subs : List (String × ℕ)) (store : StateStore (ι × ℕ))
    (key : String) : ((subs.foldl (fun store sub => store.unsubscribe sub.1 (i, sub.2)) store).entry
      key).subscribers =
        (store.entry key).subscribers.filter fun sub => ¬ (sub.1 = i ∧ (key, sub.2) ∈ subs) := by
  induction subs generalizing store with
  | nil => simp
  | cons sub subs ih =>
    rw [foldl_cons, ih, StateStore.unsubscribe]
    by_cases hkey : key = sub.1
    · subst hkey
      rw [entry_update_self, List.filter_filter]
      refine filter_congr fun other _ => ?_
      grind
    · rw [entry_update_of_ne _ hkey]
      refine filter_congr fun other _ => ?_
      grind

theorem Attached.unsubscribeAll (h : s.Attached) (subs : List (String × ℕ)) {session : SodpSession}
    (hsubs : ∀ key stream, session.subs.get? key = some stream ↔
      (s.sessions i).subs.get? key = some stream ∧ (key, stream) ∉ subs) :
    (setSession { s with
      store := subs.foldl (fun store sub => store.unsubscribe sub.1 (i, sub.2)) s.store } i
      session).Attached := by
  intro j key
  have hj := h j key
  rw [callbacks] at hj
  dsimp only [callbacks, setSession]
  rw [subscribers_unsubscribeAll, filter_comm, hj]
  by_cases hji : j = i
  · subst hji
    rw [update_self]
    cases hget : (s.sessions j).subs.get? key with
    | none =>
      have hnone : session.subs.get? key = none := by
        refine eq_none_iff_forall_ne_some.mpr fun stream hstream => ?_
        rw [((hsubs key stream).mp hstream).1] at hget
        cases hget
      rw [hnone]
      rfl
    | some stream =>
      by_cases hmem : (key, stream) ∈ subs
      · have hnone : session.subs.get? key = none := by
          refine eq_none_iff_forall_ne_some.mpr fun other hother => ?_
          obtain ⟨hget', hnot⟩ := (hsubs key other).mp hother
          rw [hget, some.injEq] at hget'
          exact hnot (hget' ▸ hmem)
        simp [hnone, hmem]
      · simp [(hsubs key stream).mpr ⟨hget, hmem⟩, hmem]
  · rw [update_of_ne hji]
    refine filter_eq_self.mpr fun sub hsub => ?_
    obtain ⟨stream, -, rfl⟩ := mem_map.mp hsub
    simp [hji]

theorem Attached.unwatchKey (h : s.Attached) (i : ι) (key : String) :
    (s.unwatchKey i key).Attached := by
  rw [Server.unwatchKey]
  cases hget : (s.sessions i).subs.get? key with
  | none => exact h
  | some stream =>
    refine h.unsubscribeAll [(key, stream)] fun other other' => ?_
    by_cases hother : other = key
    · subst hother
      rw [get?_erase_self, hget]
      simp
      tauto
    · rw [get?_erase_of_ne _ hother]
      simp [hother]

section Publishes
variable {wire : JsValue → JsValue}

theorem Attached.publish {s : Server ι κ} (h : s.Attached) (key : String) (ops : List DeltaOp) :
    (s.publish wire key ops).Attached := by
  refine h.congr (fun other => ?_) fun i => by rw [sessions_publish]
  rw [store_publish]
  exact s.store.subscribers_publish key ops other

theorem sessions_cleanPresence (s : Server ι κ) (presence : List (String × String)) :
    (s.cleanPresence wire presence).sessions = s.sessions :=
  cleanPresence_induction wire (P := fun t => t.sessions = s.sessions)
    (fun t key ops ht => (t.sessions_publish wire key ops).trans ht) presence s rfl

theorem sessions_teardown (s : Server ι κ) (i : ι) : (s.teardown wire i).sessions =
      update s.sessions i { s.sessions i with subs := .empty } := by
  rw [teardown]
  dsimp only [setSession]
  rw [sessions_cleanPresence]

theorem Attached.teardown {s : Server ι κ} (h : s.Attached) (i : ι) :
    (s.teardown wire i).Attached := by
  have hclean : (s.cleanPresence wire (s.sessions i).presence).Attached :=
    cleanPresence_induction wire (fun t key ops ht => ht.publish key ops) _ s h
  refine hclean.unsubscribeAll _ fun key stream => ?_
  rw [OrderedMap.mem_toList]
  simp

end Publishes

theorem Attached.setSession (h : s.Attached) {session : SodpSession}
    (hsubs : session.subs = (s.sessions i).subs) : (s.setSession i session).Attached := by
  refine h.congr (fun _ => rfl) fun j => ?_
  by_cases hj : j = i
  · subst hj
    rw [sessions_setSession_self, hsubs]
  · rw [sessions_setSession_of_ne _ hj]

/-! ### One session -/

theorem sessions_unwatch_of_ne (h : j ≠ i) (keys : List String) (s : Server ι κ) :
    (keys.foldl (fun s key => s.unwatchKey i key) s).sessions j = s.sessions j := by
  refine unwatch_induction (P := fun t => t.sessions j = s.sessions j)
    (fun t key ht => ?_) keys s rfl
  rw [unwatchKey]
  split
  · exact ht
  · exact (update_of_ne h _ _).trans ht

theorem socket_unwatch (i j : ι) (keys : List String) (s : Server ι κ) :
    ((keys.foldl (fun s key => s.unwatchKey i key) s).sessions j).socket =
      (s.sessions j).socket := by
  refine unwatch_induction (P := fun t => (t.sessions j).socket = (s.sessions j).socket)
    (fun t key ht => ?_) keys s rfl
  rw [unwatchKey]
  split
  · exact ht
  · by_cases hj : j = i
    · subst hj
      rwa [sessions_setSession_self]
    · rwa [sessions_setSession_of_ne _ hj]

theorem sessions_subscribe_of_ne (h : j ≠ i) (s : Server ι κ) (key : String) :
    (s.subscribe i key).sessions j = s.sessions j := by
  rw [subscribe]
  cases (s.sessions i).subs.get? key with
  | some => rfl
  | none => exact update_of_ne h _ _

theorem socket_subscribe (s : Server ι κ) (i : ι) (key : String) :
    ((s.subscribe i key).sessions i).socket = (s.sessions i).socket := by
  rw [subscribe]
  cases (s.sessions i).subs.get? key with
  | some => rfl
  | none =>
    rw [sessions_setSession_self]

theorem get?_subscribe (s : Server ι κ) (i : ι) (key other : String) :
    ((s.subscribe i key).sessions i).subs.get? other =
      if other = key then some (s.streamFor i key) else (s.sessions i).subs.get? other := by
  rw [subscribe, streamFor]
  cases hget : (s.sessions i).subs.get? key with
  | some =>
    split_ifs with hother
    · rw [hother, hget]
      rfl
    · rfl
  | none =>
    rw [sessions_setSession_self, get?_insert]
    rfl

theorem session_torn {wire : JsValue → JsValue} (hopen : (s.sessions j).socket ≠ .closed)
    (socket : Socket) (i : ι) :
    let t := (s.setSession j { s.sessions j with socket := socket }).teardown wire j
    (t.sessions i).socket = (s.sessions i).socket ∧ (t.sessions i).subs = (s.sessions i).subs ∨
    (s.sessions i).socket ≠ .closed ∧
      ((t.sessions i).socket = .closed → (t.sessions i).subs = .empty) := by
  dsimp only
  rw [sessions_teardown]
  by_cases hij : i = j
  · subst hij
    rw [update_self]
    exact .inr ⟨hopen, fun _ => rfl⟩
  · rw [update_of_ne hij, sessions_setSession_of_ne _ hij]
    exact .inl ⟨rfl, rfl⟩

variable [DecidableEq κ] {wire : JsValue → JsValue}

/-! ### Every step -/

theorem Attached.step (hattached : s.Attached) (hstep : s.step wire e = some t) : t.Attached := by
  cases move_of_step hstep with
  | start | finish => exact hattached
  | unwatch i keys => exact unwatch_induction (fun _ key h => h.unwatchKey i key) keys s hattached
  | authorized h job answer =>
    cases answer with
    | allowed => exact hattached.subscribe job.session job.key
    | denied => exact hattached
    | thrown => exact hattached
  | hydrated h job stream result =>
    refine hattached.congr (s.subscribers_storeHydrated job.key result) fun i => ?_
    exact congrArg (fun sessions => (sessions i).subs) (s.sessions_storeHydrated job.key result)
  | publish key ops => exact hattached.publish key ops
  | session i session hsubs => exact hattached.setSession hsubs
  | torn i socket =>
    have hset : (s.setSession i { s.sessions i with socket := socket }).Attached :=
      hattached.setSession rfl
    exact hset.teardown i

theorem session_step (hstep : s.step wire e = some t) (i : ι) :
    (t.sessions i).socket = (s.sessions i).socket ∧ (t.sessions i).subs = (s.sessions i).subs ∨
    (s.sessions i).socket ≠ .closed ∧
      ((t.sessions i).socket = .closed → (t.sessions i).subs = .empty) ∨
    ∃ h job, e = .authorized h .allowed ∧ s.handlers h = some job ∧ job.session = i ∧
      t.sessions = (s.subscribe i job.key).sessions := by
  cases move_of_step hstep with
  | start | finish => exact .inl ⟨rfl, rfl⟩
  | unwatch j keys hsocket =>
    by_cases hij : i = j
    · subst hij
      refine .inr (.inl ⟨hsocket, fun hclosed => absurd ?_ hsocket⟩)
      rwa [socket_unwatch] at hclosed
    · rw [sessions_unwatch_of_ne hij]
      exact .inl ⟨rfl, rfl⟩
  | authorized h job answer hjob =>
    cases answer with
    | allowed =>
      by_cases hij : job.session = i
      · subst hij
        exact .inr (.inr ⟨h, job, rfl, hjob, rfl, rfl⟩)
      · have hsessions := sessions_subscribe_of_ne (Ne.symm hij) s job.key
        exact .inl ⟨congrArg SodpSession.socket hsessions, congrArg SodpSession.subs hsessions⟩
    | denied => exact .inl ⟨rfl, rfl⟩
    | thrown => exact .inl ⟨rfl, rfl⟩
  | hydrated h job stream result =>
    have hsessions := congrFun (s.sessions_storeHydrated job.key result) i
    exact .inl ⟨congrArg SodpSession.socket hsessions, congrArg SodpSession.subs hsessions⟩
  | publish =>
    rw [sessions_publish]
    exact .inl ⟨rfl, rfl⟩
  | session j session hsubs hnext hsocket =>
    by_cases hij : i = j
    · subst hij
      rw [sessions_setSession_self]
      refine hsocket.imp (⟨·, hsubs⟩) fun hshut => .inl ⟨?_, fun hclosed => ?_⟩
      · rw [hshut.1]
        exact Socket.noConfusion
      · cases hshut.2.symm.trans hclosed
    · rw [sessions_setSession_of_ne _ hij]
      exact .inl ⟨rfl, rfl⟩
  | torn j socket hopen => exact (session_torn hopen socket i).imp_right .inl

/-! ### Runs -/

def Detached (s : Server ι κ) : Prop :=
  ∀ i, (s.sessions i).socket = .closed → (s.sessions i).subs = .empty

omit [DecidableEq κ] in
theorem detached_iff (h : s.Attached) : s.Detached ↔ ∀ i, (s.sessions i).socket = .closed →
      ∀ key, ∀ sub ∈ (s.store.entry key).subscribers, sub.1 ≠ i := by
  refine forall_congr' fun i => imp_congr_right fun _ => ?_
  constructor
  · intro hempty key sub hsub hi
    have hnone : s.callbacks i key = [] := by
      rw [h i key, hempty]
      rfl
    exact filter_eq_nil_iff.mp hnone sub hsub (decide_eq_true hi)
  · intro hnone
    refine ext_get? fun key => ?_
    have hcallbacks : s.callbacks i key = [] :=
      filter_eq_nil_iff.mpr fun sub hsub hi => hnone key sub hsub (of_decide_eq_true hi)
    rw [h i key] at hcallbacks
    cases hget : (s.sessions i).subs.get? key with
    | none => rfl
    | some =>
      rw [hget] at hcallbacks
      cases hcallbacks

/-- No handler is allowed after its session is closed. -/
def Timely (s : Server ι κ) : SessionEvent ι κ → Prop
  | .authorized h .allowed => ∀ job ∈ s.handlers h, (s.sessions job.session).socket ≠ .closed
  | _ => True

instance decidableTimely (s : Server ι κ) : (e : SessionEvent ι κ) → Decidable (s.Timely e)
  | .authorized h .allowed => inferInstanceAs
      (Decidable (∀ job ∈ s.handlers h, (s.sessions job.session).socket ≠ .closed))
  | .authorized _ .denied | .authorized _ .thrown | .watch .. | .resume .. | .unwatch ..
  | .hydrated .. | .finish _ | .publish .. | .registerPresence .. | .shut _ | .error _ | .close _ =>
    .isTrue trivial

theorem Detached.step (h : s.Detached) (hok : s.Timely e) (hstep : s.step wire e = some t) :
    t.Detached := by
  intro i hclosed
  rcases session_step hstep i with
    ⟨hsocket, hsubs⟩ | ⟨-, hsubs⟩ | ⟨h, job, rfl, hjob, rfl, hsessions⟩
  · rw [hsubs]
    exact h i (hsocket ▸ hclosed)
  · exact hsubs hclosed
  · rw [hsessions, socket_subscribe] at hclosed
    exact absurd hclosed (hok job hjob)

theorem timely_of_detached (hstep : s.step wire e = some t) (ht : t.Detached) : s.Timely e := by
  cases e with
  | authorized h answer =>
    obtain ⟨job, hjob, -, rfl⟩ := of_step_authorized hstep
    cases answer with
    | allowed =>
      intro job' hjob' hclosed
      obtain rfl := some.inj (hjob.symm.trans hjob')
      have hempty := ht job.session ((s.socket_subscribe job.session job.key).trans hclosed)
      have hget := s.get?_subscribe job.session job.key job.key
      rw [if_pos rfl] at hget
      exact nomatch hget.symm.trans (congrArg (OrderedMap.get? · job.key) hempty)
    | denied | thrown => trivial
  | _ => trivial

theorem not_detached_step (h : ¬ s.Detached) (hstep : s.step wire e = some t) : ¬ t.Detached := by
  intro ht
  refine h fun i hclosed => ?_
  rcases session_step hstep i with ⟨hsocket, hsubs⟩ | ⟨hopen, -⟩ | ⟨h, job, rfl, hjob, rfl, -⟩
  · rw [← hsubs]
    exact ht i (hsocket.trans hclosed)
  · exact absurd hclosed hopen
  · exact absurd hclosed (timely_of_detached hstep ht job hjob)

/-- Closed sessions have no callback in the store at the end of a run exactly if no handler of a
closed session was allowed on the way. -/
theorem closed_sessions_leave_no_callback_iff {capacity : ℕ} {cached : ι → String → JsValue}
    {events : List (SessionEvent ι κ)} {t : Server ι κ}
    (hrun : run (step wire) (start capacity cached) events = some t) :
    (∀ i, (t.sessions i).socket = .closed →
      ∀ key, ∀ sub ∈ (t.store.entry key).subscribers, sub.1 ≠ i) ↔
        Along (step wire) Timely (start capacity cached) events := by
  have hattached : t.Attached :=
    invariant (I := Attached) (fun _ _ _ h hstep => h.step hstep)
      (attached_start capacity cached) hrun
  rw [← detached_iff hattached]
  refine Iff.trans ?_ (forall_reached_iff (I := Detached) (P := Detached) (fun _ h => h)
    (fun s e t h hstep => ⟨timely_of_detached hstep, fun hok => h.step hok hstep⟩) nofun hrun)
  constructor
  · intro ht before after m heq hm
    by_contra hleft
    rw [heq, run_append_of_eq_some hm] at hrun
    exact invariant (I := fun s => ¬ s.Detached) (fun _ _ _ h hstep => not_detached_step h hstep)
      hleft hrun ht
  · intro h
    exact h events [] t (append_nil _).symm hrun

def refusedAfterClose : List (SessionEvent Bool ℕ) :=
  [.watch 0 false ["a", "b"], .authorized 0 .allowed, .resume 1 false "c" 3, .hydrated 0 none,
    .finish 0, .authorized 0 .allowed, .unwatch false ["a"], .close false, .authorized 1 .denied,
    .hydrated 0 (some .null), .finish 0]

theorem refused_after_close_leaves_none :
    ∃ t : Server Bool ℕ, run (step id) (start 1024 fun _ _ => .null) refusedAfterClose = some t ∧
      (t.sessions false).socket = .closed ∧
      ∀ key, ∀ sub ∈ (t.store.entry key).subscribers, sub.1 ≠ false := by
  refine exists_run (fun t => (t.sessions false).socket = .closed) (by decide +kernel)
    fun t hrun hsocket => ⟨hsocket, ?_⟩
  exact (closed_sessions_leave_no_callback_iff hrun).mpr (by decide +kernel) false hsocket

theorem allowed_after_close_leaves_callback : (run (step id) (start 1024 fun _ _ => .null)
      [.watch 0 false ["a"], .close false, .authorized 0 .allowed, .hydrated 0 none, .finish 0]).map
      (fun t : Server Bool ℕ => ((t.sessions false).socket, (t.handlers 0).isSome,
        (t.store.entry "a").subscribers)) = some (.closed, false, [(false, 10)]) := by
  decide +kernel

end Sodp.ScriptServer.Server
