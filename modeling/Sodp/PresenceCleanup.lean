import Sodp.EditInterleaving
import Sodp.SessionRuns

/-!
# No ghost presence

When a session disconnects, the paths that it registered with `state.presence` are removed one after
the other from what the keys hold by then. A path names object fields only: `json_set_in` puts an
object where it meets an array, and `json_remove_in` stops there.
-/

namespace Sodp
open StateStore Function Transition List Option

/-! ### Removing several paths -/

def removeAll (value : Value) (paths : List String) : Value := paths.foldl jsonRemoveIn value

def Removed (path : String) (value : Value) : Prop :=
  if path = "/" then value = .null else value.lookup (pathParts path) = none

variable {path : String} {value : Value}

theorem removed_of_inEffect (hpath : startsWithSlash path = true)
    (h : (Edit.removeIn path).InEffect value) : Removed path value := by
  have hne : path ≠ "" := by
    rintro rfl
    exact absurd hpath (by decide)
  rw [Removed]
  split_ifs with hroot
  · have hshows := h [] (by rw [Edit.Touches, if_pos (.inr hroot)])
    rw [Edit.Shows, if_pos rfl] at hshows
    exact some.inj hshows
  · have hshows := h (pathParts path)
      (by rw [Edit.Touches, if_neg (by simp [hne, hroot])]; simp [hpath])
    rwa [Edit.Shows, if_neg (pathParts_ne_nil path)] at hshows

theorem inEffect_removeAll (paths : List String)
    (h : path ∈ paths ∨ (Edit.removeIn path).InEffect value) :
    (Edit.removeIn path).InEffect (removeAll value paths) := by
  induction paths generalizing value with
  | nil => simpa [removeAll] using h
  | cons other paths ih =>
    refine ih ?_
    rcases h with hmem | heffect
    · rcases mem_cons.mp hmem with rfl | hmem
      · exact .inr (Edit.inEffect_removeIn value path)
      · exact .inl hmem
    · exact .inr heffect.removeIn_removeIn

theorem lookup_removeAll_of_apart {paths q : List String} (value : Value)
    (hpaths : ∀ path ∈ paths, startsWithSlash path = true)
    (h : ∀ path ∈ paths, path ≠ "/" ∧ Apart (pathParts path) q) :
    (removeAll value paths).lookup q = value.lookup q := by
  induction paths generalizing value with
  | nil => rfl
  | cons path paths ih =>
    rw [forall_mem_cons] at h hpaths
    refine (ih _ hpaths.2 h.2).trans ?_
    rw [jsonRemoveIn]
    split_ifs with hroot
    · rcases hroot with rfl | hroot
      · exact absurd hpaths.1 (by decide)
      · exact absurd hroot h.1.1
    · exact lookup_removeInRecursive_of_apart value h.1.2
    · rfl

/-! ### The cleanup in the store -/

def pathsOf (key : String) (entries : List PresenceEntry) : List String :=
  (entries.filter fun entry => entry.stateKey = key).map PresenceEntry.path

variable {entries : List PresenceEntry}

theorem mem_pathsOf {key : String} :
    path ∈ pathsOf key entries ↔ (⟨key, path⟩ : PresenceEntry) ∈ entries := by
  simp only [pathsOf, List.mem_map, List.mem_filter, decide_eq_true_eq]
  constructor
  · rintro ⟨_, ⟨hmem, rfl⟩, rfl⟩
    exact hmem
  · exact fun hmem => ⟨_, ⟨hmem, rfl⟩, rfl⟩

variable {srv : SodpServer}

namespace SodpServer

theorem content_cleanupCalls (s : StateStore) (entries : List PresenceEntry) (key : String) :
    ((s.execAll (cleanupCalls s entries)).get key).map StateEntry.value =
      ((s.get key).map StateEntry.value).map fun value =>
        removeAll value (pathsOf key entries) := by
  induction entries generalizing s with
  | nil => exact map_id'.symm
  | cons entry entries ih =>
    by_cases hkey : entry.stateKey = key
    · have hpaths : pathsOf key (entry :: entries) = entry.path :: pathsOf key entries := by
        simp [pathsOf, hkey]
      rw [hpaths, cleanupCalls]
      cases he : s.get entry.stateKey with
      | none =>
        rw [hkey] at he
        simp [ih, he]
      | some =>
        refine (ih _).trans ?_
        rw [content_exec, cleanupCall, Call.key, if_pos hkey.symm, ← hkey, he]
        rfl
    · have hpaths : pathsOf key (entry :: entries) = pathsOf key entries := by
        simp [pathsOf, hkey]
      rw [hpaths, cleanupCalls]
      cases he : s.get entry.stateKey with
      | none => exact ih s
      | some =>
        refine (ih _).trans ?_
        rw [content_exec, cleanupCall, Call.key, if_neg (Ne.symm hkey)]

theorem get_cleanupCalls_of_notMem (s : StateStore) {key : String}
    (h : ∀ entry ∈ entries, entry.stateKey ≠ key) :
    (s.execAll (cleanupCalls s entries)).get key = s.get key := by
  induction entries generalizing s with
  | nil => rfl
  | cons entry entries ih =>
    rw [forall_mem_cons] at h
    rw [cleanupCalls]
    cases he : s.get entry.stateKey with
    | none => exact ih s h.2
    | some =>
      refine (ih _ h.2).trans ?_
      rw [get_exec, get_touch, cleanupCall, Call.key, if_neg (Ne.symm h.1)]

/-! ### What a session has registered -/

theorem presence_replayAll (streamId : ℕ) (acc : SodpServer × Session)
    (ds : List (ℕ × List DeltaOp)) : (replayAll streamId acc ds).2.presence = acc.2.presence := by
  induction ds generalizing acc with
  | nil => rfl
  | cons d ds ih => exact ih _

theorem presence_resumeKey (srv : SodpServer) (session : Session) (stateKey : String)
    (sinceVersion : ℕ) (params : Option Value) :
    (srv.resumeKey session stateKey sinceVersion params).2.presence = session.presence := by
  rw [resumeKey_eq]
  exact presence_replayAll _ (srv.openStream session stateKey params) _

theorem presence_watchKey (params : Option Value) (acc : SodpServer × Session) (k : String) :
    (watchKey params acc k).2.presence = acc.2.presence := by
  rw [watchKey]
  split_ifs
  · exact presence_resumeKey acc.1 acc.2 k 0 params
  · rfl

theorem presence_unwatchKey (acc : SodpServer × Session) (k : String) :
    (unwatchKey acc k).2.presence = acc.2.presence := by
  rw [unwatchKey]
  cases acc.2.watchStreamId k <;> rfl

theorem presence_foldl {f : SodpServer × Session → String → SodpServer × Session}
    (hf : ∀ acc k, (f acc k).2.presence = acc.2.presence) (keys : List String)
    (acc : SodpServer × Session) : (keys.foldl f acc).2.presence = acc.2.presence := by
  induction keys generalizing acc with
  | nil => rfl
  | cons k keys ih => exact (ih _).trans (hf acc k)

theorem mem_presence_handleFrame (srv : SodpServer) (session : Session) (frame : Frame) (now : ℕ)
    (entry : PresenceEntry) : entry ∈ (srv.handleFrame session frame now).2.presence ↔
      entry ∈ session.presence ∨ (frame.frameType = .call ∧
        (srv.acceptedRequest session frame now).bind Request.presence = some entry) := by
  have hwatch := (session.sameStanding_allowWatch now).presence
  cases htype : frame.frameType with
  | call =>
    obtain ⟨_, -, hpresence, h⟩ := srv.handleCall_cases session frame now
    rw [handleFrame, htype, ← hpresence]
    cases hrequest : srv.acceptedRequest session frame now with
    | none =>
      rw [hrequest] at h
      obtain ⟨_, _, h⟩ := h
      simp [h, reply, Session.nextSeq]
    | some request =>
      rw [hrequest] at h
      simp only [h, reply, Session.nextSeq, true_and, bind_some]
      cases request.presence with
      | none => simp [own]
      | some => simp [own, Session.mem_addPresence, eq_comm]
  | watch =>
    have hsame : (srv.handleWatch session frame now).2.presence = session.presence := by
      rw [handleWatch]
      dsimp only
      split_ifs
      · cases requestedKeys frame.body with
        | none => exact hwatch
        | some keys => exact (presence_foldl (presence_watchKey _) keys _).trans hwatch
      · exact hwatch
    simp [handleFrame, htype, hsame]
  | resume =>
    have hsame : (srv.handleResume session frame now).2.presence = session.presence := by
      rw [handleResume]
      dsimp only
      split_ifs
      · cases (frame.body.get? "state").bind Value.asStr with
        | none => exact hwatch
        | some =>
          dsimp only
          split_ifs
          · exact (presence_resumeKey ..).trans hwatch
          · exact hwatch
      · exact hwatch
    simp [handleFrame, htype, hsame]
  | unwatch =>
    have hsame : (srv.handleUnwatch session frame).2.presence = session.presence := by
      rw [handleUnwatch]
      cases requestedKeys frame.body with
      | none => rfl
      | some keys => exact presence_foldl presence_unwatchKey keys _
    simp [handleFrame, htype, hsame]
  | ack => simp [handleFrame, htype, (session.sameStanding_ackStream _ _).presence]
  | _ => simp [handleFrame, htype]

theorem startsWithSlash_of_accepted {session : Session} {frame : Frame} {now : ℕ}
    {entry : PresenceEntry}
    (h : (srv.acceptedRequest session frame now).bind Request.presence = some entry) :
    startsWithSlash entry.path = true := by
  obtain ⟨_, hrequest, hentry⟩ := bind_eq_some_iff.mp h
  obtain ⟨_, hprepare⟩ := prepare_of_accepted hrequest
  exact ((prepare_eq_ok hprepare).2.2 entry hentry).2

end SodpServer

namespace Sessions
open SodpServer
variable {identity : String → Identity}

def registers (c : Sessions) (e : Event) : Option PresenceEntry :=
  match e.input, c.session e.session with
  | .frame frame, some session =>
    if frame.frameType = .call then
      (c.server.acceptedRequest session frame e.now).bind Request.presence
    else none
  | _, _ => none

def registered (identity : String → Identity) (s : String) :
    List PresenceEntry → Sessions → List Event → List PresenceEntry
  | owned, _, [] => owned
  | owned, c, e :: events =>
    let now :=
      if e.session ≠ s then owned
      else match e.input with
        | .connect => []
        | _ => owned ++ (c.registers e).toList
    match step identity c e with
    | none => now
    | some c' => registered identity s now c' events

structure Owned (s : String) (owned : List PresenceEntry) (c : Sessions) : Prop where
  record : ∀ session, c.session s = some session → ∀ entry, entry ∈ session.presence ↔ entry ∈ owned
  slash : ∀ entry ∈ owned, startsWithSlash entry.path = true

variable {owned : List PresenceEntry}

theorem Owned.step {s : String} {c c' : Sessions} {e : Event}
    (hc : Owned s owned c) (h : Sessions.step identity c e = some c') :
    Owned s (if e.session ≠ s then owned else match e.input with
        | .connect => []
        | _ => owned ++ (c.registers e).toList) c' := by
  obtain ⟨i, now, _⟩ := e
  by_cases hs : i = s
  · subst hs
    rw [if_neg (not_not_intro rfl)]
    rw [Sessions.step] at h
    dsimp only at h
    split at h
    · cases h
      refine ⟨fun session hnew entry => ?_, by simp⟩
      simp only [join, setSession, update_self] at hnew
      cases hnew
      exact Iff.rfl
    · next frame session hsession =>
      cases h
      have hregisters : ∀ entry, entry ∈ (c.registers ⟨i, now, .frame frame⟩).toList ↔
          frame.frameType = .call ∧
          (c.server.acceptedRequest session frame now).bind Request.presence = some entry := by
        intro entry
        simp only [registers, hsession, mem_toList]
        split_ifs with hcall <;> simp [hcall]
      refine ⟨fun session' hnew entry => ?_, fun entry hentry => ?_⟩
      · simp only [setSession, update_self] at hnew
        cases hnew
        rw [mem_presence_handleFrame, hc.record session hsession, mem_append, hregisters]
      · rcases mem_append.mp hentry with hold | hnew
        · exact hc.slash entry hold
        · exact startsWithSlash_of_accepted ((hregisters entry).mp hnew).2
    · cases h
      exact ⟨by simpa [registers] using hc.record, by simpa [registers] using hc.slash⟩
    · cases h
      refine ⟨fun session' hnew => ?_, by simpa [registers] using hc.slash⟩
      simp [setSession] at hnew
    · cases h
  · rw [if_pos hs]
    have hkept : c'.session s = c.session s := by
      rcases step_cases h with ⟨-, -, rfl⟩ | ⟨_, _, _, -, -, -, -, rfl⟩ | ⟨-, rfl⟩ |
        ⟨_, _, -, -, -, rfl⟩
      · exact update_of_ne (Ne.symm hs) _ _
      · exact update_of_ne (Ne.symm hs) _ _
      · rfl
      · exact update_of_ne (Ne.symm hs) _ _
    exact ⟨fun session hsession => hc.record session (hkept ▸ hsession), hc.slash⟩

theorem Owned.run {s : String} {c c' : Sessions} {events : List Event}
    (hc : Owned s owned c) (h : run (Sessions.step identity) c events = some c') :
    Owned s (registered identity s owned c events) c' := by
  induction events generalizing c owned with
  | nil =>
    rw [run_nil, some.injEq] at h
    exact h ▸ hc
  | cons e events ih =>
    obtain ⟨m, hm, hrest⟩ := run_cons_eq_some.mp h
    rw [registered]
    simp only [hm]
    exact ih (hc.step hm) hrest

/-- After the cleanup of a session none of the paths it registered leads anywhere, no key
has come into being, and everything apart from the paths is as it was. -/
theorem no_ghost_presence {server : SodpServer} {events : List Event} {c c' : Sessions} {s : String}
    {now : ℕ} (hrun : run (step identity) (start server) events = some c)
    (hend : step identity c ⟨s, now, .disconnect⟩ = some c') :
    let owned := registered identity s [] (start server) events
    (∀ entry ∈ owned, ∀ e, c'.server.state.get entry.stateKey = some e →
      Removed entry.path e.value) ∧
    (∀ k, c.server.state.get k = none → c'.server.state.get k = none) ∧
    (∀ k, (∀ entry ∈ owned, entry.stateKey ≠ k) → c'.server.state.get k = c.server.state.get k) ∧
    (∀ k e, c.server.state.get k = some e → ∃ e', c'.server.state.get k = some e' ∧
      ∀ q, (∀ entry ∈ owned, entry.stateKey = k →
          entry.path ≠ "/" ∧ Apart (pathParts entry.path) q) →
        e'.value.lookup q = e.value.lookup q) := by
  have hstart : Owned s [] (start server) := ⟨fun _ h => (by cases h), by simp⟩
  obtain ⟨hrecord, hslash⟩ := hstart.run hrun
  generalize registered identity s [] (start server) events = owned at hrecord hslash
  obtain ⟨session, hsession, hstate⟩ : ∃ session, c.session s = some session ∧
      c'.server.state = c.server.state.execAll (cleanupCalls c.server.state session.presence) := by
    cases hsession : c.session s with
    | none => simp [step, hsession] at hend
    | some session =>
      refine ⟨session, rfl, ?_⟩
      have hcalls := state_step hend
      simpa only [calls, hsession] using hcalls
  have hmem := hrecord session hsession
  have hcontent := content_cleanupCalls c.server.state session.presence
  rw [hstate]
  refine ⟨fun entry hentry e he => ?_, fun k hk => ?_, fun k hk => ?_, fun k e he => ?_⟩
  · have hvalue := hcontent entry.stateKey
    rw [he, map_some] at hvalue
    obtain ⟨v, -, hv⟩ := map_eq_some_iff.mp hvalue.symm
    rw [← hv]
    exact removed_of_inEffect (hslash entry hentry)
      (inEffect_removeAll _ (.inl (mem_pathsOf.mpr ((hmem entry).mpr hentry))))
  · have hvalue := hcontent k
    rw [hk, map_none, map_none, map_eq_none_iff] at hvalue
    exact hvalue
  · exact get_cleanupCalls_of_notMem _ fun entry hentry => hk entry ((hmem entry).mp hentry)
  · have hvalue := hcontent k
    rw [he, map_some, map_some] at hvalue
    obtain ⟨e', he', hv⟩ := map_eq_some_iff.mp hvalue
    refine ⟨e', he', fun q hq => ?_⟩
    rw [hv]
    refine lookup_removeAll_of_apart e.value (fun path hpath => ?_) fun path hpath => ?_
    · exact hslash ⟨k, path⟩ ((hmem _).mp (mem_pathsOf.mp hpath))
    · exact hq ⟨k, path⟩ ((hmem _).mp (mem_pathsOf.mp hpath)) rfl

/-- Two nested presence paths, and a field that another session patches in. -/
def nestedPresence : List Event :=
  [⟨"s", 0, .connect⟩, ⟨"t", 0, .connect⟩,
    ⟨"s", 0, .frame (presenceFrame "k" "/a" (.bool true))⟩,
    ⟨"s", 0, .frame (presenceFrame "k" "/a/b" (.bool true))⟩,
    ⟨"t", 0, .frame (callFrame "state.patch" [("state", .string "k"),
      ("patch", .ofFields [("a", .ofFields [("c", .null)]), ("d", .null)])])⟩]

theorem no_ghost_presence_nested :
    ∃ c c', run (step fun _ => ⟨none, .null⟩) (start .new) nestedPresence = some c ∧
      step (fun _ => ⟨none, .null⟩) c ⟨"s", 0, .disconnect⟩ = some c' ∧
      c'.server.state.valueOf "k" = .ofFields [("d", .null)] ∧
      ∀ e, c'.server.state.get "k" = some e → Removed "/a" e.value ∧ Removed "/a/b" e.value := by
  obtain ⟨c, hc, c', hc', hvalue⟩ : ∃ c ∈ run (step fun _ => ⟨none, .null⟩) (start .new)
      nestedPresence, ∃ c' ∈ step (fun _ => ⟨none, .null⟩) c ⟨"s", 0, .disconnect⟩,
        c'.server.state.valueOf "k" = .ofFields [("d", .null)] := by
    decide +kernel
  have howned : registered (fun _ => ⟨none, .null⟩) "s" [] (start .new) nestedPresence =
      [⟨"k", "/a"⟩, ⟨"k", "/a/b"⟩] := by
    decide +kernel
  have hremoved := (no_ghost_presence hc hc').1
  rw [howned] at hremoved
  refine ⟨c, c', hc, hc', hvalue, fun e he => ⟨?_, ?_⟩⟩
  · exact hremoved ⟨"k", "/a"⟩ (by simp) e he
  · exact hremoved ⟨"k", "/a/b"⟩ (by simp) e he

end Sessions

end Sodp
