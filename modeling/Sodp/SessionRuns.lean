import Sodp.HandlerEffects
import Sodp.Network
import Sodp.Transition

/-!
# Runs of the server with any sessions

The server side alone: sessions connect under fresh ids, send whatever frames they
like, have their queues drained and disconnect, in any order. Each session speaks for
one subject with fixed claims. A session whose queue has overflowed may still get
frames through until its connection ends.
-/

namespace Sodp
open Option

structure Identity where
  sub : Option String
  claims : Value

structure Sessions where
  server : SodpServer
  session : String → Option Session

namespace Sessions
open SodpServer StateStore

inductive Input where
  | connect
  | frame (frame : Frame)
  | drain
  | disconnect

structure Event where
  session : String
  now : ℕ
  input : Input

def setSession (c : Sessions) (id : String) (server : SodpServer) (session : Option Session) :
    Sessions :=
  ⟨server, Function.update c.session id session⟩

def join (identity : String → Identity) (c : Sessions) (id : String) (now : ℕ) : Sessions :=
  let accepted := c.server.accept id now
  c.setSession id accepted.1
    (some { accepted.2 with sub := (identity id).sub, claims := (identity id).claims })

def step (identity : String → Identity) (c : Sessions) (e : Event) : Option Sessions :=
  match e.input, c.session e.session with
  | .connect, none => some (c.join identity e.session e.now)
  | .frame frame, some session =>
    let handled := c.server.handleFrame session frame e.now
    some (c.setSession e.session handled.1 (some handled.2))
  | .drain, some _ => some ⟨Network.dequeue c.server e.session, c.session⟩
  | .disconnect, some session => some (c.setSession e.session (c.server.endSession session) none)
  | _, _ => none

def calls (c : Sessions) (e : Event) : List Call :=
  match e.input, c.session e.session with
  | .frame frame, some session => c.server.frameCalls session frame e.now
  | .disconnect, some session => cleanupCalls c.server.state session.presence
  | _, _ => []

def start (server : SodpServer) : Sessions := ⟨server, fun _ => none⟩

/-! Frames as a client sends them -/

def watchFrame (keys : List String) : Frame :=
  ⟨.watch, 0, 0, .ofFields [("states", .array (keys.map .string))]⟩

def callFrame (method : String) (args : List (String × Value)) : Frame :=
  ⟨.call, 0, 0, .ofFields [("method", .string method), ("args", .ofFields args)]⟩

def presenceFrame (key path : String) (value : Value) : Frame :=
  callFrame "state.presence" [("state", .string key), ("path", .string path), ("value", value)]

variable {identity : String → Identity} {c c' : Sessions} {e : Event}

theorem step_cases (h : step identity c e = some c') :
    (c.session e.session = none ∧ c.calls e = [] ∧ c' = c.join identity e.session e.now) ∨
    (∃ session frame acc, c.session e.session = some session ∧ e.input = .frame frame ∧
      acc = c.server.handleFrame session frame e.now ∧
      Effects (unwatchedKeys frame) (c.server, session) (c.calls e) acc ∧
      c' = c.setSession e.session acc.1 (some acc.2)) ∨
    (c.calls e = [] ∧ c' = ⟨Network.dequeue c.server e.session, c.session⟩) ∨
    (∃ session cleaned, c.session e.session = some session ∧ e.input = .disconnect ∧
      Effects [] (c.server, session) (c.calls e) (cleaned, session) ∧ c' = c.setSession e.session
        { cleaned with fanout := cleaned.fanout.removeSession session.id } none) := by
  obtain ⟨i, now, _⟩ := e
  rw [step] at h
  dsimp only at h
  split at h
  · next hsession =>
    cases h
    exact .inl ⟨hsession, by simp [calls], rfl⟩
  · next frame session hsession =>
    cases h
    have heffects := c.server.handleFrame_effects session frame now
    refine .inr (.inl ⟨session, frame, _, hsession, rfl, rfl, ?_, rfl⟩)
    simpa only [calls, hsession] using heffects
  · cases h
    exact .inr (.inr (.inl ⟨by simp [calls], rfl⟩))
  · next session hsession =>
    cases h
    obtain ⟨cleaned, heffects, hend⟩ := c.server.endSession_eq session
    refine .inr (.inr (.inr ⟨session, cleaned, hsession, rfl, ?_, by rw [hend]⟩))
    simpa only [calls, hsession] using heffects
  · cases h

theorem state_step (h : step identity c e = some c') :
    c'.server.state = c.server.state.execAll (c.calls e) := by
  rcases step_cases h with ⟨-, hcalls, rfl⟩ | ⟨session, _, _, -, -, -, heffects, rfl⟩ |
    ⟨hcalls, rfl⟩ | ⟨session, cleaned, -, -, heffects, rfl⟩
  · rw [hcalls]
    rfl
  · exact heffects.state
  · rw [hcalls]
    rfl
  · exact heffects.state

structure Identified (identity : String → Identity) (acl : Option AclRegistry)
    (schema : Option SchemaRegistry) (c : Sessions) : Prop where
  acl : c.server.acl = acl
  schema : c.server.schema = schema
  session : ∀ i session, c.session i = some session →
    session.id = i ∧ session.sub = (identity i).sub ∧ session.claims = (identity i).claims

theorem Identified.start (identity : String → Identity) (server : SodpServer) :
    Identified identity server.acl server.schema (start server) :=
  ⟨rfl, rfl, fun _ _ h => by cases h⟩

theorem Identified.step {acl : Option AclRegistry} {schema : Option SchemaRegistry}
    (hc : Identified identity acl schema c) (h : Sessions.step identity c e = some c') :
    Identified identity acl schema c' := by
  -- The other sessions stay what they are; `hown` is about the one that acts.
  have hother : ∀ {server : SodpServer} {own : Option Session},
      (∀ session, own = some session → session.id = e.session ∧
        session.sub = (identity e.session).sub ∧ session.claims = (identity e.session).claims) →
      ∀ i session, (c.setSession e.session server own).session i = some session →
        session.id = i ∧ session.sub = (identity i).sub ∧ session.claims = (identity i).claims := by
    intro server own hown i session hi
    by_cases hie : i = e.session
    · subst hie
      exact hown session (by simpa [setSession] using hi)
    · exact hc.session i session (by simpa [setSession, hie] using hi)
  rcases step_cases h with ⟨-, -, rfl⟩ | ⟨session, _, _, hsession, -, -, heffects, rfl⟩ |
    ⟨-, rfl⟩ | ⟨session, cleaned, hsession, -, heffects, rfl⟩
  · refine ⟨hc.acl, hc.schema, hother ?_⟩
    rintro session ⟨⟩
    exact ⟨rfl, rfl, rfl⟩
  · obtain ⟨hacl, hschema, hid, hsub, hclaims⟩ := heffects.fixed
    refine ⟨hacl.trans hc.acl, hschema.trans hc.schema, hother ?_⟩
    rintro own ⟨⟩
    obtain ⟨hid', hsub', hclaims'⟩ := hc.session _ _ hsession
    exact ⟨hid.trans hid', hsub.trans hsub', hclaims.trans hclaims'⟩
  · exact ⟨hc.acl, hc.schema, hc.session⟩
  · obtain ⟨hacl, hschema, -⟩ := heffects.fixed
    exact ⟨hacl.trans hc.acl, hschema.trans hc.schema, hother (by simp)⟩

end Sessions

end Sodp
