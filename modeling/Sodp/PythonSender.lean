import Sodp.Transition

/-!
# Frames and connections of the Python client

`_send_raw` puts a packed frame into a queue that outlives the connection, and the sender task of
the current connection writes what it finds there. A disconnect fails the pending calls, clears the
calls that wait for authentication, and leaves the queue as it is: what the sender has not taken is
written on the next connection, before its AUTH.

Which WATCH, RESUME and UNWATCH frames `watch`, `unwatch` and `_on_ready` put is left open. AUTH_OK
comes only after an AUTH frame.
-/

namespace Sodp.Python
open Transition List Option

inductive Outgoing where
  | auth
  | heartbeat
  | call (id : ℕ)
  | request
deriving DecidableEq

/-- A packed frame, with the connection that was current when it was put. -/
structure Packed where
  frame : Outgoing
  connection : ℕ
deriving DecidableEq

/-- `late` says that the future of the call had failed with "connection lost" by then. -/
structure Written where
  data : Packed
  connection : ℕ
  late : Bool
deriving DecidableEq

inductive Sender where
  | waiting
  | sending (data : Packed)
  | stopped

/-- The current connection is the last one that was opened. -/
structure Client where
  opened : ℕ
  connected : Bool
  hello : Option Bool
  authenticated : Bool
  sendQueue : List Packed
  callQueue : List ℕ
  pending : List ℕ
  sender : Sender
  issued : List ℕ
  lost : List ℕ
  written : List Written

inductive ClientEvent where
  | connect
  | hello (auth token : Bool) (requests : ℕ)
  | authOk (requests : ℕ)
  | heartbeat
  | request
  | call (id : ℕ)
  | settle (id : ℕ)
  | get
  | send
  | sendFails
  | disconnect

namespace Client

def new : Client := ⟨0, false, none, false, [], [], [], .stopped, [], [], []⟩

def sendRaw (c : Client) (frames : List Outgoing) : Client :=
  { c with sendQueue := c.sendQueue ++ frames.map (⟨·, c.opened⟩) }

def onReady (c : Client) (requests : ℕ) : Client :=
  sendRaw { c with authenticated := true, callQueue := [] }
    (List.replicate requests .request ++ c.callQueue.map .call)

def writtenOn (c : Client) (connection : ℕ) : List Outgoing :=
  (c.written.filter fun w => w.connection = connection).map fun w => w.data.frame

def isLost (c : Client) : Outgoing → Bool
  | .call id => id ∈ c.lost
  | _ => false

def step (c : Client) : ClientEvent → Option Client
  | .connect =>
    if c.connected then none
    else some { c with opened := c.opened + 1, connected := true, sender := .waiting }
  | .hello auth token requests =>
    if c.connected ∧ c.hello = none then
      let c := { c with hello := some auth }
      some (if auth then if token then c.sendRaw [.auth] else c else c.onReady requests)
    else none
  | .authOk requests =>
    if c.connected ∧ .auth ∈ c.writtenOn c.opened then some (c.onReady requests) else none
  | .heartbeat => if c.connected then some (c.sendRaw [.heartbeat]) else none
  | .request => some (if c.authenticated then c.sendRaw [.request] else c)
  | .call id =>
    if id ∈ c.issued then none
    else
      let c := { c with issued := c.issued ++ [id], pending := c.pending ++ [id] }
      some (if c.authenticated then c.sendRaw [.call id]
        else { c with callQueue := c.callQueue ++ [id] })
  | .settle id => some { c with pending := c.pending.erase id }
  | .get =>
    match c.sender, c.sendQueue with
    | .waiting, data :: rest => some { c with sender := .sending data, sendQueue := rest }
    | _, _ => none
  | .send =>
    match c.sender with
    | .sending data => some { c with
        sender := .waiting
        written := c.written ++ [⟨data, c.opened, c.isLost data.frame⟩] }
    | _ => none
  | .sendFails =>
    match c.sender with
    | .sending _ => some { c with sender := .stopped }
    | _ => none
  | .disconnect =>
    if c.connected then some { c with
      connected := false
      hello := none
      authenticated := false
      callQueue := []
      pending := []
      sender := .stopped
      lost := c.lost ++ c.pending }
    else none

/-- Only heartbeats before the AUTH frame. -/
def authFirst : List Outgoing → Bool
  | [] => true
  | .heartbeat :: rest => authFirst rest
  | .auth :: _ => true
  | _ => false

/-- Every frame was written on its own connection and in time, AUTH first where it is asked for. -/
structure Confined (c : Client) : Prop where
  own : ∀ w ∈ c.written, w.data.connection = w.connection ∧ w.late = false
  auth : c.connected = true → c.hello = some true → authFirst (c.writtenOn c.opened) = true

/-- A connection opens with nothing left in the queue. -/
def OpensEmpty (c : Client) : ClientEvent → Prop
  | .connect => c.sendQueue = []
  | _ => True

/-! ### What a step keeps -/

/-- What the sender has still to write. -/
def line (c : Client) : List Packed :=
  match c.sender with
  | .waiting => c.sendQueue
  | .sending data => data :: c.sendQueue
  | .stopped => []

structure Orderly (c : Client) : Prop where
  own : ∀ w ∈ c.written, (w.data.connection = w.connection ∧ w.late = false) ∧
    w.connection ≤ c.opened
  line : ∀ x ∈ c.line, x.connection = c.opened ∧ c.isLost x.frame = false
  idle : c.connected = false → c.sender = .stopped
  issued : ∀ id, id ∈ c.pending ∨ id ∈ c.lost → id ∈ c.issued
  queued : ∀ id ∈ c.callQueue, id ∉ c.lost
  first : c.connected = true → c.hello ≠ some false →
    authFirst (c.writtenOn c.opened ++ c.line.map Packed.frame) = true
  ready : c.authenticated = true →
    c.connected = true ∧ (c.hello ≠ some false → .auth ∈ c.writtenOn c.opened)

theorem authFirst_append (l m : List Outgoing) :
    authFirst (l ++ m) = (authFirst l && (decide (.auth ∈ l) || authFirst m)) := by
  induction l with
  | nil => simp [authFirst]
  | cons f l ih => cases f <;> simp [authFirst, ih]

variable {c c' : Client}

theorem Orderly.confined (h : c.Orderly) : c.Confined := by
  refine ⟨fun w hw => (h.own w hw).1, fun hconn hhello => ?_⟩
  have hfirst := h.first hconn (by rw [hhello]; decide)
  rw [authFirst_append, Bool.and_eq_true] at hfirst
  exact hfirst.1

theorem line_sendRaw (c : Client) (frames : List Outgoing) : (c.sendRaw frames).line = c.line ∨
      (c.sendRaw frames).line = c.line ++ frames.map (⟨·, c.opened⟩) := by
  rw [line, line, Client.sendRaw]
  cases c.sender with
  | waiting | sending data => exact .inr rfl
  | stopped => exact .inl rfl

section
variable (h : c.Orderly)
include h

theorem Orderly.sendRaw {frames : List Outgoing} (hlost : ∀ f ∈ frames, c.isLost f = false)
    (hfirst : c.hello ≠ some false → .auth ∈ c.writtenOn c.opened ∨ authFirst frames = true) :
    (c.sendRaw frames).Orderly := by
  refine ⟨h.own, ?_, h.idle, h.issued, h.queued, fun hconn hhello => ?_, h.ready⟩
  · rcases line_sendRaw c frames with heq | heq
    · rw [heq]
      exact h.line
    · rw [heq]
      intro x hx
      rcases mem_append.mp hx with hx | hx
      · exact h.line x hx
      · obtain ⟨f, hf, rfl⟩ := mem_map.mp hx
        exact ⟨rfl, hlost f hf⟩
  · have hold := h.first hconn hhello
    change authFirst (c.writtenOn c.opened ++ _) = true
    rcases line_sendRaw c frames with heq | heq
    · rwa [heq]
    · rw [heq, map_append, ← append_assoc, authFirst_append, hold, Bool.true_and,
        Bool.or_eq_true, decide_eq_true_eq, List.map_map]
      refine (hfirst hhello).imp (mem_append_left _) fun hframes => ?_
      exact (congrArg authFirst (map_id frames)).trans hframes

theorem Orderly.onReady (hconn : c.connected = true)
    (hauth : c.hello ≠ some false → .auth ∈ c.writtenOn c.opened) (requests : ℕ) :
    (c.onReady requests).Orderly := by
  have hready : Orderly { c with authenticated := true, callQueue := [] } :=
    ⟨h.own, h.line, h.idle, h.issued, fun id hid => absurd hid not_mem_nil, h.first,
      fun _ => ⟨hconn, hauth⟩⟩
  refine hready.sendRaw (fun f hf => ?_) fun hhello => .inl (hauth hhello)
  rcases mem_append.mp hf with hf | hf
  · rw [eq_of_mem_replicate hf]
    rfl
  · obtain ⟨id, hid, rfl⟩ := mem_map.mp hf
    exact decide_eq_false (h.queued id hid)

theorem Orderly.stop : Orderly { c with sender := .stopped } := by
  refine ⟨h.own, fun x hx => absurd hx not_mem_nil, fun _ => rfl, h.issued, h.queued,
    fun hconn hhello => ?_, h.ready⟩
  have hfirst := h.first hconn hhello
  rw [authFirst_append, Bool.and_eq_true] at hfirst
  exact (congrArg authFirst (append_nil _)).trans hfirst.1

theorem Orderly.connect (hconn : c.connected ≠ true) (hqueue : c.sendQueue = []) :
    Orderly { c with opened := c.opened + 1, connected := true, sender := .waiting } := by
  have hnew : c.writtenOn (c.opened + 1) = [] := by
    rw [writtenOn, map_eq_nil_iff, filter_eq_nil_iff]
    intro w hw heq
    have hle := (h.own w hw).2
    have heq : w.connection = c.opened + 1 := of_decide_eq_true heq
    omega
  refine ⟨fun w hw => ⟨(h.own w hw).1, Nat.le_succ_of_le (h.own w hw).2⟩, fun x hx => ?_,
    fun hno => absurd hno.symm Bool.false_ne_true, h.issued, h.queued, fun _ _ => ?_,
    fun hauth => absurd (h.ready hauth).1 hconn⟩
  · change x ∈ c.sendQueue at hx
    rw [hqueue] at hx
    cases hx
  · change authFirst (c.writtenOn (c.opened + 1) ++ c.sendQueue.map Packed.frame) = true
    rw [hnew, hqueue]
    rfl

theorem Orderly.send {data : Packed} (hsender : c.sender = .sending data) :
    Orderly { c with
      sender := .waiting
      written := c.written ++ [⟨data, c.opened, c.isLost data.frame⟩] } := by
  have hline : c.line = data :: c.sendQueue := by rw [Client.line, hsender]
  have hlater := h.line
  rw [hline, forall_mem_cons] at hlater
  have hwritten : ∀ connection, writtenOn { c with
      sender := .waiting
      written := c.written ++ [⟨data, c.opened, c.isLost data.frame⟩] } connection =
        c.writtenOn connection ++ if c.opened = connection then [data.frame] else [] := by
    intro connection
    rw [writtenOn, writtenOn, filter_append, map_append]
    split_ifs with heq <;> simp [heq]
  refine ⟨fun w hw => ?_, hlater.2, fun hno => ?_, h.issued, h.queued, fun hconn hhello => ?_,
    fun hauth => ⟨(h.ready hauth).1, fun hhello => ?_⟩⟩
  · rcases mem_append.mp hw with hw | hw
    · exact h.own w hw
    · rw [mem_singleton.mp hw]
      exact ⟨hlater.1, Nat.le_refl _⟩
  · have hstopped := h.idle hno
    rw [hsender] at hstopped
    cases hstopped
  · have hfirst := h.first hconn hhello
    rw [hline] at hfirst
    rw [hwritten, if_pos rfl, append_assoc]
    exact hfirst
  · rw [hwritten]
    exact mem_append_left _ ((h.ready hauth).2 hhello)

theorem Orderly.step {e : ClientEvent} (hok : c.OpensEmpty e)
    (hstep : c.step e = some c') : c'.Orderly := by
  cases e with
  | connect =>
    obtain ⟨hconn, heq⟩ := ite_none_left_eq_some.mp hstep
    cases heq
    exact h.connect hconn hok
  | hello auth token requests =>
    obtain ⟨⟨hconn, hnone⟩, heq⟩ := ite_none_right_eq_some.mp hstep
    cases heq
    have hne : c.hello ≠ some false := by
      rw [hnone]
      exact (some_ne_none false).symm
    have hhello : Orderly { c with hello := some auth } :=
      ⟨h.own, h.line, h.idle, h.issued, h.queued, fun hconn _ => h.first hconn hne, fun hauth =>
        ⟨hconn, fun _ => (h.ready hauth).2 hne⟩⟩
    split_ifs with hauth
    · exact hhello.sendRaw (by simp [isLost]) fun _ => .inr rfl
    · exact hhello
    · refine hhello.onReady hconn (fun hne => ?_) requests
      rw [Bool.eq_false_iff.mpr hauth] at hne
      exact absurd rfl hne
  | authOk requests =>
    obtain ⟨⟨hconn, hauth⟩, heq⟩ := ite_none_right_eq_some.mp hstep
    cases heq
    exact h.onReady hconn (fun _ => hauth) requests
  | heartbeat =>
    obtain ⟨-, heq⟩ := ite_none_right_eq_some.mp hstep
    cases heq
    exact h.sendRaw (by simp [isLost]) fun _ => .inr rfl
  | request =>
    cases hstep
    split_ifs with hauth
    · exact h.sendRaw (by simp [isLost]) fun hhello => .inl ((h.ready hauth).2 hhello)
    · exact h
  | call id =>
    obtain ⟨hfresh, heq⟩ := ite_none_left_eq_some.mp hstep
    cases heq
    have hlost : id ∉ c.lost := fun hid => hfresh (h.issued id (.inr hid))
    have hcall : Orderly { c with issued := c.issued ++ [id], pending := c.pending ++ [id] } := by
      refine ⟨h.own, h.line, h.idle, fun i hi => ?_, h.queued, h.first, h.ready⟩
      rcases hi with hi | hi
      · rcases mem_append.mp hi with hi | hi
        · exact mem_append_left _ (h.issued i (.inl hi))
        · exact mem_append_right _ hi
      · exact mem_append_left _ (h.issued i (.inr hi))
    split_ifs with hauth
    · refine hcall.sendRaw (fun f hf => ?_) fun hhello => .inl ((h.ready hauth).2 hhello)
      rw [mem_singleton.mp hf]
      exact decide_eq_false hlost
    · refine ⟨hcall.own, hcall.line, hcall.idle, hcall.issued, fun i hi => ?_,
        hcall.first, hcall.ready⟩
      rcases mem_append.mp hi with hi | hi
      · exact h.queued i hi
      · rwa [mem_singleton.mp hi]
  | settle =>
    cases hstep
    refine ⟨h.own, h.line, h.idle, fun i hi => h.issued i ?_, h.queued, h.first, h.ready⟩
    exact hi.imp_left mem_of_mem_erase
  | get =>
    rw [Client.step] at hstep
    split at hstep
    · rename_i data rest hsender hqueue
      cases hstep
      have hline : c.line = data :: rest := by rw [Client.line, hsender, hqueue]
      have hsame := h.line
      have hfirst := h.first
      rw [hline] at hsame hfirst
      refine ⟨h.own, hsame, fun hno => ?_, h.issued, h.queued, hfirst, h.ready⟩
      have hstopped := h.idle hno
      rw [hsender] at hstopped
      cases hstopped
    · cases hstep
  | send =>
    rw [Client.step] at hstep
    split at hstep
    · rename_i data hsender
      cases hstep
      exact h.send hsender
    · cases hstep
  | sendFails =>
    rw [Client.step] at hstep
    split at hstep
    · cases hstep
      exact h.stop
    · cases hstep
  | disconnect =>
    obtain ⟨-, heq⟩ := ite_none_right_eq_some.mp hstep
    cases heq
    refine ⟨h.own, fun x hx => absurd hx not_mem_nil, fun _ => rfl, fun i hi => ?_,
      fun i hi => absurd hi not_mem_nil, fun hno => absurd hno Bool.false_ne_true,
      fun hno => absurd hno Bool.false_ne_true⟩
    rcases hi with hi | hi
    · cases hi
    · exact h.issued i (mem_append.mp hi).symm

end

/-- Along every run whose connections open with an empty queue: each frame is written on the
connection on which it was put, no call after it has failed, and only heartbeats before AUTH. -/
theorem frames_stay_on_connection {events : List ClientEvent} (hrun : run step new events = some c)
    (hempty : Along step OpensEmpty new events) : c.Confined := by
  have hnew : new.Orderly :=
    ⟨by simp [new], by simp [new, line], fun _ => rfl, by simp [new], by simp [new],
      fun hno => absurd hno Bool.false_ne_true, fun hno => absurd hno Bool.false_ne_true⟩
  exact (invariant_along (I := Orderly) (fun _ _ _ h hok hstep => h.step hok hstep) hnew hempty
    hrun).confined

def callAnswered : List ClientEvent :=
  [.connect, .hello true true 0, .get, .send, .authOk 0, .call 7, .get, .send,
    .disconnect, .connect]

theorem call_answered_confined :
    ∃ c, run step new callAnswered = some c ∧ c.Confined ∧ c.writtenOn 1 = [.auth, .call 7] := by
  have hempty : Along step OpensEmpty new callAnswered :=
    ⟨rfl, trivial, trivial, trivial, trivial, trivial, trivial, trivial, trivial, rfl, trivial⟩
  exact ⟨_, rfl, frames_stay_on_connection rfl hempty, rfl⟩

/-- The call fails with the first connection, and is the first frame on the second. -/
theorem lost_call_sent_later :
    ∃ c, run step new [.connect, .hello true true 0, .get, .send, .authOk 0, .call 7, .disconnect,
        .connect, .get, .send, .hello true true 0, .get, .send] = some c ∧
      c.written = [⟨⟨.auth, 1⟩, 1, false⟩, ⟨⟨.call 7, 1⟩, 2, true⟩, ⟨⟨.auth, 2⟩, 2, false⟩] :=
  ⟨_, rfl, rfl⟩

end Client

end Sodp.Python
