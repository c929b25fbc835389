import Mathlib.Logic.Function.Basic
import Sodp.Delta

/-!
# Frames and write handles

An inbound frame is a type, a stream id, a sequence number and a JSON body; outbound messages are
the data their bodies are built from. Each connection has a write handle with a bounded queue. A
message that finds the queue full is dropped and the session is cancelled.
-/

namespace Sodp
open Function

inductive FrameType where
  | hello
  | watch
  | stateInit
  | delta
  | call
  | result
  | error
  | ack
  | heartbeat
  | resume
  | auth
  | authOk
  | unwatch
  | unknown (code : ℕ)
deriving DecidableEq

structure Frame where
  frameType : FrameType
  streamId : ℕ
  seq : ℕ
  body : Value

inductive OutboundMsg where
  | stateInit (streamId seq : ℕ) (stateKey : String) (version : ℕ) (value : Value)
      (initialized : Bool) (params : Option Value)
  | delta (streamId seq version : ℕ) (ops : List DeltaOp)
  | resultOk (streamId seq : ℕ) (callId : String) (data : Value)
  | error (streamId seq code : ℕ) (message : String)
  | heartbeat
deriving DecidableEq

structure WriteHandle where
  queue : List OutboundMsg
  capacity : ℕ
  cancelled : Bool

variable {msg : OutboundMsg}

namespace WriteHandle

def send (h : WriteHandle) (msg : OutboundMsg) : WriteHandle × Bool :=
  if h.queue.length < h.capacity then ({ h with queue := h.queue ++ [msg] }, true)
  else ({ h with cancelled := true }, false)

def push (h : WriteHandle) (msgs : List OutboundMsg) : WriteHandle :=
  { h with queue := h.queue ++ msgs }

@[simp] theorem push_nil (h : WriteHandle) : h.push [] = h := by simp [push]

@[simp] theorem push_push (h : WriteHandle) (msgs more : List OutboundMsg) :
    (h.push msgs).push more = h.push (msgs ++ more) := by simp [push]

@[simp] theorem queue_push (h : WriteHandle) (msgs : List OutboundMsg) :
    (h.push msgs).queue = h.queue ++ msgs := rfl

theorem send_cancelled {h : WriteHandle} (hc : h.cancelled = true) (msg : OutboundMsg) :
    (h.send msg).1.cancelled = true := by
  rw [send]
  split_ifs
  · exact hc
  · rfl

theorem queue_send (h : WriteHandle) (msg : OutboundMsg) :
    (h.send msg).1.queue = h.queue ++ if h.queue.length < h.capacity then [msg] else [] := by
  rw [send]
  split_ifs
  · rfl
  · exact (List.append_nil _).symm

theorem send_of_open {h : WriteHandle}
    (hopen : (h.send msg).1.cancelled = false) : h.send msg = (h.push [msg], true) := by
  rw [send] at hopen ⊢
  split_ifs at hopen ⊢
  rfl

end WriteHandle

abbrev Handles := String → WriteHandle

namespace Handles

def send (handles : Handles) (sessionId : String) (msg : OutboundMsg) : Handles × Bool :=
  (update handles sessionId ((handles sessionId).send msg).1,
    ((handles sessionId).send msg).2)

theorem send_self (handles : Handles) (sessionId : String) (msg : OutboundMsg) :
    (handles.send sessionId msg).1 sessionId = ((handles sessionId).send msg).1 :=
  update_self ..

theorem send_of_ne (handles : Handles) {sessionId s : String} (hs : s ≠ sessionId)
    (msg : OutboundMsg) : (handles.send sessionId msg).1 s = handles s :=
  update_of_ne hs _ _

variable {handles : Handles}

theorem send_cancelled {s : String} (hc : (handles s).cancelled = true)
    (sessionId : String) (msg : OutboundMsg) :
    ((handles.send sessionId msg).1 s).cancelled = true := by
  by_cases hs : s = sessionId
  · subst hs
    rw [send_self]
    exact WriteHandle.send_cancelled hc msg
  · rw [send_of_ne handles hs, hc]

theorem send_of_open {sessionId : String}
    (hopen : ((handles.send sessionId msg).1 sessionId).cancelled = false) :
    handles.send sessionId msg =
      (update handles sessionId ((handles sessionId).push [msg]), true) := by
  rw [send_self] at hopen
  rw [send, WriteHandle.send_of_open hopen]

end Handles

end Sodp
