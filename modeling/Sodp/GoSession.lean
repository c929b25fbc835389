import Sodp.GoDelta

/-!
# Sessions of the Go server

A session of `session.go` with its outbound channel, its frames and messages, the decoders of frame
bodies, and the rules of `acl.go`. `queue` is the channel `Send` and `written` what the write pool
has taken from it. A message that finds the channel full is dropped.
-/

namespace Sodp.GoServer

/-! ### Messages -/

inductive FrameType where
  | watch
  | unwatch
  | call
  | resume
  | auth
  | heartbeat
  | other
deriving DecidableEq

structure Frame where
  type : FrameType
  streamID : ℕ
  seq : ℕ
  body : GoValue

inductive OutMsg where
  | stateInit (streamID : ℕ) (key : String) (version : ℕ) (value : GoValue) (initialized : Bool)
      (params : OrderedMap String GoValue)
  | delta (streamID : ℕ) (entry : DeltaEntry)
  | result (streamID seq : ℕ) (callID : GoValue) (version : Option ℕ)
  | error (streamID : ℕ) (code : ℤ) (message : String)
  | heartbeat (seq : ℕ)
  | authOK (subject : String)

def OutMsg.shows : OutMsg → Option String
  | .stateInit _ key .. => some key
  | .delta _ entry => some entry.key
  | _ => none

/-! ### The session -/

structure Session where
  id : String
  sub : String
  claims : OrderedMap String GoValue
  watches : OrderedMap ℕ String
  nextStream : ℕ
  authed : Bool
  maxWatches : ℤ
  rateCount : ℤ
  rateReset : ℤ
  rateLimit : ℤ
  backpressure : ℕ
  queue : List OutMsg
  written : List OutMsg
  done : Bool

namespace Session

def firstStreamID : ℕ := 10

def new (id : String) (maxWatches rateLimit : ℤ) (backpressure : ℕ) : Session where
  id := id
  sub := ""
  claims := .empty
  watches := .empty
  nextStream := firstStreamID
  authed := false
  maxWatches := maxWatches
  rateCount := 0
  rateReset := 0
  rateLimit := rateLimit
  backpressure := backpressure
  queue := []
  written := []
  done := false

def enqueued (s : Session) : List OutMsg := s.written ++ s.queue

/-- `Pool.Send`. -/
def post (s : Session) (msg : OutMsg) : Session :=
  if s.queue.length < s.backpressure then { s with queue := s.queue ++ [msg] } else s

theorem post_eq (s : Session) (msg : OutMsg) : s.post msg = { s with
      queue := if s.queue.length < s.backpressure then s.queue ++ [msg] else s.queue } := by
  rw [post]
  split_ifs <;> rfl

theorem enqueued_post (s : Session) (msg : OutMsg) :
    (s.post msg).enqueued = s.enqueued ++ [msg] ∨ (s.post msg).enqueued = s.enqueued := by
  rw [post_eq, enqueued, enqueued]
  split_ifs
  · exact .inl (List.append_assoc _ _ _).symm
  · exact .inr rfl

def write (s : Session) : Option Session :=
  match s.queue with
  | [] => none
  | msg :: rest => some { s with queue := rest, written := s.written ++ [msg] }

/-- `AllocStream`, a `uint32` counter: the new session and the id. -/
def allocStream (s : Session) : Session × ℕ :=
  ({ s with nextStream := (s.nextStream + 1) % 2 ^ 32 }, s.nextStream)

def addWatch (s : Session) (streamID : ℕ) (key : String) : Option Session :=
  if s.maxWatches ≤ s.watches.keys.length then none
  else some { s with watches := s.watches.insert streamID key }

/-- `StreamForKey`: the first match in the order in which Go ranges over the map, or 0. -/
def streamForKey (s : Session) (range : KeyOrder ℕ) (key : String) : ℕ :=
  ((range.order s.watches.keys).find? fun streamID => s.watches.get? streamID = some key).getD 0

def checkRate (s : Session) (now : ℤ) : Session × Bool :=
  if s.rateReset < now then ({ s with rateCount := 1, rateReset := now + 1 }, true)
  else ({ s with rateCount := s.rateCount + 1 }, s.rateCount + 1 ≤ s.rateLimit)

def markAuthenticated (s : Session) : Session := { s with authed := true }

def setAuth (s : Session) (sub : String) (claims : OrderedMap String GoValue) : Session :=
  { s with sub := sub, claims := claims, authed := true }

def sendError (s : Session) (streamID : ℕ) (code : ℤ) (message : String) : Session :=
  s.post (.error streamID code message)

end Session

/-! ### Bodies -/

/-- `v.(string)` with the zero value for everything else. -/
def asString : Option GoValue → String
  | some (.string s) => s
  | _ => ""

def stringsOf : Option GoValue → List String
  | some (.slice xs) => xs.filterMap fun v => match v with | .string s => some s | _ => none
  | _ => []

def mapOf : Option GoValue → OrderedMap String GoValue
  | some (.map m) => m
  | _ => .empty

/-- A conversion of a `float64` that is out of range depends on the implementation. -/
structure Conversions where
  toUint64 : ℚ → ℕ
  toInt : ℚ → ℤ

def truncate (q : ℚ) : ℤ := if q < 0 then ⌈q⌉ else ⌊q⌋

def Conversions.uint64 (c : Conversions) (q : ℚ) : ℕ :=
  if 0 ≤ truncate q ∧ truncate q < 2 ^ 64 then (truncate q).toNat else c.toUint64 q % 2 ^ 64

def Conversions.int (c : Conversions) (q : ℚ) : ℤ :=
  if -2 ^ 63 ≤ truncate q ∧ truncate q < 2 ^ 63 then truncate q else c.toInt q

structure WatchBody where
  key : String
  states : List String
  sinceVersion : ℕ
  params : OrderedMap String GoValue

/-- Only three of the number types that the decoder produces are looked at. -/
def sinceVersionOf (c : Conversions) : Option GoValue → ℕ
  | some (.scalar (.int i)) =>
    if i.kind = .uint64 ∨ i.kind = .int64 then (i.val % 2 ^ 64).toNat else 0
  | some (.scalar (.float .float64 q)) => c.uint64 q
  | _ => 0

def decodeWatchBody (c : Conversions) : GoValue → Option WatchBody
  | .map m =>
    let key := asString (m.get? "state")
    let states := stringsOf (m.get? "states")
    if key = "" ∧ states = [] then none
    else some ⟨key, states, sinceVersionOf c (m.get? "since_version"), mapOf (m.get? "params")⟩
  | _ => none

structure CallBody where
  callID : GoValue
  method : String
  args : OrderedMap String GoValue

def decodeCallBody : GoValue → Option CallBody
  | .map m =>
    let method := asString (m.get? "method")
    if method = "" then none
    else some ⟨(m.get? "call_id").getD .nil, method, mapOf (m.get? "args")⟩
  | _ => none

def decodeAuthBody : GoValue → Option String
  | .map m =>
    let token := asString (m.get? "token")
    if token = "" then none else some token
  | _ => none

/-- A Lean string is valid UTF-8, so that check of the source has no counterpart. -/
def isValidKey (key : String) : Bool :=
  key ≠ "" && key.utf8ByteSize ≤ 256 &&
    key.toList.all (fun r => 0x20 ≤ r.toNat && r ≠ '\\' && r ≠ '/') &&
    key.toList.head? ≠ some '.' && key.toList.getLast? ≠ some '.' &&
    ! decide (['.', '.'] <:+: key.toList)

/-! ### Access rules -/

structure AclRule where
  pattern : String
  read : List String
  write : List String

structure ACL where
  rules : List AclRule

def cut (c : Char) (s : String) : Option (String × String) :=
  match s.toList.dropWhile (· ≠ c) with
  | [] => none
  | _ :: rest => some (String.ofList (s.toList.takeWhile (· ≠ c)), String.ofList rest)

def after (tag perm : String) : Option String :=
  if tag.toList.isPrefixOf perm.toList then some (String.ofList (perm.toList.drop tag.length))
  else none

def captureName (segment : String) : Option String :=
  let cs := segment.toList
  if 3 ≤ cs.length ∧ cs.head? = some '\x7b' ∧ cs.getLast? = some '\x7d' then
    some (String.ofList (cs.tail.dropLast))
  else none

def matchSegments : List String → List String → OrderedMap String String →
    Option (OrderedMap String String)
  | [], key, captures => if key = [] then some captures else none
  | p :: pattern, key, captures =>
    if p = "*" then if key = [] then none else some captures
    else match key with
      | [] => none
      | segment :: key =>
        match captureName p with
        | some name => matchSegments pattern key (captures.insert name segment)
        | none => if p = segment then matchSegments pattern key captures else none

def matchACLPattern (pattern key : String) : Option (OrderedMap String String) :=
  matchSegments (dotParts pattern) (dotParts key) .empty

def aclHasClaim (claims : OrderedMap String GoValue) (key value : String) : Bool :=
  let v :=
    match cut '.' key with
    | some (parent, field) =>
      match claims.get? parent with
      | some (.map m) => m.get? field
      | _ => none
    | none => claims.get? key
  match v with
  | some (.string s) => s = value
  | some (.slice xs) => xs.any fun item => match item with | .string s => s = value | _ => false
  | _ => false

def checkPerm (sess : Session) (captures : OrderedMap String String) (perm : String) : Bool :=
  if perm = "*" then true
  else if perm = "{sub}" then captures.get? "sub" = some sess.sub
  else match after "role:" perm with
  | some role =>
    aclHasClaim sess.claims "roles" role || aclHasClaim sess.claims "role" role ||
      aclHasClaim sess.claims "realm_access.roles" role
  | none =>
    match after "group:" perm with
    | some group => aclHasClaim sess.claims "groups" group
    | none =>
      match after "perm:" perm with
      | some p => aclHasClaim sess.claims "permissions" p
      | none =>
        match after "claim:" perm with
        | some rest =>
          match cut ':' rest with
          | some (key, value) => key ≠ "" && aclHasClaim sess.claims key value
          | none => false
        | none => perm = sess.sub

def checkPerms (perms : List String) (sess : Session)
    (captures : OrderedMap String String) : Bool :=
  perms.any (checkPerm sess captures)

inductive Action where
  | read
  | write
deriving DecidableEq

def ACL.authorize (acl : ACL) (sess : Session) (key : String) (action : Action) : Bool :=
  match acl.rules.findSome? fun rule => (matchACLPattern rule.pattern key).map (rule, ·) with
  | none => true
  | some (rule, captures) =>
    checkPerms (match action with | .write => rule.write | .read => rule.read) sess captures

end Sodp.GoServer
