import Sodp.CallFlow

/-!
# Each promise is settled by its own answer

The server answers the frames of a connection in their order, so the answers on their
way, the call in the handler and the calls still to be handled are together the pending
calls, oldest first. While this is so, an ERROR that answers a call meets the call at
the head of the list. An ERROR that answers another frame must find the list empty.
-/

namespace Sodp
open StateStore Client SodpServer Function Transition List Option SodpClient

namespace Calls

/-! ### The invariant -/

structure Correlated (s : String) (conn : Connection) (c : Calls) : Prop where
  link : c.wires.link = some s
  connection : c.wires.connection s = some conn
  isOpen : (c.wires.server.handles s).cancelled = false
  aligned : (c.wires.origins s).length = (c.wires.server.handles s).queue.length
  fifo : c.pending = (c.wires.flight s).filterMap answerId ++ waiting conn
  nodup : (c.settled.map Settlement.callId ++ c.pending).Nodup
  issued : ∀ id ∈ c.settled.map Settlement.callId ++ c.pending ++ c.applied, id ∈ c.issued
  kept : ∀ id ∈ c.issued, id ∈ c.settled.map Settlement.callId ++ c.pending
  honest : ∀ m ∈ c.wires.flight s, Honest c.applied m
  stage : StageHonest c.applied conn.stage
  inbound : ∀ frame ∈ conn.inbound, isCall frame → callIdOf frame ∉ c.applied
  settled : ∀ x ∈ c.settled, Settlement.Right c.applied x

variable {s t : String} {c c' : Calls} {conn conn' : Connection}

variable {w : Wires} {now : ℕ} {m : OutboundMsg × Origin} {wire : List (OutboundMsg × Origin)}
  {e : Event} {server : SodpServer}

section
variable (h : Correlated s conn c)
include h

variable {sent : List (OutboundMsg × Origin)}

theorem Correlated.moved (more : List String)
    (hmore : ∀ id ∈ more, ∃ frame, callOf conn.stage = some frame ∧ callIdOf frame = id)
    (htold : Wires.Told s sent c.wires w) (hconn : w.connection s = some conn')
    (hopen : (w.server.handles s).cancelled = false)
    (hwait : sent.filterMap answerId ++ waiting conn' = waiting conn)
    (hsent : ∀ m ∈ sent, Honest (c.applied ++ more) m)
    (hstage : StageHonest (c.applied ++ more) conn'.stage)
    (hinbound : ∀ frame ∈ conn'.inbound, isCall frame → frame ∈ conn.inbound) :
    Correlated s conn' { c with wires := w, applied := c.applied ++ more } := by
  have hnodup := h.nodup
  rw [h.fifo, nodup_append, nodup_append] at hnodup
  obtain ⟨-, ⟨-, hrest, hflying⟩, hsettled⟩ := hnodup
  -- what is executed is the first of the waiting calls
  have hfirst : ∀ id ∈ more, waiting conn = id :: (conn.inbound.filter isCall).map callIdOf := by
    intro id hid
    obtain ⟨frame, hframe, rfl⟩ := hmore id hid
    rw [waiting, hframe]
    rfl
  have hwaiting : ∀ id ∈ more, id ∈ waiting conn := by
    intro id hid
    rw [hfirst id hid]
    exact mem_cons_self
  refine ⟨htold.link.trans h.link, hconn, hopen, htold.aligned h.aligned, ?_, h.nodup, ?_, h.kept,
    ?_, hstage, ?_, ?_⟩
  · rw [htold.flight, filterMap_append, append_assoc, hwait]
    exact h.fifo
  · intro id hid
    rw [← append_assoc] at hid
    rcases mem_append.mp hid with hold | hnew
    · exact h.issued id hold
    · refine h.issued id (mem_append_left _ (mem_append_right _ ?_))
      rw [h.fifo]
      exact mem_append_right _ (hwaiting id hnew)
  · rw [htold.flight]
    intro m hm
    rcases mem_append.mp hm with hflight | hnew
    · have hold := h.honest m hflight
      obtain ⟨msg, origin⟩ := m
      cases msg with
      | resultOk => exact ⟨mem_append_left _ hold.1, hold.2⟩
      | error =>
        cases origin with
        | change => exact hold
        | answer asked =>
          intro hcall hmem
          rcases mem_append.mp hmem with hdone | hnow
          · exact hold hcall hdone
          · refine hflying (callIdOf asked) (mem_filterMap.mpr ⟨_, hflight, ?_⟩) _
              (hwaiting _ hnow) rfl
            rw [answerId, if_pos (of_decide_eq_true hcall)]
      | _ => trivial
    · exact hsent m hnew
  · intro asked hasked hcall hmem
    rcases mem_append.mp hmem with hdone | hnow
    · exact h.inbound asked (hinbound asked hasked hcall) hcall hdone
    · rw [hfirst _ hnow] at hrest
      refine (nodup_cons.mp hrest).1 (mem_map.mpr ⟨asked, ?_, rfl⟩)
      exact mem_filter.mpr ⟨hinbound asked hasked hcall, hcall⟩
  · intro x hx
    obtain ⟨hright, horigin⟩ := h.settled x hx
    refine ⟨hright.trans ⟨mem_append_left _, fun hmem => ?_⟩, horigin⟩
    rcases mem_append.mp hmem with hdone | hnow
    · exact hdone
    · exact absurd rfl (hsettled x.callId (mem_map_of_mem hx) _
        (mem_append_right _ (hwaiting _ hnow)))

theorem Correlated.moved_nil
    (htold : Wires.Told s sent c.wires w) (hconn : w.connection s = some conn')
    (hopen : (w.server.handles s).cancelled = false)
    (hwait : sent.filterMap answerId ++ waiting conn' = waiting conn)
    (hsent : ∀ m ∈ sent, Honest c.applied m) (hstage : StageHonest c.applied conn'.stage)
    (hinbound : ∀ frame ∈ conn'.inbound, isCall frame → frame ∈ conn.inbound) :
    Correlated s conn' { c with wires := w } := by
  have hmoved := h.moved [] (by simp) htold hconn hopen hwait (by rwa [append_nil])
    (by rwa [append_nil]) hinbound
  rwa [append_nil] at hmoved

theorem Correlated.unmoved (htold : Wires.Told s [] c.wires w)
    (hconn : w.connection s = c.wires.connection s)
    (hopen : (w.server.handles s).cancelled = false) : Correlated s conn { c with wires := w } :=
  h.moved_nil htold (hconn.trans h.connection) hopen rfl (by simp) h.stage fun _ hframe _ => hframe

theorem Correlated.served {msg : Option (String × OutboundMsg × Origin)}
    (hhandles : server.handles = c.wires.server.handles)
    (hw : w = ({ c.wires with server := server }.dispatch msg).put t conn')
    (hopen : (w.server.handles s).cancelled = false) :
    Wires.Told s ((msg.toList.filter fun m => m.1 = s).map Prod.snd) c.wires w := by
  subst hw
  have haligned : (c.wires.origins s).length = (server.handles s).queue.length := by
    rw [hhandles]
    exact h.aligned
  have hdispatch := Wires.told_dispatch (c := { c.wires with server := server }) haligned hopen
  have hall := ((Wires.told_withServer hhandles).trans hdispatch).trans (Wires.told_put _ t conn')
  rwa [nil_append, append_nil] at hall

theorem Correlated.task_other (ht : t ≠ s) {told : Connection}
    (hstep : c.wires.advance t now told = some w) (hopen : (w.server.handles s).cancelled = false) :
    Correlated s conn { c with wires := w } := by
  obtain ⟨_, msg, _, hhandles, hw, helse, -⟩ := Wires.serviced_advance hstep
  have hdelta : ∀ m ∈ (msg.toList.filter fun m => m.1 = s).map Prod.snd,
      answerId m = none ∧ Honest c.applied m := by
    simp only [List.mem_map, List.mem_filter, Option.mem_toList, decide_eq_true_eq]
    rintro _ ⟨m, ⟨hm, rfl⟩, rfl⟩
    obtain ⟨_, _, _, _, k, hm⟩ := helse m hm (Ne.symm ht)
    rw [hm]
    exact ⟨rfl, trivial⟩
  refine h.moved_nil (h.served hhandles hw hopen) ?_ hopen ?_ (fun m hm => (hdelta m hm).2) h.stage
    fun _ hframe _ => hframe
  · rw [hw, Wires.connection_put, if_neg (Ne.symm ht), Wires.connection_dispatch]
    exact h.connection
  · rw [List.filterMap_eq_nil_iff.mpr fun m hm => (hdelta m hm).1, List.nil_append]

theorem Correlated.task_self
    (hstep : c.wires.advance s now conn = some w) (hopen : (w.server.handles s).cancelled = false) :
    ∃ conn',
      Correlated s conn' { c with wires := w, applied := c.applied ++ executed conn.stage } := by
  obtain ⟨_, msg, conn', hhandles, hw, helse, hkeeps⟩ := Wires.serviced_advance hstep
  have hserves := hkeeps c.applied h.stage h.inbound
  have htold := h.served hhandles hw hopen
  have hconn : w.connection s = some conn' := by rw [hw, Wires.connection_put, if_pos rfl]
  -- a message to another session answers nothing
  have hanswers : ((msg.toList.filter fun m => m.1 = s).map Prod.snd).filterMap answerId =
      msg.toList.filterMap fun m => answerId m.2 := by
    cases msg with
    | none => rfl
    | some m =>
      by_cases hm : m.1 = s
      · simp [hm, List.filterMap_cons]
      · obtain ⟨_, _, _, _, k, hdelta⟩ := helse m rfl hm
        simp [hm, hdelta, answerId]
  have hwait := hserves.waiting
  rw [← hanswers] at hwait
  have hsent : ∀ m ∈ (msg.toList.filter fun m => m.1 = s).map Prod.snd,
      Honest (c.applied ++ executed conn.stage) m := by
    simp only [List.mem_map, List.mem_filter, Option.mem_toList, decide_eq_true_eq]
    rintro _ ⟨m, ⟨hm, -⟩, rfl⟩
    exact hserves.honest m hm
  have hmore : ∀ id ∈ executed conn.stage,
      ∃ frame, callOf conn.stage = some frame ∧ callIdOf frame = id := by
    intro id hid
    cases hcase : conn.stage with
    | accepted frame =>
      rw [hcase] at hid
      exact ⟨frame, rfl, (List.mem_singleton.mp hid).symm⟩
    | _ =>
      rw [hcase] at hid
      cases hid
  exact ⟨conn', h.moved _ hmore htold hconn hopen hwait hsent hserves.stage
    fun frame hframe _ => hserves.inbound frame hframe⟩

end

/-! ### One event -/

theorem told_exchange {c : Wires} (hlink : c.link = some s)
    (hconn : c.connection s = some conn) (sent : SodpClient × List Frame) :
    Wires.Told s [] c (c.exchange sent) ∧ (c.exchange sent).server = c.server ∧
      (c.exchange sent).connection s =
        some { conn with inbound := conn.inbound ++ sent.2 } := by
  have heq : c.exchange sent =
      { c with client := sent.1 }.put s { conn with inbound := conn.inbound ++ sent.2 } := by
    rw [Wires.exchange]
    simp only [hlink, hconn]
  rw [heq, Wires.connection_put, if_pos rfl]
  exact ⟨⟨(append_nil _).symm, id, rfl⟩, rfl, rfl⟩

theorem told_accept {c : Wires} (ht : s ≠ t) (now : ℕ) (sub : Option String) (claims : Value) :
    Wires.Told s [] c (c.accept t now sub claims) ∧
      (c.accept t now sub claims).server.handles s = c.server.handles s ∧
      (c.accept t now sub claims).connection s = c.connection s := by
  have hhandle : (c.accept t now sub claims).server.handles s = c.server.handles s :=
    update_of_ne ht _ _
  have horigins : (c.accept t now sub claims).origins s = c.origins s :=
    update_of_ne ht _ _
  refine ⟨⟨?_, ?_, rfl⟩, hhandle, update_of_ne ht _ _⟩
  · rw [Wires.flight, Wires.flight, hhandle, horigins, append_nil]
    rfl
  · rw [hhandle, horigins]
    exact id

theorem Correlated.exchange (h : Correlated s conn c) (sent : SodpClient × List Frame)
    (hframes : ∀ frame ∈ sent.2, frame.frameType ≠ .call) :
    ∃ conn', Correlated s conn' { c with wires := c.wires.exchange sent } := by
  obtain ⟨htold, hserver, hconn⟩ := told_exchange h.link h.connection sent
  have hother : ∀ frame ∈ sent.2, ¬ isCall frame := fun frame hframe =>
    mt of_decide_eq_true (hframes frame hframe)
  refine ⟨_, h.moved_nil htold hconn ?_ ?_ (by simp) h.stage fun frame hframe hcall => ?_⟩
  · rw [hserver]
    exact h.isOpen
  · change waiting _ = _
    rw [waiting, waiting, filter_append, filter_eq_nil_iff.mpr hother, append_nil]
  · rcases mem_append.mp hframe with hold | hnew
    · exact hold
    · exact absurd hcall (hother frame hnew)

theorem callIdOf_call (client : SodpClient) (callId method : String) (args : Value) :
    callIdOf (client.call (callBody callId method args)).2 = callId := by
  simp [callIdOf, SodpClient.call, SodpClient.send, callBody, Value.ofFields,
    OrderedMap.get?_insert, Value.asStr]

theorem Correlated.call (h : Correlated s conn c) (client : SodpClient) {frame : Frame}
    (hcall : isCall frame) (hfresh : callIdOf frame ∉ c.issued) : ∃ conn', Correlated s conn'
      { c with
        wires := c.wires.exchange (client, [frame])
        pending := c.pending ++ [callIdOf frame]
        issued := callIdOf frame :: c.issued } := by
  obtain ⟨htold, hserver, hconn⟩ := told_exchange h.link h.connection (client, [frame])
  have hnew : callIdOf frame ∉ c.settled.map Settlement.callId ++ c.pending ++ c.applied :=
    mt (h.issued _) hfresh
  refine ⟨_, htold.link.trans h.link, hconn, ?_, htold.aligned h.aligned, ?_, ?_, ?_, ?_, ?_,
    h.stage, ?_, h.settled⟩
  · rw [hserver]
    exact h.isOpen
  · have hwaiting : waiting { conn with inbound := conn.inbound ++ [frame] } =
        waiting conn ++ [callIdOf frame] := by simp [waiting, hcall]
    rw [htold.flight, append_nil, hwaiting, h.fifo, append_assoc]
  · rw [← append_assoc, nodup_append]
    refine ⟨h.nodup, nodup_singleton _, fun id hid other hother => ?_⟩
    rw [mem_singleton.mp hother]
    rintro rfl
    exact hnew (mem_append_left _ hid)
  · intro id hid
    by_cases hself : id = callIdOf frame
    · exact hself ▸ mem_cons_self
    · refine mem_cons_of_mem _ (h.issued id ?_)
      simpa [hself] using hid
  · intro id hid
    rw [← append_assoc]
    rcases mem_cons.mp hid with rfl | hold
    · exact mem_append_right _ mem_cons_self
    · exact mem_append_left _ (h.kept id hold)
  · rw [htold.flight, append_nil]
    exact h.honest
  · intro asked hasked hcall
    rcases mem_append.mp hasked with hold | hself
    · exact h.inbound asked hold hcall
    · rw [mem_singleton.mp hself]
      exact fun hmem => hnew (mem_append_right _ hmem)

theorem Correlated.write (h : Correlated s conn c) (hstep : c.wires.step (.write t) = some w) :
    Correlated s conn { c with wires := w } := by
  rw [Wires.step] at hstep
  split at hstep
  · next msg queue origin origins hqueue horigins =>
    cases hstep
    have htold : Wires.Told s [] c.wires { c.wires with
        server := { c.wires.server with
          handles := update c.wires.server.handles t
            { c.wires.server.handles t with queue := queue } }
        origins := update c.wires.origins t origins
        wire := if c.wires.link = some t then c.wires.wire ++ [(msg, origin)]
          else c.wires.wire } := by
      by_cases ht : t = s
      · subst ht
        refine ⟨?_, fun haligned => ?_, rfl⟩
        · simp [Wires.flight, h.link, hqueue, horigins]
        · rw [hqueue, horigins] at haligned
          simpa using haligned
      · have hlink : ¬ some s = some t := by simpa using Ne.symm ht
        refine ⟨?_, fun haligned => ?_, rfl⟩
        · simp [Wires.flight, h.link, hlink, update_of_ne (Ne.symm ht)]
        · simpa [update_of_ne (Ne.symm ht)] using haligned
    refine h.unmoved htold rfl ?_
    have hopen := h.isOpen
    by_cases ht : s = t
    · subst ht
      simpa using hopen
    · simpa [update_of_ne ht] using hopen
  · cases hstep

theorem Correlated.close (h : Correlated s conn c) (ht : s ≠ t)
    (hstep : c.wires.step (.close t) = some w) : Correlated s conn { c with wires := w } := by
  rw [Wires.step] at hstep
  split at hstep
  · cases hstep
    refine h.unmoved (Wires.told_put ..) ?_ h.isOpen
    rw [Wires.connection_put, if_neg ht]
  · cases hstep

theorem Correlated.arrive (h : Correlated s conn c) {frame : Frame}
    (hstep : c.wires.step (.arrive t frame) = some w) :
    Correlated s conn { c with wires := w } := by
  rw [Wires.step] at hstep
  split at hstep
  · split_ifs at hstep with hlink
    cases hstep
    refine h.unmoved (Wires.told_put ..) ?_ h.isOpen
    rw [Wires.connection_put, if_neg]
    rintro rfl
    exact hlink h.link
  · cases hstep

theorem Correlated.join (h : Correlated s conn c) {sub : Option String} {claims : Value}
    (hstep : c.wires.step (.join t now sub claims) = some w) :
    Correlated s conn { c with wires := w } := by
  rw [Wires.step] at hstep
  split at hstep
  · next hnone =>
    cases hstep
    have ht : s ≠ t := by
      rintro rfl
      rw [h.connection] at hnone
      cases hnone
    obtain ⟨htold, hhandle, hconn⟩ := told_accept ht now sub claims
    exact h.unmoved htold hconn (by rw [hhandle]; exact h.isOpen)
  · cases hstep

theorem Correlated.task (h : Correlated s conn c) (hstep : c.wires.step (.task t now) = some w)
    (hopen : (w.server.handles s).cancelled = false) : ∃ conn', Correlated s conn'
      { c with
        wires := w
        applied := if t = s
          then c.applied ++ (c.wires.connection s).elim [] fun conn => executed conn.stage
          else c.applied } := by
  rw [Wires.step] at hstep
  split_ifs with ht
  · subst ht
    rw [h.connection] at hstep ⊢
    exact h.task_self hstep hopen
  · split at hstep
    · cases hstep
    · exact ⟨conn, h.task_other ht hstep hopen⟩

def stray : OutboundMsg × Origin → Bool
  | (.error .., .answer frame) => ! isCall frame
  | _ => false

theorem Correlated.settle (h : Correlated s conn c) (client : SodpClient)
    (hwire : c.wires.wire = m :: wire) {id : String} (hid : answerId m = some id) {x : Settlement}
    (hx : x.callId = id) (hright : Settlement.Right c.applied x) :
    ∃ pending, c.pending = id :: pending ∧ Correlated s conn { c with
        wires := { c.wires with client := client, wire := wire }
        pending := pending
        settled := c.settled ++ [x] } := by
  have hflight : c.wires.flight s =
      m :: Wires.flight { c.wires with client := client, wire := wire } s := by
    rw [Wires.flight, hwire]
    rfl
  have hfifo := h.fifo
  rw [hflight, filterMap_cons_some hid, cons_append] at hfifo
  have hids : (c.settled ++ [x]).map Settlement.callId ++
      ((Wires.flight { c.wires with client := client, wire := wire } s).filterMap answerId ++
        waiting conn) = c.settled.map Settlement.callId ++ c.pending := by
    rw [hfifo, map_append, append_assoc, ← hx]
    rfl
  refine ⟨_, hfifo, h.link, h.connection, h.isOpen, h.aligned, rfl, ?_, ?_, ?_, ?_, h.stage,
    h.inbound, ?_⟩
  · rw [hids]
    exact h.nodup
  · rw [hids]
    exact h.issued
  · rw [hids]
    exact h.kept
  · intro m' hm'
    refine h.honest m' ?_
    rw [hflight]
    exact mem_cons_of_mem m hm'
  · intro y hy
    rcases mem_append.mp hy with hold | hnew
    · exact h.settled y hold
    · exact mem_singleton.mp hnew ▸ hright

theorem Correlated.pass (h : Correlated s conn c) (hwire : c.wires.wire = m :: wire)
    (hid : answerId m = none) {client : SodpClient} : Correlated s conn
      { c with wires := { c.wires with client := client, wire := wire } } := by
  have hflight : c.wires.flight s =
      m :: Wires.flight { c.wires with client := client, wire := wire } s := by
    rw [Wires.flight, hwire]
    rfl
  have hfifo := h.fifo
  rw [hflight, filterMap_cons_none hid] at hfifo
  refine ⟨h.link, h.connection, h.isOpen, h.aligned, hfifo, h.nodup, h.issued, h.kept,
    fun m' hm' => h.honest m' ?_, h.stage, h.inbound, h.settled⟩
  rw [hflight]
  exact mem_cons_of_mem m hm'

theorem Correlated.receive (h : Correlated s conn c) (hwire : c.wires.wire = m :: wire)
    (hquiet : stray m → c.pending = []) (client : SodpClient) : Correlated s conn
      { c.onMessage m with wires := { c.wires with client := client, wire := wire } } := by
  have hmem : m ∈ c.wires.flight s := by
    rw [Wires.flight, hwire]
    exact mem_cons_self
  have hhonest := h.honest m hmem
  obtain ⟨msg, origin⟩ := m
  cases msg with
  | resultOk streamId seq callId =>
    obtain ⟨happlied, horigin⟩ := hhonest
    obtain ⟨pending, hpending, hnext⟩ := h.settle client hwire rfl
      (x := ⟨callId, true, origin⟩) rfl ⟨⟨fun _ => happlied, fun _ => rfl⟩, horigin⟩
    rw [onMessage, onResult, hpending, if_pos mem_cons_self, erase_cons_head]
    exact hnext
  | error =>
    cases origin with
    | change => exact hhonest.elim
    | answer frame =>
      by_cases hcall : isCall frame
      · have hrefused := hhonest hcall
        obtain ⟨pending, hpending, hnext⟩ := h.settle client hwire
          (if_pos (of_decide_eq_true hcall)) (x := ⟨callIdOf frame, false, .answer frame⟩) rfl
          ⟨⟨fun hres => (by cases hres), fun hmem => absurd hmem hrefused⟩, frame, rfl, hcall, rfl⟩
        rw [onMessage, onError, hpending]
        exact hnext
      · have hpending := hquiet (by simpa [stray] using hcall)
        rw [onMessage, onError, hpending]
        exact h.pass hwire (if_neg (mt decide_eq_true hcall))
  | _ => exact h.pass hwire rfl

/-- No ERROR that answers another frame than a CALL meets a pending call. -/
def Quiet (c : Calls) : Event → Prop
  | .other .receive => ∀ m ∈ c.wires.wire.head?, stray m → c.pending = []
  | _ => True

theorem Correlated.step (h : Correlated s conn c) (hquiet : Quiet c e)
    (hstep : Calls.step s c e = some c') : ∃ conn', Correlated s conn' c' := by
  cases e with
  | call callId method args =>
    rw [Calls.step] at hstep
    split_ifs at hstep
    obtain ⟨w, hw, rfl⟩ := map_eq_some_iff.mp hstep
    cases hw
    have hid := callIdOf_call c.wires.client callId method args
    have hcall : isCall (c.wires.client.call (callBody callId method args)).2 := rfl
    have hcalled := h.call (c.wires.client.call (callBody callId method args)).1 hcall
      (by rwa [hid])
    rwa [hid] at hcalled
  | other e =>
    cases e with
    | call | lose | connect => cases hstep
    | close =>
      rw [Calls.step] at hstep
      split_ifs at hstep with ht
      obtain ⟨w, hw, rfl⟩ := map_eq_some_iff.mp hstep
      exact ⟨conn, h.close (Ne.symm ht) hw⟩
    | receive =>
      obtain ⟨w, hw, rfl⟩ := map_eq_some_iff.mp hstep
      rw [Wires.step] at hw
      split at hw
      · next hwire =>
        cases hw
        rw [hwire]
        refine ⟨conn, h.receive hwire (hquiet _ ?_) _⟩
        rw [hwire]
        rfl
      · cases hw
    | task =>
      obtain ⟨w, hw, hc⟩ := bind_eq_some_iff.mp hstep
      split at hc
      · cases hc
      · next hopen =>
        cases hc
        exact h.task hw (Bool.eq_false_iff.mpr hopen)
    | join =>
      obtain ⟨w, hw, rfl⟩ := map_eq_some_iff.mp hstep
      exact ⟨conn, h.join hw⟩
    | arrive =>
      obtain ⟨w, hw, rfl⟩ := map_eq_some_iff.mp hstep
      exact ⟨conn, h.arrive hw⟩
    | write =>
      obtain ⟨w, hw, rfl⟩ := map_eq_some_iff.mp hstep
      exact ⟨conn, h.write hw⟩
    | watch key params =>
      cases hstep
      exact h.exchange _ (watch_frameType _ key params)
    | watchMany keys params =>
      cases hstep
      exact h.exchange _ (watchMany_frameType _ keys params)
    | unsubscribe =>
      cases hstep
      exact h.exchange _ (by simp)
    | unwatch key =>
      cases hstep
      exact h.exchange _ (unwatch_frameType _ key)

theorem correlated_start {sub : Option String} {claims : Value}
    (hstart : start server s now sub claims = some c) : ∃ conn, Correlated s conn c := by
  obtain ⟨w, hw, rfl⟩ := map_eq_some_iff.mp hstart
  cases hw
  have haccepted : Correlated s
      ⟨{ ((Wires.start server).server.accept s now).2 with sub := sub, claims := claims }, [],
        .idle⟩
      ⟨{ (Wires.start server).accept s now sub claims with link := some s, wire := [] },
        [], [], [], []⟩ := by
    have hhandle : ((Wires.start server).accept s now sub claims).server.handles s =
        ⟨[], server.backpressureLimit, false⟩ := update_self ..
    have horigins : ((Wires.start server).accept s now sub claims).origins s = [] :=
      update_self ..
    have hflight : Wires.flight { (Wires.start server).accept s now sub claims with
        link := some s, wire := [] } s = [] := by
      rw [Wires.flight]
      rw [hhandle]
      rfl
    refine ⟨rfl, update_self .., ?_, ?_, ?_, nodup_nil, by simp, by simp, ?_, trivial,
      by simp, by simp⟩
    · dsimp only
      rw [hhandle]
    · dsimp only
      rw [hhandle, horigins]
      rfl
    · rw [hflight]
      rfl
    · rw [hflight]
      simp
  exact haccepted.exchange _ (onReady_frameType _)

/-! ### Whole runs -/

def Quiescent (s : String) (c : Calls) : Prop :=
  c.wires.flight s = [] ∧ ∃ session, c.wires.connection s = some ⟨session, [], .idle⟩

/-- Every promise that is settled is settled as its call was, by the answer to that call, and
none is forgotten. -/
structure Correct (s : String) (c : Calls) : Prop where
  settled : ∀ x ∈ c.settled, Settlement.Right c.applied x
  complete : c.Quiescent s → ∀ id ∈ c.issued, ∃ x ∈ c.settled, x.callId = id

theorem Correlated.correct (h : Correlated s conn c) : Correct s c := by
  refine ⟨h.settled, fun ⟨hflight, session, hconn⟩ id hid => ?_⟩
  have hpending : c.pending = [] := by
    rw [h.connection, some.injEq] at hconn
    rw [h.fifo, hflight, hconn]
    rfl
  have hkept := h.kept id hid
  rw [hpending, append_nil] at hkept
  exact mem_map.mp hkept

theorem settled_onMessage (m : OutboundMsg × Origin) : c.settled ⊆ (c.onMessage m).settled := by
  obtain ⟨msg, -⟩ := m
  cases msg with
  | resultOk =>
    rw [onMessage, onResult]
    split_ifs
    · exact subset_append_left ..
    · exact fun _ => id
  | error =>
    rw [onMessage, onError]
    split
    · exact fun _ => id
    · exact subset_append_left ..
  | _ => exact fun _ => id

theorem settled_step (hstep : step s c e = some c') : c.settled ⊆ c'.settled := by
  cases e with
  | call =>
    rw [step] at hstep
    split_ifs at hstep
    obtain ⟨w, -, rfl⟩ := map_eq_some_iff.mp hstep
    exact fun _ => id
  | other e =>
    cases e with
    | call | lose | connect => cases hstep
    | close =>
      rw [step] at hstep
      split_ifs at hstep
      obtain ⟨w, -, rfl⟩ := map_eq_some_iff.mp hstep
      exact fun _ => id
    | receive =>
      obtain ⟨w, -, rfl⟩ := map_eq_some_iff.mp hstep
      cases c.wires.wire.head? with
      | none => exact fun _ => id
      | some m => exact settled_onMessage m
    | task =>
      obtain ⟨w, -, hc⟩ := bind_eq_some_iff.mp hstep
      split_ifs at hc
      · cases hc
        exact fun _ => id
      · cases hc
        exact fun _ => id
    | join | arrive | write =>
      obtain ⟨w, -, rfl⟩ := map_eq_some_iff.mp hstep
      exact fun _ => id
    | watch | watchMany | unsubscribe | unwatch =>
      cases hstep
      exact fun _ => id

theorem quiet_of_right (hstep : step s c e = some c')
    (hright : ∀ x ∈ c'.settled, ∃ frame, x.origin = .answer frame ∧ isCall frame) : Quiet c e := by
  cases e with
  | call => trivial
  | other e =>
    cases e with
    | receive =>
      intro m hm hstray
      obtain ⟨w, -, rfl⟩ := map_eq_some_iff.mp hstep
      rw [mem_def.mp hm] at hright
      obtain ⟨msg, origin⟩ := m
      cases msg with
      | error =>
        cases origin with
        | change => cases hstray
        | answer =>
          cases hpending : c.pending with
          | nil => rfl
          | cons =>
            simp only [elim_some, onMessage, onError, hpending] at hright
            obtain ⟨_, horigin, hcall⟩ := hright _ (mem_append_right _ mem_cons_self)
            cases horigin
            simp [stray, hcall] at hstray
      | _ => cases hstray
    | _ => trivial

/-- The promises of `call` are settled right exactly as long as no ERROR that answers another
frame than a CALL reaches the client while a call is pending. -/
theorem calls_correlated_iff {server : SodpServer} {now : ℕ} {sub : Option String}
    {claims : Value} {c₀ : Calls} (hstart : start server s now sub claims = some c₀)
    {events : List Event} (hrun : run (step s) c₀ events = some c) :
    Correct s c ↔ Transition.Along (step s) Quiet c₀ events := by
  obtain ⟨conn₀, hc₀⟩ := correlated_start hstart
  constructor
  · intro hcorrect
    have horigin : ∀ x ∈ c.settled, ∃ frame, x.origin = .answer frame ∧ isCall frame := by
      intro x hx
      obtain ⟨-, frame, horigin, hcall, -⟩ := hcorrect.settled x hx
      exact ⟨frame, horigin, hcall⟩
    clear hstart hcorrect hc₀
    induction events generalizing c₀ with
    | nil => trivial
    | cons e events ih =>
      obtain ⟨m, hm, hrest⟩ := run_cons_eq_some.mp hrun
      have hgrows : m.settled ⊆ c.settled := by
        refine invariant (I := fun c' => m.settled ⊆ c'.settled) ?_ (fun _ => id) hrest
        exact fun c₁ e c₂ hold hstep => fun x hx => settled_step hstep (hold hx)
      refine ⟨quiet_of_right hm fun x hx => horigin x (hgrows hx), ?_⟩
      rw [hm]
      exact ih hrest
  · intro hquiet
    obtain ⟨conn, hc⟩ := invariant_along (I := fun c => ∃ conn, Correlated s conn c)
      (fun c e c' ⟨conn, hc⟩ hq hstep => hc.step hq hstep) ⟨conn₀, hc₀⟩ hquiet hrun
    exact hc.correct

instance (c : Calls) (e : Event) : Decidable (Quiet c e) := by
  unfold Quiet
  split <;> infer_instance

def secretServer : SodpServer :=
  { SodpServer.new with acl := some ⟨fun k _ _ => k ≠ "secret", fun k _ _ => k ≠ "secret"⟩ }

def setCall (callId : String) : Event :=
  .call callId "state.set" (.ofFields [("state", .string "k"), ("value", .bool true)])

def refusedBefore : List Event :=
  [.other (.watch "secret" none)] ++ List.replicate 3 (.other (.task "s" 0)) ++
  [.other (.write "s"), .other .receive, setCall "c", .call "d" "state.unset" .null] ++
  List.replicate 7 (.other (.task "s" 0)) ++
  [.other (.write "s"), .other (.write "s"), .other .receive, .other .receive]

theorem calls_correlated_refused : ∃ c₀ c, start secretServer "s" 0 none .null = some c₀ ∧
      run (step "s") c₀ refusedBefore = some c ∧ Correct "s" c ∧
      c.settled.map (fun x => (x.callId, x.resolved)) = [("c", true), ("d", false)] := by
  obtain ⟨c₀, hc₀, c, hc, hquiet, hsettled⟩ :
      ∃ c₀ ∈ start secretServer "s" 0 none .null, ∃ c ∈ run (step "s") c₀ refusedBefore,
        Transition.Along (step "s") Quiet c₀ refusedBefore ∧
        c.settled.map (fun x => (x.callId, x.resolved)) = [("c", true), ("d", false)] := by
    decide +kernel
  exact ⟨c₀, c, hc₀, hc, (calls_correlated_iff hc₀ hc).mpr hquiet, hsettled⟩

def refusedMeanwhile : List Event :=
  [.other (.watch "secret" none), setCall "c"] ++ List.replicate 9 (.other (.task "s" 0)) ++
  [.other (.write "s"), .other (.write "s"), .other .receive, .other .receive]

/-- The call is executed and its promise is rejected, by the ERROR of the WATCH. -/
theorem refused_watch_rejects_call : ∃ c₀ c, start secretServer "s" 0 none .null = some c₀ ∧
      run (step "s") c₀ refusedMeanwhile = some c ∧
      c.wires.server.state.valueOf "k" = .bool true ∧ c.applied = ["c"] ∧
      c.settled.map (fun x => (x.callId, x.resolved)) = [("c", false)] ∧ ¬ Correct "s" c := by
  obtain ⟨c₀, hc₀, c, hc, hvalue, happlied, hsettled⟩ :
      ∃ c₀ ∈ start secretServer "s" 0 none .null, ∃ c ∈ run (step "s") c₀ refusedMeanwhile,
        c.wires.server.state.valueOf "k" = .bool true ∧ c.applied = ["c"] ∧
        c.settled.map (fun x => (x.callId, x.resolved)) = [("c", false)] := by
    decide +kernel
  refine ⟨c₀, c, hc₀, hc, hvalue, happlied, hsettled, fun hcorrect => ?_⟩
  obtain ⟨x, hx, hpair⟩ : ∃ x ∈ c.settled, (x.callId, x.resolved) = ("c", false) :=
    mem_map.mp (hsettled ▸ mem_cons_self)
  obtain ⟨hid, hresolved⟩ := Prod.mk.inj hpair
  have hright := (hcorrect.settled x hx).1.mpr (by rw [happlied, hid]; exact mem_cons_self)
  rw [hresolved] at hright
  cases hright

end Calls

end Sodp
