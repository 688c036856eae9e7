import LFGateway.Net.Lemmas.Reactor

/-!
This module contains one lemma for each callback of an open connection: it stays within the
connection, and it leaves it open with its streams intact or closed with its entry erased.
-/

namespace LFGateway

open Foundation

namespace Reactor

variable {r r' : Reactor} {c : Nat} {fd : Int} {nonempty : Prop}

/--
The output side of an open connection: nothing sent is lost, and the channel waits for `EPOLLOUT`
exactly while there is something to write.
-/
structure Flow (c : Nat) (r : Reactor) : Prop where
  stream : r.written c ++ (r.conn c).outputBuffer_ = (r.sent c).flatten
  armed : (r.conn c).channel_.events_
    = EPOLLIN ||| EPOLLPRI ||| (if (r.conn c).outputBuffer_ = [] then 0 else EPOLLOUT)

/--
The input side of a connection of the API server: between callbacks the buffer is empty, and every
read has become a task of its own.
-/
def Delivered (c : Nat) (r : Reactor) : Prop :=
  (r.conn c).server = .api →
    (r.conn c).inputBuffer_ = [] ∧ r.tasksOf c = r.readsOf c ∧
      ∀ data ∈ r.readsOf c, data.length ≤ 65536

/--
What a callback of connection `c` does, if it starts with `c` open. `nonempty` says that the messages
sent meanwhile are not empty.
-/
structure Effect (nonempty : Prop) (c : Nat) (fd : Int) (r r' : Reactor) : Prop where
  frame : Frame c fd r r'
  delivered : Delivered c r → Delivered c r'
  outcome :
    (Open c fd r' ∧ r'.server = r.server ∧ (nonempty → Flow c r → Flow c r')) ∨
      (Closed c r' ∧ r'.server = erased r c)

theorem Frame.erased (h : Frame c fd r r') (hserver : r'.server = r.server)
    : Reactor.erased r' c = Reactor.erased r c := by
  unfold Reactor.erased
  rw [h.owner, h.name, hserver]

theorem Effect.refl (h : Open c fd r) : Effect nonempty c fd r r :=
  ⟨Frame.refl c fd r, id, .inl ⟨h, rfl, fun _ => id⟩⟩

theorem Effect.andThen {f : Reactor → Reactor} (h : Effect nonempty c fd r r')
    (hopen : Open c fd r' → Effect nonempty c fd r' (f r'))
    (hclosed : Closed c r' → f r' = r') : Effect nonempty c fd r (f r') := by
  cases h.outcome with
  | inl hleft =>
    obtain ⟨hstays, hserver, hflow⟩ := hleft
    have hop := hopen hstays
    refine ⟨h.frame.trans hop.frame, hop.delivered ∘ h.delivered, ?_⟩
    cases hop.outcome with
    | inl hleft =>
      obtain ⟨hstays', hserver', hflow'⟩ := hleft
      left
      refine ⟨hstays', by rw [hserver', hserver], ?_⟩
      intro hne
      exact hflow' hne ∘ hflow hne
    | inr hright =>
      right
      rw [← h.frame.erased hserver]
      exact hright
  | inr hright =>
    rw [hclosed hright.1]
    exact h

theorem readsOf_append_of_not_read {x : Call} (hx : ∀ fd data, x ≠ .read fd data)
    : (r.call c x).readsOf c = r.readsOf c := by
  simp only [readsOf, call_calls_self, List.filterMap_append]
  cases x with
  | read fd data => exact absurd rfl (hx fd data)
  | epollCtl | write | close | removeConnection => simp

theorem Delivered.congr (h : Delivered c r) (howner : (r'.conn c).server = (r.conn c).server)
    (hinput : (r'.conn c).inputBuffer_ = (r.conn c).inputBuffer_)
    (htasks : r'.tasks = r.tasks) (hreads : r'.readsOf c = r.readsOf c) : Delivered c r' := by
  intro hapi
  rw [howner] at hapi
  obtain ⟨hempty, hdelivered, hbound⟩ := h hapi
  rw [hinput, hreads]
  refine ⟨hempty, ?_, hbound⟩
  rw [← hdelivered]
  unfold tasksOf
  rw [htasks]

theorem delivered_setEvents (h : Open c fd r) (f : Events → Events) (hd : Delivered c r)
    : Delivered c (Channel.setEvents r c f) := by
  rw [setEvents_of_open h]
  apply Delivered.congr hd
  . simp
  . simp
  . rfl
  . rw [readsOf_append_of_not_read (by simp)]
    rfl

theorem Open.effect_handleClose (h : Open c fd r)
    : Effect nonempty c fd r (TcpConnection.handleClose r c) := by
  obtain ⟨hclosed, hframe, hserver⟩ := h.handleClose
  refine ⟨hframe, ?_, .inr ⟨hclosed, hserver⟩⟩
  intro hd
  apply hd.congr
  . exact hframe.owner
  . rw [handleClose_of_open h]
    simp
  . rw [handleClose_of_open h]
  . rw [handleClose_of_open h]
    simp [readsOf]

theorem Effect.handleClose (h : Effect nonempty c fd r r')
    : Effect nonempty c fd r (TcpConnection.handleClose r' c) :=
  h.andThen (f := (TcpConnection.handleClose · c)) (fun hopen => hopen.effect_handleClose)
    handleClose_of_closed

theorem Open.effect_call (h : Open c fd r) {x : Call} (hx : KeepsOpen x)
    (hread : ∀ fd data, x ≠ .read fd data) : Effect nonempty c fd r (r.call c x) := by
  refine ⟨Frame.call x, ?_, .inl ⟨h.call hx, rfl, fun _ hf => ⟨hf.stream, hf.armed⟩⟩⟩
  intro hd
  have hreads : (r.call c x).readsOf c = r.readsOf c := readsOf_append_of_not_read hread
  exact hd.congr rfl rfl rfl hreads

theorem events_or_out (e : Events) (h : e = EPOLLIN ||| EPOLLPRI ||| 0)
    : e ||| EPOLLOUT = EPOLLIN ||| EPOLLPRI ||| EPOLLOUT := by
  subst h
  decide

theorem isWriting_of_flow (h : Flow c r)
    : (r.conn c).channel_.isWriting = true ↔ (r.conn c).outputBuffer_ ≠ [] := by
  unfold Channel.isWriting
  rw [h.armed]
  split
  . next hempty =>
    simp only [hempty, ne_eq, not_true_eq_false, iff_false]
    decide
  . next hsome =>
    simp only [hsome, ne_eq, not_false_eq_true, iff_true]
    decide

def buffered (r : Reactor) (c : Nat) (message : Bytes) : Reactor :=
  { r with sent := Function.update r.sent c (r.sent c ++ [message]) }.modify c
    fun conn => { conn with outputBuffer_ := conn.outputBuffer_ ++ message }

theorem sendInLoop_of_open (h : Open c fd r) (message : Bytes)
    : TcpConnection.sendInLoop r c message
        =
      if (r.conn c).channel_.isWriting then
        buffered r c message
      else
        Channel.enableWriting (buffered r c message) c := by
  have hsockfd : ¬fd < 0 := not_lt.mpr h.nonneg
  simp [TcpConnection.sendInLoop, buffered, h.sockfd, h.removed, hsockfd]

theorem Open.buffered (h : Open c fd r) (message : Bytes) : Open c fd (buffered r c message) := by
  apply Open.modify
  . exact ⟨h.nonneg, h.sockfd, h.channelFd, h.index, h.removed, h.interest, h.calls⟩
  . rfl
  . rfl

theorem Frame.buffered (message : Bytes) : Frame c fd r (buffered r c message) := by
  constructor <;> simp_all [Reactor.buffered, tasksOf]

theorem Open.sendInLoop (h : Open c fd r) (message : Bytes)
    : Open c fd (TcpConnection.sendInLoop r c message) ∧
        Frame c fd r (TcpConnection.sendInLoop r c message) ∧
        (TcpConnection.sendInLoop r c message).server = r.server := by
  rw [sendInLoop_of_open h]
  have hbuffered := h.buffered message
  have hframe : Frame c fd r (Reactor.buffered r c message) := Frame.buffered message
  split
  . exact ⟨hbuffered, hframe, rfl⟩
  . obtain ⟨hopen, hset⟩ := hbuffered.setEvents fun events_ => events_ ||| EPOLLOUT
    refine ⟨hopen, hframe.trans hset, ?_⟩
    rw [Channel.enableWriting, setEvents_of_open hbuffered]
    rfl

theorem flow_sendInLoop (h : Open c fd r) (hf : Flow c r) {message : Bytes} (hne : message ≠ [])
    : Flow c (TcpConnection.sendInLoop r c message) := by
  rw [sendInLoop_of_open h]
  have hstream : r.written c ++ ((r.conn c).outputBuffer_ ++ message)
      = (r.sent c ++ [message]).flatten := by
    rw [← List.append_assoc, hf.stream]
    simp
  have hsome : (r.conn c).outputBuffer_ ++ message ≠ [] := by
    simp [hne]
  split
  . next hon =>
    rw [isWriting_of_flow hf] at hon
    refine ⟨by simpa [buffered] using hstream, ?_⟩
    simp only [buffered, modify_conn_self, hsome, ↓reduceIte]
    rw [hf.armed]
    simp [hon]
  . next hoff =>
    rw [isWriting_of_flow hf, not_not] at hoff
    rw [Channel.enableWriting, setEvents_of_open (h.buffered message)]
    refine ⟨by simpa [buffered] using hstream, ?_⟩
    simp only [call_conn, Function.update_self, buffered, modify_conn_self, hsome, ↓reduceIte]
    apply events_or_out
    rw [hf.armed]
    simp [hoff]

theorem delivered_sendInLoop (h : Open c fd r) (message : Bytes) (hd : Delivered c r)
    : Delivered c (TcpConnection.sendInLoop r c message) := by
  rw [sendInLoop_of_open h]
  have hsame : Delivered c (buffered r c message) := by
    apply hd.congr
    . simp [buffered]
    . simp [buffered]
    . rfl
    . rfl
  split
  . exact hsame
  . exact delivered_setEvents (h.buffered message) _ hsame

theorem Open.effect_sendInLoop (h : Open c fd r) (message : Bytes)
    (hne : nonempty → message ≠ []) : Effect nonempty c fd r (TcpConnection.sendInLoop r c message) := by
  obtain ⟨hopen, hframe, hserver⟩ := h.sendInLoop message
  refine ⟨hframe, delivered_sendInLoop h message, .inl ⟨hopen, hserver, ?_⟩⟩
  intro hnonempty hf
  exact flow_sendInLoop h hf (hne hnonempty)

theorem sendInLoop_of_closed (h : Closed c r) (message : Bytes)
    : TcpConnection.sendInLoop r c message
        =
      { r with sent := Function.update r.sent c (r.sent c ++ [message]) } := by
  simp [TcpConnection.sendInLoop, h.sockfd]

theorem Open.replies (h : Open c fd r) (replies : List Bytes)
    (hne : nonempty → ∀ reply ∈ replies, reply ≠ [])
    : Open c fd (replies.foldl (TcpConnection.sendInLoop · c ·) r) ∧
        Frame c fd r (replies.foldl (TcpConnection.sendInLoop · c ·) r) ∧
        (replies.foldl (TcpConnection.sendInLoop · c ·) r).server = r.server ∧
        (nonempty → Flow c r → Flow c (replies.foldl (TcpConnection.sendInLoop · c ·) r)) := by
  induction replies generalizing r with
  | nil => exact ⟨h, Frame.refl c fd r, rfl, fun _ => id⟩
  | cons reply replies ih =>
    obtain ⟨hopen, hframe, hserver⟩ := h.sendInLoop reply
    have hrest := ih hopen (fun hn m hm => hne hn m (List.mem_cons_of_mem _ hm))
    obtain ⟨hopen', hframe', hserver', hflow'⟩ := hrest
    rw [List.foldl_cons]
    refine ⟨hopen', hframe.trans hframe', by rw [hserver', hserver], ?_⟩
    intro hn hf
    exact hflow' hn (flow_sendInLoop h hf (hne hn reply List.mem_cons_self))

def received (r : Reactor) (c : Nat) (buf : Bytes) : Reactor :=
  (r.call c (.read (r.conn c).sockfd_ buf)).modify c
    fun conn => { conn with inputBuffer_ := conn.inputBuffer_ ++ buf }

theorem Open.received (h : Open c fd r) (buf : Bytes)
    : Open c fd (Reactor.received r c buf) := by
  unfold Reactor.received
  apply Open.modify
  . apply h.call
    simp [KeepsOpen]
  . rfl
  . rfl

theorem Frame.received (buf : Bytes) : Frame c fd r (Reactor.received r c buf) :=
  (Frame.call _).trans (Frame.modify _ rfl rfl)

theorem Open.messageCallback (h : Open c fd r) (replies : List Bytes)
    (hne : nonempty → ∀ reply ∈ replies, reply ≠ [])
    : Open c fd (TcpConnection.messageCallback r c replies) ∧
        Frame c fd r (TcpConnection.messageCallback r c replies) ∧
        (TcpConnection.messageCallback r c replies).server = r.server ∧
        (nonempty → Flow c r → Flow c (TcpConnection.messageCallback r c replies)) := by
  unfold TcpConnection.messageCallback
  split
  . refine ⟨?_, ?_, rfl, fun _ hf => ⟨hf.stream, hf.armed⟩⟩
    . exact ⟨h.nonneg, h.sockfd, h.channelFd, h.index, h.removed, h.interest, h.calls⟩
    . constructor <;> simp_all [tasksOf, List.filterMap_append]
      intro c' hc'
      simp [Ne.symm hc']
  . exact h.replies replies hne

theorem delivered_received (hd : Delivered c r) {buf : Bytes} (hbuf : buf ≠ [])
    (hlength : buf.length ≤ 65536) (replies : List Bytes)
    (howner : (TcpConnection.messageCallback (received r c buf) c replies |>.conn c).server
      = (r.conn c).server)
    : Delivered c ((TcpConnection.messageCallback (received r c buf) c replies).modify c
        ({ · with inputBuffer_ := [] })) := by
  intro hapi
  rw [modify_conn_self] at hapi ⊢
  rw [howner] at hapi
  obtain ⟨hempty, hdelivered, hbound⟩ := hd hapi
  have hserver : ((received r c buf).conn c).server = .api := by simpa [received] using hapi
  simp only [TcpConnection.messageCallback, hserver]
  refine ⟨trivial, ?_, ?_⟩
  . simp [received, tasksOf, readsOf, List.filterMap_append, hempty, hbuf]
    exact hdelivered
  . intro data hdata
    simp [received, readsOf, List.filterMap_append, hbuf] at hdata
    rw [or_comm] at hdata
    cases hdata with
    | inl hnew =>
      rw [hnew]
      exact hlength
    | inr hold =>
      apply hbound data
      simpa [readsOf] using hold

theorem Open.effect_handleRead (h : Open c fd r) (result : ReadResult) (replies : List Bytes)
    (hne : nonempty → ∀ reply ∈ replies, reply ≠ [])
    : Effect nonempty c fd r (TcpConnection.handleRead r c result replies) := by
  have hsockfd : ¬fd < 0 := not_lt.mpr h.nonneg
  simp only [TcpConnection.handleRead, h.sockfd, h.removed, hsockfd, Bool.false_eq_true, or_self,
    ↓reduceIte]
  -- a read without bytes leaves the record of reads as it is
  have hnothing : Effect nonempty c fd r (r.call c (.read fd [])) := by
    refine ⟨Frame.call _, ?_, .inl ⟨h.call (by simp [KeepsOpen]), rfl,
      fun _ hf => ⟨hf.stream, hf.armed⟩⟩⟩
    intro hd
    have hreads : (r.call c (.read fd [])).readsOf c = r.readsOf c := by simp [readsOf]
    exact hd.congr rfl rfl rfl hreads
  cases result with
  | data bytes =>
    dsimp only
    split
    . next hbuf =>
      have hreceived : (r.call c (.read fd (bytes.take 65536))).modify c
          (fun conn => { conn with inputBuffer_ := conn.inputBuffer_ ++ bytes.take 65536 })
          = Reactor.received r c (bytes.take 65536) := by
        rw [← h.sockfd]
        rfl
      rw [hreceived]
      have hopen := h.received (bytes.take 65536)
      have hframe : Frame c fd r (Reactor.received r c (bytes.take 65536)) := Frame.received _
      obtain ⟨hopen', hframe', hserver', hflow'⟩ := hopen.messageCallback replies hne
      refine ⟨(hframe.trans hframe').trans (Frame.modify _ rfl rfl), ?_, .inl ⟨?_, ?_, ?_⟩⟩
      . intro hd
        apply delivered_received hd hbuf (List.length_take_le _ _)
        rw [hframe'.owner, hframe.owner]
      . exact hopen'.modify _ rfl rfl
      . rw [modify_server, hserver']
        rfl
      . intro hn hf
        have hf' := hflow' hn ⟨by simpa [Reactor.received] using hf.stream,
          by simpa [Reactor.received] using hf.armed⟩
        exact ⟨by simpa using hf'.stream, by simpa using hf'.armed⟩
    . next hbuf =>
      rw [not_not] at hbuf
      rw [hbuf]
      exact hnothing.handleClose
  | again => exact hnothing
  | error => exact hnothing.handleClose

def drained (r : Reactor) (c : Nat) (n : Nat) : Reactor :=
  let data := (r.conn c).outputBuffer_.take n
  { r.call c (.write (r.conn c).sockfd_ data) with
    written := Function.update r.written c (r.written c ++ data)
  }.modify c fun conn => { conn with outputBuffer_ := conn.outputBuffer_.drop n }

theorem Open.drained (h : Open c fd r) (n : Nat) : Open c fd (Reactor.drained r c n) := by
  unfold Reactor.drained
  apply Open.modify
  . have hcall := h.call (x := .write (r.conn c).sockfd_ ((r.conn c).outputBuffer_.take n))
      (by simp [KeepsOpen])
    exact ⟨hcall.nonneg, hcall.sockfd, hcall.channelFd, hcall.index, hcall.removed,
      hcall.interest, hcall.calls⟩
  . rfl
  . rfl

theorem Frame.drained (n : Nat) : Frame c fd r (Reactor.drained r c n) := by
  constructor <;> simp_all [Reactor.drained, tasksOf]

theorem delivered_drained (n : Nat) (hd : Delivered c r) : Delivered c (drained r c n) := by
  apply hd.congr
  . simp [drained]
  . simp [drained]
  . rfl
  . simp [drained, readsOf]

theorem events_and_not_out
    : (EPOLLIN ||| EPOLLPRI ||| EPOLLOUT) &&& ~~~EPOLLOUT = EPOLLIN ||| EPOLLPRI ||| 0 := by
  decide

theorem Open.effect_drained (h : Open c fd r) {n : Nat}
    (hdata : (r.conn c).outputBuffer_.take n ≠ [])
    : Effect nonempty c fd r
        (if ((Reactor.drained r c n).conn c).outputBuffer_ = [] then
          Channel.disableWriting (Reactor.drained r c n) c
        else
          Reactor.drained r c n) := by
  have hopen := h.drained n
  have hframe : Frame c fd r (Reactor.drained r c n) := Frame.drained n
  have hstream : Flow c r →
      r.written c ++ (r.conn c).outputBuffer_.take n ++ (r.conn c).outputBuffer_.drop n
        = (r.sent c).flatten := by
    intro hf
    rw [List.append_assoc, List.take_append_drop, hf.stream]
  have harmed : Flow c r →
      (r.conn c).channel_.events_ = EPOLLIN ||| EPOLLPRI ||| EPOLLOUT := by
    intro hf
    rw [hf.armed]
    have hsome : (r.conn c).outputBuffer_ ≠ [] := by
      intro hempty
      simp [hempty] at hdata
    simp [hsome]
  split
  . next hempty =>
    obtain ⟨hopen', hset⟩ := hopen.setEvents fun events_ => events_ &&& ~~~EPOLLOUT
    refine ⟨hframe.trans hset, ?_, .inl ⟨hopen', ?_, ?_⟩⟩
    . intro hd
      exact delivered_setEvents hopen _ (delivered_drained n hd)
    . rw [Channel.disableWriting, setEvents_of_open hopen]
      rfl
    . intro _ hf
      rw [Channel.disableWriting, setEvents_of_open hopen]
      simp only [Reactor.drained, modify_conn_self, call_conn] at hempty
      refine ⟨by simpa [Reactor.drained] using hstream hf, ?_⟩
      simp only [call_conn, Function.update_self, Reactor.drained, modify_conn_self, hempty, ↓reduceIte]
      rw [harmed hf, events_and_not_out]
  . next hsome =>
    refine ⟨hframe, delivered_drained n, .inl ⟨hopen, rfl, ?_⟩⟩
    intro _ hf
    simp only [Reactor.drained, modify_conn_self, call_conn] at hsome
    refine ⟨by simpa [Reactor.drained] using hstream hf, ?_⟩
    simp only [Reactor.drained, modify_conn_self, call_conn, hsome, ↓reduceIte]
    exact harmed hf

theorem Open.effect_handleWrite (h : Open c fd r) (result : WriteResult)
    : Effect nonempty c fd r (TcpConnection.handleWrite r c result) := by
  have hsockfd : ¬fd < 0 := not_lt.mpr h.nonneg
  simp only [TcpConnection.handleWrite, h.sockfd, h.removed, hsockfd, Bool.false_eq_true, or_self,
    ↓reduceIte]
  have hcall : ∀ data, Effect nonempty c fd r (r.call c (.write fd data)) := by
    intro data
    apply h.effect_call
    . simp [KeepsOpen]
    . simp
  split
  . cases result with
    | accepted n =>
      dsimp only
      split
      . next hdata =>
        have heffect : Effect nonempty c fd r _ := h.effect_drained hdata
        simp only [Reactor.drained, h.sockfd] at heffect
        exact heffect
      . next hdata =>
        exact (hcall _).handleClose
    | again => exact hcall []
    | error => exact (hcall []).handleClose
  . exact Effect.refl h

theorem Open.effect_setRevents (h : Open c fd r) (revents : Events)
    : Effect nonempty c fd r (r.modifyChannel c ({ · with revents_ := revents })) := by
  refine ⟨Frame.modify _ rfl rfl, ?_, .inl ⟨?_, rfl, ?_⟩⟩
  . intro hd
    apply hd.congr
    . simp [modifyChannel]
    . simp [modifyChannel]
    . rfl
    . rfl
  . constructor
    . exact h.nonneg
    . simp [modifyChannel, h.sockfd]
    . simp [modifyChannel, h.channelFd]
    . simp [modifyChannel, h.index]
    . simp [modifyChannel, h.removed]
    . simp [modifyChannel, h.interest]
    . exact h.calls
  . intro _ hf
    exact ⟨by simpa [modifyChannel] using hf.stream, by simpa [modifyChannel] using hf.armed⟩

theorem Effect.ite {p : Prop} [Decidable p] {f : Reactor → Reactor}
    (h : Effect nonempty c fd r r')
    (hopen : Open c fd r' → Effect nonempty c fd r' (f r'))
    (hclosed : Closed c r' → f r' = r') : Effect nonempty c fd r (if p then f r' else r') := by
  split
  . exact h.andThen hopen hclosed
  . exact h

theorem Open.effect_handleEvent (h : Open c fd r) (revents : Events) (read : ReadResult)
    (write : WriteResult) (replies : List Bytes)
    (hne : nonempty → ∀ reply ∈ replies, reply ≠ [])
    : Effect nonempty c fd r (Channel.handleEvent r c revents read write replies) := by
  have hrevents : Effect nonempty c fd r _ := h.effect_setRevents revents
  have hremoved : ¬((r.modifyChannel c ({ · with revents_ := revents })).conn c).channel_.removed_
      = true := by
    simp [modifyChannel, h.removed]
  simp only [Channel.handleEvent]
  rw [if_neg hremoved]
  have hclose : ∀ r, Open c fd r → Effect nonempty c fd r (TcpConnection.handleClose r c) :=
    fun _ hopen => hopen.effect_handleClose
  have hhup := hrevents.ite (p := revents &&& EPOLLHUP ≠ 0 ∧ revents &&& EPOLLIN = 0)
    (f := (TcpConnection.handleClose · c)) (hclose _) handleClose_of_closed
  have herr := hhup.ite (p := revents &&& (EPOLLERR ||| EPOLLRDHUP) ≠ 0)
    (f := (TcpConnection.handleClose · c)) (hclose _) handleClose_of_closed
  have hread := herr.ite (p := revents &&& (EPOLLIN ||| EPOLLPRI ||| EPOLLRDHUP) ≠ 0)
    (f := (TcpConnection.handleRead · c read replies))
    (fun hopen => hopen.effect_handleRead read replies hne)
    (fun hclosed => handleRead_of_closed hclosed read replies)
  exact hread.ite (p := revents &&& EPOLLOUT ≠ 0) (f := (TcpConnection.handleWrite · c write))
    (fun hopen => hopen.effect_handleWrite write)
    (fun hclosed => handleWrite_of_closed hclosed write)

end Reactor
end LFGateway
