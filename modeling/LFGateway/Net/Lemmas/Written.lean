import LFGateway.Net.Lemmas.Output

/-!
This module contains what the other end of a connection has received, also after the connection was
closed: a front part of the messages in their order. On a connection of the API server the messages
are those of the functors.
-/

namespace LFGateway

open Foundation

namespace Reactor

variable {r r' : Reactor} {c : Nat} {fd : Int}

def output (r : Reactor) : (Nat → List Bytes) × (Nat → Bytes) := (r.sent, r.written)

section Output

variable (r : Reactor) (c : Nat)

@[simp]
theorem modify_output (f : TcpConnection → TcpConnection) : (r.modify c f).output = r.output := rfl

@[simp]
theorem call_output (x : Call) : (r.call c x).output = r.output := rfl

@[simp]
theorem modifyChannel_output (f : Channel → Channel) : (r.modifyChannel c f).output = r.output := rfl

@[simp]
theorem epollCtl_output (op : EpollOp) (events : Events)
    : (r.epollCtl c op events).output = r.output := rfl

@[simp]
theorem updateChannel_output : (r.updateChannel c).output = r.output := by
  unfold updateChannel
  dsimp only
  split <;> simp

@[simp]
theorem removeChannel_output : (r.removeChannel c).output = r.output := by
  unfold removeChannel
  split <;> simp

@[simp]
theorem setEvents_output (f : Events → Events) : (Channel.setEvents r c f).output = r.output := by
  unfold Channel.setEvents Channel.update
  split
  . rfl
  . split <;> simp

@[simp]
theorem connectDestroyed_output : (TcpConnection.connectDestroyed r c).output = r.output := by
  unfold TcpConnection.connectDestroyed Channel.markAsRemoved Channel.disableAll
  split <;> simp

@[simp]
theorem handleClose_output : (TcpConnection.handleClose r c).output = r.output := by
  unfold TcpConnection.handleClose TcpServer.removeConnection Channel.remove
  split
  . rfl
  . change (Reactor.output (TcpConnection.connectDestroyed _ c)) = _
    rw [connectDestroyed_output]
    change (Reactor.output (removeChannel _ c)) = _
    simp

theorem sendInLoop_output (message : Bytes)
    : (TcpConnection.sendInLoop r c message).output
        =
      (Function.update r.sent c (r.sent c ++ [message]), r.written) := by
  unfold TcpConnection.sendInLoop Channel.enableWriting
  dsimp only
  split
  . rfl
  . split
    . rfl
    . rw [setEvents_output, modify_output]
      rfl

theorem replies_output (replies : List Bytes)
    : (replies.foldl (TcpConnection.sendInLoop · c ·) r).output
        =
      (Function.update r.sent c (r.sent c ++ replies), r.written) := by
  induction replies generalizing r with
  | nil => simp [output]
  | cons reply replies ih =>
    have hfirst := sendInLoop_output r c reply
    simp only [output, Prod.mk.injEq] at hfirst
    rw [List.foldl_cons, ih, hfirst.1, hfirst.2]
    simp

theorem messageCallback_output (replies : List Bytes)
    : (TcpConnection.messageCallback r c replies).output
        =
      match (r.conn c).server with
      | .api => r.output
      | .mgmt => (Function.update r.sent c (r.sent c ++ replies), r.written) := by
  unfold TcpConnection.messageCallback
  cases (r.conn c).server with
  | api => rfl
  | mgmt => exact replies_output r c replies

theorem handleRead_output (result : ReadResult) (replies : List Bytes)
    : (TcpConnection.handleRead r c result replies).output = r.output ∨
        (r.conn c).server = .mgmt ∧
          (TcpConnection.handleRead r c result replies).output
            = (Function.update r.sent c (r.sent c ++ replies), r.written) := by
  unfold TcpConnection.handleRead
  split
  . exact .inl rfl
  . dsimp only
    split
    . split
      . rw [modify_output, messageCallback_output, modify_conn_self, modify_output, call_output]
        cases hserver : (r.conn c).server with
        | api => exact .inl (by simp [hserver])
        | mgmt => exact .inr ⟨rfl, by simp [hserver]⟩
      . exact .inl (by simp)
    . exact .inl (by simp)
    . exact .inl (by simp)

theorem handleWrite_output (result : WriteResult)
    : (TcpConnection.handleWrite r c result).output = r.output ∨
        ∃ n, (TcpConnection.handleWrite r c result).output
          = (r.sent, Function.update r.written c (r.written c ++ (r.conn c).outputBuffer_.take n)) := by
  unfold TcpConnection.handleWrite
  split
  . exact .inl rfl
  . split
    . dsimp only
      split
      . next n =>
        split
        . refine .inr ⟨n, ?_⟩
          split
          . rw [Channel.disableWriting, setEvents_output]
            rfl
          . rfl
        . exact .inl (by simp)
      . exact .inl (by simp)
      . exact .inl (by simp)
    . exact .inl rfl

theorem newConnection_output (s : ServerId) (fd : Int)
    : (TcpServer.newConnection r s fd).output = r.output := by
  rw [newConnection_eq]
  rfl

end Output

def Received (c : Nat) (r : Reactor) : Prop := r.written c <+: (r.sent c).flatten

theorem Flow.received (h : Flow c r) : Received c r := ⟨_, h.stream⟩

theorem Received.leads (h : Received c r) (hwritten : r'.written c = r.written c)
    (hsent : r.sent c <+: r'.sent c) : Received c r' := by
  unfold Received
  obtain ⟨more, hmore⟩ := hsent
  rw [hwritten, ← hmore, List.flatten_append]
  exact h.trans (List.prefix_append _ _)

theorem Received.same (h : Received c r) (hsame : Same c r r') : Received c r' := by
  apply h.leads hsame.written
  rw [hsame.sent]

theorem Received.of_output (h : Received c r) (houtput : r'.output = r.output) : Received c r' := by
  rw [output, output, Prod.mk.injEq] at houtput
  apply h.leads
  . rw [houtput.2]
  . rw [houtput.1]

theorem Flow.received_handleWrite (h : Flow c r) (result : WriteResult)
    : Received c (TcpConnection.handleWrite r c result) := by
  cases handleWrite_output r c result with
  | inl hsame => exact h.received.of_output hsame
  | inr htook =>
    obtain ⟨n, htook⟩ := htook
    simp only [output, Prod.mk.injEq] at htook
    unfold Received
    rw [htook.1, htook.2, Function.update_self, ← h.stream]
    exact (List.prefix_append_right_inj _).mpr (List.take_prefix _ _)

theorem Received.sendInLoop (h : Received c r) (c' : Nat) (message : Bytes)
    : Received c (TcpConnection.sendInLoop r c' message) := by
  have houtput := sendInLoop_output r c' message
  simp only [output, Prod.mk.injEq] at houtput
  apply h.leads
  . rw [houtput.2]
  . rw [houtput.1]
    by_cases heq : c = c'
    . subst heq
      rw [Function.update_self]
      exact List.prefix_append _ _
    . rw [Function.update_of_ne heq]

theorem Open.handleEvent_eq (h : Open c fd r) (revents : Events) (read : ReadResult)
    (write : WriteResult) (replies : List Bytes)
    : ∃ t, Effect (∀ reply ∈ replies, reply ≠ []) c fd r t ∧
        (t.output = r.output ∨
          (r.conn c).server = .mgmt ∧
            t.output = (Function.update r.sent c (r.sent c ++ replies), r.written)) ∧
        Channel.handleEvent r c revents read write replies
          = if revents &&& EPOLLOUT ≠ 0 then TcpConnection.handleWrite t c write else t := by
  have hrevents : Effect (∀ reply ∈ replies, reply ≠ []) c fd r _ := h.effect_setRevents revents
  have hremoved : ¬((r.modifyChannel c ({ · with revents_ := revents })).conn c).channel_.removed_
      = true := by
    simp [modifyChannel, h.removed]
  simp only [Channel.handleEvent]
  rw [if_neg hremoved]
  have hclose : ∀ r, Open c fd r →
      Effect (∀ reply ∈ replies, reply ≠ []) c fd r (TcpConnection.handleClose r c) :=
    fun _ hopen => hopen.effect_handleClose
  have hhup := hrevents.ite (p := revents &&& EPOLLHUP ≠ 0 ∧ revents &&& EPOLLIN = 0)
    (f := (TcpConnection.handleClose · c)) (hclose _) handleClose_of_closed
  have herr := hhup.ite (p := revents &&& (EPOLLERR ||| EPOLLRDHUP) ≠ 0)
    (f := (TcpConnection.handleClose · c)) (hclose _) handleClose_of_closed
  have hread := herr.ite (p := revents &&& (EPOLLIN ||| EPOLLPRI ||| EPOLLRDHUP) ≠ 0)
    (f := (TcpConnection.handleRead · c read replies))
    (fun hopen => hopen.effect_handleRead read replies id)
    (fun hclosed => handleRead_of_closed hclosed read replies)
  have howner := herr.frame.owner
  refine ⟨_, hread, ?_, rfl⟩
  generalize hleft : (if revents &&& (EPOLLERR ||| EPOLLRDHUP) ≠ 0 then _ else _) = left at howner ⊢
  have houtput : left.output = r.output := by
    rw [← hleft]
    split <;> split <;> simp
  split
  . cases handleRead_output left c read replies with
    | inl hsame => exact .inl (hsame.trans houtput)
    | inr hreplies =>
      simp only [output, Prod.mk.injEq] at houtput
      rw [howner, houtput.1, houtput.2] at hreplies
      exact .inr hreplies
  . exact .inl houtput

theorem Open.received_handleEvent (h : Open c fd r) (hflow : Flow c r) (revents : Events)
    (read : ReadResult) (write : WriteResult) {replies : List Bytes}
    (hne : ∀ reply ∈ replies, reply ≠ [])
    : Received c (Channel.handleEvent r c revents read write replies) := by
  obtain ⟨t, heffect, houtput, heq⟩ := h.handleEvent_eq revents read write replies
  have hbefore : Received c t := by
    cases houtput with
    | inl hsame => exact hflow.received.of_output hsame
    | inr hreplies =>
      have houtput := hreplies.2
      simp only [output, Prod.mk.injEq] at houtput
      apply hflow.received.leads
      . rw [houtput.2]
      . rw [houtput.1, Function.update_self]
        exact List.prefix_append _ _
  rw [heq]
  split
  . cases heffect.outcome with
    | inl hstays => exact (hstays.2.2 hne hflow).received_handleWrite write
    | inr hcloses =>
      rw [handleWrite_of_closed hcloses.1]
      exact hbefore
  . exact hbefore

theorem Open.sent_handleEvent (h : Open c fd r) (hapi : (r.conn c).server = .api) (revents : Events)
    (read : ReadResult) (write : WriteResult) (replies : List Bytes)
    : (Channel.handleEvent r c revents read write replies).sent = r.sent := by
  obtain ⟨t, _, houtput, heq⟩ := h.handleEvent_eq revents read write replies
  have hsent : t.sent = r.sent := by
    cases houtput with
    | inl hsame => exact congrArg Prod.fst hsame
    | inr hreplies =>
      rw [hapi] at hreplies
      exact absurd hreplies.1 (by decide)
  rw [heq, ← hsent]
  split
  . rcases handleWrite_output t c write with hsame | ⟨n, htook⟩
    . exact congrArg Prod.fst hsame
    . exact congrArg Prod.fst htook
  . rfl

theorem handleEvent_output_of_closed (h : Closed c r) (revents : Events) (read : ReadResult)
    (write : WriteResult) (replies : List Bytes)
    : (Channel.handleEvent r c revents read write replies).output = r.output := by
  have hremoved : ((r.modifyChannel c ({ · with revents_ := revents })).conn c).channel_.removed_
      = true := by
    simp [modifyChannel, h.removed]
  simp only [Channel.handleEvent]
  rw [if_pos hremoved, modifyChannel_output]

theorem Inv.same_handleEvent (hinv : Inv r) {c' : Nat} (hc' : c' < r.created) (hne : c ≠ c')
    (revents : Events) (read : ReadResult) (write : WriteResult) (replies : List Bytes)
    : Same c r (Channel.handleEvent r c' revents read write replies) := by
  cases hinv.conns c' hc' with
  | inl hopen =>
    obtain ⟨fd, hopen⟩ := hopen
    have heffect : Effect False c' fd r _ :=
      hopen.effect_handleEvent revents read write replies False.elim
    exact heffect.frame.same hne
  | inr hclosed => exact (late_handleEvent hclosed revents read write replies).same hne

def Label.messages (c : Nat) : Label → List Bytes
  | .functor c' message => if c' = c then [message] else []
  | .event .. | .accept .. => []

theorem Inv.sent_step (hinv : Inv r) {l : Label} (h : Reactor.step r l = some r')
    (hapi : c < r.created → (r.conn c).server = .api) : r'.sent c = r.sent c ++ l.messages c := by
  cases l with
  | event c' revents read write replies =>
    simp only [Reactor.step] at h
    split at h
    . next hc' =>
      rw [Option.some.injEq] at h
      subst h
      rw [Label.messages, List.append_nil]
      by_cases heq : c = c'
      . subst heq
        cases hinv.conns c hc' with
        | inl hopen =>
          obtain ⟨fd, hopen⟩ := hopen
          rw [hopen.sent_handleEvent (hapi hc')]
        | inr hclosed =>
          exact congrFun (congrArg Prod.fst (handleEvent_output_of_closed hclosed _ _ _ _)) c
      . exact (hinv.same_handleEvent hc' heq revents read write replies).sent
    . contradiction
  | accept s connfd =>
    rw [Label.messages, List.append_nil]
    simp only [Reactor.step] at h
    split at h
    . rw [Option.some.injEq] at h
      rw [h]
    . split at h
      . rw [Option.some.injEq] at h
        rw [← h]
        exact congrFun (congrArg Prod.fst (newConnection_output r s connfd)) c
      . contradiction
  | functor c' message =>
    simp only [Reactor.step] at h
    split at h
    . rw [Option.some.injEq] at h
      rw [← h]
      have houtput := congrFun (congrArg Prod.fst (sendInLoop_output r c' message)) c
      simp only [output] at houtput
      rw [houtput, Label.messages]
      by_cases heq : c' = c
      . subst heq
        rw [if_pos rfl, Function.update_self]
      . rw [if_neg heq, Function.update_of_ne (Ne.symm heq), List.append_nil]
    . contradiction

theorem Inv.owner_step (hinv : Inv r) {l : Label} (h : Reactor.step r l = some r')
    : r.created ≤ r'.created ∧ ∀ c < r.created, (r'.conn c).server = (r.conn c).server := by
  cases hinv.outcome h with
  | callback c' fd hc' hopen heffect =>
    refine ⟨Nat.le_of_eq heffect.frame.created.symm, ?_⟩
    intro c hc
    by_cases heq : c = c'
    . subst heq
      exact heffect.frame.owner
    . rw [heffect.frame.conn c heq]
  | late c' hc' hclosed hlate =>
    refine ⟨Nat.le_of_eq hlate.created.symm, ?_⟩
    intro c hc
    by_cases heq : c = c'
    . subst heq
      obtain ⟨revents, hself⟩ := hlate.self
      rw [hself]
    . rw [hlate.conn c heq]
  | accepted s fd hfd hunused heq =>
    subst heq
    refine ⟨Nat.le_of_lt (newConnection_created.symm ▸ Nat.lt_succ_self _), ?_⟩
    intro c hc
    rw [(newConnection_same (Nat.ne_of_lt hc)).conn]
  | refused heq =>
    subst heq
    exact ⟨Nat.le_refl _, fun _ _ => rfl⟩

theorem received_init : Received c init := List.nil_prefix

/--
On every connection, open or closed, the kernel gets nothing but the messages in their order.
-/
theorem Inv.received_step (hinv : Inv r) (hflows : Flows r) {l : Label} (hne : l.Nonempty)
    (hreceived : ∀ c, Received c r) (h : Reactor.step r l = some r') (c : Nat) : Received c r' := by
  cases l with
  | event c' revents read write replies =>
    simp only [Reactor.step] at h
    split at h
    . next hc' =>
      rw [Option.some.injEq] at h
      subst h
      by_cases heq : c = c'
      . subst heq
        cases hinv.conns c hc' with
        | inl hopen =>
          obtain ⟨fd, hopen⟩ := hopen
          exact hopen.received_handleEvent (hflows c hc' fd hopen) revents read write hne
        | inr hclosed =>
          exact (hreceived c).of_output (handleEvent_output_of_closed hclosed _ _ _ _)
      . exact (hreceived c).same (hinv.same_handleEvent hc' heq revents read write replies)
    . contradiction
  | accept s connfd =>
    simp only [Reactor.step] at h
    split at h
    . rw [Option.some.injEq] at h
      subst h
      exact hreceived c
    . split at h
      . rw [Option.some.injEq] at h
        subst h
        exact (hreceived c).of_output (newConnection_output r s connfd)
      . contradiction
  | functor c' message =>
    simp only [Reactor.step] at h
    split at h
    . rw [Option.some.injEq] at h
      subst h
      exact (hreceived c).sendInLoop c' message
    . contradiction

end Reactor
end LFGateway
