import LFGateway.Net.Lemmas.Lifecycle
import LFGateway.Net.Lemmas.Ownership

/-!
This module contains what the callbacks of an open connection ask of the kernel: its entry in the
interest list is changed any number of times, and if the connection closes, it is deleted and the
descriptor closed, in this order.
-/

namespace LFGateway

open Foundation

namespace Reactor

variable {r r' r'' : Reactor} {c : Nat} {fd : Int}

def ctls (calls : List Call) : List (Ctl Int) := calls.filterMap (Call.ctl true)

@[simp]
theorem ctls_nil : ctls [] = [] := rfl

@[simp]
theorem ctls_append (calls calls' : List Call) : ctls (calls ++ calls') = ctls calls ++ ctls calls' :=
  List.filterMap_append

theorem issued_of_append {new : List Call} (h : r'.calls c = r.calls c ++ new)
    : issued true c r r' = ctls new := by
  unfold issued
  rw [h, List.drop_left]
  rfl

theorem setEvents_eq_self (r : Reactor) (c : Nat) (f : Events → Events) (taken : Bool)
    : ((Channel.setEvents r c f).conn c).channel_ = ((r.conn c).channel_.setEventsSelf f taken).1 ∧
        issued taken c r (Channel.setEvents r c f)
          = ((r.conn c).channel_.setEventsSelf f taken).2 := by
  unfold Channel.setEvents Channel.setEventsSelf
  split
  . simp [issued]
  . next hremoved =>
    unfold Channel.update Channel.updateSelf updateChannel epollCtl
    simp only [modifyChannel, modify_conn_self, hremoved, Bool.false_eq_true, ↓reduceIte]
    rw [Bool.not_eq_true] at hremoved
    split
    . simp [issued, Call.ctl, hremoved]
    . simp [issued, Call.ctl, hremoved]

def Mods (fd : Int) (calls : List (Ctl Int)) : Prop := ∀ call ∈ calls, call = .mod fd

theorem Mods.append {calls calls' : List (Ctl Int)} (h : Mods fd calls) (h' : Mods fd calls')
    : Mods fd (calls ++ calls') :=
  List.forall_mem_append.mpr ⟨h, h'⟩

/--
The calls made through `c` on the way from `r`, where `c` is open, to `r'`.
-/
structure Issues (c : Nat) (fd : Int) (r r' : Reactor) (new : List Call) : Prop where
  calls : r'.calls c = r.calls c ++ new
  outcome :
    (Open c fd r' ∧ Mods fd (ctls new)) ∨
      (Closed c r' ∧ ∃ mods, ctls new = mods ++ [.del fd, .closed fd] ∧ Mods fd mods)

theorem Issues.refl (h : Open c fd r) : Issues c fd r r [] :=
  ⟨(List.append_nil _).symm, .inl ⟨h, by simp [Mods]⟩⟩

theorem Issues.andThen {new : List Call} {f : Reactor → Reactor} (h : Issues c fd r r' new)
    (hopen : Open c fd r' → ∃ new, Issues c fd r' (f r') new) (hclosed : Closed c r' → f r' = r')
    : ∃ new, Issues c fd r (f r') new := by
  cases h.outcome with
  | inl hstays =>
    obtain ⟨hopen', hmods⟩ := hstays
    obtain ⟨new', hissues⟩ := hopen hopen'
    refine ⟨new ++ new', by rw [hissues.calls, h.calls, List.append_assoc], ?_⟩
    cases hissues.outcome with
    | inl hstays' =>
      rw [ctls_append]
      exact .inl ⟨hstays'.1, hmods.append hstays'.2⟩
    | inr hcloses' =>
      obtain ⟨hclosed', mods, heq, hmods'⟩ := hcloses'
      rw [ctls_append, heq, ← List.append_assoc]
      exact .inr ⟨hclosed', _, rfl, hmods.append hmods'⟩
  | inr hcloses =>
    rw [hclosed hcloses.1]
    exact ⟨new, h⟩

theorem Issues.ite {new : List Call} {p : Prop} [Decidable p] {f : Reactor → Reactor}
    (h : Issues c fd r r' new) (hopen : Open c fd r' → ∃ new, Issues c fd r' (f r') new)
    (hclosed : Closed c r' → f r' = r') : ∃ new, Issues c fd r (if p then f r' else r') new := by
  split
  . exact h.andThen hopen hclosed
  . exact ⟨new, h⟩

theorem Closed.modify (h : Closed c r) (f : TcpConnection → TcpConnection)
    (hsockfd : (f (r.conn c)).sockfd_ = (r.conn c).sockfd_)
    (hchannel : (f (r.conn c)).channel_ = (r.conn c).channel_) : Closed c (r.modify c f) where
  sockfd := by simp [hsockfd, h.sockfd]
  index := by simp [hchannel, h.index]
  removed := by simp [hchannel, h.removed]
  calls := by
    rw [modify_calls]
    exact h.calls

theorem Issues.modify {new : List Call} (h : Issues c fd r r' new)
    (f : TcpConnection → TcpConnection) (hsockfd : (f (r'.conn c)).sockfd_ = (r'.conn c).sockfd_)
    (hchannel : (f (r'.conn c)).channel_ = (r'.conn c).channel_)
    : Issues c fd r (r'.modify c f) new := by
  refine ⟨by rw [modify_calls, h.calls], ?_⟩
  cases h.outcome with
  | inl hstays => exact .inl ⟨hstays.1.modify f hsockfd hchannel, hstays.2⟩
  | inr hcloses => exact .inr ⟨hcloses.1.modify f hsockfd hchannel, hcloses.2⟩

theorem Open.issues_of_quiet (h : Open c fd r') {new : List Call}
    (hcalls : r'.calls c = r.calls c ++ new) (hquiet : ctls new = []) : Issues c fd r r' new :=
  ⟨hcalls, .inl ⟨h, by simp [Mods, hquiet]⟩⟩

theorem Open.issues_setEvents (h : Open c fd r) (f : Events → Events)
    : Issues c fd r (Channel.setEvents r c f)
        [.epollCtl .mod fd (f (r.conn c).channel_.events_)] := by
  refine ⟨?_, .inl ⟨(h.setEvents f).1, ?_⟩⟩
  . rw [setEvents_of_open h, call_calls_self]
  . simp [Mods, ctls, Call.ctl]

theorem Open.issues_handleClose (h : Open c fd r)
    : ∃ new, Issues c fd r (TcpConnection.handleClose r c) new := by
  refine ⟨[.epollCtl .del fd 0, .removeConnection, .close fd], ?_, .inr ⟨h.handleClose.1, [], rfl, ?_⟩⟩
  . rw [handleClose_of_open h]
    simp
  . simp [Mods]

theorem Open.issues_sendInLoop (h : Open c fd r) (message : Bytes)
    : ∃ new, Issues c fd r (TcpConnection.sendInLoop r c message) new := by
  have hbuffered := h.buffered message
  have hcalls : (Reactor.buffered r c message).calls c = r.calls c := rfl
  rw [sendInLoop_of_open h]
  split
  . exact ⟨[], hbuffered.issues_of_quiet (by rw [hcalls, List.append_nil]) rfl⟩
  . have hset := hbuffered.issues_setEvents fun events_ => events_ ||| EPOLLOUT
    exact ⟨_, hset.calls, hset.outcome⟩

theorem Open.issues_replies (h : Open c fd r) (replies : List Bytes)
    : ∃ new, Issues c fd r (replies.foldl (TcpConnection.sendInLoop · c ·) r) new := by
  induction replies generalizing r with
  | nil => exact ⟨[], Issues.refl h⟩
  | cons reply replies ih =>
    obtain ⟨new, hissues⟩ := h.issues_sendInLoop reply
    exact hissues.andThen (f := fun r => replies.foldl (TcpConnection.sendInLoop · c ·) r) ih
      (fun hclosed => absurd hclosed (h.sendInLoop reply).1.not_closed)

theorem Open.issues_messageCallback (h : Open c fd r) (replies : List Bytes)
    : ∃ new, Issues c fd r (TcpConnection.messageCallback r c replies) new := by
  have hopen := (h.messageCallback replies False.elim).1
  revert hopen
  unfold TcpConnection.messageCallback
  split
  . intro hopen
    exact ⟨[], hopen.issues_of_quiet (List.append_nil _).symm rfl⟩
  . exact fun _ => h.issues_replies replies

theorem Open.issues_call (h : Open c fd r) {x : Call} (hx : KeepsOpen x) (hquiet : x.ctl true = none)
    : Issues c fd r (r.call c x) [x] :=
  (h.call hx).issues_of_quiet (call_calls_self x) (by simp [ctls, hquiet])

theorem Open.issues_read (h : Open c fd r) (data : Bytes)
    : Issues c fd r (r.call c (.read fd data)) [.read fd data] :=
  h.issues_call (by simp [KeepsOpen]) rfl

theorem Open.issues_write (h : Open c fd r) (data : Bytes)
    : Issues c fd r (r.call c (.write fd data)) [.write fd data] :=
  h.issues_call (by simp [KeepsOpen]) rfl

theorem Issues.handleClose {new : List Call} (h : Issues c fd r r' new)
    : ∃ new, Issues c fd r (TcpConnection.handleClose r' c) new :=
  h.andThen (f := (TcpConnection.handleClose · c)) Open.issues_handleClose handleClose_of_closed

theorem Open.issues_handleRead (h : Open c fd r) (result : ReadResult) (replies : List Bytes)
    : ∃ new, Issues c fd r (TcpConnection.handleRead r c result replies) new := by
  have hsockfd : ¬fd < 0 := not_lt.mpr h.nonneg
  simp only [TcpConnection.handleRead, h.sockfd, h.removed, hsockfd, Bool.false_eq_true, or_self,
    ↓reduceIte]
  cases result with
  | data bytes =>
    dsimp only
    have hread := h.issues_read (bytes.take 65536)
    split
    . -- the buffer is filled, the callback runs, and the buffer is emptied
      have hopen := (h.call (x := .read fd (bytes.take 65536)) (by simp [KeepsOpen])).modify
        (fun conn => { conn with inputBuffer_ := conn.inputBuffer_ ++ bytes.take 65536 }) rfl rfl
      have hfilled := hread.modify
        (fun conn => { conn with inputBuffer_ := conn.inputBuffer_ ++ bytes.take 65536 }) rfl rfl
      obtain ⟨new, hcallback⟩ := hfilled.andThen (f := (TcpConnection.messageCallback · c replies))
        (fun hopen => hopen.issues_messageCallback replies)
        (fun hclosed => absurd hclosed hopen.not_closed)
      exact ⟨new, hcallback.modify ({ · with inputBuffer_ := [] }) rfl rfl⟩
    . exact hread.handleClose
  | again => exact ⟨_, h.issues_read []⟩
  | error => exact (h.issues_read []).handleClose

theorem Open.issues_drained (h : Open c fd r) (n : Nat)
    : Issues c fd r (Reactor.drained r c n) [.write fd ((r.conn c).outputBuffer_.take n)] := by
  apply (h.drained n).issues_of_quiet
  . simp [Reactor.drained, h.sockfd]
  . rfl

theorem Open.issues_handleWrite (h : Open c fd r) (result : WriteResult)
    : ∃ new, Issues c fd r (TcpConnection.handleWrite r c result) new := by
  have hsockfd : ¬fd < 0 := not_lt.mpr h.nonneg
  simp only [TcpConnection.handleWrite, h.sockfd, h.removed, hsockfd, Bool.false_eq_true, or_self,
    ↓reduceIte]
  split
  . cases result with
    | accepted n =>
      dsimp only
      split
      . have hdrained : ∃ new, Issues c fd r
            (if ((Reactor.drained r c n).conn c).outputBuffer_ = [] then
              Channel.disableWriting (Reactor.drained r c n) c
            else
              Reactor.drained r c n) new :=
          (h.issues_drained n).ite (f := (Channel.disableWriting · c))
            (fun hopen => ⟨_, hopen.issues_setEvents _⟩)
            (fun hclosed => absurd hclosed (h.drained n).not_closed)
        simp only [Reactor.drained, h.sockfd] at hdrained
        exact hdrained
      . exact (h.issues_write _).handleClose
    | again => exact ⟨_, h.issues_write []⟩
    | error => exact (h.issues_write []).handleClose
  . exact ⟨[], Issues.refl h⟩

theorem Open.issues_handleEvent (h : Open c fd r) (revents : Events) (read : ReadResult)
    (write : WriteResult) (replies : List Bytes)
    : ∃ new, Issues c fd r (Channel.handleEvent r c revents read write replies) new := by
  have hremoved : ¬((r.modifyChannel c ({ · with revents_ := revents })).conn c).channel_.removed_
      = true := by
    simp [modifyChannel, h.removed]
  have hrevents : Open c fd (r.modifyChannel c ({ · with revents_ := revents })) := by
    have heffect : Effect False c fd r _ := h.effect_setRevents revents
    cases heffect.outcome with
    | inl hstays => exact hstays.1
    | inr hcloses => exact absurd hcloses.1.removed hremoved
  simp only [Channel.handleEvent]
  rw [if_neg hremoved]
  have hstart : Issues c fd r _ [] := hrevents.issues_of_quiet (List.append_nil _).symm rfl
  obtain ⟨_, hhup⟩ := hstart.ite (p := revents &&& EPOLLHUP ≠ 0 ∧ revents &&& EPOLLIN = 0)
    (f := (TcpConnection.handleClose · c)) Open.issues_handleClose handleClose_of_closed
  obtain ⟨_, herr⟩ := hhup.ite (p := revents &&& (EPOLLERR ||| EPOLLRDHUP) ≠ 0)
    (f := (TcpConnection.handleClose · c)) Open.issues_handleClose handleClose_of_closed
  obtain ⟨_, hread⟩ := herr.ite (p := revents &&& (EPOLLIN ||| EPOLLPRI ||| EPOLLRDHUP) ≠ 0)
    (f := (TcpConnection.handleRead · c read replies))
    (fun hopen => hopen.issues_handleRead read replies)
    (fun hclosed => handleRead_of_closed hclosed read replies)
  exact hread.ite (p := revents &&& EPOLLOUT ≠ 0) (f := (TcpConnection.handleWrite · c write))
    (fun hopen => hopen.issues_handleWrite write)
    (fun hclosed => handleWrite_of_closed hclosed write)

theorem Inv.callback_cases (hinv : Inv r) {l : Label} (hl : Reactor.step r l = some r')
    (hsubject : l.subject = some c)
    : (∃ fd new, Open c fd r ∧ Effect False c fd r r' ∧ Issues c fd r r' new) ∨
        (Closed c r ∧ Late c r r') := by
  cases l with
  | event c' revents read write replies =>
    simp only [Label.subject, Option.some.injEq] at hsubject
    subst hsubject
    simp only [Reactor.step] at hl
    split at hl
    . next hc =>
      rw [← Option.some.inj hl]
      cases hinv.conns c' hc with
      | inl hopen =>
        obtain ⟨fd, hopen⟩ := hopen
        obtain ⟨new, hissues⟩ := hopen.issues_handleEvent revents read write replies
        exact .inl ⟨fd, new, hopen, hopen.effect_handleEvent revents read write replies False.elim,
          hissues⟩
      | inr hclosed => exact .inr ⟨hclosed, late_handleEvent hclosed revents read write replies⟩
    . contradiction
  | accept s fd => simp [Label.subject] at hsubject
  | functor c' message =>
    simp only [Label.subject, Option.some.injEq] at hsubject
    subst hsubject
    simp only [Reactor.step] at hl
    split at hl
    . next hc =>
      rw [← Option.some.inj hl]
      cases hinv.conns c' hc with
      | inl hopen =>
        obtain ⟨fd, hopen⟩ := hopen
        obtain ⟨new, hissues⟩ := hopen.issues_sendInLoop message
        exact .inl ⟨fd, new, hopen, hopen.effect_sendInLoop message False.elim, hissues⟩
      | inr hclosed => exact .inr ⟨hclosed, late_sendInLoop hclosed message⟩
    . contradiction

end Reactor
end LFGateway
