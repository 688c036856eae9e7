import LFGateway.Net.Lemmas.Calls
import LFGateway.Net.Lemmas.Registry

/-!
This module contains the references to a connection over its life. The entry of the server goes when
the connection closes and the closures go when they have run, but the callbacks of its own channel
capture it and nothing resets them: every connection keeps three references for ever.
-/

namespace LFGateway

open Foundation

namespace Reactor

variable {r r' : Reactor}

/--
The maps hold only connections that are not closed, under their names.
-/
def Entered (r : Reactor) : Prop :=
  ∀ s, ∀ entry ∈ (r.server s).connections_,
    entry.2 < r.created ∧ (r.conn entry.2).server = s ∧ (r.conn entry.2).name_ = entry.1 ∧
      0 ≤ (r.conn entry.2).sockfd_

theorem Entered.congr (h : Entered r) (hcreated : r.created ≤ r'.created)
    (hserver : ∀ s, ∀ entry ∈ (r'.server s).connections_, entry ∈ (r.server s).connections_)
    (hconn : ∀ s, ∀ entry ∈ (r'.server s).connections_,
      (r'.conn entry.2).server = (r.conn entry.2).server ∧
        (r'.conn entry.2).name_ = (r.conn entry.2).name_ ∧
        (r'.conn entry.2).sockfd_ = (r.conn entry.2).sockfd_)
    : Entered r' := by
  intro s entry hentry
  obtain ⟨hlt, howner, hname, hopen⟩ := h s entry (hserver s entry hentry)
  obtain ⟨howner', hname', hsockfd'⟩ := hconn s entry hentry
  rw [howner', hname', hsockfd']
  exact ⟨Nat.lt_of_lt_of_le hlt hcreated, howner, hname, hopen⟩

theorem mem_erased {c : Nat} {s : ServerId} {entry : Bytes × Nat} (h : Entered r)
    (hentry : entry ∈ (erased r c s).connections_)
    : entry ∈ (r.server s).connections_ ∧ entry.2 ≠ c := by
  by_cases hs : s = (r.conn c).server
  . subst hs
    simp only [erased, Function.update_self, List.mem_filter, decide_eq_true_eq] at hentry
    refine ⟨hentry.1, ?_⟩
    intro heq
    obtain ⟨_, _, hname, _⟩ := h _ entry hentry.1
    rw [heq] at hname
    exact hentry.2 hname.symm
  . simp only [erased, Function.update_of_ne hs] at hentry
    refine ⟨hentry, ?_⟩
    intro heq
    obtain ⟨_, howner, _, _⟩ := h _ entry hentry
    rw [heq] at howner
    exact hs howner.symm

theorem Entered.accepted (h : Entered r) (s : ServerId) {fd : Int} (hfd : 0 ≤ fd)
    : Entered (TcpServer.newConnection r s fd) := by
  have henters := newConnection_enters r s fd
  have hold : ∀ s', ∀ entry ∈ (r.server s').connections_,
      entry.2 < r.created + 1 ∧
        ((TcpServer.newConnection r s fd).conn entry.2).server = s' ∧
        ((TcpServer.newConnection r s fd).conn entry.2).name_ = entry.1 ∧
        0 ≤ ((TcpServer.newConnection r s fd).conn entry.2).sockfd_ := by
    intro s' entry hentry
    obtain ⟨hlt, hrest⟩ := h s' entry hentry
    rw [henters.conn entry.2 (Nat.ne_of_lt hlt)]
    exact ⟨Nat.lt_succ_of_lt hlt, hrest⟩
  intro s' entry hentry
  rw [henters.created]
  rw [henters.server] at hentry
  by_cases hs : s' = s
  . subst hs
    rw [Function.update_self] at hentry
    unfold Reactor.entered at hentry
    simp only [List.mem_append, List.mem_filter, List.mem_singleton] at hentry
    cases hentry with
    | inl hbefore => exact hold s' entry hbefore.1
    | inr hnew =>
      rw [hnew]
      refine ⟨Nat.lt_succ_self _, henters.owner, henters.name, ?_⟩
      rw [henters.sockfd]
      exact hfd
  . rw [Function.update_of_ne hs] at hentry
    exact hold s' entry hentry

theorem Entered.step (h : Entered r) (hinv : Inv r) {l : Label} (hl : step r l = some r')
    : Entered r' := by
  cases hinv.outcome hl with
  | callback c fd hc hopen heffect =>
    have hframe := heffect.frame
    cases heffect.outcome with
    | inl hstays =>
      obtain ⟨hopen', hserver, _⟩ := hstays
      apply h.congr hframe.created.ge
      . intro s entry hentry
        rw [hserver] at hentry
        exact hentry
      . intro s entry hentry
        by_cases heq : entry.2 = c
        . rw [heq, hframe.owner, hframe.name, hopen'.sockfd, hopen.sockfd]
          exact ⟨rfl, rfl, rfl⟩
        . rw [hframe.conn _ heq]
          exact ⟨rfl, rfl, rfl⟩
    | inr hcloses =>
      obtain ⟨_, hserver⟩ := hcloses
      apply h.congr hframe.created.ge
      . intro s entry hentry
        rw [hserver] at hentry
        exact (mem_erased h hentry).1
      . intro s entry hentry
        rw [hserver] at hentry
        rw [hframe.conn _ (mem_erased h hentry).2]
        exact ⟨rfl, rfl, rfl⟩
  | late c hc hclosed hlate =>
    obtain ⟨revents, hself⟩ := hlate.self
    apply h.congr hlate.created.ge
    . intro s entry hentry
      rw [hlate.server] at hentry
      exact hentry
    . intro s entry _
      by_cases heq : entry.2 = c
      . rw [heq, hself]
        exact ⟨rfl, rfl, rfl⟩
      . rw [hlate.conn _ heq]
        exact ⟨rfl, rfl, rfl⟩
  | accepted s fd hfd hunused heq =>
    rw [heq]
    exact h.accepted s hfd
  | refused heq =>
    rw [heq]
    exact h

theorem Inv.created_of_callback (hinv : Inv r) {l : Label} {c : Nat}
    (hl : Reactor.step r l = some r') (hsubject : l.subject = some c) : r'.created = r.created := by
  cases hinv.callback_cases hl hsubject with
  | inl hopen =>
    obtain ⟨_, _, _, heffect, _⟩ := hopen
    exact heffect.frame.created
  | inr hclosed => exact hclosed.2.created

structure KeepsEntries (r r' : Reactor) : Prop where
  created : r'.created = r.created
  server : r'.server = r.server
  owner : ∀ c, (r'.conn c).server = (r.conn c).server
  name : ∀ c, (r'.conn c).name_ = (r.conn c).name_
  sockfd : ∀ c, (r'.conn c).sockfd_ = (r.conn c).sockfd_

theorem KeepsEntries.refl (r : Reactor) : KeepsEntries r r := by
  constructor <;> intros <;> rfl

theorem KeepsEntries.trans {r'' : Reactor} (h : KeepsEntries r r') (h' : KeepsEntries r' r'')
    : KeepsEntries r r'' where
  created := h'.created.trans h.created
  server := h'.server.trans h.server
  owner c := (h'.owner c).trans (h.owner c)
  name c := (h'.name c).trans (h.name c)
  sockfd c := (h'.sockfd c).trans (h.sockfd c)

theorem KeepsEntries.modifyChannel (r : Reactor) (c : Nat) (f : Channel → Channel)
    : KeepsEntries r (r.modifyChannel c f) := by
  have hconn : ∀ c', ((r.modifyChannel c f).conn c').server = (r.conn c').server ∧
      ((r.modifyChannel c f).conn c').name_ = (r.conn c').name_ ∧
      ((r.modifyChannel c f).conn c').sockfd_ = (r.conn c').sockfd_ := by
    intro c'
    by_cases heq : c' = c <;> simp [Reactor.modifyChannel, heq]
  exact ⟨rfl, rfl, fun c' => (hconn c').1, fun c' => (hconn c').2.1, fun c' => (hconn c').2.2⟩

theorem KeepsEntries.epollCtl (r : Reactor) (c : Nat) (op : EpollOp) (events : Events)
    : KeepsEntries r (r.epollCtl c op events) := by
  constructor <;> intros <;> rfl

theorem KeepsEntries.setEvents (r : Reactor) (c : Nat) (f : Events → Events)
    : KeepsEntries r (Channel.setEvents r c f) := by
  unfold Channel.setEvents Channel.update updateChannel
  split
  . exact KeepsEntries.refl r
  . apply (KeepsEntries.modifyChannel r c _).trans
    dsimp only
    split
    . exact KeepsEntries.refl _
    . split
      . exact (KeepsEntries.epollCtl _ c _ _).trans (KeepsEntries.modifyChannel _ c _)
      . exact KeepsEntries.epollCtl _ c _ _

theorem KeepsEntries.connectDestroyed (r : Reactor) (c : Nat)
    : KeepsEntries r (TcpConnection.connectDestroyed r c) := by
  unfold TcpConnection.connectDestroyed
  split
  . exact (KeepsEntries.setEvents r c _).trans (KeepsEntries.modifyChannel _ c _)
  . exact KeepsEntries.refl r

theorem KeepsEntries.destroyEntries (taken : Bool) (entries : List (Bytes × Nat))
    (acc : Reactor × List (Ctl Int))
    : KeepsEntries acc.1 (entries.foldl (TcpServer.destroyEntry taken) acc).1 := by
  induction entries generalizing acc with
  | nil => exact KeepsEntries.refl acc.1
  | cons entry entries ih =>
    have hentry : KeepsEntries acc.1 (TcpServer.destroyEntry taken acc entry).1 :=
      KeepsEntries.connectDestroyed acc.1 entry.2
    exact hentry.trans (ih _)

theorem destroy_created (r : Reactor) (s : ServerId) (taken : Bool)
    : (TcpServer.destroy r s taken).1.created = r.created :=
  (KeepsEntries.destroyEntries taken (r.server s).connections_ (r, [])).created

theorem Entered.destroy (h : Entered r) (s : ServerId) (taken : Bool)
    : Entered (TcpServer.destroy r s taken).1 := by
  have hkeeps := KeepsEntries.destroyEntries taken (r.server s).connections_ (r, [])
  apply h.congr (destroy_created r s taken).ge
  . intro s' entry hentry
    unfold TcpServer.destroy at hentry
    dsimp only at hentry
    rw [hkeeps.server] at hentry
    by_cases hs : s' = s
    . subst hs
      simp at hentry
    . simpa [hs] using hentry
  . intro s' entry _
    exact ⟨hkeeps.owner _, hkeeps.name _, hkeeps.sockfd _⟩

end Reactor

namespace Callbacks

theorem captures_ofSelf (c : Nat) : (ofSelf c).captures c = 3 := by
  simp [captures, ofSelf]

end Callbacks

namespace Ownership

variable {st st' : Ownership} {c : Nat}

structure Inv (st : Ownership) : Prop where
  callbacks : ∀ c < st.reactor.created, st.callbacks c = .ofSelf c
  gone : st.gone = []
  entered : st.reactor.Entered
  reactor : st.tornDown = false → st.reactor.Inv

theorem three_le_refcount (h : Inv st) (hc : c < st.reactor.created) : 3 ≤ st.refcount c := by
  unfold refcount
  rw [h.callbacks c hc, Callbacks.captures_ofSelf]
  omega

theorem entries_of_closed (h : Inv st) (hclosed : (st.reactor.conn c).sockfd_ < 0)
    : st.entries c = 0 := by
  unfold entries
  rw [List.countP_eq_zero]
  intro entry hentry heq
  have hopen : 0 ≤ (st.reactor.conn entry.2).sockfd_ := by
    rw [List.mem_append] at hentry
    cases hentry with
    | inl hapi => exact (h.entered _ entry hapi).2.2.2
    | inr hmgmt => exact (h.entered _ entry hmgmt).2.2.2
  rw [decide_eq_true_eq] at heq
  rw [heq] at hopen
  omega

theorem Inv.congr (h : Inv st) (hreactor : st'.reactor = st.reactor)
    (hcallbacks : st'.callbacks = st.callbacks) (hgone : st'.gone = st.gone)
    (htorn : st'.tornDown = st.tornDown) : Inv st' where
  callbacks := by
    rw [hreactor, hcallbacks]
    exact h.callbacks
  gone := by rw [hgone, h.gone]
  entered := by
    rw [hreactor]
    exact h.entered
  reactor := by
    rw [hreactor, htorn]
    exact h.reactor

theorem tornDown_of_looping (h : st.looping = true) : st.tornDown = false := by
  unfold looping at h
  rw [Bool.and_eq_true, Bool.not_eq_true'] at h
  exact h.2

theorem tornDown_update {s : ServerId} {acceptor : Acceptor} (h : (st.acceptor s).isDestroyed = false)
    (hacceptor : st'.acceptor = Function.update st.acceptor s (.alive acceptor))
    : st'.tornDown = st.tornDown := by
  unfold tornDown
  rw [hacceptor]
  cases s with
  | api =>
    rw [Function.update_self, Function.update_of_ne (by decide), h]
    rfl
  | mgmt =>
    rw [Function.update_self, Function.update_of_ne (by decide), h]
    rfl

theorem tornDown_destroyed {s : ServerId}
    (hacceptor : st'.acceptor = Function.update st.acceptor s .destroyed) : st'.tornDown = true := by
  unfold tornDown
  rw [hacceptor]
  cases s <;> simp [Stage.isDestroyed]

theorem Inv.accepted (h : Inv st) {s : ServerId} {connfd : Int} (taken : Bool)
    (hlooping : st.looping = true)
    (hr : st.reactor.step (.accept s connfd) = some (TcpServer.newConnection st.reactor s connfd))
    : Inv (st.accepted s connfd taken) := by
  have hinv := h.reactor (tornDown_of_looping hlooping)
  have hcreated : (st.accepted s connfd taken).reactor.created = st.reactor.created + 1 :=
    Reactor.newConnection_created
  have hcallbacks : (st.accepted s connfd taken).callbacks
      = Function.update st.callbacks st.reactor.created (.ofSelf st.reactor.created) := rfl
  constructor
  . intro c hc
    rw [hcreated] at hc
    rw [hcallbacks]
    by_cases hself : c = st.reactor.created
    . rw [hself, Function.update_self]
    . rw [Function.update_of_ne hself]
      exact h.callbacks c (by omega)
  . exact h.gone
  . exact h.entered.step hinv hr
  . exact fun _ => hinv.step hr

theorem Inv.calledBack (h : Inv st) {l : Reactor.Label} {r : Reactor} (called : Nat)
    (hlooping : st.looping = true) (hsubject : l.subject = some c)
    (hr : st.reactor.step l = some r) : Inv (st.calledBack c called r) := by
  have hinv := h.reactor (tornDown_of_looping hlooping)
  constructor
  . intro c' hc'
    apply h.callbacks c'
    rw [← hinv.created_of_callback hr hsubject]
    exact hc'
  . exact h.gone
  . exact h.entered.step hinv hr
  . exact fun _ => hinv.step hr

theorem Inv.serverDestroyed (h : Inv st) {s : ServerId} {taken : Bool}
    (hreactor : st'.reactor = (TcpServer.destroy st.reactor s taken).1)
    (hcallbacks : st'.callbacks = st.callbacks) (hgone : st'.gone = st.gone)
    (hacceptor : st'.acceptor = Function.update st.acceptor s .destroyed) : Inv st' where
  callbacks := by
    rw [hreactor, hcallbacks, Reactor.destroy_created]
    exact h.callbacks
  gone := by rw [hgone, h.gone]
  entered := by
    rw [hreactor]
    exact h.entered.destroy s taken
  reactor := by
    rw [tornDown_destroyed hacceptor]
    exact fun hfalse => absurd hfalse (by decide)

theorem Inv.step (h : Inv st) {l : Label} (hl : step st l = some st') : Inv st' := by
  cases change hl with
  | loopConstructed epollfd wakeupFd taken hepollfd hwakeupFd hne heq =>
    rw [heq]
    exact h.congr rfl rfl rfl rfl
  | serverConstructed s listenfd hunborn hlistenfd heq =>
    rw [heq]
    exact h.congr rfl rfl rfl (tornDown_update (by rw [hunborn]; rfl) rfl)
  | started s taken acceptor halive hindex heq =>
    rw [heq]
    exact h.congr rfl rfl rfl (tornDown_update (by rw [halive]; rfl) rfl)
  | accepted s connfd taken hlooping hfd hnew hr heq =>
    rw [heq]
    exact h.accepted taken hlooping hr
  | callback c called label r hlooping hsubject hwatched hr heq =>
    rw [heq]
    exact h.calledBack called hlooping hsubject hr
  | passes hpasses =>
    apply h.congr hpasses.reactor hpasses.callbacks hpasses.gone
    unfold tornDown
    rw [hpasses.acceptor]
  | connectionDestroyed c hc hzero hlog =>
    -- the last reference to a connection never goes
    have hthree := three_le_refcount h hc
    omega
  | serverDestroyed s taken acceptor hl heq =>
    rw [heq]
    exact h.serverDestroyed rfl rfl rfl rfl
  | loopDestroyed taken loop hl heq =>
    rw [heq]
    exact h.congr rfl rfl rfl rfl

theorem inv_init : Inv init where
  callbacks := fun c hc => absurd hc (Nat.not_lt_zero c)
  gone := rfl
  entered := fun _ _ hentry => absurd hentry List.not_mem_nil
  reactor := fun _ => Reactor.inv_init

theorem inv_exec {ls : List Label} (h : exec step init ls = some st) : Inv st :=
  exec_invariant step (fun _ _ _ hinv hl => hinv.step hl) inv_init h

/--
`~TcpConnection` never runs: no connection is ever destroyed.
-/
theorem gone_eq_nil {ls : List Label} (h : exec step init ls = some st) : st.gone = [] :=
  (inv_exec h).gone

/--
A connection that `handleClose` has closed, and that no task and no functor holds, is still held by
the three callbacks of its channel.
-/
theorem refcount_of_closed {ls : List Label} (h : exec step init ls = some st)
    (hc : c < st.reactor.created) (hclosed : (st.reactor.conn c).sockfd_ < 0)
    (hidle : st.inFlight c = 0) : st.refcount c = 3 := by
  have hinv := inv_exec h
  unfold refcount
  rw [hidle, entries_of_closed hinv hclosed]
  rw [hinv.callbacks c hc, Callbacks.captures_ofSelf]

/--
A client that connects, says nothing and goes.
-/
def visit : List Label := [
  .constructLoop 3 4 true,
  .constructServer .api 5,
  .start .api true,
  .accept .api 6 true,
  .event 0 EPOLLIN (.data []) .again []
]

theorem refcount_of_closed_visit
    : ∃ st, exec step init visit = some st ∧ st.refcount 0 = 3 := by
  have hend := Option.eq_some_of_isSome (o := exec step init visit) (by decide)
  exact ⟨_, hend, refcount_of_closed hend (by decide) (by decide) (by decide)⟩

/--
A request that is answered before the client goes leaves the connection behind as well.
-/
def exchange : List Label := [
  .constructLoop 3 4 true,
  .constructServer .api 5,
  .start .api true,
  .accept .api 6 true,
  .event 0 EPOLLIN (.data [71]) .again [],
  .takeTask,
  .send 0 [72],
  .finishTask 0,
  .swap,
  .callFunctor,
  .clearFunctors,
  .event 0 EPOLLOUT .again (.accepted 1) [],
  .event 0 EPOLLIN (.data []) .again []
]

theorem not_released_exchange
    : ¬∀ (ls : List Label) (st : Ownership), exec step init ls = some st →
        ∀ c < st.reactor.created, (st.reactor.conn c).sockfd_ < 0 → st.inFlight c = 0 →
          st.refcount c = 0 := by
  intro hreleased
  have hend := Option.eq_some_of_isSome (o := exec step init exchange) (by decide)
  have hzero := hreleased exchange _ hend 0 (by decide) (by decide) (by decide)
  exact absurd hzero (by decide)

end Ownership
end LFGateway
