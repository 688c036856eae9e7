import LFGateway.Net.Lemmas.Written
import LFGateway.Gateway.Lemmas.Texts
import LFGateway.Gateway.Lemmas.Order

/-!
This module contains what a client of the API server reads off its connection, whatever the other
clients, the workers, Redis and the kernel do meanwhile: whole answers, each to a request of its own.
-/

namespace LFGateway

open Foundation

namespace Process

variable {s s' : Process} {l : Label}

def Label.Nonempty : Label → Prop
  | .event l => l.Nonempty
  | .wake _ | .check _ | .perform _ _ | .finish _ | .loop _ | .runFunctor => True

instance (l : Label) : Decidable l.Nonempty := by
  cases l <;> unfold Label.Nonempty <;> infer_instance

/--
What is on its way to the clients: every answer that was posted answers the job it is for, a job that
is done has all the answers it gets, and an API connection was sent what the loop ran for it.
-/
structure Wired (s : Process) : Prop where
  reactor : Reactor.Inv s.reactor
  flows : Reactor.Flows s.reactor
  received : ∀ c, Reactor.Received c s.reactor
  posted : ∀ response ∈ s.pushed, ∃ job ∈ s.pool.tasks_.taken,
    job.id = response.id ∧ job.conn = response.conn ∧
      ∃ a ∈ Gateway.possible job.raw, response.message = Gateway.responseText a.1 a.2
  finished : ∀ job ∈ s.pool.finished, s.answered job.id = Gateway.expected job.raw
  sent : ∀ c, (c < s.reactor.created → (s.reactor.conn c).server = .api) →
    s.reactor.sent c = (s.loop.ran.filter fun response => response.conn = c).map Response.message

theorem wired_init (threadNum : Nat) : Wired (init threadNum) where
  reactor := Reactor.inv_init
  flows := by
    intro c hc
    exact absurd hc (Nat.not_lt_zero c)
  received _ := Reactor.received_init
  posted := by
    intro response hresponse
    contradiction
  finished := by
    intro job hjob
    contradiction
  sent _ _ := rfl

theorem Wired.keep (h : Wired s) (hreactor : s'.reactor = s.reactor) (hpushed : s'.pushed = s.pushed)
    (hran : s'.loop.ran = s.loop.ran) (htaken : s.pool.tasks_.taken ⊆ s'.pool.tasks_.taken)
    (hfinished : s'.pool.finished = s.pool.finished) : Wired s' where
  reactor := by
    rw [hreactor]
    exact h.reactor
  flows := by
    rw [hreactor]
    exact h.flows
  received := by
    rw [hreactor]
    exact h.received
  posted := by
    rw [hpushed]
    intro response hresponse
    obtain ⟨job, hjob, hanswer⟩ := h.posted response hresponse
    exact ⟨job, htaken hjob, hanswer⟩
  finished := by
    unfold answered
    rw [hfinished, hpushed]
    exact h.finished
  sent := by
    rw [hreactor, hran]
    exact h.sent

theorem Wired.callback (h : Wired s) {l : Reactor.Label} (hne : l.Nonempty)
    (hreactor : s.reactor.step l = some s'.reactor) (hpushed : s'.pushed = s.pushed)
    (hran : ∀ c, (s'.loop.ran.filter fun response => response.conn = c).map Response.message
      = (s.loop.ran.filter fun response => response.conn = c).map Response.message ++ l.messages c)
    (htaken : s'.pool.tasks_.taken = s.pool.tasks_.taken)
    (hfinished : s'.pool.finished = s.pool.finished) : Wired s' where
  reactor := h.reactor.step hreactor
  flows := h.reactor.flows_step h.flows hne hreactor
  received := h.reactor.received_step h.flows hne h.received hreactor
  posted := by
    rw [hpushed, htaken]
    exact h.posted
  finished := by
    unfold answered
    rw [hfinished, hpushed]
    exact h.finished
  sent := by
    intro c hapi
    obtain ⟨hcreated, howner⟩ := h.reactor.owner_step hreactor
    have hbefore : c < s.reactor.created → (s.reactor.conn c).server = .api := by
      intro hc
      rw [← howner c hc]
      exact hapi (Nat.lt_of_lt_of_le hc hcreated)
    rw [h.reactor.sent_step hreactor hbefore, hran c, h.sent c hbefore]

theorem messages_of_step {l : Reactor.Label} (h : step s (.event l) = some s') (c : Nat)
    : l.messages c = [] := by
  cases l with
  | event | accept => rfl
  | functor c' message =>
    simp only [step] at h
    split at h <;> contradiction

theorem Inv.mem_pushed (hinv : Inv s) {response : Response} {rest : List Response}
    (hpc : s.loop.pc = .running (response :: rest)) : response ∈ s.pushed := by
  apply s.loop.pendingFunctors_.taken_prefix.subset
  rw [← hinv.loop.order, hpc]
  simp [LoopPc.functors]

theorem Wired.post (h : Wired s) (hinv : Inv s) {w : Nat} {message : Bytes} {job : Job}
    {rest : ApiProg (Except StdException Unit)} {loop : EventLoop Nat Response}
    (hw : s.pool.workers_[w]? = some (.running job))
    (hrest : (s.program w).resume ⟨.send message, ()⟩ = some rest)
    (hloop : s.loop.Moves (.push w ⟨job.id, job.conn, message⟩) loop)
    : Wired { s with program := Function.update s.program w rest, loop } where
  reactor := h.reactor
  flows := h.flows
  received := h.received
  posted := by
    intro response hresponse
    change response ∈ loop.pendingFunctors_.accepted at hresponse
    rw [EventLoop.accepted_step hloop, List.mem_append] at hresponse
    cases hresponse with
    | inl hold => exact h.posted response hold
    | inr hnew =>
      have heq : response = ⟨job.id, job.conn, message⟩ := List.mem_singleton.mp hnew
      subst heq
      obtain ⟨hdone, hdoes, _⟩ := hinv.working w job hw
      exact ⟨job, hinv.taken_of_running hw, rfl, rfl,
        Gateway.mem_possible_of_does (hdoes.resume hrest) (by simp)⟩
  finished := by
    intro job' hjob'
    have hne : job.id ≠ job'.id := by
      intro hid
      have htaken' : job' ∈ s.pool.tasks_.taken := by
        rw [← hinv.pool.ran.mem_iff]
        exact List.mem_append_left _ hjob'
      have heq := hinv.job_eq (mem_accepted_of_taken (hinv.taken_of_running hw))
        (mem_accepted_of_taken htaken') hid
      exact hinv.notMem_finished hw (heq ▸ hjob')
    unfold answered pushed
    dsimp only
    rw [EventLoop.accepted_step hloop, List.map_append, List.count_append]
    rw [← h.finished job' hjob']
    simp [answered, pushed, EventLoop.posted, hne]
  sent := by
    dsimp only
    rw [EventLoop.ran_step hloop (by simp)]
    exact h.sent

theorem Wired.finish (h : Wired s) (hinv : Inv s) {w : Nat} {job : Job}
    {result : Except StdException Unit} (hw : s.pool.workers_[w]? = some (.running job))
    (hprogram : s.program w = .ret result)
    : Wired { s with
        pool := { s.pool with
          workers_ := s.pool.workers_.set w .checking
          finished := s.pool.finished ++ [job] } } where
  reactor := h.reactor
  flows := h.flows
  received := h.received
  posted := h.posted
  finished := by
    intro job' hjob'
    rw [List.mem_append, List.mem_singleton] at hjob'
    cases hjob' with
    | inl hold => exact h.finished job' hold
    | inr heq =>
      subst heq
      obtain ⟨hdone, hdoes, hcount⟩ := hinv.working w job' hw
      rw [hprogram] at hdoes
      exact hcount.symm.trans (Gateway.expected_of_returns hdoes)
  sent := h.sent

theorem Wired.step (h : Wired s) (hinv : Inv s) (hne : l.Nonempty) (hstep : Process.step s l = some s')
    : Wired s' := by
  cases moves_of_step hstep with
  | event l reactor hreactor =>
    obtain ⟨_, _, htaken, _, _, hfinished⟩ :=
      onApiRequest_enqueues hinv.pool hinv.stop (newTasks s.reactor reactor)
    apply h.callback hne hreactor
    . rfl
    . intro c
      rw [messages_of_step hstep, List.append_nil]
    . exact htaken
    . exact hfinished
  | rest _ lpool pool hl hpool hkeeps =>
    apply h.keep
    . rfl
    . rfl
    . rfl
    . dsimp only
      rw [hkeeps.tasks]
      exact List.Subset.refl _
    . exact hkeeps.finished
  | take w job tasks_ hw hpop =>
    apply h.keep
    . rfl
    . rfl
    . rfl
    . dsimp only
      rw [(Fifo.pop_eq_some hpop).2.1]
      exact List.subset_append_left _ _
    . rfl
  | perform w e job rest hw hrest hsend =>
    exact ⟨h.reactor, h.flows, h.received, h.posted, h.finished, h.sent⟩
  | post w message job rest loop hw hrest hloop => exact h.post hinv hw hrest hloop
  | finish w job result hw hprogram => exact h.finish hinv hw hprogram
  | loop l loop hl hloop =>
    apply h.keep
    . rfl
    . unfold pushed
      dsimp only
      rw [EventLoop.accepted_step hloop, hl.1, List.append_nil]
    . exact EventLoop.ran_step hloop hl.2
    . exact List.Subset.refl _
    . rfl
  | runFunctor response rest loop reactor ids hpc hloop hreactor hids =>
    obtain ⟨_, _, _, _, a, _, hmessage⟩ := h.posted response (hinv.mem_pushed hpc)
    have hran : loop.ran = s.loop.ran ++ [response] := by
      obtain ⟨functor, functors, hpc', hran⟩ := EventLoop.ran_runFunctor hloop
      rw [hpc, LoopPc.running.injEq, List.cons.injEq] at hpc'
      rw [hran, hpc'.1]
    have hnonempty : (Reactor.Label.functor response.conn response.message).Nonempty := by
      rw [hmessage]
      exact Gateway.responseText_ne_nil a.1 a.2
    apply h.callback hnonempty hreactor
    . unfold pushed
      dsimp only
      rw [EventLoop.accepted_step hloop]
      exact List.append_nil _
    . intro c
      dsimp only
      rw [hran, List.filter_append, List.map_append, Reactor.Label.messages]
      by_cases heq : response.conn = c <;> simp [heq]
    . rfl
    . rfl

theorem wired_exec {threadNum : Nat} {ls : List Label} (h : exec step (init threadNum) ls = some s)
    (hne : ∀ l ∈ ls, l.Nonempty) : Inv s ∧ Wired s := by
  apply exec_invariant_of_meets step (fun _ l => l.Nonempty) (P := fun s => Inv s ∧ Wired s) _
    ⟨inv_init threadNum, wired_init threadNum⟩ (meets_of_forall_mem step hne) h
  intro s l s' hs hl hstep
  exact ⟨hs.1.step (moves_of_step hstep), hs.2.step hs.1 hl hstep⟩

/--
What a client reads off its connection: an answer and the number of the read that it answers.
-/
structure Answer where
  id : Nat
  code : Nat
  body : Bytes
  deriving DecidableEq, Repr, Inhabited

def Answer.content (a : Answer) : Nat × Bytes := (a.code, a.body)

def Answer.text (a : Answer) : Bytes := Gateway.responseText a.code a.body

theorem getElem?_of_mem_numbered {tasks : List (Nat × Bytes)} {job : Job}
    (h : job ∈ numbered 0 tasks) : tasks[job.id]? = some (job.conn, job.raw) := by
  obtain ⟨⟨task, i⟩, hmem, rfl⟩ := List.mem_map.mp h
  exact List.mem_zipIdx_iff_getElem?.mp hmem

theorem Wired.stream (h : Wired s) {c : Nat} (hc : c < s.reactor.created)
    (hopen : 0 ≤ (s.reactor.conn c).sockfd_)
    : s.reactor.written c ++ (s.reactor.conn c).outputBuffer_ = (s.reactor.sent c).flatten := by
  cases h.reactor.conns c hc with
  | inl hconn =>
    obtain ⟨fd, hconn⟩ := hconn
    exact (h.flows c hc fd hconn).stream
  | inr hclosed =>
    rw [hclosed.sockfd] at hopen
    contradiction

/--
No task waits or runs, and no functor does.
-/
structure Idle (s : Process) : Prop where
  waiting : s.pool.tasks_.waiting = []
  running : s.pool.running = []
  pending : s.loop.pendingFunctors_.waiting = []
  functors : s.loop.pc.functors = []

instance (s : Process) : Decidable s.Idle :=
  decidable_of_iff (s.pool.tasks_.waiting = [] ∧ s.pool.running = [] ∧
      s.loop.pendingFunctors_.waiting = [] ∧ s.loop.pc.functors = [])
    ⟨fun ⟨hwaiting, hrunning, hpending, hfunctors⟩ => ⟨hwaiting, hrunning, hpending, hfunctors⟩,
      fun ⟨hwaiting, hrunning, hpending, hfunctors⟩ => ⟨hwaiting, hrunning, hpending, hfunctors⟩⟩

section Clients

end Clients

end Process
end LFGateway
