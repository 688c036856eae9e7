import LFGateway.EventLoop.Lemmas
import LFGateway.ThreadPool.Lemmas
import LFGateway.Net.Lemmas.Reactor
import LFGateway.Gateway.Lemmas.Sends
import LFGateway.Gateway.Impl.Process

/-!
This module contains what a run of the process keeps: the jobs are the reads in their order, and a job
has been answered as often as its program has sent.
-/

namespace LFGateway

open Foundation

namespace Process

variable {s s' : Process} {l : Label}

inductive Moves (s : Process) : Label → Process → Prop where
  | event (l : Reactor.Label) (reactor : Reactor) (hreactor : s.reactor.step l = some reactor)
    : Moves s (.event l)
        { s with reactor, pool := onApiRequest s.pool (newTasks s.reactor reactor) }
  /-- workers wake up, or look for a task and find none -/
  | rest (l : Label) (lpool : ThreadPool.Label Job) (pool : ThreadPool Job)
      (hl : l = .wake lpool ∨ ∃ w, l = .check w) (hpool : s.pool.Moves lpool pool)
      (hkeeps : ThreadPool.Keeps s.pool pool)
    : Moves s l { s with pool }
  | take (w : Nat) (job : Job) (tasks_ : Fifo Job) (hw : s.pool.workers_[w]? = some .checking)
      (hpop : s.pool.tasks_.pop = some (job, tasks_))
    : Moves s (.check w)
        { s with
          pool := { s.pool with workers_ := s.pool.workers_.set w (.running job), tasks_ }
          program := Function.update s.program w (Gateway.processApiRequest job.raw) }
  | perform (w : Nat) (e : ApiEvent) (job : Job) (rest : ApiProg (Except StdException Unit))
      (hw : s.pool.workers_[w]? = some (.running job)) (hrest : (s.program w).resume e = some rest)
      (hsend : e.op.isSend = false)
    : Moves s (.perform w e) { s with program := Function.update s.program w rest }
  | post (w : Nat) (message : Bytes) (job : Job) (rest : ApiProg (Except StdException Unit))
      (loop : EventLoop Nat Response) (hw : s.pool.workers_[w]? = some (.running job))
      (hrest : (s.program w).resume ⟨.send message, ()⟩ = some rest)
      (hloop : s.loop.Moves (.push w ⟨job.id, job.conn, message⟩) loop)
    : Moves s (.perform w ⟨.send message, ()⟩)
        { s with program := Function.update s.program w rest, loop }
  | finish (w : Nat) (job : Job) (result : Except StdException Unit)
      (hw : s.pool.workers_[w]? = some (.running job)) (hprogram : s.program w = .ret result)
    : Moves s (.finish w)
        { s with
          pool := { s.pool with
            workers_ := s.pool.workers_.set w .checking
            finished := s.pool.finished ++ [job] } }
  | loop (l : EventLoop.Label Nat Response) (loop : EventLoop Nat Response)
      (hl : EventLoop.posted [l] = [] ∧ l ≠ .runFunctor) (hloop : s.loop.Moves l loop)
    : Moves s (.loop l) { s with loop }
  | runFunctor (response : Response) (rest : List Response) (loop : EventLoop Nat Response)
      (reactor : Reactor) (ids : List Nat) (hpc : s.loop.pc = .running (response :: rest))
      (hloop : s.loop.Moves .runFunctor loop)
      (hreactor : s.reactor.step (.functor response.conn response.message) = some reactor)
      (hids : ids = s.appended response.conn ++ [response.id] ∨ ids = s.appended response.conn)
    : Moves s .runFunctor
        { s with loop, reactor, appended := Function.update s.appended response.conn ids }

theorem moves_of_perform {w : Nat} {e : ApiEvent} (h : step s (.perform w e) = some s')
    : Moves s (.perform w e) s' := by
  simp only [step] at h
  split at h
  . contradiction
  . split at h
    . next job rest hw hrest =>
      obtain ⟨o, r⟩ := e
      unfold afterEvent at h
      cases o with
      | send message =>
        dsimp only at h
        split at h
        . next loop hloop =>
          rw [Option.some.injEq] at h
          rw [← h]
          exact .post w message job rest loop hw hrest (EventLoop.moves_of_step hloop)
        . contradiction
      | add | steadyNow | systemNow | routerMatch | readRule | command =>
        rw [Option.some.injEq] at h
        rw [← h]
        exact .perform w _ job rest hw hrest rfl
    . contradiction

theorem moves_of_step (h : step s l = some s') : Moves s l s' := by
  cases l with
  | event l =>
    simp only [step] at h
    split at h
    . split at h
      . next hreactor =>
        rw [Option.some.injEq] at h
        rw [← h]
        exact .event _ _ hreactor
      . contradiction
    . split at h
      . next hreactor =>
        rw [Option.some.injEq] at h
        rw [← h]
        exact .event _ _ hreactor
      . contradiction
    . contradiction
  | wake l =>
    simp only [step] at h
    split at h
    . next w =>
      split at h
      . next pool hpool =>
        rw [Option.some.injEq] at h
        rw [← h]
        have hmoves := ThreadPool.moves_of_step hpool
        exact .rest _ _ pool (.inl rfl) hmoves (ThreadPool.keeps_of_wake (.inl ⟨w, .inl rfl⟩) hmoves)
      . contradiction
    . split at h
      . next pool hpool =>
        rw [Option.some.injEq] at h
        rw [← h]
        have hmoves := ThreadPool.moves_of_step hpool
        exact .rest _ _ pool (.inl rfl) hmoves (ThreadPool.keeps_of_wake (.inr rfl) hmoves)
      . contradiction
    . next w =>
      split at h
      . next pool hpool =>
        rw [Option.some.injEq] at h
        rw [← h]
        have hmoves := ThreadPool.moves_of_step hpool
        exact .rest _ _ pool (.inl rfl) hmoves (ThreadPool.keeps_of_wake (.inl ⟨w, .inr rfl⟩) hmoves)
      . contradiction
    . contradiction
  | check w =>
    simp only [step] at h
    split at h
    . next pool hpool =>
      cases ThreadPool.moves_of_step hpool with
      | exit _ hw | wait _ hw =>
        have hlength := (List.getElem?_eq_some_iff.mp hw).1
        simp only [List.getElem?_set_self hlength, Option.some.injEq] at h
        rw [← h]
        exact .rest _ _ _ (.inr ⟨w, rfl⟩) (ThreadPool.moves_of_step hpool)
          (ThreadPool.keeps_setWorker s.pool.notifying hw rfl rfl)
      | take _ job tasks_ hw hpop =>
        have hlength := (List.getElem?_eq_some_iff.mp hw).1
        simp only [List.getElem?_set_self hlength, Option.some.injEq] at h
        rw [← h]
        exact .take w job tasks_ hw hpop
    . contradiction
  | perform w e => exact moves_of_perform h
  | finish w =>
    simp only [step] at h
    split at h
    . contradiction
    . split at h
      . next result hprogram =>
        split at h
        . next pool hpool =>
          rw [Option.some.injEq] at h
          rw [← h]
          cases ThreadPool.moves_of_step hpool with
          | finish _ job hw => exact .finish w job result hw hprogram
        . contradiction
      . contradiction
  | loop l =>
    cases l with
    | push | runFunctor => simp [step] at h
    | wakeup | quit | quitWakeup | quitInLoopThread | enter | test | pollReturn | handleWakeup
    | dispatched | swap | doneFunctors =>
      simp only [step] at h
      split at h
      . next loop hloop =>
        rw [Option.some.injEq] at h
        rw [← h]
        exact .loop _ loop ⟨rfl, by simp⟩ (EventLoop.moves_of_step hloop)
      . contradiction
  | runFunctor =>
    simp only [step] at h
    split at h
    . next response rest hpc =>
      split at h
      . next loop reactor hloop hreactor =>
        rw [Option.some.injEq] at h
        rw [← h]
        apply Moves.runFunctor response rest loop reactor _ hpc (EventLoop.moves_of_step hloop) hreactor
        split
        . exact .inl rfl
        . exact .inr rfl
      . contradiction
    . contradiction

def numbered (n : Nat) (tasks : List (Nat × Bytes)) : List Job :=
  (tasks.zipIdx n).map fun x => ⟨x.2, x.1.1, x.1.2⟩

theorem numbered_append (n : Nat) (tasks tasks' : List (Nat × Bytes))
    : numbered n (tasks ++ tasks') = numbered n tasks ++ numbered (n + tasks.length) tasks' := by
  simp [numbered, List.zipIdx_append]

theorem numbered_ids (n : Nat) (tasks : List (Nat × Bytes))
    : (numbered n tasks).map Job.id = List.range' n tasks.length := by
  induction tasks generalizing n with
  | nil => rfl
  | cons task tasks ih =>
    have hrest := ih (n + 1)
    unfold numbered at hrest ⊢
    rw [List.zipIdx_cons, List.map_cons, List.map_cons, hrest, List.length_cons, List.range'_succ]

theorem numbered_sorted (n : Nat) (tasks : List (Nat × Bytes))
    : (numbered n tasks).Pairwise fun a b => a.id < b.id := by
  rw [← List.pairwise_map (f := Job.id), numbered_ids]
  exact List.pairwise_lt_range'

theorem onApiRequest_enqueues {pool : ThreadPool Job} (hinv : pool.Inv) (hstop : pool.stop_ = false)
    (tasks : List (Nat × Bytes))
    : (onApiRequest pool tasks).Inv ∧
        (onApiRequest pool tasks).tasks_.accepted
          = pool.tasks_.accepted ++ numbered pool.tasks_.accepted.length tasks ∧
        (onApiRequest pool tasks).tasks_.taken = pool.tasks_.taken ∧
        (onApiRequest pool tasks).stop_ = false ∧
        (onApiRequest pool tasks).workers_ = pool.workers_ ∧
        (onApiRequest pool tasks).finished = pool.finished := by
  induction tasks generalizing pool with
  | nil => exact ⟨hinv, (List.append_nil _).symm, rfl, hstop, rfl, rfl⟩
  | cons task tasks ih =>
    obtain ⟨conn, raw⟩ := task
    have hfirst : onApiRequest pool ((conn, raw) :: tasks)
        = onApiRequest { pool with
            tasks_ := pool.tasks_.push ⟨pool.tasks_.accepted.length, conn, raw⟩
            notifying := pool.notifying + 1 } tasks := by
      simp [onApiRequest, ThreadPool.enqueue, hstop]
    have hinv' := hinv.step (.accept .future ⟨pool.tasks_.accepted.length, conn, raw⟩ hstop)
    obtain ⟨hinv', haccepted, htaken, hstop', hworkers, hfinished⟩ := ih hinv' hstop
    rw [hfirst]
    refine ⟨hinv', ?_, htaken, hstop', hworkers, hfinished⟩
    rw [haccepted]
    simp [numbered, List.zipIdx_cons]

def answered (s : Process) (id : Nat) : Nat := (s.pushed.map Response.id).count id

structure Inv (s : Process) : Prop where
  stop : s.pool.stop_ = false
  pool : s.pool.Inv
  loop : s.loop.Inv
  /-- the pool was given what was read, in the order of the reads -/
  jobs : s.pool.tasks_.accepted = numbered 0 s.reactor.tasks
  working : ∀ (w : Nat) job, s.pool.workers_[w]? = some (.running job) →
    ∃ h, Prog.Does (Gateway.processApiRequest job.raw) h (s.program w) ∧
      h.countP (fun e => e.op.isSend) = s.answered job.id
  finished : ∀ job ∈ s.pool.finished, s.answered job.id ≤ 1
  pushed : ∀ response ∈ s.pushed,
    ∃ job ∈ s.pool.tasks_.taken, job.id = response.id ∧ job.conn = response.conn
  appended : ∀ c, (s.appended c).Sublist
    ((s.loop.ran.filter fun response => response.conn = c).map Response.id)

theorem inv_init (threadNum : Nat) : Inv (init threadNum) where
  stop := rfl
  pool := .init threadNum
  loop := .init
  jobs := rfl
  working := by
    intro w job hw
    have heq := List.eq_of_mem_replicate (List.mem_of_getElem? hw)
    contradiction
  finished := by
    intro job hjob
    contradiction
  pushed := by
    intro response hresponse
    contradiction
  appended := by
    intro c
    exact List.nil_sublist _

section Jobs

variable {job job' : Job}

theorem Inv.sorted (hinv : Inv s) : s.pool.tasks_.accepted.Pairwise fun a b => a.id < b.id := by
  rw [hinv.jobs]
  exact numbered_sorted 0 _

theorem Inv.job_eq (hinv : Inv s) (hjob : job ∈ s.pool.tasks_.accepted)
    (hjob' : job' ∈ s.pool.tasks_.accepted) (hid : job.id = job'.id) : job = job' := by
  have hnodup : (s.pool.tasks_.accepted.map Job.id).Nodup := by
    rw [List.Nodup, List.pairwise_map]
    exact hinv.sorted.imp Nat.ne_of_lt
  exact List.inj_on_of_nodup_map hnodup hjob hjob' hid

theorem mem_accepted_of_taken (hjob : job ∈ s.pool.tasks_.taken) : job ∈ s.pool.tasks_.accepted :=
  s.pool.tasks_.taken_prefix.subset hjob

theorem Inv.taken_nodup (hinv : Inv s) : s.pool.tasks_.taken.Nodup := by
  apply List.Nodup.sublist s.pool.tasks_.taken_prefix.sublist
  apply hinv.sorted.imp
  rintro a b hlt rfl
  exact Nat.lt_irrefl _ hlt

theorem Inv.taken_of_lt (hinv : Inv s) (hjob : job ∈ s.pool.tasks_.taken)
    (hjob' : job' ∈ s.pool.tasks_.accepted) (hlt : job'.id < job.id) : job' ∈ s.pool.tasks_.taken := by
  have hsorted := hinv.sorted
  rw [← s.pool.tasks_.conserved] at hsorted hjob'
  rw [List.mem_append] at hjob'
  cases hjob' with
  | inl htaken => exact htaken
  | inr hwaiting =>
    have hgt := (List.pairwise_append.mp hsorted).2.2 job hjob job' hwaiting
    omega

theorem Inv.running_or_finished (hinv : Inv s) (hjob : job ∈ s.pool.tasks_.taken)
    : job ∈ s.pool.finished ∨ ∃ w : Nat, s.pool.workers_[w]? = some (.running job) := by
  rw [← hinv.pool.ran.mem_iff, List.mem_append, ThreadPool.mem_running] at hjob
  exact hjob

theorem Inv.taken_of_running (hinv : Inv s) {w : Nat}
    (hw : s.pool.workers_[w]? = some (.running job))
    : job ∈ s.pool.tasks_.taken := by
  rw [← hinv.pool.ran.mem_iff, List.mem_append, ThreadPool.mem_running]
  exact .inr ⟨w, hw⟩

theorem Inv.notMem_finished (hinv : Inv s) {w : Nat}
    (hw : s.pool.workers_[w]? = some (.running job)) : job ∉ s.pool.finished := by
  intro hfinished
  have hnodup := hinv.pool.ran.nodup_iff.mpr hinv.taken_nodup
  exact List.disjoint_of_nodup_append hnodup hfinished (ThreadPool.mem_running.mpr ⟨w, hw⟩)

theorem Inv.answered_le_one (hinv : Inv s) (id : Nat) : s.answered id ≤ 1 := by
  by_cases hmem : id ∈ s.pushed.map Response.id
  . obtain ⟨response, hresponse, rfl⟩ := List.mem_map.mp hmem
    obtain ⟨job, hjob, hid, _⟩ := hinv.pushed response hresponse
    rw [← hid]
    cases hinv.running_or_finished hjob with
    | inl hfinished => exact hinv.finished job hfinished
    | inr hrunning =>
      obtain ⟨w, hw⟩ := hrunning
      obtain ⟨h, hdoes, hcount⟩ := hinv.working w job hw
      rw [← hcount]
      exact Gateway.sends_le_one hdoes
  . unfold answered
    rw [List.count_eq_zero.mpr hmem]
    exact Nat.zero_le 1

theorem Inv.pushed_nodup (hinv : Inv s) : (s.pushed.map Response.id).Nodup :=
  List.nodup_iff_count_le_one.mpr hinv.answered_le_one

end Jobs

theorem Inv.event (hinv : Inv s) {l : Reactor.Label} {reactor : Reactor}
    (hreactor : s.reactor.step l = some reactor)
    : Inv { s with reactor, pool := onApiRequest s.pool (newTasks s.reactor reactor) } := by
  obtain ⟨hpool, haccepted, htaken, hstop, hworkers, hfinished⟩ :=
    onApiRequest_enqueues hinv.pool hinv.stop (newTasks s.reactor reactor)
  constructor
  . exact hstop
  . exact hpool
  . exact hinv.loop
  . obtain ⟨tasks, htasks⟩ := Reactor.tasks_step hreactor
    have hnew : newTasks s.reactor reactor = tasks := by
      unfold newTasks
      rw [← htasks, List.drop_left]
    have hlength : s.pool.tasks_.accepted.length = s.reactor.tasks.length := by
      rw [hinv.jobs]
      simp [numbered]
    dsimp only
    rw [haccepted, hnew, hlength, hinv.jobs, ← htasks, numbered_append, Nat.zero_add]
  . dsimp only
    rw [hworkers]
    exact hinv.working
  . dsimp only
    rw [hfinished]
    exact hinv.finished
  . dsimp only
    rw [htaken]
    exact hinv.pushed
  . exact hinv.appended

theorem Inv.rest (hinv : Inv s) {pool : ThreadPool Job} (hpool : pool.Inv)
    (hkeeps : ThreadPool.Keeps s.pool pool) : Inv { s with pool } := by
  constructor
  . dsimp only
    rw [hkeeps.stop, hinv.stop]
  . exact hpool
  . exact hinv.loop
  . dsimp only
    rw [hkeeps.tasks, hinv.jobs]
  . intro w job hw
    exact hinv.working w job ((hkeeps.running w job).mp hw)
  . dsimp only
    rw [hkeeps.finished]
    exact hinv.finished
  . dsimp only
    rw [hkeeps.tasks]
    exact hinv.pushed
  . exact hinv.appended

theorem Inv.answered_of_not_taken (hinv : Inv s) {job : Job}
    (hjob : job ∈ s.pool.tasks_.accepted) (hnot : job ∉ s.pool.tasks_.taken)
    : s.answered job.id = 0 := by
  apply List.count_eq_zero.mpr
  intro hmem
  obtain ⟨response, hresponse, hid⟩ := List.mem_map.mp hmem
  obtain ⟨job', hjob', hid', _⟩ := hinv.pushed response hresponse
  apply hnot
  rw [hinv.job_eq hjob (mem_accepted_of_taken hjob') (by rw [hid', hid])]
  exact hjob'

theorem Inv.take (hinv : Inv s) {w : Nat} {job : Job} {tasks_ : Fifo Job}
    (hw : s.pool.workers_[w]? = some .checking) (hpop : s.pool.tasks_.pop = some (job, tasks_))
    : Inv { s with
        pool := { s.pool with workers_ := s.pool.workers_.set w (.running job), tasks_ }
        program := Function.update s.program w (Gateway.processApiRequest job.raw) } := by
  obtain ⟨hwaiting, htaken, haccepted⟩ := Fifo.pop_eq_some hpop
  have hqueue := s.pool.tasks_.conserved
  rw [hwaiting] at hqueue
  have hmem : job ∈ s.pool.tasks_.accepted := by
    rw [← hqueue]
    simp
  have hnew : s.answered job.id = 0 := by
    apply hinv.answered_of_not_taken hmem
    intro hjob
    have hsorted := hinv.sorted
    rw [← hqueue] at hsorted
    have hlt := (List.pairwise_append.mp hsorted).2.2 job hjob job (by simp)
    omega
  constructor
  . exact hinv.stop
  . exact hinv.pool.take hw hpop
  . exact hinv.loop
  . dsimp only
    rw [haccepted, hinv.jobs]
  . intro w' job' hw'
    dsimp only at hw' ⊢
    rcases getElem?_set_cases hw' with ⟨rfl, heq⟩ | ⟨hne, hold⟩
    . rw [Worker.running.injEq] at heq
      subst heq
      rw [Function.update_self]
      exact ⟨[], .nil _, hnew.symm⟩
    . rw [Function.update_of_ne (Ne.symm hne)]
      exact hinv.working w' job' hold
  . exact hinv.finished
  . intro response hresponse
    obtain ⟨job', hjob', hsame⟩ := hinv.pushed response hresponse
    refine ⟨job', ?_, hsame⟩
    dsimp only
    rw [htaken]
    exact List.mem_append_left _ hjob'
  . exact hinv.appended

theorem Inv.perform (hinv : Inv s) {w : Nat} {e : ApiEvent} {job : Job}
    {rest : ApiProg (Except StdException Unit)} (hw : s.pool.workers_[w]? = some (.running job))
    (hrest : (s.program w).resume e = some rest) (hsend : e.op.isSend = false)
    : Inv { s with program := Function.update s.program w rest } where
  stop := hinv.stop
  pool := hinv.pool
  loop := hinv.loop
  jobs := hinv.jobs
  working := by
    intro w' job' hw'
    by_cases heq : w' = w
    . subst heq
      rw [hw, Option.some.injEq, Worker.running.injEq] at hw'
      subst hw'
      obtain ⟨h, hdoes, hcount⟩ := hinv.working w' job hw
      dsimp only
      rw [Function.update_self]
      refine ⟨h ++ [e], hdoes.resume hrest, ?_⟩
      rw [List.countP_append, hcount, List.countP_singleton, hsend]
      rfl
    . dsimp only
      rw [Function.update_of_ne heq]
      exact hinv.working w' job' hw'
  finished := hinv.finished
  pushed := hinv.pushed
  appended := hinv.appended

theorem Inv.answered_of_sends (hinv : Inv s) {w : Nat} {message : Bytes} {job : Job}
    {rest : ApiProg (Except StdException Unit)} (hw : s.pool.workers_[w]? = some (.running job))
    (hrest : (s.program w).resume ⟨.send message, ()⟩ = some rest) : s.answered job.id = 0 := by
  obtain ⟨h, hdoes, hcount⟩ := hinv.working w job hw
  have hle := Gateway.sends_le_one (hdoes.resume hrest)
  rw [List.countP_append, hcount, List.countP_singleton] at hle
  simp only [ApiOp.isSend, ↓reduceIte] at hle
  omega

theorem Inv.post (hinv : Inv s) {w : Nat} {message : Bytes} {job : Job}
    {rest : ApiProg (Except StdException Unit)} {loop : EventLoop Nat Response}
    (hw : s.pool.workers_[w]? = some (.running job))
    (hrest : (s.program w).resume ⟨.send message, ()⟩ = some rest)
    (hloop : s.loop.Moves (.push w ⟨job.id, job.conn, message⟩) loop)
    : Inv { s with program := Function.update s.program w rest, loop } := by
  have hpushed : loop.pendingFunctors_.accepted = s.pushed ++ [⟨job.id, job.conn, message⟩] :=
    EventLoop.accepted_step hloop
  have hother : ∀ id, id ≠ job.id →
      (loop.pendingFunctors_.accepted.map Response.id).count id = s.answered id := by
    intro id hne
    rw [hpushed, List.map_append, List.count_append]
    simp [answered, Ne.symm hne]
  have hself : (loop.pendingFunctors_.accepted.map Response.id).count job.id
      = s.answered job.id + 1 := by
    rw [hpushed, List.map_append, List.count_append]
    simp [answered]
  have htaken := hinv.taken_of_running hw
  constructor
  . exact hinv.stop
  . exact hinv.pool
  . exact hinv.loop.step hloop
  . exact hinv.jobs
  . intro w' job' hw'
    by_cases heq : w' = w
    . subst heq
      rw [hw, Option.some.injEq, Worker.running.injEq] at hw'
      subst hw'
      obtain ⟨h, hdoes, hcount⟩ := hinv.working w' job hw
      dsimp only
      rw [Function.update_self]
      refine ⟨h ++ [⟨.send message, ()⟩], hdoes.resume hrest, ?_⟩
      rw [List.countP_append, hcount]
      exact hself.symm
    . have hne := hinv.pool.running_ne hinv.taken_nodup hw' hw heq
      dsimp only
      rw [Function.update_of_ne heq]
      obtain ⟨h, hdoes, hcount⟩ := hinv.working w' job' hw'
      refine ⟨h, hdoes, ?_⟩
      rw [hcount]
      apply Eq.symm
      apply hother
      intro hid
      exact hne (hinv.job_eq (mem_accepted_of_taken (hinv.taken_of_running hw'))
        (mem_accepted_of_taken htaken) hid)
  . intro job' hjob'
    have htaken' : job' ∈ s.pool.tasks_.taken := by
      rw [← hinv.pool.ran.mem_iff]
      exact List.mem_append_left _ hjob'
    have hne : job'.id ≠ job.id := by
      intro hid
      have heq := hinv.job_eq (mem_accepted_of_taken htaken') (mem_accepted_of_taken htaken) hid
      exact hinv.notMem_finished hw (heq ▸ hjob')
    exact (hother job'.id hne).trans_le (hinv.finished job' hjob')
  . intro response hresponse
    change response ∈ loop.pendingFunctors_.accepted at hresponse
    rw [hpushed, List.mem_append, List.mem_singleton] at hresponse
    cases hresponse with
    | inl hold => exact hinv.pushed response hold
    | inr hnew =>
      rw [hnew]
      exact ⟨job, htaken, rfl, rfl⟩
  . intro c
    dsimp only
    rw [EventLoop.ran_step hloop (by simp)]
    exact hinv.appended c

theorem Inv.finish (hinv : Inv s) {w : Nat} {job : Job}
    (hw : s.pool.workers_[w]? = some (.running job))
    : Inv { s with
        pool := { s.pool with
          workers_ := s.pool.workers_.set w .checking
          finished := s.pool.finished ++ [job] } } := by
  constructor
  . exact hinv.stop
  . exact hinv.pool.finish hw
  . exact hinv.loop
  . exact hinv.jobs
  . intro w' job' hw'
    rcases getElem?_set_cases hw' with ⟨_, heq⟩ | ⟨_, hold⟩
    . contradiction
    . exact hinv.working w' job' hold
  . intro job' hjob'
    dsimp only at hjob'
    rw [List.mem_append, List.mem_singleton] at hjob'
    cases hjob' with
    | inl hold => exact hinv.finished job' hold
    | inr heq =>
      exact hinv.answered_le_one job'.id
  . exact hinv.pushed
  . exact hinv.appended

theorem Inv.goOn (hinv : Inv s) {reactor : Reactor} {loop : EventLoop Nat Response}
    {appended : Nat → List Nat} (htasks : reactor.tasks = s.reactor.tasks) (hloop : loop.Inv)
    (hpushed : loop.pendingFunctors_.accepted = s.pushed)
    (happended : ∀ c, (appended c).Sublist
      ((loop.ran.filter fun response => response.conn = c).map Response.id))
    : Inv { s with reactor, loop, appended } where
  stop := hinv.stop
  pool := hinv.pool
  loop := hloop
  jobs := by
    dsimp only
    rw [htasks, hinv.jobs]
  working := by
    unfold answered Process.pushed
    dsimp only
    rw [hpushed]
    exact hinv.working
  finished := by
    unfold answered Process.pushed
    dsimp only
    rw [hpushed]
    exact hinv.finished
  pushed := by
    unfold Process.pushed
    dsimp only
    rw [hpushed]
    exact hinv.pushed
  appended := happended

theorem Inv.loopStep (hinv : Inv s) {l : EventLoop.Label Nat Response}
    {loop : EventLoop Nat Response} (hl : EventLoop.posted [l] = [] ∧ l ≠ .runFunctor)
    (hloop : s.loop.Moves l loop) : Inv { s with loop } := by
  apply hinv.goOn (rfl : s.reactor.tasks = _) (hinv.loop.step hloop)
  . rw [EventLoop.accepted_step hloop, hl.1, List.append_nil]
    rfl
  . intro c
    rw [EventLoop.ran_step hloop hl.2]
    exact hinv.appended c

theorem Inv.runFunctor (hinv : Inv s) {response : Response} {rest : List Response}
    {loop : EventLoop Nat Response} {reactor : Reactor} {ids : List Nat}
    (hpc : s.loop.pc = .running (response :: rest)) (hloop : s.loop.Moves .runFunctor loop)
    (hreactor : s.reactor.step (.functor response.conn response.message) = some reactor)
    (hids : ids = s.appended response.conn ++ [response.id] ∨ ids = s.appended response.conn)
    : Inv { s with loop, reactor, appended := Function.update s.appended response.conn ids } := by
  have htasks : reactor.tasks = s.reactor.tasks := by
    simp only [Reactor.step] at hreactor
    split at hreactor
    . rw [Option.some.injEq] at hreactor
      rw [← hreactor, Reactor.sendInLoop_tasks]
    . contradiction
  have hran : loop.ran = s.loop.ran ++ [response] := by
    obtain ⟨functor, functors, hpc', hran⟩ := EventLoop.ran_runFunctor hloop
    rw [hpc, LoopPc.running.injEq, List.cons.injEq] at hpc'
    rw [hran, hpc'.1]
  apply hinv.goOn htasks (hinv.loop.step hloop)
  . rw [EventLoop.accepted_step hloop]
    exact List.append_nil _
  . intro c
    have hold := hinv.appended c
    rw [hran, List.filter_append, List.map_append]
    by_cases heq : c = response.conn
    . subst heq
      rw [Function.update_self]
      cases hids with
      | inl hids =>
        rw [hids]
        apply hold.append
        simp
      | inr hids =>
        rw [hids]
        exact hold.trans (List.sublist_append_left _ _)
    . rw [Function.update_of_ne heq]
      exact hold.trans (List.sublist_append_left _ _)

theorem Inv.step (hinv : Inv s) (h : Moves s l s') : Inv s' := by
  cases h with
  | event l reactor hreactor => exact hinv.event hreactor
  | rest _ lpool pool hl hpool hkeeps => exact hinv.rest (hinv.pool.step hpool) hkeeps
  | take w job tasks_ hw hpop => exact hinv.take hw hpop
  | perform w e job rest hw hrest hsend => exact hinv.perform hw hrest hsend
  | post w message job rest loop hw hrest hloop => exact hinv.post hw hrest hloop
  | finish w job result hw hprogram => exact hinv.finish hw
  | loop l loop hl hloop => exact hinv.loopStep hl hloop
  | runFunctor response rest loop reactor ids hpc hloop hreactor hids =>
    exact hinv.runFunctor hpc hloop hreactor hids

end Process
end LFGateway
