import LFGateway.Http.Message
import LFGateway.Gateway.Lemmas.Process

/-!
This module contains the order of the answers on one connection. Two queues keep their order, so an
answer is only overtaken between them, by a worker that is faster than another.
-/

namespace LFGateway

open Foundation

namespace Process

variable {s s' : Process} {l : Label} {c : Nat}

/--
The answers for connection `c` were posted in the order of the reads, and none is still to come.
-/
structure Ordered (c : Nat) (s : Process) : Prop where
  order : ((s.pushed.filter fun response => response.conn = c).map Response.id).Pairwise (· < ·)
  closed : ∀ response ∈ s.pushed, response.conn = c →
    ∀ job ∈ s.pool.tasks_.accepted, job.conn = c → job.id < response.id →
      job.id ∈ s.pushed.map Response.id ∨ job ∈ s.pool.finished

theorem Ordered.same (h : Ordered c s) (hpushed : s'.pushed = s.pushed)
    (haccepted : s'.pool.tasks_.accepted = s.pool.tasks_.accepted)
    (hfinished : s.pool.finished ⊆ s'.pool.finished) : Ordered c s' where
  order := by
    rw [hpushed]
    exact h.order
  closed := by
    rw [hpushed, haccepted]
    intro response hresponse hconn job hjob hjobConn hlt
    exact (h.closed response hresponse hconn job hjob hjobConn hlt).imp_right (@hfinished job)

theorem Ordered.event (h : Ordered c s) (hinv : Inv s) {l : Reactor.Label} {reactor : Reactor}
    (hreactor : s.reactor.step l = some reactor)
    : Ordered c { s with reactor, pool := onApiRequest s.pool (newTasks s.reactor reactor) } where
  order := h.order
  closed := by
    intro response hresponse hconn job hjob hjobConn hlt
    have hsorted := (hinv.event hreactor).sorted
    obtain ⟨_, haccepted, _, _, _, hfinished⟩ :=
      onApiRequest_enqueues hinv.pool hinv.stop (newTasks s.reactor reactor)
    dsimp only at hjob hsorted ⊢
    rw [haccepted] at hjob hsorted
    rw [hfinished]
    rw [List.mem_append] at hjob
    cases hjob with
    | inl hold => exact h.closed response hresponse hconn job hold hjobConn hlt
    | inr hnew =>
      obtain ⟨job', hjob', hid, _⟩ := hinv.pushed response hresponse
      have hgt := (List.pairwise_append.mp hsorted).2.2 job' (mem_accepted_of_taken hjob') job hnew
      omega

/--
When a job is about to be answered, all earlier ones of the connection have been answered or never
will be, unless it overtakes one.
-/
theorem Inv.earlier_answered (hinv : Inv s) {w : Nat} {message : Bytes} {job : Job}
    (hw : s.pool.workers_[w]? = some (.running job)) (hconn : job.conn = c)
    (hnot : ¬Overtakes s c (.perform w ⟨.send message, ()⟩)) {other : Job}
    (hother : other ∈ s.pool.tasks_.accepted) (hotherConn : other.conn = c)
    (hlt : other.id < job.id) : other.id ∈ s.pushed.map Response.id ∨ other ∈ s.pool.finished := by
  have htaken := hinv.taken_of_lt (hinv.taken_of_running hw) hother hlt
  cases hinv.running_or_finished htaken with
  | inl hfinished => exact .inr hfinished
  | inr hrunning =>
    apply Or.inl
    by_contra hmem
    apply hnot
    simp only [Overtakes, hw]
    exact ⟨hconn, other, ThreadPool.mem_running.mpr hrunning, hotherConn, hlt, hmem⟩

theorem Ordered.post (h : Ordered c s) (hinv : Inv s) {w : Nat} {message : Bytes} {job : Job}
    {rest : ApiProg (Except StdException Unit)} {loop : EventLoop Nat Response}
    (hw : s.pool.workers_[w]? = some (.running job))
    (hrest : (s.program w).resume ⟨.send message, ()⟩ = some rest)
    (hloop : s.loop.Moves (.push w ⟨job.id, job.conn, message⟩) loop)
    (hnot : ¬Overtakes s c (.perform w ⟨.send message, ()⟩))
    : Ordered c { s with program := Function.update s.program w rest, loop } := by
  have hpushed : loop.pendingFunctors_.accepted = s.pushed ++ [⟨job.id, job.conn, message⟩] :=
    EventLoop.accepted_step hloop
  have hnew : job.id ∉ s.pushed.map Response.id :=
    List.count_eq_zero.mp (hinv.answered_of_sends hw hrest)
  have hjob := mem_accepted_of_taken (hinv.taken_of_running hw)
  constructor
  . unfold pushed
    dsimp only
    rw [hpushed, List.filter_append, List.map_append, List.pairwise_append]
    refine ⟨h.order, ?_, ?_⟩
    . by_cases hconn : job.conn = c <;> simp [hconn]
    . intro id hid id' hid'
      simp only [List.mem_map, List.mem_filter, decide_eq_true_eq, List.mem_singleton] at hid hid'
      obtain ⟨response, ⟨hresponse, hconn⟩, rfl⟩ := hid
      obtain ⟨_, ⟨rfl, hconn'⟩, rfl⟩ := hid'
      dsimp only at hconn' ⊢
      rcases Nat.lt_trichotomy response.id job.id with hlt | heq | hgt
      . exact hlt
      . exact absurd (heq ▸ List.mem_map_of_mem hresponse) hnew
      . exact ((h.closed response hresponse hconn job hjob hconn' hgt).elim hnew
          (hinv.notMem_finished hw)).elim
  . unfold pushed
    dsimp only
    rw [hpushed, List.map_append]
    intro response hresponse hconn other hother hotherConn hlt
    apply Or.imp_left (List.mem_append_left _)
    rw [List.mem_append, List.mem_singleton] at hresponse
    cases hresponse with
    | inl hold => exact h.closed response hold hconn other hother hotherConn hlt
    | inr heq =>
      subst heq
      exact hinv.earlier_answered hw hconn hnot hother hotherConn hlt

theorem Ordered.step (h : Ordered c s) (hinv : Inv s) (hnot : ¬Overtakes s c l) (hmoves : Moves s l s')
    : Ordered c s' := by
  cases hmoves with
  | event l reactor hreactor => exact h.event hinv hreactor
  | rest _ lpool pool hl hpool hkeeps =>
    exact h.same rfl (by rw [hkeeps.tasks]) (by rw [hkeeps.finished]; exact List.Subset.refl _)
  | take w job tasks_ hw hpop =>
    exact h.same rfl (Fifo.pop_eq_some hpop).2.2 (List.Subset.refl _)
  | perform w e job rest hw hrest hsend => exact h.same rfl rfl (List.Subset.refl _)
  | post w message job rest loop hw hrest hloop => exact h.post hinv hw hrest hloop hnot
  | finish w job result hw hprogram => exact h.same rfl rfl (List.subset_append_left _ _)
  | loop l loop hl hloop =>
    refine h.same ?_ rfl (List.Subset.refl _)
    unfold pushed
    rw [EventLoop.accepted_step hloop, hl.1, List.append_nil]
  | runFunctor response rest loop reactor ids hpc hloop hreactor hids =>
    refine h.same ?_ rfl (List.Subset.refl _)
    unfold pushed
    rw [EventLoop.accepted_step hloop]
    exact List.append_nil _

theorem inv_exec {threadNum : Nat} {ls : List Label} (h : exec step (init threadNum) ls = some s)
    : Inv s :=
  exec_invariant step (fun _ _ _ hinv hl => hinv.step (moves_of_step hl)) (inv_init threadNum) h

theorem Inv.appended_sublist (hinv : Inv s) (c : Nat)
    : (s.appended c).Sublist
        ((s.pushed.filter fun response => response.conn = c).map Response.id) := by
  apply (hinv.appended c).trans
  have hran : s.loop.ran.Sublist s.pushed := by
    apply List.Sublist.trans _ s.loop.pendingFunctors_.taken_prefix.sublist
    rw [← hinv.loop.order]
    exact List.sublist_append_left _ _
  exact (hran.filter _).map _

/--
Answers come to the output buffer in the order in which they were posted, none twice, and in the order
of the reads as long as no worker overtakes another.
-/
theorem appended_in_order {threadNum : Nat} {ls : List Label} {s : Process}
    (h : exec step (init threadNum) ls = some s) (c : Nat)
    : (s.appended c).Sublist
          ((s.pushed.filter fun response => response.conn = c).map Response.id) ∧
        (s.appended c).Nodup ∧
        (Meets step (fun s l => ¬Overtakes s c l) (init threadNum) ls → InReadOrder s c) := by
  have hinv := inv_exec h
  have hsub := hinv.appended_sublist c
  refine ⟨hsub, ?_, ?_⟩
  . apply List.Nodup.sublist hsub
    exact hinv.pushed_nodup.sublist (List.filter_sublist.map _)
  . intro hmeets
    have hordered := exec_invariant_of_meets step (fun s l => ¬Overtakes s c l)
      (P := fun s => Inv s ∧ Ordered c s) (s := init threadNum) ?_ ?_ hmeets h
    . exact hordered.2.order.sublist hsub
    . rintro s l s' ⟨hinv, hordered⟩ hnot hl
      have hmoves := moves_of_step hl
      exact ⟨hinv.step hmoves, hordered.step hinv hnot hmoves⟩
    . refine ⟨inv_init threadNum, ?_⟩
      constructor
      . exact List.Pairwise.nil
      . intro response hresponse
        contradiction

section Runs

def pass (l : Reactor.Label) : List Label := [
  .loop .test, .loop (.pollReturn false), .event l, .loop .dispatched, .loop .swap,
  .loop .doneFunctors
]

def getText (path : String) : Bytes :=
  Bytes.ofAscii "GET " ++ Bytes.ofAscii path ++ Bytes.ofAscii " HTTP/1.1\r\n\r\n"

def ruleA : RouteRule := ⟨Bytes.ofAscii "/a", false, 0⟩

def twoRequests : List Label :=
  .loop .enter :: pass (.accept .api 5) ++
    pass (.event 0 EPOLLIN (.data (getText "/a")) .again []) ++
    pass (.event 0 EPOLLIN (.data (getText "/b")) .again []) ++
    [.check 0, .check 1]

def answerA : List Label := [
  .perform 0 ⟨.add .totalRequests_ 1, ()⟩, .perform 0 ⟨.steadyNow, (0 : Int)⟩,
  .perform 0 ⟨.routerMatch (Bytes.ofAscii "/a"), some (⟨0, 0⟩ : Handle)⟩,
  .perform 0 ⟨.readRule ⟨0, 0⟩, ruleA⟩, .perform 0 ⟨.readRule ⟨0, 0⟩, ruleA⟩,
  .perform 0 ⟨.send (Gateway.responseText 200 (Gateway.okBody (Bytes.ofAscii "/a"))), ()⟩,
  .loop (.wakeup 0)
]

def answerB : List Label := [
  .perform 1 ⟨.add .totalRequests_ 1, ()⟩, .perform 1 ⟨.steadyNow, (0 : Int)⟩,
  .perform 1 ⟨.routerMatch (Bytes.ofAscii "/b"), (none : Option Handle)⟩,
  .perform 1 ⟨.send (Gateway.responseText 404 Gateway.noRoute), ()⟩,
  .loop (.wakeup 1)
]

def runBoth : List Label := [
  .loop .test, .loop (.pollReturn true), .loop .handleWakeup, .loop .dispatched, .loop .swap,
  .runFunctor, .runFunctor
]

theorem appended_in_order_twoRequests
    : ∃ s, exec step (init 2) (twoRequests ++ answerA ++ answerB ++ runBoth) = some s ∧
        s.appended 0 = [0, 1] ∧ InReadOrder s 0 := by
  have hend := Option.eq_some_of_isSome
    (o := exec step (init 2) (twoRequests ++ answerA ++ answerB ++ runBoth)) (by decide +kernel)
  exact ⟨_, hend, by decide +kernel, (appended_in_order hend 0).2.2 (by decide +kernel)⟩

/--
The worker with the second request is faster.
-/
theorem not_inReadOrder_overtaken
    : ∃ s, exec step (init 2) (twoRequests ++ answerB ++ answerA ++ runBoth) = some s ∧
        s.appended 0 = [1, 0] ∧ ¬InReadOrder s 0 := by
  have hend := Option.eq_some_of_isSome
    (o := exec step (init 2) (twoRequests ++ answerB ++ answerA ++ runBoth)) (by decide +kernel)
  refine ⟨_, hend, by decide +kernel, ?_⟩
  unfold InReadOrder
  decide +kernel

end Runs

end Process
end LFGateway
