import LFGateway.Net.Lemmas.Lifecycle

/-!
This module contains the output side of the connections over whole runs: the stream a client gets is
the messages in the order of their `sendInLoop`, and write interest is armed exactly when needed.
-/

namespace LFGateway

open Foundation

namespace Reactor

variable {r r' : Reactor} {c : Nat} {fd : Int}

def Flows (r : Reactor) : Prop := ∀ c < r.created, ∀ fd, Open c fd r → Flow c r

theorem Inv.flow_same (hinv : Inv r) (hflows : Flows r) (hc : c < r.created)
    (hsame : Same c r r') (hopen : Open c fd r') : Flow c r' := by
  cases hinv.conns c hc with
  | inl hbefore =>
    obtain ⟨fd', hbefore⟩ := hbefore
    exact (hflows c hc fd' hbefore).same hsame
  | inr hclosed => exact absurd (hclosed.same hsame) hopen.not_closed

theorem Inv.flows_step (hinv : Inv r) (hflows : Flows r) {l : Label} (hne : l.Nonempty)
    (h : Reactor.step r l = some r') : Flows r' := by
  intro c hc fd hopen
  cases hinv.outcome h with
  | callback c' fd' hc' hopen' heffect =>
    rw [heffect.frame.created] at hc
    by_cases heq : c = c'
    . subst heq
      cases heffect.outcome with
      | inl hstays => exact hstays.2.2 hne (hflows c hc fd' hopen')
      | inr hcloses => exact absurd hcloses.1 hopen.not_closed
    . exact hinv.flow_same hflows hc (heffect.frame.same heq) hopen
  | late c' hc' hclosed hlate =>
    rw [hlate.created] at hc
    by_cases heq : c = c'
    . subst heq
      exact absurd (hlate.closed hclosed) hopen.not_closed
    . exact hinv.flow_same hflows hc (hlate.same heq) hopen
  | accepted s fd' hfd hunused heq =>
    subst heq
    rw [newConnection_created] at hc
    by_cases heq : c = r.created
    . subst heq
      exact newConnection_flow (hinv.unborn _ (Nat.le_refl _))
    . exact hinv.flow_same hflows (by omega) (newConnection_same heq) hopen
  | refused heq =>
    subst heq
    exact hflows c hc fd hopen

theorem flows_exec {ls : List Label} (h : exec step init ls = some r) (hne : ∀ l ∈ ls, l.Nonempty)
    : Inv r ∧ Flows r := by
  apply exec_invariant_of_meets step (fun _ l => l.Nonempty) (P := fun r => Inv r ∧ Flows r) _ _
    (meets_of_forall_mem step hne) h
  . intro r l r' hr hl hstep
    exact ⟨hr.1.step hstep, hr.1.flows_step hr.2 hl hstep⟩
  . refine ⟨inv_init, ?_⟩
    intro c hc
    exact absurd hc (Nat.not_lt_zero c)

theorem armed_iff (hf : Flow c r)
    : (r.conn c).channel_.events_ &&& EPOLLOUT ≠ 0 ↔ (r.conn c).outputBuffer_ ≠ [] := by
  have hwriting := isWriting_of_flow hf
  unfold Channel.isWriting at hwriting
  rw [decide_eq_true_eq] at hwriting
  exact hwriting

/--
What the kernel accepted and what is still buffered are the messages in order, and epoll watches for
`EPOLLOUT` exactly while something is buffered.
-/
theorem output_intact {ls : List Label} {r : Reactor} (h : exec step init ls = some r)
    (hne : ∀ l ∈ ls, l.Nonempty) {c : Nat} (hc : c < r.created) (hopen : 0 ≤ (r.conn c).sockfd_)
    : r.written c ++ (r.conn c).outputBuffer_ = (r.sent c).flatten ∧
      ∃ events,
        r.interest (r.conn c).sockfd_ = some ⟨c, events⟩ ∧
        (events &&& EPOLLOUT ≠ 0 ↔ (r.conn c).outputBuffer_ ≠ []) := by
  obtain ⟨hinv, hflows⟩ := flows_exec h hne
  cases hinv.conns c hc with
  | inl hconn =>
    obtain ⟨fd, hconn⟩ := hconn
    have hflow := hflows c hc fd hconn
    refine ⟨hflow.stream, (r.conn c).channel_.events_, ?_, armed_iff hflow⟩
    rw [hconn.sockfd]
    exact hconn.interest
  | inr hclosed =>
    rw [hclosed.sockfd] at hopen
    contradiction

/--
Two answers, of which the kernel takes one byte at first.
-/
def partialWrites : List Label := [
  .accept .api 5,
  .functor 0 [72, 105],
  .event 0 EPOLLOUT .again (.accepted 1) [],
  .functor 0 [33],
  .event 0 EPOLLOUT .again .again []
]

theorem output_intact_partialWrites
    : ∃ r, exec step init partialWrites = some r ∧ r.written 0 = [72] ∧
        r.written 0 ++ (r.conn 0).outputBuffer_ = [72, 105, 33] := by
  have hend := Option.eq_some_of_isSome (o := exec step init partialWrites) (by decide)
  have hintact := (output_intact hend (by decide) (c := 0) (by decide) (by decide)).1
  exact ⟨_, hend, by decide, hintact⟩

end Reactor
end LFGateway
