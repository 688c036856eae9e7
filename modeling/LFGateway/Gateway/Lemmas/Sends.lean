import LFGateway.Gateway.Impl.Api

/-!
This module contains how often `processApiRequest` calls `TcpConnection::send`: once if it returns,
and not at all before an exception leaves it, whatever the replies of Redis and the table are.
-/

namespace LFGateway

open Foundation

def ApiOp.isSend : ApiOp → Bool
  | .send _ => true
  | _ => false

def ApiOp.isInner : ApiOp → Bool
  | .systemNow | .readRule _ | .command _ _ => true
  | .add _ _ | .steadyNow | .routerMatch _ | .send _ => false

variable {α β : Type} {n : Nat}

section Inner

variable {f : ApiOp → Bool} (hf : ∀ o, o.isInner = true → f o = false)
include hf

theorem counts_inner {o : ApiOp} (ho : o.isInner = true) {k : o.Reply → ApiProg β}
    (hk : ∀ r, (k r).Counts f n) : (perform o >>= k).Counts f n :=
  Prog.counts_perform_bind (hf o ho) hk

theorem RedisClient.counts_get (via : Member) (key : Bytes) : (get via key).Counts f 0 := by
  unfold get
  apply counts_inner hf rfl
  intro reply
  split <;> exact Prog.counts_pure _

theorem RedisClient.counts_incr (via : Member) (key : Bytes) : (incr via key).Counts f 0 :=
  counts_inner hf rfl fun _ => Prog.counts_pure _

theorem RedisClient.counts_expire (via : Member) (key : Bytes) (seconds : Int)
    : (expire via key seconds).Counts f 0 :=
  counts_inner hf rfl fun _ => Prog.counts_pure _

theorem RedisClient.counts_xadd (via : Member) (key : Bytes) (fields : List (Bytes × Bytes))
    : (xadd via key fields).Counts f 0 := by
  unfold xadd
  apply counts_inner hf rfl
  intro reply
  split <;> exact Prog.counts_pure _

theorem AuthPlugin.counts_validate (token : Bytes) : (validate token).Counts f 0 :=
  (RedisClient.counts_get hf _ _).zero_bind fun _ => Prog.counts_pure _

theorem DistributedRateLimiter.counts_isAllowed (path : Bytes) (rate capacity : Int)
    : (isAllowed path rate capacity).Counts f 0 := by
  have hacquire : ∀ key rate capacity, (acquireToken key rate capacity).Counts f 0 := by
    intro key rate capacity
    apply counts_inner hf rfl
    intro now
    apply counts_inner hf rfl
    intro reply
    cases reply <;> exact Prog.counts_pure _
  apply (hacquire _ _ _).zero_bind
  intro result
  cases result <;> exact Prog.counts_pure _

theorem RateLimitPlugin.counts_isAllowed (keyPrefix : Bytes) (max : Int)
    : (isAllowed keyPrefix max).Counts f 0 := by
  unfold isAllowed
  split
  . exact Prog.counts_pure _
  . apply counts_inner hf rfl
    intro now
    apply (RedisClient.counts_incr hf _ _).zero_bind
    intro count
    split
    . exact (RedisClient.counts_expire hf _ _ _).zero_bind fun _ => Prog.counts_pure _
    . exact Prog.counts_pure _

theorem LogConsumer.counts_push (path : Bytes) (ns : Nat) : (push path ns).Counts f 0 :=
  (RedisClient.counts_xadd hf _ _ _).zero_bind fun _ => Prog.counts_pure _

theorem Gateway.counts_checkAuth (rule : Handle) (req : HttpRequest)
    : (checkAuth rule req).Counts f 0 := by
  apply counts_inner hf rfl
  intro r
  split
  . exact AuthPlugin.counts_validate hf _
  . exact Prog.counts_pure _

theorem Gateway.counts_checkLimit (rule : Handle) : (checkLimit rule).Counts f 0 := by
  apply counts_inner hf rfl
  intro r
  split
  . apply counts_inner hf rfl
    intro r
    apply (DistributedRateLimiter.counts_isAllowed hf _ _ _).zero_bind
    intro allowed
    cases allowed with
    | true => exact Prog.counts_pure _
    | false => exact counts_inner hf rfl fun r => RateLimitPlugin.counts_isAllowed hf _ _
  . exact Prog.counts_pure _

end Inner

/--
However the program returns, it has called `send` `n` times.
-/
abbrev Sends (n : Nat) (p : ApiProg α) : Prop := p.Counts ApiOp.isSend n

theorem sends_perform {o : ApiOp} (ho : o.isSend = false) {k : o.Reply → ApiProg β}
    (hk : ∀ r, Sends n (k r)) : Sends n (perform o >>= k) :=
  Prog.counts_perform_bind ho hk

theorem isSend_of_isInner (o : ApiOp) (h : o.isInner = true) : o.isSend = false := by
  cases o with
  | systemNow | readRule | command => rfl
  | add | steadyNow | routerMatch | send => contradiction

theorem LogConsumer.sends_push (path : Bytes) (ns : Nat) : Sends 0 (push path ns) :=
  counts_push isSend_of_isInner path ns

namespace Gateway

theorem sends_sendResponse (code : Nat) (body : Bytes) : Sends 1 (sendResponse code body) :=
  Prog.counts_perform (ApiOp.send (responseText code body))

theorem sends_checkAuth (rule : Handle) (req : HttpRequest) : Sends 0 (checkAuth rule req) :=
  counts_checkAuth isSend_of_isInner rule req

theorem sends_checkLimit (rule : Handle) : Sends 0 (checkLimit rule) :=
  counts_checkLimit isSend_of_isInner rule

theorem sends_respond (req : HttpRequest) (start : Int) : Sends 1 (respond req start) := by
  apply Prog.Counts.bind (m := 1) (n := 0) (sends_sendResponse _ _)
  intro _
  apply sends_perform rfl
  intro stop
  exact sends_perform rfl fun _ => LogConsumer.sends_push _ _

theorem sends_processMatched (rule : Handle) (req : HttpRequest) (start : Int)
    : Sends 1 (processMatched rule req start) := by
  apply (sends_checkAuth rule req).zero_bind
  intro authorized
  cases authorized with
  | false => exact sends_perform rfl fun _ => sends_sendResponse _ _
  | true =>
    apply (sends_checkLimit rule).zero_bind
    intro allowed
    cases allowed with
    | false => exact sends_perform rfl fun _ => sends_sendResponse _ _
    | true => exact sends_respond req start

def answers (result : Except StdException Unit) : Nat :=
  match result with
  | .ok _ => 1
  | .error _ => 0

theorem sends_of_returns {raw : Bytes} {h : List ApiEvent} {result : Except StdException Unit}
    (hr : Prog.Returns (processApiRequest raw) h result)
    : h.countP (fun e => e.op.isSend) = answers result := by
  unfold processApiRequest at hr
  obtain ⟨_, h, rfl, hr₁⟩ := Prog.returns_perform_bind.mp hr
  obtain ⟨start, h, rfl, hr₂⟩ := Prog.returns_perform_bind.mp hr₁
  rw [List.countP_cons_of_neg (by simp [ApiOp.isSend]), List.countP_cons_of_neg (by simp [ApiOp.isSend])]
  dsimp only at hr₂
  split at hr₂
  . obtain ⟨rfl, rfl⟩ := Prog.returns_pure.mp hr₂
    rfl
  . obtain ⟨_, h₁, h₂, rfl, hsend, hrest⟩ := Prog.returns_bind.mp hr₂
    obtain ⟨rfl, rfl⟩ := Prog.returns_pure.mp hrest
    rw [List.append_nil]
    exact sends_sendResponse _ _ _ _ hsend
  . obtain ⟨found, h, rfl, hr₃⟩ := Prog.returns_perform_bind.mp hr₂
    rw [List.countP_cons_of_neg (by simp [ApiOp.isSend])]
    split at hr₃
    . obtain ⟨_, h₁, h₂, rfl, hsend, hrest⟩ := Prog.returns_bind.mp hr₃
      obtain ⟨rfl, rfl⟩ := Prog.returns_pure.mp hrest
      rw [List.append_nil]
      exact sends_sendResponse _ _ _ _ hsend
    . obtain ⟨_, h₁, h₂, rfl, hmatched, hrest⟩ := Prog.returns_bind.mp hr₃
      obtain ⟨rfl, rfl⟩ := Prog.returns_pure.mp hrest
      rw [List.append_nil]
      exact sends_processMatched _ _ _ _ _ hmatched

instance (o : ApiOp) : Nonempty o.Reply := by
  cases o with
  | readRule rule => exact ⟨⟨[], false, 0⟩⟩
  | add | steadyNow | systemNow | routerMatch | command | send => exact ⟨default⟩

theorem sends_le_one {raw : Bytes} {h : List ApiEvent} {now : ApiProg (Except StdException Unit)}
    (hdoes : Prog.Does (processApiRequest raw) h now) : h.countP (fun e => e.op.isSend) ≤ 1 := by
  obtain ⟨h', result, hreturns⟩ := hdoes.exists_returns inferInstance
  have hsends := sends_of_returns hreturns
  rw [List.countP_append] at hsends
  unfold answers at hsends
  split at hsends <;> omega

end Gateway
end LFGateway
