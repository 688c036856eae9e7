import LFGateway.Logger.Impl

/-!
This module contains what `AsyncLogger` keeps of the messages it was given: each is in the file, in
`back_buffer_` or in `front_buffer_`, in the order of the calls, and what `front_buffer_` holds when
the backend leaves its loop stays there.
-/

namespace LFGateway
namespace AsyncLogger

open Foundation

variable {Msg : Type u} {logger logger' : AsyncLogger Msg}

inductive Moves (logger : AsyncLogger Msg) : Label Msg → AsyncLogger Msg → Prop where
  | init (hbackend : logger.backend = .notStarted) (hdestructor : logger.destructor = .notStarted)
      : Moves logger .init { logger with running_ := true, backend := .opening }
  | log (msg : Msg) (hdestructor : logger.destructor ≠ .returned)
      : Moves logger (.log msg) { logger with
          front_buffer_ := logger.front_buffer_ ++ [msg]
          appended := logger.appended ++ [msg]
        }
  | logReturn (k : Nat) (hk : k < logger.appended.length) (hnew : k ∉ logger.answered)
      : Moves logger (.logReturn k) { logger with answered := k :: logger.answered }
  | openFile (hbackend : logger.backend = .opening)
      : Moves logger .openFile { logger with backend := .testing }
  | enter (hbackend : logger.backend = .testing) (hrunning : logger.running_ = true)
      : Moves logger .test { logger with backend := .waiting }
  | leave (hbackend : logger.backend = .testing) (hrunning : logger.running_ = false)
      : Moves logger .test { logger with backend := .exited }
  | swap (timeout : Bool) (hbackend : logger.backend = .waiting)
      : Moves logger (.swap timeout) { logger with
          front_buffer_ := logger.back_buffer_
          back_buffer_ := logger.front_buffer_
          backend := .writing 0
        }
  | write (k : Nat) (msg : Msg) (hbackend : logger.backend = .writing k)
      (hk : logger.back_buffer_[k]? = some msg)
      : Moves logger .write { logger with
          file := logger.file ++ [msg]
          backend := .writing (k + 1)
        }
  | clear (k : Nat) (hbackend : logger.backend = .writing k) (hk : logger.back_buffer_[k]? = none)
      : Moves logger .write { logger with back_buffer_ := [], backend := .testing }
  | destroy (hdestructor : logger.destructor = .notStarted)
      : Moves logger .destroy { logger with destructor := .storing, promised := logger.answered }
  | store (hdestructor : logger.destructor = .storing)
      : Moves logger .store { logger with running_ := false, destructor := .notifying }
  | notifyAll (hdestructor : logger.destructor = .notifying)
      : Moves logger .notifyAll { logger with destructor := .joining }
  | join (hdestructor : logger.destructor = .joining)
      (hbackend : logger.backend = .notStarted ∨ logger.backend = .exited)
      : Moves logger .join { logger with destructor := .returned }

theorem moves_of_stepCaller {l : Label Msg} (hstep : stepCaller logger l = some logger')
    : Moves logger l logger' := by
  unfold stepCaller at hstep
  split at hstep
  . split at hstep
    . next hinit =>
      rw [← Option.some.inj hstep]
      exact .init hinit.1 hinit.2
    . contradiction
  . split at hstep
    . contradiction
    . next msg hdestructor =>
      rw [← Option.some.inj hstep]
      exact .log msg hdestructor
  . split at hstep
    . next k hk =>
      rw [← Option.some.inj hstep]
      exact .logReturn k hk.1 hk.2
    . contradiction
  . contradiction

theorem moves_of_stepBackend {l : Label Msg} (hstep : stepBackend logger l = some logger')
    : Moves logger l logger' := by
  unfold stepBackend at hstep
  split at hstep
  . split at hstep
    . next hbackend =>
      rw [← Option.some.inj hstep]
      exact .openFile hbackend
    . contradiction
  . split at hstep
    . next hbackend =>
      rw [← Option.some.inj hstep]
      split
      . next hrunning => exact .enter hbackend hrunning
      . next hrunning => exact .leave hbackend (by simpa using hrunning)
    . contradiction
  . split at hstep
    . next timeout hbackend =>
      rw [← Option.some.inj hstep]
      exact .swap timeout hbackend.1
    . contradiction
  . split at hstep
    . next k hbackend =>
      split at hstep
      . next msg hk =>
        rw [← Option.some.inj hstep]
        exact .write k msg hbackend hk
      . next hk =>
        rw [← Option.some.inj hstep]
        exact .clear k hbackend hk
    . contradiction
  . contradiction

theorem moves_of_stepDestructor {l : Label Msg} (hstep : stepDestructor logger l = some logger')
    : Moves logger l logger' := by
  unfold stepDestructor at hstep
  split at hstep
  . split at hstep
    . next hdestructor =>
      rw [← Option.some.inj hstep]
      exact .destroy hdestructor
    . contradiction
  . split at hstep
    . next hdestructor =>
      rw [← Option.some.inj hstep]
      exact .store hdestructor
    . contradiction
  . split at hstep
    . next hdestructor =>
      rw [← Option.some.inj hstep]
      exact .notifyAll hdestructor
    . contradiction
  . split at hstep
    . next hjoin =>
      rw [← Option.some.inj hstep]
      exact .join hjoin.1 hjoin.2
    . contradiction
  . contradiction

theorem moves_of_step {l : Label Msg} (hstep : step logger l = some logger')
    : Moves logger l logger' := by
  unfold step at hstep
  split at hstep
  . exact moves_of_stepCaller hstep
  . exact moves_of_stepCaller hstep
  . exact moves_of_stepCaller hstep
  . exact moves_of_stepBackend hstep
  . exact moves_of_stepBackend hstep
  . exact moves_of_stepBackend hstep
  . exact moves_of_stepBackend hstep
  . exact moves_of_stepDestructor hstep
  . exact moves_of_stepDestructor hstep
  . exact moves_of_stepDestructor hstep
  . exact moves_of_stepDestructor hstep

def unwritten (logger : AsyncLogger Msg) : List Msg :=
  match logger.backend with
  | .writing k => logger.back_buffer_.drop k
  | .notStarted | .opening | .testing | .waiting | .exited => []

structure Inv (old : List Msg) (logger : AsyncLogger Msg) : Prop where
  kept : old <+: logger.file
  /-- every message is in one place, in the order of the calls -/
  conserved : logger.file ++ logger.unwritten ++ logger.front_buffer_ = old ++ logger.appended
  /-- outside the write phase `back_buffer_` is empty -/
  cleared : (∀ k, logger.backend ≠ .writing k) → logger.back_buffer_ = []
  answered : ∀ k ∈ logger.answered, k < logger.appended.length
  promised : ∀ k ∈ logger.promised, k < logger.appended.length
  stopped : logger.destructor ≠ .notStarted → logger.destructor ≠ .storing → logger.running_ = false
  joined : logger.destructor = .returned → logger.backend = .notStarted ∨ logger.backend = .exited

theorem unwritten_writing {k : Nat} (h : logger.backend = .writing k)
    : logger.unwritten = logger.back_buffer_.drop k := by
  simp only [unwritten, h]

theorem unwritten_of_ne_writing (h : ∀ k, logger.backend ≠ .writing k) : logger.unwritten = [] := by
  cases hbackend : logger.backend with
  | writing k => exact absurd hbackend (h k)
  | notStarted | opening | testing | waiting | exited => simp only [unwritten, hbackend]

variable {old : List Msg}

theorem Inv.constructed : Inv old (constructed old) where
  kept := List.prefix_rfl
  conserved := by simp [AsyncLogger.constructed, unwritten]
  cleared := fun _ => rfl
  answered := by simp [AsyncLogger.constructed]
  promised := by simp [AsyncLogger.constructed]
  stopped := fun _ _ => rfl
  joined := by simp [AsyncLogger.constructed]

theorem Inv.setBackend (hinv : Inv old logger) {backend : Backend} {running_ : Bool}
    (hfrom : ∀ k, logger.backend ≠ .writing k) (hto : ∀ k, backend ≠ .writing k)
    (hstopped : logger.destructor ≠ .notStarted → logger.destructor ≠ .storing → running_ = false)
    (hjoined : logger.destructor ≠ .returned)
    : Inv old { logger with backend, running_ } where
  kept := hinv.kept
  conserved := by
    have hconserved := hinv.conserved
    rw [unwritten_of_ne_writing hfrom] at hconserved
    have hnone : unwritten { logger with backend, running_ } = [] := unwritten_of_ne_writing hto
    rw [hnone]
    exact hconserved
  cleared := fun _ => hinv.cleared hfrom
  answered := hinv.answered
  promised := hinv.promised
  stopped := hstopped
  joined := fun h => absurd h hjoined

theorem Inv.ne_returned (hinv : Inv old logger) (h : logger.backend ≠ .notStarted)
    (h' : logger.backend ≠ .exited) : logger.destructor ≠ .returned := by
  intro hreturned
  cases hinv.joined hreturned with
  | inl hbackend => exact h hbackend
  | inr hbackend => exact h' hbackend

theorem Inv.step {l : Label Msg} (hinv : Inv old logger) (hmoves : Moves logger l logger')
    : Inv old logger' := by
  cases hmoves with
  | init hbackend hdestructor =>
    apply hinv.setBackend
    . simp [hbackend]
    . simp
    . intro h
      exact absurd hdestructor h
    . simp [hdestructor]
  | log msg hdestructor =>
    refine { hinv with conserved := ?_, answered := ?_, promised := ?_ }
    . have hconserved := hinv.conserved
      simp only [← List.append_assoc]
      rw [← hconserved]
      rfl
    . intro k hk
      have := hinv.answered k hk
      simp only [List.length_append, List.length_singleton]
      omega
    . intro k hk
      have := hinv.promised k hk
      simp only [List.length_append, List.length_singleton]
      omega
  | logReturn k hk _ =>
    refine { hinv with answered := ?_ }
    intro j hj
    cases List.mem_cons.mp hj with
    | inl heq => rwa [heq]
    | inr hmem => exact hinv.answered j hmem
  | openFile hbackend =>
    apply hinv.setBackend
    . simp [hbackend]
    . simp
    . exact hinv.stopped
    . exact hinv.ne_returned (by simp [hbackend]) (by simp [hbackend])
  | enter hbackend | leave hbackend =>
    apply hinv.setBackend
    . simp [hbackend]
    . simp
    . exact hinv.stopped
    . exact hinv.ne_returned (by simp [hbackend]) (by simp [hbackend])
  | swap timeout hbackend =>
    have hcleared := hinv.cleared (by simp [hbackend])
    have hconserved := hinv.conserved
    rw [unwritten_of_ne_writing (by simp [hbackend])] at hconserved
    refine { hinv with conserved := ?_, cleared := ?_, joined := ?_ }
    . rw [unwritten_writing rfl, hcleared, List.drop_zero, List.append_nil]
      rwa [List.append_nil] at hconserved
    . intro h
      exact absurd rfl (h 0)
    . intro h
      exact absurd h (hinv.ne_returned (by simp [hbackend]) (by simp [hbackend]))
  | write k msg hbackend hk =>
    have hconserved := hinv.conserved
    rw [unwritten_writing hbackend] at hconserved
    refine { hinv with kept := ?_, conserved := ?_, cleared := ?_, joined := ?_ }
    . exact hinv.kept.trans (List.prefix_append _ _)
    . rw [unwritten_writing rfl]
      obtain ⟨hlt, rfl⟩ := List.getElem?_eq_some_iff.mp hk
      rw [List.drop_eq_getElem_cons hlt] at hconserved
      simpa using hconserved
    . intro h
      exact absurd rfl (h (k + 1))
    . intro h
      exact absurd h (hinv.ne_returned (by simp [hbackend]) (by simp [hbackend]))
  | clear k hbackend hk =>
    have hconserved := hinv.conserved
    rw [unwritten_writing hbackend] at hconserved
    rw [List.drop_eq_nil_of_le (List.getElem?_eq_none_iff.mp hk)] at hconserved
    refine { hinv with conserved := ?_, cleared := fun _ => rfl, joined := ?_ }
    . rw [unwritten_of_ne_writing (by simp)]
      exact hconserved
    . intro h
      exact absurd h (hinv.ne_returned (by simp [hbackend]) (by simp [hbackend]))
  | destroy hdestructor =>
    refine { hinv with promised := hinv.answered, stopped := ?_, joined := ?_ }
    . intro _ hstoring
      exact absurd rfl hstoring
    . intro h
      cases h
  | store hdestructor =>
    refine { hinv with stopped := fun _ _ => rfl, joined := ?_ }
    intro h
    cases h
  | notifyAll hdestructor =>
    refine { hinv with stopped := ?_, joined := ?_ }
    . intro _ _
      exact hinv.stopped (by simp [hdestructor]) (by simp [hdestructor])
    . intro h
      cases h
  | join hdestructor hbackend =>
    refine { hinv with stopped := ?_, joined := fun _ => hbackend }
    intro _ _
    exact hinv.stopped (by simp [hdestructor]) (by simp [hdestructor])

def Stored (logger : AsyncLogger Msg) : Prop :=
  logger.destructor ≠ .notStarted ∧ logger.destructor ≠ .storing

/--
No promised message is in `front_buffer_`.
-/
def HandedOver (logger : AsyncLogger Msg) : Prop :=
  ∀ k ∈ logger.promised, k + logger.front_buffer_.length < logger.appended.length

instance : Decidable logger.HandedOver :=
  inferInstanceAs (Decidable (∀ k ∈ logger.promised, _))

/--
`running_ = false` meets a backend that will still swap the buffers, or nothing it has to swap.
-/
def KeepsPromises (logger : AsyncLogger Msg) : Label Msg → Prop
  | .store => logger.backend = .waiting ∨ logger.HandedOver
  | _ => True

instance (l : Label Msg) : Decidable (logger.KeepsPromises l) :=
  match l with
  | .store => inferInstanceAs (Decidable (logger.backend = .waiting ∨ logger.HandedOver))
  | .init | .log _ | .logReturn _ | .openFile | .test | .swap _ | .write | .destroy | .notifyAll
  | .join => inferInstanceAs (Decidable True)

/--
The promised messages will be written, provided that the backend does not test `running_` again
before it swaps.
-/
def Safe (logger : AsyncLogger Msg) : Prop :=
  logger.Stored → logger.backend = .waiting ∨ logger.HandedOver

theorem safe_iff_of_step {l : Label Msg} (hinv : Inv old logger) (hmoves : Moves logger l logger')
    : logger'.Safe ↔ logger.Safe ∧ KeepsPromises logger l := by
  cases hmoves with
  | init hbackend hdestructor => simp [Safe, Stored, KeepsPromises, hdestructor]
  | log msg hdestructor =>
    have hhanded : ∀ k, k + (logger.front_buffer_.length + 1) < logger.appended.length + 1
        ↔ k + logger.front_buffer_.length < logger.appended.length := by omega
    simp [Safe, Stored, KeepsPromises, HandedOver, hhanded]
  | logReturn k hk hnew => simp [Safe, Stored, KeepsPromises, HandedOver]
  | openFile hbackend | leave hbackend =>
    simp [Safe, Stored, KeepsPromises, HandedOver, hbackend]
  | enter hbackend hrunning =>
    have hstored : ¬logger.Stored := by
      intro h
      simp [hinv.stopped h.1 h.2] at hrunning
    constructor
    . intro _
      exact ⟨fun h => absurd h hstored, trivial⟩
    . intro _ h
      exact absurd h hstored
  | swap timeout hbackend =>
    -- what waits in `front_buffer_` is taken, so the promise is kept from here on
    have hcleared := hinv.cleared (by simp [hbackend])
    have hpromised := hinv.promised
    simp only [Safe, Stored, KeepsPromises, HandedOver, hbackend, hcleared, List.length_nil]
    simp only [Nat.add_zero, true_or, implies_true, and_true, iff_true]
    exact fun _ => .inr hpromised
  | write k msg hbackend hk => simp [Safe, Stored, KeepsPromises, HandedOver, hbackend]
  | clear k hbackend hk => simp [Safe, Stored, KeepsPromises, HandedOver, hbackend]
  | destroy hdestructor => simp [Safe, Stored, KeepsPromises, hdestructor]
  | store hdestructor => simp [Safe, Stored, KeepsPromises, HandedOver, hdestructor]
  | notifyAll hdestructor => simp [Safe, Stored, KeepsPromises, HandedOver, hdestructor]
  | join hdestructor hbackend => simp [Safe, Stored, KeepsPromises, HandedOver, hdestructor]

/--
The file has been given a part of the messages, each once and in the order in which `log` appended
them, and the promised ones are in this part.
-/
def NothingLost (old : List Msg) (logger : AsyncLogger Msg) : Prop :=
  ∃ written, logger.file = old ++ written ∧ written <+: logger.appended ∧
    ∀ k ∈ logger.promised, k < written.length

theorem Inv.nothingLost_iff_handedOver (hinv : Inv old logger) (h : logger.destructor = .returned)
    : NothingLost old logger ↔ logger.HandedOver := by
  have hconserved := hinv.conserved
  have hbackend : ∀ k, logger.backend ≠ .writing k := by
    intro k hk
    cases hinv.joined h with
    | inl hnone | inr hnone => simp [hnone] at hk
  rw [unwritten_of_ne_writing hbackend, List.append_nil] at hconserved
  obtain ⟨written, hwritten⟩ := hinv.kept
  rw [← hwritten, List.append_assoc, List.append_cancel_left_eq] at hconserved
  have hlength := congrArg List.length hconserved
  rw [List.length_append] at hlength
  constructor
  . intro ⟨written', hfile, _, hpromised⟩ k hk
    have hlt := hpromised k hk
    rw [hfile, List.append_cancel_left_eq] at hwritten
    rw [hwritten] at hlength
    omega
  . intro hhanded
    refine ⟨written, hwritten.symm, ⟨_, hconserved⟩, ?_⟩
    intro k hk
    have hlt := hhanded k hk
    omega

/--
A message whose `log` returned before the destructor started is lost in exactly the runs in which
`running_ = false` finds it in `front_buffer_` and the backend not between its test and its swap.
-/
theorem nothingLost_iff (old : List Msg) (ls : List (Label Msg)) (logger : AsyncLogger Msg)
    (h : exec step (constructed old) ls = some logger) (hreturned : logger.destructor = .returned)
    : NothingLost old logger ↔ Meets step KeepsPromises (constructed old) ls := by
  have hinv : Inv old logger :=
    exec_invariant step (fun _ _ _ hs hstep => hs.step (moves_of_step hstep)) Inv.constructed h
  have hsafe : logger.Safe ↔ (constructed old).Safe ∧ Meets step KeepsPromises (constructed old) ls :=
    iff_meets_of_step_invariant step KeepsPromises
      (fun _ _ _ hs hstep => hs.step (moves_of_step hstep))
      (fun _ _ _ hs hstep => safe_iff_of_step hs (moves_of_step hstep)) Inv.constructed h
  have hstart : (constructed old).Safe := fun hstored => absurd rfl hstored.1
  have hstored : logger.Stored := by simp [Stored, hreturned]
  have hwaiting : logger.backend ≠ .waiting := by
    cases hinv.joined hreturned with
    | inl hbackend | inr hbackend => simp [hbackend]
  have hend : logger.Safe ↔ logger.HandedOver := by
    constructor
    . intro h
      exact (h hstored).resolve_left hwaiting
    . intro h _
      exact .inr h
  rw [hinv.nothingLost_iff_handedOver hreturned, ← hend, hsafe]
  exact and_iff_right hstart

/--
Two messages, one swapped and written, one appended while the backend waits for the second time.
-/
def shutdownWhileWaiting : List (Label Nat) :=
  [.init, .openFile, .test, .log 1, .swap true, .logReturn 0, .write, .write, .test, .log 2,
    .logReturn 1, .destroy, .store, .notifyAll, .swap false, .write, .write, .test, .join]

theorem nothingLost_iff_waiting
    : ∃ logger, exec step (constructed []) shutdownWhileWaiting = some logger ∧
        logger.promised = [1, 0] ∧ NothingLost [] logger := by
  have hend := Option.eq_some_of_isSome
    (o := exec step (constructed []) shutdownWhileWaiting) (by decide)
  refine ⟨_, hend, by decide, ?_⟩
  exact (nothingLost_iff [] shutdownWhileWaiting _ hend (by decide)).mpr (by decide)

/--
The same two messages, the second appended while the backend writes the first.
-/
def shutdownWhileWriting : List (Label Nat) :=
  [.init, .openFile, .test, .log 1, .logReturn 0, .swap true, .write, .log 2, .logReturn 1,
    .destroy, .store, .notifyAll, .write, .test, .join]

theorem loses_message_while_writing
    : ∃ logger, exec step (constructed []) shutdownWhileWriting = some logger ∧
        logger.destructor = .returned ∧ logger.promised = [1, 0] ∧ logger.appended = [1, 2] ∧
        logger.file = [1] ∧ ¬NothingLost [] logger := by
  have hend := Option.eq_some_of_isSome
    (o := exec step (constructed []) shutdownWhileWriting) (by decide)
  refine ⟨_, hend, by decide, by decide, by decide, by decide, ?_⟩
  intro ⟨written, hfile, _, hpromised⟩
  have hwritten : written = [1] := hfile.symm.trans (by decide)
  have hlt := hpromised 1 (by decide)
  simp [hwritten] at hlt

end AsyncLogger
end LFGateway
