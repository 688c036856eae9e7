import LFGateway.Http.Errors
import LFGateway.Gateway.Lemmas.Sends

/-!
This module contains the requests that are never answered: the parser throws at them, and the task keeps
the exception to itself.
-/

namespace LFGateway

open Foundation

namespace Gateway

variable {raw : Bytes} {h : List ApiEvent} {result : Except StdException Unit}

/--
The client gets one answer, and no exception leaves the task.
-/
def AnsweredOnce (h : List ApiEvent) (result : Except StdException Unit) : Prop :=
  h.countP (fun e => e.op.isSend) = 1 ∧ result = .ok ()

theorem throws_of_returns (hr : Prog.Returns (processApiRequest raw) h result)
    : (∃ e, result = .error e)
        ↔
      ∃ e, (HttpParser.parse HttpParser.new raw HttpRequest.new).result = .error e := by
  unfold processApiRequest at hr
  obtain ⟨_, h, rfl, hr₁⟩ := Prog.returns_perform_bind.mp hr
  obtain ⟨start, h, rfl, hr₂⟩ := Prog.returns_perform_bind.mp hr₁
  dsimp only at hr₂
  split at hr₂
  . next e hparse =>
    obtain ⟨_, rfl⟩ := Prog.returns_pure.mp hr₂
    rw [hparse]
    simp
  . next hparse =>
    obtain ⟨_, _, _, _, _, hrest⟩ := Prog.returns_bind.mp hr₂
    obtain ⟨_, rfl⟩ := Prog.returns_pure.mp hrest
    rw [hparse]
    simp
  . next hparse =>
    rw [hparse]
    obtain ⟨found, h, rfl, hr₃⟩ := Prog.returns_perform_bind.mp hr₂
    split at hr₃
    . obtain ⟨_, _, _, _, _, hrest⟩ := Prog.returns_bind.mp hr₃
      obtain ⟨_, rfl⟩ := Prog.returns_pure.mp hrest
      simp
    . obtain ⟨_, _, _, _, _, hrest⟩ := Prog.returns_bind.mp hr₃
      obtain ⟨_, rfl⟩ := Prog.returns_pure.mp hrest
      simp

/--
Whatever the table and Redis reply, the task comes to its end, and the request is answered once if and
only if it is not one with a bad length.
-/
theorem answeredOnce_iff (raw : Bytes)
    : (∀ h now, Prog.Does (processApiRequest raw) h now →
          ∃ h' result, Prog.Returns (processApiRequest raw) (h ++ h') result) ∧
        ∀ h result, Prog.Returns (processApiRequest raw) h result →
          (AnsweredOnce h result ↔ ¬HttpParser.BadLength raw) := by
  constructor
  . intro h now hdoes
    exact hdoes.exists_returns inferInstance
  . intro h result hr
    rw [← HttpParser.throws_iff, ← throws_of_returns hr, AnsweredOnce, sends_of_returns hr]
    cases result <;> simp [answers]

def noReply : (o : ApiOp) → o.Reply
  | .add _ _ => ()
  | .steadyNow => (0 : Int)
  | .systemNow => (0 : Int)
  | .routerMatch _ => none
  | .readRule _ => (⟨[], false, 0⟩ : RouteRule)
  | .command _ _ => none
  | .send _ => ()

theorem answeredOnce_iff_noReply
    : let played := Prog.play noReply (processApiRequest (Bytes.ofAscii "GET / HTTP/1.1\r\n\r\n"))
      AnsweredOnce played.1 played.2 := by
  apply ((answeredOnce_iff _).2 _ _ (Prog.returns_play noReply _)).mpr
  rw [← HttpParser.throws_iff]
  rintro ⟨e, he⟩
  have hok : (HttpParser.parse HttpParser.new (Bytes.ofAscii "GET / HTTP/1.1\r\n\r\n") HttpRequest.new).result
      = .ok true := by decide +kernel
  rw [hok] at he
  contradiction

def badLength : Bytes := Bytes.ofAscii "POST / HTTP/1.1\r\nContent-Length: abc\r\n\r\n"

theorem badLength_badLength : HttpParser.BadLength badLength := by
  refine ⟨Bytes.ofAscii "/", Bytes.ofAscii "HTTP/1.1", [Bytes.ofAscii "Content-Length: abc"],
    Bytes.ofAscii "abc", [], by decide, by decide, by decide, by decide, by decide, ?_⟩
  have herror : stoi (Bytes.ofAscii "abc") = .error .invalid_argument := by decide
  simp [herror]

theorem not_answeredOnce_badLength
    : let played := Prog.play noReply (processApiRequest badLength)
      Prog.Returns (processApiRequest badLength) played.1 played.2 ∧
        ¬AnsweredOnce played.1 played.2 := by
  have hreturns := Prog.returns_play noReply (processApiRequest badLength)
  refine ⟨hreturns, ?_⟩
  obtain ⟨e, he⟩ := (throws_of_returns hreturns).mpr ((HttpParser.throws_iff _).mpr badLength_badLength)
  rintro ⟨_, hok⟩
  rw [he] at hok
  contradiction

end Gateway
end LFGateway
