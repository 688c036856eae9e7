import LFGateway.Foundation.Threads

/-!
This module contains phases of programs: an operation may only be performed in some phases, and it
leads to another one. A program that conforms keeps to this whatever the replies are, so that the
phase of a running call says what the rest of it may do.
-/

namespace Foundation

variable {Op : Type u} {Reply : Op → Type v} {α β : Type w} {Φ : Type p}

/--
Where an operation leads to from a phase, depending on its reply; `none` where it is not allowed.
-/
abbrev Phases (Op : Type u) (Reply : Op → Type v) (Φ : Type p) := Φ → (o : Op) → Reply o → Option Φ

namespace Phases

variable (δ : Phases Op Reply Φ)

/--
From phase `φ` on the program only does what is allowed, and where it returns, `post` holds of what
it returns and of the phase it ends in.
-/
def Conforms (post : α → Φ → Prop) (φ : Φ) : Prog Op Reply α → Prop
  | .ret a => post a φ
  | .op o next => ∀ r, ∃ φ', δ φ o r = some φ' ∧ Conforms post φ' (next r)

variable {δ} {φ φ' : Φ} {post : α → Φ → Prop} {p q : Prog Op Reply α} {h : List (Event Op Reply)}

theorem conforms_perform_bind {Reply : Op → Type w} {δ : Phases Op Reply Φ} {post : β → Φ → Prop}
    {o : Op} {f : Reply o → Prog Op Reply β}
    (hnext : ∀ r, ∃ φ', δ φ o r = some φ' ∧ δ.Conforms post φ' (f r))
    : δ.Conforms post φ (Prog.perform o >>= f) := hnext

theorem conforms_perform {Reply : Op → Type w} {δ : Phases Op Reply Φ} {o : Op}
    {post : Reply o → Φ → Prop} (hnext : ∀ r, ∃ φ', δ φ o r = some φ' ∧ post r φ')
    : δ.Conforms post φ (Prog.perform o) := hnext

theorem Conforms.mono {post' : α → Φ → Prop} (hp : δ.Conforms post φ p)
    (hpost : ∀ a φ, post a φ → post' a φ) : δ.Conforms post' φ p := by
  induction p generalizing φ with
  | ret a => exact hpost a φ hp
  | op o next ih =>
    intro r
    obtain ⟨φ', hφ', hnext⟩ := hp r
    exact ⟨φ', hφ', ih r hnext⟩

theorem Conforms.bind {post' : β → Φ → Prop} {f : α → Prog Op Reply β} (hp : δ.Conforms post φ p)
    (hf : ∀ a φ, post a φ → δ.Conforms post' φ (f a)) : δ.Conforms post' φ (p >>= f) := by
  induction p generalizing φ with
  | ret a => exact hf a φ hp
  | op o next ih =>
    intro r
    obtain ⟨φ', hφ', hnext⟩ := hp r
    exact ⟨φ', hφ', ih r hnext⟩

theorem conforms_lower {Op' : Type u'} {Reply : Op → Type w} {Reply' : Op' → Type v'}
    {δ : Phases Op' Reply' Φ} {I : Φ → Prop} {f : (o : Op) → Prog Op' Reply' (Reply o)}
    (hf : ∀ o φ, I φ → δ.Conforms (fun _ => I) φ (f o)) (p : Prog Op Reply α) {φ : Φ} (hφ : I φ)
    : δ.Conforms (fun _ => I) φ (p.lower f) := by
  induction p generalizing φ with
  | ret a => exact hφ
  | op o next ih => exact (hf o φ hφ).bind fun r φ hφ => ih r hφ

end Phases
end Foundation
