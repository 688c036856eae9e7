import LFGateway.Foundation.Prog

/-!
This module contains what a program ensures in surroundings that only give certain replies: the weakest
condition under which whatever it returns is right.
-/

namespace Foundation

variable {Op : Type u} {Reply : Op → Type v} {α β : Type w} {σ : Type s}

/--
The replies an operation may get in a state, each with the state it leads to.
-/
abbrev Surroundings (Op : Type u) (Reply : Op → Type v) (σ : Type s) := σ → (o : Op) → Reply o → σ → Prop

namespace Surroundings

variable (δ : Surroundings Op Reply σ)

/--
The events can happen one after the other.
-/
inductive Happen : σ → List (Event Op Reply) → σ → Prop where
  | nil (s : σ) : Happen s [] s
  | cons {s s' s'' : σ} {e : Event Op Reply} {h : List (Event Op Reply)} (hreply : δ s e.op e.reply s')
      (hrest : Happen s' h s'') : Happen s (e :: h) s''

/--
If the program returns, `post` holds of what it returns and of the state that is left.
-/
def Ensures (post : α → σ → Prop) (s : σ) : Prog Op Reply α → Prop
  | .ret a => post a s
  | .op o next => ∀ r s', δ s o r s' → Ensures post s' (next r)

variable {δ} {s s' : σ} {post : α → σ → Prop} {p : Prog Op Reply α} {h : List (Event Op Reply)} {a : α}

theorem Ensures.of_returns (hp : δ.Ensures post s p) (hreturns : Prog.Returns p h a)
    (hhappen : δ.Happen s h s') : post a s' := by
  induction p generalizing s h with
  | ret b =>
    obtain ⟨rfl, rfl⟩ := Prog.returns_ret.mp hreturns
    cases hhappen
    exact hp
  | op o next ih =>
    obtain ⟨r, h, rfl, hrest⟩ := Prog.returns_op.mp hreturns
    cases hhappen with
    | cons hreply hhappen => exact ih r (hp r _ hreply) hrest hhappen

theorem Ensures.mono {post' : α → σ → Prop} (hp : δ.Ensures post s p)
    (hpost : ∀ a s, post a s → post' a s) : δ.Ensures post' s p := by
  induction p generalizing s with
  | ret a => exact hpost a s hp
  | op o next ih => exact fun r s' hreply => ih r (hp r s' hreply)

theorem Ensures.bind {post' : β → σ → Prop} {f : α → Prog Op Reply β} (hp : δ.Ensures post s p)
    (hf : ∀ a s, post a s → δ.Ensures post' s (f a)) : δ.Ensures post' s (p >>= f) := by
  induction p generalizing s with
  | ret a => exact hf a s hp
  | op o next ih => exact fun r s' hreply => ih r (hp r s' hreply)

theorem ensures_perform_bind {Reply : Op → Type w} {δ : Surroundings Op Reply σ} {post : β → σ → Prop}
    {o : Op} {f : Reply o → Prog Op Reply β}
    (hnext : ∀ r s', δ s o r s' → δ.Ensures post s' (f r)) : δ.Ensures post s (Prog.perform o >>= f) :=
  hnext

theorem ensures_perform {Reply : Op → Type w} {δ : Surroundings Op Reply σ} {o : Op}
    {post : Reply o → σ → Prop} (hpost : ∀ r s', δ s o r s' → post r s')
    : δ.Ensures post s (Prog.perform o) :=
  hpost

theorem ensures_lower {Op' : Type u'} {Reply : Op → Type w} {Reply' : Op' → Type v'}
    {δ : Surroundings Op Reply σ} {δ' : Surroundings Op' Reply' σ} {post : α → σ → Prop}
    {f : (o : Op) → Prog Op' Reply' (Reply o)} {p : Prog Op Reply α}
    (hf : ∀ o s, δ'.Ensures (fun r s' => δ s o r s') s (f o)) (hp : δ.Ensures post s p)
    : δ'.Ensures post s (p.lower f) := by
  induction p generalizing s with
  | ret a => exact hp
  | op o next ih => exact (hf o s).bind fun r s' hreply => ih r (hp r s' hreply)

end Surroundings
end Foundation
