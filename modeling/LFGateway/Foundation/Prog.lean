/-!
This module contains programs that interact with their surroundings: a program either returns or
performs an operation and goes on with the reply. What a program did is the list of its operations
with their replies, so that facts about a program hold whatever the replies were.
-/

namespace Foundation

/--
A program that performs operations `Op` and returns an `α`.
-/
inductive Prog (Op : Type u) (Reply : Op → Type v) (α : Type w) where
  | ret (a : α)
  | op (o : Op) (next : Reply o → Prog Op Reply α)

structure Event (Op : Type u) (Reply : Op → Type v) where
  op : Op
  reply : Reply op

namespace Prog

variable {Op : Type u} {Reply : Op → Type v} {α β γ : Type w}

protected def bind : Prog Op Reply α → (α → Prog Op Reply β) → Prog Op Reply β
  | .ret a, f => f a
  | .op o next, f => .op o fun r => (next r).bind f

instance : Monad (Prog Op Reply) where
  pure := .ret
  bind := Prog.bind

theorem bind_ret (p : Prog Op Reply α) : p.bind .ret = p := by
  induction p with
  | ret a => rfl
  | op o next ih =>
    rw [Prog.bind]
    congr 1
    funext r
    exact ih r

theorem bind_bind (p : Prog Op Reply α) (f : α → Prog Op Reply β) (g : β → Prog Op Reply γ)
    : (p.bind f).bind g = p.bind fun a => (f a).bind g := by
  induction p with
  | ret a => rfl
  | op o next ih =>
    simp only [Prog.bind]
    congr 1
    funext r
    exact ih r

instance : LawfulMonad (Prog Op Reply) := LawfulMonad.mk' _ bind_ret (fun _ _ => rfl) bind_bind

def perform {Reply : Op → Type w} (o : Op) : Prog Op Reply (Reply o) := .op o .ret

inductive Does : Prog Op Reply α → List (Event Op Reply) → Prog Op Reply α → Prop where
  | nil (p : Prog Op Reply α) : Does p [] p
  | cons {o : Op} {next : Reply o → Prog Op Reply α} {r : Reply o} {h : List (Event Op Reply)}
      {q : Prog Op Reply α} (hrest : Does (next r) h q) : Does (.op o next) (⟨o, r⟩ :: h) q

def Returns (p : Prog Op Reply α) (h : List (Event Op Reply)) (a : α) : Prop := Does p h (.ret a)

variable {h h' : List (Event Op Reply)} {p q : Prog Op Reply α}

theorem Does.snoc {o : Op} {next : Reply o → Prog Op Reply α} (hdoes : Does p h (.op o next))
    (r : Reply o) : Does p (h ++ [⟨o, r⟩]) (next r) := by
  generalize hq : Prog.op o next = q at hdoes
  induction hdoes with
  | nil p =>
    subst hq
    exact .cons (.nil _)
  | cons _ ih => exact .cons (ih hq)

theorem Does.trans {r : Prog Op Reply α} (hdoes : Does p h q) (hrest : Does q h' r)
    : Does p (h ++ h') r := by
  induction hdoes with
  | nil p => exact hrest
  | cons _ ih => exact .cons (ih hrest)

theorem returns_ret {a b : α} : Returns (.ret a : Prog Op Reply α) h b ↔ h = [] ∧ a = b := by
  constructor
  . intro hreturns
    cases hreturns
    exact ⟨rfl, rfl⟩
  . rintro ⟨rfl, rfl⟩
    exact .nil _

theorem returns_op {o : Op} {next : Reply o → Prog Op Reply α} {a : α}
    : Returns (.op o next) h a ↔ ∃ r h', h = ⟨o, r⟩ :: h' ∧ Returns (next r) h' a := by
  constructor
  . intro hreturns
    cases hreturns with
    | cons hrest => exact ⟨_, _, rfl, hrest⟩
  . rintro ⟨r, h', rfl, hrest⟩
    exact .cons hrest

@[simp]
theorem returns_pure {a b : α} : Returns (pure a : Prog Op Reply α) h b ↔ h = [] ∧ a = b :=
  returns_ret

theorem returns_bind {f : α → Prog Op Reply β} {b : β}
    : Returns (p >>= f) h b ↔ ∃ a h₁ h₂, h = h₁ ++ h₂ ∧ Returns p h₁ a ∧ Returns (f a) h₂ b := by
  induction p generalizing h with
  | ret a =>
    constructor
    . intro hreturns
      exact ⟨a, [], h, rfl, .nil _, hreturns⟩
    . rintro ⟨a', h₁, h₂, rfl, hfirst, hsecond⟩
      obtain ⟨rfl, rfl⟩ := returns_ret.mp hfirst
      exact hsecond
  | op o next ih =>
    constructor
    . intro hreturns
      obtain ⟨r, h', rfl, hrest⟩ := returns_op.mp hreturns
      obtain ⟨a, h₁, h₂, rfl, hfirst, hsecond⟩ := (ih r).mp hrest
      exact ⟨a, ⟨o, r⟩ :: h₁, h₂, rfl, .cons hfirst, hsecond⟩
    . rintro ⟨a, h₁, h₂, rfl, hfirst, hsecond⟩
      obtain ⟨r, h', rfl, hrest⟩ := returns_op.mp hfirst
      exact returns_op.mpr ⟨r, h' ++ h₂, rfl, (ih r).mpr ⟨a, h', h₂, rfl, hrest, hsecond⟩⟩

theorem returns_perform {Reply : Op → Type w} {h : List (Event Op Reply)} {o : Op} {r : Reply o}
    : Returns (perform o) h r ↔ h = [⟨o, r⟩] := by
  unfold perform
  rw [returns_op]
  constructor
  . rintro ⟨r', h', rfl, hrest⟩
    obtain ⟨rfl, rfl⟩ := returns_ret.mp hrest
    rfl
  . rintro rfl
    exact ⟨r, [], rfl, .nil _⟩

theorem returns_perform_bind {Reply : Op → Type w} {h : List (Event Op Reply)} {o : Op}
    {f : Reply o → Prog Op Reply β} {b : β}
    : Returns (perform o >>= f) h b ↔ ∃ r h', h = ⟨o, r⟩ :: h' ∧ Returns (f r) h' b :=
  returns_op

/--
A program with each of its operations done by a program over other operations.
-/
def lower {Op' : Type u'} {Reply : Op → Type w} {Reply' : Op' → Type v'}
    (f : (o : Op) → Prog Op' Reply' (Reply o)) : Prog Op Reply α → Prog Op' Reply' α
  | .ret a => .ret a
  | .op o next => (f o).bind fun r => lower f (next r)

theorem lower_perform_bind {Op' : Type u'} {Reply : Op → Type w} {Reply' : Op' → Type v'}
    {f : (o : Op) → Prog Op' Reply' (Reply o)} {o : Op} {g : Reply o → Prog Op Reply β}
    : (Prog.perform o >>= g).lower f = f o >>= fun r => (g r).lower f := rfl

section Play

variable (reply : (o : Op) → Reply o)

/--
What a program does and returns if every operation gets the reply that `reply` has for it.
-/
def play : Prog Op Reply α → List (Event Op Reply) × α
  | .ret a => ([], a)
  | .op o next => (⟨o, reply o⟩ :: (play (next (reply o))).1, (play (next (reply o))).2)

theorem returns_play (p : Prog Op Reply α) : Returns p (play reply p).1 (play reply p).2 := by
  induction p with
  | ret a => exact .nil _
  | op o next ih => exact .cons (ih (reply o))

theorem eq_of_mem_play {e : Event Op Reply} (h : e ∈ (play reply p).1) : e.reply = reply e.op := by
  induction p with
  | ret a => simp [play] at h
  | op o next ih =>
    rw [play, List.mem_cons] at h
    cases h with
    | inl heq => rw [heq]
    | inr hrest => exact ih (reply o) hrest

@[simp]
theorem play_pure (a : α) : play reply (pure a : Prog Op Reply α) = ([], a) := rfl

@[simp]
theorem play_perform {Reply : Op → Type w} (reply : (o : Op) → Reply o) (o : Op)
    : play reply (perform o : Prog Op Reply (Reply o)) = ([⟨o, reply o⟩], reply o) := rfl

theorem play_perform_bind {Reply : Op → Type w} (reply : (o : Op) → Reply o) {o : Op}
    {f : Reply o → Prog Op Reply β}
    : play reply (perform o >>= f)
        =
      (⟨o, reply o⟩ :: (play reply (f (reply o))).1, (play reply (f (reply o))).2) := rfl

@[simp]
theorem play_bind (p : Prog Op Reply α) (f : α → Prog Op Reply β)
    : play reply (p >>= f)
        =
      ((play reply p).1 ++ (play reply (f (play reply p).2)).1,
        (play reply (f (play reply p).2)).2) := by
  induction p with
  | ret a => rfl
  | op o next ih =>
    have hnext := ih (reply o)
    change play reply ((next (reply o)).bind f) = _ at hnext
    change (_ :: (play reply ((next (reply o)).bind f)).1, (play reply ((next (reply o)).bind f)).2) = _
    rw [hnext]
    rfl

end Play

section PlayFrom

variable {σ : Type s} (reply : σ → (o : Op) → Reply o × σ)

/--
What a program does and returns where the replies depend on a state that the operations change.
-/
def playFrom : Prog Op Reply α → σ → List (Event Op Reply) × α
  | .ret a, _ => ([], a)
  | .op o next, s =>
    let (r, s) := reply s o
    let played := playFrom (next r) s
    (⟨o, r⟩ :: played.1, played.2)

theorem returns_playFrom (p : Prog Op Reply α) (s : σ)
    : Returns p (playFrom reply p s).1 (playFrom reply p s).2 := by
  induction p generalizing s with
  | ret a => exact .nil _
  | op o next ih => exact .cons (ih (reply s o).1 (reply s o).2)

theorem forall_mem_playFrom {I : σ → Prop} {ok : Event Op Reply → Prop}
    (hstep : ∀ s o, I s → ok ⟨o, (reply s o).1⟩ ∧ I (reply s o).2) (p : Prog Op Reply α) {s : σ} (hs : I s)
    : ∀ e ∈ (playFrom reply p s).1, ok e := by
  induction p generalizing s with
  | ret a => simp [playFrom]
  | op o next ih =>
    obtain ⟨hok, hnext⟩ := hstep s o hs
    intro e he
    rw [playFrom, List.mem_cons] at he
    cases he with
    | inl heq =>
      rw [heq]
      exact hok
    | inr hrest => exact ih (reply s o).1 hnext e hrest

end PlayFrom

section Run

variable {σ : Type s} {χ : Type c} (answer : σ → (o : Op) → χ → Option (Reply o × σ))

/--
A program run on its own over a state, where the choices say one after the other how its operations
are answered.
-/
def run : Prog Op Reply α → σ → List χ → Option (α × σ)
  | .ret a, s, [] => some (a, s)
  | .op o next, s, choice :: choices =>
    match answer s o choice with
    | none => none
    | some (r, s) => run (next r) s choices
  | _, _, _ => none

variable {answer} {s s' : σ} {choices : List χ}

@[simp]
theorem run_pure {a b : α}
    : (pure a : Prog Op Reply α).run answer s choices = some (b, s') ↔ choices = [] ∧ a = b ∧ s = s' := by
  change run answer (.ret a) s choices = _ ↔ _
  cases choices <;> simp [run]

theorem run_op {o : Op} {next : Reply o → Prog Op Reply α} {a : α}
    : run answer (.op o next) s choices = some (a, s')
        ↔
      ∃ choice rest r t, choices = choice :: rest ∧ answer s o choice = some (r, t) ∧
        (next r).run answer t rest = some (a, s') := by
  constructor
  . intro hrun
    cases choices with
    | nil => contradiction
    | cons choice rest =>
      simp only [run] at hrun
      split at hrun
      . contradiction
      . next r t hanswer => exact ⟨choice, rest, r, t, rfl, hanswer, hrun⟩
  . rintro ⟨choice, rest, r, t, rfl, hanswer, hrun⟩
    simp only [run, hanswer]
    exact hrun

theorem run_perform_bind {Reply : Op → Type w} {answer : σ → (o : Op) → χ → Option (Reply o × σ)}
    {o : Op} {f : Reply o → Prog Op Reply β} {b : β}
    : (perform o >>= f).run answer s choices = some (b, s')
        ↔
      ∃ choice rest r t, choices = choice :: rest ∧ answer s o choice = some (r, t) ∧
        (f r).run answer t rest = some (b, s') :=
  run_op

theorem run_bind {f : α → Prog Op Reply β} {b : β}
    : (p >>= f).run answer s choices = some (b, s')
        ↔
      ∃ a t first rest, choices = first ++ rest ∧ p.run answer s first = some (a, t) ∧
        (f a).run answer t rest = some (b, s') := by
  induction p generalizing s choices with
  | ret a =>
    constructor
    . intro hrun
      exact ⟨a, s, [], choices, rfl, rfl, hrun⟩
    . rintro ⟨a', t, first, rest, rfl, hfirst, hrest⟩
      obtain ⟨rfl, rfl, rfl⟩ := run_pure.mp hfirst
      exact hrest
  | op o next ih =>
    constructor
    . intro hrun
      obtain ⟨choice, choices, r, t, rfl, hanswer, hnext⟩ := run_op.mp hrun
      obtain ⟨a, t', first, rest, rfl, hfirst, hrest⟩ := (ih r).mp hnext
      exact ⟨a, t', choice :: first, rest, rfl,
        run_op.mpr ⟨choice, first, r, t, rfl, hanswer, hfirst⟩, hrest⟩
    . rintro ⟨a, t', first, rest, rfl, hfirst, hrest⟩
      obtain ⟨choice, first, r, t, rfl, hanswer, hnext⟩ := run_op.mp hfirst
      exact run_op.mpr ⟨choice, first ++ rest, r, t, rfl, hanswer,
        (ih r).mpr ⟨a, t', first, rest, rfl, hnext, hrest⟩⟩

end Run

section Resume

variable [DecidableEq Op]

def resume (e : Event Op Reply) : Prog Op Reply α → Option (Prog Op Reply α)
  | .ret _ => none
  | .op o next => if h : e.op = o then some (next (h ▸ e.reply)) else none

theorem resume_eq_some {e : Event Op Reply} (hresume : p.resume e = some q)
    : ∃ next, p = .op e.op next ∧ q = next e.reply := by
  cases p with
  | ret a => contradiction
  | op o next =>
    simp only [resume] at hresume
    split at hresume
    . next heq =>
      subst heq
      rw [Option.some.injEq] at hresume
      exact ⟨next, rfl, hresume.symm⟩
    . contradiction

theorem Does.resume {e : Event Op Reply} (hdoes : Does p h q) {q' : Prog Op Reply α}
    (hresume : q.resume e = some q') : Does p (h ++ [e]) q' := by
  obtain ⟨next, rfl, rfl⟩ := resume_eq_some hresume
  exact hdoes.snoc e.reply

end Resume

section May

variable {k : Op → Prop}

def May (k : Op → Prop) : Prog Op Reply α → Prop
  | .ret _ => False
  | .op o next => k o ∨ ∃ r, May k (next r)

theorem May.of_next {o : Op} {next : Reply o → Prog Op Reply α} {r : Reply o} (h : May k (next r))
    : May k (.op o next) :=
  .inr ⟨r, h⟩

end May

section Counts

variable {f : Op → Bool} {m n : Nat}

def Counts (f : Op → Bool) (n : Nat) (p : Prog Op Reply α) : Prop :=
  ∀ h a, Returns p h a → h.countP (fun e => f e.op) = n

theorem counts_pure (a : α) : Counts f 0 (pure a : Prog Op Reply α) := by
  intro h b hreturns
  rw [(returns_pure.mp hreturns).1]
  rfl

theorem counts_perform {Reply : Op → Type w} (o : Op)
    : Counts f (f o).toNat (perform o : Prog Op Reply (Reply o)) := by
  intro h r hreturns
  rw [returns_perform.mp hreturns, List.countP_singleton]
  cases f o <;> rfl

theorem Counts.bind {k : α → Prog Op Reply β} (hp : Counts f m p) (hk : ∀ a, Counts f n (k a))
    : Counts f (m + n) (p >>= k) := by
  intro h b hreturns
  obtain ⟨a, h₁, h₂, rfl, hfirst, hsecond⟩ := returns_bind.mp hreturns
  rw [List.countP_append, hp _ _ hfirst, hk a _ _ hsecond]

theorem Counts.zero_bind {k : α → Prog Op Reply β} (hp : Counts f 0 p) (hk : ∀ a, Counts f n (k a))
    : Counts f n (p >>= k) := by
  rw [← Nat.zero_add n]
  exact hp.bind hk

theorem counts_perform_bind {Reply : Op → Type w} {o : Op} {k : Reply o → Prog Op Reply β}
    (ho : f o = false) (hk : ∀ r, Counts f n (k r)) : Counts f n (perform o >>= k) := by
  apply Counts.zero_bind _ hk
  have hcounts : Counts f (f o).toNat (perform o : Prog Op Reply (Reply o)) := counts_perform o
  rwa [ho] at hcounts

theorem exists_returns (hreply : ∀ o, Nonempty (Reply o)) (p : Prog Op Reply α)
    : ∃ h a, Returns p h a := by
  induction p with
  | ret a => exact ⟨[], a, .nil _⟩
  | op o next ih =>
    obtain ⟨r⟩ := hreply o
    obtain ⟨h, a, hreturns⟩ := ih r
    exact ⟨⟨o, r⟩ :: h, a, .cons hreturns⟩

theorem Does.exists_returns (hreply : ∀ o, Nonempty (Reply o)) (hdoes : Does p h q)
    : ∃ h' a, Returns p (h ++ h') a := by
  obtain ⟨h', a, hreturns⟩ := Prog.exists_returns hreply q
  exact ⟨h', a, hdoes.trans hreturns⟩

end Counts

section AtMost

variable {m n : Nat} {e : Event Op Reply}

def AtMost : Prog Op Reply α → Nat → Prop
  | .ret _, _ => True
  | .op _ _, 0 => False
  | .op _ next, n + 1 => ∀ r, AtMost (next r) n

theorem AtMost.mono (hp : p.AtMost m) (hle : m ≤ n) : p.AtMost n := by
  induction p generalizing m n with
  | ret a => trivial
  | op o next ih =>
    cases m with
    | zero => exact hp.elim
    | succ m =>
      obtain ⟨n, rfl⟩ := Nat.exists_eq_add_of_le' (Nat.le_trans (Nat.succ_pos m) hle)
      intro r
      exact ih r (hp r) (Nat.le_of_succ_le_succ hle)

theorem AtMost.bind {f : α → Prog Op Reply β} {k : Nat} (hp : p.AtMost m) (n : Nat) (hle : m + n ≤ k)
    (hf : ∀ a, (f a).AtMost n) : (p >>= f).AtMost k := by
  induction p generalizing m k with
  | ret a => exact (hf a).mono (Nat.le_trans (Nat.le_add_left n m) hle)
  | op o next ih =>
    cases m with
    | zero => exact hp.elim
    | succ m =>
      obtain ⟨k, rfl⟩ := Nat.exists_eq_add_of_le' (show 1 ≤ k by omega)
      intro r
      exact ih r (hp r) (by omega)

theorem atMost_perform_bind {Reply : Op → Type w} {o : Op} {f : Reply o → Prog Op Reply β}
    (hf : ∀ r, (f r).AtMost n) : (perform o >>= f).AtMost (n + 1) :=
  hf

theorem atMost_perform {Reply : Op → Type w} (o : Op)
    : (perform o : Prog Op Reply (Reply o)).AtMost 1 :=
  fun _ => trivial

theorem AtMost.resume [DecidableEq Op] (hp : p.AtMost n) (hresume : p.resume e = some q)
    : ∃ m, n = m + 1 ∧ q.AtMost m := by
  obtain ⟨next, rfl, rfl⟩ := resume_eq_some hresume
  cases n with
  | zero => exact hp.elim
  | succ n => exact ⟨n, rfl, hp e.reply⟩

end AtMost

end Prog
end Foundation
